import Os5Sem.ReapHistory
import Os5Sem.ReapSafety

/-!
What becomes of a thread for which `reap_enqueue` was called once. A call carries it
until it has taken the lock, when the thread gets its place in the order of the queue,
unless there is no memory for its node (`Fate`). When no call is in progress and the
reaper has nothing to do, it has visited all threads of the order, and all nodes are
freed (`Rest`).
-/
namespace Os5Sem.ReapRest
open Os5Sem.Chains Os5Sem.ReapQueue Os5Sem.ReapInvariant Os5Sem.ReapCalls Os5Sem.ReapHistory

variable {Proc : Type} {σ σ' : State Proc} {queue batch : List Nat} {t : Nat}

/-! ### The fate of a thread -/

/-- Where the thread is. -/
inductive Fate (t : Nat) (σ : State Proc) : Prop
  | outside (entered : σ.entered t = 0) (nobody : ∀ p, carried σ p ≠ some t) (out : σ.order.count t = 0)
  | onWay (p : Proc) (entered : σ.entered t = 1) (only : ∀ q, carried σ q = some t ↔ q = p) (out : σ.order.count t = 0)
  | linked (entered : σ.entered t = 1) (nobody : ∀ p, carried σ p ≠ some t) (once : σ.order.count t = 1)
  | dropped (entered : σ.entered t = 1) (nobody : ∀ p, carried σ p ≠ some t) (out : σ.order.count t = 0)

/-- The thread is not lost: it has not been handed over yet, or is on its way, or in
    the order. -/
def Whole (t : Nat) (σ : State Proc) : Prop := σ.entered t = 0 ∨ (∃ p, carried σ p = some t) ∨ t ∈ σ.order

theorem start_fate (t : Nat) : Fate t (start Proc) := .outside rfl (fun _ => by simp [carried,start]) (by simp [start])

/-- A step that does not concern the thread. -/
theorem Fate.same (fate : Fate t σ) (entered : σ'.entered t = σ.entered t)
    (carriers : ∀ p, carried σ' p = some t ↔ carried σ p = some t) (order : σ'.order.count t = σ.order.count t) :
    Fate t σ' ∧ (Whole t σ' ↔ Whole t σ) := by
  refine ⟨?_,?_⟩
  · cases fate with
    | outside none nobody out =>
      exact .outside (entered.trans none) (fun p => mt (carriers p).mp (nobody p)) (order.trans out)
    | onWay p one only out =>
      exact .onWay p (entered.trans one) (fun q => (carriers q).trans (only q)) (order.trans out)
    | linked one nobody once =>
      exact .linked (entered.trans one) (fun p => mt (carriers p).mp (nobody p)) (order.trans once)
    | dropped one nobody out =>
      exact .dropped (entered.trans one) (fun p => mt (carriers p).mp (nobody p)) (order.trans out)
  · simp only [Whole,entered,carriers,← List.count_pos_iff,order]

/-- The call that carries the thread. -/
theorem Fate.carrier (fate : Fate t σ) {p : Proc} (carries : carried σ p = some t) :
    σ.entered t = 1 ∧ (∀ q, carried σ q = some t ↔ q = p) ∧ σ.order.count t = 0 := by
  cases fate with
  | outside _ nobody _ => exact absurd carries (nobody p)
  | linked _ nobody _ => exact absurd carries (nobody p)
  | dropped _ nobody _ => exact absurd carries (nobody p)
  | onWay r one only out => exact ⟨one,(only p).mp carries ▸ only,out⟩

/-! ### The nodes -/

/-- Every allocated node is linked, or a call owns it. -/
def Kept (σ : State Proc) (queue batch : List Nat) : Prop :=
  ∀ x, σ.live x = true → x ∈ batch ++ queue ∨ ∃ p, owned (σ.enqueuer p) = some x

theorem Kept.reap {env : Env} (kept : Kept σ queue batch) (shape : Shape σ queue batch)
    (done : reaperMain σ env = some σ') :
    Kept σ' (taking σ.reaper queue batch).1 (taking σ.reaper queue batch).2 := by
  obtain ⟨pcs,effect⟩ := reaperMain_nodes queue shape.batch done
  intro x live
  rw [pcs]
  rcases effect with ⟨same,taken⟩ | ⟨same,rfl,taken⟩ | ⟨y,rest,rfl,same,taken⟩
  · rw [taken]
    exact kept x (same ▸ live)
  · rw [taken]
    exact (kept x (same ▸ live)).imp_left fun member => by simpa using member
  · rw [taken]
    have isNotY : x ≠ y := by
      intro isY
      rw [same,isY,Function.update_self] at live
      cases live
    rw [same,Function.update_of_ne isNotY] at live
    refine (kept x live).imp_left fun member => ?_
    simpa [isNotY] using member

/-- No call is in progress, and the reaper waits for one. -/
structure Rest (σ : State Proc) : Prop where
  quiet : ∀ p, σ.enqueuer p = .idle
  waits : σ.reaper = .loadCount ∨ σ.reaper = .futexWait ∨ σ.reaper = .asleep
  nothing : σ.count = 0

/-- What is known of the queue in a run. -/
def Traced (σ : State Proc) : Prop :=
  ∃ queue batch returned, Invariant σ queue batch ∧ History σ queue batch returned ∧ Kept σ queue batch

theorem start_traced : Traced (start Proc) := ⟨[],[],[],start_invariant,start_history,fun _ live => by cases live⟩

/-- At rest the reaper has visited all threads of the order, and all nodes are freed. -/
theorem Rest.settled (rest : Rest σ) (traced : Traced σ) :
    σ.visited = σ.order ∧ (∀ t, visiting σ.reaper ≠ some t) ∧ ∀ x, σ.live x = false := by
  obtain ⟨queue,batch,returned,inv,hist,kept⟩ := traced
  have count := ReapSafety.count_of_idle inv.accounts rest.quiet
  have nothing := rest.nothing
  have noQueue : queue = [] := List.eq_nil_of_length_eq_zero (by omega)
  have noBatch : batch = [] := List.eq_nil_of_length_eq_zero (by omega)
  subst noQueue noBatch
  refine ⟨?_,?_,fun x => ?_⟩
  · obtain ⟨soon,isSoon,order⟩ := hist.order
    have none : soon = [] := by
      rcases isSoon with ⟨p,x,links,_⟩ | ⟨_,empty⟩
      · rw [rest.quiet p] at links
        cases links
      · exact empty
    have unvisited : unvisited σ.reaper [] = [] := by
      rcases rest.waits with here | here | here <;> rw [here] <;> rfl
    rw [none,unvisited] at order
    simpa [threads] using order
  · intro t
    rcases rest.waits with here | here | here <;> rw [here] <;> simp [visiting]
  · by_contra live
    rcases kept x (by simpa using live) with member | ⟨p,owns⟩
    · cases member
    · rw [rest.quiet p] at owns
      cases owns

variable [DecidableEq Proc]

theorem fate_enter (fate : Fate t σ) {p : Proc} {u : Nat} (idle : σ.enqueuer p = .idle)
    (first : u = t → σ.entered t = 0) : Fate t (σ.enter p u) ∧ (Whole t (σ.enter p u) ↔ Whole t σ) := by
  have before : carried σ p = none := by simp [carried,idle]
  have own := enter_self σ p u
  by_cases isT : u = t
  · subst isT
    have entered := first rfl
    cases fate with
    | outside _ nobody out =>
      have now : (σ.enter p u).entered u = 1 := by simp [State.enter,entered]
      refine ⟨.onWay p now (fun q => ?_) out,iff_of_true (.inr (.inl ⟨p,own⟩)) (.inl entered)⟩
      by_cases isP : q = p
      · exact iff_of_true (isP ▸ own) isP
      · rw [enter_others isP]
        exact iff_of_false (nobody q) isP
    | _ => omega
  · refine fate.same (by simp [State.enter,Ne.symm isT]) (fun q => ?_) rfl
    by_cases isP : q = p
    · subst isP
      rw [own,before]
      simp [isT]
    · rw [enter_others isP]

/-- The place of the thread after a step, when `reap_enqueue` is called for it at
    most once. -/
theorem fate_step {a : Act Proc} (nodes : Nodes σ queue batch) (fate : Fate t σ)
    (first : ∀ p, a = .enter p t → σ.entered t = 0) (done : step σ a = some σ') :
    Fate t σ' ∧ (Whole t σ' ↔ Whole t σ ∧ ¬ Drops t σ a) := by
  cases a with
  | enter p u =>
    simp only [step] at done
    split at done <;> cases done
    rw [show (Whole t σ ∧ ¬ Drops t σ (.enter p u)) ↔ Whole t σ from and_iff_left id]
    exact fate_enter fate ‹_› fun isT => first p (by rw [isT])
  | reap env =>
    rw [show (Whole t σ ∧ ¬ Drops t σ (.reap env)) ↔ Whole t σ from and_iff_left id]
    obtain ⟨pcs,node,entered⟩ := reaperMain_frame done
    exact fate.same (by rw [entered]) (fun p => by simp only [carried,pcs,node]) (by rw [reaperMain_order done])
  | enqueue p env =>
    obtain ⟨others,entered,effect⟩ := reapEnqueue_carried nodes done
    rcases effect with ⟨keeps,own,order⟩ | ⟨u,keeps,was,now,order⟩ | ⟨u,drops,was,now,order⟩
    · rw [and_iff_left (keeps t)]
      refine fate.same (by rw [entered]) (fun q => ?_) (by rw [order])
      by_cases isP : q = p
      · rw [isP,own]
      · rw [others q isP]
    · rw [and_iff_left (keeps t)]
      by_cases isT : u = t
      · subst isT
        obtain ⟨one,only,out⟩ := fate.carrier was
        have count : σ'.order.count u = 1 := by rw [order,List.count_append,out]; simp
        refine ⟨.linked (by rw [entered,one]) (fun q carries => ?_) count,
          iff_of_true (.inr (.inr (List.count_pos_iff.mp (by omega)))) (.inr (.inl ⟨p,was⟩))⟩
        by_cases isP : q = p
        · rw [isP,now] at carries
          cases carries
        · exact isP ((only q).mp (others q isP ▸ carries))
      · refine fate.same (by rw [entered]) (fun q => ?_) (by rw [order,List.count_append]; simp [isT])
        by_cases isP : q = p
        · rw [isP,now,was]
          simp [isT]
        · rw [others q isP]
    · by_cases isT : u = t
      · subst isT
        obtain ⟨one,only,out⟩ := fate.carrier was
        have nobody : ∀ q, carried σ' q ≠ some u := by
          intro q carries
          by_cases isP : q = p
          · rw [isP,now] at carries
            cases carries
          · exact isP ((only q).mp (others q isP ▸ carries))
        refine ⟨.dropped (by rw [entered,one]) nobody (by rw [order,out]),iff_of_false ?_ fun both => ?_⟩
        · rintro (none | ⟨q,carries⟩ | member)
          · rw [entered] at none
            omega
          · exact nobody q carries
          · rw [order] at member
            exact absurd (List.count_pos_iff.mpr member) (by omega)
        · exact both.2 ((drops u).mpr rfl)
      · rw [and_iff_left fun is => isT ((drops t).mp is).symm]
        refine fate.same (by rw [entered]) (fun q => ?_) (by rw [order])
        by_cases isP : q = p
        · rw [isP,now,was]
          simp [isT]
        · rw [others q isP]

/-- A call that owns a node allocates none. -/
theorem live_of_owned {p : Proc} {env : Env} {x : Nat} (owns : owned (σ.enqueuer p) = some x)
    (done : reapEnqueue σ p env = some σ') : σ'.live = σ.live := by
  cases here : σ.enqueuer p <;> rw [here] at owns <;> simp only [reapEnqueue,here] at done
  case fill => cases done; rfl
  case storeHead => cases done; rfl
  case link => cases done; rfl
  case spinLock => split at done <;> cases done <;> rfl
  case loadTail => split at done <;> cases done <;> rfl
  case loadOldTail => split at done <;> cases done; rfl
  all_goals cases owns

theorem Kept.enqueue {p : Proc} {env : Env} (kept : Kept σ queue batch) (done : reapEnqueue σ p env = some σ') :
    Kept σ' (linking (σ.enqueuer p) queue) batch := by
  obtain ⟨pc,pcs,effect⟩ := reapEnqueue_nodes queue done
  have own : σ'.enqueuer p = pc := by rw [pcs,Function.update_self]
  have other : ∀ q, q ≠ p → σ'.enqueuer q = σ.enqueuer q := fun q different => by
    rw [pcs,Function.update_of_ne different]
  intro x live
  rcases effect with ⟨keeps,same,linked⟩ | ⟨_,same,y,was,linked⟩ | ⟨linked,y,now,free,same⟩
  · rw [linked]
    refine (kept x (same ▸ live)).imp_right ?_
    rintro ⟨q,owns⟩
    by_cases isP : q = p
    · exact ⟨p,by rw [own,keeps,← isP,owns]⟩
    · exact ⟨q,by rw [other q isP,owns]⟩
  · rw [linked]
    rcases kept x (same ▸ live) with member | ⟨q,owns⟩
    · exact .inl (by rw [← List.append_assoc]; exact List.mem_append_left _ member)
    · by_cases isP : q = p
      · rw [isP,was] at owns
        cases owns
        exact .inl (by simp)
      · exact .inr ⟨q,by rw [other q isP,owns]⟩
  · rw [linked]
    by_cases isY : x = y
    · exact .inr ⟨p,by rw [own,now,isY]⟩
    · rw [same,Function.update_of_ne isY] at live
      refine (kept x live).imp_right ?_
      rintro ⟨q,owns⟩
      refine ⟨q,?_⟩
      rw [other q ?_,owns]
      intro isP
      -- The call has owned nothing before.
      have still := live_of_owned (isP ▸ owns) done
      rw [same] at still
      have new := congrFun still y
      rw [Function.update_self,free] at new
      cases new

theorem traced_step {a : Act Proc} (traced : Traced σ) (done : step σ a = some σ') : Traced σ' := by
  obtain ⟨queue,batch,returned,inv,hist,kept⟩ := traced
  refine ⟨_,_,_,inv.step done,hist.step inv done,?_⟩
  cases a with
  | enter p t =>
    simp only [step] at done
    split at done <;> cases done
    rename_i idle
    intro x live
    refine (kept x live).imp_right ?_
    rintro ⟨q,owns⟩
    refine ⟨q,?_⟩
    by_cases isP : q = p
    · rw [isP,idle] at owns
      cases owns
    · simpa [State.enter,State.goto,isP] using owns
  | enqueue p env => exact kept.enqueue done
  | reap env => exact kept.reap inv.shape done

end Os5Sem.ReapRest

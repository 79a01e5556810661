import Os5Sem.ReapSafety

/-!
The calls of `reap_enqueue` against the order in which they take the lock: a call
carries its thread until then, or has no memory for its node (`placed_run`).
-/
namespace Os5Sem.ReapCalls
open Os5Sem.ReapQueue Os5Sem.ReapInvariant
open scoped List

variable {Proc : Type} {σ σ' : State Proc} {queue batch : List Nat} {t : Nat}

/-! ### What a call does with its thread -/

/-- The thread that a call has not brought into the order yet. -/
def carried (σ : State Proc) (p : Proc) : Option Nat :=
  match σ.enqueuer p with
  | .malloc t | .fill t _ => some t
  | .spinLock x => some (σ.node x).thread
  | _ => none

/-- There is no memory for the node of the thread. -/
def Drops (t : Nat) (σ : State Proc) : Act Proc → Prop
  | .enqueue p env => σ.enqueuer p = .malloc t ∧ env.address = none
  | _ => False

theorem reaperMain_order {env : Env} (done : reaperMain σ env = some σ') : σ'.order = σ.order := by
  cases here : σ.reaper with
  | spinUnlock list => cases list <;> simp only [reaperMain,here] at done <;> cases done <;> rfl
  | fetchSub n =>
    simp only [reaperMain,here] at done
    cases done
    split <;> rfl
  | _ =>
    simp only [reaperMain,here] at done
    try split at done
    all_goals cases done
    all_goals rfl

/-- The thread that `reap_enqueue` is called for. -/
def calling : Act Proc → Option Nat
  | .enter _ t => some t
  | _ => none

def called (acts : List (Act Proc)) : List Nat := acts.filterMap calling

/-- The thread that there is no memory for. -/
def dropping (σ : State Proc) : Act Proc → List Nat
  | .enqueue p env =>
    match σ.enqueuer p,env.address with
    | .malloc t,none => [t]
    | _,_ => []
  | _ => []

theorem mem_dropping {a : Act Proc} : t ∈ dropping σ a ↔ Drops t σ a := by
  cases a with
  | enqueue p env =>
    simp only [dropping,Drops]
    split
    · rename_i u here none
      simp [here,none,eq_comm]
    · rename_i other
      exact iff_of_false (by simp) fun drops => other t drops.1 drops.2
  | _ => exact iff_of_false (by simp [dropping]) id

theorem dropping_none {a : Act Proc} (keeps : ∀ t, ¬ Drops t σ a) : dropping σ a = [] :=
  List.eq_nil_iff_forall_not_mem.mpr fun t member => keeps t (mem_dropping.mp member)

theorem dropping_one {a : Act Proc} (drops : Drops t σ a) : dropping σ a = [t] := by
  cases a with
  | enqueue p env => simp only [dropping,drops.1,drops.2]
  | _ => exact drops.elim

/-! ### The calls of a run -/

/-- The threads of all calls are those of the order, those without memory, and those
    that calls carry. -/
def Placed (σ : State Proc) (calls gone : List Nat) : Prop :=
  ∃ carriers : List Proc, carriers.Nodup ∧ (∀ p, p ∈ carriers ↔ carried σ p ≠ none) ∧
    calls.Perm (σ.order ++ gone ++ carriers.filterMap (carried σ))

variable {calls gone : List Nat}

theorem start_placed : Placed (start Proc) [] [] := ⟨[],List.nodup_nil,fun p => by simp [carried,start],.refl _⟩

theorem Placed.same (placed : Placed σ calls gone) (carriers : carried σ' = carried σ) (order : σ'.order = σ.order) :
    Placed σ' calls gone := by
  rw [Placed,carriers,order]
  exact placed

variable [DecidableEq Proc]

/-- A call keeps the thread that it carries, brings it into the order, or drops it. -/
theorem reapEnqueue_carried {p : Proc} {env : Env} (nodes : Nodes σ queue batch)
    (done : reapEnqueue σ p env = some σ') :
    (∀ q, q ≠ p → carried σ' q = carried σ q) ∧ σ'.entered = σ.entered ∧
      ((∀ t, ¬ Drops t σ (.enqueue p env)) ∧ carried σ' p = carried σ p ∧ σ'.order = σ.order ∨
        (∃ t, (∀ u, ¬ Drops u σ (.enqueue p env)) ∧ carried σ p = some t ∧ carried σ' p = none ∧
          σ'.order = σ.order ++ [t]) ∨
        ∃ t, (∀ u, Drops u σ (.enqueue p env) ↔ u = t) ∧ carried σ p = some t ∧ carried σ' p = none ∧
          σ'.order = σ.order) := by
  obtain ⟨_,_,entered,_,_,_,_⟩ := reapEnqueue_threads [] done
  -- A call only writes a node that no other call owns.
  have goes : ∀ (τ : State Proc) (pc : EnqueuePc), τ.enqueuer = σ.enqueuer →
      (∀ q x, q ≠ p → σ.enqueuer q = .spinLock x → (τ.node x).thread = (σ.node x).thread) →
        ∀ q, q ≠ p → carried (τ.goto p pc) q = carried σ q := by
    intro τ pc pcs writes q other
    simp only [carried,State.goto,pcs,Function.update_of_ne other]
    cases here : σ.enqueuer q <;> first | rfl | exact congrArg some (writes q _ other here)
  have silent : (∀ u, σ.enqueuer p ≠ .malloc u) → ∀ u, ¬ Drops u σ (.enqueue p env) := fun isNot u drops =>
    isNot u drops.1
  cases here : σ.enqueuer p with
  | idle => simp [reapEnqueue,here] at done
  | malloc t =>
    simp only [reapEnqueue,here] at done
    split at done
    · rename_i none
      cases done
      refine ⟨goes σ _ rfl fun _ _ _ _ => rfl,rfl,.inr (.inr ⟨t,fun u => ?_,?_,?_,rfl⟩)⟩
      · simp [Drops,here,none,eq_comm]
      · simp [carried,here]
      · simp [carried,State.goto]
    · rename_i x some
      split at done <;> cases done
      refine ⟨goes { σ with live := _ } _ rfl fun _ _ _ _ => rfl,rfl,.inl ⟨fun u drops => ?_,?_,rfl⟩⟩
      · rw [drops.2] at some
        cases some
      · simp [carried,State.goto,here]
  | fill t x =>
    simp only [reapEnqueue,here] at done
    cases done
    refine ⟨goes (σ.setNode x ⟨t,none⟩) _ rfl fun q y other waits => ?_,rfl,
      .inl ⟨silent (by simp [here]),?_,rfl⟩⟩
    · have apart : y ≠ x := by
        intro same
        exact other (nodes.unique q p x (by rw [waits,same]; rfl) (by rw [here]; rfl))
      simp [State.setNode,apart]
    · simp [carried,State.goto,State.setNode,here]
  | spinLock x =>
    simp only [reapEnqueue,here] at done
    split at done <;> cases done
    · exact ⟨fun _ _ => rfl,rfl,.inl ⟨silent (by simp [here]),rfl,rfl⟩⟩
    · refine ⟨goes { σ with lock := _, order := _ } _ rfl fun _ _ _ _ => rfl,rfl,
        .inr (.inl ⟨(σ.node x).thread,silent (by simp [here]),?_,?_,rfl⟩)⟩
      · simp [carried,here]
      · simp [carried,State.goto]
  | link x oldTail =>
    simp only [reapEnqueue,here] at done
    cases done
    refine ⟨goes (σ.setNext oldTail (some x)) _ rfl fun q y _ _ => ?_,rfl,.inl ⟨silent (by simp [here]),?_,rfl⟩⟩
    · by_cases same : y = oldTail
      · simp [State.setNext,State.setNode,same]
      · simp [State.setNext,State.setNode,same]
    · simp [carried,State.goto,here]
  | futexWake =>
    simp only [reapEnqueue,here] at done
    cases done
    rcases futexWake_cases σ with same | ⟨_,woken⟩
    · rw [same]
      exact ⟨goes σ _ rfl fun _ _ _ _ => rfl,rfl,.inl ⟨silent (by simp [here]),by simp [carried,State.goto,here],rfl⟩⟩
    · rw [woken]
      exact ⟨goes (σ.reaperAt .loadCount) _ rfl fun _ _ _ _ => rfl,rfl,
        .inl ⟨silent (by simp [here]),by simp [carried,State.goto,here],rfl⟩⟩
  | _ =>
    simp only [reapEnqueue,here] at done
    try split at done
    all_goals cases done
    all_goals exact ⟨goes _ _ rfl fun _ _ _ _ => rfl,rfl,
      .inl ⟨silent (by simp [here]),by simp [carried,State.goto,here],rfl⟩⟩

/-- The threads that there is no memory for in a run. -/
def dropped : State Proc → List (Act Proc) → List Nat
  | _, [] => []
  | σ, a :: rest =>
    dropping σ a ++
      match step σ a with
      | none => []
      | some next => dropped next rest

theorem enter_self (σ : State Proc) (p : Proc) (t : Nat) : carried (σ.enter p t) p = some t := by
  simp [carried,State.enter,State.goto]

theorem enter_others {p q : Proc} (other : q ≠ p) (t : Nat) : carried (σ.enter p t) q = carried σ q := by
  simp [carried,State.enter,State.goto,other]

/-- A call that has no thread begins to carry one. -/
theorem Placed.enter (placed : Placed σ calls gone) {p : Proc} (idle : σ.enqueuer p = .idle) (t : Nat) :
    Placed (σ.enter p t) (calls ++ [t]) gone := by
  obtain ⟨carriers,distinct,carries,perm⟩ := placed
  have absent : p ∉ carriers := fun member => (carries p).mp member (by simp [carried,idle])
  refine ⟨p :: carriers,List.nodup_cons.mpr ⟨absent,distinct⟩,fun q => ?_,?_⟩
  · by_cases isP : q = p
    · simp [isP,enter_self]
    · rw [List.mem_cons,or_iff_right isP,carries q,enter_others isP]
  · have kept : carriers.filterMap (carried (σ.enter p t)) = carriers.filterMap (carried σ) :=
      List.filterMap_congr fun q member => enter_others (fun isP : q = p => absent (isP ▸ member)) t
    rw [List.filterMap_cons_some (enter_self σ p t),kept]
    calc calls ++ [t]
      _ ~ t :: calls := List.perm_append_singleton ..
      _ ~ t :: (σ.order ++ gone ++ carriers.filterMap (carried σ)) := perm.cons t
      _ ~ σ.order ++ gone ++ t :: carriers.filterMap (carried σ) := List.perm_middle.symm

/-- A call lets its thread go: into the order, or because there is no memory. -/
theorem Placed.release (placed : Placed σ calls gone) {p : Proc} {gone' : List Nat}
    (others : ∀ q, q ≠ p → carried σ' q = carried σ q) (was : carried σ p = some t) (now : carried σ' p = none)
    (found : (σ'.order ++ gone').Perm (t :: (σ.order ++ gone))) : Placed σ' calls gone' := by
  obtain ⟨carriers,distinct,carries,perm⟩ := placed
  have member : p ∈ carriers := (carries p).mpr (by simp [was])
  refine ⟨carriers.erase p,distinct.erase p,fun q => ?_,?_⟩
  · rw [distinct.mem_erase_iff]
    by_cases isP : q = p
    · simp [isP,now]
    · rw [and_iff_right isP,carries q,others q isP]
  · have kept : (carriers.erase p).filterMap (carried σ') = (carriers.erase p).filterMap (carried σ) :=
      List.filterMap_congr fun q member => others q (distinct.mem_erase_iff.mp member).1
    have split := (List.perm_cons_erase member).filterMap (carried σ)
    rw [List.filterMap_cons_some was] at split
    rw [kept]
    calc calls
      _ ~ σ.order ++ gone ++ carriers.filterMap (carried σ) := perm
      _ ~ σ.order ++ gone ++ t :: (carriers.erase p).filterMap (carried σ) := split.append_left _
      _ ~ t :: (σ.order ++ gone) ++ (carriers.erase p).filterMap (carried σ) := List.perm_middle
      _ ~ σ'.order ++ gone' ++ (carriers.erase p).filterMap (carried σ) := found.symm.append_right _

theorem placed_step {a : Act Proc} (nodes : Nodes σ queue batch) (placed : Placed σ calls gone)
    (done : step σ a = some σ') : Placed σ' (calls ++ (calling a).toList) (gone ++ dropping σ a) := by
  cases a with
  | enter p t =>
    simp only [step] at done
    split at done <;> cases done
    exact (List.append_nil gone).symm ▸ placed.enter ‹_› t
  | reap env =>
    obtain ⟨pcs,node,_⟩ := reaperMain_frame done
    have still : carried σ' = carried σ := funext fun p => by simp only [carried,pcs,node]
    exact (List.append_nil calls).symm ▸ (List.append_nil gone).symm ▸ placed.same still (reaperMain_order done)
  | enqueue p env =>
    rw [show calls ++ (calling (.enqueue p env)).toList = calls from List.append_nil _]
    obtain ⟨others,_,effect⟩ := reapEnqueue_carried nodes done
    rcases effect with ⟨keeps,own,order⟩ | ⟨t,keeps,was,now,order⟩ | ⟨t,drops,was,now,order⟩
    · rw [dropping_none keeps,List.append_nil]
      refine placed.same (funext fun q => ?_) order
      by_cases isP : q = p
      · rw [isP,own]
      · exact others q isP
    · rw [dropping_none keeps,List.append_nil]
      refine placed.release others was now ?_
      rw [order,List.append_assoc]
      exact List.perm_middle
    · rw [dropping_one ((drops t).mpr rfl)]
      refine placed.release others was now ?_
      rw [order,← List.append_assoc]
      exact List.perm_append_singleton ..

/-- In every run, each call has brought its thread into the order, is on its way, or
    had no memory for it. -/
theorem placed_run {acts : List (Act Proc)} (placed : Placed σ calls gone) (inv : Invariant σ queue batch)
    (ran : Transition.run step σ acts = some σ') : Placed σ' (calls ++ called acts) (gone ++ dropped σ acts) := by
  induction acts generalizing σ queue batch calls gone with
  | nil =>
    cases ran
    exact (List.append_nil calls).symm ▸ (List.append_nil gone).symm ▸ placed
  | cons a rest ih =>
    obtain ⟨next,taken,ran⟩ := Transition.run_cons.mp ran
    have later := ih (placed_step inv.nodes placed taken) (inv.step taken) ran
    rw [List.append_assoc,List.append_assoc] at later
    have calls_rest : called (a :: rest) = (calling a).toList ++ called rest := by
      cases is : calling a <;> simp [called,is]
    rw [calls_rest,dropped,taken]
    exact later

end Os5Sem.ReapCalls

import Os5Sem.ReapInvariant

/-!
What the invariant of the reap queue says of the reaper: it never sleeps while
there is work, and its check of the counter fails exactly when it subtracts nodes
that are not counted yet.
-/
namespace Os5Sem.ReapSafety
open Os5Sem.Chains Os5Sem.ReapQueue Os5Sem.ReapInvariant
open Os5Sem.Transition (Along Throughout)

variable {Proc : Type} {σ σ' : State Proc} {queue batch : List Nat}

/-- Outside of all calls the counter is the number of linked nodes that the reaper
    has not subtracted yet. -/
theorem count_of_idle (accounts : Accounts σ queue batch) (quiet : ∀ p, σ.enqueuer p = .idle) :
    σ.count = queue.length + batch.length + processed σ.reaper := by
  obtain ⟨uncounted,members,balance⟩ := accounts.balance
  have none : uncounted = ∅ := by
    refine Finset.eq_empty_of_forall_notMem fun p member => ?_
    have counting := (members p).mp member
    rw [quiet p] at counting
    exact counting
  rw [none,Finset.card_empty] at balance
  omega

theorem unlocked_of_idle (exclusive : Exclusive σ) (outside : ¬ ReaperLocks σ.reaper)
    (quiet : ∀ p, σ.enqueuer p = .idle) :
    σ.lock = false := by
  by_contra taken
  rcases exclusive.holder (by simpa using taken) with reaper | ⟨p,holds⟩
  · exact outside reaper
  · rw [quiet p] at holds
    exact holds

/-- The reaper has found no `old < processed`, and the counter is not negative. -/
def Consistent (σ : State Proc) : Prop := σ.errors = 0 ∧ 0 ≤ σ.count

/-- The reaper subtracts its batch while more calls stand between linking their
    node and counting it than there are nodes in the queue. -/
def Overdraws (σ : State Proc) : Act Proc → Prop
  | .reap _ => (∃ processed, σ.reaper = .fetchSub processed) ∧
    ∃ (queue : List Nat) (uncounted : Finset Proc), Chain σ.next σ.head queue ∧
      (∀ p, p ∈ uncounted ↔ Uncounted (σ.enqueuer p)) ∧ queue.length < uncounted.card
  | _ => False

/-- Of the reaper's steps only the subtraction touches the counter. -/
theorem reaperMain_consistent {env : Env} (done : reaperMain σ env = some σ') :
    (∀ n, σ.reaper ≠ .fetchSub n) ∧ σ'.errors = σ.errors ∧ σ'.count = σ.count ∨
      ∃ n, σ.reaper = .fetchSub n ∧ σ'.count = σ.count - n ∧
        σ'.errors = if σ.count < n then σ.errors+1 else σ.errors := by
  cases here : σ.reaper with
  | fetchSub n =>
    refine .inr ⟨n,rfl,?_⟩
    simp only [reaperMain,here] at done
    cases done
    split <;> exact ⟨rfl,rfl⟩
  | spinUnlock list =>
    cases list <;> simp only [reaperMain,here] at done <;> cases done <;> exact .inl ⟨by simp,rfl,rfl⟩
  | _ =>
    simp only [reaperMain,here] at done
    try split at done
    all_goals cases done
    all_goals exact .inl ⟨by simp,rfl,rfl⟩

/-- Before the subtraction the counter covers the batch exactly when the queue
    covers the calls that have not counted their node yet. -/
theorem overdraws_iff (inv : Invariant σ queue batch) {n : Nat} (here : σ.reaper = .fetchSub n) (env : Env) :
    Overdraws σ (.reap env) ↔ σ.count < n := by
  obtain ⟨uncounted,members,balance⟩ := inv.accounts.balance
  have none : batch = [] := by
    have at_pc := inv.shape.batch
    rwa [here] at at_pc
  have covers : σ.count < n ↔ queue.length < uncounted.card := by
    rw [none,here,List.length_nil] at balance
    simp only [processed] at balance
    omega
  rw [covers]
  constructor
  · rintro ⟨_,other,calls,chain,members',more⟩
    have same : calls = uncounted := by
      ext p
      rw [members,members']
    rwa [chain_unique chain inv.shape.chain,same] at more
  · intro more
    exact ⟨⟨n,here⟩,queue,uncounted,inv.shape.chain,members,more⟩

variable [DecidableEq Proc]

/-- While the reaper is asleep and no call is in progress, there is nothing to do
    for it. -/
theorem never_sleeps_on_work {acts : List (Act Proc)} (ran : Transition.run step (start Proc) acts = some σ)
    (asleep : σ.reaper = .asleep) (quiet : ∀ p, σ.enqueuer p = .idle) :
    σ.head = none ∧ σ.tail = none ∧ σ.count = 0 := by
  obtain ⟨queue,batch,inv⟩ := run_invariant ran
  have zero : σ.count = 0 := by
    refine (inv.accounts.awake asleep).resolve_right ?_
    rintro ⟨p,wakes⟩
    rw [quiet p] at wakes
    cases wakes
  have count := count_of_idle inv.accounts quiet
  have empty : queue = [] := List.eq_nil_of_length_eq_zero (by omega)
  have unlocked := unlocked_of_idle inv.exclusive (by rw [asleep]; exact id) quiet
  have chain := inv.shape.chain
  have tail := inv.shape.settled unlocked
  rw [empty] at chain tail
  exact ⟨chain,tail,zero⟩

/-- Process 1 hands over thread 7 completely. Process 0 links thread 8, whose node
    the reaper takes before it is counted, so that the counter is negative until
    process 0 goes on. -/
def negativeSchedule : List (Act Nat) :=
  .enter 1 7 :: .enqueue 1 ⟨some 0,false⟩ :: List.replicate 8 (.enqueue 1 ⟨none,false⟩) ++
    .enter 0 8 :: .enqueue 0 ⟨some 1,false⟩ :: List.replicate 7 (.enqueue 0 ⟨none,false⟩) ++
    List.replicate 19 (.reap ⟨none,false⟩) ++ .enqueue 0 ⟨none,false⟩ :: List.replicate 2 (.reap ⟨none,false⟩)

def negativeAfter (acts : List (Act Nat)) : State Nat := (Transition.run step (start Nat) acts).getD (start Nat)

example : (negativeAfter (negativeSchedule.take 34)).count = -1 := by decide

theorem never_sleeps_on_work_negative : (negativeAfter negativeSchedule).head = none ∧
    (negativeAfter negativeSchedule).tail = none ∧ (negativeAfter negativeSchedule).count = 0 :=
  never_sleeps_on_work (rfl : Transition.run step (start Nat) negativeSchedule = _) rfl fun
    | 0 => rfl
    | 1 => rfl
    | _+2 => rfl

/-! ### The check of the counter -/

theorem reapEnqueue_consistent {p : Proc} {env : Env} (done : reapEnqueue σ p env = some σ') :
    σ'.errors = σ.errors ∧ σ.count ≤ σ'.count := by
  cases here : σ.enqueuer p with
  | idle => simp [reapEnqueue,here] at done
  | fetchAdd =>
    simp only [reapEnqueue,here] at done
    split at done <;> cases done <;> exact ⟨rfl,Int.le.intro 1 rfl⟩
  | futexWake =>
    simp only [reapEnqueue,here] at done
    cases done
    unfold State.futexWake
    split <;> exact ⟨rfl,le_rfl⟩
  | _ =>
    simp only [reapEnqueue,here] at done
    try split at done
    all_goals try split at done
    all_goals cases done
    all_goals exact ⟨rfl,le_rfl⟩

theorem consistent_step {a : Act Proc} (inv : ∃ queue batch, Invariant σ queue batch) (consistent : Consistent σ)
    (done : step σ a = some σ') : Consistent σ' ↔ ¬ Overdraws σ a := by
  obtain ⟨queue,batch,inv⟩ := inv
  cases a with
  | enter p t =>
    simp only [step] at done
    split at done <;> cases done
    exact iff_of_true consistent id
  | enqueue p env =>
    obtain ⟨errors,more⟩ := reapEnqueue_consistent done
    exact iff_of_true ⟨errors.trans consistent.1,consistent.2.trans more⟩ id
  | reap env =>
    rcases reaperMain_consistent done with ⟨other,errors,count⟩ | ⟨n,here,count,errors⟩
    · rw [Consistent,errors,count]
      exact iff_of_true consistent fun overdraws => overdraws.1.elim other
    · rw [overdraws_iff inv here,Consistent,errors,count]
      have none := consistent.1
      split <;> omega

/-- In a run the reaper finds no `old < processed` and the counter is never
    negative exactly when the reaper never subtracts its batch while more calls
    have linked a node and not counted it than there are nodes in the queue. -/
theorem consistent_iff {acts : List (Act Proc)} (ran : Transition.run step (start Proc) acts = some σ) :
    Throughout step Consistent (start Proc) acts ↔ Along step (fun σ a => ¬ Overdraws σ a) (start Proc) acts :=
  Transition.throughout_iff_along (I := fun σ => ∃ queue batch, Invariant σ queue batch) (Q := fun _ => True)
    (fun _ _ _ ⟨_,_,inv⟩ done => invariant_step inv done) (fun _ _ _ _ _ => trivial)
    (fun _ _ _ inv consistent _ done => consistent_step inv consistent done) ran ⟨[],[],start_invariant⟩ trivial
    ⟨rfl,le_rfl⟩

/-- The first steps of `negativeSchedule`, up to the subtraction. -/
theorem count_negative : (negativeAfter (negativeSchedule.take 34)).errors = 1 ∧
    (negativeAfter (negativeSchedule.take 34)).count = -1 ∧
    ¬ Throughout step Consistent (start Nat) (negativeSchedule.take 34) := by
  have negative : (negativeAfter (negativeSchedule.take 34)).count = -1 := by decide
  refine ⟨by decide,negative,fun holds => ?_⟩
  have still := (holds (negativeSchedule.take 34) [] _ (List.append_nil _).symm rfl).2
  exact absurd (negative ▸ still) (by decide)

theorem consistent_iff_negative : Throughout step Consistent (start Nat) negativeSchedule ↔
    Along step (fun σ a => ¬ Overdraws σ a) (start Nat) negativeSchedule :=
  consistent_iff (rfl : Transition.run step (start Nat) negativeSchedule = some (negativeAfter negativeSchedule))

end Os5Sem.ReapSafety

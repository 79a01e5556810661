import Os5Sem.ListRefine

/-!
The order in which the operations of the list programs lock the first node, against
the operations that are started: every operation that a thread begins gets a place in
it, when the thread takes its next step (`run_linked`), so that it has them all when no
thread is inside an operation (`quiet_order`).
-/
namespace Os5Sem.ListOrder
open Os5Sem.ListStorage Os5Sem.ListProgram Os5Sem.ListLocks Os5Sem.ListRefine

variable {σ σ' : State} {v : Variant} {s : Storage} {value : Nat → List Char}

/-! ### Whom a step moves -/

theorem lock_cases {t x : Nat} {mode : Mode} (granted : σ.lock t x mode = some σ') :
    ∃ sync, σ' = { σ with sync } := by
  unfold State.lock at granted
  split at granted <;> cases granted
  exact ⟨_,rfl⟩

theorem goto_self {t : Nat} {pc : Pc} : (σ.goto t pc).pc t = pc := Function.update_self ..

theorem goto_others {t u : Nat} {pc : Pc} (other : u ≠ t) : (σ.goto t pc).pc u = σ.pc u :=
    Function.update_of_ne other ..

/-- A step that waits for a lock. -/
theorem lock_others {t u x : Nat} {mode : Mode} {f : State → State} (taken : (σ.lock t x mode).map f = some σ')
    (frame : ∀ σ : State, (f σ).pc u = σ.pc u) : σ'.pc u = σ.pc u := by
  obtain ⟨σ1,granted,rfl⟩ := Option.map_eq_some_iff.mp taken
  obtain ⟨sync,rfl⟩ := lock_cases granted
  exact frame _

theorem lock_own {t x : Nat} {mode : Mode} {f : State → State} {pc : Pc} (taken : (σ.lock t x mode).map f = some σ')
    (own : ∀ σ : State, (f σ).pc t = pc) : σ'.pc t = pc := by
  obtain ⟨σ1,_,rfl⟩ := Option.map_eq_some_iff.mp taken
  exact own σ1

theorem searchPairs_others {t u : Nat} {kind : Searcher} {pc : SearchPc} (other : u ≠ t)
    (taken : searchPairs v s value kind t σ pc = some σ') : σ'.pc u = σ.pc u := by
  cases pc <;> simp only [searchPairs] at taken
  case lockFirst => exact lock_others taken fun _ => goto_others other
  case lockA => exact lock_others taken fun _ => goto_others other
  case lockB => exact lock_others taken fun _ => goto_others other
  all_goals
    try split at taken
    all_goals cases taken
    all_goals exact goto_others other

theorem swapPairs_others {t u k : Nat} {kind : Swapper} {pc : SwapPc} (other : u ≠ t)
    (taken : swapPairs s value kind k t σ pc = some σ') : σ'.pc u = σ.pc u := by
  cases pc <;> simp only [swapPairs] at taken
  case lockPrev => exact lock_others taken fun _ => goto_others other
  case lockCur => exact lock_others taken fun _ => goto_others other
  case lockStep => exact lock_others taken fun _ => goto_others other
  case lockNext => exact lock_others taken fun _ => goto_others other
  case swapNodes prev cur next pc => cases pc <;> cases taken <;> exact goto_others other
  all_goals
    try split at taken
    all_goals cases taken
    all_goals exact goto_others other

/-- A step of a thread moves no other thread. -/
theorem step_others {a : Act} {u : Nat} (other : actor a ≠ some u) (taken : step v s value σ a = some σ') :
    σ'.pc u = σ.pc u := by
  have away : ∀ {t : Nat}, actor a = some t → u ≠ t := fun is same => other (same ▸ is)
  cases step_cases taken with
  | search t kind _ top => exact Function.update_of_ne (away rfl) ..
  | swap t kind randR _ top => exact Function.update_of_ne (away rfl) ..
  | searching here taken => exact searchPairs_others (away rfl) taken
  | swapping here taken => exact swapPairs_others (away rfl) taken
  | stop => rfl

/-! ### What a step adds to the order -/

/-- The operation that a thread has begun, before it locks the first node. -/
def waiting : Pc → Option Op
  | .search kind .lockFirst => some (.search kind)
  | .swap kind k .lockPrev => some (.swap kind k)
  | _ => none

/-- The operation that is started, with its thread. -/
def begun (s : Storage) : Act → Option (Nat × Op)
  | .search t kind => some (t,.search kind)
  | .swap t kind randR => some (t,.swap kind (randR % (s.size - 1)))
  | _ => none

/-- The operations that a schedule starts. -/
def started (s : Storage) (acts : List Act) : List (Nat × Op) := acts.filterMap (begun s)

/-- Those of one thread. -/
def ofThread (t : Nat) (ops : List (Nat × Op)) : List (Nat × Op) := ops.filter fun entry => entry.1 = t

/-- A step of thread `t` inside an operation: the operation gets its place with the
    first one, and nothing changes later. -/
inductive Ordered (σ σ' : State) (t : Nat) : Prop
  | stays (order : σ'.order = σ.order) (before : waiting (σ.pc t) = none) (after : waiting (σ'.pc t) = none)
  | enters {op : Op} (order : σ'.order = σ.order ++ [(t,op)]) (before : waiting (σ.pc t) = some op)
      (after : waiting (σ'.pc t) = none)

/-- A step that waits for a lock, and is not the first one. -/
theorem lock_ordered {t x : Nat} {mode : Mode} {pc : Pc} (taken : (σ.lock t x mode).map
    (fun σ => σ.goto t pc) = some σ')
    (before : waiting (σ.pc t) = none) (after : waiting pc = none) : Ordered σ σ' t := by
  obtain ⟨σ1,granted,rfl⟩ := Option.map_eq_some_iff.mp taken
  obtain ⟨sync,rfl⟩ := lock_cases granted
  exact .stays rfl before (by rw [goto_self]; exact after)

/-- The step that locks the first node. -/
theorem first_ordered {t x : Nat} {mode : Mode} {pc : Pc} {op : Op}
    (taken : (σ.lock t x mode).map (fun σ => (σ.enter t op).goto t pc) = some σ')
    (before : waiting (σ.pc t) = some op) (after : waiting pc = none) : Ordered σ σ' t := by
  obtain ⟨σ1,granted,rfl⟩ := Option.map_eq_some_iff.mp taken
  obtain ⟨sync,rfl⟩ := lock_cases granted
  exact .enters rfl before (by rw [goto_self]; exact after)

theorem searchPairs_ordered {t : Nat} {kind : Searcher} {pc : SearchPc} (here : σ.pc t = .search kind pc)
    (taken : searchPairs v s value kind t σ pc = some σ') : Ordered σ σ' t := by
  cases pc <;> simp only [searchPairs] at taken
  case lockFirst => exact first_ordered taken (by rw [here]; rfl) rfl
  case lockA => exact lock_ordered taken (by rw [here]; rfl) rfl
  case lockB => exact lock_ordered taken (by rw [here]; rfl) rfl
  all_goals
    try split at taken
    all_goals cases taken
    all_goals exact .stays rfl (by rw [here]; rfl) (congrArg waiting goto_self)

theorem waiting_walk (kind : Swapper) (k leftIndex prev cur i : Nat) :
    waiting (.swap kind k (walk leftIndex prev cur i)) = none := by
  unfold walk
  split <;> rfl

theorem swapPairs_ordered {t k : Nat} {kind : Swapper} {pc : SwapPc} (here : σ.pc t = .swap kind k pc)
    (taken : swapPairs s value kind k t σ pc = some σ') : Ordered σ σ' t := by
  cases pc <;> simp only [swapPairs] at taken
  case lockPrev => exact first_ordered taken (by rw [here]; rfl) rfl
  case lockCur => exact lock_ordered taken (by rw [here]; rfl) (waiting_walk ..)
  case lockStep => exact lock_ordered taken (by rw [here]; rfl) rfl
  case lockNext => exact lock_ordered taken (by rw [here]; rfl) rfl
  case unlockStep =>
    cases taken
    exact .stays rfl (by rw [here]; rfl) ((congrArg waiting goto_self).trans (waiting_walk ..))
  case swapNodes prev cur next pc =>
    cases pc <;> cases taken <;> exact .stays rfl (by rw [here]; rfl) (congrArg waiting goto_self)
  all_goals
    try split at taken
    all_goals cases taken
    all_goals exact .stays rfl (by rw [here]; rfl) (congrArg waiting goto_self)

/-! ### The order of a run -/

/-- The operations that a thread has started are those that it has in the order, one
    after the other, and the one that it is going to lock the first node for. -/
def Linked (s : Storage) (past : List Act) (σ : State) : Prop :=
  ∀ t, ofThread t (started s past) = ofThread t σ.order ++ (waiting (σ.pc t)).toList.map (t,·)

theorem started_append (past : List Act) (a : Act) : started s (past ++ [a]) = started s past ++ (begun s a).toList :=
    by
  rw [started,List.filterMap_append]
  cases is : begun s a <;> simp [started,is]

theorem ofThread_append (t : Nat) (one two : List (Nat × Op)) :
    ofThread t (one ++ two) = ofThread t one ++ ofThread t two := List.filter_append ..

theorem ofThread_self (t : Nat) (op : Op) : ofThread t [(t,op)] = [(t,op)] := by simp [ofThread]

theorem ofThread_other {t u : Nat} (other : u ≠ t) (op : Op) : ofThread u [(t,op)] = [] := by
  simp [ofThread,Ne.symm other]

theorem linked_begins {past : List Act} {t : Nat} {op : Op} {pc : Pc} {a : Act} (linked : Linked s past σ)
    (top : σ.pc t = .idle) (is : begun s a = some (t,op)) (waits : waiting pc = some op) :
    Linked s (past ++ [a]) (σ.goto t pc) := by
  intro u
  rw [started_append,is,Option.toList_some,ofThread_append,linked u,List.append_assoc]
  by_cases isT : u = t
  · subst isT
    rw [goto_self,top,waits,ofThread_self]
    rfl
  · rw [goto_others isT,ofThread_other isT,List.append_nil]
    rfl

theorem linked_step {past : List Act} {a : Act} (linked : Linked s past σ) (taken : step v s value σ a = some σ') :
    Linked s (past ++ [a]) σ' := by
  have inside : ∀ t, a = .step t → Ordered σ σ' t → Linked s (past ++ [a]) σ' := by
    intro t is ordered u
    have silent : started s (past ++ [a]) = started s past := by rw [started_append,is]; exact List.append_nil _
    rw [silent,linked u]
    by_cases isT : u = t
    · subst isT
      cases ordered with
      | stays order before after => rw [order,before,after]
      | enters order before after =>
        rw [order,before,after,ofThread_append,ofThread_self]
        exact (List.append_nil _).symm
    · have still : σ'.pc u = σ.pc u := step_others (by rw [is]; exact fun same => isT (Option.some.inj same).symm) taken
      have order : ofThread u σ'.order = ofThread u σ.order := by
        cases ordered with
        | stays order => rw [order]
        | enters order => rw [order,ofThread_append,ofThread_other isT,List.append_nil]
      rw [still,order]
  cases step_cases taken with
  | search t kind _ top => exact linked_begins linked top rfl rfl
  | swap t kind randR _ top => exact linked_begins linked top rfl rfl
  | searching here taken => exact inside _ rfl (searchPairs_ordered here taken)
  | swapping here taken => exact inside _ rfl (swapPairs_ordered here taken)
  | stop =>
    intro t
    rw [started_append]
    exact (congrArg (ofThread t) (List.append_nil _)).trans (linked t)

/-- In every state of a run, the order has the operations that have been started, but
    for those whose threads are still going to lock the first node. -/
theorem run_linked {h : Heap} {acts : List Act} (ran : Transition.run (step v s value) (start h) acts = some σ) :
    Linked s acts σ :=
  Transition.run_history (fun _ _ _ _ linked taken => linked_step linked taken) ran fun _ => rfl

/-- When no thread is inside an operation, the order has the operations that have been
    started, those of each thread in the order in which it has started them. -/
theorem quiet_order {h : Heap} {acts : List Act} (ran : Transition.run (step v s value) (start h) acts = some σ)
    (quiet : ∀ t, σ.pc t = .idle) (t : Nat) : ofThread t σ.order = ofThread t (started s acts) := by
  have linked := run_linked ran t
  rw [quiet t] at linked
  exact (linked.trans (List.append_nil _)).symm

end Os5Sem.ListOrder

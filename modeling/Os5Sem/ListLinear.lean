import Os5Sem.Atomic
import Os5Sem.ListLedger

/-!
The list programs as one atomic object: the list behind the sentinel, on which an
operation acts as a whole when its thread locks the sentinel. Every run of each
program, also in the middle of operations, is a history of this object
(`list_linearizable`).
-/
namespace Os5Sem.ListLinear
open Os5Sem.Serial Os5Sem.Chains Os5Sem.ListStorage Os5Sem.ListProgram Os5Sem.ListLocks Os5Sem.ListConvoy
open Os5Sem.ListRefine Os5Sem.ListOrder Os5Sem.ListSerializable Os5Sem.SwapCounters Os5Sem.ListLedger

abbrev ListEvent := Atomic.Event Nat Op Outcome
abbrev ListObject := Atomic.Object Nat (List Nat) Op Outcome

/-- What a step of the program shows: the begin of an operation, or its end with what
    it has found. -/
def events (s : Storage) (σ : State) (a : Act) (σ' : State) : List ListEvent :=
  match a with
  | .search t kind => [.call t (.search kind)]
  | .swap t kind randR => [.call t (.swap kind (randR % (s.size - 1)))]
  | .step t =>
    match σ'.pc t,σ'.outcome (σ.ticket t) with
    | .idle,some result => [.ret t result]
    | _,_ => []
  | .stop => []

/-- The operation of a thread, also when it is still going to lock the first node. -/
def asks : Pc → Option Op
  | .idle => none
  | .search kind _ => some (.search kind)
  | .swap kind k _ => some (.swap kind k)

/-- What the atomic object knows of a thread. -/
inductive Known (results : List Outcome) (σ : State) (t : Nat) : Atomic.Status Op Outcome → Prop
  | top (top : σ.pc t = .idle) : Known results σ t .top
  | called {op : Op} (outside : opOf (σ.pc t) = none) (asked : asks (σ.pc t) = some op) :
    Known results σ t (.called op)
  | decided {op : Op} {result : Outcome} (inside : opOf (σ.pc t) = some op)
    (here : results[σ.ticket t]? = some result) : Known results σ t (.decided result)

/-- The atomic object has executed the operations that have locked the first node. -/
structure Object (v : Variant) (s : Storage) (value : Nat → List Char) (nodes : List Nat) (σ : State)
    (o : ListObject) : Prop where
  stands : ∃ c, Stands v s value nodes σ c
  tallied : Tallied σ
  items : o.value = (serially value (σ.order.map Prod.snd) nodes).1
  known : ∀ t, Known (serially value (σ.order.map Prod.snd) nodes).2 σ t (o.status t)

variable {v : Variant} {s : Storage} {value : Nat → List Char} {nodes : List Nat} {σ σ' : State} {o : ListObject}

theorem serially_append (value : Nat → List Char) (ops : List Op) (op : Op) (nodes : List Nat) :
    serially value (ops ++ [op]) nodes =
      ((serialOp value op (serially value ops nodes).1).1,
        (serially value ops nodes).2 ++ [(serialOp value op (serially value ops nodes).1).2]) := by
  simp [serially,completeAll_append,completeAll]

theorem serially_length (value : Nat → List Char) (ops : List Op) (nodes : List Nat) :
    (serially value ops nodes).2.length = ops.length := by
  induction ops generalizing nodes with
  | nil => rfl
  | cons op later ih =>
    have rest := ih (serialOp value op nodes).1
    simp only [serially,List.map_cons,completeAll,List.length_cons] at rest ⊢
    rw [rest]

/-- What an operation has found when it is over is what it finds in the serial
    execution. -/
theorem outcome_serial {c : Convoy} (stands : Stands v s value nodes σ c) (tallied : Tallied σ) {i t : Nat} {op : Op}
    {result : Outcome} (entry : σ.order[i]? = some (t,op)) (ended : σ.outcome i = some result) :
    (serially value (σ.order.map Prod.snd) nodes).2[i]? = some result := by
  have fixed := rest_over stands.refines entry fun op' inside number => by
    rw [← number,(tallied.inside t op' inside).2] at ended
    cases ended
  have entered : i < c.order.length := by
    rw [stands.refines.order]
    exact (List.getElem?_eq_some_iff.mp entry).1
  have settled : ∀ l, (c.rest value i l).2 = some result := fun l => by rw [fixed,ended]
  have known := convoy_outcome stands.serial entered settled
  rwa [stands.refines.order] at known

/-- A thread that has begun an operation locks the first node with its next step. -/
theorem enters_first {t : Nat} (taken : step v s value σ (.step t) = some σ') (outside : opOf (σ.pc t) = none) :
    ∃ op, asks (σ.pc t) = some op ∧ opOf (σ'.pc t) = some op ∧ σ'.order = σ.order ++ [(t,op)] ∧
      σ'.ticket = Function.update σ.ticket t σ.order.length := by
  have granted : ∀ {op pc x mode}, opOf pc = some op →
      (σ.lock t x mode).map (fun σ => (σ.enter t op).goto t pc) = some σ' → opOf (σ'.pc t) = some op ∧
        σ'.order = σ.order ++ [(t,op)] ∧ σ'.ticket = Function.update σ.ticket t σ.order.length := by
    intro op pc x mode inside taken
    obtain ⟨σ1,granted,rfl⟩ := Option.map_eq_some_iff.mp taken
    obtain ⟨same,_⟩ := lock_books granted
    simp [State.goto,State.enter,same.order,same.ticket,inside]
  simp only [step] at taken
  cases here : σ.pc t with
  | idle => rw [here] at taken; cases taken
  | search kind pc =>
    rw [here] at taken outside
    cases pc with
    | lockFirst => exact ⟨.search kind,rfl,granted rfl taken⟩
    | _ => cases outside
  | swap kind k pc =>
    rw [here] at taken outside
    cases pc with
    | lockPrev => exact ⟨.swap kind k,rfl,granted rfl taken⟩
    | _ => cases outside

/-- What is known of a thread that does nothing, while operations are added. -/
theorem Known.others {results results' : List Outcome} {t : Nat} {status : Atomic.Status Op Outcome}
    (known : Known results σ t status) (grows : results <+: results') (pc : σ'.pc t = σ.pc t)
    (ticket : σ'.ticket t = σ.ticket t) : Known results' σ' t status := by
  cases known with
  | top top => exact .top (pc.trans top)
  | called outside asked => exact .called (by rw [pc]; exact outside) (by rw [pc]; exact asked)
  | decided inside here =>
    obtain ⟨more,rfl⟩ := grows
    refine .decided (by rw [pc]; exact inside) ?_
    rw [ticket,List.getElem?_append_left (List.getElem?_eq_some_iff.mp here).1]
    exact here

theorem object_begins {t : Nat} {op : Op} {pc : Pc} {a : Act} (object : Object v s value nodes σ o)
    (taken : step v s value σ a = some σ') (is : σ' = σ.goto t pc) (top : σ.pc t = .idle) (outside : opOf pc = none)
    (asked : asks pc = some op) :
    Atomic.Follows (serialOp value) (Object v s value nodes) [.call t op] o σ' := by
  obtain ⟨c,stands⟩ := object.stands
  have isTop : o.status t = .top := by
    have known := object.known t
    generalize o.status t = status at known
    cases known with
    | top => rfl
    | called _ asked => rw [top] at asked; cases asked
    | decided inside _ => rw [top] at inside; cases inside
  refine ⟨[.call t op],_,Atomic.run_call isTop,rfl,stands_step stands taken,tallied_step object.tallied taken,?_,?_⟩
  · rw [is]
    exact object.items
  · intro u
    rw [is]
    by_cases isT : u = t
    · subst isT
      simp only [Atomic.Object.set,Function.update_self]
      exact .called (by rw [goto_self]; exact outside) (by rw [goto_self]; exact asked)
    · simp only [Atomic.Object.set,Function.update_of_ne isT]
      exact (object.known u).others List.prefix_rfl (goto_others isT) rfl

/-- The operation of a thread takes effect when the thread locks the first node. -/
theorem object_enters {t : Nat} (object : Object v s value nodes σ o) (taken : step v s value σ (.step t) = some σ')
    (outside : opOf (σ.pc t) = none) : Atomic.Follows (serialOp value) (Object v s value nodes) [] o σ' := by
  obtain ⟨c,stands⟩ := object.stands
  obtain ⟨op,asked,inside,order,ticket⟩ := enters_first taken outside
  have isCalled : o.status t = .called op := by
    have known := object.known t
    generalize o.status t = status at known
    cases known with
    | top top => rw [top] at asked; cases asked
    | called _ asked' => cases asked.symm.trans asked'; rfl
    | decided inside' _ => cases outside.symm.trans inside'
  have grown := serially_append value (σ.order.map Prod.snd) op nodes
  obtain ⟨c',stands'⟩ := stands_step stands taken
  refine ⟨[.point t],_,Atomic.run_point isCalled,rfl,⟨c',stands'⟩,tallied_step object.tallied taken,?_,?_⟩
  · rw [order,List.map_append,List.map_singleton,grown,object.items]
  · intro u
    rw [order,List.map_append,List.map_singleton,grown]
    by_cases isT : u = t
    · subst isT
      simp only [Atomic.Object.set,Function.update_self]
      refine .decided inside ?_
      have last := serially_length value (σ.order.map Prod.snd) nodes
      rw [List.length_map] at last
      rw [ticket,Function.update_self,← last,List.getElem?_append_right (Nat.le_refl _),Nat.sub_self,object.items]
      rfl
    · have still := step_others (u := u) (by simp [actor,Ne.symm isT]) taken
      simp only [Atomic.Object.set,Function.update_of_ne isT]
      exact (object.known u).others (List.prefix_append _ _) still (by rw [ticket,Function.update_of_ne isT])

/-- Inside an operation nothing is to be seen of a step, until the last one returns
    the outcome of the serial execution. -/
theorem object_inside {t : Nat} {op : Op} (object : Object v s value nodes σ o)
    (taken : step v s value σ (.step t) = some σ') (inside : opOf (σ.pc t) = some op) :
    Atomic.Follows (serialOp value) (Object v s value nodes) (events s σ (.step t) σ') o σ' := by
  obtain ⟨c,stands⟩ := object.stands
  obtain ⟨c',stands'⟩ := stands_step stands taken
  have tallied' := tallied_step object.tallied taken
  have still : ∀ u, u ≠ t → σ'.pc u = σ.pc u := fun u other => step_others (by simp [actor,Ne.symm other]) taken
  obtain ⟨entry,_⟩ := object.tallied.inside t op inside
  cases entry_step (t := t) rfl taken with
  | enters _ _ _ outside _ => cases outside.symm.trans inside
  | stays order outcome ticket same =>
    have active : σ'.pc t ≠ .idle := by
      intro top
      rw [top,inside] at same
      cases same
    have silent : events s σ (.step t) σ' = [] := by
      simp only [events]
      split
      · rename_i top _
        exact absurd top active
      · rfl
    rw [silent]
    refine ⟨[],o,rfl,rfl,⟨c',stands'⟩,tallied',order ▸ object.items,fun u => ?_⟩
    rw [order]
    by_cases isT : u = t
    · subst isT
      have known := object.known u
      generalize o.status u = status at known
      cases known with
      | top top => rw [top] at inside; cases inside
      | called outside _ => cases outside.symm.trans inside
      | decided _ here => exact .decided (same.trans inside) (by rw [ticket]; exact here)
    · exact (object.known u).others List.prefix_rfl (still u isT) (by rw [ticket])
  | @leaves op' result order ticket outcome _ top =>
    have ended : σ'.outcome (σ.ticket t) = some result := by rw [outcome,Function.update_self]
    -- What is returned is the outcome in the serial execution.
    have settled : (serially value (σ.order.map Prod.snd) nodes).2[σ.ticket t]? = some result := by
      have known := outcome_serial stands' tallied' (by rw [order]; exact entry) ended
      rwa [order] at known
    have isDecided : o.status t = .decided result := by
      have known := object.known t
      generalize o.status t = status at known
      cases known with
      | top top => rw [top] at inside; cases inside
      | called outside _ => cases outside.symm.trans inside
      | decided _ here => cases here.symm.trans settled; rfl
    have seen : events s σ (.step t) σ' = [.ret t result] := by simp [events,top,ended]
    rw [seen]
    refine ⟨[.ret t result],_,Atomic.run_ret isDecided,rfl,⟨c',stands'⟩,tallied',order ▸ object.items,fun u => ?_⟩
    rw [order]
    by_cases isT : u = t
    · subst isT
      simp only [Atomic.Object.set,Function.update_self]
      exact .top top
    · simp only [Atomic.Object.set,Function.update_of_ne isT]
      exact (object.known u).others List.prefix_rfl (still u isT) (by rw [ticket])

/-- The program before a step and the object go on together. -/
theorem object_step (σ : State) (o : ListObject) (a : Act) (σ' : State) (object : Object v s value nodes σ o)
    (taken : step v s value σ a = some σ') :
    Atomic.Follows (serialOp value) (Object v s value nodes) (events s σ a σ') o σ' := by
  cases a with
  | search t kind =>
    have act := taken
    simp only [step] at taken
    split at taken <;> cases taken
    rename_i enabled
    exact object_begins object act rfl enabled.2.2 rfl rfl
  | swap t kind randR =>
    have act := taken
    simp only [step] at taken
    split at taken <;> cases taken
    rename_i enabled
    exact object_begins object act rfl enabled.2.2 rfl rfl
  | stop =>
    obtain ⟨c,stands⟩ := object.stands
    have tallied := tallied_step object.tallied taken
    obtain ⟨c',stands'⟩ := stands_step stands taken
    cases taken
    exact ⟨[],o,rfl,rfl,⟨c',stands'⟩,tallied,object.items,fun u =>
      (object.known u).others List.prefix_rfl rfl rfl⟩
  | step t =>
    cases inside : opOf (σ.pc t) with
    | some op => exact object_inside object taken inside
    | none =>
      obtain ⟨op,_,inside',_⟩ := enters_first taken inside
      have silent : events s σ (.step t) σ' = [] := by
        simp only [events]
        split
        · rename_i top _
          rw [top] at inside'
          cases inside'
        · rfl
      rw [silent]
      exact object_enters object taken inside

theorem start_object {h : Heap} (holds : Holds s h nodes) (two : 2 ≤ s.size) :
    Object v s h.value nodes (start h) (Atomic.fresh nodes) where
  stands := run_stands holds two (rfl : Transition.run _ _ [] = _)
  tallied := start_tallied h
  items := rfl
  known _ := .top rfl

/-- Every run of each program, at any time, is a history of the atomic list, and
    while no thread is inside `swap_pairs` the memory holds the list of the object. -/
theorem list_linearizable {v : Variant} {n : Int} (two : 2 ≤ n) {succeeds : Nat → Bool} {rand : Nat → Nat} {s : Storage}
    {h : Heap} (built : storageInit n succeeds rand = (some s,h)) {acts : List Act} {σ : State}
    (ran : Transition.run (step v s h.value) (start h) acts = some σ) :
    ∃ nodes o, Holds s h nodes ∧
      Atomic.Linearizes (serialOp h.value) nodes (Atomic.history (step v s h.value) (events s) (start h) acts) o ∧
      (NoSwap σ → Chain σ.next (some s.first) (s.first :: o.value)) := by
  obtain ⟨size,nodes,holds⟩ := storageInit_holds built
  obtain ⟨o,linearizes,object⟩ := Atomic.linearizes_of_simulation object_step ran (start_object holds (by omega))
  refine ⟨nodes,o,holds,linearizes,fun quiet => ?_⟩
  obtain ⟨c,stands⟩ := object.stands
  have clean : ∀ t, dirty (σ.pc t) = [] := by
    intro t
    have notSwap := quiet t
    cases here : σ.pc t with
    | idle => rfl
    | search kind pc => rfl
    | swap kind k pc => rw [here] at notSwap; cases notSwap
  have chain := chain_of_clean stands.refines clean
  rwa [convoy_items stands.serial fun j => (rest_of_noSwap stands object.tallied quiet j).1 _,stands.refines.order,
    ← object.items] at chain

/-- The search is on its way while the swap has just been called. -/
theorem list_linearizable_pair : ∃ nodes o, Holds pairStorage pairHeap nodes ∧
    Atomic.Linearizes (serialOp pairHeap.value) nodes (Atomic.history (step .mutex pairStorage pairHeap.value)
      (events pairStorage) (start pairHeap) pairSchedule) o ∧
    (NoSwap (pairAfter .mutex pairSchedule) →
      Chain (pairAfter .mutex pairSchedule).next (some pairStorage.first) (pairStorage.first :: o.value)) :=
  list_linearizable (n := 2) (by decide) (rfl : storageInit 2 (fun _ => true) pairRand = _)
    (rfl : Transition.run (step .mutex pairStorage pairHeap.value) _ pairSchedule = _)

end Os5Sem.ListLinear

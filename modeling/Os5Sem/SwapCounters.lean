import Os5Sem.Inversions
import Os5Sem.ListSerializable

/-!
The swap counters against the list. A counter is the number of operations that
have decided to swap (`Tallied`), and a serial execution changes the number of
inversions by one for each of these (`serially_accounts`). So the list programs
account for the order of the list with `swap_asc`, `swap_desc` and
`swap_not_equal`.
-/
namespace Os5Sem.SwapCounters
open Os5Sem.Adjacent Os5Sem.Serial Os5Sem.Inversions Os5Sem.Chains Os5Sem.ListStorage Os5Sem.ListProgram
open Os5Sem.ListConvoy Os5Sem.ListLocks Os5Sem.ListRefine Os5Sem.ListSerializable

/-! ### Serial executions -/

variable {value : Nat → List Char}

/-- The length of a node's string. -/
def strlen (value : Nat → List Char) (x : Nat) : Nat := (value x).length

/-- The operation is a swap of the kind, and it has swapped. -/
def swapOf (kind : Swapper) : Op × Outcome → Bool
  | (.swap kind' _,.swapped true) => kind' == kind
  | _ => false

/-- The number of swaps of a kind in a serial execution. -/
def tally (kind : Swapper) (done : List (Op × Outcome)) : Nat := done.countP (swapOf kind)

def AccountsFor (value : Nat → List Char) (done : List (Op × Outcome)) (before after : List Nat) : Prop :=
  Accounts (strlen value) (tally .asc done) (tally .desc done) (tally .notEqual done) before after

theorem serialOp_accounts (value : Nat → List Char) (op : Op) (nodes : List Nat) :
    AccountsFor value [(op,(serialOp value op nodes).2)] nodes (serialOp value op nodes).1 := by
  cases op with
  | search kind => exact accounts_refl (strlen value) nodes
  | swap kind k =>
    by_cases accepted : holdsAt (swapTest value kind) k nodes = true
    · simp only [serialOp,accepted,if_true]
      cases left : nodes[k]? with
      | none => simp [holdsAt,left] at accepted
      | some x =>
        cases right : nodes[k+1]? with
        | none => simp [holdsAt,left,right] at accepted
        | some y =>
          rw [holdsAt_of_getElem left right] at accepted
          cases kind with
          | asc => exact accounts_decreasing left right (of_decide_eq_true accepted)
          | desc => exact accounts_increasing left right (of_decide_eq_true accepted)
          | notEqual => exact accounts_either left right (bne_iff_ne.mp accepted)
    · simp only [serialOp,accepted]
      exact accounts_refl (strlen value) nodes

/-- A serial execution changes the inversions as its swaps say. -/
theorem serially_accounts (value : Nat → List Char) (ops : List Op) (nodes : List Nat) :
    AccountsFor value (ops.zip (serially value ops nodes).2) nodes (serially value ops nodes).1 := by
  induction ops generalizing nodes with
  | nil => exact accounts_refl (strlen value) nodes
  | cons op later ih =>
    have together := (serialOp_accounts value op nodes).trans (ih (serialOp value op nodes).1)
    have split : ∀ kind (x : Op × Outcome) rest, tally kind [x] + tally kind rest = tally kind (x :: rest) :=
      fun kind x rest => by rw [tally,tally,tally,← List.countP_append,List.singleton_append]
    rw [split,split,split] at together
    exact together

/-! ### What a step does to the books -/

/-- The operation that the thread is inside of once it has locked the first node. -/
def opOf : Pc → Option Op
  | .search _ .lockFirst => none
  | .swap _ _ .lockPrev => none
  | .idle => none
  | .search kind _ => some (.search kind)
  | .swap kind k _ => some (.swap kind k)

/-- The counter that the thread may increment. -/
def kindOf : Pc → Option Swapper
  | .swap kind _ _ => some kind
  | _ => none

/-- The thread has incremented its counter and is going to release the nodes. -/
def Counted : Pc → Prop
  | .swap _ _ (.unlockNext _ _ _ decision) | .swap _ _ (.unlockCur _ _ decision) | .swap _ _ (.unlockPrev _ decision) =>
    decision = true
  | _ => False

variable {v : Variant} {s : Storage} {σ σ' : State}

/-- Nothing is recorded, and no swap is counted. -/
structure SameBooks (σ σ' : State) : Prop where
  order : σ'.order = σ.order
  outcome : σ'.outcome = σ.outcome
  ticket : σ'.ticket = σ.ticket
  swaps : σ'.swaps = σ.swaps

/-- What a step of the program can do to the records and to the swap counters. -/
inductive Books (σ σ' : State) (a : Act) : Prop
  | stands (same : SameBooks σ σ') (pcs : σ'.pc = σ.pc)
  | begins {t : Nat} {pc : Pc} (same : SameBooks σ σ') (pcs : σ'.pc = Function.update σ.pc t pc)
      (top : σ.pc t = .idle) (outside : opOf pc = none) (notCounted : ¬ Counted pc)
      (asked : ∀ kind, kindOf pc = some kind → ∃ randR, a = .swap t kind randR)
  | goes {t : Nat} {pc : Pc} (same : SameBooks σ σ') (pcs : σ'.pc = Function.update σ.pc t pc)
      (op : opOf pc = opOf (σ.pc t)) (counted : Counted pc ↔ Counted (σ.pc t)) (kind : kindOf pc = kindOf (σ.pc t))
  | enters {t : Nat} {pc : Pc} {op : Op} (outcome : σ'.outcome = σ.outcome) (swaps : σ'.swaps = σ.swaps)
      (order : σ'.order = σ.order ++ [(t,op)])
      (ticket : σ'.ticket = Function.update σ.ticket t σ.order.length) (pcs : σ'.pc = Function.update σ.pc t pc)
      (outside : opOf (σ.pc t) = none) (inside : opOf pc = some op) (notCounted : ¬ Counted pc)
      (kind : kindOf pc = kindOf (σ.pc t))
  | counts {t k : Nat} {kind : Swapper} {pc : Pc} (order : σ'.order = σ.order) (outcome : σ'.outcome = σ.outcome)
      (ticket : σ'.ticket = σ.ticket) (swaps : σ'.swaps = Function.update σ.swaps kind (σ.swaps kind + 1))
      (pcs : σ'.pc = Function.update σ.pc t pc) (here : opOf (σ.pc t) = some (.swap kind k))
      (still : opOf pc = some (.swap kind k)) (notCounted : ¬ Counted (σ.pc t)) (counted : Counted pc)
      (kind : kindOf pc = kindOf (σ.pc t))
  | leaves {t : Nat} {op : Op} {result : Outcome} (order : σ'.order = σ.order) (ticket : σ'.ticket = σ.ticket)
      (swaps : σ'.swaps = σ.swaps) (outcome : σ'.outcome = Function.update σ.outcome (σ.ticket t) (some result))
      (pcs : σ'.pc = Function.update σ.pc t .idle) (here : opOf (σ.pc t) = some op)
      (counted : result = .swapped true ↔ Counted (σ.pc t))

theorem lock_books {t x : Nat} {mode : Mode} (granted : σ.lock t x mode = some σ') : SameBooks σ σ' ∧ σ'.pc = σ.pc := by
  unfold State.lock at granted
  split at granted
  · cases granted; exact ⟨⟨rfl,rfl,rfl,rfl⟩,rfl⟩
  · cases granted

/-- A thread goes on inside its search. -/
theorem books_search {t : Nat} {kind : Searcher} {pc pc' : SearchPc} {a : Act} (here : σ.pc t = .search kind pc)
    (was : pc ≠ .lockFirst) (goes : pc' ≠ .lockFirst) (same : SameBooks σ σ')
    (pcs : σ'.pc = Function.update σ.pc t (.search kind pc')) : Books σ σ' a := by
  have inside : ∀ p : SearchPc, p ≠ .lockFirst → opOf (.search kind p) = some (.search kind) := by
    intro p other
    cases p <;> first | rfl | exact absurd rfl other
  exact .goes same pcs (by rw [here,inside pc was,inside pc' goes]) (by rw [here]; exact .rfl) (by rw [here]; rfl)

theorem searchPairs_books {t : Nat} {kind : Searcher} {pc : SearchPc} {a : Act} (here : σ.pc t = .search kind pc)
    (taken : searchPairs v s value kind t σ pc = some σ') : Books σ σ' a := by
  have goto : ∀ {pc' : SearchPc} {σ1 : State}, pc ≠ .lockFirst → pc' ≠ .lockFirst → SameBooks σ σ1 → σ1.pc = σ.pc →
      Books σ (σ1.goto t (.search kind pc')) a := by
    intro pc' σ1 was goes same pcs
    exact books_search here was goes ⟨same.order,same.outcome,same.ticket,same.swaps⟩ (by rw [← pcs]; rfl)
  have refl : SameBooks σ σ := ⟨rfl,rfl,rfl,rfl⟩
  have leaves : ∀ {n : Nat} {σ1 : State}, pc ≠ .lockFirst → SameBooks σ σ1 → σ1.pc = σ.pc →
      Books σ (σ1.leave t (.pairs n)) a := by
    intro n σ1 was same pcs
    refine @Books.leaves _ _ _ _ (.search kind) (.pairs n) same.order same.ticket same.swaps ?_
      (congrArg (Function.update · t _) pcs) ?_ (by rw [here]; simp [Counted])
    · simp [State.leave,State.goto,same.outcome,same.ticket]
    · rw [here]
      cases pc <;> first | rfl | exact absurd rfl was
  cases pc with
  | lockFirst =>
    obtain ⟨σ1,granted,rfl⟩ := Option.map_eq_some_iff.mp taken
    obtain ⟨same,pcs⟩ := lock_books granted
    refine @Books.enters _ _ _ t _ (.search kind) same.outcome same.swaps ?_ ?_ (congrArg (Function.update · t _) pcs)
      (by rw [here]; rfl) rfl id (by rw [here]; rfl)
    · simp [State.goto,State.enter,same.order]
    · simp [State.goto,State.enter,same.order,same.ticket]
  | readFirst =>
    simp only [searchPairs] at taken
    split at taken <;> cases taken <;> exact goto (by simp) (by simp) refl rfl
  | unlockSingle => cases taken; exact goto (by simp) (by simp) ⟨rfl,rfl,rfl,rfl⟩ rfl
  | countSingle => cases taken; exact leaves (by simp) ⟨rfl,rfl,rfl,rfl⟩ rfl
  | lockA first =>
    obtain ⟨σ1,granted,rfl⟩ := Option.map_eq_some_iff.mp taken
    obtain ⟨same,pcs⟩ := lock_books granted
    exact goto (by simp) (by simp) same pcs
  | unlockFirst first => cases taken; exact goto (by simp) (by simp) ⟨rfl,rfl,rfl,rfl⟩ rfl
  | readB first n =>
    simp only [searchPairs] at taken
    split at taken <;> cases taken <;> exact goto (by simp) (by simp) refl rfl
  | unlockLast first n =>
    simp only [searchPairs] at taken
    split at taken <;> cases taken <;> exact goto (by simp) (by simp) ⟨rfl,rfl,rfl,rfl⟩ rfl
  | lockB first second n =>
    obtain ⟨σ1,granted,rfl⟩ := Option.map_eq_some_iff.mp taken
    obtain ⟨same,pcs⟩ := lock_books granted
    exact goto (by simp) (by simp) same pcs
  | unlockA first second n => cases taken; exact goto (by simp) (by simp) ⟨rfl,rfl,rfl,rfl⟩ rfl
  | addPairs n => cases taken; exact goto (by simp) (by simp) ⟨rfl,rfl,rfl,rfl⟩ rfl
  | addIteration n => cases taken; exact leaves (by simp) ⟨rfl,rfl,rfl,rfl⟩ rfl

theorem swapPairs_books {t k : Nat} {kind : Swapper} {pc : SwapPc} {a : Act} (here : σ.pc t = .swap kind k pc)
    (taken : swapPairs s value kind k t σ pc = some σ') : Books σ σ' a := by
  have inside : ∀ p : SwapPc, p ≠ .lockPrev → opOf (.swap kind k p) = some (.swap kind k) := by
    intro p other
    cases p <;> first | rfl | exact absurd rfl other
  have goto : ∀ {pc' : SwapPc} {σ1 : State}, pc ≠ .lockPrev → pc' ≠ .lockPrev →
      (Counted (.swap kind k pc') ↔ Counted (.swap kind k pc)) → SameBooks σ σ1 → σ1.pc = σ.pc →
      Books σ (σ1.goto t (.swap kind k pc')) a := by
    intro pc' σ1 was goes counted same pcs
    exact .goes (t := t) ⟨same.order,same.outcome,same.ticket,same.swaps⟩ (congrArg (Function.update · t _) pcs)
      (by rw [here,inside pc was,inside pc' goes]) (by rw [here]; exact counted) (by rw [here]; rfl)
  have refl : SameBooks σ σ := ⟨rfl,rfl,rfl,rfl⟩
  have leaves : ∀ {decision : Bool} {σ1 : State}, pc ≠ .lockPrev → (decision = true ↔ Counted (.swap kind k pc)) →
      SameBooks σ σ1 → σ1.pc = σ.pc → Books σ (σ1.leave t (.swapped decision)) a := by
    intro decision σ1 was counted same pcs
    refine @Books.leaves _ _ _ _ (.swap kind k) (.swapped decision) same.order same.ticket same.swaps ?_
      (congrArg (Function.update · t _) pcs) (by rw [here,inside pc was]) (by rw [here,← counted]; simp)
    simp [State.leave,State.goto,same.outcome,same.ticket]
  have walks : ∀ prev cur i, walk k prev cur i ≠ .lockPrev ∧ ¬ Counted (.swap kind k (walk k prev cur i)) := by
    intro prev cur i
    unfold walk
    split <;> exact ⟨by simp,id⟩
  cases pc with
  | lockPrev =>
    obtain ⟨σ1,granted,rfl⟩ := Option.map_eq_some_iff.mp taken
    obtain ⟨same,pcs⟩ := lock_books granted
    refine @Books.enters _ _ _ t _ (.swap kind k) same.outcome same.swaps ?_ ?_ (congrArg (Function.update · t _) pcs)
      (by rw [here]; rfl) rfl id (by rw [here]; rfl)
    · simp [State.goto,State.enter,same.order]
    · simp [State.goto,State.enter,same.order,same.ticket]
  | readCur =>
    simp only [swapPairs] at taken
    split at taken <;> cases taken <;> exact goto (by simp) (by simp) .rfl refl rfl
  | unlockNoCur => cases taken; exact leaves (by simp) (by simp [Counted]) ⟨rfl,rfl,rfl,rfl⟩ rfl
  | lockCur cur =>
    obtain ⟨σ1,granted,rfl⟩ := Option.map_eq_some_iff.mp taken
    obtain ⟨same,pcs⟩ := lock_books granted
    obtain ⟨goes,notCounted⟩ := walks s.first cur 0
    exact goto (by simp) goes (iff_of_false notCounted id) same pcs
  | readStep prev cur i =>
    simp only [swapPairs] at taken
    split at taken <;> cases taken <;> exact goto (by simp) (by simp) .rfl refl rfl
  | lockStep prev cur next i =>
    obtain ⟨σ1,granted,rfl⟩ := Option.map_eq_some_iff.mp taken
    obtain ⟨same,pcs⟩ := lock_books granted
    exact goto (by simp) (by simp) .rfl same pcs
  | unlockStep prev cur next i =>
    cases taken
    obtain ⟨goes,notCounted⟩ := walks cur next (i+1)
    exact goto (by simp) goes (iff_of_false notCounted id) ⟨rfl,rfl,rfl,rfl⟩ rfl
  | readNext prev cur =>
    simp only [swapPairs] at taken
    split at taken <;> cases taken <;> exact goto (by simp) (by simp) .rfl refl rfl
  | unlockNoNextCur prev cur => cases taken; exact goto (by simp) (by simp) .rfl ⟨rfl,rfl,rfl,rfl⟩ rfl
  | unlockNoNextPrev prev => cases taken; exact leaves (by simp) (by simp [Counted]) ⟨rfl,rfl,rfl,rfl⟩ rfl
  | lockNext prev cur next =>
    obtain ⟨σ1,granted,rfl⟩ := Option.map_eq_some_iff.mp taken
    obtain ⟨same,pcs⟩ := lock_books granted
    exact goto (by simp) (by simp) .rfl same pcs
  | compare prev cur next =>
    simp only [swapPairs] at taken
    split at taken <;> cases taken
    · exact goto (by simp) (by simp) .rfl refl rfl
    · exact goto (by simp) (by simp) (by simp [Counted]) refl rfl
  | swapNodes prev cur next pc => cases pc <;> cases taken <;> exact goto (by simp) (by simp) .rfl ⟨rfl,rfl,rfl,rfl⟩ rfl
  | addSwap prev cur next =>
    cases taken
    exact @Books.counts _ _ _ t k kind _ rfl rfl rfl rfl rfl (by rw [here]; rfl) rfl (by rw [here]; exact id)
      rfl (by rw [here]; rfl)
  | unlockNext prev cur next decision => cases taken; exact goto (by simp) (by simp) .rfl ⟨rfl,rfl,rfl,rfl⟩ rfl
  | unlockCur prev cur decision => cases taken; exact goto (by simp) (by simp) .rfl ⟨rfl,rfl,rfl,rfl⟩ rfl
  | unlockPrev prev decision => cases taken; exact leaves (by simp) .rfl ⟨rfl,rfl,rfl,rfl⟩ rfl

theorem step_books {a : Act} (taken : step v s value σ a = some σ') : Books σ σ' a := by
  cases step_cases taken with
  | search t kind _ top => exact .begins ⟨rfl,rfl,rfl,rfl⟩ rfl top rfl id fun _ same => by cases same
  | swap t kind randR _ top =>
    exact .begins ⟨rfl,rfl,rfl,rfl⟩ rfl top rfl id fun _ same => ⟨randR,by cases same; rfl⟩
  | searching here taken => exact searchPairs_books here taken
  | swapping here taken => exact swapPairs_books here taken
  | stop => exact .stands ⟨rfl,rfl,rfl,rfl⟩ rfl

/-! ### The counters count the swaps -/

/-- The operation with the given number is a swap of the kind that has been
    counted: its outcome says so, or its thread is about to leave. -/
def Credited (σ : State) (kind : Swapper) (i : Nat) : Prop :=
  ∃ t k, σ.order[i]? = some (t,.swap kind k) ∧
    (σ.outcome i = some (.swapped true) ∨ Counted (σ.pc t) ∧ σ.ticket t = i)

/-- A thread inside an operation knows its number, which has no outcome yet, and
    every counter is the number of the swaps that have been counted. -/
structure Tallied (σ : State) : Prop where
  inside : ∀ t op, opOf (σ.pc t) = some op → σ.order[σ.ticket t]? = some (t,op) ∧ σ.outcome (σ.ticket t) = none
  beyond : ∀ i, σ.order.length ≤ i → σ.outcome i = none
  counters : ∀ kind, ∃ credits : Finset Nat, credits.card = σ.swaps kind ∧ ∀ i, i ∈ credits ↔ Credited σ kind i

theorem not_counted_of_outside {pc : Pc} (outside : opOf pc = none) : ¬ Counted pc := by
  cases pc with
  | swap kind k pc => cases pc <;> first | exact id | cases outside
  | _ => exact id

/-- A step that records nothing, and after which the same threads are inside the
    same operations. -/
theorem Tallied.same (tallied : Tallied σ) (same : SameBooks σ σ') (ops : ∀ t, opOf (σ'.pc t) = opOf (σ.pc t))
    (counted : ∀ t, Counted (σ'.pc t) ↔ Counted (σ.pc t)) : Tallied σ' where
  inside t op is := by
    rw [same.order,same.outcome,same.ticket]
    exact tallied.inside t op (ops t ▸ is)
  beyond i outside := by
    rw [same.outcome]
    exact tallied.beyond i (same.order ▸ outside)
  counters kind := by
    obtain ⟨credits,size,marks⟩ := tallied.counters kind
    refine ⟨credits,by rw [size,same.swaps],fun i => ?_⟩
    simp only [marks i,Credited,same.order,same.outcome,same.ticket,counted]

/-- Operations with the same number are the same. -/
theorem Tallied.thread_of_ticket (tallied : Tallied σ) {t u : Nat} {op op' : Op} (here : opOf (σ.pc t) = some op)
    (there : σ.order[σ.ticket t]? = some (u,op')) : u = t ∧ op' = op := by
  have mine := (tallied.inside t op here).1
  rw [mine] at there
  cases there
  exact ⟨rfl,rfl⟩

theorem Tallied.enter (tallied : Tallied σ) {t : Nat} {pc : Pc} {op : Op} (outcome : σ'.outcome = σ.outcome)
    (swaps : σ'.swaps = σ.swaps) (order : σ'.order = σ.order ++ [(t,op)])
    (ticket : σ'.ticket = Function.update σ.ticket t σ.order.length) (pcs : σ'.pc = Function.update σ.pc t pc)
    (outside : opOf (σ.pc t) = none) (inside : opOf pc = some op) (notCounted : ¬ Counted pc) : Tallied σ' := by
  have before : ∀ {i : Nat} {entry : Nat × Op}, σ.order[i]? = some entry → σ'.order[i]? = some entry := by
    intro i entry at'
    rw [order,List.getElem?_append_left (List.getElem?_eq_some_iff.mp at').1,at']
  have last : σ'.order[σ.order.length]? = some (t,op) := by rw [order]; simp
  have fresh : σ.outcome σ.order.length = none := tallied.beyond _ (Nat.le_refl _)
  refine ⟨fun u other is => ?_,fun i long => ?_,fun kind => ?_⟩
  · rw [pcs] at is
    rw [ticket,outcome]
    by_cases isT : u = t
    · subst isT
      rw [Function.update_self] at is ⊢
      cases inside.symm.trans is
      exact ⟨last,fresh⟩
    · rw [Function.update_of_ne isT] at is ⊢
      exact ⟨before (tallied.inside u other is).1,(tallied.inside u other is).2⟩
  · rw [outcome]
    apply tallied.beyond i
    rw [order] at long
    simp only [List.length_append,List.length_singleton] at long
    omega
  · obtain ⟨credits,size,marks⟩ := tallied.counters kind
    refine ⟨credits,by rw [size,swaps],fun i => (marks i).trans ?_⟩
    constructor
    · rintro ⟨u,k,at',done⟩
      refine ⟨u,k,before at',?_⟩
      rw [outcome,ticket,pcs]
      refine done.imp_right fun ⟨counted,mine⟩ => ?_
      have isNotT : u ≠ t := fun isT => not_counted_of_outside outside (isT ▸ counted)
      rw [Function.update_of_ne isNotT,Function.update_of_ne isNotT]
      exact ⟨counted,mine⟩
    · rintro ⟨u,k,at',done⟩
      rw [outcome,ticket,pcs] at done
      have earlier : i < σ.order.length := by
        by_contra late
        have long : i < σ'.order.length := (List.getElem?_eq_some_iff.mp at').1
        rw [order,List.length_append,List.length_singleton] at long
        obtain rfl : i = σ.order.length := by omega
        -- The new operation has no outcome, and its thread has counted nothing.
        cases last.symm.trans at'
        rcases done with ended | ⟨counted,_⟩
        · rw [fresh] at ended; cases ended
        · rw [Function.update_self] at counted; exact notCounted counted
      rw [order,List.getElem?_append_left earlier] at at'
      refine ⟨u,k,at',done.imp_right fun ⟨counted,mine⟩ => ?_⟩
      have isNotT : u ≠ t := by
        intro isT
        subst isT
        rw [Function.update_self] at counted
        exact notCounted counted
      rw [Function.update_of_ne isNotT] at counted mine
      exact ⟨counted,mine⟩

theorem Tallied.count (tallied : Tallied σ) {t k : Nat} {kind : Swapper} {pc : Pc} (order : σ'.order = σ.order)
    (outcome : σ'.outcome = σ.outcome) (ticket : σ'.ticket = σ.ticket)
    (swaps : σ'.swaps = Function.update σ.swaps kind (σ.swaps kind + 1)) (pcs : σ'.pc = Function.update σ.pc t pc)
    (here : opOf (σ.pc t) = some (.swap kind k)) (still : opOf pc = some (.swap kind k))
    (notCounted : ¬ Counted (σ.pc t)) (counted : Counted pc) : Tallied σ' := by
  obtain ⟨mine,unsettled⟩ := tallied.inside t _ here
  -- Of the credits only that of the thread's operation is new.
  have credited : ∀ kind' i, Credited σ' kind' i ↔ Credited σ kind' i ∨ kind' = kind ∧ i = σ.ticket t := by
    intro kind' i
    simp only [Credited,order,outcome,ticket,pcs]
    constructor
    · rintro ⟨u,j,at',done⟩
      by_cases isT : u = t
      · subst isT
        rcases done with ended | ⟨_,number⟩
        · exact .inl ⟨u,j,at',.inl ended⟩
        · subst number
          cases (tallied.thread_of_ticket here at').2
          exact .inr ⟨rfl,rfl⟩
      · rw [Function.update_of_ne isT] at done
        exact .inl ⟨u,j,at',done⟩
    · rintro (⟨u,j,at',done⟩ | ⟨rfl,rfl⟩)
      · refine ⟨u,j,at',done.imp_right fun ⟨was,number⟩ => ⟨?_,number⟩⟩
        have isNotT : u ≠ t := fun isT => notCounted (isT ▸ was)
        rwa [Function.update_of_ne isNotT]
      · exact ⟨t,k,mine,.inr ⟨by rwa [Function.update_self],rfl⟩⟩
  refine ⟨fun u op is => ?_,fun i outside => ?_,fun kind' => ?_⟩
  · rw [order,outcome,ticket]
    rw [pcs] at is
    by_cases isT : u = t
    · subst isT
      rw [Function.update_self,still] at is
      exact tallied.inside u op (here.trans is)
    · rw [Function.update_of_ne isT] at is
      exact tallied.inside u op is
  · rw [outcome]
    exact tallied.beyond i (order ▸ outside)
  · obtain ⟨credits,size,marks⟩ := tallied.counters kind'
    by_cases same : kind' = kind
    · subst same
      have fresh : σ.ticket t ∉ credits := by
        rw [marks]
        rintro ⟨u,j,at',done⟩
        obtain ⟨rfl,_⟩ := tallied.thread_of_ticket here at'
        rcases done with ended | ⟨was,_⟩
        · rw [unsettled] at ended; cases ended
        · exact notCounted was
      refine ⟨insert (σ.ticket t) credits,?_,fun i => ?_⟩
      · rw [Finset.card_insert_of_notMem fresh,size,swaps,Function.update_self]
      · rw [Finset.mem_insert,marks,credited]
        simp [or_comm]
    · refine ⟨credits,?_,fun i => ?_⟩
      · rw [size,swaps,Function.update_of_ne same]
      · rw [marks,credited]
        simp [same]

theorem Tallied.leave (tallied : Tallied σ) {t : Nat} {op : Op} {result : Outcome} (order : σ'.order = σ.order)
    (ticket : σ'.ticket = σ.ticket) (swaps : σ'.swaps = σ.swaps)
    (outcome : σ'.outcome = Function.update σ.outcome (σ.ticket t) (some result))
    (pcs : σ'.pc = Function.update σ.pc t .idle) (here : opOf (σ.pc t) = some op)
    (counted : result = .swapped true ↔ Counted (σ.pc t)) : Tallied σ' := by
  obtain ⟨mine,unsettled⟩ := tallied.inside t op here
  refine ⟨fun u op' is => ?_,fun i outside => ?_,fun kind => ?_⟩
  · have isNotT : u ≠ t := by
      intro isT
      subst isT
      rw [pcs,Function.update_self] at is
      cases is
    rw [pcs,Function.update_of_ne isNotT] at is
    obtain ⟨at',open'⟩ := tallied.inside u op' is
    have other : σ.ticket u ≠ σ.ticket t := by
      intro same
      rw [same,mine] at at'
      cases at'
      exact isNotT rfl
    rw [order,ticket,outcome,Function.update_of_ne other]
    exact ⟨at',open'⟩
  · have inside : σ.ticket t < σ.order.length := (List.getElem?_eq_some_iff.mp mine).1
    rw [order] at outside
    rw [outcome,Function.update_of_ne (by omega)]
    exact tallied.beyond i outside
  · obtain ⟨credits,size,marks⟩ := tallied.counters kind
    refine ⟨credits,by rw [size,swaps],fun i => (marks i).trans ?_⟩
    simp only [Credited,order,ticket,outcome,pcs]
    refine exists_congr fun u => exists_congr fun k => and_congr_right fun at' => ?_
    by_cases number : i = σ.ticket t
    · -- The operation that ends: what its thread has counted becomes its outcome.
      subst number
      obtain ⟨rfl,_⟩ := tallied.thread_of_ticket here at'
      simp only [unsettled,Function.update_self,and_true,Option.some.injEq]
      simp [counted,Counted]
    · rw [Function.update_of_ne number]
      by_cases isT : u = t
      · subst isT
        simp [Ne.symm number]
      · rw [Function.update_of_ne isT]

theorem tallied_step {a : Act} (tallied : Tallied σ) (taken : step v s value σ a = some σ') : Tallied σ' := by
  cases step_books taken with
  | stands same pcs => exact tallied.same same (fun t => by rw [pcs]) fun t => by rw [pcs]
  | @begins t pc same pcs top outside notCounted asked =>
    refine tallied.same same (fun u => ?_) fun u => ?_ <;> rw [pcs] <;> by_cases isT : u = t
    · subst isT; rw [Function.update_self,outside,top]; rfl
    · rw [Function.update_of_ne isT]
    · subst isT; rw [Function.update_self,top]; exact iff_of_false notCounted id
    · rw [Function.update_of_ne isT]
  | @goes t pc same pcs op counted kind =>
    refine tallied.same same (fun u => ?_) fun u => ?_ <;> rw [pcs] <;> by_cases isT : u = t
    · subst isT; rw [Function.update_self,op]
    · rw [Function.update_of_ne isT]
    · subst isT; rw [Function.update_self]; exact counted
    · rw [Function.update_of_ne isT]
  | enters outcome swaps order ticket pcs outside inside notCounted kind =>
    exact tallied.enter outcome swaps order ticket pcs outside inside notCounted
  | counts order outcome ticket swaps pcs here still notCounted counted kind =>
    exact tallied.count order outcome ticket swaps pcs here still notCounted counted
  | leaves order ticket swaps outcome pcs here counted =>
    exact tallied.leave order ticket swaps outcome pcs here counted

theorem start_tallied (h : Heap) : Tallied (start h) where
  inside t op is := by cases is
  beyond _ _ := rfl
  counters kind := by
    refine ⟨∅,rfl,fun i => ?_⟩
    simp [Credited,start]

/-- The swaps of all threads are of one kind. -/
structure Only (kind : Swapper) (σ : State) : Prop where
  order : ∀ t kind' k, (t,.swap kind' k) ∈ σ.order → kind' = kind
  pcs : ∀ t kind', kindOf (σ.pc t) = some kind' → kind' = kind

theorem only_step {kind : Swapper} {a : Act} (only : Only kind σ) (asked : ∀ t kind' randR, a = .swap t kind' randR →
    kind' = kind) (taken : step v s value σ a = some σ') : Only kind σ' := by
  have update : ∀ {t : Nat} {pc : Pc}, σ'.pc = Function.update σ.pc t pc → (∀ kind', kindOf pc = some kind' →
      kind' = kind) → ∀ u kind', kindOf (σ'.pc u) = some kind' → kind' = kind := by
    intro t pc pcs own u kind' is
    rw [pcs] at is
    by_cases isT : u = t
    · subst isT; rw [Function.update_self] at is; exact own kind' is
    · rw [Function.update_of_ne isT] at is; exact only.pcs u kind' is
  cases step_books taken with
  | stands same pcs => exact ⟨same.order ▸ only.order,pcs ▸ only.pcs⟩
  | @begins t pc same pcs top outside notCounted started =>
    refine ⟨same.order ▸ only.order,update pcs fun kind' is => ?_⟩
    obtain ⟨randR,isAct⟩ := started kind' is
    exact asked t kind' randR isAct
  | goes same pcs op counted kind => exact ⟨same.order ▸ only.order,update pcs fun kind' is => only.pcs _ _ (kind ▸ is)⟩
  | @enters t pc op outcome swaps order ticket pcs outside inside notCounted kind' =>
    refine ⟨fun u kind'' k member => ?_,update pcs fun kind'' is => only.pcs _ _ (kind' ▸ is)⟩
    rw [order] at member
    rcases List.mem_append.mp member with was | now
    · exact only.order u kind'' k was
    · cases List.mem_singleton.mp now
      have is : kindOf pc = some kind'' := by
        cases pc with
        | idle => cases inside
        | search _ pc => cases pc <;> cases inside
        | swap _ _ pc => cases pc <;> cases inside <;> rfl
      exact only.pcs t kind'' (kind' ▸ is)
  | counts order outcome ticket swaps pcs here still notCounted counted kind =>
    exact ⟨order ▸ only.order,update pcs fun kind' is => only.pcs _ _ (kind ▸ is)⟩
  | leaves order ticket swaps outcome pcs here counted => exact ⟨order ▸ only.order,update pcs nofun⟩

/-! ### The counters and the serial execution -/

variable {c : Convoy} {nodes : List Nat}

/-- The operations in the order of their first lock, with their outcomes in a
    serial execution. -/
def executed (value : Nat → List Char) (nodes : List Nat) (σ : State) : List (Op × Outcome) :=
  (σ.order.map Prod.snd).zip (serially value (σ.order.map Prod.snd) nodes).2

theorem opOf_of_inside (ref : Refines v s value σ c) {t i lo hi : Nat} {job : Job}
    (inside : c.phase t = .inside i lo hi job) : ∃ op, opOf (σ.pc t) = some op := by
  have fit := ref.fits t
  rw [inside] at fit
  generalize σ.pc t = pc at fit
  cases fit <;> exact ⟨_,rfl⟩

theorem done_of_counted (ref : Refines v s value σ c) {t : Nat} (counted : Counted (σ.pc t)) :
    ∃ i lo hi mode, c.phase t = .inside i lo hi (.done mode (.swapped true)) := by
  have fit := ref.fits t
  generalize σ.pc t = pc at fit counted
  generalize c.phase t = phase at fit
  cases fit with
  | unlockNext => cases counted; exact ⟨_,_,_,_,rfl⟩
  | unlockCur => cases counted; exact ⟨_,_,_,_,rfl⟩
  | unlockPrev => cases counted; exact ⟨_,_,_,_,rfl⟩
  | _ => exact counted.elim

/-- An operation whose outcome is recorded, or whose thread is outside of it, is
    over. -/
theorem rest_over (ref : Refines v s value σ c) {t i : Nat} {op : Op} (entry : σ.order[i]? = some (t,op))
    (outside : ∀ op', opOf (σ.pc t) = some op' → σ.ticket t ≠ i) : c.rest value i = fun l => (l,σ.outcome i) := by
  rcases rest_cases value c i with ended | ⟨u,lo,hi,job,there,_⟩
  · rw [ended,ref.outcome]
  · obtain ⟨op',same⟩ := ref.geometry.ticket there
    rw [ref.order,entry] at same
    cases same
    obtain ⟨op'',is⟩ := opOf_of_inside ref there
    exact absurd (ref.ticket there) (outside op'' is)

/-- A swap that has been counted has swapped in the serial execution. -/
theorem executed_of_credited (stands : Stands v s value nodes σ c) (tallied : Tallied σ) {kind : Swapper} {i : Nat}
    (credited : Credited σ kind i) : ∃ x, (executed value nodes σ)[i]? = some x ∧ swapOf kind x = true := by
  obtain ⟨t,k,entry,done⟩ := credited
  have ref := stands.refines
  have entered : i < c.order.length := by rw [ref.order]; exact (List.getElem?_eq_some_iff.mp entry).1
  have settled : ∀ l, (c.rest value i l).2 = some (.swapped true) := by
    rcases done with ended | ⟨counted,number⟩
    · rw [rest_over ref entry,ended]
      · intro _
        exact rfl
      · intro op is number
        rw [← number,(tallied.inside t op is).2] at ended
        cases ended
    · obtain ⟨j,lo,hi,mode,phase⟩ := done_of_counted ref counted
      obtain rfl : j = i := (ref.ticket phase).symm.trans number
      rw [rest_inside ref.geometry phase]
      intro _
      exact rfl
  have result := convoy_outcome stands.serial entered settled
  rw [ref.order] at result
  refine ⟨(.swap kind k,.swapped true),?_,by simp [swapOf]⟩
  rw [executed,List.getElem?_zip_eq_some]
  exact ⟨by simp [entry],result⟩

/-- No thread is inside `swap_pairs`. -/
def NoSwap (σ : State) : Prop := ∀ t, kindOf (σ.pc t) = none

/-- While no thread is inside `swap_pairs`, the operations inside the list are
    searches, and all swaps are over. -/
theorem rest_of_noSwap (stands : Stands v s value nodes σ c) (tallied : Tallied σ) (quiet : NoSwap σ) (i : Nat) :
    (∀ l, (c.rest value i l).1 = l) ∧
      ∀ t kind k, σ.order[i]? = some (t,.swap kind k) → c.rest value i = fun l => (l,σ.outcome i) := by
  have ref := stands.refines
  have search : ∀ t op, opOf (σ.pc t) = some op → ∃ kind, op = .search kind := by
    intro t op is
    have notSwap := quiet t
    cases here : σ.pc t with
    | idle => rw [here] at is; cases is
    | search kind pc => rw [here] at is; cases pc <;> cases is <;> exact ⟨kind,rfl⟩
    | swap kind k pc => rw [here] at notSwap; cases notSwap
  constructor
  · rcases rest_cases value c i with ended | ⟨u,lo,hi,job,there,rest⟩
    · rw [ended]; exact fun _ => rfl
    · rw [rest]
      cases job with
      | search kind n => exact fun _ => rfl
      | done mode outcome => exact fun _ => rfl
      | swap kind k =>
        have fit := ref.fits u
        have notSwap := quiet u
        rw [there] at fit
        generalize σ.pc u = pc at fit notSwap
        cases fit <;> cases notSwap
  · intro t kind k entry
    refine rest_over ref entry fun op is number => ?_
    obtain ⟨kind',rfl⟩ := search t op is
    have mine := (tallied.inside t _ is).1
    rw [number,entry] at mine
    cases mine

/-- While no thread is inside `swap_pairs`, every swap of the serial execution that
    has swapped has been counted. -/
theorem credited_of_executed (stands : Stands v s value nodes σ c) (tallied : Tallied σ) (quiet : NoSwap σ)
    {kind : Swapper} {i : Nat} (found : ∃ x, (executed value nodes σ)[i]? = some x ∧ swapOf kind x = true) :
    Credited σ kind i := by
  obtain ⟨⟨op,outcome⟩,at',isSwap⟩ := found
  rw [executed,List.getElem?_zip_eq_some,List.getElem?_map,Option.map_eq_some_iff] at at'
  obtain ⟨⟨⟨t,op'⟩,entry,same⟩,result⟩ := at'
  dsimp only at entry same result
  subst same
  cases op' with
  | search kind' => cases isSwap
  | swap kind' k =>
    have rest := (rest_of_noSwap stands tallied quiet i).2 t kind' k entry
    have entered : i < c.order.length := by
      rw [stands.refines.order]
      exact (List.getElem?_eq_some_iff.mp entry).1
    have known : ∀ l, (c.rest value i l).2 = σ.outcome i := by rw [rest]; exact fun _ => rfl
    have settled := convoy_outcome stands.serial entered known
    rw [stands.refines.order,result] at settled
    cases outcome with
    | pairs n => cases isSwap
    | swapped decision =>
      cases decision with
      | false => cases isSwap
      | true =>
        obtain rfl : kind' = kind := by simpa [swapOf] using isSwap
        exact ⟨t,k,entry,.inl settled.symm⟩

theorem swaps_le_tally (stands : Stands v s value nodes σ c) (tallied : Tallied σ) (kind : Swapper) :
    σ.swaps kind ≤ tally kind (executed value nodes σ) := by
  obtain ⟨credits,size,marks⟩ := tallied.counters kind
  rw [← size]
  exact card_le_countP fun i member => executed_of_credited stands tallied ((marks i).mp member)

theorem swaps_eq_tally (stands : Stands v s value nodes σ c) (tallied : Tallied σ) (quiet : NoSwap σ) (kind : Swapper) :
    σ.swaps kind = tally kind (executed value nodes σ) := by
  obtain ⟨credits,size,marks⟩ := tallied.counters kind
  rw [← size]
  exact card_positions fun i => (marks i).trans
    ⟨executed_of_credited stands tallied,credited_of_executed stands tallied quiet⟩

/-- What the swap counters say of the list behind the sentinel, when it was
    `before` at the start and is `after` now. -/
def CountersAccount (value : Nat → List Char) (σ : State) (before after : List Nat) : Prop :=
  Accounts (strlen value) (σ.swaps .asc) (σ.swaps .desc) (σ.swaps .notEqual) before after

/-- In every program, whatever threads run and however their steps interleave, the
    list whenever no thread is inside `swap_pairs` has as many inversions as the
    initial list and the three counters say; and when only `swapper_asc` threads
    run, there are never more swaps than inversions in the initial list. -/
theorem counters_account {v : Variant} {n : Int} (two : 2 ≤ n) {succeeds : Nat → Bool} {rand : Nat → Nat} {s : Storage}
    {h : Heap} (built : storageInit n succeeds rand = (some s,h)) {acts : List Act} {σ : State}
    (ran : Transition.run (step v s h.value) (start h) acts = some σ) :
    ∃ nodes, Holds s h nodes ∧
      (NoSwap σ → ∃ current, Chain σ.next (some s.first) (s.first :: current) ∧
        CountersAccount h.value σ nodes current) ∧
      ((∀ t kind randR, .swap t kind randR ∈ acts → kind = .asc) →
        σ.swaps .asc + σ.swaps .desc + σ.swaps .notEqual ≤ inversions (strlen h.value) nodes) := by
  obtain ⟨size,nodes,holds⟩ := storageInit_holds built
  obtain ⟨c,stands⟩ := run_stands holds (by omega) ran
  have tallied := Transition.run_invariant (P := Tallied) (fun _ _ _ => tallied_step) ran (start_tallied h)
  have accounts := serially_accounts h.value (σ.order.map Prod.snd) nodes
  refine ⟨nodes,holds,fun quiet => ?_,fun asked => ?_⟩
  · have clean : ∀ t, dirty (σ.pc t) = [] := by
      intro t
      have notSwap := quiet t
      cases here : σ.pc t with
      | idle => rfl
      | search kind pc => rfl
      | swap kind k pc => rw [here] at notSwap; cases notSwap
    have chain := chain_of_clean stands.refines clean
    rw [convoy_items stands.serial fun j => (rest_of_noSwap stands tallied quiet j).1 _,stands.refines.order] at chain
    refine ⟨_,chain,?_⟩
    rw [CountersAccount,swaps_eq_tally stands tallied quiet,swaps_eq_tally stands tallied quiet,
      swaps_eq_tally stands tallied quiet]
    exact accounts
  · have only : Only .asc σ := Transition.run_invariant_of (P := Only .asc)
      (fun _ _ _ only allowed taken => only_step only allowed taken) ran
      (fun a member t kind randR isAct => asked t kind randR (isAct ▸ member)) ⟨nofun,nofun⟩
    have others : ∀ kind, kind ≠ .asc → tally kind (executed h.value nodes σ) = 0 := by
      intro kind other
      refine List.countP_eq_zero.mpr fun x member isSwap => ?_
      obtain ⟨op,outcome⟩ := x
      obtain ⟨⟨t,op'⟩,entry,same⟩ := List.mem_map.mp (List.of_mem_zip member).1
      cases op with
      | search kind' => cases isSwap
      | swap kind' k =>
        dsimp only at same
        subst same
        have isAsc : kind' = .asc := only.order t kind' k entry
        subst isAsc
        cases outcome with
        | pairs n => cases isSwap
        | swapped decision => cases decision <;> simp [swapOf] at isSwap; exact other isSwap.symm
    rw [AccountsFor] at accounts
    have noDesc := others .desc (by decide)
    have noNotEqual := others .notEqual (by decide)
    rw [executed] at noDesc noNotEqual
    rw [noDesc,noNotEqual] at accounts
    have bound := accounts.bound
    have asc := swaps_le_tally stands tallied .asc
    have desc := swaps_le_tally stands tallied .desc
    have notEqual := swaps_le_tally stands tallied .notEqual
    rw [executed] at asc desc notEqual
    omega

theorem counters_account_pair : ∃ nodes, Holds pairStorage pairHeap nodes ∧
    (∃ current, Chain (pairAfter .mutex pairSchedule).next (some pairStorage.first) (pairStorage.first :: current) ∧
      CountersAccount pairHeap.value (pairAfter .mutex pairSchedule) nodes current) ∧
    (pairAfter .mutex pairSchedule).swaps .asc + (pairAfter .mutex pairSchedule).swaps .desc +
      (pairAfter .mutex pairSchedule).swaps .notEqual ≤ inversions (strlen pairHeap.value) nodes := by
  obtain ⟨nodes,holds,account,bound⟩ := counters_account (n := 2) (by decide)
    (rfl : storageInit 2 (fun _ => true) pairRand = (some pairStorage,pairHeap))
    (rfl : Transition.run (step .mutex pairStorage pairHeap.value) (start pairHeap) pairSchedule =
      some (pairAfter .mutex pairSchedule))
  have quiet : NoSwap (pairAfter .mutex pairSchedule)
    | 0 => rfl
    | 1 => rfl
    | _+2 => rfl
  refine ⟨nodes,holds,account quiet,bound fun t kind randR member => ?_⟩
  have isIt : Act.swap t kind randR = .swap 0 .asc 0 := by simpa [pairSchedule] using member
  cases isIt
  rfl

end Os5Sem.SwapCounters

import Mathlib.Algebra.Order.BigOperators.Group.Finset
import Os5Sem.SwapCounters

/-!
A ledger over the operations of a run: every operation that has locked the first
node has an entry, which is worth what its outcome says once it is over, and what
its thread has earned so far before that. A step changes the entry of its own
thread only, so that the total is known from what single steps earn
(`total_step`).
-/
namespace Os5Sem.ListLedger
open Os5Sem.ListStorage Os5Sem.ListProgram Os5Sem.ListLocks Os5Sem.ListRefine Os5Sem.ListOrder Os5Sem.SwapCounters

variable {σ σ' : State} {v : Variant} {s : Storage} {value : Nat → List Char}

/-! ### What a step does to the records -/

/-- What a step of thread `t` does to the records: nothing, the thread's operation
    has locked the first node, or it is over. -/
inductive Entry (σ σ' : State) (t : Nat) : Prop
  | stays (order : σ'.order = σ.order) (outcome : σ'.outcome = σ.outcome) (ticket : σ'.ticket = σ.ticket)
      (op : opOf (σ'.pc t) = opOf (σ.pc t))
  | enters {op : Op} (outcome : σ'.outcome = σ.outcome) (order : σ'.order = σ.order ++ [(t,op)])
      (ticket : σ'.ticket = Function.update σ.ticket t σ.order.length) (outside : opOf (σ.pc t) = none)
      (inside : opOf (σ'.pc t) = some op)
  | leaves {op : Op} {result : Outcome} (order : σ'.order = σ.order) (ticket : σ'.ticket = σ.ticket)
      (outcome : σ'.outcome = Function.update σ.outcome (σ.ticket t) (some result)) (here : opOf (σ.pc t) = some op)
      (top : σ'.pc t = .idle)

/-- A thread that begins an operation has taken no step of it. -/
theorem begins_outside {a : Act} {t : Nat} (who : actor a = some t) (begins : a ≠ .step t)
    (taken : step v s value σ a = some σ') : opOf (σ.pc t) = none ∧ opOf (σ'.pc t) = none := by
  cases step_cases taken with
  | search u kind _ top => cases who; rw [top,goto_self]; exact ⟨rfl,rfl⟩
  | swap u kind randR _ top => cases who; rw [top,goto_self]; exact ⟨rfl,rfl⟩
  | searching here taken => cases who; exact absurd rfl begins
  | swapping here taken => cases who; exact absurd rfl begins
  | stop => cases who

theorem entry_step {a : Act} {t : Nat} (who : actor a = some t) (taken : step v s value σ a = some σ') :
    Entry σ σ' t := by
  have mine : ∀ {u : Nat} {pc : Pc}, σ'.pc = Function.update σ.pc u pc → pc ≠ σ.pc u → u = t := by
    intro u pc pcs moved
    by_contra other
    have still := step_others (u := u) (by rw [who]; exact fun same => other (Option.some.inj same).symm) taken
    rw [pcs,Function.update_self] at still
    exact moved still
  cases step_books taken with
  | stands same pcs => exact .stays same.order same.outcome same.ticket (by rw [pcs])
  | @begins u pc same pcs top outside _ _ =>
    refine .stays same.order same.outcome same.ticket ?_
    rw [pcs]
    by_cases isU : t = u
    · subst isU; rw [Function.update_self,outside,top]; rfl
    · rw [Function.update_of_ne isU]
  | @goes u pc same pcs op _ _ =>
    refine .stays same.order same.outcome same.ticket ?_
    rw [pcs]
    by_cases isU : t = u
    · subst isU; rw [Function.update_self,op]
    · rw [Function.update_of_ne isU]
  | @enters u pc op outcome _ order ticket pcs outside inside _ _ =>
    obtain rfl := mine pcs fun same => by rw [same,outside] at inside; cases inside
    exact .enters outcome order ticket outside (by rw [pcs,Function.update_self]; exact inside)
  | @counts u k kind pc order outcome ticket _ pcs here still _ _ _ =>
    refine .stays order outcome ticket ?_
    rw [pcs]
    by_cases isU : t = u
    · subst isU; rw [Function.update_self,still,here]
    · rw [Function.update_of_ne isU]
  | @leaves u op result order ticket _ outcome pcs here _ =>
    obtain rfl := mine pcs fun same => by rw [← same] at here; cases here
    exact .leaves order ticket outcome here (by rw [pcs,Function.update_self])

/-! ### Pending operations -/

/-- An operation without an outcome is the one that its thread is inside of. -/
def Pending (σ : State) : Prop :=
  ∀ i t op, σ.order[i]? = some (t,op) → σ.outcome i = none → opOf (σ.pc t) = some op ∧ σ.ticket t = i

theorem start_pending (h : Heap) : Pending (start h) := by
  intro i t op entry
  cases entry

/-- A number that is given out in the next step is not in use. -/
theorem entry_append {order : List (Nat × Op)} {entry new : Nat × Op} {i : Nat}
    (here : (order ++ [new])[i]? = some entry) :
    i < order.length ∧ order[i]? = some entry ∨ i = order.length ∧ entry = new := by
  by_cases earlier : i < order.length
  · rw [List.getElem?_append_left earlier] at here
    exact .inl ⟨earlier,here⟩
  · rw [List.getElem?_append_right (Nat.not_lt.mp earlier)] at here
    obtain ⟨inside,is⟩ := List.getElem?_eq_some_iff.mp here
    rw [List.length_singleton] at inside
    have last : i = order.length := by omega
    exact .inr ⟨last,by simpa [last] using is.symm⟩

theorem pending_entry {t : Nat} (pending : Pending σ) (effect : Entry σ σ' t)
    (others : ∀ u, u ≠ t → σ'.pc u = σ.pc u) : Pending σ' := by
  intro i u op entry unsettled
  cases effect with
  | stays order outcome ticket same =>
    rw [order] at entry
    rw [outcome] at unsettled
    rw [ticket]
    obtain ⟨inside,number⟩ := pending i u op entry unsettled
    by_cases isT : u = t
    · subst isT; exact ⟨same.trans inside,number⟩
    · exact ⟨(congrArg opOf (others u isT)).trans inside,number⟩
  | enters outcome order ticket outside inside =>
    rw [order] at entry
    rw [outcome] at unsettled
    rw [ticket]
    rcases entry_append entry with ⟨_,before⟩ | ⟨rfl,same⟩
    · obtain ⟨was,number⟩ := pending i u op before unsettled
      have isNotT : u ≠ t := by
        intro isT
        rw [isT,outside] at was
        cases was
      rw [others u isNotT,Function.update_of_ne isNotT]
      exact ⟨was,number⟩
    · cases same
      exact ⟨inside,Function.update_self ..⟩
  | leaves order ticket outcome here top =>
    rw [order] at entry
    rw [ticket]
    by_cases number : i = σ.ticket t
    · rw [outcome,number,Function.update_self] at unsettled
      cases unsettled
    · rw [outcome,Function.update_of_ne number] at unsettled
      obtain ⟨inside,is⟩ := pending i u op entry unsettled
      have isNotT : u ≠ t := fun isT => number (isT ▸ is.symm)
      exact ⟨(congrArg opOf (others u isNotT)).trans inside,is⟩

theorem pending_step {a : Act} (pending : Pending σ) (taken : step v s value σ a = some σ') : Pending σ' := by
  cases who : actor a with
  | some t =>
    refine pending_entry pending (entry_step who taken) fun u other => step_others ?_ taken
    rw [who]
    exact fun same => other (Option.some.inj same).symm
  | none =>
    cases a <;> cases who
    cases taken
    exact pending

/-! ### Totals -/

/-- The worth of the entry with the given number: `worth` once the operation is over,
    and what its thread has `earned` before. -/
def credit (worth : Nat → Op → Outcome → Nat) (earned : Nat → Nat) (σ : State) (i : Nat) : Nat :=
  match σ.order[i]?,σ.outcome i with
  | some (t,op),some result => worth t op result
  | some (t,_),none => earned t
  | none,_ => 0

def total (worth : Nat → Op → Outcome → Nat) (earned : Nat → Nat) (σ : State) : Nat :=
  ∑ i ∈ Finset.range σ.order.length, credit worth earned σ i

variable {worth : Nat → Op → Outcome → Nat} {earned earned' : Nat → Nat}

/-- Threads that have earned more make the total greater. -/
theorem total_le (more : ∀ t, earned t ≤ earned' t) (σ : State) : total worth earned σ ≤ total worth earned' σ := by
  refine Finset.sum_le_sum fun i _ => ?_
  unfold credit
  split
  · exact Nat.le_refl _
  · exact more _
  · exact Nat.le_refl _

theorem credit_over {i t : Nat} {op : Op} {result : Outcome} (entry : σ.order[i]? = some (t,op))
    (ended : σ.outcome i = some result) : credit worth earned σ i = worth t op result := by simp [credit,entry,ended]

theorem credit_open {i t : Nat} {op : Op} (entry : σ.order[i]? = some (t,op)) (unsettled : σ.outcome i = none) :
    credit worth earned σ i = earned t := by simp [credit,entry,unsettled]

/-- An entry of another thread, or of an operation that is over, stays what it is. -/
theorem credit_others {t i : Nat} (pending : Pending σ) (others : ∀ u, u ≠ t → earned' u = earned u)
    (entry : σ'.order[i]? = σ.order[i]?) (outcome : σ'.outcome i = σ.outcome i)
    (away : ∀ op, opOf (σ.pc t) = some op → σ.ticket t ≠ i) : credit worth earned' σ' i = credit worth earned σ i := by
  unfold credit
  rw [entry,outcome]
  cases here : σ.order[i]? with
  | none => rfl
  | some owner =>
    obtain ⟨u,op⟩ := owner
    cases ended : σ.outcome i with
    | some result => rfl
    | none =>
      obtain ⟨inside,number⟩ := pending i u op here ended
      refine others u fun isT => ?_
      rw [isT] at inside number
      exact away op inside number

variable (worth earned earned') in
/-- Only the entry of the thread that takes the step changes. -/
theorem total_change {j : Nat} (inside : j < σ.order.length) (length : σ'.order.length = σ.order.length)
    (others : ∀ i, i ≠ j → credit worth earned' σ' i = credit worth earned σ i) :
    total worth earned' σ' + credit worth earned σ j = total worth earned σ + credit worth earned' σ' j := by
  have member : j ∈ Finset.range σ.order.length := Finset.mem_range.mpr inside
  have rest : ∑ i ∈ (Finset.range σ.order.length).erase j, credit worth earned' σ' i =
      ∑ i ∈ (Finset.range σ.order.length).erase j, credit worth earned σ i :=
    Finset.sum_congr rfl fun i away => others i (Finset.ne_of_mem_erase away)
  rw [total,total,length,← Finset.add_sum_erase _ _ member,← Finset.add_sum_erase _ _ member,rest]
  omega

variable (worth) in
/-- What a step of thread `t` does to the total: the thread goes on, and has earned
    something, or its operation is over, and is worth what its outcome says. -/
theorem total_step {t : Nat} (tallied : Tallied σ) (pending : Pending σ) (effect : Entry σ σ' t)
    (others : ∀ u, u ≠ t → earned' u = earned u) (before : opOf (σ.pc t) = none → earned t = 0)
    (after : opOf (σ'.pc t) = none → earned' t = 0) :
    ((opOf (σ.pc t) = none ∨ opOf (σ'.pc t) ≠ none) ∧
      total worth earned' σ' + earned t = total worth earned σ + earned' t) ∨
    ∃ op result, opOf (σ.pc t) = some op ∧ σ'.pc t = .idle ∧ σ'.outcome (σ.ticket t) = some result ∧
      total worth earned' σ' + earned t = total worth earned σ + worth t op result := by
  cases effect with
  | stays order outcome ticket same =>
    left
    cases here : opOf (σ.pc t) with
    | none =>
      refine ⟨.inl rfl,?_⟩
      rw [before here,after (same.trans here),total,total,order]
      congr 1
      exact Finset.sum_congr rfl fun i _ => credit_others pending others (by rw [order]) (by rw [outcome])
        fun op is => by rw [here] at is; cases is
    | some op =>
      refine ⟨.inr (by rw [same,here]; simp),?_⟩
      obtain ⟨entry,unsettled⟩ := tallied.inside t op here
      have inside := (List.getElem?_eq_some_iff.mp entry).1
      have change := total_change worth earned earned' inside (by rw [order])
        fun i other => credit_others pending others (by rw [order]) (by rw [outcome]) fun _ _ => other.symm
      rwa [credit_open entry unsettled,credit_open (by rw [order]; exact entry) (by rw [outcome]; exact unsettled)]
        at change
  | @enters op outcome order ticket outside inside =>
    left
    refine ⟨.inl outside,?_⟩
    have last : σ'.order[σ.order.length]? = some (t,op) := by rw [order]; simp
    have fresh : σ'.outcome σ.order.length = none := by rw [outcome]; exact tallied.beyond _ (Nat.le_refl _)
    have length : σ'.order.length = σ.order.length + 1 := by rw [order]; simp
    rw [before outside,total,total,length,Finset.sum_range_succ,credit_open last fresh,Nat.add_zero]
    congr 1
    refine Finset.sum_congr rfl fun i member => credit_others pending others ?_ (by rw [outcome])
      fun op is => by rw [outside] at is; cases is
    rw [order,List.getElem?_append_left (Finset.mem_range.mp member)]
  | @leaves op result order ticket outcome here top =>
    right
    obtain ⟨entry,unsettled⟩ := tallied.inside t op here
    have inside := (List.getElem?_eq_some_iff.mp entry).1
    have ended : σ'.outcome (σ.ticket t) = some result := by rw [outcome,Function.update_self]
    refine ⟨op,result,here,top,ended,?_⟩
    have change := total_change worth earned earned' inside (by rw [order])
      fun i other => credit_others pending others (by rw [order]) (by rw [outcome,Function.update_of_ne other])
        fun _ _ => other.symm
    rwa [credit_open entry unsettled,credit_over (by rw [order]; exact entry) ended] at change

/-- How a quantity that the ledger accounts for goes from `q` to `q'` in a step of
    thread `t`. -/
inductive Earns (worth : Nat → Op → Outcome → Nat) (earned earned' : Nat → Nat) (σ σ' : State) (t q q' : Nat) : Prop
  | outside (before : opOf (σ.pc t) = none) (after : opOf (σ'.pc t) = none) (same : q' = q)
  | inside (after : opOf (σ'.pc t) ≠ none) (more : q' + earned t = q + earned' t)
  | leaves (op : Op) (result : Outcome) (here : opOf (σ.pc t) = some op) (top : σ'.pc t = .idle)
      (ended : σ'.outcome (σ.ticket t) = some result) (last : q' + earned t = q + worth t op result)

/-- The total goes with the quantity. -/
theorem total_earns {t q q' : Nat} (tallied : Tallied σ) (pending : Pending σ) (effect : Entry σ σ' t)
    (others : ∀ u, u ≠ t → earned' u = earned u) (before : opOf (σ.pc t) = none → earned t = 0)
    (after : opOf (σ'.pc t) = none → earned' t = 0) (earns : Earns worth earned earned' σ σ' t q q') :
    q' + total worth earned σ = q + total worth earned' σ' := by
  rcases total_step worth tallied pending effect others before after with
    ⟨either,change⟩ | ⟨op,result,here,top,ended,change⟩
  · cases earns with
    | outside before' after' same =>
      have none := before before'
      have none' := after after'
      omega
    | inside _ more => omega
    | leaves _ _ here top _ _ =>
      rcases either with outside | inside
      · cases outside.symm.trans here
      · exact absurd (congrArg opOf top) inside
  · cases earns with
    | outside before' _ _ => cases before'.symm.trans here
    | inside after' _ => exact absurd (congrArg opOf top) after'
    | leaves _ _ here' _ ended' last =>
      cases here.symm.trans here'
      cases ended.symm.trans ended'
      omega

end Os5Sem.ListLedger

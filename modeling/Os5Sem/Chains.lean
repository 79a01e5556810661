import Mathlib.Data.List.Basic
import Mathlib.Logic.Function.Basic

/-!
Singly linked chains in memory: the nodes met when a next field is followed from
a pointer to the null pointer.
-/
namespace Os5Sem.Chains
universe u

variable {Addr : Type u}

/-- Following `next` from a pointer visits exactly the nodes of the list, in its
    order, and ends at the null pointer. -/
def Chain (next : Addr → Option Addr) : Option Addr → List Addr → Prop
  | p, [] => p = none
  | p, x :: rest => p = some x ∧ Chain next (next x) rest

/-- A chain reads only the next fields of its own nodes. -/
theorem chain_congr {next next' : Addr → Option Addr} {p : Option Addr} {l : List Addr}
    (same : ∀ x ∈ l, next' x = next x) (chain : Chain next p l) : Chain next' p l := by
  induction l generalizing p with
  | nil => exact chain
  | cons x rest ih =>
    refine ⟨chain.1,?_⟩
    rw [same x List.mem_cons_self]
    exact ih (fun y member => same y (List.mem_cons_of_mem _ member)) chain.2

/-- The pointer and the next fields determine the chain. -/
theorem chain_unique {next : Addr → Option Addr} {p : Option Addr} {l m : List Addr} (one : Chain next p l)
    (two : Chain next p m) : l = m := by
  induction l generalizing p m with
  | nil =>
    cases m with
    | nil => rfl
    | cons y more => exact absurd (one.symm.trans two.1) (by simp)
  | cons x rest ih =>
    cases m with
    | nil => exact absurd (one.1.symm.trans two) (by simp)
    | cons y more =>
      obtain rfl := Option.some.inj (one.1.symm.trans two.1)
      rw [ih one.2 two.2]

/-- Where every node of the list points to the node at the next position, the
    list is a chain. -/
theorem chain_of_positions {next : Addr → Option Addr} {l : List Addr}
    (links : ∀ k x, l[k]? = some x → next x = l[k+1]?) : Chain next l[0]? l := by
  induction l with
  | nil => rfl
  | cons x rest ih =>
    refine ⟨rfl,?_⟩
    have first := links 0 x rfl
    simp only [Nat.zero_add,List.getElem?_cons_succ] at first
    rw [first]
    exact ih (fun k y here => by simpa using links (k+1) y (by simpa using here))

theorem chain_positions {next : Addr → Option Addr} {p : Option Addr} {l : List Addr} (chain : Chain next p l) :
    ∀ k x, l[k]? = some x → next x = l[k+1]? := by
  induction l generalizing p with
  | nil => intro k x here; simp at here
  | cons y rest ih =>
    intro k x here
    cases k with
    | zero =>
      simp only [List.getElem?_cons_zero,Option.some.injEq] at here
      subst here
      cases rest with
      | nil => exact chain.2
      | cons z more => exact chain.2.1
    | succ k => simpa using ih chain.2 k x (by simpa using here)

/-- A node whose next field is the null pointer is linked behind the last node of
    a chain. -/
theorem chain_link [DecidableEq Addr] {next : Addr → Option Addr} {p : Option Addr} {l : List Addr} {last fresh : Addr}
    (chain : Chain next p (l ++ [last])) (nodup : (l ++ [last]).Nodup) (new : fresh ∉ l ++ [last])
    (ends : next fresh = none) : Chain (Function.update next last (some fresh)) p (l ++ [last,fresh]) := by
  induction l generalizing p with
  | nil =>
    have other : fresh ≠ last := by simpa using new
    refine ⟨chain.1,by simp,?_⟩
    show Function.update next last (some fresh) fresh = none
    rw [Function.update_of_ne other,ends]
  | cons x rest ih =>
    have notLast : x ≠ last := by
      intro same
      subst same
      simp at nodup
    refine ⟨chain.1,?_⟩
    rw [Function.update_of_ne notLast]
    exact ih chain.2 (List.nodup_cons.mp nodup).2 (fun member => new (List.mem_cons_of_mem _ member))

/-- A fresh node is appended behind the last node of a chain. -/
theorem chain_snoc [DecidableEq Addr] {next : Addr → Option Addr} {p : Option Addr} {l : List Addr} {last fresh : Addr}
    (chain : Chain next p (l ++ [last])) (nodup : (l ++ [last]).Nodup) (new : fresh ∉ l ++ [last]) :
    Chain (Function.update (Function.update next fresh none) last (some fresh)) p (l ++ [last,fresh]) := by
  refine chain_link (chain_congr (fun x member => ?_) chain) nodup new (Function.update_self ..)
  exact Function.update_of_ne (fun same : x = fresh => new (same ▸ member)) _ _

end Os5Sem.Chains

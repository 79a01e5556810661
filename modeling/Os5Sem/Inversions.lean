import Os5Sem.Adjacent
import Mathlib.Tactic.Linarith
import Mathlib.Data.Finset.Card

/-!
Inversions of a list, and what exchanges of neighbours do to them: an exchange of
a decreasing pair removes one inversion, an exchange of an increasing pair adds
one. `Accounts` adds this up over a sequence of exchanges of three kinds.
-/
namespace Os5Sem.Inversions
open Os5Sem.Adjacent
universe u

variable {α : Type u} (key : α → Nat)

/-- The number of pairs of elements, an earlier and a later one, whose keys are
    strictly decreasing. -/
def inversions : List α → Nat
  | [] => 0
  | x :: later => later.countP (fun y => key y < key x) + inversions later

/-- The two pairs of neighbours count for each other only. -/
theorem inversions_exchange {k : Nat} {l : List α} {x y : α} (left : l[k]? = some x) (right : l[k+1]? = some y) :
    inversions key (exchange k l) + (if key y < key x then 1 else 0) =
      inversions key l + (if key x < key y then 1 else 0) := by
  induction k generalizing l with
  | zero =>
    match l with
    | [] => cases left
    | [z] => cases right
    | x' :: y' :: later =>
      cases left
      cases right
      simp only [exchange,inversions,List.countP_cons,decide_eq_true_eq]
      omega
  | succ k ih =>
    cases l with
    | nil => cases left
    | cons z later =>
      have ends := ih (l := later) (by simpa using left) (by simpa using right)
      have same : (exchange k later).countP (fun y => key y < key z) = later.countP (fun y => key y < key z) :=
        (exchange_perm k later).countP_eq _
      simp only [exchange_succ,inversions,same]
      omega

theorem inversions_of_decreasing {k : Nat} {l : List α} {x y : α} (left : l[k]? = some x) (right : l[k+1]? = some y)
    (decreasing : key y < key x) : inversions key (exchange k l) + 1 = inversions key l := by
  have ends := inversions_exchange key left right
  rw [if_pos decreasing,if_neg (by omega)] at ends
  exact ends

theorem inversions_of_increasing {k : Nat} {l : List α} {x y : α} (left : l[k]? = some x) (right : l[k+1]? = some y)
    (increasing : key x < key y) : inversions key (exchange k l) = inversions key l + 1 := by
  have ends := inversions_exchange key left right
  rw [if_neg (by omega),if_pos increasing] at ends
  exact ends

/-- Some decreasing pairs, some increasing pairs and some pairs of either kind have
    been exchanged on the way from one list to another. -/
def Accounts (down up either : Nat) (before after : List α) : Prop :=
  ∃ d : Int, |d| ≤ either ∧ d % 2 = (either : Int) % 2 ∧
    (inversions key after : Int) = inversions key before - down + up + d

theorem accounts_refl (l : List α) : Accounts key 0 0 0 l l := ⟨0,by simp,rfl,by simp⟩

variable {key}

theorem Accounts.trans {down up either down' up' either' : Nat} {l m r : List α}
    (first : Accounts key down up either l m) (second : Accounts key down' up' either' m r) :
    Accounts key (down + down') (up + up') (either + either') l r := by
  obtain ⟨d,bound,parity,ends⟩ := first
  obtain ⟨d',bound',parity',ends'⟩ := second
  refine ⟨d + d',?_,by push_cast; omega,by push_cast; linarith only [ends,ends']⟩
  calc |d + d'| ≤ |d| + |d'| := abs_add_le d d'
    _ ≤ ((either + either' : Nat) : Int) := by push_cast; exact add_le_add bound bound'

theorem accounts_decreasing {k : Nat} {l : List α} {x y : α} (left : l[k]? = some x) (right : l[k+1]? = some y)
    (decreasing : key y < key x) : Accounts key 1 0 0 l (exchange k l) := by
  have ends := inversions_of_decreasing key left right decreasing
  exact ⟨0,by simp,rfl,by omega⟩

theorem accounts_increasing {k : Nat} {l : List α} {x y : α} (left : l[k]? = some x) (right : l[k+1]? = some y)
    (increasing : key x < key y) : Accounts key 0 1 0 l (exchange k l) := by
  have ends := inversions_of_increasing key left right increasing
  exact ⟨0,by simp,rfl,by omega⟩

theorem accounts_either {k : Nat} {l : List α} {x y : α} (left : l[k]? = some x) (right : l[k+1]? = some y)
    (different : key x ≠ key y) : Accounts key 0 0 1 l (exchange k l) := by
  rcases Nat.lt_or_gt_of_ne different with increasing | decreasing
  · have ends := inversions_of_increasing key left right increasing
    exact ⟨1,by decide,rfl,by omega⟩
  · have ends := inversions_of_decreasing key left right decreasing
    exact ⟨-1,by decide,rfl,by omega⟩

/-- Exchanges of decreasing pairs only cannot outnumber the inversions. -/
theorem Accounts.bound {down : Nat} {before after : List α} (accounts : Accounts key down 0 0 before after) :
    down ≤ inversions key before := by
  obtain ⟨d,bound,_,ends⟩ := accounts
  have none : d = 0 := abs_nonpos_iff.mp (by simpa using bound)
  omega

/-! ### Counting by positions -/

/-- The number of elements that pass the test is the number of their positions. -/
theorem card_positions {test : α → Bool} {l : List α} {positions : Finset Nat}
    (marks : ∀ i, i ∈ positions ↔ ∃ x, l[i]? = some x ∧ test x = true) : positions.card = l.countP test := by
  induction l using List.reverseRecOn generalizing positions with
  | nil =>
    have empty : positions = ∅ := Finset.eq_empty_of_forall_notMem fun i member => by simpa using (marks i).mp member
    simp [empty]
  | append_singleton l z ih =>
    have last : l.length ∈ positions ↔ test z = true := by rw [marks]; simp
    have earlier : ∀ i, i ∈ positions.erase l.length ↔ ∃ x, l[i]? = some x ∧ test x = true := by
      intro i
      rw [Finset.mem_erase,marks]
      rcases Nat.lt_trichotomy i l.length with inside | rfl | outside
      · simp [List.getElem?_append_left inside,inside.ne]
      · simp
      · rw [List.getElem?_append_right outside.le,List.getElem?_eq_none outside.le]
        have : ¬ i - l.length = 0 := by omega
        simp [this]
    rw [List.countP_append,← ih earlier]
    by_cases passes : test z = true
    · have positive : 0 < positions.card := Finset.card_pos.mpr ⟨_,last.mpr passes⟩
      rw [Finset.card_erase_of_mem (last.mpr passes)]
      simp [passes]
      omega
    · rw [Finset.erase_eq_of_notMem (mt last.mp passes)]
      simp [passes]

theorem card_le_countP {test : α → Bool} {l : List α} {positions : Finset Nat}
    (marks : ∀ i ∈ positions, ∃ x, l[i]? = some x ∧ test x = true) : positions.card ≤ l.countP test := by
  have all : ∀ i, i ∈ (Finset.range l.length).filter (fun i => (l[i]?).any test = true) ↔
      ∃ x, l[i]? = some x ∧ test x = true := by
    intro i
    rw [Finset.mem_filter,Finset.mem_range,Option.any_eq_true]
    exact ⟨And.right,fun found => ⟨(List.getElem?_eq_some_iff.mp found.choose_spec.1).1,found⟩⟩
  rw [← card_positions all]
  exact Finset.card_le_card fun i member => (all i).mpr (marks i member)

end Os5Sem.Inversions

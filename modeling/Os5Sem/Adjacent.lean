import Mathlib.Data.List.Basic

/-!
Neighbours in a list: the exchange of the elements at two neighbouring
positions, a test on such a pair, and the number of neighbouring pairs that pass
a test.
-/
namespace Os5Sem.Adjacent
universe u

variable {α : Type u}

/-- Exchanges the elements at positions `k` and `k+1`, if there are such. -/
def exchange : Nat → List α → List α
  | 0, x :: y :: rest => y :: x :: rest
  | k+1, x :: rest => x :: exchange k rest
  | _, l => l

/-- The elements at positions `k` and `k+1` exist and pass the test. -/
def holdsAt (test : α → α → Bool) (k : Nat) (l : List α) : Bool :=
  match l[k]?, l[k+1]? with
  | some x, some y => test x y
  | _, _ => false

/-- The number of neighbouring pairs that pass the test. -/
def countPairs (test : α → α → Bool) : List α → Nat
  | x :: y :: rest => (if test x y then 1 else 0) + countPairs test (y :: rest)
  | _ => 0

@[simp] theorem exchange_nil (k : Nat) : exchange k ([] : List α) = [] := by
  cases k <;> rfl

@[simp] theorem exchange_succ (k : Nat) (x : α) (rest : List α) :
    exchange (k+1) (x :: rest) = x :: exchange k rest := by
  cases rest <;> rfl

theorem exchange_perm (k : Nat) (l : List α) : (exchange k l).Perm l := by
  induction k generalizing l with
  | zero =>
    match l with
    | [] => exact .refl _
    | [x] => exact .refl _
    | x :: y :: rest => exact .swap x y rest
  | succ k ih =>
    cases l with
    | nil => exact .refl _
    | cons x rest => rw [exchange_succ]; exact (ih rest).cons x

@[simp] theorem exchange_length (k : Nat) (l : List α) : (exchange k l).length = l.length :=
  (exchange_perm k l).length_eq

/-- An exchange beyond a prefix leaves the prefix. -/
theorem exchange_append_right {k : Nat} {front back : List α} (beyond : front.length ≤ k) :
    exchange k (front ++ back) = front ++ exchange (k - front.length) back := by
  induction front generalizing k with
  | nil => simp
  | cons x front ih =>
    obtain ⟨m,rfl⟩ : ∃ m, k = m+1 := ⟨k-1,by simp at beyond; omega⟩
    have beyond' : front.length ≤ m := by simpa using beyond
    simp [ih beyond']

/-- An exchange inside a prefix leaves the rest. -/
theorem exchange_append_left {k : Nat} {front back : List α} (inside : k+2 ≤ front.length) :
    exchange k (front ++ back) = exchange k front ++ back := by
  induction k generalizing front with
  | zero =>
    match front with
    | [] => simp at inside
    | [x] => simp at inside
    | x :: y :: rest => rfl
  | succ k ih =>
    cases front with
    | nil => simp at inside
    | cons x front =>
      have inside' : k+2 ≤ front.length := by simpa using inside
      simp [ih inside']

theorem exchange_left {k : Nat} {l : List α} (inside : k+1 < l.length) : (exchange k l)[k]? = l[k+1]? := by
  induction k generalizing l with
  | zero =>
    match l with
    | [] => simp at inside
    | [x] => simp at inside
    | x :: y :: rest => rfl
  | succ k ih =>
    cases l with
    | nil => simp at inside
    | cons x rest => simpa using ih (l := rest) (by simpa using inside)

theorem exchange_right {k : Nat} {l : List α} (inside : k+1 < l.length) : (exchange k l)[k+1]? = l[k]? := by
  induction k generalizing l with
  | zero =>
    match l with
    | [] => simp at inside
    | [x] => simp at inside
    | x :: y :: rest => rfl
  | succ k ih =>
    cases l with
    | nil => simp at inside
    | cons x rest => simpa using ih (l := rest) (by simpa using inside)

theorem exchange_other {k j : Nat} (l : List α) (left : j ≠ k) (right : j ≠ k+1) : (exchange k l)[j]? = l[j]? := by
  induction k generalizing j l with
  | zero =>
    match l, j with
    | [], _ => rfl
    | [x], _ => rfl
    | x :: y :: rest, 0 => exact absurd rfl left
    | x :: y :: rest, 1 => exact absurd rfl right
    | x :: y :: rest, j+2 => rfl
  | succ k ih =>
    match l, j with
    | [], _ => simp
    | x :: rest, 0 => simp
    | x :: rest, j+1 => simpa using ih (j := j) rest (by omega) (by omega)

theorem holdsAt_of_getElem {test : α → α → Bool} {k : Nat} {l : List α} {x y : α} (left : l[k]? = some x)
    (right : l[k+1]? = some y) : holdsAt test k l = test x y := by
  simp [holdsAt,left,right]

theorem holdsAt_append_right {test : α → α → Bool} {k : Nat} {front back : List α} (beyond : front.length ≤ k) :
    holdsAt test k (front ++ back) = holdsAt test (k - front.length) back := by
  have next : k + 1 - front.length = k - front.length + 1 := by omega
  simp only [holdsAt,List.getElem?_append_right beyond,List.getElem?_append_right (Nat.le_succ_of_le beyond),next]

/-- The pairs from position `p` on: the pair at `p` and those from `p+1` on. -/
theorem countPairs_drop (test : α → α → Bool) {p : Nat} {l : List α} {x y : α} (left : l[p]? = some x)
    (right : l[p+1]? = some y) :
    countPairs test (l.drop p) = (if test x y then 1 else 0) + countPairs test (l.drop (p+1)) := by
  obtain ⟨insideLeft,isLeft⟩ := List.getElem?_eq_some_iff.mp left
  obtain ⟨insideRight,isRight⟩ := List.getElem?_eq_some_iff.mp right
  rw [List.drop_eq_getElem_cons insideLeft,List.drop_eq_getElem_cons insideRight,isLeft,isRight,countPairs]

theorem countPairs_last (test : α → α → Bool) {p : Nat} {l : List α} (last : l.length = p+1) :
    countPairs test (l.drop p) = 0 := by
  have inside : p < l.length := by omega
  rw [List.drop_eq_getElem_cons inside,List.drop_eq_nil_iff.mpr (by omega),countPairs]
  intro x y rest same
  cases same

end Os5Sem.Adjacent

import Mathlib.Data.List.Basic

/-!
Operations on one list that are still to be completed, one after another: when
each of them touches only what lies beyond a position, the part of the list up
to that position can change under them without changing what they do.
-/
namespace Os5Sem.Serial
universe u v

variable {α : Type u} {R : Type v}

/-- Completes the operations in their order; the list they leave and their
    results. -/
def completeAll : List (List α → List α × R) → List α → List α × List R
  | [], l => (l,[])
  | rest :: later, l =>
    ((completeAll later (rest l).1).1,(rest l).2 :: (completeAll later (rest l).1).2)

/-- The operation reads and changes only what lies at or after position `p`, and
    keeps the length of the list. -/
def Beyond (p : Nat) (rest : List α → List α × R) : Prop :=
  ∃ act : List α → List α × R, (∀ back, (act back).1.length = back.length) ∧
    ∀ front back : List α, front.length = p → rest (front ++ back) = (front ++ (act back).1,(act back).2)

/-- The operation changes nothing before position `p` and keeps the length of the
    list. -/
def Keeps (p : Nat) (rest : List α → List α × R) : Prop :=
  ∀ front back : List α, front.length = p →
    ∃ back', back'.length = back.length ∧ (rest (front ++ back)).1 = front ++ back'

theorem Beyond.keeps {p : Nat} {rest : List α → List α × R} (beyond : Beyond p rest) : Keeps p rest := by
  obtain ⟨act,keeps,acts⟩ := beyond
  intro front back size
  exact ⟨(act back).1,keeps back,by rw [acts front back size]⟩

theorem completeAll_append (first second : List (List α → List α × R)) (l : List α) :
    completeAll (first ++ second) l =
      ((completeAll second (completeAll first l).1).1,
        (completeAll first l).2 ++ (completeAll second (completeAll first l).1).2) := by
  induction first generalizing l with
  | nil => rfl
  | cons rest later ih => simp only [List.cons_append,completeAll,ih]

theorem completeAll_keeps {p : Nat} {rests : List (List α → List α × R)} (keeps : ∀ rest ∈ rests, Keeps p rest) :
    Keeps p (completeAll rests) := by
  induction rests with
  | nil => intro front back _; exact ⟨back,rfl,rfl⟩
  | cons rest later ih =>
    intro front back size
    obtain ⟨mid,long,first⟩ := keeps rest List.mem_cons_self front back size
    obtain ⟨back',long',second⟩ := ih (fun r member => keeps r (List.mem_cons_of_mem _ member)) front mid size
    exact ⟨back',long'.trans long,by simp only [completeAll,first,second]⟩

theorem completeAll_beyond {p : Nat} {rests : List (List α → List α × R)}
    (beyond : ∀ rest ∈ rests, Beyond p rest) : Beyond p (completeAll rests) := by
  induction rests with
  | nil => exact ⟨fun back => (back,[]),fun _ => rfl,fun front back _ => rfl⟩
  | cons rest later ih =>
    obtain ⟨act,long,acts⟩ := beyond rest List.mem_cons_self
    obtain ⟨tail,long',tails⟩ := ih (fun r member => beyond r (List.mem_cons_of_mem _ member))
    refine ⟨fun back => ((tail (act back).1).1,(act back).2 :: (tail (act back).1).2),?_,?_⟩
    · intro back
      exact (long' _).trans (long back)
    · intro front back size
      simp only [completeAll,acts front back size,tails front (act back).1 size]

/-- An operation whose result does not depend on the list has this result. -/
theorem completeAll_result {rests : List (List α → List α × R)} {i : Nat} {rest : List α → List α × R} {r : R}
    (here : rests[i]? = some rest) (known : ∀ l, (rest l).2 = r) (l : List α) :
    (completeAll rests l).2[i]? = some r := by
  induction rests generalizing i l with
  | nil => cases here
  | cons first later ih =>
    cases i with
    | zero =>
      cases here
      simp [completeAll,known]
    | succ i => exact ih (i := i) here _

/-- Operations that leave the list leave it together. -/
theorem completeAll_still {rests : List (List α → List α × R)} {l : List α}
    (still : ∀ rest ∈ rests, (rest l).1 = l) : (completeAll rests l).1 = l := by
  induction rests with
  | nil => rfl
  | cons first later ih =>
    rw [completeAll,still first List.mem_cons_self]
    exact ih fun rest member => still rest (List.mem_cons_of_mem _ member)

/-- One operation is replaced by another, and the list changes with it: the
    completion stays when the earlier operations give the same results and the
    two operations then agree. -/
theorem completeAll_replace {pre post : List (List α → List α × R)} {rest rest' : List α → List α × R} {l l' : List α}
    (results : (completeAll pre l).2 = (completeAll pre l').2)
    (agree : rest (completeAll pre l).1 = rest' (completeAll pre l').1) :
    completeAll (pre ++ rest :: post) l = completeAll (pre ++ rest' :: post) l' := by
  simp only [completeAll_append,completeAll,results,agree]

/-- An operation advances without changing the list: it may use what the list
    holds before position `p` when the earlier operations keep that part. -/
theorem completeAll_advance {p : Nat} {pre post : List (List α → List α × R)} {rest rest' : List α → List α × R}
    {front back : List α} (size : front.length = p) (keeps : ∀ r ∈ pre, Keeps p r)
    (agree : ∀ back', back'.length = back.length → rest (front ++ back') = rest' (front ++ back')) :
    completeAll (pre ++ rest :: post) (front ++ back) = completeAll (pre ++ rest' :: post) (front ++ back) := by
  obtain ⟨back',long,kept⟩ := completeAll_keeps keeps front back size
  exact completeAll_replace rfl (by rw [kept]; exact agree back' long)

/-- An operation changes the list before position `p` when all earlier
    operations lie beyond it: they commute. -/
theorem completeAll_commute {p : Nat} {pre post : List (List α → List α × R)} {rest rest' : List α → List α × R}
    {front front' back : List α} (size : front.length = p) (size' : front'.length = p)
    (beyond : ∀ r ∈ pre, Beyond p r) (agree : ∀ back', rest (front ++ back') = rest' (front' ++ back')) :
    completeAll (pre ++ rest :: post) (front ++ back) = completeAll (pre ++ rest' :: post) (front' ++ back) := by
  obtain ⟨act,_,acts⟩ := completeAll_beyond beyond
  refine completeAll_replace ?_ ?_
  · rw [acts front back size,acts front' back size']
  · rw [acts front back size,acts front' back size']
    exact agree (act back).1

end Os5Sem.Serial

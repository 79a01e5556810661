import Mathlib.Data.List.Basic

/-!
The first occurrence of a list in another: where it is (`search_eq_some`), and
what becomes of the occurrences when the items that do not matter are renamed,
and when a block is put in or is replaced by one of the same length.
-/
namespace Os5Sem.Occurrences
universe u

variable {α : Type u}

/-! ### Prefixes -/

/-- The function maps no other item to one of these. -/
def Reflects (f : α → α) (items : List α) : Prop := ∀ c ∈ items, ∀ x, f x = c ↔ x = c

theorem prefix_map {f : α → α} {needle text : List α} (reflects : Reflects f needle) :
    needle <+: text.map f ↔ needle <+: text := by
  induction needle generalizing text with
  | nil => simp
  | cons c needle ih =>
    cases text with
    | nil => simp
    | cons x text =>
      rw [List.map_cons,List.cons_prefix_cons,List.cons_prefix_cons,ih fun d member =>
        reflects d (List.mem_cons_of_mem c member)]
      rw [eq_comm,reflects c List.mem_cons_self x,eq_comm]

/-- An occurrence does not reach over an item that it does not have. -/
theorem prefix_barrier {needle left right : List α} {y : α} (absent : y ∉ needle) :
    needle <+: left ++ y :: right ↔ needle <+: left := by
  induction needle generalizing left with
  | nil => simp
  | cons c needle ih =>
    cases left with
    | nil =>
      rw [List.nil_append,List.cons_prefix_cons]
      refine iff_of_false (fun both => absent ?_) (by simp)
      rw [← both.1]
      exact List.mem_cons_self
    | cons x left =>
      rw [List.cons_append,List.cons_prefix_cons,List.cons_prefix_cons,
        ih fun member => absent (List.mem_cons_of_mem c member)]

/-- What stands behind an item that does not occur in the list is no part of it. -/
theorem prefix_insert {needle before block after : List α} {b c : α} (start : b ∈ block.head?) (barrier : b ∉ needle)
    (next : c ∈ after.head?) (uncut : c ∉ needle) :
    needle <+: before ++ (block ++ after) ↔ needle <+: before ++ after := by
  obtain ⟨bs,rfl⟩ := List.head?_eq_some_iff.mp start
  obtain ⟨cs,rfl⟩ := List.head?_eq_some_iff.mp next
  exact (prefix_barrier barrier).trans (prefix_barrier uncut).symm

/-! ### A block that is overwritten -/

/-- The list with another block written over it. -/
def overwrite (text : List α) (p : Nat) (block : List α) : List α :=
  text.take p ++ block ++ text.drop (p + block.length)

theorem overwrite_length {text block : List α} {p : Nat} (fits : p + block.length ≤ text.length) :
    (overwrite text p block).length = text.length := by
  simp only [overwrite,List.length_append,List.length_take,List.length_drop]
  omega

theorem overwrite_getElem? {text block : List α} {p : Nat} (fits : p + block.length ≤ text.length) (i : Nat) :
    (overwrite text p block)[i]? = if p ≤ i ∧ i < p + block.length then block[i-p]? else text[i]? := by
  have length : (text.take p).length = p := by rw [List.length_take]; omega
  rw [overwrite,List.append_assoc]
  by_cases before : i < p
  · rw [List.getElem?_append_left (by omega),List.getElem?_take_of_lt before,if_neg (by omega)]
  · rw [List.getElem?_append_right (by omega),length]
    by_cases inside : i < p + block.length
    · rw [List.getElem?_append_left (by omega),if_pos ⟨by omega,inside⟩]
    · rw [List.getElem?_append_right (by omega),List.getElem?_drop,if_neg (by omega)]
      congr 1
      omega

theorem mem_overwrite {text block : List α} {p : Nat} {x : α} (member : x ∈ overwrite text p block) :
    x ∈ text ∨ x ∈ block := by
  rcases List.mem_append.mp member with front | behind
  · exact (List.mem_append.mp front).imp List.mem_of_mem_take id
  · exact .inl (List.mem_of_mem_drop behind)

theorem take_overwrite {text block : List α} {p : Nat} (inside : p ≤ text.length) :
    (overwrite text p block).take (p+block.length) = text.take p ++ block := by
  rw [overwrite,List.take_left']
  rw [List.length_append,List.length_take,Nat.min_eq_left inside]

theorem drop_overwrite {text block : List α} {p q : Nat} (inside : p ≤ text.length) (behind : p + block.length ≤ q) :
    (overwrite text p block).drop q = text.drop q := by
  have length : (text.take p ++ block).length = p + block.length := by
    rw [List.length_append,List.length_take,Nat.min_eq_left inside]
  obtain ⟨k,rfl⟩ := Nat.exists_eq_add_of_le behind
  rw [overwrite,← List.drop_drop,List.drop_left' length,List.drop_drop]

/-- To write what stands there changes nothing. -/
theorem overwrite_same {text block : List α} {q : Nat} (here : block <+: text.drop q) :
    overwrite text q block = text := by
  obtain ⟨behind,is⟩ := here
  have after : text.drop (q+block.length) = behind := by rw [← List.drop_drop,← is,List.drop_left]
  rw [overwrite,after,List.append_assoc,is,List.take_append_drop]

/-- Two blocks written next to each other are one. -/
theorem overwrite_before {text first second : List α} {p : Nat} (fits : p + first.length ≤ text.length) :
    overwrite (overwrite text (p+first.length) second) p first = overwrite text p (first ++ second) := by
  have length : (text.take (p+first.length)).length = p + first.length := by rw [List.length_take]; omega
  have front : (overwrite text (p+first.length) second).take p = text.take p := by
    rw [overwrite,List.append_assoc,List.take_append_of_le_length (by omega),List.take_take,Nat.min_eq_left (by omega)]
  have back : (overwrite text (p+first.length) second).drop (p+first.length) =
      second ++ text.drop (p+first.length+second.length) := by
    rw [overwrite,List.append_assoc,List.drop_left' length]
  rw [overwrite,front,back,overwrite,List.length_append]
  simp only [List.append_assoc,Nat.add_assoc]

/-- The occurrences after a block has been overwritten with items that do not
    occur in them are those that lie outside of it. -/
theorem occurs_overwrite {needle text block : List α} {p i : Nat} (fits : p + block.length ≤ text.length)
    (apart : ∀ x ∈ block, x ∉ needle) (some : needle ≠ []) (filled : block ≠ []) :
    needle <+: (overwrite text p block).drop i ↔
      needle <+: text.drop i ∧ (i + needle.length ≤ p ∨ p + block.length ≤ i) := by
  rw [List.prefix_iff_getElem?,List.prefix_iff_getElem?]
  simp only [List.getElem?_drop,overwrite_getElem? fits]
  constructor
  · intro occurs
    have outside : ∀ k, k < needle.length → ¬ (p ≤ i + k ∧ i + k < p + block.length) := by
      intro k inside within
      have here := occurs k inside
      rw [if_pos within] at here
      exact apart _ (List.mem_of_getElem? here) (List.getElem_mem inside)
    have apartFrom : i + needle.length ≤ p ∨ p + block.length ≤ i := by
      by_contra touches
      have nonempty := List.length_pos_iff.mpr some
      have wide := List.length_pos_iff.mpr filled
      by_cases before : i < p
      · exact outside (p-i) (by omega) ⟨by omega,by omega⟩
      · exact outside 0 nonempty ⟨by omega,by omega⟩
    refine ⟨fun k inside => ?_,apartFrom⟩
    rw [← occurs k inside,if_neg (outside k inside)]
  · rintro ⟨occurs,apartFrom⟩ k inside
    rw [if_neg (by omega)]
    exact occurs k inside

/-! ### Searching -/

variable [DecidableEq α]

/-- The position of the first occurrence. -/
def search (needle : List α) : List α → Option Nat
  | [] => if needle = [] then some 0 else none
  | x :: rest => if needle <+: x :: rest then some 0 else (search needle rest).map (· + 1)

theorem search_cons (needle : List α) (x : α) (rest : List α) :
    search needle (x :: rest) = if needle <+: x :: rest then some 0 else (search needle rest).map (· + 1) := rfl

theorem search_eq_some {needle text : List α} {i : Nat} :
    search needle text = some i ↔ i ≤ text.length ∧ needle <+: text.drop i ∧ ∀ j < i, ¬ needle <+: text.drop j := by
  induction text generalizing i with
  | nil =>
    by_cases empty : needle = []
    · simp only [search,empty,if_true,Option.some.injEq]
      constructor
      · rintro rfl; simp
      · rintro ⟨zero,_⟩; simpa [eq_comm] using zero
    · simp [search,empty]
  | cons x rest ih =>
    rw [search_cons]
    split
    · rename_i here
      rw [Option.some.injEq]
      constructor
      · rintro rfl; simpa using here
      · rintro ⟨_,_,first⟩
        by_contra other
        exact first 0 (by omega) here
    · rename_i notHere
      rw [Option.map_eq_some_iff]
      constructor
      · rintro ⟨j,found,rfl⟩
        obtain ⟨bound,occurs,first⟩ := ih.mp found
        refine ⟨by simpa using bound,by simpa using occurs,fun k before => ?_⟩
        cases k with
        | zero => simpa using notHere
        | succ k => simpa using first k (by omega)
      · rintro ⟨bound,occurs,first⟩
        cases i with
        | zero => exact absurd (by simpa using occurs) notHere
        | succ i =>
          refine ⟨i,ih.mpr ⟨by simpa using bound,by simpa using occurs,fun k before => ?_⟩,rfl⟩
          simpa using first (k+1) (by omega)

theorem search_eq_none {needle text : List α} : search needle text = none ↔ ∀ i, ¬ needle <+: text.drop i := by
  constructor
  · intro missing
    induction text with
    | nil =>
      intro i
      rw [List.drop_nil]
      intro occurs
      simp [search,List.prefix_nil.mp occurs] at missing
    | cons x rest ih =>
      rw [search_cons] at missing
      split at missing
      · cases missing
      · rename_i notHere
        intro i
        cases i with
        | zero => simpa using notHere
        | succ i => simpa using ih (Option.map_eq_none_iff.mp missing) i
  · intro missing
    by_contra found
    obtain ⟨i,is⟩ := Option.ne_none_iff_exists'.mp found
    exact missing i (search_eq_some.mp is).2.1

theorem search_bound {needle text : List α} {i : Nat} (found : search needle text = some i) :
    i + needle.length ≤ text.length := by
  obtain ⟨bound,occurs,_⟩ := search_eq_some.mp found
  have := occurs.length_le
  rw [List.length_drop] at this
  omega

theorem search_of_inside {needle text : List α} (inside : needle <:+: text) : ∃ i, search needle text = some i := by
  obtain ⟨before,behind,rfl⟩ := inside
  refine Option.ne_none_iff_exists'.mp fun missing => search_eq_none.mp missing before.length ?_
  rw [List.append_assoc,List.drop_left]
  exact List.prefix_append ..

/-- Where nothing occurs at the start, the search may begin behind it. -/
theorem search_drop {needle text : List α} {k : Nat} (inside : k ≤ text.length)
    (missing : ∀ j < k, ¬ needle <+: text.drop j) : search needle text = (search needle (text.drop k)).map (· + k) := by
  induction k generalizing text with
  | zero => simp
  | succ k ih =>
    cases text with
    | nil => simp at inside
    | cons x rest =>
      rw [search_cons,if_neg (by simpa using missing 0 (Nat.succ_pos k)),List.drop_succ_cons,
        ih (Nat.le_of_succ_le_succ inside) fun j before => by simpa using missing (j+1) (Nat.succ_lt_succ before),
        Option.map_map]
      rfl

/-- What stands behind does not matter to the first occurrence. -/
theorem search_append {needle front : List α} {k : Nat} (found : search needle front = some k) (back : List α) :
    search needle (front ++ back) = some k := by
  have inside := search_bound found
  obtain ⟨bound,occurs,first⟩ := search_eq_some.mp found
  refine search_eq_some.mpr ⟨by rw [List.length_append]; omega,?_,fun j before occurs' => first j before ?_⟩
  · rw [List.drop_append_of_le_length bound]
    exact occurs.trans (List.prefix_append ..)
  · rw [List.drop_append_of_le_length (by omega)] at occurs'
    exact List.prefix_of_prefix_length_le occurs' (List.prefix_append ..) (by rw [List.length_drop]; omega)

/-- A search for one item finds the first one. -/
theorem search_singleton {c : α} {text : List α} {i : Nat} :
    search [c] text = some i ↔ text[i]? = some c ∧ ∀ j < i, text[j]? ≠ some c := by
  have one : ∀ j, [c] <+: text.drop j ↔ text[j]? = some c := by
    intro j
    rw [List.prefix_iff_getElem?]
    simp
  rw [search_eq_some]
  simp only [one]
  constructor
  · intro found
    exact found.2
  · rintro ⟨here,first⟩
    exact ⟨Nat.le_of_lt (List.getElem?_eq_some_iff.mp here).1,here,first⟩

/-! ### Renamed items -/

theorem search_map {f : α → α} {needle : List α} (reflects : Reflects f needle) (text : List α) :
    search needle (text.map f) = search needle text := by
  induction text with
  | nil => rfl
  | cons x rest ih =>
    rw [List.map_cons,search_cons,search_cons,ih,← List.map_cons]
    simp only [prefix_map reflects]

/-! ### A block that is put in -/

theorem search_skip {needle block text : List α} {a : α} (first : a ∈ needle.head?) (absent : a ∉ block) :
    search needle (block ++ text) = (search needle text).map (· + block.length) := by
  induction block with
  | nil => simp
  | cons b block ih =>
    have notHere : ¬ needle <+: b :: (block ++ text) := by
      cases needle with
      | nil => cases first
      | cons c needle =>
        cases first
        rw [List.cons_prefix_cons]
        intro both
        exact absent (both.1 ▸ List.mem_cons_self)
    rw [List.cons_append,search_cons,if_neg notHere,ih fun member => absent (List.mem_cons_of_mem b member),
      Option.map_map]
    rfl

/-- What has no first item of the needle stands before its first occurrence. -/
theorem prefix_of_search {needle block text : List α} {a : α} {k : Nat} (first : a ∈ needle.head?) (absent : a ∉ block)
    (found : search needle (block ++ text) = some k) : block <+: (block ++ text).take k := by
  rw [search_skip first absent] at found
  obtain ⟨k,_,rfl⟩ := Option.map_eq_some_iff.mp found
  exact List.prefix_take_iff.mpr ⟨List.prefix_append ..,Nat.le_add_left ..⟩

/-- A block that no occurrence can touch moves the occurrences behind it, when it
    is put in where none is cut. -/
theorem search_insert {needle before block after : List α} {a b c : α} (first : a ∈ needle.head?) (absent : a ∉ block)
    (start : b ∈ block.head?) (barrier : b ∉ needle) (next : c ∈ after.head?) (uncut : c ∉ needle) :
    search needle (before ++ (block ++ after)) =
      (search needle (before ++ after)).map fun u => if u < before.length then u else u + block.length := by
  induction before with
  | nil =>
    rw [List.nil_append,List.nil_append,search_skip first absent]
    simp
  | cons x before ih =>
    have same : needle <+: x :: (before ++ (block ++ after)) ↔ needle <+: x :: (before ++ after) := by
      rw [← List.cons_append,← List.cons_append]
      exact prefix_insert start barrier next uncut
    rw [List.cons_append,List.cons_append,search_cons,search_cons,ih]
    simp only [same]
    split
    · simp
    · rw [Option.map_map,Option.map_map]
      congr 1
      funext u
      simp only [Function.comp_apply,List.length_cons]
      split <;> split <;> omega

end Os5Sem.Occurrences

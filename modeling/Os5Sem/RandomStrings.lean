import Os5Sem.ListStorage
import Os5Sem.CMemory

/-!
The strings that `generate_gandom_string` leaves in the value of a node. Its
comment promises up to as many characters as there is room for, but both of its
`sizeof` give the size of a pointer, so that it makes strings of at most 7
characters, from the first 7 of `charset` (`promised_iff`).
-/
namespace Os5Sem.RandomStrings
open Os5Sem.CMemory Os5Sem.Occurrences
open Os5Sem.ListStorage (sizeofPointer charset generateGandomString)

/-- The size of `value` in `struct _Node`. -/
def valueSize : Nat := 100

/-- `charset[k]` -/
def charsetAt (k : Nat) : Byte := (charset.getD k '0').toUInt8

/-- The loop of `generate_gandom_string`, from the index `i` on with `left` rounds
    to go; `rand used` is the next result of `rand`. There is no result when it
    writes outside of the array. -/
def storeCharacters (rand : Nat → Nat) (charset_size : Nat) : (left i used : Nat) → List Byte → Option (List Byte)
  | 0, _, _, buf => some buf
  | left+1, i, used, buf => do
    let buf ← memcpy buf i [charsetAt (rand used % charset_size)]
    storeCharacters rand charset_size left (i+1) (used+1) buf

/-- `generate_gandom_string` on the array `buf`. -/
def storeGandomString (rand : Nat → Nat) (used : Nat) (buf : List Byte) : Option (List Byte) := do
  let charset_size := sizeofPointer - 1
  let max_size := sizeofPointer - 1
  let str_len := rand used % max_size + 1
  let buf ← storeCharacters rand charset_size str_len 0 (used+1) buf
  memcpy buf str_len [0]

/-- The bytes of the string of the node. -/
def stored (rand : Nat → Nat) (used : Nat) : List Byte := (generateGandomString rand used).1.map Char.toUInt8

theorem stored_eq (rand : Nat → Nat) (used : Nat) :
    stored rand used = (List.range (rand used % 7 + 1)).map fun i => charsetAt (rand (used+1+i) % 7) := by
  rw [stored,generateGandomString,List.map_map]
  rfl

theorem stored_length (rand : Nat → Nat) (used : Nat) : (stored rand used).length = rand used % 7 + 1 := by
  simp [stored_eq]

theorem storeCharacters_eq {rand : Nat → Nat} {charset_size left i used : Nat} {buf : List Byte}
    (fits : i + left ≤ buf.length) : storeCharacters rand charset_size left i used buf =
      some (buf.take i ++ (List.range left).map (fun j => charsetAt (rand (used+j) % charset_size)) ++
        buf.drop (i+left)) := by
  induction left generalizing i used buf with
  | zero => simp [storeCharacters]
  | succ left ih =>
    have inside : i + [charsetAt (rand used % charset_size)].length ≤ buf.length := by
      rw [List.length_singleton]
      omega
    have front : (overwrite buf i [charsetAt (rand used % charset_size)]).take (i+1) =
        buf.take i ++ [charsetAt (rand used % charset_size)] :=
      @take_overwrite _ buf [charsetAt (rand used % charset_size)] i (Nat.le_of_succ_le inside)
    have behind : (overwrite buf i [charsetAt (rand used % charset_size)]).drop (i+1+left) = buf.drop (i+(left+1)) := by
      rw [drop_overwrite (by omega) (by rw [List.length_singleton]; omega),Nat.add_assoc,Nat.add_comm 1]
    rw [storeCharacters,memcpy,if_pos inside]
    show storeCharacters rand charset_size left (i+1) (used+1) _ = _
    rw [ih (by rw [overwrite_length inside]; omega),front,behind,List.range_succ_eq_map,List.map_cons,List.map_map]
    simp [Function.comp_def,Nat.add_assoc,Nat.add_comm 1]

/-- The string is stored at the start of the array, with a NUL behind it. -/
theorem storeGandomString_eq {rand : Nat → Nat} {used : Nat} {buf : List Byte} (size : buf.length = valueSize) :
    storeGandomString rand used buf =
      some (stored rand used ++ 0 :: buf.drop ((stored rand used).length+1)) := by
  have short : (stored rand used).length < buf.length := by
    rw [stored_length,size,valueSize]
    omega
  have characters : storeCharacters rand 7 (rand used % 7 + 1) 0 (used+1) buf =
      some (overwrite buf 0 (stored rand used)) := by
    rw [storeCharacters_eq (by rw [← stored_length]; omega),overwrite,stored_length,stored_eq]
  have string := memcpy_string short
  rw [memcpy,if_pos (by omega),Option.bind_some,stored_length] at string
  rw [stored_length]
  show (storeCharacters rand 7 (rand used % 7 + 1) 0 (used+1) buf).bind (fun buf =>
    memcpy buf (rand used % 7 + 1) [0]) = _
  rw [characters,Option.bind_some,string]

/-! ### Which strings there are -/

/-- The characters of `charset`. -/
def charsetBytes : List Byte := charset.map Char.toUInt8

/-- A string over the characters. -/
def Over (characters t : List Byte) : Prop := ∀ c ∈ t, c ∈ characters

instance (characters t : List Byte) : Decidable (Over characters t) := List.decidableBAll _ t

/-- What the comment promises: from 1 to as many characters as there is room for,
    from the charset. -/
def Promised (t : List Byte) : Prop := 1 ≤ t.length ∧ t.length < valueSize ∧ Over charsetBytes t

/-- At most 7 characters, from the first 7 of the charset. -/
def Short (t : List Byte) : Prop := t.length ≤ 7 ∧ Over (charsetBytes.take 7) t

instance (t : List Byte) : Decidable (Promised t) := inferInstanceAs (Decidable (_ ∧ _ ∧ _))
instance (t : List Byte) : Decidable (Short t) := inferInstanceAs (Decidable (_ ∧ _))

theorem charsetAt_mem {k : Nat} (below : k < 7) : charsetAt k ∈ charsetBytes.take 7 := by
  have each : ∀ k < 7, charsetAt k ∈ charsetBytes.take 7 := by decide
  exact each k below

theorem stored_short (rand : Nat → Nat) (used : Nat) : Short (stored rand used) := by
  refine ⟨?_,fun c member => ?_⟩
  · rw [stored_length]
    omega
  · rw [stored_eq] at member
    obtain ⟨i,_,rfl⟩ := List.mem_map.mp member
    exact charsetAt_mem (Nat.mod_lt _ (by decide))

theorem stored_promised (rand : Nat → Nat) (used : Nat) : Promised (stored rand used) := by
  obtain ⟨short,characters⟩ := stored_short rand used
  refine ⟨?_,?_,fun c member => List.mem_of_mem_take (characters c member)⟩
  · rw [stored_length]
    omega
  · rw [valueSize]
    omega

theorem charsetBytes_noNul : 0 ∉ charsetBytes := by decide

theorem cstring_stored (rand : Nat → Nat) (used : Nat) (rest : List Byte) :
    cstring (stored rand used ++ 0 :: rest) 0 = stored rand used :=
  cstring_text (fun zero => charsetBytes_noNul ((stored_promised rand used).2.2 0 zero)) (Nat.zero_le _)

/-- The results of `rand` for a string: its length, and then its characters. -/
def drawn (t : List Byte) : Nat → Nat
  | 0 => t.length-1
  | i+1 => charsetBytes.idxOf (t.getD i 48)

theorem charsetAt_idxOf {c : Byte} (member : c ∈ charsetBytes.take 7) :
    charsetBytes.idxOf c < 7 ∧ charsetAt (charsetBytes.idxOf c) = c := by
  have each : ((charsetBytes.take 7).all fun c =>
      charsetBytes.idxOf c < 7 ∧ charsetAt (charsetBytes.idxOf c) = c) = true := by decide
  exact of_decide_eq_true (List.all_eq_true.mp each c member)

theorem stored_drawn {t : List Byte} (filled : 1 ≤ t.length) (short : Short t) : stored (drawn t) 0 = t := by
  obtain ⟨atMost,characters⟩ := short
  have length : drawn t 0 % 7 + 1 = t.length := by
    rw [drawn]
    omega
  refine List.ext_getElem (by rw [stored_length,length]) fun i below inside => ?_
  have at_i : t.getD i 48 = t[i] := by simp [List.getD_eq_getElem?_getD,inside]
  obtain ⟨low,is⟩ := charsetAt_idxOf (characters t[i] (List.getElem_mem inside))
  simp only [stored_eq,List.getElem_map,List.getElem_range]
  rw [show 0+1+i = i+1 by omega,drawn,at_i,Nat.mod_eq_of_lt low,is]

/-- The strings that are left for some results of `rand`. -/
theorem made_iff {buf : List Byte} (size : buf.length = valueSize) (t : List Byte) :
    (∃ rand after, storeGandomString rand 0 buf = some after ∧ cstring after 0 = t) ↔ Promised t ∧ Short t := by
  constructor
  · rintro ⟨rand,after,done,rfl⟩
    cases (storeGandomString_eq size).symm.trans done
    rw [cstring_stored]
    exact ⟨stored_promised rand 0,stored_short rand 0⟩
  · rintro ⟨promised,short⟩
    exact ⟨drawn t,_,storeGandomString_eq size,by rw [cstring_stored,stored_drawn promised.1 short]⟩

/-- Whatever `rand` returns, a promised string is left in the array and nothing is
    written outside of it, and the string `t` is left for some results of `rand`
    exactly when it is promised. -/
def AsPromised (buf t : List Byte) : Prop :=
  (∀ rand used, ∃ after, storeGandomString rand used buf = some after ∧ after.length = buf.length ∧ 0 ∈ after ∧
      Promised (cstring after 0)) ∧
    ((∃ rand after, storeGandomString rand 0 buf = some after ∧ cstring after 0 = t) ↔ Promised t)

/-- The strings are as promised exactly for those of at most 7 characters, from the
    first 7 of the charset. -/
theorem promised_iff {buf : List Byte} (size : buf.length = valueSize) (t : List Byte) :
    AsPromised buf t ↔ (Promised t → Short t) := by
  have sound : ∀ rand used, ∃ after, storeGandomString rand used buf = some after ∧ after.length = buf.length ∧
      0 ∈ after ∧ Promised (cstring after 0) := by
    intro rand used
    have short := (stored_promised rand used).2.1
    refine ⟨_,storeGandomString_eq size,?_,by simp,?_⟩
    · rw [← size] at short
      simp only [List.length_append,List.length_cons,List.length_drop]
      omega
    · rw [cstring_stored]
      exact stored_promised rand used
  rw [AsPromised,made_iff size]
  exact (and_iff_right sound).trans and_iff_left_iff_imp

/-- A string of 8 characters, and one with a letter, are promised and never made. -/
theorem not_as_promised :
    (Promised (ascii "00000000") ∧ ¬ AsPromised (array valueSize) (ascii "00000000")) ∧
      Promised (ascii "a") ∧ ¬ AsPromised (array valueSize) (ascii "a") := by
  have made : ∀ {t}, Promised t → AsPromised (array valueSize) t → Short t := fun promised holds =>
    ((made_iff (array_length _) _).mp (holds.2.mpr promised)).2
  exact ⟨⟨by decide,fun holds => absurd (made (by decide) holds) (by decide)⟩,by decide,
    fun holds => absurd (made (by decide) holds) (by decide)⟩

theorem promised_iff_digits : AsPromised (array valueSize) (ascii "0123456") :=
  (promised_iff (array_length _) _).mpr fun _ => by decide

end Os5Sem.RandomStrings

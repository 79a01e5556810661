import Os5Sem.Occurrences
import Mathlib.Algebra.Order.Ring.Int
import Mathlib.Data.List.TakeWhile

/-!
Arrays of bytes and the C functions on them. An array is a list, a pointer into
it a position, and a write that would leave it has no result. The functions on
strings see the bytes from a position up to the first NUL (`cstring`). For an
array that holds a text and its NUL, `text ++ 0 :: rest`, they are functions of
the text.
-/
namespace Os5Sem.CMemory
open Os5Sem.Occurrences

abbrev Byte := UInt8

/-- The bytes of a string literal, without its NUL. -/
def ascii (s : String) : List Byte := s.toList.map Char.toUInt8

/-- A local array. What it holds before it is written is never read. -/
def array (size : Nat) : List Byte := List.replicate size 0

@[simp] theorem array_length (size : Nat) : (array size).length = size := List.length_replicate

/-- `n` bytes from a position on. -/
def slice (memory : List Byte) (p n : Nat) : List Byte := (memory.drop p).take n

/-- The string at a position. -/
def cstring (memory : List Byte) (p : Nat) : List Byte := (memory.drop p).takeWhile (· ≠ 0)

def strlen (memory : List Byte) (p : Nat) : Nat := (cstring memory p).length

def strstr (memory : List Byte) (p : Nat) (needle : List Byte) : Option Nat :=
  (search needle (cstring memory p)).map (p + ·)

def strchr (memory : List Byte) (p : Nat) (c : Byte) : Option Nat := strstr memory p [c]

def memcpy (memory : List Byte) (p : Nat) (bytes : List Byte) : Option (List Byte) :=
  if p + bytes.length ≤ memory.length then some (overwrite memory p bytes) else none

def memmove (memory : List Byte) (dest src n : Nat) : Option (List Byte) :=
  if src + n ≤ memory.length then memcpy memory dest (slice memory src n) else none

/-- The difference at the first place where two strings differ, 0 when they do not. -/
def difference : List Byte → List Byte → Int
  | [], [] => 0
  | a :: _, [] => a.toNat
  | [], b :: _ => -b.toNat
  | a :: s, b :: t => if a = b then difference s t else a.toNat - b.toNat

def strncmp (s t : List Byte) (n : Nat) : Int := difference (s.take n) (t.take n)

def toLower (c : Byte) : Byte := if 65 ≤ c ∧ c ≤ 90 then c + 32 else c

def strcasecmp (s t : List Byte) : Int := difference (s.map toLower) (t.map toLower)

def isSpace (c : Byte) : Bool := c = 32 ∨ 9 ≤ c ∧ c ≤ 13
def isDigit (c : Byte) : Bool := 48 ≤ c ∧ c ≤ 57

/-- The conversion `%<width>s` of `sscanf`: what it stores, and the text behind it. -/
def scanString (width : Nat) (text : List Byte) : Option (List Byte × List Byte) :=
  let text := text.dropWhile isSpace
  let token := (text.takeWhile fun c => !isSpace c).take width
  if token = [] then none else some (token,text.drop token.length)

/-- The value of the decimal digits at the start of the text. -/
def decimal (text : List Byte) : Nat := (text.takeWhile isDigit).foldl (fun value c => 10*value + (c.toNat-48)) 0

/-- `atoi`, the value of `strtol` cut to 32 bits. -/
def atoi (text : List Byte) : Int :=
  let value : Int := match text.dropWhile isSpace with
    | 45 :: digits => -decimal digits
    | 43 :: digits => decimal digits
    | digits => decimal digits
  Int.bmod (max (-2^63) (min (2^63-1) value)) (2^32)

example : atoi (ascii " 8080x") = 8080 := by decide

theorem difference_eq_zero {s t : List Byte} (noNul : 0 ∉ s) (noNul' : 0 ∉ t) : difference s t = 0 ↔ s = t := by
  have positive : ∀ c : Byte, c ≠ 0 → c.toNat ≠ 0 := fun c some none => some (UInt8.toNat_inj.mp none)
  induction s generalizing t with
  | nil =>
    cases t with
    | nil => simp [difference]
    | cons b t =>
      have := positive b fun zero => noNul' (zero ▸ List.mem_cons_self)
      simp [difference,this]
  | cons a s ih =>
    cases t with
    | nil =>
      have := positive a fun zero => noNul (zero ▸ List.mem_cons_self)
      simp [difference,this]
    | cons b t =>
      rw [difference]
      split
      · rename_i same
        have tails : difference s t = 0 ↔ s = t :=
          ih (fun member => noNul (List.mem_cons_of_mem a member)) fun member => noNul' (List.mem_cons_of_mem b member)
        simp [same,tails]
      · rename_i differ
        have : a.toNat ≠ b.toNat := fun same => differ (UInt8.toNat_inj.mp same)
        simp only [List.cons.injEq,differ,false_and,iff_false]
        omega

theorem toLower_eq_zero (c : Byte) : toLower c = 0 ↔ c = 0 := by
  unfold toLower
  split <;> grind

theorem strcasecmp_eq_zero {s t : List Byte} (noNul : 0 ∉ s) (noNul' : 0 ∉ t) :
    strcasecmp s t = 0 ↔ s.map toLower = t.map toLower := by
  have lower : ∀ {u : List Byte}, 0 ∉ u → 0 ∉ u.map toLower := by
    intro u absent member
    obtain ⟨c,inside,zero⟩ := List.mem_map.mp member
    exact absent ((toLower_eq_zero c).mp zero ▸ inside)
  exact difference_eq_zero (lower noNul) (lower noNul')

theorem strncmp_eq_zero {s t : List Byte} {n : Nat} (noNul : 0 ∉ s) (noNul' : 0 ∉ t) :
    strncmp s t n = 0 ↔ s.take n = t.take n :=
  difference_eq_zero (fun member => noNul (List.mem_of_mem_take member)) fun member =>
    noNul' (List.mem_of_mem_take member)

/-- A comparison of all bytes. -/
theorem eq_of_strncmp {s t : List Byte} {n : Nat} (noNul : 0 ∉ s) (noNul' : 0 ∉ t) (whole : s.length = n)
    (whole' : t.length = n) (same : strncmp s t n = 0) : s = t := by
  have start := (strncmp_eq_zero noNul noNul').mp same
  rwa [List.take_of_length_le (Nat.le_of_eq whole),List.take_of_length_le (Nat.le_of_eq whole')] at start

/-- What a conversion stores and what it leaves are parts of the text. -/
theorem scanString_split {width : Nat} {text token rest : List Byte}
    (scanned : scanString width text = some (token,rest)) :
    text = text.takeWhile isSpace ++ token ++ rest := by
  unfold scanString at scanned
  simp only at scanned
  split at scanned
  · cases scanned
  · cases scanned
    have first : ((text.dropWhile isSpace).takeWhile fun c => !isSpace c).take width <+: text.dropWhile isSpace :=
      (List.take_prefix _ _).trans (List.takeWhile_prefix _)
    rw [List.append_assoc,List.prefix_iff_eq_append.mp first,List.takeWhile_append_dropWhile]

/-- What a conversion stores, with the text behind it: no white space, up to white
    space or as much as it has room for. -/
structure Token (width : Nat) (token rest : List Byte) : Prop where
  filled : token ≠ []
  solid : ∀ c ∈ token, isSpace c = false
  short : token.length ≤ width
  ends : token.length = width ∨ ∀ c ∈ rest.head?, isSpace c = true

/-- A conversion skips white space and stores what stands behind it. -/
theorem scanString_eq_some {width : Nat} {text token rest : List Byte} :
    scanString width text = some (token,rest) ↔ ∃ spaces, text = spaces ++ (token ++ rest) ∧
      (∀ c ∈ spaces, isSpace c = true) ∧ Token width token rest := by
  constructor
  · intro scanned
    have split := scanString_split scanned
    refine ⟨text.takeWhile isSpace,by rw [← List.append_assoc]; exact split,fun c => List.mem_takeWhile_imp,?_⟩
    unfold scanString at scanned
    simp only at scanned
    split at scanned
    · cases scanned
    rename_i some
    cases scanned
    constructor
    case filled => exact some
    case solid =>
      intro c member
      simpa using List.mem_takeWhile_imp (List.mem_of_mem_take member)
    case short => exact List.length_take_le ..
    case ends =>
      by_cases long : width ≤ ((text.dropWhile isSpace).takeWhile fun c => !isSpace c).length
      · exact .inl (by rw [List.length_take]; omega)
      · refine .inr fun c next => ?_
        have whole : ((text.dropWhile isSpace).takeWhile fun c => !isSpace c).take width =
            (text.dropWhile isSpace).takeWhile fun c => !isSpace c := List.take_of_length_le (by omega)
        have behind := (congrArg (List.drop ((text.dropWhile isSpace).takeWhile fun c => !isSpace c).length)
          (List.takeWhile_append_dropWhile (p := fun c => !isSpace c) (l := text.dropWhile isSpace)).symm).trans
            List.drop_left
        rw [whole,behind] at next
        have stops := List.head?_dropWhile_not (fun c => !isSpace c) (text.dropWhile isSpace)
        rw [Option.mem_def.mp next] at stops
        simpa using stops
  · rintro ⟨spaces,rfl,all,⟨some,none,short,ends⟩⟩
    obtain ⟨c,token,rfl⟩ := List.exists_cons_of_ne_nil some
    have skipped : (spaces ++ (c :: token ++ rest)).dropWhile isSpace = c :: token ++ rest := by
      rw [List.dropWhile_append_of_pos all,List.cons_append,List.dropWhile_cons_of_neg]
      simp [none c List.mem_cons_self]
    have taken : ((c :: token ++ rest).takeWhile fun c => !isSpace c).take width = c :: token := by
      rw [List.takeWhile_append_of_pos fun d member => by simp [none d member]]
      rcases ends with full | stops
      · exact List.take_left' full
      · have nothing : (rest.takeWhile fun c => !isSpace c) = [] := by
          cases rest with
          | nil => rfl
          | cons d rest => rw [List.takeWhile_cons_of_neg]; simp [stops d rfl]
        rw [nothing,List.append_nil]
        exact List.take_of_length_le short
    rw [scanString,skipped,taken,if_neg nofun,List.drop_left]

/-! ### A text and its NUL -/

variable {text rest : List Byte}

theorem cstring_text (noNul : 0 ∉ text) {p : Nat} (inside : p ≤ text.length) :
    cstring (text ++ 0 :: rest) p = text.drop p := by
  have clean : ∀ x ∈ text.drop p, decide (x ≠ 0) = true := by
    intro x member
    rw [decide_eq_true_iff]
    intro zero
    exact noNul (zero ▸ List.mem_of_mem_drop member)
  rw [cstring,List.drop_append_of_le_length inside,List.takeWhile_append_of_pos clean]
  simp

theorem strlen_text (noNul : 0 ∉ text) {p : Nat} (inside : p ≤ text.length) :
    strlen (text ++ 0 :: rest) p = text.length - p := by
  rw [strlen,cstring_text noNul inside,List.length_drop]

theorem strstr_text (noNul : 0 ∉ text) {p : Nat} (inside : p ≤ text.length) (needle : List Byte) :
    strstr (text ++ 0 :: rest) p needle = (search needle (text.drop p)).map (p + ·) := by
  rw [strstr,cstring_text noNul inside]

/-- A write inside the text. -/
theorem memcpy_text {p : Nat} {bytes : List Byte} (fits : p + bytes.length ≤ text.length) :
    memcpy (text ++ 0 :: rest) p bytes = some (overwrite text p bytes ++ 0 :: rest) := by
  rw [memcpy,if_pos (by rw [List.length_append]; omega)]
  simp only [overwrite,List.take_append_of_le_length (by omega : p ≤ text.length),
    List.drop_append_of_le_length fits,List.append_assoc]

theorem slice_length {p n : Nat} (inside : p + n ≤ text.length) : (slice text p n).length = n := by
  rw [slice,List.length_take,List.length_drop]
  omega

theorem slice_text {p n : Nat} (inside : p + n ≤ text.length) : slice (text ++ 0 :: rest) p n = slice text p n := by
  rw [slice,slice,List.drop_append_of_le_length (by omega),List.take_append_of_le_length]
  rw [List.length_drop]
  omega

/-- A string that is copied into an array, and then its NUL. -/
theorem memcpy_string {memory bytes : List Byte} (fits : bytes.length < memory.length) :
    (memcpy memory 0 bytes).bind (fun memory => memcpy memory bytes.length [0]) =
      some (bytes ++ 0 :: memory.drop (bytes.length+1)) := by
  rw [memcpy,if_pos (by omega),Option.bind_some,memcpy,if_pos (by rw [overwrite_length (by omega)]; exact fits)]
  simp [overwrite]

/-- A string that is copied into an array of zeros, whose last byte is then set to 0. -/
theorem memcpy_array {bytes : List Byte} {size : Nat} (fits : bytes.length < size) :
    (memcpy (array size) 0 bytes).bind (fun memory => memcpy memory (size-1) [0]) =
      some (bytes ++ 0 :: (array size).drop (bytes.length+1)) := by
  have inside : bytes.length < (array size).length := by rwa [array_length]
  have padded : overwrite (array size) 0 bytes = bytes ++ 0 :: (array size).drop (bytes.length+1) := by
    rw [overwrite,Nat.zero_add,List.drop_eq_getElem_cons inside]
    simp [array]
  have last : (overwrite (array size) 0 bytes).drop (size-1) = [0] := by
    rw [drop_overwrite (Nat.zero_le _) (by omega),array,List.drop_replicate,show size-(size-1) = 1 by omega]
    rfl
  have room : size-1 + [(0 : Byte)].length ≤ (overwrite (array size) 0 bytes).length := by
    rw [overwrite_length (by omega),array_length,List.length_singleton]
    omega
  rw [memcpy,if_pos (by omega),Option.bind_some,memcpy,if_pos room,overwrite_same (last ▸ List.prefix_rfl),padded]

theorem slice_end {p : Nat} (inside : p ≤ text.length) :
    slice (text ++ 0 :: rest) p (text.length-p+1) = text.drop p ++ [0] := by
  rw [slice,List.drop_append_of_le_length inside,← List.length_drop,List.take_length_add_append]
  rfl

/-- The end of the text is moved towards its start, over what stood between. Behind the
    NUL there are bytes of the text then, and what has been there before. -/
theorem memmove_remove {dest src : Nat} (before : dest ≤ src) (inside : src ≤ text.length) :
    ∃ left, left.length = src-dest ∧ ∀ rest, memmove (text ++ 0 :: rest) dest src (text.length-src+1) =
      some (text.take dest ++ text.drop src ++ 0 :: (left ++ rest)) := by
  have length : (text.drop src ++ [0]).length = text.length-src+1 := by
    rw [List.length_append,List.length_drop,List.length_singleton]
  refine ⟨(text ++ [0]).drop (dest + (text.length-src+1)),?_,fun rest => ?_⟩
  · rw [List.length_drop,List.length_append,List.length_singleton]
    omega
  · have behind : (text ++ 0 :: rest).drop (dest + (text.length-src+1)) =
        (text ++ [0]).drop (dest + (text.length-src+1)) ++ rest := by
      rw [List.append_cons,List.drop_append_of_le_length]
      rw [List.length_append,List.length_singleton]
      omega
    rw [memmove,if_pos (by simp only [List.length_append,List.length_cons]; omega),slice_end inside,memcpy,length,
      if_pos (by simp only [List.length_append,List.length_cons]; omega),overwrite,length,behind,
      List.take_append_of_le_length (by omega)]
    simp

/-- A block is put into the text: what is behind it is moved to make room. -/
theorem memmove_insert (rest : List Byte) {p : Nat} (block : List Byte) (inside : p ≤ text.length) :
    (memmove (text ++ 0 :: rest) (p+block.length) p (text.length-p+1)).bind (fun memory => memcpy memory p block) =
      if block.length ≤ rest.length then
        some (text.take p ++ block ++ text.drop p ++ 0 :: rest.drop block.length) else none := by
  have length : (text.drop p ++ [0]).length = text.length-p+1 := by
    rw [List.length_append,List.length_drop,List.length_singleton]
  rw [memmove,if_pos (by simp only [List.length_append,List.length_cons]; omega),slice_end inside,memcpy,length]
  by_cases room : block.length ≤ rest.length
  · have fits : p + block.length + (text.length-p+1) ≤ (text ++ 0 :: rest).length := by
      simp only [List.length_append,List.length_cons]; omega
    rw [if_pos room,if_pos fits,Option.bind_some,memcpy,if_pos]
    · have behind : (text ++ 0 :: rest).drop (p + (block ++ (text.drop p ++ [0])).length) = rest.drop block.length := by
        rw [List.length_append,length,show p + (block.length + (text.length-p+1)) = text.length +
          (block.length+1) by omega,
          List.drop_length_add_append,List.drop_succ_cons]
      rw [overwrite_before (by omega),overwrite,behind,List.take_append_of_le_length inside]
      simp
    · rw [overwrite_length (by rw [length]; exact fits)]
      omega
  · rw [if_neg room,if_neg,Option.bind_none]
    simp only [List.length_append,List.length_cons]
    omega

end Os5Sem.CMemory

import Os5Sem.Handler
import Mathlib.Data.List.TakeWhile

/-!
What the parsers of the handler do to the text of a request. The header section
is read as a list of header lines (`scanLines`), as the loop of `parse_headers`
does (`scanHeaders_text`).
-/
namespace Os5Sem.RequestText
open Os5Sem.Occurrences Os5Sem.CMemory Os5Sem.Handler

/-- A line of the header section, without its CRLF: the name, the spaces behind
    the colon and the value. -/
structure HeaderLine where
  name : List Byte
  spaces : Nat
  value : List Byte
deriving DecidableEq

namespace HeaderLine

/-- Where the value starts in the line. -/
def valueStart (line : HeaderLine) : Nat := line.name.length + 1 + line.spaces

/-- The length of the line with its CRLF. -/
def length (line : HeaderLine) : Nat := line.valueStart + line.value.length + 2

def Named (line : HeaderLine) (name : String) : Prop := strcasecmp line.name (ascii name) = 0

instance (line : HeaderLine) (name : String) : Decidable (line.Named name) := inferInstanceAs (Decidable (_ = _))

end HeaderLine

/-- The number of spaces at the start of the text. -/
def leadingSpaces (text : List Byte) : Nat := (text.takeWhile (· = 32)).length

/-- The first header line of the text, when `parse_headers` takes it for one. -/
def headerLine (text : List Byte) : Option HeaderLine :=
  match search [58] text with
  | none => none
  | some colon =>
    if colon = 0 ∨ hNameSize ≤ colon then none
    else
      let spaces := leadingSpaces (text.drop (colon+1))
      let start := colon + 1 + spaces
      match search crlf (text.drop start) with
      | none => none
      | some length => if length = 0 ∨ hValSize ≤ length then none else some ⟨text.take colon,spaces,
        slice text start length⟩

/-- The header lines up to the empty line. -/
def scanLines : Nat → List Byte → Option (List HeaderLine)
  | 0, _ => none
  | fuel+1, text =>
    if crlf <+: text then some []
    else do
      let line ← headerLine text
      let lines ← scanLines fuel (text.drop line.length)
      return line :: lines

/-- The last `Connection` header of the lines, of which the first is at `headers`,
    and where it is. -/
def lastConnection : Nat → List HeaderLine → Option (Nat × HeaderLine)
  | _, [] => none
  | headers, line :: lines =>
    (lastConnection (headers+line.length) lines).or (if line.Named "connection" then some (headers,line) else none)

/-- The array `host` after the lines. -/
def hostAfter (host : List Byte) : List HeaderLine → List Byte
  | [] => host
  | line :: lines =>
    if line.Named "host" then hostAfter (line.value ++ 0 :: host.drop (line.value.length+1)) lines
    else hostAfter host lines

variable {text rest : List Byte}

/-- The text starts with a header line: where its colon and its end are, and its
    parts. -/
structure StartsWith (text : List Byte) (line : HeaderLine) : Prop where
  colon : search [58] text = some line.name.length
  name : line.name = text.take line.name.length
  named : line.name.length ≠ 0
  short : line.name.length < hNameSize
  spaces : leadingSpaces (text.drop (line.name.length+1)) = line.spaces
  ending : search crlf (text.drop line.valueStart) = some line.value.length
  value : line.value = slice text line.valueStart line.value.length
  filled : line.value.length ≠ 0
  fits : line.value.length < hValSize

theorem startsWith_of_headerLine {line : HeaderLine} (is : headerLine text = some line) : StartsWith text line := by
  unfold headerLine at is
  split at is
  · cases is
  · rename_i colon foundColon
    split at is
    · cases is
    · rename_i sizes
      simp only at is
      split at is
      · cases is
      · rename_i length foundEnd
        split at is
        · cases is
        · rename_i lengths
          have colonIn := search_bound foundColon
          have endIn := search_bound foundEnd
          rw [List.length_drop] at endIn
          have nameLength : (text.take colon).length = colon := by rw [List.length_take]; omega
          have valueLength : (slice text (colon + 1 + leadingSpaces (text.drop (colon+1))) length).length = length := by
            rw [slice,List.length_take,List.length_drop]; omega
          cases is
          constructor <;> simp only [HeaderLine.valueStart,nameLength,valueLength]
          · exact foundColon
          · omega
          · omega
          · exact foundEnd
          · omega
          · omega

/-! ### The loop of `parse_headers` -/

theorem leadingSpaces_append {c : Byte} (other : c ≠ 32) (behind : List Byte) :
    leadingSpaces (text ++ c :: behind) = leadingSpaces text := by
  rw [leadingSpaces,leadingSpaces,List.takeWhile_append]
  split
  · rename_i all
    rw [(List.takeWhile_prefix _).eq_of_length all]
    simp [other]
  · rfl

theorem skipSpaces_text {p : Nat} (inside : p ≤ text.length) :
    skipSpaces (text ++ 0 :: rest) p = p + leadingSpaces (text.drop p) := by
  have spaces := @leadingSpaces_append (text.drop p) 0 (by decide) rest
  rw [leadingSpaces] at spaces
  rw [skipSpaces,List.drop_append_of_le_length inside,spaces]

theorem crlf_text {p : Nat} (inside : p ≤ text.length) :
    (text ++ 0 :: rest)[p]? = some 13 ∧ (text ++ 0 :: rest)[p+1]? = some 10 ↔ crlf <+: text.drop p := by
  have drop : (text ++ 0 :: rest).drop p = text.drop p ++ 0 :: rest := List.drop_append_of_le_length inside
  have here : (text ++ 0 :: rest)[p]? = some 13 ∧ (text ++ 0 :: rest)[p+1]? = some 10 ↔
      crlf <+: (text ++ 0 :: rest).drop p := by
    have bytes : crlf = [13,10] := by decide
    rw [bytes,List.prefix_iff_getElem?]
    simp only [List.getElem?_drop]
    constructor
    · rintro ⟨one,two⟩ i bound
      match i with
      | 0 => exact one
      | 1 => exact two
    · intro both
      exact ⟨both 0 (by simp),both 1 (by simp)⟩
  rw [here,drop]
  exact prefix_barrier (by decide)

/-- A part of the text is copied to an array, and then its NUL. -/
theorem copy_text (rest : List Byte) {a : List Byte} {p n : Nat} (inside : p + n ≤ text.length) (short : n < a.length) :
    ∃ copied, memcpy a 0 (slice (text ++ 0 :: rest) p n) = some copied ∧
      memcpy copied n [0] = some (slice text p n ++ 0 :: a.drop (n+1)) := by
  have length : (slice text p n).length = n := slice_length inside
  have fits : (slice text p n).length < a.length := by rw [length]; exact short
  have copied := memcpy_string fits
  rw [length] at copied
  rw [slice_text inside]
  exact Option.bind_eq_some_iff.mp copied

/-- One header: the loop goes on behind the line, or refuses. -/
theorem scanHeaders_step (noNul : 0 ∉ text) (rest : List Byte) (fuel : Nat) {headers : Nat} (c : Option Nat)
    {host : List Byte} (inside : headers ≤ text.length) (size : host.length = hValSize)
    (more : ¬ crlf <+: text.drop headers) :
    (∃ line, headerLine (text.drop headers) = some line ∧
      scanHeaders (text ++ 0 :: rest) (fuel+1) headers c host =
        scanHeaders (text ++ 0 :: rest) fuel (headers+line.length)
          (if line.Named "connection" then some headers else c)
          (if line.Named "host" then line.value ++ 0 :: host.drop (line.value.length+1) else host)) ∨
    headerLine (text.drop headers) = none ∧
      ∃ message, scanHeaders (text ++ 0 :: rest) (fuel+1) headers c host = some (.error message) := by
  rw [scanHeaders,if_neg (fun here => more ((crlf_text inside).mp here)),strchr,strstr_text noNul inside,headerLine]
  cases foundColon : search [58] (text.drop headers) with
  | none => exact .inr ⟨rfl,_,rfl⟩
  | some colon =>
    have colonIn := search_bound foundColon
    rw [List.length_drop,List.length_singleton] at colonIn
    have behind : headers+colon+1 ≤ text.length := by omega
    simp only [Option.map_some,Nat.add_sub_cancel_left]
    by_cases sizes : colon = 0 ∨ hNameSize ≤ colon
    · rw [if_pos sizes,if_pos sizes]
      exact .inr ⟨rfl,_,rfl⟩
    · rw [if_neg sizes,if_neg sizes]
      have nameIn : headers + colon ≤ text.length := by omega
      have nameFits : colon < (array hNameSize).length := by rw [array_length]; omega
      obtain ⟨one,copied,ended⟩ := copy_text rest nameIn nameFits
      have header_name :
          cstring (slice text headers colon ++ 0 :: (array hNameSize).drop (colon+1)) 0 = slice text headers colon :=
        cstring_text (fun member => noNul (List.mem_of_mem_drop (List.mem_of_mem_take member))) (Nat.zero_le _)
      have drops : (text.drop headers).drop (colon+1) = text.drop (headers+colon+1) := by rw [List.drop_drop]; congr 1
      have spacesIn : leadingSpaces (text.drop (headers+colon+1)) ≤ text.length - (headers+colon+1) := by
        have := (List.takeWhile_prefix (· = 32) (l := text.drop (headers+colon+1))).length_le
        rwa [List.length_drop] at this
      simp only [copied,ended,Option.bind_eq_bind,Option.bind_some,header_name,drops,skipSpaces_text behind]
      generalize leadingSpaces (text.drop (headers+colon+1)) = spaces at spacesIn ⊢
      have drops : (text.drop headers).drop (colon+1+spaces) = text.drop (headers+colon+1+spaces) := by
        rw [List.drop_drop]; congr 1; omega
      rw [strstr_text noNul (by omega),drops]
      cases foundEnd : search crlf (text.drop (headers+colon+1+spaces)) with
      | none => exact .inr ⟨rfl,_,rfl⟩
      | some length =>
        have endIn := search_bound foundEnd
        rw [List.length_drop] at endIn
        simp only [Option.map_some,Nat.add_sub_cancel_left]
        by_cases lengths : length = 0 ∨ hValSize ≤ length
        · rw [if_pos lengths,if_pos lengths]
          exact .inr ⟨rfl,_,rfl⟩
        · rw [if_neg lengths,if_neg lengths]
          have valueIn : headers + colon + 1 + spaces + length ≤ text.length := by omega
          have value :
              slice (text.drop headers) (colon+1+spaces) length = slice text (headers+colon+1+spaces) length := by
            rw [slice,slice,drops]
          have valueLength : (slice text (headers+colon+1+spaces) length).length = length := slice_length valueIn
          have lineLength : (⟨slice text headers colon,spaces,slice text (headers+colon+1+spaces) length⟩ :
            HeaderLine).length =
              colon + 1 + spaces + length + 2 := by
            simp only [HeaderLine.length,HeaderLine.valueStart,slice_length nameIn,valueLength]
          obtain ⟨host',copied,ended⟩ := copy_text rest valueIn (by omega : length < host.length)
          refine .inl ⟨_,rfl,?_⟩
          rw [show (text.drop headers).take colon = slice text headers colon from rfl,value,lineLength]
          simp only [HeaderLine.Named,valueLength]
          split
          · simp only [copied,ended,Option.bind_some]
            congr 1
            omega
          · congr 1
            omega

theorem StartsWith.length_le {line : HeaderLine} (starts : StartsWith text line) : line.length ≤ text.length := by
  have colonIn := search_bound starts.colon
  have endIn := search_bound starts.ending
  have two : crlf.length = 2 := by decide
  rw [List.length_drop,two] at endIn
  simp only [HeaderLine.length]
  omega

theorem hostAfter_length {host : List Byte} {line : HeaderLine} (size : host.length = hValSize)
    (fits : line.value.length < hValSize) :
    (if line.Named "host" then line.value ++ 0 :: host.drop (line.value.length+1) else host).length = hValSize := by
  split
  · rw [List.length_append,List.length_cons,List.length_drop]
    omega
  · exact size

/-- The loop reads the header lines of the text, or refuses. -/
theorem scanHeaders_text (noNul : 0 ∉ text) (rest : List Byte) {fuel headers : Nat} (c : Option Nat) {host : List Byte}
    (inside : headers ≤ text.length) (enough : text.length - headers < fuel) (size : host.length = hValSize) :
    (∃ lines, scanLines fuel (text.drop headers) = some lines ∧
      scanHeaders (text ++ 0 :: rest) fuel headers c host =
        some (.ok (((lastConnection headers lines).map Prod.fst).or c,hostAfter host lines))) ∨
    scanLines fuel (text.drop headers) = none ∧
      ∃ message, scanHeaders (text ++ 0 :: rest) fuel headers c host = some (.error message) := by
  induction fuel generalizing headers c host with
  | zero => omega
  | succ fuel ih =>
    rw [scanLines]
    by_cases empty : crlf <+: text.drop headers
    · rw [if_pos empty,scanHeaders,if_pos ((crlf_text inside).mpr empty)]
      exact .inl ⟨[],rfl,rfl⟩
    rw [if_neg empty]
    rcases scanHeaders_step noNul rest fuel c inside size empty with ⟨line,first,steps⟩ | ⟨none,message,refused⟩
    · have starts := startsWith_of_headerLine first
      have lineIn := starts.length_le
      rw [List.length_drop] at lineIn
      have long : 0 < line.length := Nat.succ_pos _
      rw [first,steps]
      simp only [Option.bind_eq_bind,Option.bind_some,List.drop_drop]
      have next : headers + line.length ≤ text.length := by omega
      rcases ih (if line.Named "connection" then some headers else c) next (by omega)
        (hostAfter_length size starts.fits) with
        ⟨lines,scanned,ended⟩ | ⟨none,refused⟩
      · refine .inl ⟨line :: lines,by rw [scanned]; rfl,?_⟩
        rw [ended,lastConnection,hostAfter,Option.map_or,Option.or_assoc]
        by_cases connection : line.Named "connection" <;> by_cases named : line.Named "host" <;> simp [connection,named]
      · exact .inr ⟨by rw [none]; rfl,refused⟩
    · exact .inr ⟨by rw [none]; rfl,message,refused⟩

/-! ### The last `Connection` header -/

/-- Each line that is read stands at the start of some end of the text. -/
theorem startsWith_of_scanLines {fuel : Nat} {lines : List HeaderLine} (scanned : scanLines fuel text = some lines) :
    ∀ line ∈ lines, ∃ behind, behind <:+ text ∧ StartsWith behind line := by
  induction fuel generalizing text lines with
  | zero => cases scanned
  | succ fuel ih =>
    rw [scanLines] at scanned
    split at scanned
    · cases scanned
      simp
    · obtain ⟨first,isFirst,onward⟩ := Option.bind_eq_some_iff.mp scanned
      obtain ⟨others,behind,same⟩ := Option.bind_eq_some_iff.mp onward
      cases same
      rw [List.forall_mem_cons]
      constructor
      · exact ⟨text,List.suffix_refl _,startsWith_of_headerLine isFirst⟩
      · intro line member
        obtain ⟨back,suffix,starts⟩ := ih behind line member
        exact ⟨back,suffix.trans (List.drop_suffix _ _),starts⟩

theorem scanLines_length {fuel : Nat} {lines : List HeaderLine} (scanned : scanLines fuel text = some lines) :
    2 ≤ text.length := by
  cases fuel with
  | zero => cases scanned
  | succ fuel =>
    rw [scanLines] at scanned
    split at scanned
    · rename_i empty
      exact empty.length_le
    · obtain ⟨line,first,_⟩ := Option.bind_eq_some_iff.mp scanned
      exact Nat.le_trans (Nat.le_add_left 2 _) (startsWith_of_headerLine first).length_le

/-- The last `Connection` header is a line of the text with at least one more
    line, the empty one, behind it. -/
theorem lastConnection_spec {fuel headers h : Nat} {lines : List HeaderLine} {line : HeaderLine}
    (scanned : scanLines fuel (text.drop headers) = some lines) (last : lastConnection headers lines = some (h,line)) :
    StartsWith (text.drop h) line ∧ line.Named "connection" ∧ h + line.length + 2 ≤ text.length := by
  induction fuel generalizing headers lines with
  | zero => cases scanned
  | succ fuel ih =>
    rw [scanLines] at scanned
    split at scanned
    · cases scanned
      cases last
    · obtain ⟨first,isFirst,onward⟩ := Option.bind_eq_some_iff.mp scanned
      obtain ⟨others,behind,same⟩ := Option.bind_eq_some_iff.mp onward
      cases same
      rw [List.drop_drop] at behind
      rw [lastConnection,Option.or_eq_some_iff] at last
      rcases last with later | ⟨_,here⟩
      · exact ih behind later
      · split at here
        · rename_i named
          cases here
          have starts := startsWith_of_headerLine isFirst
          have lineIn := starts.length_le
          have more := scanLines_length behind
          rw [List.length_drop] at lineIn more
          exact ⟨starts,named,by omega⟩
        · cases here

/-- The line up to its value. -/
theorem StartsWith.take_value {line : HeaderLine} (starts : StartsWith text line) :
    text.take line.valueStart = line.name ++ 58 :: List.replicate line.spaces 32 := by
  have colonIn := search_bound starts.colon
  rw [List.length_singleton] at colonIn
  have here : text[line.name.length]? = some 58 := (search_singleton.mp starts.colon).1
  have spaces : (text.drop (line.name.length+1)).take line.spaces = List.replicate line.spaces 32 := by
    rw [← starts.spaces,leadingSpaces]
    have all : ∀ c ∈ (text.drop (line.name.length+1)).takeWhile (· = 32), c = 32 := fun c member => by
      simpa using List.mem_takeWhile_imp member
    rw [← List.eq_replicate_of_mem all]
    exact (List.prefix_iff_eq_take.mp (List.takeWhile_prefix _)).symm
  calc text.take line.valueStart
      = text.take line.name.length ++ (text.drop line.name.length).take (line.spaces+1) := by
        rw [HeaderLine.valueStart,Nat.add_assoc,Nat.add_comm 1,List.take_add]
    _ = line.name ++ 58 :: (text.drop (line.name.length+1)).take line.spaces := by
        rw [← starts.name,List.drop_eq_getElem_cons (by omega),List.take_succ_cons,
          (List.getElem?_eq_some_iff.mp here).2]
    _ = line.name ++ 58 :: List.replicate line.spaces 32 := by rw [spaces]

/-- The name of a `Connection` header has no carriage return. -/
theorem noReturn_of_named {line : HeaderLine} (noNul : 0 ∉ line.name) (named : line.Named "connection") :
    13 ∉ line.name := by
  intro member
  have lower := (strcasecmp_eq_zero noNul (by decide)).mp named
  have inside : toLower 13 ∈ (ascii "connection").map toLower := lower ▸ List.mem_map_of_mem member
  exact absurd inside (by decide)

/-- The text in which the value of a line is `close`, as `parse_headers` writes
    it: a value of less than five bytes loses what stands behind it. -/
def closed (text : List Byte) (p length : Nat) : List Byte :=
  if 5 < length then text.take p ++ ascii "close" ++ text.drop (p+length) else overwrite text p (ascii "close")

/-- What the edit of a `Connection` header finds: the end of its line, its colon
    and its value. -/
structure Found (text rest : List Byte) (h : Nat) (line : HeaderLine) : Prop where
  ending : strstr (text ++ 0 :: rest) h crlf = some (h + line.valueStart + line.value.length)
  colon : strchr (text ++ 0 :: rest) h 58 = some (h + line.name.length)
  value : skipSpaces (text ++ 0 :: rest) (h+line.name.length+1) = h + line.valueStart
  filled : line.value.length ≠ 0
  inside : h + line.valueStart + line.value.length + 4 ≤ text.length

theorem found_of_startsWith (noNul : 0 ∉ text) (rest : List Byte) {h : Nat} {line : HeaderLine}
    (starts : StartsWith (text.drop h) line) (named : line.Named "connection")
    (more : h + line.length + 2 ≤ text.length) :
    Found text rest h line := by
  have noNulName : 0 ∉ line.name := fun member =>
    noNul (List.mem_of_mem_drop (List.mem_of_mem_take (starts.name ▸ member)))
  have valueIn : h + line.valueStart + line.value.length + 4 ≤ text.length := by
    rw [HeaderLine.length] at more; omega
  have inside : h ≤ text.length := by omega
  have noReturn : 13 ∉ (text.drop h).take line.valueStart := by
    rw [starts.take_value]
    simp only [List.mem_append,List.mem_cons,List.mem_replicate,not_or]
    exact ⟨noReturn_of_named noNulName named,by decide,fun both => absurd both.2 (by decide)⟩
  have valueStart : ((text.drop h).take line.valueStart).length = line.valueStart := by
    rw [List.length_take,List.length_drop]; omega
  have ending : search crlf (text.drop h) = some (line.valueStart + line.value.length) := by
    rw [← List.take_append_drop line.valueStart (text.drop h),search_skip (a := 13) (by decide) noReturn,starts.ending,
      valueStart]
    simp [Nat.add_comm]
  have colonIn : h + line.name.length + 1 ≤ text.length := by rw [HeaderLine.valueStart] at valueIn; omega
  have spaces : leadingSpaces (text.drop (h+line.name.length+1)) = line.spaces := by
    rw [← starts.spaces,List.drop_drop]; rfl
  constructor
  case ending => rw [strstr_text noNul inside,ending,Option.map_some,Nat.add_assoc]
  case colon => rw [strchr,strstr_text noNul inside,starts.colon,Option.map_some]
  case value =>
    rw [skipSpaces_text colonIn,spaces,HeaderLine.valueStart]
    omega
  case filled => exact starts.filled
  case inside => exact valueIn

theorem closeConnection_text (noNul : 0 ∉ text) {h : Nat} {line : HeaderLine}
    (starts : StartsWith (text.drop h) line) (named : line.Named "connection")
    (more : h + line.length + 2 ≤ text.length) :
    ∃ left, (closed text (h+line.valueStart) line.value.length).length + left.length = text.length ∧
      ∀ rest, closeConnection (text ++ 0 :: rest) h =
        some (closed text (h+line.valueStart) line.value.length ++ 0 :: (left ++ rest)) := by
  have five : (ascii "close").length = 5 := by decide
  have inside : h + line.valueStart + line.value.length + 4 ≤ text.length := by rw [HeaderLine.length] at more; omega
  have filled := starts.filled
  have clean : 0 ∉ overwrite text (h+line.valueStart) (ascii "close") := fun member =>
    (mem_overwrite member).elim noNul (by decide)
  have length : (overwrite text (h+line.valueStart) (ascii "close")).length = text.length := overwrite_length (by omega)
  -- The value is written, and the rest of a longer one is taken out.
  have written : ∀ rest, closeConnection (text ++ 0 :: rest) h = if 5 < line.value.length then
      memmove (overwrite text (h+line.valueStart) (ascii "close") ++ 0 :: rest) (h+line.valueStart+5)
        (h+line.valueStart+line.value.length)
        ((overwrite text (h+line.valueStart) (ascii "close")).length-(h+line.valueStart+line.value.length)+1)
      else some (overwrite text (h+line.valueStart) (ascii "close") ++ 0 :: rest) := by
    intro rest
    have found := found_of_startsWith noNul rest starts named more
    rw [closeConnection,found.ending]
    simp only [found.colon,found.value]
    rw [memcpy_text (by omega)]
    simp only [Option.bind_eq_bind,Option.bind_some,Nat.add_sub_cancel_left]
    rw [strlen_text clean (by omega)]
  rw [closed]
  by_cases longer : 5 < line.value.length
  · have before : h + line.valueStart + 5 ≤ h + line.valueStart + line.value.length := by omega
    have within : h + line.valueStart + line.value.length ≤
        (overwrite text (h+line.valueStart) (ascii "close")).length := by omega
    obtain ⟨left,size,moved⟩ := memmove_remove before within
    refine ⟨left,?_,fun rest => ?_⟩
    · rw [if_pos longer]
      simp only [List.length_append,List.length_take,List.length_drop,five,size]
      omega
    · rw [written,if_pos longer,if_pos longer,moved,← five,take_overwrite (by omega),
        drop_overwrite (by omega) (by omega)]
  · refine ⟨[],?_,fun rest => ?_⟩
    · rw [if_neg longer,length,List.length_nil,Nat.add_zero]
    · rw [written,if_neg longer,if_neg longer,List.nil_append]

/-! ### The header section -/

/-- Enough fuel reads the whole section. -/
theorem scanLines_fuel {fuel fuel' : Nat} (enough : text.length < fuel) (enough' : text.length < fuel') :
    scanLines fuel text = scanLines fuel' text := by
  induction fuel generalizing text fuel' with
  | zero => omega
  | succ fuel ih =>
    cases fuel' with
    | zero => omega
    | succ fuel' =>
      rw [scanLines,scanLines]
      split
      · rfl
      · cases first : headerLine text with
        | none => rfl
        | some line =>
          have lineIn := (startsWith_of_headerLine first).length_le
          have long : 0 < line.length := Nat.succ_pos _
          have same : scanLines fuel (text.drop line.length) = scanLines fuel' (text.drop line.length) :=
            ih (by rw [List.length_drop]; omega) (by rw [List.length_drop]; omega)
          simp only [Option.bind_eq_bind,Option.bind_some,same]

/-- Where the first header is, and the header lines. -/
def headerSection (text : List Byte) : Option (Nat × List HeaderLine) := do
  let line_end ← search crlf text
  let lines ← scanLines (text.length+1) (text.drop (line_end+2))
  return (line_end+2,lines)

theorem scanLines_of_headerSection {headers : Nat} {lines : List HeaderLine}
    (is : headerSection text = some (headers,lines)) : scanLines (text.length+1) (text.drop headers) = some lines := by
  obtain ⟨line_end,_,onward⟩ := Option.bind_eq_some_iff.mp is
  obtain ⟨others,scanned,same⟩ := Option.bind_eq_some_iff.mp onward
  cases same
  exact scanned

theorem hostAfter_size {fuel : Nat} {lines : List HeaderLine} {host : List Byte}
    (scanned : scanLines fuel text = some lines) (size : host.length = hValSize) :
    (hostAfter host lines).length = hValSize := by
  have fits : ∀ line ∈ lines, line.value.length < hValSize := by
    intro line member
    obtain ⟨_,_,starts⟩ := startsWith_of_scanLines scanned line member
    exact starts.fits
  clear scanned
  induction lines generalizing host with
  | nil => exact size
  | cons line lines ih =>
    obtain ⟨fits_line,others⟩ := List.forall_mem_cons.mp fits
    have sized := hostAfter_length size fits_line
    rw [hostAfter]
    split at sized
    · rw [if_pos ‹_›]
      exact ih sized others
    · rw [if_neg ‹_›]
      exact ih sized others

/-- Behind the last header there is an empty line. -/
theorem blankLine {fuel : Nat} {lines : List HeaderLine} (scanned : scanLines fuel text = some lines)
    (nonempty : lines ≠ []) :
    crlf ++ crlf <:+: text := by
  induction fuel generalizing text lines with
  | zero => cases scanned
  | succ fuel ih =>
    rw [scanLines] at scanned
    split at scanned
    · cases scanned
      exact absurd rfl nonempty
    · obtain ⟨line,first,onward⟩ := Option.bind_eq_some_iff.mp scanned
      obtain ⟨others,behind,same⟩ := Option.bind_eq_some_iff.mp onward
      cases same
      by_cases last : others = []
      · have ends := (search_eq_some.mp (startsWith_of_headerLine first).ending).2.1
        rw [List.drop_drop] at ends
        have blank : crlf <+: text.drop line.length := by
          cases fuel with
          | zero => cases behind
          | succ fuel =>
            rw [scanLines] at behind
            split at behind
            · assumption
            · obtain ⟨_,_,onward⟩ := Option.bind_eq_some_iff.mp behind
              obtain ⟨_,_,same⟩ := Option.bind_eq_some_iff.mp onward
              cases same
              cases last
        obtain ⟨front,isFront⟩ := ends
        have behind : (text.drop (line.valueStart+line.value.length)).drop crlf.length = text.drop line.length := by
          rw [List.drop_drop]; rfl
        rw [← isFront,List.drop_left] at behind
        have both : crlf ++ crlf <+: text.drop (line.valueStart+line.value.length) := by
          rw [← isFront,List.prefix_append_right_inj,behind]
          exact blank
        exact both.isInfix.trans (List.drop_suffix _ _).isInfix
      · exact (ih behind last).trans (List.drop_suffix _ _).isInfix

theorem headersEnd_of_headerSection {headers : Nat} {lines : List HeaderLine}
    (is : headerSection text = some (headers,lines)) (nonempty : lines ≠ []) :
    ∃ e, search (ascii "\r\n\r\n") text = some e := by
  have blank := blankLine (scanLines_of_headerSection is) nonempty
  exact search_of_inside (blank.trans (List.drop_suffix _ _).isInfix)

/-- `parse_headers` refuses, when there is no header section or no host in it, or
    it changes the buffer as `closeConnection` or `addConnection` does. -/
theorem parseHeaders_lines (noNul : 0 ∉ text) (rest : List Byte) {host : List Byte} (size : host.length = hValSize) :
    (∃ message, parseHeaders (text ++ 0 :: rest) host = some (.error message,text ++ 0 :: rest) ∧
      ∀ headers lines, headerSection text = some (headers,lines) →
        (hostAfter (overwrite host 0 [0]) lines)[0]? = some 0) ∨
      ∃ headers lines, headerSection text = some (headers,lines) ∧
        (hostAfter (overwrite host 0 [0]) lines)[0]? ≠ some 0 ∧
        parseHeaders (text ++ 0 :: rest) host =
          (match (lastConnection headers lines).map Prod.fst with
            | some h => closeConnection (text ++ 0 :: rest) h
            | none => addConnection (text ++ 0 :: rest)).map fun buffer =>
              (.ok (hostAfter (overwrite host 0 [0]) lines),buffer) := by
  rw [parseHeaders,strstr_text noNul (Nat.zero_le _),List.drop_zero,headerSection]
  cases found : search crlf text with
  | none => exact .inl ⟨_,rfl,by simp⟩
  | some line_end =>
    have inside := search_bound found
    rw [show crlf.length = 2 by decide] at inside
    have copied : memcpy host 0 [0] = some (overwrite host 0 [0]) := if_pos (by rw [size]; decide)
    have size' : (overwrite host 0 [0]).length = hValSize := (overwrite_length (by rw [size]; decide)).trans size
    simp only [Option.map_some,Nat.zero_add,copied,Option.bind_eq_bind,Option.bind_some]
    have shorter : (text.drop (line_end+2)).length < text.length + 1 := by rw [List.length_drop]; omega
    have shorter' : (text.drop (line_end+2)).length < (text ++ 0 :: rest).length + 1 := by
      rw [List.length_drop,List.length_append]; omega
    rcases scanHeaders_text noNul rest none inside
      (by rw [List.length_append]; omega : text.length - (line_end+2) < (text ++ 0 :: rest).length + 1) size' with
      ⟨lines,scanned,ended⟩ | ⟨none,message,refused⟩
    · rw [ended]
      have same : scanLines (text.length+1) (text.drop (line_end+2)) = some lines :=
        (scanLines_fuel shorter shorter').trans scanned
      simp only [Option.bind_some,same]
      split
      · rename_i empty
        refine .inl ⟨_,rfl,?_⟩
        rintro _ _ ⟨⟩
        exact empty
      · rename_i hosted
        refine .inr ⟨line_end+2,lines,rfl,hosted,?_⟩
        rw [Option.or_none]
        cases (lastConnection (line_end+2) lines).map Prod.fst <;> exact Option.map_eq_bind.symm
    · rw [refused]
      refine .inl ⟨message,rfl,?_⟩
      rw [scanLines_fuel shorter shorter',none]
      simp

/-- Where `parse_headers` does not refuse, there is at least one header line. -/
theorem parseHeaders_text (noNul : 0 ∉ text) (rest : List Byte) {host : List Byte} (size : host.length = hValSize) :
    (∃ message, parseHeaders (text ++ 0 :: rest) host = some (.error message,text ++ 0 :: rest) ∧
      ∀ headers lines, headerSection text = some (headers,lines) →
        (hostAfter (overwrite host 0 [0]) lines)[0]? = some 0) ∨
      ∃ headers lines host', headerSection text = some (headers,lines) ∧ lines ≠ [] ∧ host'.length = hValSize ∧
        parseHeaders (text ++ 0 :: rest) host =
          (match (lastConnection headers lines).map Prod.fst with
            | some h => closeConnection (text ++ 0 :: rest) h
            | none => addConnection (text ++ 0 :: rest)).map fun buffer => (.ok host',buffer) := by
  refine (parseHeaders_lines noNul rest size).imp_right ?_
  rintro ⟨headers,lines,is,hosted,parsed⟩
  have size' : (overwrite host 0 [0]).length = hValSize := (overwrite_length (by rw [size]; decide)).trans size
  have nonempty : lines ≠ [] := by
    rintro rfl
    exact hosted rfl
  exact ⟨headers,lines,_,is,nonempty,hostAfter_size (scanLines_of_headerSection is) size',parsed⟩

/-! ### The other edits -/

theorem addConnection_text (noNul : 0 ∉ text) (rest : List Byte) {e : Nat}
    (found : search (ascii "\r\n\r\n") text = some e) :
    addConnection (text ++ 0 :: rest) = if connectionLine.length ≤ rest.length then
      some (text.take e ++ connectionLine ++ text.drop e ++ 0 :: rest.drop connectionLine.length) else none := by
  have inside : e ≤ text.length := (search_eq_some.mp found).1
  rw [addConnection,strstr_text noNul (Nat.zero_le _),List.drop_zero,found]
  simp only [Option.map_some,Nat.zero_add,strlen_text noNul inside]
  exact memmove_insert rest connectionLine inside

/-- The first `http://` of the text, and the first slash behind it. -/
def urlSpan (text : List Byte) : Option (Nat × Nat) :=
  match search (ascii "http://") text with
  | none => none
  | some start => (search [47] (text.drop (start+7))).map fun slash => (start,start+7+slash)

/-- The text without the host of an absolute URL. -/
def urlRemoved (text : List Byte) : List Byte :=
  match urlSpan text with
  | none => text
  | some (start,slash) => text.take start ++ text.drop slash

theorem removeUrl_text (noNul : 0 ∉ text) :
    ∃ left, (urlRemoved text).length + left.length = text.length ∧
      ∀ rest, removeUrl (text ++ 0 :: rest) = some (urlRemoved text ++ 0 :: (left ++ rest)) := by
  have begins : ∀ rest, strstr (text ++ 0 :: rest) 0 (ascii "http://") =
      (search (ascii "http://") text).map (0 + ·) := fun rest => by
    rw [strstr_text noNul (Nat.zero_le _),List.drop_zero]
  simp only [removeUrl,begins,urlRemoved,urlSpan]
  cases found : search (ascii "http://") text with
  | none => exact ⟨[],rfl,fun rest => rfl⟩
  | some start =>
    have startIn := search_bound found
    have seven : (ascii "http://").length = 7 := by decide
    have ends : ∀ rest, strchr (text ++ 0 :: rest) (start+7) 47 =
        (search [47] (text.drop (start+7))).map (start+7+·) := fun rest => by
      rw [strchr,strstr_text noNul (by omega)]
    simp only [Option.map_some,Nat.zero_add,ends]
    cases slashFound : search [47] (text.drop (start+7)) with
    | none => exact ⟨[],rfl,fun rest => rfl⟩
    | some slash =>
      have slashIn := search_bound slashFound
      rw [List.length_drop,List.length_singleton] at slashIn
      have within : start + 7 + slash ≤ text.length := by omega
      obtain ⟨left,size,moved⟩ := memmove_remove (by omega : start ≤ start+7+slash) within
      refine ⟨left,?_,fun rest => ?_⟩
      · simp only [Option.map_some,List.length_append,List.length_take,List.length_drop,size]
        omega
      · simp only [Option.map_some,strlen_text noNul within,moved]

theorem version_inside {method url version : List Byte} (scanned : scanRequestLine text = some (method,url,version)) :
    version <:+: text := by
  obtain ⟨⟨_,behind⟩,first,scanned⟩ := Option.bind_eq_some_iff.mp scanned
  obtain ⟨⟨_,behind'⟩,second,scanned⟩ := Option.bind_eq_some_iff.mp scanned
  obtain ⟨⟨_,last⟩,third,same⟩ := Option.bind_eq_some_iff.mp scanned
  cases same
  have inner : version <:+: behind' := ⟨_,last,(scanString_split third).symm⟩
  have middle : behind' <:+: behind := ⟨_,[],by rw [List.append_nil]; exact (scanString_split second).symm⟩
  have outer : behind <:+: text := ⟨_,[],by rw [List.append_nil]; exact (scanString_split first).symm⟩
  exact inner.trans (middle.trans outer)

/-- The text in which the version is `HTTP/1.1`, when `parse_request_line` takes
    the request line. -/
def versioned (text : List Byte) : Option (List Byte) := do
  let (method,_,version) ← scanRequestLine text
  if strncmp method (ascii "GET") 3 ≠ 0 then none
  else if strncmp version (ascii "HTTP/1.0") 8 ≠ 0 ∧ strncmp version (ascii "HTTP/1.1") 8 ≠ 0 then none
  else (search version text).map fun version_pos => overwrite text version_pos (ascii "HTTP/1.1")

/-- Where a version that is taken stands, there are eight bytes of it. -/
theorem version_start {method url version : List Byte} {p : Nat} (noNul : 0 ∉ text)
    (scanned : scanRequestLine text = some (method,url,version))
    (known : ¬ (strncmp version (ascii "HTTP/1.0") 8 ≠ 0 ∧ strncmp version (ascii "HTTP/1.1") 8 ≠ 0))
    (found : search version text = some p) :
    (ascii "HTTP/1.0" <+: text.drop p ∨ ascii "HTTP/1.1" <+: text.drop p) ∧
    p + (ascii "HTTP/1.1").length ≤ text.length := by
  have noNulVersion : 0 ∉ version := fun member => noNul ((version_inside scanned).subset member)
  obtain ⟨inside,occurs,_⟩ := search_eq_some.mp found
  have start : version.take 8 <+: text.drop p := (List.take_prefix 8 version).trans occurs
  have isOne : version.take 8 = ascii "HTTP/1.0" ∨ version.take 8 = ascii "HTTP/1.1" := by
    by_contra neither
    rw [not_or] at neither
    refine known ⟨fun same => neither.1 ?_,fun same => neither.2 ?_⟩
    · rw [(strncmp_eq_zero noNulVersion (by decide)).mp same]; decide
    · rw [(strncmp_eq_zero noNulVersion (by decide)).mp same]; decide
  have eight : (version.take 8).length = (ascii "HTTP/1.1").length := by
    rcases isOne with is | is
    · rw [is]; decide
    · rw [is]
  have fits := start.length_le
  rw [eight,List.length_drop] at fits
  have positive : 0 < (ascii "HTTP/1.1").length := by decide
  constructor
  · rcases isOne with is | is
    · exact .inl (is ▸ start)
    · exact .inr (is ▸ start)
  · omega

/-- `HTTP/1.1` is written where `HTTP/1.0` or `HTTP/1.1` stands. -/
theorem versioned_spec {first : List Byte} (noNul : 0 ∉ text) (is : versioned text = some first) :
    ∃ p, first = overwrite text p (ascii "HTTP/1.1") ∧ p + (ascii "HTTP/1.1").length ≤ text.length ∧
      (ascii "HTTP/1.0" <+: text.drop p ∨ ascii "HTTP/1.1" <+: text.drop p) := by
  obtain ⟨⟨method,url,version⟩,scanned,is⟩ := Option.bind_eq_some_iff.mp is
  simp only at is
  split at is
  · cases is
  split at is
  · cases is
  rename_i known
  obtain ⟨p,found,rfl⟩ := Option.map_eq_some_iff.mp is
  obtain ⟨start,fits⟩ := version_start noNul scanned known found
  exact ⟨p,rfl,fits,start⟩

/-- The edit of the version keeps the length of the text, and puts no NUL into it. -/
theorem versioned_keeps {first : List Byte} (noNul : 0 ∉ text) (is : versioned text = some first) :
    first.length = text.length ∧ 0 ∉ first := by
  obtain ⟨p,rfl,fits,_⟩ := versioned_spec noNul is
  exact ⟨overwrite_length fits,fun member => (mem_overwrite member).elim noNul (by decide)⟩

theorem parseRequestLine_text (noNul : 0 ∉ text) (rest : List Byte) :
    (∃ message, parseRequestLine (text ++ 0 :: rest) = some (.error message,text ++ 0 :: rest) ∧
      versioned text = none) ∨
      ∃ first, parseRequestLine (text ++ 0 :: rest) = some (.ok (),first ++ 0 :: rest) ∧
        versioned text = some first := by
  rw [parseRequestLine,cstring_text noNul (Nat.zero_le _),List.drop_zero,versioned]
  cases scanned : scanRequestLine text with
  | none => exact .inl ⟨_,rfl,rfl⟩
  | some tokens =>
    obtain ⟨method,url,version⟩ := tokens
    simp only [Option.bind_eq_bind,Option.bind_some]
    split
    · exact .inl ⟨_,rfl,rfl⟩
    split
    · exact .inl ⟨_,rfl,rfl⟩
    rename_i known
    obtain ⟨p,found⟩ := search_of_inside (version_inside scanned)
    obtain ⟨_,fits⟩ := version_start noNul scanned known found
    refine .inr ⟨overwrite text p (ascii "HTTP/1.1"),?_,by rw [found,Option.map_some]⟩
    rw [strstr_text noNul (Nat.zero_le _),List.drop_zero,found]
    simp only [Option.map_some,Nat.zero_add,memcpy_text fits]

end Os5Sem.RequestText

import Os5Sem.Forwarding

/-!
What the loop of `parse_headers` reads from a text, and the host it returns: the
call does not refuse a text exactly when it reads header lines up to an empty one,
and a host among them (`parseHeaders_reads`).
-/
namespace Os5Sem.HeaderReading
open Os5Sem.Occurrences Os5Sem.CMemory Os5Sem.Handler Os5Sem.RequestText Os5Sem.RequestLength Os5Sem.Forwarding

/-- The value of the last `Host` header. -/
def hostOf : List HeaderLine → Option (List Byte)
  | [] => none
  | line :: lines => (hostOf lines).or (if line.Named "host" then some line.value else none)

/-- The header lines that are read, of which the first is at `headers`, and the
    host. -/
structure Reads (text : List Byte) (headers : Nat) (lines : List HeaderLine) (value : List Byte) : Prop where
  read : headerSection text = some (headers,lines)
  host : hostOf lines = some value

theorem reads_unique {text : List Byte} {headers headers' : Nat} {lines lines' : List HeaderLine}
    {value value' : List Byte} (one : Reads text headers lines value) (two : Reads text headers' lines' value') :
    headers = headers' ∧ lines = lines' ∧ value = value' := by
  have same := one.read.symm.trans two.read
  simp only [Option.some.injEq,Prod.mk.injEq] at same
  obtain ⟨rfl,rfl⟩ := same
  exact ⟨rfl,rfl,Option.some.inj (one.host.symm.trans two.host)⟩

/-- The call returns 1. -/
def Refuses (buffer host : List Byte) : Prop := ∃ message after, parseHeaders buffer host = some (.error message,after)

variable {text rest host : List Byte} {lines : List HeaderLine}

theorem hostOf_eq_none : hostOf lines = none ↔ ∀ line ∈ lines, ¬ line.Named "host" := by
  induction lines with
  | nil => simp [hostOf]
  | cons line lines ih =>
    rw [hostOf,Option.or_eq_none_iff,ih,List.forall_mem_cons,and_comm]
    simp

theorem hostOf_mem {value : List Byte} (found : hostOf lines = some value) : ∃ line ∈ lines, line.value = value := by
  induction lines with
  | nil => cases found
  | cons line lines ih =>
    rw [hostOf,Option.or_eq_some_iff] at found
    rcases found with later | ⟨_,here⟩
    · obtain ⟨other,member,same⟩ := ih later
      exact ⟨other,List.mem_cons_of_mem line member,same⟩
    · split at here
      · exact ⟨line,List.mem_cons_self,Option.some.inj here⟩
      · cases here

theorem lastConnection_eq_none {headers : Nat} :
    lastConnection headers lines = none ↔ ∀ line ∈ lines, ¬ line.Named "connection" := by
  induction lines generalizing headers with
  | nil => simp [lastConnection]
  | cons line lines ih =>
    rw [lastConnection,Option.or_eq_none_iff,ih,List.forall_mem_cons,and_comm]
    simp

theorem startsWith_of_reads {headers : Nat} (is : headerSection text = some (headers,lines)) :
    ∀ line ∈ lines, ∃ behind, behind <:+ text ∧ StartsWith behind line := by
  intro line member
  obtain ⟨behind,suffix,starts⟩ := startsWith_of_scanLines (scanLines_of_headerSection is) line member
  exact ⟨behind,suffix.trans (List.drop_suffix _ _),starts⟩

/-- What is read is not empty, and has no NUL. -/
theorem value_filled {headers : Nat} (noNul : 0 ∉ text) (is : headerSection text = some (headers,lines)) :
    ∀ line ∈ lines, line.value ≠ [] ∧ 0 ∉ line.value := by
  intro line member
  obtain ⟨behind,suffix,starts⟩ := startsWith_of_reads is line member
  constructor
  · intro none
    exact starts.filled (by rw [none]; rfl)
  · rw [starts.value]
    intro inside
    exact noNul (suffix.subset (List.mem_of_mem_drop (List.mem_of_mem_take inside)))

/-! ### The array `host` -/

/-- The array holds the last host, or what it held before. -/
theorem hostAfter_string (filled : ∀ line ∈ lines, line.value ≠ [] ∧ 0 ∉ line.value) (host : List Byte) :
    cstring (hostAfter host lines) 0 = (hostOf lines).getD (cstring host 0) := by
  induction lines generalizing host with
  | nil => rfl
  | cons line lines ih =>
    obtain ⟨⟨_,noNul⟩,others⟩ := List.forall_mem_cons.mp filled
    rw [hostAfter,hostOf]
    split
    · rw [ih others,cstring_text noNul (Nat.zero_le _),List.drop_zero]
      cases hostOf lines <;> rfl
    · rw [ih others,Option.or_none]

theorem cstring_eq_nil {memory : List Byte} (filled : memory ≠ []) :
    cstring memory 0 = [] ↔ memory[0]? = some 0 := by
  obtain ⟨c,memory,rfl⟩ := List.exists_cons_of_ne_nil filled
  simp [cstring]

/-- The first byte of the array tells if there was a host. -/
theorem hostAfter_first {headers : Nat} (noNul : 0 ∉ text) (size : host.length = hValSize)
    (is : headerSection text = some (headers,lines)) :
    (hostAfter (overwrite host 0 [0]) lines)[0]? = some 0 ↔ hostOf lines = none := by
  have size' : (overwrite host 0 [0]).length = hValSize := (overwrite_length (by rw [size]; decide)).trans size
  have sized := hostAfter_size (scanLines_of_headerSection is) size'
  have nonempty : hostAfter (overwrite host 0 [0]) lines ≠ [] := by
    intro none
    rw [none] at sized
    cases sized
  have empty : cstring (overwrite host 0 [0]) 0 = [] := by simp [overwrite,cstring]
  have filled := value_filled noNul is
  rw [← cstring_eq_nil nonempty,hostAfter_string filled,empty]
  cases found : hostOf lines with
  | none => exact iff_of_true rfl rfl
  | some value =>
    obtain ⟨line,member,same⟩ := hostOf_mem found
    exact iff_of_false (fun none => (filled line member).1 (same.trans none)) (by simp)

/-! ### The call -/

/-- `parse_headers` refuses a text of which it reads no header section or no host;
    otherwise it returns the host, and makes the edit of the `Connection` header. -/
theorem parseHeaders_reads (noNul : 0 ∉ text) (rest : List Byte) (size : host.length = hValSize) :
    (Refuses (text ++ 0 :: rest) host ∧ ∀ headers lines value, ¬ Reads text headers lines value) ∨
    ∃ headers lines value host', Reads text headers lines value ∧ lines ≠ [] ∧ host'.length = hValSize ∧
      cstring host' 0 = value ∧
      parseHeaders (text ++ 0 :: rest) host =
        (match (lastConnection headers lines).map Prod.fst with
          | some h => closeConnection (text ++ 0 :: rest) h
          | none => addConnection (text ++ 0 :: rest)).map fun buffer => (.ok host',buffer) := by
  rcases parseHeaders_lines noNul rest size with ⟨message,refused,missing⟩ | ⟨headers,lines,is,hosted,parsed⟩
  · refine .inl ⟨⟨message,_,refused⟩,?_⟩
    rintro headers lines value ⟨is,found⟩
    rw [(hostAfter_first noNul size is).mp (missing headers lines is)] at found
    cases found
  · have found : hostOf lines ≠ none := fun none => hosted ((hostAfter_first noNul size is).mpr none)
    obtain ⟨value,found⟩ := Option.ne_none_iff_exists'.mp found
    have size' : (overwrite host 0 [0]).length = hValSize := (overwrite_length (by rw [size]; decide)).trans size
    refine .inr ⟨headers,lines,value,_,⟨is,found⟩,?_,hostAfter_size (scanLines_of_headerSection is) size',?_,parsed⟩
    · rintro rfl
      cases found
    · rw [hostAfter_string (value_filled noNul is),found]
      rfl

theorem refuses_iff (noNul : 0 ∉ text) (rest : List Byte) (size : host.length = hValSize) :
    ¬ Refuses (text ++ 0 :: rest) host ↔ ∃ headers lines value, Reads text headers lines value := by
  rcases parseHeaders_reads noNul rest size with ⟨refuses,missing⟩ | ⟨headers,lines,value,host',reads,_,_,_,parsed⟩
  · exact iff_of_false (fun not => not refuses) fun ⟨headers,lines,value,reads⟩ => missing headers lines value reads
  · refine iff_of_true ?_ ⟨headers,lines,value,reads⟩
    rintro ⟨message,after,refused⟩
    rw [parsed] at refused
    obtain ⟨_,_,same⟩ := Option.map_eq_some_iff.mp refused
    cases same

/-- A text of which a section is read: the buffer that `parse_headers` leaves, when
    there is room for it. -/
theorem parseHeaders_of_reads {headers : Nat} {value : List Byte} (noNul : 0 ∉ text) (rest : List Byte)
    (size : host.length = hValSize) (reads : Reads text headers lines value) :
    ((lastConnection headers lines = none → 20 ≤ rest.length) ∧ ∃ host' rest', host'.length = hValSize ∧
      cstring host' 0 = value ∧ parseHeaders (text ++ 0 :: rest) host =
        some (.ok host',reconnected text (lastConnection headers lines) ++ 0 :: rest')) ∨
    lastConnection headers lines = none ∧ rest.length < 20 ∧ parseHeaders (text ++ 0 :: rest) host = none := by
  rcases parseHeaders_reads noNul rest size with ⟨_,missing⟩ |
    ⟨headers',lines',value',host',reads',nonempty,size',string,parsed⟩
  · exact absurd reads (missing headers lines value)
  obtain ⟨rfl,rfl,rfl⟩ := reads_unique reads' reads
  rw [parsed]
  rcases connection_edited noNul rest reads.read nonempty with ⟨room,rest',edited⟩ | ⟨none,full,overflow⟩
  · have returned := congrArg (Option.map fun buffer => ((.ok host' : Except (List Byte) (List Byte)),buffer)) edited
    exact .inl ⟨room,host',rest',size',string,returned⟩
  · refine .inr ⟨none,full,?_⟩
    rw [none]
    simp only [Option.map_none,overflow]

end Os5Sem.HeaderReading

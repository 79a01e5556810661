import Os5Sem.RequestText
import Os5Sem.Traces

/-!
What `parse_headers` reads and writes, byte by byte: its loop and its edits of the
`Connection` header once more, now with the positions of the buffer that are read
and written, and those of `header_name` and `host` that are written
(`result_parseHeaders`).
-/
namespace Os5Sem.HeaderAccesses
open Os5Sem.Occurrences Os5Sem.CMemory Os5Sem.Handler Os5Sem.RequestText
open Os5Sem.Traces Os5Sem.Traces.Traced

inductive Access
  | read (p : Nat)
  | write (p : Nat)
  | writeName (p : Nat)
  | writeHost (p : Nat)
deriving DecidableEq

/-- The same access to each of `n` bytes. -/
def span (access : Nat → Access) (p n : Nat) : List Access := (List.range' p n).map access

/-! ### The operations -/

def readByte (buffer : List Byte) (p : Nat) : Traced Access (Option Byte) := ⟨[.read p],buffer[p]?⟩

/-- A search may look at all of the string, and at its NUL. -/
def strstr (buffer : List Byte) (p : Nat) (needle : List Byte) : Traced Access (Option Nat) :=
  ⟨span .read p (CMemory.strlen buffer p + 1),CMemory.strstr buffer p needle⟩

def strchr (buffer : List Byte) (p : Nat) (c : Byte) : Traced Access (Option Nat) := strstr buffer p [c]

def strlen (buffer : List Byte) (p : Nat) : Traced Access Nat :=
  ⟨span .read p (CMemory.strlen buffer p + 1),CMemory.strlen buffer p⟩

/-- The spaces are read, and the byte behind them. -/
def skipSpaces (buffer : List Byte) (p : Nat) : Traced Access Nat :=
  ⟨span .read p (Handler.skipSpaces buffer p - p + 1),Handler.skipSpaces buffer p⟩

def memcpy (buffer : List Byte) (p : Nat) (bytes : List Byte) : Traced Access (Option (List Byte)) :=
  ⟨span .write p bytes.length,CMemory.memcpy buffer p bytes⟩

def memmove (buffer : List Byte) (dest src n : Nat) : Traced Access (Option (List Byte)) :=
  ⟨span .read src n ++ span .write dest n,CMemory.memmove buffer dest src n⟩

/-- `n` bytes of the buffer are copied to another array, and then a NUL. -/
def copyString (write : Nat → Access) (memory buffer : List Byte) (p n : Nat) : Traced Access (Option (List Byte)) :=
  ⟨span .read p n ++ span write 0 (n+1),do
    let memory ← CMemory.memcpy memory 0 (slice buffer p n)
    CMemory.memcpy memory n [0]⟩

/-- The second byte is only read behind a carriage return. -/
def atBlankLine (buffer : List Byte) (headers : Nat) : Traced Access Bool := do
  let first ← readByte buffer headers
  if first = some 13 then
    let second ← readByte buffer (headers+1)
    pure (second = some 10)
  else pure false

/-! ### The loop -/

def scanHeaders (buffer : List Byte) :
    (fuel headers : Nat) → (connection_h : Option Nat) → (host : List Byte) →
      Traced Access (Option (Except (List Byte) (Option Nat × List Byte)))
  | 0, _, _, _ => pure none
  | fuel+1, headers, connection_h, host => do
    let blank ← atBlankLine buffer headers
    if blank = true then pure (some (.ok (connection_h,host)))
    else
      let found ← strchr buffer headers 58
      match found with
      | none => pure (some (.error (ascii "Invalid header structure: colon not found\n")))
      | some colon =>
        let header_name_len := colon - headers
        if header_name_len = 0 ∨ hNameSize ≤ header_name_len then
          pure (some (.error (ascii "Invalid header structure: invalid colon location\n")))
        else
          let copied ← copyString .writeName (array hNameSize) buffer headers header_name_len
          match copied with
          | none => pure none
          | some name_array =>
            let header_name := cstring name_array 0
            let header_val_start ← skipSpaces buffer (colon+1)
            let found ← strstr buffer header_val_start crlf
            match found with
            | none => pure (some (.error (ascii "Invalid header structure: header end not found\n")))
            | some header_val_end =>
              let header_value_len := header_val_end - header_val_start
              if header_value_len = 0 ∨ hValSize ≤ header_value_len then
                pure (some (.error (ascii "Invalid header structure: invalid header end location\n")))
              else
                let copied ←
                  if strcasecmp header_name (ascii "host") = 0 then
                    copyString .writeHost host buffer header_val_start header_value_len
                  else pure (some host)
                match copied with
                | none => pure none
                | some host =>
                  let connection_h :=
                    if strcasecmp header_name (ascii "connection") = 0 then some headers else connection_h
                  scanHeaders buffer fuel (header_val_end+2) connection_h host

/-! ### The edits -/

def closeConnection (buffer : List Byte) (connection_h : Nat) : Traced Access (Option (List Byte)) := do
  let found ← strstr buffer connection_h crlf
  match found with
  | none => pure (some buffer)
  | some header_end =>
    let found ← strchr buffer connection_h 58
    match found with
    | none => pure (some buffer)
    | some colon =>
      let val_start ← skipSpaces buffer (colon+1)
      let old_val_len := header_end - val_start
      let written ← memcpy buffer val_start (ascii "close")
      match written with
      | none => pure none
      | some buffer =>
        if old_val_len > 5 then
          let length ← strlen buffer header_end
          memmove buffer (val_start+5) header_end (length+1)
        else pure (some buffer)

def addConnection (buffer : List Byte) : Traced Access (Option (List Byte)) := do
  let found ← strstr buffer 0 (ascii "\r\n\r\n")
  match found with
  | none => pure (some buffer)
  | some headers_end =>
    let connection_len := connectionLine.length
    let length ← strlen buffer headers_end
    let moved ← memmove buffer (headers_end+connection_len) headers_end (length+1)
    match moved with
    | none => pure none
    | some buffer => memcpy buffer headers_end connectionLine

/-! ### The call -/

def parseHeaders (buffer host : List Byte) :
    Traced Access (Option (Except (List Byte) (List Byte) × List Byte)) := do
  let found ← strstr buffer 0 crlf
  match found with
  | none => pure (some (.error (ascii "Headers not found\n"),buffer))
  | some line_end =>
    let emptied : Traced Access _ := ⟨[.writeHost 0],CMemory.memcpy host 0 [0]⟩
    let emptied ← emptied
    match emptied with
    | none => pure none
    | some host =>
      let scanned ← scanHeaders buffer (buffer.length+1) (line_end+2) none host
      match scanned with
      | none => pure none
      | some (.error message) => pure (some (.error message,buffer))
      | some (.ok (connection_h,host)) =>
        if host[0]? = some 0 then pure (some (.error (ascii "Host header not found\n"),buffer))
        else
          let edited ←
            match connection_h with
            | some connection_h => closeConnection buffer connection_h
            | none => addConnection buffer
          pure (edited.map fun buffer => (.ok host,buffer))

theorem result_atBlankLine (buffer : List Byte) (headers : Nat) :
    (atBlankLine buffer headers).result = true ↔ buffer[headers]? = some 13 ∧ buffer[headers+1]? = some 10 := by
  by_cases first : buffer[headers]? = some 13 <;> simp [atBlankLine,readByte,first]

theorem result_scanHeaders (buffer : List Byte) (fuel headers : Nat) (connection_h : Option Nat) (host : List Byte) :
    (scanHeaders buffer fuel headers connection_h host).result =
      Handler.scanHeaders buffer fuel headers connection_h host := by
  induction fuel generalizing headers connection_h host with
  | zero => rfl
  | succ fuel ih =>
    rw [scanHeaders,Handler.scanHeaders]
    simp only [result_bind,← result_atBlankLine]
    split
    · rfl
    simp only [result_bind,strchr,strstr,CMemory.strchr]
    cases CMemory.strstr buffer headers [58] with
    | none => rfl
    | some colon =>
      simp only
      split
      · rfl
      simp only [result_bind,copyString]
      cases CMemory.memcpy (array hNameSize) 0 (slice buffer headers (colon-headers)) with
      | none => rfl
      | some name_array =>
        simp only [Option.bind_eq_bind,Option.bind_some]
        cases CMemory.memcpy name_array (colon-headers) [0] with
        | none => rfl
        | some name_array =>
          simp only [result_bind,skipSpaces,Option.bind_some]
          cases CMemory.strstr buffer (Handler.skipSpaces buffer (colon+1)) crlf with
          | none => rfl
          | some header_val_end =>
            simp only
            split
            · rfl
            by_cases named : strcasecmp (cstring name_array 0) (ascii "host") = 0
            · rw [if_pos named,if_pos named]
              simp only [result_bind]
              cases CMemory.memcpy host 0 (slice buffer (Handler.skipSpaces buffer (colon+1))
                (header_val_end - Handler.skipSpaces buffer (colon+1))) with
              | none => rfl
              | some host =>
                simp only [Option.bind_some]
                cases CMemory.memcpy host (header_val_end - Handler.skipSpaces buffer (colon+1)) [0] with
                | none => rfl
                | some host => exact ih ..
            · rw [if_neg named,if_neg named]
              exact ih ..

theorem result_closeConnection (buffer : List Byte) (connection_h : Nat) :
    (closeConnection buffer connection_h).result = Handler.closeConnection buffer connection_h := by
  simp only [closeConnection,Handler.closeConnection,result_bind,strstr,strchr,CMemory.strchr]
  cases CMemory.strstr buffer connection_h crlf with
  | none => rfl
  | some header_end =>
    simp only [result_bind]
    cases CMemory.strstr buffer connection_h [58] with
    | none => rfl
    | some colon =>
      simp only [result_bind,skipSpaces,memcpy]
      cases CMemory.memcpy buffer (Handler.skipSpaces buffer (colon+1)) (ascii "close") with
      | none => rfl
      | some buffer =>
        simp only [Option.bind_eq_bind,Option.bind_some]
        split <;> rfl

theorem result_addConnection (buffer : List Byte) : (addConnection buffer).result = Handler.addConnection buffer := by
  simp only [addConnection,Handler.addConnection,result_bind,strstr]
  cases CMemory.strstr buffer 0 (ascii "\r\n\r\n") with
  | none => rfl
  | some headers_end =>
    simp only [result_bind,strlen,memmove]
    cases CMemory.memmove buffer (headers_end+connectionLine.length) headers_end
      (CMemory.strlen buffer headers_end + 1) with
    | none => rfl
    | some buffer => rfl

/-- The call with its accesses is the call. -/
theorem result_parseHeaders (buffer host : List Byte) :
    (parseHeaders buffer host).result = Handler.parseHeaders buffer host := by
  simp only [parseHeaders,Handler.parseHeaders,result_bind,strstr]
  cases CMemory.strstr buffer 0 crlf with
  | none => rfl
  | some line_end =>
    simp only [result_bind]
    cases CMemory.memcpy host 0 [0] with
    | none => rfl
    | some host =>
      simp only [result_bind,result_scanHeaders,Option.bind_eq_bind,Option.bind_some]
      cases Handler.scanHeaders buffer (buffer.length+1) (line_end+2) none host with
      | none => rfl
      | some scanned =>
        rcases scanned with message | ⟨_ | connection_h,host⟩
        · rfl
        · simp only [Option.bind_some]
          split
          · rfl
          · simp only [result_bind,result_addConnection]
            cases Handler.addConnection buffer <;> rfl
        · simp only [Option.bind_some]
          split
          · rfl
          · simp only [result_bind,result_closeConnection]
            cases Handler.closeConnection buffer connection_h <;> rfl

/-! ### Where the operations read and write -/

variable {text rest : List Byte} {P : Access → Prop}

theorem within_span {access : Nat → Access} {p n : Nat} (all : ∀ i < n, P (access (p+i))) :
    ∀ a ∈ span access p n, P a := by
  intro a member
  obtain ⟨q,inside,rfl⟩ := List.mem_map.mp member
  obtain ⟨i,bound,rfl⟩ := List.mem_range'.mp inside
  rw [Nat.one_mul]
  exact all i bound

theorem strstr_within (noNul : 0 ∉ text) {p : Nat} (inside : p ≤ text.length) (needle : List Byte)
    (reads : ∀ q ≤ text.length, P (.read q)) : (strstr (text ++ 0 :: rest) p needle).Within P := by
  refine within_span fun i bound => reads _ ?_
  rw [strlen_text noNul inside] at bound
  omega

theorem strlen_within (noNul : 0 ∉ text) {p : Nat} (inside : p ≤ text.length)
    (reads : ∀ q ≤ text.length, P (.read q)) : (strlen (text ++ 0 :: rest) p).Within P :=
  strstr_within noNul inside [] reads

theorem leadingSpaces_le (text : List Byte) : leadingSpaces text ≤ text.length :=
  (List.takeWhile_prefix _).length_le

theorem skipSpaces_le {p : Nat} (inside : p ≤ text.length) :
    Handler.skipSpaces (text ++ 0 :: rest) p ≤ text.length := by
  have spaces := leadingSpaces_le (text.drop p)
  rw [List.length_drop] at spaces
  rw [skipSpaces_text inside]
  omega

theorem skipSpaces_within {p : Nat} (inside : p ≤ text.length) (reads : ∀ q ≤ text.length, P (.read q)) :
    (skipSpaces (text ++ 0 :: rest) p).Within P := by
  refine within_span fun i bound => reads _ ?_
  have := @skipSpaces_le text rest p inside
  omega

/-- What a search finds stands in the text, behind where the search starts. -/
theorem strstr_inside (noNul : 0 ∉ text) {p q : Nat} {needle : List Byte} (inside : p ≤ text.length)
    (found : CMemory.strstr (text ++ 0 :: rest) p needle = some q) : p ≤ q ∧ q + needle.length ≤ text.length := by
  rw [strstr_text noNul inside] at found
  obtain ⟨i,here,rfl⟩ := Option.map_eq_some_iff.mp found
  have bound := search_bound here
  rw [List.length_drop] at bound
  omega

theorem copyString_within {writeTo : Nat → Access} {memory buffer : List Byte} {p n size : Nat}
    (reads : ∀ q < p + n, P (.read q)) (writes : ∀ q < size, P (writeTo q)) (short : n < size) :
    (copyString writeTo memory buffer p n).Within P := by
  intro a member
  rcases List.mem_append.mp member with read | written
  · exact within_span (fun i bound => reads _ (by omega)) a read
  · exact within_span (fun i bound => writes _ (by omega)) a written

/-- The second byte of an empty line is only read when the first one is not the
    NUL. -/
theorem atBlankLine_within {p : Nat} (inside : p ≤ text.length) (reads : ∀ q ≤ text.length, P (.read q)) :
    (atBlankLine (text ++ 0 :: rest) p).Within P := by
  refine Within.bind (by simpa [Within,readByte] using reads p inside) ?_
  split
  · rename_i carriage
    have more : p ≠ text.length := by
      rintro rfl
      simp [readByte] at carriage
    refine Within.bind ?_ (within_pure _)
    have next := reads (p+1) (by omega)
    simpa [Within,readByte] using next
  · exact within_pure _

/-! ### The loop and the replacement -/

/-- What the loop may access: the text and its NUL, and no byte of it for a write,
    and the arrays below their sizes. -/
def OfLoop (text : List Byte) : Access → Prop
  | .read p => p ≤ text.length
  | .write _ => False
  | .writeName p => p < hNameSize
  | .writeHost p => p < hValSize

/-- What the replacement of a `Connection` header may access. -/
def OfReplacement (text : List Byte) : Access → Prop
  | .read p => p ≤ text.length
  | .write p => p ≤ text.length
  | .writeName _ => False
  | .writeHost _ => False

/-- What may be accessed when the buffer is not modified. -/
def NoWrite (a : Access) : Prop := ∀ p, a ≠ .write p

theorem scanHeaders_within (noNul : 0 ∉ text) (rest : List Byte) (fuel : Nat) {headers : Nat}
    (connection_h : Option Nat) (host : List Byte) (inside : headers ≤ text.length) :
    (scanHeaders (text ++ 0 :: rest) fuel headers connection_h host).Within (OfLoop text) := by
  have reads : ∀ q ≤ text.length, OfLoop text (.read q) := fun _ bound => bound
  induction fuel generalizing headers connection_h host with
  | zero => exact within_pure _
  | succ fuel ih =>
    rw [scanHeaders]
    refine Within.bind (atBlankLine_within inside reads) ?_
    split
    · exact within_pure _
    refine Within.bind (strstr_within noNul inside [58] reads) ?_
    cases foundColon : (strchr (text ++ 0 :: rest) headers 58).result with
    | none => exact within_pure _
    | some colon =>
      have colonIn := strstr_inside noNul inside foundColon
      rw [List.length_singleton] at colonIn
      have behind : colon + 1 ≤ text.length := colonIn.2
      simp only
      split
      · exact within_pure _
      rename_i sizes
      refine Within.bind (copyString_within (fun q bound => reads q (by omega)) (fun _ bound => bound) (by omega)) ?_
      split
      · exact within_pure _
      refine Within.bind (skipSpaces_within behind reads) ?_
      have valueStart : (skipSpaces (text ++ 0 :: rest) (colon+1)).result ≤ text.length := skipSpaces_le behind
      generalize (skipSpaces (text ++ 0 :: rest) (colon+1)).result = header_val_start at valueStart ⊢
      refine Within.bind (strstr_within noNul valueStart crlf reads) ?_
      cases foundEnd : (strstr (text ++ 0 :: rest) header_val_start crlf).result with
      | none => exact within_pure _
      | some header_val_end =>
        have endIn := strstr_inside noNul valueStart foundEnd
        have next : header_val_end + 2 ≤ text.length := endIn.2
        simp only
        split
        · exact within_pure _
        rename_i lengths
        split
        · refine Within.bind (copyString_within (fun q bound =>
            reads q (by omega)) (fun _ bound => bound) (by omega)) ?_
          split
          · exact within_pure _
          · exact ih _ _ next
        · exact Within.bind (within_pure _) (ih _ _ next)

/-- The value is written over, and less than five bytes of it leave the empty line
    behind the header as room. -/
theorem closeConnection_within (noNul : 0 ∉ text) {h : Nat} {line : HeaderLine} (found : Found text rest h line) :
    (closeConnection (text ++ 0 :: rest) h).Within (OfReplacement text) := by
  have reads : ∀ q ≤ text.length, OfReplacement text (.read q) := fun _ bound => bound
  have valueIn := found.inside
  have filled := found.filled
  have inside : h ≤ text.length := by omega
  have colonIn : h + line.name.length + 1 ≤ text.length := by rw [HeaderLine.valueStart] at valueIn; omega
  have five : (ascii "close").length = 5 := by decide
  refine Within.bind_of_result (strstr_within noNul inside crlf reads) found.ending ?_
  refine Within.bind_of_result (strstr_within noNul inside [58] reads) found.colon ?_
  refine Within.bind_of_result (skipSpaces_within colonIn reads) found.value ?_
  refine Within.bind_of_result (within_span fun i bound => ?_) (memcpy_text (by omega)) ?_
  · change h + line.valueStart + i ≤ text.length
    omega
  have clean : 0 ∉ overwrite text (h+line.valueStart) (ascii "close") := fun member =>
    (mem_overwrite member).elim noNul (by decide)
  have length : (overwrite text (h+line.valueStart) (ascii "close")).length = text.length := overwrite_length (by omega)
  generalize overwrite text (h+line.valueStart) (ascii "close") = text' at clean length ⊢
  have endIn : h + line.valueStart + line.value.length ≤ text'.length := by omega
  simp only
  split
  · refine Within.bind_of_result (strlen_within clean endIn (by rw [length]; exact reads)) (strlen_text clean endIn) ?_
    intro a member
    rcases List.mem_append.mp member with read | written
    · refine within_span (fun i bound => ?_) a read
      change h + line.valueStart + line.value.length + i ≤ text.length
      omega
    · refine within_span (fun i bound => ?_) a written
      change h + line.valueStart + 5 + i ≤ text.length
      omega
  · exact within_pure _

/-! ### The call -/

/-- A loop that has ended does not need more fuel. -/
theorem scanHeaders_more {buffer : List Byte} {fuel headers : Nat} {connection_h : Option Nat} {host : List Byte}
    {outcome : Except (List Byte) (Option Nat × List Byte)}
    (ended : Handler.scanHeaders buffer fuel headers connection_h host = some outcome) (more : Nat) :
    Handler.scanHeaders buffer (fuel+more) headers connection_h host = some outcome := by
  induction fuel generalizing headers connection_h host with
  | zero => cases ended
  | succ fuel ih =>
    rw [Nat.add_right_comm]
    rw [Handler.scanHeaders] at ended ⊢
    by_cases blank : buffer[headers]? = some 13 ∧ buffer[headers+1]? = some 10
    · rwa [if_pos blank] at ended ⊢
    rw [if_neg blank] at ended ⊢
    revert ended
    cases CMemory.strchr buffer headers 58 with
    | none => exact id
    | some colon =>
      simp only
      by_cases sizes : colon - headers = 0 ∨ hNameSize ≤ colon - headers
      · rw [if_pos sizes,if_pos sizes]
        exact id
      rw [if_neg sizes,if_neg sizes]
      intro ended
      obtain ⟨copied,first,ended⟩ := Option.bind_eq_some_iff.mp ended
      obtain ⟨name_array,second,ended⟩ := Option.bind_eq_some_iff.mp ended
      simp only [first,second,Option.bind_eq_bind,Option.bind_some]
      revert ended
      generalize Handler.skipSpaces buffer (colon+1) = header_val_start
      cases CMemory.strstr buffer header_val_start crlf with
      | none => exact id
      | some header_val_end =>
        simp only
        by_cases lengths : header_val_end - header_val_start = 0 ∨ hValSize ≤ header_val_end - header_val_start
        · rw [if_pos lengths,if_pos lengths]
          exact id
        rw [if_neg lengths,if_neg lengths]
        intro ended
        split at ended
        · rw [if_pos ‹_›]
          obtain ⟨copied,third,ended⟩ := Option.bind_eq_some_iff.mp ended
          obtain ⟨host,fourth,ended⟩ := Option.bind_eq_some_iff.mp ended
          rw [third,Option.bind_some,fourth]
          exact ih ended
        · rw [if_neg ‹_›]
          exact ih ended

/-- How `parse_headers` keeps to a text of a buffer: it enters the loop inside the
    text, the loop ends and keeps to its arrays, and the replacement of a
    `Connection` header that the loop has found keeps to the text; a text that is
    refused stays as it is. -/
structure Contained (text rest host : List Byte) : Prop where
  entered : ∀ line_end, (strstr (text ++ 0 :: rest) 0 crlf).result = some line_end → line_end + 2 ≤ text.length
  ends : ∀ headers connection_h, headers ≤ text.length →
    ∃ outcome, ∀ fuel, text.length < fuel →
      (scanHeaders (text ++ 0 :: rest) fuel headers connection_h host).result = some outcome
  bounded : ∀ fuel headers connection_h, headers ≤ text.length →
    (scanHeaders (text ++ 0 :: rest) fuel headers connection_h host).Within (OfLoop text)
  replaced : ∀ fuel headers h host', headers ≤ text.length →
    (scanHeaders (text ++ 0 :: rest) fuel headers none host).result = some (.ok (some h,host')) →
      (closeConnection (text ++ 0 :: rest) h).Within (OfReplacement text)
  refused : ∀ message buffer, (parseHeaders (text ++ 0 :: rest) host).result = some (.error message,buffer) →
    buffer = text ++ 0 :: rest ∧ (parseHeaders (text ++ 0 :: rest) host).Within NoWrite

theorem scanHeaders_ends (noNul : 0 ∉ text) (rest : List Byte) {host : List Byte} (size : host.length = hValSize)
    {headers : Nat} (connection_h : Option Nat) (inside : headers ≤ text.length) :
    ∃ outcome, ∀ fuel, text.length < fuel →
      (scanHeaders (text ++ 0 :: rest) fuel headers connection_h host).result = some outcome := by
  have ended : ∃ outcome, Handler.scanHeaders (text ++ 0 :: rest) (text.length+1) headers connection_h host =
      some outcome := by
    rcases scanHeaders_text noNul rest connection_h inside (by omega :
      text.length - headers < text.length + 1) size with
      ⟨_,_,scanned⟩ | ⟨_,_,refused⟩
    · exact ⟨_,scanned⟩
    · exact ⟨_,refused⟩
  obtain ⟨outcome,ended⟩ := ended
  refine ⟨outcome,fun fuel enough => ?_⟩
  obtain ⟨more,rfl⟩ := Nat.exists_eq_add_of_le enough
  rw [result_scanHeaders]
  exact scanHeaders_more ended more

theorem found_of_scanHeaders (noNul : 0 ∉ text) (rest : List Byte) {host host' : List Byte}
    (size : host.length = hValSize) {fuel headers h : Nat} (inside : headers ≤ text.length)
    (scanned : Handler.scanHeaders (text ++ 0 :: rest) fuel headers none host = some (.ok (some h,host'))) :
    ∃ line, Found text rest h line := by
  have more := scanHeaders_more scanned (text.length+1)
  rcases scanHeaders_text noNul rest none inside (by omega : text.length - headers < fuel + (text.length+1)) size with
    ⟨lines,read,same⟩ | ⟨_,_,refused⟩
  · rw [same,Option.or_none] at more
    simp only [Option.some.injEq,Except.ok.injEq,Prod.mk.injEq] at more
    obtain ⟨⟨_,line⟩,last,rfl⟩ := Option.map_eq_some_iff.mp more.1
    obtain ⟨starts,named,behind⟩ := lastConnection_spec read last
    exact ⟨line,found_of_startsWith noNul rest starts named behind⟩
  · rw [refused] at more
    cases more

theorem refused_unchanged (noNul : 0 ∉ text) {host message buffer : List Byte}
    (refused : (parseHeaders (text ++ 0 :: rest) host).result = some (.error message,buffer)) :
    buffer = text ++ 0 :: rest ∧ (parseHeaders (text ++ 0 :: rest) host).Within NoWrite := by
  have searched : (strstr (text ++ 0 :: rest) 0 crlf).Within NoWrite :=
    strstr_within noNul (Nat.zero_le _) crlf nofun
  have emptying : Traced.Within NoWrite (⟨[.writeHost 0],CMemory.memcpy host 0 [0]⟩ : Traced Access _) := by
    intro a member p
    cases List.mem_singleton.mp member
    nofun
  rw [parseHeaders,result_bind] at refused
  cases found : (strstr (text ++ 0 :: rest) 0 crlf).result with
  | none =>
    rw [found] at refused
    cases refused
    refine ⟨rfl,?_⟩
    rw [parseHeaders]
    exact searched.bind_of_result found (within_pure _)
  | some line_end =>
    rw [found] at refused
    simp only [result_bind] at refused
    have inside : line_end + 2 ≤ text.length := (strstr_inside noNul (Nat.zero_le _) found).2
    cases emptied : CMemory.memcpy host 0 [0] with
    | none =>
      rw [emptied] at refused
      cases refused
    | some empty =>
      rw [emptied] at refused
      simp only [result_bind] at refused
      have looped := (scanHeaders_within noNul rest ((text ++ 0 :: rest).length+1) none empty inside).mono
        (Q := NoWrite) (by rintro _ writes p rfl; exact writes)
      cases scanned : (scanHeaders (text ++ 0 :: rest) ((text ++ 0 :: rest).length+1)
        (line_end+2) none empty).result with
      | none =>
        rw [scanned] at refused
        cases refused
      | some outcome =>
        rw [scanned] at refused
        rcases outcome with message | ⟨connection_h,host⟩
        · cases refused
          refine ⟨rfl,?_⟩
          rw [parseHeaders]
          exact searched.bind_of_result found (emptying.bind_of_result emptied
            (looped.bind_of_result scanned (within_pure _)))
        · simp only at refused
          split at refused
          · rename_i missing
            cases refused
            refine ⟨rfl,?_⟩
            rw [parseHeaders]
            refine searched.bind_of_result found (emptying.bind_of_result emptied (looped.bind_of_result scanned ?_))
            simp only [if_pos missing]
            exact within_pure _
          · rcases connection_h with _ | connection_h <;>
            · obtain ⟨_,_,same⟩ := Option.map_eq_some_iff.mp refused
              cases same

/-- A text keeps to itself and to the arrays, whatever it holds. -/
theorem parseHeaders_contained (noNul : 0 ∉ text) (rest : List Byte) {host : List Byte}
    (size : host.length = hValSize) :
    Contained text rest host := by
  constructor
  case entered => exact fun line_end found => (strstr_inside noNul (Nat.zero_le _) found).2
  case ends => exact fun headers connection_h inside => scanHeaders_ends noNul rest size connection_h inside
  case bounded =>
    intro fuel headers connection_h inside
    exact scanHeaders_within noNul rest fuel connection_h host inside
  case replaced =>
    intro fuel headers h host' inside scanned
    rw [result_scanHeaders] at scanned
    obtain ⟨line,found⟩ := found_of_scanHeaders noNul rest size inside scanned
    exact closeConnection_within noNul found
  case refused => exact fun message buffer refused => refused_unchanged noNul refused

/-- A request with a `Connection` header of one byte. -/
theorem parseHeaders_contained_shortValue :
    (0 ∉ ascii "GET / HTTP/1.1\r\nHost: a\r\nConnection: x\r\n\r\n" ∧ (array hValSize).length = hValSize) ∧
      Contained (ascii "GET / HTTP/1.1\r\nHost: a\r\nConnection: x\r\n\r\n") (array 100) (array hValSize) :=
  ⟨⟨by decide,array_length _⟩,parseHeaders_contained (by decide) _ (array_length _)⟩

end Os5Sem.HeaderAccesses

import Os5Sem.HeaderReading
import Os5Sem.RequestLine
import Os5Sem.Segmentation

/-!
The room that the edits of a request need in the buffer. The version and the
`Connection` header are overwritten in place and the URL is taken out, but a
`Connection` header that is put in needs 20 more bytes, and nothing in the code
checks for them (`stays_inside_iff`).
-/
namespace Os5Sem.BufferRoom
open Os5Sem.Occurrences Os5Sem.CMemory Os5Sem.Handler Os5Sem.RequestText Os5Sem.RequestLength Os5Sem.Forwarding
open Os5Sem.Segmentation Os5Sem.RequestLine Os5Sem.HeaderReading

/-- There is a host among the headers, and no `Connection` header. -/
def Unconnected (text : List Byte) : Prop :=
  ∃ headers lines, headerSection text = some (headers,lines) ∧
    (∃ line ∈ lines, line.Named "host") ∧ ∀ line ∈ lines, ¬ line.Named "connection"

/-- The parsers take the text, and put a `Connection` header into it. -/
def Extended (text : List Byte) : Prop := (∃ p, parts text = some p ∧ p.Taken) ∧ Unconnected text

variable {text : List Byte}

theorem unconnected_iff : Unconnected text ↔
    ∃ headers lines value, Reads text headers lines value ∧ lastConnection headers lines = none := by
  constructor
  · rintro ⟨headers,lines,is,⟨line,member,named⟩,free⟩
    have hosted : hostOf lines ≠ none := fun none => hostOf_eq_none.mp none line member named
    obtain ⟨value,found⟩ := Option.ne_none_iff_exists'.mp hosted
    exact ⟨headers,lines,value,⟨is,found⟩,lastConnection_eq_none.mpr free⟩
  · rintro ⟨headers,lines,value,⟨is,found⟩,none⟩
    refine ⟨headers,lines,is,?_,lastConnection_eq_none.mp none⟩
    by_contra missing
    push Not at missing
    rw [hostOf_eq_none.mpr missing] at found
    cases found

/-- The edit of the version does not matter. -/
theorem unconnected_blur (noNul : 0 ∉ text) : Unconnected (text.map blur) ↔ Unconnected text := by
  have blurred := headerSection_blur text
  cases is : headerSection text with
  | none =>
    rw [is] at blurred
    exact iff_of_false (fun ⟨_,_,other,_⟩ => nomatch blurred.symm.trans other) fun ⟨_,_,other,_⟩ =>
      nomatch is.symm.trans other
  | some found =>
    obtain ⟨headers,lines⟩ := found
    rw [is] at blurred
    have names := scanLines_noNul (fun member => noNul (List.mem_of_mem_drop member)) (scanLines_of_headerSection is)
    have host : ∀ line ∈ lines, (blurLine line).Named "host" ↔ line.Named "host" := fun line member =>
      named_blur (names line member) (by decide) (by decide) (by decide)
    have connection : ∀ line ∈ lines, (blurLine line).Named "connection" ↔ line.Named "connection" := fun line member =>
      named_blur (names line member) (by decide) (by decide) (by decide)
    constructor
    · rintro ⟨_,_,same,⟨line,member,named⟩,free⟩
      cases blurred.symm.trans same
      obtain ⟨plain,inside,rfl⟩ := List.mem_map.mp member
      refine ⟨headers,lines,is,⟨plain,inside,(host plain inside).mp named⟩,fun other member is => ?_⟩
      exact free _ (List.mem_map_of_mem member) ((connection other member).mpr is)
    · rintro ⟨_,_,same,⟨line,member,named⟩,free⟩
      cases is.symm.trans same
      refine ⟨headers,_,blurred,⟨_,List.mem_map_of_mem member,(host line member).mpr named⟩,fun other read is => ?_⟩
      obtain ⟨plain,inside,rfl⟩ := List.mem_map.mp read
      exact free plain inside ((connection plain inside).mp is)

/-! ### The handler -/

variable {buffer request : List Byte} {env : Env}

/-- The handler writes outside of an array exactly when `parse_headers` does. -/
theorem handleClient_none (size : buffer.length = buffSize) (received : env.request = some request)
    (filled : request ≠ []) (fits : request.length < buffSize) :
    handleClient buffer env = none ↔
      ∃ first, parseRequestLine (overwrite buffer 0 (request ++ [0])) = some (.ok (),first) ∧
        parseHeaders first (array hValSize) = none := by
  rcases handleClient_outcome size received filled fits with ⟨refused,out,handled,_⟩ | ⟨first,parsed,outcome⟩
  · rw [handled]
    apply iff_of_false nofun
    rintro ⟨first,parsed,none⟩
    exact refused ⟨first,parsed,fun _ _ => by rw [none]; nofun⟩
  rcases outcome with ⟨none,overflow⟩ | ⟨host,second,out,taken,handled,_⟩
  · exact iff_of_true overflow ⟨first,parsed,none⟩
  · rw [handled]
    apply iff_of_false nofun
    rintro ⟨first',parsed',none⟩
    cases parsed.symm.trans parsed'
    rw [taken] at none
    cases none

theorem takeWhile_of_text {rest rest' : List Byte} (noNul : 0 ∉ text)
    (same : request ++ 0 :: rest = text ++ 0 :: rest') : request.takeWhile (· ≠ 0) = text := by
  have front := congrArg (cstring · 0) same
  simp only [cstring_text noNul (Nat.zero_le _),List.drop_zero] at front
  rw [cstring,List.drop_zero,List.takeWhile_append] at front
  split at front
  · rename_i all
    rw [← front,(List.takeWhile_prefix _).eq_of_length all]
    simp
  · exact front

/-- The call of `parse_headers` leaves the buffer exactly when a `Connection` header
    is put in, and 20 bytes more than the text do not fit. -/
theorem parseHeaders_none {rest host : List Byte} (noNul : 0 ∉ text) (size : host.length = hValSize) :
    parseHeaders (text ++ 0 :: rest) host = none ↔ Unconnected text ∧ rest.length < 20 := by
  rw [unconnected_iff]
  rcases parseHeaders_reads noNul rest size with ⟨⟨message,after,refused⟩,missing⟩ | ⟨headers,lines,value,_,reads,_⟩
  · rw [refused]
    apply iff_of_false nofun
    rintro ⟨⟨headers,lines,value,reads,_⟩,_⟩
    exact missing headers lines value reads
  rcases parseHeaders_of_reads noNul rest size reads with ⟨room,_,_,_,_,parsed⟩ | ⟨none,full,overflow⟩
  · rw [parsed]
    apply iff_of_false nofun
    rintro ⟨⟨headers',lines',_,reads',none⟩,full⟩
    obtain ⟨rfl,rfl,rfl⟩ := reads_unique reads' reads
    have := room none
    omega
  · exact iff_of_true overflow ⟨⟨headers,lines,value,reads,none⟩,full⟩

/-- The handler leaves its buffer exactly when the text is one into which it puts a
    `Connection` header, and 20 bytes more than the text do not fit. -/
theorem overgrows_iff (size : buffer.length = buffSize) (received : env.request = some request)
    (filled : request ≠ []) (fits : request.length < buffSize) :
    handleClient buffer env = none ↔
      Extended (request.takeWhile (· ≠ 0)) ∧ buffSize ≤ (request.takeWhile (· ≠ 0)).length + 20 := by
  rw [handleClient_none size received filled fits]
  obtain ⟨text,rest,is_text,noNul,_⟩ := text_of_received request (buffer.drop (request.length+1))
  rw [overwrite_text,is_text,takeWhile_of_text noNul is_text,Extended,← accepts_iff_taken noNul rest]
  have lengths := congrArg List.length is_text
  simp only [List.length_append,List.length_cons,List.length_drop,size] at lengths
  have full : rest.length < 20 ↔ buffSize ≤ text.length + 20 := by omega
  rcases parseRequestLine_text noNul rest with ⟨message,refused,_⟩ | ⟨first,parsed,version⟩
  · rw [refused]
    refine iff_of_false (fun ⟨_,taken,_⟩ => nomatch taken) fun ⟨⟨⟨_,taken⟩,_⟩,_⟩ => nomatch taken
  have noNul' := (versioned_keeps noNul version).2
  obtain ⟨p,rfl,_,digits⟩ := versioned_spec noNul version
  have same : Unconnected (overwrite text p (ascii "HTTP/1.1")) ↔ Unconnected text := by
    rw [← unconnected_blur noNul',version_blur digits,unconnected_blur noNul]
  have hostSize := array_length hValSize
  rw [parsed]
  constructor
  · rintro ⟨_,is,overflow⟩
    cases is
    obtain ⟨unconnected,short⟩ := (parseHeaders_none noNul' hostSize).mp overflow
    exact ⟨⟨⟨_,rfl⟩,same.mp unconnected⟩,full.mp short⟩
  · rintro ⟨⟨_,unconnected⟩,long⟩
    exact ⟨_,rfl,(parseHeaders_none noNul' hostSize).mpr ⟨same.mpr unconnected,full.mpr long⟩⟩

/-- Whatever is written to the buffer for a request that fits into it with its NUL
    stays inside of it, exactly when a text into which a `Connection` header is put
    leaves room for 20 more bytes. -/
theorem stays_inside_iff (size : buffer.length = buffSize) (received : env.request = some request)
    (filled : request ≠ []) (fits : request.length < buffSize) :
    (∃ out, handleClient buffer env = some out) ↔
      (Extended (request.takeWhile (· ≠ 0)) → (request.takeWhile (· ≠ 0)).length + 20 < buffSize) := by
  rw [← Option.ne_none_iff_exists',ne_eq,overgrows_iff size received filled fits,not_and,Nat.not_le]

/-- As many bytes as the handler reads: a request without a `Connection` header, and
    a body behind it. -/
def largest : List Byte := hostOnly ++ List.replicate (buffSize-1-hostOnly.length) 120

theorem largest_length : largest.length = buffSize-1 := by
  rw [largest,List.length_append,List.length_replicate]
  decide

theorem largest_text : largest.takeWhile (· ≠ 0) = largest := by
  have clean : 0 ∉ hostOnly := by decide
  refine List.takeWhile_eq_self_iff.mpr fun c member => ?_
  rw [decide_eq_true_iff]
  rcases List.mem_append.mp member with front | body
  · intro zero
    exact clean (zero ▸ front)
  · rw [(List.mem_replicate.mp body).2]
    decide

theorem extended_hostOnly (body : List Byte) : Extended (hostOnly ++ body) := by
  let p : Parts := ⟨[],ascii "GET",[32],ascii "/",[32],ascii "HTTP/1.1",ascii "\r\nHost: a.b\r\n\r\n" ++ body⟩
  have isParts : parts (hostOnly ++ body) = some p := rfl
  have is : headerSection (hostOnly ++ body) = some (16,[⟨ascii "Host",1,ascii "a.b"⟩]) := rfl
  have get : strncmp (ascii "GET") (ascii "GET") 3 = 0 := by decide
  have known : strncmp (ascii "HTTP/1.1") (ascii "HTTP/1.1") 8 = 0 := by decide
  exact ⟨⟨p,isParts,get,.inr known⟩,16,_,is,by decide,by decide⟩

theorem outgrown : largest.length < buffSize ∧ handleClient (array buffSize) (serving largest) = none := by
  have short : largest.length < buffSize := by rw [largest_length]; decide
  have filled : largest ≠ [] := List.append_ne_nil_of_left_ne_nil (by decide) _
  refine ⟨short,(overgrows_iff (array_length _) rfl filled short).mpr ?_⟩
  rw [largest_text,largest_length]
  exact ⟨extended_hostOnly _,by decide⟩

theorem stays_inside_iff_hostOnly :
    (∃ out, handleClient (array buffSize) (serving hostOnly) = some out) ↔
      (Extended (hostOnly.takeWhile (· ≠ 0)) → (hostOnly.takeWhile (· ≠ 0)).length + 20 < buffSize) :=
  stays_inside_iff (array_length _) rfl (by decide) (by decide)

end Os5Sem.BufferRoom

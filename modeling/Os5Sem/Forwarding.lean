import Os5Sem.RequestLength

/-!
What the handler sends to the remote server. It counts the bytes of a request when
it reads it, and sends as many after the edits: all of the rewritten request and
nothing else exactly for the requests that keep their length (`forwards_iff_balanced`).
-/
namespace Os5Sem.Forwarding
open Os5Sem.Occurrences Os5Sem.CMemory Os5Sem.Handler Os5Sem.RequestText Os5Sem.RequestLength

/-- The handler gets to send the request: the parsers take it, the remote server is
    reached, and its socket takes all bytes, at least one with each write. -/
structure Sends (buffer : List Byte) (env : Env) (request : List Byte) : Prop where
  size : buffer.length = buffSize
  received : env.request = some request
  filled : request ≠ []
  fits : request.length < buffSize
  noNul : 0 ∉ request
  parsed : ∃ first, parseRequestLine (overwrite buffer 0 (request ++ [0])) = some (.ok (),first) ∧
    (∀ message after, parseHeaders first (array hValSize) ≠ some (.error message,after)) ∧
    ∀ host after, parseHeaders first (array hValSize) = some (.ok host,after) →
      ∃ server, resolveHost env.getaddrinfo host = some (some server)
  socket : env.socket = true
  connect : env.connect = true
  taking : ∀ n ∈ env.remoteWrites, 0 < n
  enough : request.length ≤ (env.remoteWrites.map Int.toNat).sum

/-! ### The parts of the handler -/

/-- However the bytes are split, the loop writes them in order and each once. -/
theorem writeLoop_done (buffer : List Byte) {total : Nat} {results : List Int} (taking : ∀ n ∈ results, 0 < n)
    {sent : Nat} (enough : total ≤ sent + (results.map Int.toNat).sum) :
    ∃ left, writeLoop buffer total sent results = (slice buffer sent (total-sent),.done,left) := by
  induction results generalizing sent with
  | nil =>
    have all : ¬ sent < total := by simpa using enough
    refine ⟨[],?_⟩
    rw [writeLoop,if_neg all,Nat.sub_eq_zero_of_le (by omega)]
    rfl
  | cons n results ih =>
    rw [writeLoop]
    split
    · have positive := taking n List.mem_cons_self
      rw [if_neg (by omega)]
      rw [List.map_cons,List.sum_cons] at enough
      obtain ⟨left,onward⟩ := ih (fun m member => taking m (List.mem_cons_of_mem n member))
        (by omega : total ≤ sent + min n.toNat (total-sent) + (results.map Int.toNat).sum)
      refine ⟨left,?_⟩
      simp only [onward]
      have parts : slice buffer sent (total-sent) = slice buffer sent (min n.toNat (total-sent)) ++
          slice buffer (sent + min n.toNat (total-sent)) (total - (sent + min n.toNat (total-sent))) := by
        rw [slice,slice,slice,← List.drop_drop,← List.take_add]
        congr 1
        omega
      rw [parts]
    · refine ⟨n :: results,?_⟩
      rw [Nat.sub_eq_zero_of_le (by omega)]
      rfl

/-- The name and the port of the host are found without leaving the arrays. -/
theorem resolveHost_total (getaddrinfo : List Byte → Option Nat) {host : List Byte} (size : host.length = hValSize) :
    ∃ name port, resolveHost getaddrinfo host = some ((getaddrinfo name).map fun addr => ⟨addr,port⟩) := by
  have string : (cstring host 0).length ≤ hValSize := by
    have := (List.takeWhile_prefix (fun c : Byte => decide (c ≠ 0)) (l := host.drop 0)).length_le
    rw [List.drop_zero,size] at this
    exact this
  have copies : ∀ {bytes : List Byte} {last : Nat}, bytes.length ≤ hValSize → last < hValSize →
      ∃ first name, memcpy (array hValSize) 0 bytes = some first ∧ memcpy first last [0] = some name := by
    intro bytes last short inside
    have length := array_length hValSize
    have fits : 0 + bytes.length ≤ (array hValSize).length := by omega
    refine ⟨overwrite (array hValSize) 0 bytes,_,if_pos fits,if_pos ?_⟩
    rw [overwrite_length fits,length,List.length_singleton]
    omega
  rw [resolveHost]
  cases found : strchr host 0 58 with
  | none =>
    obtain ⟨first,name,copied,ended⟩ := copies (List.length_take_le' .. |>.trans string :
      ((cstring host 0).take hValSize).length ≤ _)
      (by decide : hValSize-1 < hValSize)
    refine ⟨cstring name 0,(httpPort % 65536).toNat,?_⟩
    simp only [copied,ended,Option.bind_eq_bind,Option.bind_some,Option.pure_def]
  | some colon =>
    obtain ⟨at_colon,is,same⟩ := Option.map_eq_some_iff.mp found
    have inside := search_bound is
    rw [List.length_singleton] at inside
    have short : (slice host 0 colon).length ≤ hValSize := by
      rw [slice,List.length_take]; omega
    obtain ⟨first,name,copied,ended⟩ := copies short (by omega : colon < hValSize)
    let port := atoi (cstring host (colon+1))
    refine ⟨cstring name 0,((if port = 0 then httpPort else port) % 65536).toNat,?_⟩
    simp only [copied,ended,Option.bind_eq_bind,Option.bind_some,Option.pure_def]
    rfl

/-! ### The rewritten request -/

variable {buffer : List Byte} {env : Env} {request : List Byte}

/-- The text with its `Connection` header closed, or with one put in. -/
def reconnected (text : List Byte) : Option (Nat × HeaderLine) → List Byte
  | some (h,line) => closed text (h+line.valueStart) line.value.length
  | none =>
    match search (ascii "\r\n\r\n") text with
    | none => text
    | some e => text.take e ++ connectionLine ++ text.drop e

/-- A request after all its edits. -/
def rewritten (request : List Byte) : Option (List Byte) := do
  let first ← versioned request
  let (headers,lines) ← headerSection first
  return urlRemoved (reconnected first (lastConnection headers lines))

/-- The buffer has room for a `Connection` header that is put in. -/
def Roomy (text : List Byte) (last : Option (Nat × HeaderLine)) : Prop := last = none → text.length + 20 < buffSize

theorem reconnected_noNul {text : List Byte} (noNul : 0 ∉ text) (last : Option (Nat × HeaderLine)) :
    0 ∉ reconnected text last := by
  have front : ∀ k, 0 ∉ text.take k := fun k member => noNul (List.mem_of_mem_take member)
  have back : ∀ k, 0 ∉ text.drop k := fun k member => noNul (List.mem_of_mem_drop member)
  have five : 0 ∉ ascii "close" := by decide
  have line_clean : 0 ∉ connectionLine := by decide
  unfold reconnected
  split
  · rw [closed]
    split
    · simp [front,back,five]
    · intro member
      exact (mem_overwrite member).elim noNul five
  · split
    · exact noNul
    · simp [front,back,line_clean]

theorem urlRemoved_noNul {text : List Byte} (noNul : 0 ∉ text) : 0 ∉ urlRemoved text := by
  rw [urlRemoved]
  split
  · exact noNul
  · intro member
    rcases List.mem_append.mp member with front | back
    · exact noNul (List.mem_of_mem_take front)
    · exact noNul (List.mem_of_mem_drop back)

/-- The edits leave the length as it is, and the buffer has room for them, for the
    requests that are balanced. -/
theorem rewritten_length {first : List Byte} {headers : Nat} {lines : List HeaderLine}
    (is : headerSection first = some (headers,lines))
    (nonempty : lines ≠ []) :
    Roomy first (lastConnection headers lines) ∧
      (urlRemoved (reconnected first (lastConnection headers lines))).length = first.length ↔ Balanced first := by
  rw [balanced_iff is]
  cases last : lastConnection headers lines with
  | some found =>
    obtain ⟨h,line⟩ := found
    obtain ⟨starts,_,more⟩ := lastConnection_spec (scanLines_of_headerSection is) last
    have inside : h + line.valueStart + line.value.length + 4 ≤ first.length := by rw [HeaderLine.length] at more; omega
    rw [reconnected,closed_length starts.filled inside]
    exact and_iff_right fun absent => by cases absent
  | none =>
    obtain ⟨e,found⟩ := headersEnd_of_headerSection is nonempty
    rw [reconnected,found]
    simp only [inserted_length found,Roomy,FitsLine,true_imp_iff,found,Option.some.injEq]
    simp

/-! ### The handler -/

theorem overwrite_text {buffer request : List Byte} :
    overwrite buffer 0 (request ++ [0]) = request ++ 0 :: buffer.drop (request.length+1) := by
  simp [overwrite]

/-- The bytes behind the NUL that are needed for the edit of the `Connection` header. -/
def needed : Option (Nat × HeaderLine) → Nat
  | some _ => 0
  | none => 20

/-- The edit of the `Connection` header of a text whose section has been read. What
    it leaves behind the NUL are bytes of the text, and then what has been there. -/
theorem connection_edits {text : List Byte} {headers : Nat} {lines : List HeaderLine} (noNul : 0 ∉ text)
    (is : headerSection text = some (headers,lines)) (nonempty : lines ≠ []) :
    ∃ left, (reconnected text (lastConnection headers lines)).length + left.length =
        text.length + needed (lastConnection headers lines) ∧
      ∀ rest, (match (lastConnection headers lines).map Prod.fst with
          | some h => closeConnection (text ++ 0 :: rest) h
          | none => addConnection (text ++ 0 :: rest)) =
        if needed (lastConnection headers lines) ≤ rest.length then
          some (reconnected text (lastConnection headers lines) ++ 0 ::
            (left ++ rest.drop (needed (lastConnection headers lines)))) else none := by
  cases last : lastConnection headers lines with
  | some found =>
    obtain ⟨h,line⟩ := found
    obtain ⟨starts,named,more⟩ := lastConnection_spec (scanLines_of_headerSection is) last
    obtain ⟨left,size,closed⟩ := closeConnection_text noNul starts named more
    exact ⟨left,size,fun rest => (closed rest).trans (if_pos (Nat.zero_le _)).symm⟩
  | none =>
    obtain ⟨e,found⟩ := headersEnd_of_headerSection is nonempty
    have twenty : connectionLine.length = 20 := by decide
    refine ⟨[],?_,fun rest => ?_⟩
    · have inside := (search_eq_some.mp found).1
      rw [reconnected,found]
      simp only [needed,List.length_append,List.length_take,List.length_drop,List.length_nil,twenty]
      omega
    · simp only [Option.map_none,addConnection_text noNul rest found,twenty,reconnected,found,needed,List.nil_append]

/-- The same for one buffer: the edit is made, or it would write behind the end. -/
theorem connection_edited {text : List Byte} {headers : Nat} {lines : List HeaderLine} (noNul : 0 ∉ text)
    (rest : List Byte) (is : headerSection text = some (headers,lines)) (nonempty : lines ≠ []) :
    ((lastConnection headers lines = none → 20 ≤ rest.length) ∧ ∃ rest',
      (match (lastConnection headers lines).map Prod.fst with
        | some h => closeConnection (text ++ 0 :: rest) h
        | none => addConnection (text ++ 0 :: rest)) =
          some (reconnected text (lastConnection headers lines) ++ 0 :: rest')) ∨
    lastConnection headers lines = none ∧ rest.length < 20 ∧ addConnection (text ++ 0 :: rest) = none := by
  obtain ⟨left,_,edits⟩ := connection_edits noNul is nonempty
  by_cases room : needed (lastConnection headers lines) ≤ rest.length
  · refine .inl ⟨fun absent => ?_,_,(edits rest).trans (if_pos room)⟩
    rwa [absent] at room
  · cases last : lastConnection headers lines with
    | some found =>
      rw [last] at room
      exact absurd (Nat.zero_le _) room
    | none =>
      rw [last] at room edits
      exact .inr ⟨rfl,Nat.not_le.mp room,(edits rest).trans (if_neg room)⟩

/-- When `parse_headers` does not refuse, it makes the edit of the `Connection`
    header, or would write behind the end of the buffer. -/
theorem parseHeaders_reconnected {first rest host : List Byte} (noNul : 0 ∉ first)
    (size : first.length + 1 + rest.length = buffSize)
    (hostSize : host.length = hValSize)
    (taken : ∀ message after, parseHeaders (first ++ 0 :: rest) host ≠ some (.error message,after)) :
    ∃ headers lines, headerSection first = some (headers,lines) ∧ lines ≠ [] ∧
      ((Roomy first (lastConnection headers lines) ∧ ∃ host' rest', host'.length = hValSize ∧
          parseHeaders (first ++ 0 :: rest) host = some (.ok host',
            reconnected first (lastConnection headers lines) ++ 0 :: rest')) ∨
        ¬ Roomy first (lastConnection headers lines) ∧ parseHeaders (first ++ 0 :: rest) host = none) := by
  rcases parseHeaders_text noNul rest hostSize with ⟨message,refused,_⟩ | ⟨headers,lines,host',is,nonempty,size',parsed⟩
  · exact absurd refused (taken _ _)
  refine ⟨headers,lines,is,nonempty,?_⟩
  rw [parsed]
  rcases connection_edited noNul rest is nonempty with ⟨room,rest',edited⟩ | ⟨none,full,overflow⟩
  · have returned := congrArg (Option.map fun buffer => ((.ok host' : Except (List Byte) (List Byte)),buffer)) edited
    refine .inl ⟨fun none => ?_,host',rest',size',returned⟩
    have := room none
    omega
  · refine .inr ⟨fun roomy => ?_,?_⟩
    · have := roomy none
      omega
    · rw [none]
      simp only [Option.map_none,overflow]

/-- The buffer of the handler when it begins to send, or no buffer when it would
    write behind its end. -/
theorem handleClient_text (sends : Sends buffer env request) :
    ∃ first headers lines, versioned request = some first ∧ headerSection first = some (headers,lines) ∧ lines ≠ [] ∧
      ((Roomy first (lastConnection headers lines) ∧ ∃ out rest, handleClient buffer env = some out ∧
          out.buffer = urlRemoved (reconnected first (lastConnection headers lines)) ++ 0 :: rest ∧
          out.remote = slice out.buffer 0 request.length) ∨
        ¬ Roomy first (lastConnection headers lines) ∧ handleClient buffer env = none) := by
  have whole : request.take (buffSize-1) = request := List.take_of_length_le (by have := sends.fits; omega)
  have filled : request.length ≠ 0 := fun empty => sends.filled (List.length_eq_zero_iff.mp empty)
  have room : request.length < buffer.length := sends.size ▸ sends.fits
  have stored := memcpy_string room
  obtain ⟨copied,is_copied,is_ended⟩ := Option.bind_eq_some_iff.mp stored
  obtain ⟨_,line_taken,headers_taken,resolved⟩ := sends.parsed
  rw [overwrite_text] at line_taken
  rcases parseRequestLine_text sends.noNul (buffer.drop (request.length+1)) with ⟨_,refused,_⟩ | ⟨first,parsed,version⟩
  · rw [refused] at line_taken
    cases line_taken
  rw [parsed] at line_taken
  cases line_taken
  obtain ⟨length,noNul⟩ := versioned_keeps sends.noNul version
  have size : first.length + 1 + (buffer.drop (request.length+1)).length = buffSize := by
    rw [List.length_drop,sends.size,length]
    have := sends.fits
    omega
  have hostSize := array_length hValSize
  obtain ⟨headers,lines,is,nonempty,outcome⟩ := parseHeaders_reconnected noNul size hostSize headers_taken
  refine ⟨first,headers,lines,version,is,nonempty,?_⟩
  rw [handleClient]
  simp only [sends.received,Option.getD_some,whole,if_neg filled,is_copied,is_ended,parsed,Option.bind_eq_bind,
    Option.bind_some]
  rcases outcome with ⟨roomy,host,rest,_,taken⟩ | ⟨full,overflow⟩
  · obtain ⟨server,found⟩ := resolved _ _ taken
    obtain ⟨left',_,removed⟩ := removeUrl_text (reconnected_noNul noNul (lastConnection headers lines))
    have enough : request.length ≤ 0 + (env.remoteWrites.map Int.toNat).sum := by rw [Nat.zero_add]; exact sends.enough
    obtain ⟨left,written⟩ := writeLoop_done (urlRemoved (reconnected first
      (lastConnection headers lines)) ++ 0 :: (left' ++ rest))
      sends.taking enough
    refine .inl ⟨roomy,?_⟩
    simp only [taken,found,removed,written,Option.bind_some,sends.socket,sends.connect,Bool.not_true,Bool.false_eq_true,
      if_false,Nat.sub_zero]
    exact ⟨_,_,rfl,rfl,rfl⟩
  · exact .inr ⟨full,by rw [overflow]; rfl⟩

/-- The text of a request tells that the parsers take it: its request line does,
    and a header section with a host. -/
theorem sends_of_text {first : List Byte} {headers : Nat} {lines : List HeaderLine} (size : buffer.length = buffSize)
    (received : env.request = some request) (fits : request.length < buffSize) (noNul : 0 ∉ request)
    (version : versioned request = some first) (is : headerSection first = some (headers,lines))
    (hosted : (hostAfter (overwrite (array hValSize) 0 [0]) lines)[0]? ≠ some 0)
    (resolves : ∀ name, env.getaddrinfo name ≠ none)
    (socket : env.socket = true) (connect : env.connect = true) (taking : ∀ n ∈ env.remoteWrites, 0 < n)
    (enough : request.length ≤ (env.remoteWrites.map Int.toNat).sum) : Sends buffer env request := by
  have noNul' := (versioned_keeps noNul version).2
  have filled : request ≠ [] := by
    rintro rfl
    cases version
  have hostSize := array_length hValSize
  refine ⟨size,received,filled,fits,noNul,⟨first ++ 0 :: buffer.drop (request.length+1),?_,?_,?_⟩,socket,connect,
    taking,enough⟩
  · rw [overwrite_text]
    rcases parseRequestLine_text noNul (buffer.drop (request.length+1)) with ⟨_,_,none⟩ | ⟨_,parsed,version'⟩
    · rw [version] at none
      cases none
    · rw [version] at version'
      cases version'
      exact parsed
  all_goals rcases parseHeaders_text noNul' (buffer.drop (request.length+1)) hostSize with
    ⟨message,_,unhosted⟩ | ⟨headers',lines',host',_,_,size',parsed⟩
  · exact absurd (unhosted headers lines is) hosted
  · intro message after refused
    rw [parsed] at refused
    obtain ⟨_,_,same⟩ := Option.map_eq_some_iff.mp refused
    cases same
  · exact absurd (unhosted headers lines is) hosted
  · intro host after taken
    rw [parsed] at taken
    obtain ⟨_,_,same⟩ := Option.map_eq_some_iff.mp taken
    cases same
    obtain ⟨name,port,resolved⟩ := resolveHost_total env.getaddrinfo size'
    obtain ⟨addr,is⟩ := Option.ne_none_iff_exists'.mp (resolves name)
    exact ⟨⟨addr,port⟩,by rw [resolved,is]; rfl⟩

/-- As many bytes as the request had are the text of the buffer when the text has
    that length. -/
theorem slice_eq_cstring {text rest : List Byte} (noNul : 0 ∉ text) (n : Nat) :
    slice (text ++ 0 :: rest) 0 n = cstring (text ++ 0 :: rest) 0 ↔ text.length = n := by
  rw [cstring_text noNul (Nat.zero_le _),slice,List.drop_zero,List.drop_zero]
  constructor
  · intro same
    have length : min n (text.length + (rest.length+1)) = text.length := by
      rw [← List.length_cons,← List.length_append,← List.length_take,same]
    rcases Nat.le_total n (text.length + (rest.length+1)) with inside | outside
    · rwa [Nat.min_eq_left inside,eq_comm] at length
    · rw [Nat.min_eq_right outside] at length
      omega
  · rintro rfl
    exact List.take_left

/-- The remote server gets the rewritten request, all of it and nothing else,
    exactly when the request is balanced. -/
theorem forwards_iff_balanced (sends : Sends buffer env request) :
    (∃ out, handleClient buffer env = some out ∧ out.remote = cstring out.buffer 0) ↔ Balanced request := by
  obtain ⟨first,headers,lines,version,is,nonempty,outcome⟩ := handleClient_text sends
  obtain ⟨p,same,_,digits⟩ := versioned_spec sends.noNul version
  obtain ⟨length,noNul⟩ := versioned_keeps sends.noNul version
  have balanced : Balanced first ↔ Balanced request := by
    rw [← balanced_blur noNul,same,version_blur digits,balanced_blur sends.noNul]
  rw [← balanced,← rewritten_length is nonempty,length]
  rcases outcome with ⟨roomy,out,rest,handled,buffer_is,remote_is⟩ | ⟨full,overflow⟩
  · rw [handled,and_iff_right roomy]
    simp only [Option.some.injEq,exists_eq_left',buffer_is,remote_is]
    exact slice_eq_cstring (urlRemoved_noNul (reconnected_noNul noNul _)) request.length
  · rw [overflow]
    exact iff_of_false nofun fun both => full both.1

/-- An environment in which every call works, and the first write takes ten bytes. -/
def serving (request : List Byte) : Env := ⟨some request,fun _ => some 2130706433,true,true,[10,request.length],[],[]⟩

theorem serving_sends {first : List Byte} {headers : Nat} {lines : List HeaderLine} (filled : request ≠ [])
    (fits : request.length < buffSize) (noNul : 0 ∉ request) (version : versioned request = some first)
    (is : headerSection first = some (headers,lines))
    (hosted : (hostAfter (overwrite (array hValSize) 0 [0]) lines)[0]? ≠ some 0) :
    Sends (array buffSize) (serving request) request := by
  refine sends_of_text (array_length _) rfl fits noNul version is hosted (fun _ => nofun) rfl rfl ?_ ?_
  · have := List.length_pos_iff.mpr filled
    simp only [serving,List.forall_mem_cons]
    exact ⟨by decide,by omega,nofun⟩
  · simp [serving]

def closing : List Byte := ascii "GET / HTTP/1.0\r\nHost: a.b\r\nConnection: close\r\n\r\n"

theorem forwards_closing :
    ∃ out, handleClient (array buffSize) (serving closing) = some out ∧ out.remote = cstring out.buffer 0 := by
  have is : headerSection closing = some (16,[⟨ascii "Host",1,ascii "a.b"⟩,⟨ascii "Connection",1,ascii "close"⟩]) :=
    by decide
  have version : versioned closing = some (ascii "GET / HTTP/1.1\r\nHost: a.b\r\nConnection: close\r\n\r\n") :=
    by decide
  have section_is : headerSection (ascii "GET / HTTP/1.1\r\nHost: a.b\r\nConnection: close\r\n\r\n") =
      some (16,[⟨ascii "Host",1,ascii "a.b"⟩,⟨ascii "Connection",1,ascii "close"⟩]) := by decide
  have sends := serving_sends (by decide) (by decide) (by decide) version section_is (by decide)
  have noUrl : urlSpan closing = none := by decide
  refine (forwards_iff_balanced sends).mpr ((balanced_iff is).mpr ⟨by decide,fun start slash url => ?_⟩)
  exact absurd url (urlSpan_eq_none.mp noUrl start slash)

def hostOnly : List Byte := ascii "GET / HTTP/1.1\r\nHost: a.b\r\n\r\n"

/-- The end of the header that is put in, and the end of the headers, are not sent. -/
theorem hostOnly_cut : Sends (array buffSize) (serving hostOnly) hostOnly ∧
    ∃ out, handleClient (array buffSize) (serving hostOnly) = some out ∧
      out.remote = ascii "GET / HTTP/1.1\r\nHost: a.b\nCon" ∧
      cstring out.buffer 0 = ascii "GET / HTTP/1.1\r\nHost: a.b\nConnection: close\r\n\r\n\r\n" ∧
      out.remote ≠ cstring out.buffer 0 := by
  have version : versioned hostOnly = some hostOnly := by decide
  have is : headerSection hostOnly = some (16,[⟨ascii "Host",1,ascii "a.b"⟩]) := by decide
  have edited : urlRemoved (reconnected hostOnly (lastConnection 16 [⟨ascii "Host",1,ascii "a.b"⟩])) =
      ascii "GET / HTTP/1.1\r\nHost: a.b\nConnection: close\r\n\r\n\r\n" := by decide
  have sends := serving_sends (by decide) (by decide) (by decide) version is (by decide)
  refine ⟨sends,?_⟩
  obtain ⟨first,headers,lines,version',is',_,outcome⟩ := handleClient_text sends
  rw [version] at version'
  cases version'
  rw [is] at is'
  cases is'
  rcases outcome with ⟨_,out,rest,handled,buffer_is,remote_is⟩ | ⟨full,_⟩
  · rw [edited] at buffer_is
    have text : cstring out.buffer 0 = ascii "GET / HTTP/1.1\r\nHost: a.b\nConnection: close\r\n\r\n\r\n" := by
      rw [buffer_is,cstring_text (by decide) (Nat.zero_le _),List.drop_zero]
    have sent : out.remote = ascii "GET / HTTP/1.1\r\nHost: a.b\nCon" := by
      rw [remote_is,buffer_is,slice_text (by decide)]
      decide
    refine ⟨out,handled,sent,text,?_⟩
    rw [sent,text]
    decide
  · exact absurd (fun _ => by decide) full

end Os5Sem.Forwarding

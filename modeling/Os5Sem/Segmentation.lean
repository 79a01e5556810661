import Os5Sem.HeaderReading

/-!
How a request that arrives in pieces is treated. The handler reads the client's
socket once and parses what that call returns: a request whose first piece is not
all of it has no empty line behind its headers and is refused, whatever the other
pieces are (`segmentation_iff`).
-/
namespace Os5Sem.Segmentation
open Os5Sem.Occurrences Os5Sem.CMemory Os5Sem.Handler Os5Sem.RequestText Os5Sem.RequestLength Os5Sem.Forwarding
open Os5Sem.HeaderReading

/-! ### What the handler does with a request -/

/-- The handler closes the connection without having taken the request. -/
def Rejects (handled : Option Outcome) : Prop :=
  ∃ out, handled = some out ∧ (out.ending = .readFailed ∨ ∃ message, out.ending = .refused message)

/-- The address that the handler calls `connect` with, if it does. -/
def contacted (buffer : List Byte) (env : Env) : Option Server := do
  let received := (env.request.getD []).take (buffSize-1)
  let readed := received.length
  if readed = 0 then none
  let buffer ← memcpy buffer 0 received
  let buffer ← memcpy buffer readed [0]
  match ← parseRequestLine buffer with
  | (.error _,_) => none
  | (.ok (),buffer) =>
  match ← parseHeaders buffer (array hValSize) with
  | (.error _,_) => none
  | (.ok host,_) =>
  let server ← (← resolveHost env.getaddrinfo host)
  if env.socket then some server else none

/-- The request line, the headers and the empty line behind them, and nothing else. -/
def Complete (request : List Byte) : Prop :=
  search (ascii "\r\n\r\n") request = some (request.length-4)

/-- The pieces of a request that successive calls of `read` return. -/
structure Splits (request : List Byte) (chunks : List (List Byte)) : Prop where
  together : chunks.flatten = request
  filled : ∀ chunk ∈ chunks, chunk ≠ []

/-- The handler calls `read` once. -/
def receiving (env : Env) (chunks : List (List Byte)) : Env := { env with request := chunks.head? }

/-- The parsers take the request when it is in the buffer as a whole. -/
def Taken (buffer request : List Byte) : Prop :=
  ∃ first, parseRequestLine (overwrite buffer 0 (request ++ [0])) = some (.ok (),first) ∧
    ∀ message after, parseHeaders first (array hValSize) ≠ some (.error message,after)

/-- Two ways to split a request come to the same: it is rejected both times or
    neither time, and when it is not the same bytes go to the same address. -/
structure SameTreatment (buffer : List Byte) (env : Env) (one two : List (List Byte)) : Prop where
  rejects : Rejects (handleClient buffer (receiving env one)) ↔ Rejects (handleClient buffer (receiving env two))
  remote : ¬ Rejects (handleClient buffer (receiving env one)) →
    (handleClient buffer (receiving env one)).map Outcome.remote =
      (handleClient buffer (receiving env two)).map Outcome.remote
  server : ¬ Rejects (handleClient buffer (receiving env one)) →
    contacted buffer (receiving env one) = contacted buffer (receiving env two)

variable {buffer : List Byte} {env : Env} {request : List Byte}

theorem relayLoop_ending (buffer : List Byte) (reads : List (Option (List Byte))) (results : List Int) :
    (relayLoop buffer reads results).2 ≠ .readFailed ∧
      ∀ message, (relayLoop buffer reads results).2 ≠ .refused message := by
  induction reads generalizing buffer results with
  | nil => exact ⟨nofun,nofun⟩
  | cons read reads ih =>
    cases read with
    | none => exact ⟨nofun,nofun⟩
    | some chunk =>
      rw [relayLoop]
      split
      · exact ⟨nofun,nofun⟩
      · dsimp only
        rcases writeLoop (overwrite buffer 0 (chunk.take buffSize)) (chunk.take buffSize).length 0 results with
          ⟨sent,progress,left⟩
        cases progress with
        | waiting => exact ⟨nofun,nofun⟩
        | failed => exact ⟨nofun,nofun⟩
        | done => exact ih _ left

/-- What is received and the NUL behind it begin with a text and its NUL. -/
theorem text_of_received (request rest : List Byte) :
    ∃ text rest', request ++ 0 :: rest = text ++ 0 :: rest' ∧ 0 ∉ text ∧ text <+: request := by
  refine ⟨request.takeWhile (· ≠ 0),?_⟩
  have noNul : 0 ∉ request.takeWhile (· ≠ 0) := fun member => by simpa using List.mem_takeWhile_imp member
  have start := List.takeWhile_append_dropWhile (p := fun c : Byte => decide (c ≠ 0)) (l := request)
  cases behind : request.dropWhile (fun c => decide (c ≠ 0)) with
  | nil =>
    rw [behind,List.append_nil] at start
    exact ⟨rest,by rw [start],noNul,List.takeWhile_prefix _⟩
  | cons c more =>
    have isNul : c = 0 := by
      have stops := List.head_dropWhile_not (fun c : Byte => decide (c ≠ 0)) (l := request) (by rw [behind]; nofun)
      simpa only [behind,List.head_cons,decide_eq_false_iff_not,not_not] using stops
    rw [behind,isNul] at start
    refine ⟨more ++ 0 :: rest,?_,noNul,List.takeWhile_prefix _⟩
    conv_lhs => rw [← start]
    simp

/-- Behind the parsers the handler does not reject a request any more. -/
theorem not_rejects {out : Outcome} {ending : End} (ends : out.ending = ending) (read : ending ≠ .readFailed)
    (parsed : ∀ message, ending ≠ .refused message) : ¬ Rejects (some out) := by
  rintro ⟨_,same,failed | ⟨message,refused⟩⟩ <;> cases same
  · exact read (ends.symm.trans failed)
  · exact parsed message (ends.symm.trans refused)

/-- What the handler does with a request that it has read: a parser refuses it, or
    `parse_headers` writes behind the end of the buffer, or it is not rejected. -/
theorem handleClient_outcome (size : buffer.length = buffSize) (received : env.request = some request)
    (filled : request ≠ []) (fits : request.length < buffSize) :
    (¬ Taken buffer request ∧ Rejects (handleClient buffer env)) ∨
    ∃ first, parseRequestLine (overwrite buffer 0 (request ++ [0])) = some (.ok (),first) ∧
      ((parseHeaders first (array hValSize) = none ∧ handleClient buffer env = none) ∨
        ∃ host second out, parseHeaders first (array hValSize) = some (.ok host,second) ∧
          handleClient buffer env = some out ∧ ¬ Rejects (some out)) := by
  have whole : request.take (buffSize-1) = request := List.take_of_length_le (by omega)
  have nonempty : request.length ≠ 0 := fun empty => filled (List.length_eq_zero_iff.mp empty)
  obtain ⟨copied,is_copied,is_ended⟩ := Option.bind_eq_some_iff.mp (memcpy_string (size ▸ fits))
  rw [← overwrite_text] at is_ended
  rw [handleClient]
  simp only [received,Option.getD_some,whole,if_neg nonempty,is_copied,is_ended,Option.bind_eq_bind,Option.bind_some]
  obtain ⟨text,rest,is_text,noNul,_⟩ := text_of_received request (buffer.drop (request.length+1))
  have hostSize := array_length hValSize
  rw [Taken,overwrite_text,is_text]
  rcases parseRequestLine_text noNul rest with ⟨message,refused,_⟩ | ⟨first,parsed,version⟩
  · rw [refused]
    refine .inl ⟨?_,_,rfl,.inr ⟨message,rfl⟩⟩
    rintro ⟨first,taken,_⟩
    cases taken
  have noNul' := (versioned_keeps noNul version).2
  rw [parsed,Option.bind_some]
  dsimp only
  rcases parseHeaders_reads noNul' rest hostSize with ⟨⟨message,after,refused⟩,_⟩ | ⟨headers,lines,value,_,reads,_⟩
  · rw [refused]
    refine .inl ⟨?_,_,rfl,.inr ⟨message,rfl⟩⟩
    rintro ⟨_,same,taken⟩
    cases same
    exact taken message after refused
  refine .inr ⟨_,rfl,?_⟩
  rcases parseHeaders_of_reads noNul' rest hostSize reads with ⟨_,host,rest',size',_,parsed'⟩ | ⟨_,_,overflow⟩
  · rw [parsed',Option.bind_some]
    refine .inr ⟨host,reconnected first (lastConnection headers lines) ++ 0 :: rest',?_⟩
    obtain ⟨name,port,resolved⟩ := resolveHost_total env.getaddrinfo size'
    obtain ⟨_,_,removed⟩ := removeUrl_text (reconnected_noNul noNul' (lastConnection headers lines))
    dsimp only
    rw [resolved,Option.bind_some]
    cases env.getaddrinfo name with
    | none => exact ⟨_,rfl,rfl,not_rejects rfl (by simp) (by simp)⟩
    | some addr =>
      dsimp only [Option.map_some]
      split
      · exact ⟨_,rfl,rfl,not_rejects rfl (by simp) (by simp)⟩
      split
      · exact ⟨_,rfl,rfl,not_rejects rfl (by simp) (by simp)⟩
      rw [removed,Option.bind_some]
      rcases writeLoop _ request.length 0 env.remoteWrites with ⟨remote,progress,left⟩
      cases progress with
      | waiting => exact ⟨_,rfl,rfl,not_rejects rfl (by simp) (by simp)⟩
      | failed => exact ⟨_,rfl,rfl,not_rejects rfl (by simp) (by simp)⟩
      | done =>
        obtain ⟨read,refused⟩ := relayLoop_ending _ env.remoteReads env.clientWrites
        exact ⟨_,rfl,rfl,not_rejects rfl read refused⟩
  · rw [overflow]
    exact .inl ⟨rfl,rfl⟩

/-- A request is rejected exactly when the parsers do not take it. -/
theorem handleClient_received (size : buffer.length = buffSize) (received : env.request = some request)
    (filled : request ≠ []) (fits : request.length < buffSize) :
    Rejects (handleClient buffer env) ↔ ¬ Taken buffer request := by
  rcases handleClient_outcome size received filled fits with ⟨refused,rejects⟩ | ⟨first,parsed,outcome⟩
  · exact iff_of_true rejects refused
  rcases outcome with ⟨none,overflow⟩ | ⟨host,second,out,taken,handled,stays⟩
  · rw [overflow]
    exact iff_of_false nofun fun not => not ⟨first,parsed,fun _ _ => by rw [none]; nofun⟩
  · rw [handled]
    exact iff_of_false stays fun not => not ⟨first,parsed,fun _ _ => by rw [taken]; nofun⟩

/-! ### Pieces of a request -/

/-- A complete request has an empty line at its end only. -/
theorem no_blank_before (complete : Complete request) {piece : List Byte} (start : piece <+: request)
    (proper : piece ≠ request) : ¬ ascii "\r\n\r\n" <:+: piece := by
  rintro ⟨before,behind,is⟩
  have shorter : piece.length < request.length := by
    refine Nat.lt_of_le_of_ne start.length_le fun same => proper (start.eq_of_length same)
  obtain ⟨_,_,first⟩ := search_eq_some.mp complete
  have long : before.length + 4 + behind.length = piece.length := by
    rw [← is,List.length_append,List.length_append]
    rfl
  apply first before.length (by omega)
  obtain ⟨more,rfl⟩ := start
  rw [← is,List.append_assoc,List.append_assoc,List.drop_left]
  exact List.prefix_append ..

/-- The parsers do not take a part of a request. -/
theorem not_taken_of_piece (buffer : List Byte) (complete : Complete request) {piece : List Byte}
    (start : piece <+: request) (proper : piece ≠ request) : ¬ Taken buffer piece := by
  rintro ⟨first,taken,headers_taken⟩
  obtain ⟨text,rest,is_text,noNul,inside⟩ := text_of_received piece (buffer.drop (piece.length+1))
  rw [overwrite_text,is_text] at taken
  rcases parseRequestLine_text noNul rest with ⟨_,refused,_⟩ | ⟨first',parsed,version⟩
  · rw [refused] at taken
    cases taken
  rw [parsed] at taken
  cases taken
  have hostSize := array_length hValSize
  rcases parseHeaders_text (versioned_keeps noNul version).2 rest hostSize with ⟨message,refused,_⟩ | found
  · exact headers_taken message _ refused
  obtain ⟨headers,lines,host,is,nonempty,_⟩ := found
  obtain ⟨e,blank⟩ := headersEnd_of_headerSection is nonempty
  -- The edit of the version puts no empty line into the text.
  obtain ⟨p,rfl,_,digits⟩ := versioned_spec noNul version
  rw [← search_blur (by decide) (by decide),version_blur digits,search_blur (by decide) (by decide)] at blank
  have here : ascii "\r\n\r\n" <:+: text :=
    (search_eq_some.mp blank).2.1.isInfix.trans (List.drop_suffix _ _).isInfix
  exact no_blank_before complete start proper (here.trans inside.isInfix)

/-- The first piece is a part of the request, or it is the only one. -/
theorem first_piece {chunks : List (List Byte)} (splits : Splits request chunks) (filled : request ≠ []) :
    chunks = [request] ∨ ∃ piece, chunks.head? = some piece ∧ piece ≠ [] ∧ piece <+: request ∧ piece ≠ request := by
  cases chunks with
  | nil => exact absurd splits.together.symm filled
  | cons piece more =>
    have together := splits.together
    rw [List.flatten_cons] at together
    by_cases whole : piece = request
    · have none : more.flatten = [] := by simpa [whole] using together
      have alone : more = [] := by
        by_contra nonempty
        obtain ⟨other,member⟩ := List.exists_mem_of_ne_nil more nonempty
        exact splits.filled other (List.mem_cons_of_mem _ member) (List.flatten_eq_nil_iff.mp none other member)
      exact .inl (by rw [whole,alone])
    · exact .inr ⟨piece,rfl,splits.filled piece List.mem_cons_self,⟨_,together⟩,whole⟩

theorem rejects_pieces (env : Env) (size : buffer.length = buffSize) (complete : Complete request)
    (fits : request.length < buffSize) {chunks : List (List Byte)} {piece : List Byte}
    (first : chunks.head? = some piece)
    (filled : piece ≠ []) (start : piece <+: request) (proper : piece ≠ request) :
    Rejects (handleClient buffer (receiving env chunks)) := by
  have shorter : piece.length < buffSize := Nat.lt_of_le_of_lt start.length_le fits
  exact (handleClient_received size first filled shorter).mpr (not_taken_of_piece buffer complete start proper)

theorem sameTreatment_of_rejects {one two : List (List Byte)}
    (rejected : Rejects (handleClient buffer (receiving env one)))
    (rejected' : Rejects (handleClient buffer (receiving env two))) : SameTreatment buffer env one two :=
  ⟨iff_of_true rejected rejected',fun taken => absurd rejected taken,fun taken => absurd rejected taken⟩

/-- Two ways to split a complete request come to the same exactly when the parsers
    would not take it anyway, or either both ways or neither leave it in one piece. -/
theorem segmentation_iff (size : buffer.length = buffSize) (complete : Complete request)
    (fits : request.length < buffSize) {one two : List (List Byte)} (splits : Splits request one)
    (splits' : Splits request two) :
    SameTreatment buffer env one two ↔ ¬ Taken buffer request ∨ (one = [request] ↔ two = [request]) := by
  have filled : request ≠ [] := by
    rintro rfl
    exact absurd (show search (ascii "\r\n\r\n") [] = some 0 from complete) (by decide)
  have whole : Rejects (handleClient buffer (receiving env [request])) ↔ ¬ Taken buffer request :=
    handleClient_received size rfl filled fits
  rcases first_piece splits filled with rfl | ⟨piece,first,nonempty,start,proper⟩ <;>
    rcases first_piece splits' filled with rfl | ⟨piece',first',nonempty',start',proper'⟩
  · exact iff_of_true ⟨.rfl,fun _ => rfl,fun _ => rfl⟩ (.inr .rfl)
  · have notWhole : two ≠ [request] := fun is => by rw [is] at first'; cases first'; exact proper' rfl
    have rejected := rejects_pieces env size complete fits first' nonempty' start' proper'
    rw [← whole]
    constructor
    · intro same
      exact .inl (same.rejects.mpr rejected)
    · rintro (refused | both)
      · exact sameTreatment_of_rejects refused rejected
      · exact absurd (both.mp rfl) notWhole
  · have notWhole : one ≠ [request] := fun is => by rw [is] at first; cases first; exact proper rfl
    have rejected := rejects_pieces env size complete fits first nonempty start proper
    rw [← whole]
    constructor
    · intro same
      exact .inl (same.rejects.mp rejected)
    · rintro (refused | both)
      · exact sameTreatment_of_rejects rejected refused
      · exact absurd (both.mpr rfl) notWhole
  · have notWhole : one ≠ [request] := fun is => by rw [is] at first; cases first; exact proper rfl
    have notWhole' : two ≠ [request] := fun is => by rw [is] at first'; cases first'; exact proper' rfl
    have rejected := rejects_pieces env size complete fits first nonempty start proper
    have rejected' := rejects_pieces env size complete fits first' nonempty' start' proper'
    exact iff_of_true (sameTreatment_of_rejects rejected rejected') (.inr (iff_of_false notWhole notWhole'))

/-- The request of `hostOnly` whose empty line comes later than the rest. -/
def inTwo : List (List Byte) := [ascii "GET / HTTP/1.1\r\nHost: a.b\r\n",ascii "\r\n"]

theorem splits_hostOnly : Splits hostOnly [hostOnly] ∧ Splits hostOnly inTwo :=
  ⟨⟨by decide,by decide⟩,by decide,by decide⟩

theorem complete_hostOnly : Complete hostOnly := by unfold Complete; decide

theorem rejected_in_two : Complete hostOnly ∧ Splits hostOnly [hostOnly] ∧ Splits hostOnly inTwo ∧
    ¬ Rejects (handleClient (array buffSize) (receiving (serving hostOnly) [hostOnly])) ∧
    Rejects (handleClient (array buffSize) (receiving (serving hostOnly) inTwo)) ∧
    ¬ SameTreatment (array buffSize) (serving hostOnly) [hostOnly] inTwo := by
  have size := array_length buffSize
  have version : versioned hostOnly = some hostOnly := by decide
  have is : headerSection hostOnly = some (16,[⟨ascii "Host",1,ascii "a.b"⟩]) := by decide
  have taken : Taken (array buffSize) hostOnly := by
    obtain ⟨first,line_taken,headers_taken,_⟩ :=
      (serving_sends (by decide) (by decide) (by decide) version is (by decide)).parsed
    exact ⟨first,line_taken,headers_taken⟩
  have accepted : ¬ Rejects (handleClient (array buffSize) (receiving (serving hostOnly) [hostOnly])) := by
    rw [handleClient_received size rfl (by decide) (by decide),not_not]
    exact taken
  have rejected : Rejects (handleClient (array buffSize) (receiving (serving hostOnly) inTwo)) :=
    rejects_pieces _ size complete_hostOnly (by decide) rfl (by decide) ⟨ascii "\r\n",by decide⟩ (by decide)
  exact ⟨complete_hostOnly,splits_hostOnly.1,splits_hostOnly.2,accepted,rejected,
    fun same => accepted (same.rejects.mpr rejected)⟩

theorem segmentation_iff_in_two : SameTreatment (array buffSize) (serving hostOnly) [hostOnly] inTwo ↔
    ¬ Taken (array buffSize) hostOnly ∨ ([hostOnly] = [hostOnly] ↔ inTwo = [hostOnly]) :=
  segmentation_iff (array_length _) complete_hostOnly (by decide) splits_hostOnly.1 splits_hostOnly.2

end Os5Sem.Segmentation

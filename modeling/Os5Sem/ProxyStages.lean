import Os5Sem.Proxy
import Os5Sem.Relay
import Os5Sem.Forwarding

/-!
How far a thread that runs `handle_client` has got, told by what its calls have
returned: the buffer that it works on, and what it has sent, are those of
`Handler.handleClient` for these results, cut off where the thread waits. As much of
the buffer as has been read does not depend on what the array held before
(`opened_array`).
-/
namespace Os5Sem.ProxyStages
open Os5Sem.CMemory Os5Sem.Handler
open Os5Sem.Connections (Socket HandlerPc)
open Os5Sem.Occurrences (overwrite overwrite_length)
open Os5Sem.Relay (slice_split)
open Os5Sem.RequestText Os5Sem.Forwarding
open Os5Sem.Proxy (Memory)

/-! ### The loops of `write` and `read` -/

/-- The results of the calls that have sent the first `sent` of `total` bytes. -/
inductive Writes (total : Nat) : List Int → Nat → Prop
  | none : Writes total [] 0
  | more {results : List Int} {sent : Nat} {n : Int} (writes : Writes total results sent) (positive : 0 < n)
      (most : n.toNat ≤ total - sent) : Writes total (results ++ [n]) (sent + n.toNat)

variable {buffer : List Byte} {total sent : Nat} {results : List Int}

theorem Writes.le (writes : Writes total results sent) : sent ≤ total := by
  cases writes with
  | none => exact Nat.zero_le _
  | more writes positive most => omega

theorem writeLoop_writes (writes : Writes total results sent) (later : List Int) :
    writeLoop buffer total 0 (results ++ later) =
      (slice buffer 0 sent ++ (writeLoop buffer total sent later).1,(writeLoop buffer total sent later).2) := by
  induction writes generalizing later with
  | none => simp [slice]
  | @more results sent n writes positive most ih =>
    have left : sent < total := by omega
    have few : min n.toNat (total - sent) = n.toNat := Nat.min_eq_left most
    rw [List.append_assoc,ih]
    simp only [List.singleton_append,writeLoop,if_pos left,if_neg (Int.not_le.mpr positive),few]
    rw [← List.append_assoc,slice_split buffer (Nat.le_add_right sent n.toNat),Nat.zero_add,Nat.add_sub_cancel_left]

theorem writeLoop_waits (writes : Writes total results sent) (left : sent < total) :
    writeLoop buffer total 0 results = (slice buffer 0 sent,.waiting,[]) := by
  have loop := @writeLoop_writes buffer _ _ _ writes []
  rw [List.append_nil] at loop
  rw [loop]
  simp [writeLoop,left]

theorem writeLoop_fails (writes : Writes total results sent) (left : sent < total) {n : Int} (failed : n ≤ 0) :
    writeLoop buffer total 0 (results ++ [n]) = (slice buffer 0 sent,.failed,[]) := by
  rw [writeLoop_writes writes]
  simp [writeLoop,left,failed]

theorem writeLoop_ends (writes : Writes total results total) (later : List Int) :
    writeLoop buffer total 0 (results ++ later) = (slice buffer 0 total,.done,later) := by
  rw [writeLoop_writes writes]
  cases later <;> simp [writeLoop]

/-- The results of the calls that have relayed what was read: `out` is what the client
    was sent, and `buffer` holds the last chunk. -/
inductive Relays (request : List Byte) : List (Option (List Byte)) → List Int → List Byte → List Byte → Prop
  | none : Relays request [] [] [] request
  | more {reads : List (Option (List Byte))} {writes results : List Int} {out buffer chunk : List Byte}
      (relays : Relays request reads writes out buffer) (nonempty : chunk ≠ []) (fits : chunk.length ≤ buffSize)
      (sends : Writes chunk.length results chunk.length) :
      Relays request (reads ++ [some chunk]) (writes ++ results) (out ++ chunk) (overwrite buffer 0 chunk)

theorem slice_overwrite (buffer chunk : List Byte) : slice (overwrite buffer 0 chunk) 0 chunk.length = chunk := by
  simp [slice,overwrite]

/-- A chunk that is being sent. -/
theorem chunk_prefix {chunk : List Byte} (buffer out : List Byte) (within : sent ≤ chunk.length) :
    out ++ slice (overwrite buffer 0 chunk) 0 sent <+: out ++ chunk := by
  refine List.prefix_append_right_inj out |>.mpr ?_
  have inside : slice (overwrite buffer 0 chunk) 0 sent = chunk.take sent := by
    simp [slice,overwrite,List.take_append_of_le_length within]
  rw [inside]
  exact List.take_prefix ..

variable {request out : List Byte} {reads : List (Option (List Byte))} {writes : List Int}

theorem relayLoop_relays (relays : Relays request reads writes out buffer) (later : List (Option (List Byte)))
    (laterWrites : List Int) :
    relayLoop request (reads ++ later) (writes ++ laterWrites) =
      (out ++ (relayLoop buffer later laterWrites).1,(relayLoop buffer later laterWrites).2) := by
  induction relays generalizing later laterWrites with
  | none => rfl
  | @more reads writes results out buffer chunk relays nonempty fits sends ih =>
    have whole : chunk.take buffSize = chunk := List.take_of_length_le fits
    rw [List.append_assoc,List.append_assoc,ih,List.singleton_append,relayLoop]
    simp only [whole,if_neg nonempty,writeLoop_ends sends,slice_overwrite,List.append_assoc]

/-- The client is sent what has been read. -/
theorem relays_out (relays : Relays request reads writes out buffer) : out = reads.flatMap fun chunk => chunk.getD
    [] := by
  induction relays with
  | none => rfl
  | more relays nonempty fits sends ih => simp [ih]

/-- A chunk is being sent to the client. -/
theorem relayLoop_chunk {chunk : List Byte} {later : List Int} (relays : Relays request reads writes out buffer)
    (nonempty : chunk ≠ []) (fits : chunk.length ≤ buffSize) {progress : Progress} {left : List Int}
    (loop : writeLoop (overwrite buffer 0 chunk) chunk.length 0 later =
      (slice (overwrite buffer 0 chunk) 0 sent,progress,left)) (stops : progress ≠ .done) :
    relayLoop request (reads ++ [some chunk]) (writes ++ later) =
      (out ++ slice (overwrite buffer 0 chunk) 0 sent,if progress = .failed then .relayFailed else .relaying) := by
  have whole : chunk.take buffSize = chunk := List.take_of_length_le fits
  rw [relayLoop_relays relays,relayLoop]
  simp only [whole,if_neg nonempty,loop]
  cases progress with
  | waiting => rfl
  | failed => rfl
  | done => exact absurd rfl stops

/-! ### The stages -/

/-- The buffer after the first `read`, which has given `readed` bytes. -/
def Received (stack : List Byte) (e : Env) (readed : Nat) (buffer : List Byte) : Prop :=
  ∃ data first, e.request = some data ∧ readed = data.length ∧ 0 < readed ∧ readed ≤ buffSize-1 ∧
    memcpy stack 0 data = some first ∧ memcpy first readed [0] = some buffer

/-- The buffer after `parse_request_line`. -/
def Lined (stack : List Byte) (e : Env) (readed : Nat) (buffer : List Byte) : Prop :=
  ∃ first, Received stack e readed first ∧ parseRequestLine first = some (.ok (),buffer)

/-- The buffer and the host after `parse_headers`. -/
def Headed (stack : List Byte) (e : Env) (readed : Nat) (buffer host : List Byte) : Prop :=
  ∃ first, Lined stack e readed first ∧ parseHeaders first (array hValSize) = some (.ok host,buffer)

/-- The buffer and the address after `resolve_host`. -/
def Resolved (stack : List Byte) (e : Env) (readed : Nat) (buffer : List Byte) (server : Server) : Prop :=
  ∃ host, Headed stack e readed buffer host ∧ resolveHost e.getaddrinfo host = some (some server)

/-- The request as it is sent, once the remote socket is connected. -/
def Opened (stack : List Byte) (e : Env) (readed : Nat) (request : List Byte) (server : Server) : Prop :=
  e.socket = true ∧ e.connect = true ∧
    ∃ buffer, Resolved stack e readed buffer server ∧ removeUrl buffer = some request

variable {stack : List Byte} {e : Env} {readed : Nat} {server : Server} {host : List Byte}

theorem Resolved.filled (resolved : Resolved stack e readed buffer server) : 0 < readed := by
  obtain ⟨_,⟨_,⟨_,⟨_,_,_,_,filled,_⟩,_⟩,_⟩,_⟩ := resolved
  exact filled

/-! ### What the handler does at the stages -/

theorem handleClient_unread (none : e.request.getD [] = []) :
    handleClient stack e = some ⟨stack,[],[],.readFailed⟩ := by
  simp [handleClient,none]

theorem handleClient_line {first : List Byte} {message : List Byte} (received : Received stack e readed first)
    (refused : parseRequestLine first = some (.error message,buffer)) :
    handleClient stack e = some ⟨buffer,[],[],.refused message⟩ := by
  obtain ⟨data,copy,isData,rfl,filled,fits,copied,ended⟩ := received
  have whole : data.take (buffSize-1) = data := List.take_of_length_le fits
  have nonempty : data.length ≠ 0 := by omega
  simp only [handleClient,isData,Option.getD_some,whole,if_neg nonempty,copied,ended,refused,Option.bind_eq_bind,
    Option.bind_some]
  rfl

theorem handleClient_headers {first : List Byte} {message : List Byte} (lined : Lined stack e readed first)
    (refused : parseHeaders first (array hValSize) = some (.error message,buffer)) :
    handleClient stack e = some ⟨buffer,[],[],.refused message⟩ := by
  obtain ⟨text,⟨data,copy,isData,rfl,filled,fits,copied,ended⟩,parsed⟩ := lined
  have whole : data.take (buffSize-1) = data := List.take_of_length_le fits
  have nonempty : data.length ≠ 0 := by omega
  simp only [handleClient,isData,Option.getD_some,whole,if_neg nonempty,copied,ended,parsed,refused,
    Option.bind_eq_bind,Option.bind_some]
  rfl

theorem handleClient_unknown (headed : Headed stack e readed buffer host)
    (unknown : resolveHost e.getaddrinfo host = some none) :
    handleClient stack e = some ⟨buffer,[],[],.resolveFailed⟩ := by
  obtain ⟨line,⟨text,⟨data,copy,isData,rfl,filled,fits,copied,ended⟩,parsed⟩,headers⟩ := headed
  have whole : data.take (buffSize-1) = data := List.take_of_length_le fits
  have nonempty : data.length ≠ 0 := by omega
  simp only [handleClient,isData,Option.getD_some,whole,if_neg nonempty,copied,ended,parsed,headers,unknown,
    Option.bind_eq_bind,Option.bind_some]
  rfl

/-- With an address the handler needs a connected socket, and then sends the request. -/
theorem handleClient_resolved (resolved : Resolved stack e readed buffer server) :
    handleClient stack e =
      if e.socket = false then some ⟨buffer,[],[],.socketFailed⟩
      else if e.connect = false then some ⟨buffer,[],[],.connectFailed⟩
      else (removeUrl buffer).map fun request =>
        match writeLoop request readed 0 e.remoteWrites with
        | (remote,.waiting,_) => ⟨request,remote,[],.sending⟩
        | (remote,.failed,_) => ⟨request,remote,[],.sendFailed⟩
        | (remote,.done,_) =>
          ⟨request,remote,(relayLoop request e.remoteReads e.clientWrites).1,
            (relayLoop request e.remoteReads e.clientWrites).2⟩ := by
  obtain ⟨host,⟨line,⟨text,⟨data,copy,isData,rfl,filled,fits,copied,ended⟩,parsed⟩,headers⟩,found⟩ := resolved
  have whole : data.take (buffSize-1) = data := List.take_of_length_le fits
  have nonempty : data.length ≠ 0 := by omega
  simp only [handleClient,isData,Option.getD_some,whole,if_neg nonempty,copied,ended,parsed,headers,found,
    Option.bind_eq_bind,Option.bind_some]
  cases e.socket <;> cases e.connect <;> try rfl
  cases removeUrl buffer with
  | none => rfl
  | some request =>
    simp only [Bool.not_true,Bool.false_eq_true,if_false,Option.bind_some,Option.map_some,reduceCtorEq]
    rcases writeLoop request data.length 0 e.remoteWrites with ⟨remote,progress,left⟩
    cases progress <;> rfl

/-! ### Stages -/

/-- Nothing has been sent yet. -/
structure Silent (e : Env) (remote client : List Byte) : Prop where
  remoteWrites : e.remoteWrites = []
  remoteReads : e.remoteReads = []
  clientWrites : e.clientWrites = []
  remote : remote = []
  client : client = []

/-- The thread has not read its request. -/
structure Unread (stack : List Byte) (e : Env) (m : Memory) (remote client : List Byte) : Prop where
  silent : Silent e remote client
  request : e.request = none
  buffer : m.buffer = stack
  host : m.host = array hValSize
  socket : e.socket = false
  connect : e.connect = false

/-- The thread has finished with its sockets. -/
def Closing : HandlerPc → Prop
  | .closeClient _ _ | .closeRemote _ | .exit | .exited => True
  | _ => False

/-- Where a thread is: `e` is what its calls have returned, `m` its memory, and
    `remote` and `client` what it has sent. -/
inductive Stage (stack : List Byte) (e : Env) (m : Memory) (remote client : List Byte) : HandlerPc → Prop
  | absent (unread : Unread stack e m remote client) : Stage stack e m remote client .absent
  | loadArg {arg : Nat} (unread : Unread stack e m remote client) : Stage stack e m remote client (.loadArg arg)
  | freeArg {arg fd : Nat} (unread : Unread stack e m remote client) : Stage stack e m remote client (.freeArg arg fd)
  | read {fd : Nat} (unread : Unread stack e m remote client) : Stage stack e m remote client (.read fd)
  | parseRequestLine {fd readed : Nat} (received : Received stack e readed m.buffer) (host : m.host = array hValSize)
      (silent : Silent e remote client) (socket : e.socket = false) (connect : e.connect = false) :
      Stage stack e m remote client (.parseRequestLine fd readed)
  | parseHeaders {fd readed : Nat} (lined : Lined stack e readed m.buffer) (host : m.host = array hValSize)
      (silent : Silent e remote client) (socket : e.socket = false) (connect : e.connect = false) :
      Stage stack e m remote client (.parseHeaders fd readed)
  | resolveHost {fd readed : Nat} (headed : Headed stack e readed m.buffer m.host) (silent : Silent e remote client)
      (socket : e.socket = false) (connect : e.connect = false) :
      Stage stack e m remote client (.resolveHost fd readed)
  | socket {fd readed : Nat} {server : Server} (resolved : Resolved stack e readed m.buffer server)
      (address : m.server = some server) (silent : Silent e remote client) (socket : e.socket = false)
      (connect : e.connect = false) : Stage stack e m remote client (.socket fd readed)
  | setRcvTimeo {fd readed fd' : Nat} {server : Server} (resolved : Resolved stack e readed m.buffer server)
      (address : m.server = some server) (silent : Silent e remote client) (socket : e.socket = true)
      (connect : e.connect = false) : Stage stack e m remote client (.setRcvTimeo fd readed fd')
  | setSndTimeo {fd readed fd' : Nat} {server : Server} (resolved : Resolved stack e readed m.buffer server)
      (address : m.server = some server) (silent : Silent e remote client) (socket : e.socket = true)
      (connect : e.connect = false) : Stage stack e m remote client (.setSndTimeo fd readed fd')
  | connect {fd readed fd' : Nat} {server : Server} (resolved : Resolved stack e readed m.buffer server)
      (address : m.server = some server) (silent : Silent e remote client) (socket : e.socket = true)
      (connect : e.connect = false) : Stage stack e m remote client (.connect fd readed fd')
  | writeRemote {fd fd' total sent : Nat} {server : Server} (opened : Opened stack e total m.buffer server)
      (writes : Writes total e.remoteWrites sent) (left : sent < total) (isRemote : remote = slice m.buffer 0 sent)
      (isClient : client = []) (reads : e.remoteReads = []) (clientWrites : e.clientWrites = []) :
      Stage stack e m remote client (.writeRemote fd fd' total sent)
  | readRemote {fd fd' total : Nat} {request : List Byte} {server : Server}
    (opened : Opened stack e total request server)
      (writes : Writes total e.remoteWrites total) (isRemote : remote = slice request 0 total)
      (relays : Relays request e.remoteReads e.clientWrites client m.buffer) :
      Stage stack e m remote client (.readRemote fd fd')
  | writeClient {fd fd' total sent : Nat} {request buffer chunk out : List Byte} {server : Server}
      {reads : List (Option (List Byte))} {before results : List Int} (opened : Opened stack e total request server)
      (writes : Writes total e.remoteWrites total) (isRemote : remote = slice request 0 total)
      (relays : Relays request reads before out buffer) (nonempty : chunk ≠ []) (fits : chunk.length ≤ buffSize)
      (isReads : e.remoteReads = reads ++ [some chunk]) (isWrites : e.clientWrites = before ++ results)
      (isBuffer : m.buffer = overwrite buffer 0 chunk) (sends : Writes chunk.length results sent)
      (left : sent < chunk.length) (isClient : client = out ++ slice m.buffer 0 sent) :
      Stage stack e m remote client (.writeClient fd fd' chunk.length sent)
  | left {pc : HandlerPc} {outcome : Outcome} (closing : Closing pc) (handled : handleClient stack e = some outcome)
      (isRemote : remote = outcome.remote) (isClient : client = outcome.client)
      (ended : outcome.ending ≠ .sending ∧ outcome.ending ≠ .relaying)
      (opened : remote ≠ [] → ∃ total request server sent, Opened stack e total request server ∧ sent ≤ total ∧
        remote = slice request 0 sent)
      (inOrder : client <+: e.remoteReads.flatMap fun chunk => chunk.getD []) : Stage stack e m remote client pc

variable {m : Memory} {remote client : List Byte}

/-- The request is being sent. -/
theorem stage_sending (opened : Opened stack e total buffer server) (writes : Writes total e.remoteWrites sent)
    (left : sent < total) : handleClient stack e = some ⟨buffer,slice buffer 0 sent,[],.sending⟩ := by
  obtain ⟨socket,connect,first,resolved,removed⟩ := opened
  rw [handleClient_resolved resolved,if_neg (by simp [socket]),if_neg (by simp [connect]),removed]
  simp only [Option.map_some,writeLoop_waits writes left]

theorem stage_sendFailed (opened : Opened stack e total buffer server) {results : List Int} {n : Int}
    (writes : Writes total results sent) (is : e.remoteWrites = results ++ [n]) (left : sent < total) (failed : n ≤ 0) :
    handleClient stack e = some ⟨buffer,slice buffer 0 sent,[],.sendFailed⟩ := by
  obtain ⟨socket,connect,first,resolved,removed⟩ := opened
  rw [handleClient_resolved resolved,if_neg (by simp [socket]),if_neg (by simp [connect]),removed]
  simp only [Option.map_some,is,writeLoop_fails writes left failed]

/-- The request has been sent. -/
theorem stage_sent (opened : Opened stack e total request server) (writes : Writes total e.remoteWrites total) :
    handleClient stack e = some ⟨request,slice request 0 total,(relayLoop request e.remoteReads e.clientWrites).1,
      (relayLoop request e.remoteReads e.clientWrites).2⟩ := by
  obtain ⟨socket,connect,first,resolved,removed⟩ := opened
  have loop := @writeLoop_ends request _ _ writes []
  rw [List.append_nil] at loop
  rw [handleClient_resolved resolved,if_neg (by simp [socket]),if_neg (by simp [connect]),removed]
  simp only [Option.map_some,loop]

/-- The thread is over before it has sent anything. -/
theorem Silent.left {pc : HandlerPc} {outcome : Outcome} (silent : Silent e remote client) (closing : Closing pc)
    (handled : handleClient stack e = some outcome) (nothing : outcome.remote = [] ∧ outcome.client = [])
    (ended : outcome.ending ≠ .sending ∧ outcome.ending ≠ .relaying) : Stage stack e m remote client pc := by
  refine .left closing handled (silent.remote.trans nothing.1.symm) (silent.client.trans nothing.2.symm) ended ?_ ?_
  · exact fun sent => absurd silent.remote sent
  · rw [silent.client]
    exact List.nil_prefix

/-- The thread has a connection to the remote host, or it has finished. -/
def Answering : HandlerPc → Prop
  | .writeRemote _ _ _ _ | .readRemote _ _ | .writeClient _ _ _ _ => True
  | pc => Closing pc

/-- How the handler ends for the results of the calls, when its thread waits. -/
def Ends : HandlerPc → End → Prop
  | .writeRemote _ _ _ _,ending => ending = .sending
  | .readRemote _ _,ending | .writeClient _ _ _ _,ending => ending = .relaying
  | _,ending => ending ≠ .sending ∧ ending ≠ .relaying

/-- A thread that is not connected has sent nothing. -/
theorem stage_silent {pc : HandlerPc} (stage : Stage stack e m remote client pc) (idle : ¬ Answering pc) :
    Silent e remote client := by
  cases stage with
  | absent unread => exact unread.silent
  | loadArg unread => exact unread.silent
  | freeArg unread => exact unread.silent
  | read unread => exact unread.silent
  | parseRequestLine _ _ silent => exact silent
  | parseHeaders _ _ silent => exact silent
  | resolveHost _ silent => exact silent
  | socket _ _ silent => exact silent
  | setRcvTimeo _ _ silent => exact silent
  | setSndTimeo _ _ silent => exact silent
  | connect _ _ silent => exact silent
  | writeRemote => exact absurd trivial idle
  | readRemote => exact absurd trivial idle
  | writeClient => exact absurd trivial idle
  | left closing => cases pc <;> first | exact closing.elim | exact absurd trivial idle

/-- A connected thread has sent what the handler sends for these results. -/
theorem stage_handled {pc : HandlerPc} (stage : Stage stack e m remote client pc) (busy : Answering pc) :
    ∃ outcome, handleClient stack e = some outcome ∧ remote = outcome.remote ∧ client = outcome.client ∧
      Ends pc outcome.ending := by
  cases stage with
  | writeRemote opened writes left isRemote isClient => exact ⟨_,stage_sending opened writes left,isRemote,isClient,rfl⟩
  | readRemote opened writes isRemote relays =>
    have loop := relayLoop_relays relays [] []
    rw [List.append_nil,List.append_nil] at loop
    have handled := stage_sent opened writes
    rw [loop] at handled
    exact ⟨_,handled,isRemote,(List.append_nil _).symm,rfl⟩
  | writeClient opened writes isRemote relays nonempty fits isReads isWrites isBuffer sends left isClient =>
    have handled := stage_sent opened writes
    rw [isReads,isWrites,relayLoop_chunk relays nonempty fits (writeLoop_waits sends left) (by simp),← isBuffer]
      at handled
    exact ⟨_,handled,isRemote,isClient,rfl⟩
  | left closing handled isRemote isClient ended =>
    refine ⟨_,handled,isRemote,isClient,?_⟩
    cases pc <;> first | exact closing.elim | exact ended
  | _ => exact busy.elim

/-- What is sent to the client has been read from the remote server, in this order. -/
theorem stage_inOrder {pc : HandlerPc} (stage : Stage stack e m remote client pc) :
    client <+: e.remoteReads.flatMap fun chunk => chunk.getD [] := by
  by_cases busy : Answering pc
  · cases stage with
    | writeRemote _ _ _ _ isClient =>
      rw [isClient]
      exact List.nil_prefix
    | readRemote _ _ _ relays =>
      exact ⟨[],by rw [List.append_nil,relays_out relays]⟩
    | writeClient _ _ _ relays nonempty fits isReads _ isBuffer sends left isClient =>
      rw [isClient,isReads,List.flatMap_append,← relays_out relays,List.flatMap_singleton,Option.getD_some,isBuffer]
      exact chunk_prefix _ _ (Nat.le_of_lt left)
    | left _ _ _ _ _ _ inOrder => exact inOrder
    | _ => exact busy.elim
  · rw [(stage_silent stage busy).client]
    exact List.nil_prefix

/-- What is sent to the remote host is the beginning of the request that was made
    ready for it. -/
theorem stage_opened {pc : HandlerPc} (stage : Stage stack e m remote client pc) (something : remote ≠ []) :
    ∃ total request server sent, Opened stack e total request server ∧ sent ≤ total ∧ remote = slice request 0 sent :=
      by
  by_cases busy : Answering pc
  · cases stage with
    | writeRemote opened _ left isRemote => exact ⟨_,_,_,_,opened,Nat.le_of_lt left,isRemote⟩
    | readRemote opened _ isRemote => exact ⟨_,_,_,_,opened,Nat.le_refl _,isRemote⟩
    | writeClient opened _ isRemote => exact ⟨_,_,_,_,opened,Nat.le_refl _,isRemote⟩
    | left _ _ _ _ _ opened => exact opened something
    | _ => exact busy.elim
  · exact absurd (stage_silent stage busy).remote something

/-! ### The request as it is sent -/

/-- The edits of a buffer on the way to the remote host, when the request is taken. -/
def edits (buffer : List Byte) : Option (List Byte) := do
  match ← parseRequestLine buffer with
  | (.error _,_) => none
  | (.ok (),buffer) =>
    match ← parseHeaders buffer (array hValSize) with
    | (.error _,_) => none
    | (.ok _,buffer) => removeUrl buffer

/-- What becomes of an array into which these bytes have been read. -/
def requestBuffer (stack data : List Byte) : Option (List Byte) := do
  let buffer ← memcpy stack 0 data
  edits (← memcpy buffer data.length [0])

theorem requestBuffer_eq {data : List Byte} (room : data.length < stack.length) :
    requestBuffer stack data = edits (data ++ 0 :: stack.drop (data.length+1)) := by
  have stored := memcpy_string room
  obtain ⟨first,copied,ended⟩ := Option.bind_eq_some_iff.mp stored
  simp only [requestBuffer,copied,ended,Option.bind_eq_bind,Option.bind_some]

theorem parseRequestLine_versioned {text first : List Byte} (noNul : 0 ∉ text) (version : versioned text = some first)
    (rest : List Byte) : parseRequestLine (text ++ 0 :: rest) = some (.ok (),first ++ 0 :: rest) := by
  rcases parseRequestLine_text noNul rest with ⟨_,_,refused⟩ | ⟨first',parsed,version'⟩
  · cases version.symm.trans refused
  · cases version.symm.trans version'
    exact parsed

/-- Whether `parse_headers` takes a text, the host that it copies and the edit that it
    makes do not depend on what stands behind the NUL. -/
theorem parseHeaders_hosted {text : List Byte} {headers : Nat} {lines : List HeaderLine} (noNul : 0 ∉ text)
    (is : headerSection text = some (headers,lines))
    (hosted : (hostAfter (overwrite (array hValSize) 0 [0]) lines)[0]? ≠ some 0) :
    ∃ left, (reconnected text (lastConnection headers lines)).length + left.length =
        text.length + needed (lastConnection headers lines) ∧
      ∀ rest, parseHeaders (text ++ 0 :: rest) (array hValSize) =
        if needed (lastConnection headers lines) ≤ rest.length then
          some (.ok (hostAfter (overwrite (array hValSize) 0 [0]) lines),
            reconnected text (lastConnection headers lines) ++ 0 ::
              (left ++ rest.drop (needed (lastConnection headers lines)))) else none := by
  have nonempty : lines ≠ [] := by
    rintro rfl
    exact hosted rfl
  obtain ⟨left,size,connects⟩ := connection_edits noNul is nonempty
  refine ⟨left,size,fun rest => ?_⟩
  rcases parseHeaders_lines noNul rest (array_length hValSize) with
    ⟨_,_,hostless⟩ | ⟨headers',lines',is',_,parsed⟩
  · exact absurd (hostless _ _ is) hosted
  · cases is.symm.trans is'
    refine parsed.trans ((congrArg _ (connects rest)).trans ?_)
    split <;> rfl

/-- The edits of a text. They make the rewritten text of it, and behind its NUL they
    leave bytes of the text, and then what has been there. -/
theorem edits_text {text request : List Byte} (noNul : 0 ∉ text) {rest : List Byte}
    (edited : edits (text ++ 0 :: rest) = some request) :
    ∃ text' left needed, rewritten text = some text' ∧ text'.length + left.length = text.length + needed ∧
      ∀ rest, edits (text ++ 0 :: rest) =
        if needed ≤ rest.length then some (text' ++ 0 :: (left ++ rest.drop needed)) else none := by
  rcases parseRequestLine_text noNul rest with ⟨_,refused,_⟩ | ⟨first,parsed,version⟩
  · simp only [edits,refused,Option.bind_eq_bind,Option.bind_some] at edited
    cases edited
  obtain ⟨length,noNul'⟩ := versioned_keeps noNul version
  rw [edits,parsed,Option.bind_eq_bind,Option.bind_some] at edited
  obtain ⟨⟨outcome,buffer⟩,headed,edited⟩ := Option.bind_eq_some_iff.mp edited
  rcases parseHeaders_lines noNul' rest (array_length hValSize) with
    ⟨_,refused,_⟩ | ⟨headers,lines,is,hosted,_⟩
  · cases headed.symm.trans refused
    cases edited
  obtain ⟨left,size,connects⟩ := parseHeaders_hosted noNul' is hosted
  obtain ⟨left',size',removes⟩ := removeUrl_text (reconnected_noNul noNul' (lastConnection headers lines))
  have rewrites : rewritten text = some (urlRemoved (reconnected first (lastConnection headers lines))) := by
    rw [rewritten]
    simp only [version,is,Option.bind_eq_bind,Option.bind_some,Option.pure_def]
  refine ⟨_,left' ++ left,needed (lastConnection headers lines),rewrites,?_,fun rest => ?_⟩
  · rw [List.length_append]
    omega
  · rw [edits,parseRequestLine_versioned noNul version]
    simp only [Option.bind_eq_bind,Option.bind_some,connects]
    by_cases room : needed (lastConnection headers lines) ≤ rest.length
    · simp only [if_pos room,Option.bind_some,removes,List.append_assoc]
    · simp only [if_neg room,Option.bind_none]

/-- Bytes and a NUL behind them begin with a text and its NUL. -/
theorem string_first (data : List Byte) :
    ∃ behind, (data.takeWhile (· ≠ 0)).length + behind.length = data.length ∧
      ∀ tail, data ++ 0 :: tail = data.takeWhile (· ≠ 0) ++ 0 :: (behind ++ tail) := by
  have start := List.takeWhile_append_dropWhile (p := fun c : Byte => decide (c ≠ 0)) (l := data)
  cases behind : data.dropWhile (· ≠ 0) with
  | nil =>
    rw [behind,List.append_nil] at start
    exact ⟨[],by rw [start]; rfl,fun tail => by rw [start]; rfl⟩
  | cons c more =>
    have isNul : c = 0 := by
      have stops := List.head_dropWhile_not (fun c : Byte => decide (c ≠ 0)) (l := data) (by rw [behind]; simp)
      simpa only [behind,List.head_cons,decide_eq_false_iff_not,not_not] using stops
    rw [behind,isNul] at start
    refine ⟨more ++ [0],?_,fun tail => ?_⟩
    · have lengths := congrArg List.length start
      rw [List.length_append,List.length_cons] at lengths
      rwa [List.length_append,List.length_singleton]
    · rw [List.append_assoc,List.singleton_append,← List.cons_append,← List.append_assoc,start]

/-- The array is larger than what is read into it. -/
theorem received_room {data first : List Byte} (copied : memcpy stack 0 data = some first)
    (ended : memcpy first data.length [0] = some buffer) : data.length < stack.length := by
  rw [memcpy] at copied ended
  split at copied <;> cases copied
  rename_i fits
  rw [overwrite_length fits] at ended
  split at ended <;> cases ended
  assumption

/-- What is read and the NUL behind it begin with a text and its NUL. -/
theorem received_text {data first : List Byte} (copied : memcpy stack 0 data = some first)
    (ended : memcpy first data.length [0] = some buffer) :
    ∃ rest, buffer = data.takeWhile (· ≠ 0) ++ 0 :: rest := by
  have whole := memcpy_string (received_room copied ended)
  rw [copied,Option.bind_some,ended,Option.some.injEq] at whole
  obtain ⟨behind,_,split⟩ := string_first data
  exact ⟨_,whole.trans (split _)⟩

theorem data_noNul (data : List Byte) : 0 ∉ data.takeWhile (· ≠ 0) := fun member => by
  simpa using List.mem_takeWhile_imp member

/-- The buffer that is sent is made of what has been read. -/
theorem opened_requestBuffer {data : List Byte} (opened : Opened stack e total request server)
    (isData : e.request = some data) :
    total = data.length ∧ data.length < stack.length ∧ requestBuffer stack data = some request := by
  obtain ⟨_,_,edited,⟨host,⟨line,⟨first,⟨data',copy,isData',rfl,filled,fits,copied,ended⟩,parsed⟩,headed⟩,_⟩,removed⟩ :=
    opened
  cases isData.symm.trans isData'
  refine ⟨rfl,received_room copied ended,?_⟩
  simp only [requestBuffer,edits,copied,ended,parsed,headed,removed,Option.bind_eq_bind,Option.bind_some]

/-- The text that was read, up to its first NUL, has been rewritten. -/
theorem opened_text {data : List Byte} (opened : Opened stack e total request server) (isData : e.request = some data) :
    total = data.length ∧ ∃ text rest, rewritten (data.takeWhile (· ≠ 0)) = some text ∧ request = text ++ 0 :: rest :=
      by
  obtain ⟨isTotal,room,made⟩ := opened_requestBuffer opened isData
  obtain ⟨behind,_,split⟩ := string_first data
  rw [requestBuffer_eq room,split] at made
  obtain ⟨text,left,needed,rewrites,_,edited⟩ := edits_text (data_noNul data) made
  rw [edited] at made
  split at made <;> cases made
  exact ⟨isTotal,text,_,rewrites,rfl⟩

/-- As much of the buffer as has been read is the same in an array of zeros: it does
    not depend on what has been in the array before. -/
theorem opened_array {data : List Byte} (opened : Opened stack e total request server)
    (isData : e.request = some data) :
    ∃ text rest, rewritten (data.takeWhile (· ≠ 0)) = some text ∧
      requestBuffer (array stack.length) data = some (text ++ 0 :: rest) ∧
      request.take data.length <+: text ++ 0 :: rest := by
  obtain ⟨_,room,made⟩ := opened_requestBuffer opened isData
  have room' : data.length < (array stack.length).length := by rwa [array_length]
  obtain ⟨behind,length,split⟩ := string_first data
  rw [requestBuffer_eq room,split] at made
  obtain ⟨text,left,needed,rewrites,size,edited⟩ := edits_text (data_noNul data) made
  rw [edited] at made
  split at made <;> cases made
  rename_i enough
  refine ⟨text,_,rewrites,(requestBuffer_eq room').trans ((congrArg edits (split _)).trans ((edited _).trans
    (if_pos ?_))),?_⟩
  · simpa only [List.length_append,List.length_drop,array_length] using enough
  · -- The bytes that were read and the NUL behind them are in front of the array's own ones.
    have common : data.length ≤ (text ++ 0 :: (left ++ behind.drop needed)).length := by
      simp only [List.length_append,List.length_cons,List.length_drop]
      omega
    have front : ∀ tail : List Byte, text ++ 0 :: (left ++ (behind ++ tail).drop needed) =
        (text ++ 0 :: (left ++ behind.drop needed)) ++ tail.drop (needed - behind.length) := fun tail => by
      rw [List.drop_append]
      simp only [List.append_assoc,List.cons_append]
    rw [front,front,List.take_append_of_le_length common]
    exact (List.take_prefix ..).trans (List.prefix_append ..)

/-! ### A request that is taken -/

section
variable {σ : Proxy.State} {k client_sock_fd remote_sock_fd readed headers : Nat} {text text' first rest : List Byte}
  {lines : List HeaderLine}

/-- The parsers take a request, its host has an address, and this is what the edits
    make of it. -/
structure Accepted (getaddrinfo : List Byte → Option Nat) (text first text' : List Byte) (headers : Nat)
    (lines : List HeaderLine) (server : Server) : Prop where
  noNul : 0 ∉ text
  version : versioned text = some first
  headerLines : headerSection first = some (headers,lines)
  hosted : (hostAfter (overwrite (array hValSize) 0 [0]) lines)[0]? ≠ some 0
  resolved : resolveHost getaddrinfo (hostAfter (overwrite (array hValSize) 0 [0]) lines) = some (some server)
  rewrites : rewritten text = some text'

/-- What a thread does next is its first `write`. -/
def atFirstWrite (σ : Proxy.State) (k client_sock_fd remote_sock_fd readed : Nat) (memory : Memory) : Proxy.State :=
  { σ with
    conns := { σ.conns with
      descriptors := σ.conns.descriptors.take remote_sock_fd (.remote k)
      handler := Function.update σ.conns.handler k (.writeRemote client_sock_fd remote_sock_fd readed 0) }
    memory := Function.update σ.memory k memory
    peer := Function.update σ.peer (.remote k) memory.server
    calls := Function.update σ.calls k { σ.calls k with socket := true, connect := true } }

/-- The parsers and the resolver. -/
theorem request_parses (pc : σ.conns.handler k = .parseRequestLine client_sock_fd readed)
    (isBuffer : (σ.memory k).buffer = text ++ 0 :: rest) (isHost : (σ.memory k).host = array hValSize)
    (accepted : Accepted (σ.calls k).getaddrinfo text first text' headers lines server)
    (room : needed (lastConnection headers lines) ≤ rest.length) : ∃ rest',
      Transition.run Proxy.step σ [.handler k 0,.handler k 0,.handler k 0] = some { σ with
        conns := σ.conns.handlerAt k (.socket client_sock_fd readed)
        memory := Function.update σ.memory k ⟨reconnected first (lastConnection headers lines) ++ 0 :: rest',
          hostAfter (overwrite (array hValSize) 0 [0]) lines,some server⟩ } := by
  have noNul := (versioned_keeps accepted.noNul accepted.version).2
  obtain ⟨left,_,parses⟩ := parseHeaders_hosted noNul accepted.headerLines accepted.hosted
  have line := parseRequestLine_versioned accepted.noNul accepted.version rest
  have parsed := (parses rest).trans (if_pos room)
  refine ⟨left ++ rest.drop (needed (lastConnection headers lines)),?_⟩
  simp [Transition.run,Proxy.step,Proxy.call,Connections.handleClient,pc,isBuffer,isHost,line,parsed,accepted.resolved,
    Proxy.status,Proxy.State.store,Connections.State.handlerAt]

/-- The remote socket is connected, and the buffer made ready for it. -/
theorem request_connects {buffer : List Byte} (pc : σ.conns.handler k = .socket client_sock_fd readed)
    (removed : removeUrl (σ.memory k).buffer = some buffer) (free : σ.conns.descriptors.owner remote_sock_fd = none) :
    Transition.run Proxy.step σ [.handler k remote_sock_fd,.handler k 0,.handler k 0,.handler k 0] =
      some (atFirstWrite σ k client_sock_fd remote_sock_fd readed { σ.memory k with buffer }) := by
  have positive : ¬ (remote_sock_fd : Int) < 0 := by omega
  simp [Transition.run,Proxy.step,Proxy.call,Connections.handleClient,pc,removed,Proxy.State.store,Proxy.State.record,
    Proxy.State.connect,Proxy.State.socketOf,Connections.State.handlerAt,Connections.State.openAs,Handles.Table.take,
    free,positive,atFirstWrite]

/-- A thread whose request is taken begins to send what the edits make of it, when no
    call fails. -/
theorem request_opens (pc : σ.conns.handler k = .parseRequestLine client_sock_fd readed)
    (isBuffer : (σ.memory k).buffer = text ++ 0 :: rest) (isHost : (σ.memory k).host = array hValSize)
    (accepted : Accepted (σ.calls k).getaddrinfo text first text' headers lines server)
    (room : needed (lastConnection headers lines) ≤ rest.length)
    (free : σ.conns.descriptors.owner remote_sock_fd = none) : ∃ rest',
      Transition.run Proxy.step σ [.handler k 0,.handler k 0,.handler k 0,.handler k remote_sock_fd,.handler k 0,
        .handler k 0,.handler k 0] = some (atFirstWrite σ k client_sock_fd remote_sock_fd readed
          ⟨text' ++ 0 :: rest',hostAfter (overwrite (array hValSize) 0 [0]) lines,some server⟩) := by
  obtain ⟨rest',parsed⟩ := request_parses pc isBuffer isHost accepted room
  have noNul := reconnected_noNul (versioned_keeps accepted.noNul accepted.version).2 (lastConnection headers lines)
  obtain ⟨left,_,removes⟩ := removeUrl_text noNul
  have isText : urlRemoved (reconnected first (lastConnection headers lines)) = text' := by
    have rewrites := accepted.rewrites
    rw [rewritten] at rewrites
    simpa only [accepted.version,accepted.headerLines,Option.bind_eq_bind,Option.bind_some,Option.pure_def,
      Option.some.injEq] using rewrites
  have removed : removeUrl (Function.update σ.memory k ⟨reconnected first (lastConnection headers lines) ++ 0 :: rest',
      hostAfter (overwrite (array hValSize) 0 [0]) lines,some server⟩ k).buffer =
        some (text' ++ 0 :: (left ++ rest')) := by
    rw [Function.update_self,← isText]
    exact removes rest'
  refine ⟨left ++ rest',?_⟩
  have connected := Transition.run_append parsed (request_connects (Function.update_self ..) removed free)
  simpa [atFirstWrite,Connections.State.handlerAt] using connected

end

end Os5Sem.ProxyStages

import Os5Sem.CMemory

/-!
The handler of a connection in `handler.c`. A parser that returns 1 gives what it
prints; a result is missing when the source would write outside of an array. What
the system calls return is part of the environment (`Env`).
-/
namespace Os5Sem.Handler
open Os5Sem.CMemory
open Os5Sem.Occurrences (overwrite)

def httpPort : Int := 80
def buffSize : Nat := 128*1024
def hNameSize : Nat := 256
def hValSize : Nat := 2048

def crlf : List Byte := ascii "\r\n"

/-- `sscanf(buffer, "%15s %2047s %11s", method, url, version)`; no result when it
    does not return 3. -/
def scanRequestLine (text : List Byte) : Option (List Byte × List Byte × List Byte) := do
  let (method,text) ← scanString 15 text
  let (url,text) ← scanString 2047 text
  let (version,_) ← scanString 11 text
  return (method,url,version)

def parseRequestLine (buffer : List Byte) : Option (Except (List Byte) Unit × List Byte) :=
  match scanRequestLine (cstring buffer 0) with
  | none => some (.error (ascii "Parse HTTP query request line failed\n"),buffer)
  | some (method,url,version) =>
    if strncmp method (ascii "GET") 3 ≠ 0 then
      let tracked := method ++ ascii ", " ++ url ++ ascii "\n"
      some (.error (ascii "Only GET method is supported. Method, url tracked: " ++ tracked),buffer)
    else if strncmp version (ascii "HTTP/1.0") 8 ≠ 0 ∧ strncmp version (ascii "HTTP/1.1") 8 ≠ 0 then
      let tracked := version ++ ascii ", " ++ url ++ ascii "\n"
      some (.error (ascii "Only HTTP/1.0 or HTTP/1.1 version supported. Version, url tracked: " ++ tracked),buffer)
    else
      match strstr buffer 0 version with
      | some version_pos => (memcpy buffer version_pos (ascii "HTTP/1.1")).map fun buffer => (.ok (),buffer)
      | none => some (.ok (),buffer)

/-- The spaces from a position on are skipped. -/
def skipSpaces (buffer : List Byte) (p : Nat) : Nat := p + ((buffer.drop p).takeWhile (· = 32)).length

/-- The loop of `parse_headers`, from the header at `headers` on: the last
    `Connection` header, and the host. `fuel` bounds the number of headers. -/
def scanHeaders (buffer : List Byte) :
    (fuel headers : Nat) → (connection_h : Option Nat) → (host : List Byte) →
      Option (Except (List Byte) (Option Nat × List Byte))
  | 0, _, _, _ => none
  | fuel+1, headers, connection_h, host =>
    if buffer[headers]? = some 13 ∧ buffer[headers+1]? = some 10 then some (.ok (connection_h,host))
    else
      match strchr buffer headers 58 with
      | none => some (.error (ascii "Invalid header structure: colon not found\n"))
      | some colon =>
        let header_name_len := colon - headers
        if header_name_len = 0 ∨ hNameSize ≤ header_name_len then
          some (.error (ascii "Invalid header structure: invalid colon location\n"))
        else do
          let name_array ← memcpy (array hNameSize) 0 (slice buffer headers header_name_len)
          let name_array ← memcpy name_array header_name_len [0]
          let header_name := cstring name_array 0
          let header_val_start := skipSpaces buffer (colon+1)
          match strstr buffer header_val_start crlf with
          | none => some (.error (ascii "Invalid header structure: header end not found\n"))
          | some header_val_end =>
            let header_value_len := header_val_end - header_val_start
            if header_value_len = 0 ∨ hValSize ≤ header_value_len then
              some (.error (ascii "Invalid header structure: invalid header end location\n"))
            else do
              let host ←
                if strcasecmp header_name (ascii "host") = 0 then do
                  let host ← memcpy host 0 (slice buffer header_val_start header_value_len)
                  memcpy host header_value_len [0]
                else some host
              let connection_h := if strcasecmp header_name (ascii "connection") = 0 then some headers else connection_h
              scanHeaders buffer fuel (header_val_end+2) connection_h host

/-- The value of the header at `connection_h` becomes `close`. -/
def closeConnection (buffer : List Byte) (connection_h : Nat) : Option (List Byte) :=
  match strstr buffer connection_h crlf with
  | none => some buffer
  | some header_end =>
    match strchr buffer connection_h 58 with
    | none => some buffer
    | some colon => do
      let val_start := skipSpaces buffer (colon+1)
      -- The value of a header is not empty, so that this is not negative.
      let old_val_len := header_end - val_start
      let buffer ← memcpy buffer val_start (ascii "close")
      if old_val_len > 5 then memmove buffer (val_start+5) header_end (strlen buffer header_end + 1) else some buffer

def connectionLine : List Byte := ascii "\nConnection: close\r\n"

/-- A `Connection` header is put in at the end of the headers. -/
def addConnection (buffer : List Byte) : Option (List Byte) :=
  match strstr buffer 0 (ascii "\r\n\r\n") with
  | none => some buffer
  | some headers_end => do
    let connection_len := connectionLine.length
    let buffer ← memmove buffer (headers_end+connection_len) headers_end (strlen buffer headers_end + 1)
    memcpy buffer headers_end connectionLine

def parseHeaders (buffer host : List Byte) : Option (Except (List Byte) (List Byte) × List Byte) :=
  match strstr buffer 0 crlf with
  | none => some (.error (ascii "Headers not found\n"),buffer)
  | some line_end => do
    let host ← memcpy host 0 [0]
    match ← scanHeaders buffer (buffer.length+1) (line_end+2) none host with
    | .error message => some (.error message,buffer)
    | .ok (connection_h,host) =>
      if host[0]? = some 0 then some (.error (ascii "Host header not found\n"),buffer)
      else do
        let buffer ← match connection_h with
          | some connection_h => closeConnection buffer connection_h
          | none => addConnection buffer
        return (.ok host,buffer)

/-- The address and the port of `struct sockaddr_in`. -/
structure Server where
  addr : Nat
  port : Nat
deriving DecidableEq

/-- `resolve_host` where `getaddrinfo` gives the address of a name or fails. -/
def resolveHost (getaddrinfo : List Byte → Option Nat) (host : List Byte) : Option (Option Server) := do
  let (host_name,port) ←
    match strchr host 0 58 with
    | some colon => do
      let host_name ← memcpy (array hValSize) 0 (slice host 0 colon)
      let host_name ← memcpy host_name colon [0]
      let port := atoi (cstring host (colon+1))
      pure (host_name,if port = 0 then httpPort else port)
    | none => do
      let host_name ← memcpy (array hValSize) 0 ((cstring host 0).take hValSize)
      let host_name ← memcpy host_name (hValSize-1) [0]
      pure (host_name,httpPort)
  -- `htons` takes the lower 16 bits of the port.
  return (getaddrinfo (cstring host_name 0)).map fun addr => ⟨addr,(port % 65536).toNat⟩

/-- `http://` and the host after it are taken out of the buffer. -/
def removeUrl (buffer : List Byte) : Option (List Byte) :=
  match strstr buffer 0 (ascii "http://") with
  | none => some buffer
  | some url_start =>
    let path_start := url_start+7
    match strchr buffer path_start 47 with
    | none => some buffer
    | some first_slash => memmove buffer url_start first_slash (strlen buffer first_slash + 1)

/-- How a loop of `write` calls stands: it waits for the result of a call, or it
    is over. -/
inductive Progress
  | waiting
  | failed
  | done
deriving DecidableEq

/-- A loop that writes `total` bytes of the buffer, for the results of its calls:
    the bytes that were taken, and the results that are left. A call takes no more
    than it is asked to. -/
def writeLoop (buffer : List Byte) (total : Nat) : (sent : Nat) → List Int → List Byte × Progress × List Int
  | sent, [] => ([],if sent < total then .waiting else .done,[])
  | sent, n :: results =>
    if sent < total then
      if n ≤ 0 then ([],.failed,results)
      else
        let n := min n.toNat (total-sent)
        let (more,progress,results) := writeLoop buffer total (sent+n) results
        (slice buffer sent n ++ more,progress,results)
    else ([],.done,n :: results)

/-- How the handler ends, or where it waits for a call. -/
inductive End
  | readFailed
  | refused (message : List Byte)
  | resolveFailed
  | socketFailed
  | connectFailed
  | sending
  | sendFailed
  | relaying
  | relayFailed
  | remoteFailed
  | remoteClosed
deriving DecidableEq

/-- The loop that sends what the remote server answers to the client: what the
    client was sent. A missing chunk is a `read` that returns -1, an empty one is
    the end. -/
def relayLoop (buffer : List Byte) : List (Option (List Byte)) → List Int → List Byte × End
  | [], _ => ([],.relaying)
  | none :: _, _ => ([],.remoteFailed)
  | some chunk :: reads, results =>
    let chunk := chunk.take buffSize
    if chunk = [] then ([],.remoteClosed)
    else
      let buffer := overwrite buffer 0 chunk
      match writeLoop buffer chunk.length 0 results with
      | (sent,.waiting,_) => (sent,.relaying)
      | (sent,.failed,_) => (sent,.relayFailed)
      | (sent,.done,results) =>
        let (more,ending) := relayLoop buffer reads results
        (sent ++ more,ending)

/-- The results of the system calls. A missing request is a `read` that returns
    -1, an empty one is the end of the connection. -/
structure Env where
  request : Option (List Byte)
  getaddrinfo : List Byte → Option Nat
  socket : Bool
  connect : Bool
  remoteWrites : List Int
  remoteReads : List (Option (List Byte))
  clientWrites : List Int

/-- What the handler has done: the buffer as it was when the handler began to send
    it, what the remote server and the client were sent, and how it ended. -/
structure Outcome where
  buffer : List Byte
  remote : List Byte
  client : List Byte
  ending : End

def handleClient (buffer : List Byte) (env : Env) : Option Outcome := do
  let received := (env.request.getD []).take (buffSize-1)
  let readed := received.length
  if readed = 0 then return ⟨buffer,[],[],.readFailed⟩
  let buffer ← memcpy buffer 0 received
  let buffer ← memcpy buffer readed [0]
  match ← parseRequestLine buffer with
  | (.error message,buffer) => return ⟨buffer,[],[],.refused message⟩
  | (.ok (),buffer) =>
  match ← parseHeaders buffer (array hValSize) with
  | (.error message,buffer) => return ⟨buffer,[],[],.refused message⟩
  | (.ok host,buffer) =>
  match ← resolveHost env.getaddrinfo host with
  | none => return ⟨buffer,[],[],.resolveFailed⟩
  | some _ =>
  if !env.socket then return ⟨buffer,[],[],.socketFailed⟩
  if !env.connect then return ⟨buffer,[],[],.connectFailed⟩
  let buffer ← removeUrl buffer
  match writeLoop buffer readed 0 env.remoteWrites with
  | (remote,.waiting,_) => return ⟨buffer,remote,[],.sending⟩
  | (remote,.failed,_) => return ⟨buffer,remote,[],.sendFailed⟩
  | (remote,.done,_) =>
    let (client,ending) := relayLoop buffer env.remoteReads env.clientWrites
    return ⟨buffer,remote,client,ending⟩

end Os5Sem.Handler

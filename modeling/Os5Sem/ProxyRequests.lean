import Os5Sem.HostResolution
import Os5Sem.ProxyIsolation
import Os5Sem.Rewriting

/-!
Requests on their way through the whole proxy: whatever happens to the other
connections, and whichever calls fail, the server that the host of a request stands for
is sent the request that is meant for it, and the client gets an answer only when this
has been sent as a whole (`request_delivered`).
-/
namespace Os5Sem.ProxyRequests
open Os5Sem.Occurrences Os5Sem.CMemory Os5Sem.Handler Os5Sem.RequestText Os5Sem.RequestLength Os5Sem.Forwarding
open Os5Sem.HeaderReading Os5Sem.HostResolution Os5Sem.Messages Os5Sem.Segmentation Os5Sem.Proxy Os5Sem.ProxyStages
open Os5Sem.ProxyIsolation
open Os5Sem.Connections (Socket HandlerPc)
open Os5Sem.Relay (slice_split)

/-! ### What the calls have been told -/

/-- `getaddrinfo` stays what it is for a thread, and its first `read` leaves room for a
    NUL in the buffer. -/
structure Recorded (dns : Nat → List Byte → Option Nat) (σ : State) : Prop where
  dns : ∀ k, (σ.calls k).getaddrinfo = dns k
  fits : ∀ k data, (σ.calls k).request = some data → data.length ≤ buffSize-1

variable {dns : Nat → List Byte → Option Nat} {stack : Nat → List Byte} {σ σ' σ1 : State} {k : Nat} {result : Int}

theorem start_recorded : Recorded dns (start dns stack) := ⟨fun _ => rfl,by rintro k data ⟨⟩⟩

theorem Recorded.record (recorded : Recorded dns σ) {e : Env} (tells : Tells (σ.calls k) e) :
    Recorded dns (σ.record k e) := by
  have others : ∀ j, (σ.record k e).calls j = if j = k then e else σ.calls j := fun j => Function.update_apply ..
  refine ⟨fun j => ?_,fun j data is => ?_⟩
  · rw [others j]
    split
    · rename_i isK
      rw [tells.getaddrinfo,isK,recorded.dns k]
    · exact recorded.dns j
  · rw [others j] at is
    split at is
    · rcases tells.request with same | short
      · exact recorded.fits k data (same ▸ is)
      · exact short data is
    · exact recorded.fits j data is

theorem Recorded.congr (recorded : Recorded dns σ) (calls : σ'.calls = σ.calls) : Recorded dns σ' :=
  ⟨fun k => calls ▸ recorded.dns k,fun k data is => recorded.fits k data (calls ▸ is)⟩

theorem call_recorded (recorded : Recorded dns σ) {pc : HandlerPc} (called : call σ k result pc = some σ1) :
    Recorded dns σ1 := by
  obtain ⟨σ2,m,e,operates,tells,rfl⟩ := call_cases called
  have calls := operates.calls
  refine Recorded.record ((recorded.congr calls).congr (σ2.store_calls ..)) ?_
  rw [State.store_calls,calls]
  exact tells

theorem recorded_step (σ : State) (a : Act) (σ' : State) (recorded : Recorded dns σ) (taken : step σ a = some σ') :
    Recorded dns σ' := by
  cases a with
  | main result =>
    obtain ⟨conns,_,rfl⟩ := Option.map_eq_some_iff.mp taken
    exact recorded.congr rfl
  | handler k result =>
    obtain ⟨σ1,conns,called,_,rfl⟩ := handler_cases taken
    exact (call_recorded recorded called).congr rfl
  | arrive s bytes =>
    cases taken
    exact recorded.congr rfl

/-! ### An answer -/

variable {memory : List Byte} {e : Env}

theorem writeLoop_whole {buffer out : List Byte} {total sent : Nat} {results left : List Int}
    (loop : writeLoop buffer total sent results = (out,.done,left)) : out = slice buffer sent (total-sent) := by
  induction results generalizing sent out with
  | nil =>
    rw [writeLoop] at loop
    split at loop <;> cases loop
    rename_i all
    rw [Nat.sub_eq_zero_of_le (by omega)]
    rfl
  | cons n results ih =>
    rw [writeLoop] at loop
    split at loop
    · split at loop
      · cases loop
      · simp only at loop
        rcases onward : writeLoop buffer total (sent + min n.toNat (total-sent)) results with ⟨more,progress,behind⟩
        rw [onward] at loop
        cases loop
        rw [ih onward,slice_split buffer (Nat.min_le_right n.toNat (total-sent)),Nat.sub_add_eq]
    · cases loop
      rename_i all
      rw [Nat.sub_eq_zero_of_le (by omega)]
      rfl

/-- When the client has been answered, the whole request has been sent before. -/
theorem request_before_answer {data : List Byte} {outcome : Outcome} (isData : e.request = some data)
    (fits : data.length ≤ buffSize-1) (handled : handleClient memory e = some outcome)
    (answered : outcome.client ≠ []) :
    ∃ total request server, Opened memory e total request server ∧ outcome.remote = slice request 0 total := by
  have whole : data.take (buffSize-1) = data := List.take_of_length_le fits
  have ran := handled
  rw [handleClient] at handled
  simp only [isData,Option.getD_some,whole] at handled
  split at handled
  · cases handled
    exact absurd rfl answered
  rename_i filled
  obtain ⟨copy,copied,handled⟩ := Option.bind_eq_some_iff.mp handled
  obtain ⟨first,ended,handled⟩ := Option.bind_eq_some_iff.mp handled
  have received : Received memory e data.length first := ⟨data,copy,isData,rfl,by omega,fits,copied,ended⟩
  obtain ⟨⟨parsed,line⟩,isParsed,handled⟩ := Option.bind_eq_some_iff.mp handled
  cases parsed with
  | error message =>
    cases handled
    exact absurd rfl answered
  | ok _ =>
  have lined : Lined memory e data.length line := ⟨first,received,isParsed⟩
  obtain ⟨⟨parsed,edited⟩,isHeaded,handled⟩ := Option.bind_eq_some_iff.mp handled
  cases parsed with
  | error message =>
    cases handled
    exact absurd rfl answered
  | ok host =>
  have headed : Headed memory e data.length edited host := ⟨line,lined,isHeaded⟩
  obtain ⟨found,isFound,handled⟩ := Option.bind_eq_some_iff.mp handled
  cases found with
  | none =>
    cases handled
    exact absurd rfl answered
  | some server =>
  have resolved : Resolved memory e data.length edited server := ⟨host,headed,isFound⟩
  rw [handleClient_resolved resolved] at ran
  split at ran
  · cases ran
    exact absurd rfl answered
  rename_i socket
  split at ran
  · cases ran
    exact absurd rfl answered
  rename_i connect
  obtain ⟨request,removed,ran⟩ := Option.map_eq_some_iff.mp ran
  have opened : Opened memory e data.length request server :=
    ⟨by simpa using socket,by simpa using connect,edited,resolved,removed⟩
  rcases loop : writeLoop request data.length 0 e.remoteWrites with ⟨remote,progress,left⟩
  rw [loop] at ran
  cases progress with
  | waiting =>
    cases ran
    exact absurd rfl answered
  | failed =>
    cases ran
    exact absurd rfl answered
  | done =>
    cases ran
    exact ⟨_,request,server,opened,writeLoop_whole loop⟩

/-! ### The server -/

variable {r : Request}

theorem host_value (r : Request) : 0 ∉ r.host ∧ r.host.length < hValSize := by
  obtain ⟨line,member,same⟩ := hostOf_mem r.hosted_line
  obtain ⟨h,_,rfl⟩ := List.mem_map.mp member
  rw [← same]
  exact ⟨h.noNul.2,h.valued.2⟩

/-- An array that has room behind its string holds the string and a NUL. -/
theorem string_split {array : List Byte} (room : (cstring array 0).length < array.length) :
    ∃ rest, array = cstring array 0 ++ 0 :: rest := by
  have split := List.takeWhile_append_dropWhile (p := fun c : Byte => decide (c ≠ 0)) (l := array)
  have string : array.takeWhile (fun c => decide (c ≠ 0)) = cstring array 0 := rfl
  cases behind : array.dropWhile (fun c => decide (c ≠ 0)) with
  | nil =>
    rw [behind,List.append_nil,string] at split
    rw [split] at room
    exact absurd room (Nat.lt_irrefl _)
  | cons c rest =>
    have stops := List.head_dropWhile_not (fun c : Byte => decide (c ≠ 0)) (l := array) (by rw [behind]; simp)
    simp only [behind,List.head_cons,decide_eq_false_iff_not,not_not] at stops
    rw [behind,string,stops] at split
    exact ⟨rest,split.symm⟩

/-- The server is the one that the host of the request stands for. -/
theorem resolved_server {data buffer : List Byte} {readed : Nat} {server : Server} (rewritable : r.Rewritable)
    (resolved : Resolved memory e readed buffer server) (isData : e.request = some data)
    (isText : data.takeWhile (· ≠ 0) = r.text) :
    ∃ addr, e.getaddrinfo (nameOf r.host) = some addr ∧ server = ⟨addr,(portOf r.host % 65536).toNat⟩ := by
  obtain ⟨host,⟨line,⟨first,⟨data',copy,isData',rfl,filled,fits,copied,ended⟩,parsed⟩,headed⟩,found⟩ := resolved
  cases isData.symm.trans isData'
  obtain ⟨rest,is⟩ := received_text copied ended
  rw [is,isText] at parsed
  rcases parseRequestLine_text r.noNul_text rest with ⟨_,refused,_⟩ | ⟨first',parsed',version⟩
  · cases parsed.symm.trans refused
  cases parsed.symm.trans parsed'
  cases version.symm.trans (Request.versioned_text rewritable)
  rcases parseHeaders_reads r.upgraded.noNul_text rest (array_length hValSize) with
    ⟨⟨_,_,refused⟩,_⟩ | ⟨headers,lines,value,host',reads,_,size,string,headed'⟩
  · cases headed.symm.trans refused
  have same : host = host' := by
    obtain ⟨_,_,same⟩ := Option.map_eq_some_iff.mp (headed'.symm.trans headed)
    cases same
    rfl
  have isHost : cstring host 0 = r.host := by
    rw [same,string]
    exact (reads_unique reads r.upgraded.reads_text).2.2
  obtain ⟨noNul,short⟩ := host_value r
  have room : (cstring host 0).length < host.length := by rwa [isHost,same,size]
  obtain ⟨rest',split⟩ := string_split room
  rw [isHost] at split
  rw [split,resolveHost_text e.getaddrinfo noNul short,Option.some.injEq] at found
  obtain ⟨addr,told,isServer⟩ := Option.map_eq_some_iff.mp found
  exact ⟨addr,told,isServer.symm⟩

/-! ### The whole proxy -/

/-- What a connection does with the request that it has read. -/
structure Delivered (dns : Nat → List Byte → Option Nat) (σ : State) (k : Nat) (r : Request) : Prop where
  -- behind the request there can be bytes of the buffer
  request : ∃ rest, σ.sent (.remote k) <+: r.forwarded.text ++ 0 :: rest
  server : σ.sent (.remote k) ≠ [] → ∃ addr, dns k (nameOf r.host) = some addr ∧
    σ.peer (.remote k) = some ⟨addr,(portOf r.host % 65536).toNat⟩
  answer : σ.sent (.client k) <+: σ.arrived (.remote k)
  whole : σ.sent (.client k) ≠ [] → r.forwarded.text <+: σ.sent (.remote k)

/-- In every state of the proxy: a request that the edits are made for is sent to its
    server as the request that is meant for it, and it has been sent as a whole when
    the client gets an answer. -/
theorem request_delivered {acts : List Act} {data : List Byte}
    (ran : Transition.run step (start dns stack) acts = some σ) (isData : (σ.calls k).request = some data)
    (isText : data.takeWhile (· ≠ 0) = r.text) (rewritable : r.Rewritable) : Delivered dns σ k r := by
  have recorded := Transition.run_invariant recorded_step ran start_recorded
  obtain ⟨stage,_,remote,peer⟩ := (run_isolated ran).connection k
  have text : ∀ {total request server}, Opened (stack k) (σ.calls k) total request server →
      total = data.length ∧ ∃ rest, request = r.forwarded.text ++ 0 :: rest := by
    intro total request server opened
    obtain ⟨length,text,rest,isRewritten,is⟩ := opened_text opened isData
    rw [isText,Request.rewritten_text rewritable] at isRewritten
    cases isRewritten
    exact ⟨length,rest,is⟩
  constructor
  case answer =>
    rw [remote]
    exact (stage_inOrder stage).trans (List.prefix_append ..)
  case request =>
    by_cases nothing : σ.sent (.remote k) = []
    · rw [nothing]
      exact ⟨[],List.nil_prefix⟩
    · obtain ⟨total,request,server,sent,opened,_,is⟩ := stage_opened stage nothing
      obtain ⟨_,rest,isRequest⟩ := text opened
      refine ⟨rest,?_⟩
      rw [is,isRequest]
      exact List.take_prefix ..
  case server =>
    intro something
    obtain ⟨total,request,server,sent,opened,_,is⟩ := stage_opened stage something
    obtain ⟨socket,connect,edited,resolved,_⟩ := opened
    obtain ⟨server',contacts,isPeer⟩ := peer connect
    cases contacts.symm.trans (contacted_resolved resolved socket)
    obtain ⟨addr,told,isServer⟩ := resolved_server rewritable resolved isData isText
    rw [recorded.dns k] at told
    exact ⟨addr,told,isServer ▸ isPeer⟩
  case whole =>
    intro answered
    have busy : Answering (σ.conns.handler k) := by
      by_contra idle
      exact answered (stage_silent stage idle).client
    obtain ⟨outcome,handled,isRemote,isClient,_⟩ := stage_handled stage busy
    rw [isClient] at answered
    obtain ⟨total,request,server,opened,is⟩ :=
      request_before_answer isData (recorded.fits k data isData) handled answered
    obtain ⟨length,rest,isRequest⟩ := text opened
    have short := Request.forwarded_length rewritable.connection
    have inside : r.text.length ≤ data.length := isText ▸ (List.takeWhile_prefix _).length_le
    rw [isRemote,is,isRequest,slice,List.drop_zero,List.take_append]
    rw [List.take_of_length_le (by omega)]
    exact List.prefix_append ..

/-- The request is sent in two pieces, and the client gets the first bytes of the
    answer. -/
def delivery : List Act :=
  [.arrive (.client 0) Request.browsing.text,.main 4,.main 64,.main 0,.main 0,.handler 0 0,.handler 0 0,.handler 0 64,
    .handler 0 0,.handler 0 0,.handler 0 0,.handler 0 5,.handler 0 0,.handler 0 0,.handler 0 0,.handler 0 40,
    .handler 0 24,.arrive (.remote 0) [1,2,3],.handler 0 3,.handler 0 2]

def browsingRead (tail : List Byte) : State :=
  (Transition.run step (start localhost fun _ => array 80 ++ tail) (delivery.take 8)).getD
    (start localhost fun _ => array 80 ++ tail)

def browsingLines : List HeaderLine := [⟨ascii "Host",1,ascii "a.b"⟩,⟨ascii "Connection",1,ascii "keep-alive"⟩]

theorem browsing_accepted : Accepted (localhost 0) Request.browsing.text Request.browsing.upgraded.text
    Request.browsing.forwarded.text 27 browsingLines ⟨2130706433,80⟩ where
  noNul := by decide
  version := by decide
  headerLines := by decide
  hosted := by decide
  resolved := by decide +kernel
  rewrites := by decide

/-- Once the request has been taken, the rest of the run. -/
theorem delivery_served (tail rest host : List Byte) (server : Option Server) : ∃ σ,
    Transition.run step (atFirstWrite (browsingRead tail) 0 4 5 64 ⟨Request.browsing.forwarded.text ++ 0 :: rest,host,
      server⟩)
      (delivery.drop 15) = some σ ∧ (σ.calls 0).request = some Request.browsing.text := ⟨_,rfl,rfl⟩

theorem delivery_runs : Transition.run step (start localhost handlerStack) delivery = some (after delivery) ∧
    ((after delivery).calls 0).request = some Request.browsing.text := by
  have parts : delivery = delivery.take 8 ++ ([.handler 0 0,.handler 0 0,.handler 0 0,.handler 0 5,.handler 0 0,
    .handler 0 0,.handler 0 0] ++ delivery.drop 15) := rfl
  refine @after_of_tail 80 _ (fun σ => (σ.calls 0).request = some Request.browsing.text) (by decide) fun tail => ?_
  have read : Transition.run step (start localhost fun _ => array 80 ++ tail) (delivery.take 8) =
    some (browsingRead tail) := rfl
  obtain ⟨rest,opens⟩ := @request_opens _ (browsingRead tail) 0 4 5 64 _ _ _ _ (array 15 ++ tail) _ rfl rfl rfl
    browsing_accepted (Nat.zero_le _) rfl
  obtain ⟨σ,served,isText⟩ := delivery_served tail rest _ _
  exact ⟨σ,(congrArg _ parts).trans (Transition.run_append read (Transition.run_append opens served)),isText⟩

theorem request_delivered_browsing : Delivered localhost (after delivery) 0 Request.browsing :=
  @request_delivered _ _ _ _ _ _ Request.browsing.text delivery_runs.1 delivery_runs.2 (by decide)
    Request.browsing_rewritable

end Os5Sem.ProxyRequests

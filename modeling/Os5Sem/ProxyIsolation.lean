import Os5Sem.ProxyStages
import Os5Sem.Segmentation

/-!
The connections of the proxy do not disturb each other: whatever the order of the
steps, and however descriptors are given out again, a thread reads from its own two
sockets and writes to them only, so that it sends what `Handler.handleClient` sends
for the results of its calls (`connections_isolated`), and nothing reaches a server
but what the edits make of the bytes of its own client (`no_crosstalk`).
-/
namespace Os5Sem.ProxyIsolation
open Os5Sem.CMemory Os5Sem.Handler
open Os5Sem.Connections (Socket HandlerPc)
open Os5Sem.Descriptors (Held handlerClient handlerRemote)
open Os5Sem.Occurrences (overwrite)
open Os5Sem.Relay (slice_split)
open Os5Sem.Forwarding Os5Sem.Segmentation Os5Sem.Proxy Os5Sem.ProxyStages

/-- The connection of a socket. -/
def conn : Socket → Nat
  | .client k => k
  | .remote k => k

variable {σ σ' σ1 : State} {k : Nat} {result : Int}

/-! ### What a call changes -/

/-- A call of a thread changes nothing of another connection. -/
structure Frame (k : Nat) (σ σ' : State) : Prop where
  memory : ∀ j, j ≠ k → σ'.memory j = σ.memory j
  calls : ∀ j, j ≠ k → σ'.calls j = σ.calls j
  sockets : ∀ s, conn s ≠ k → σ'.incoming s = σ.incoming s ∧ σ'.sent s = σ.sent s ∧ σ'.peer s = σ.peer s
  conns : σ'.conns = σ.conns
  arrived : σ'.arrived = σ.arrived

theorem Frame.refl (k : Nat) (σ : State) : Frame k σ σ :=
  ⟨fun _ _ => rfl,fun _ _ => rfl,fun _ _ => ⟨rfl,rfl,rfl⟩,rfl,rfl⟩

theorem Frame.trans (first : Frame k σ σ1) (second : Frame k σ1 σ') : Frame k σ σ' where
  memory j other := (second.memory j other).trans (first.memory j other)
  calls j other := (second.calls j other).trans (first.calls j other)
  sockets s other :=
    have one := first.sockets s other
    have two := second.sockets s other
    ⟨two.1.trans one.1,two.2.1.trans one.2.1,two.2.2.trans one.2.2⟩
  conns := second.conns.trans first.conns
  arrived := second.arrived.trans first.arrived

theorem frame_store (k : Nat) (σ : State) (m : Memory) : Frame k σ (σ.store k m) :=
  ⟨fun _ other => Function.update_of_ne other ..,fun _ _ => rfl,fun _ _ => ⟨rfl,rfl,rfl⟩,rfl,rfl⟩

theorem frame_record (k : Nat) (σ : State) (e : Env) : Frame k σ (σ.record k e) :=
  ⟨fun _ _ => rfl,fun _ other => Function.update_of_ne other ..,fun _ _ => ⟨rfl,rfl,rfl⟩,rfl,rfl⟩

/-- What `read` does, when the descriptor stands for the socket. -/
theorem receive_some {fd limit n : Nat} {s : Socket} {data : List Byte} (own : σ.socketOf fd = some s)
    (received : σ.receive fd limit n = some (σ',data)) :
    n ≤ limit ∧ data.length = n ∧ σ.incoming s = data ++ σ'.incoming s ∧
      σ' = { σ with incoming := Function.update σ.incoming s ((σ.incoming s).drop n) } := by
  rw [State.receive,own] at received
  dsimp only at received
  split at received <;> cases received
  rename_i available
  refine ⟨available.1,List.length_take_of_le available.2,?_,rfl⟩
  simp

theorem transmit_some {fd : Nat} {s : Socket} {bytes : List Byte} (own : σ.socketOf fd = some s)
    (transmitted : σ.transmit fd bytes = some σ') :
    σ' = { σ with sent := Function.update σ.sent s (σ.sent s ++ bytes) } := by
  rw [State.transmit,own] at transmitted
  cases transmitted
  rfl

theorem connect_some {fd : Nat} {s : Socket} {server : Option Server} (own : σ.socketOf fd = some s)
    (connected : σ.connect fd server = some σ') :
    σ' = { σ with peer := Function.update σ.peer s server } := by
  rw [State.connect,own] at connected
  cases connected
  rfl

theorem frame_incoming (σ : State) (s : Socket) (own : conn s = k) (bytes : List Byte) :
    Frame k σ { σ with incoming := Function.update σ.incoming s bytes } := by
  refine ⟨fun _ _ => rfl,fun _ _ => rfl,fun r other => ⟨?_,rfl,rfl⟩,rfl,rfl⟩
  exact Function.update_of_ne (fun same : r = s => other (by rw [same]; exact own)) ..

theorem frame_sent (σ : State) (s : Socket) (own : conn s = k) (bytes : List Byte) :
    Frame k σ { σ with sent := Function.update σ.sent s bytes } := by
  refine ⟨fun _ _ => rfl,fun _ _ => rfl,fun r other => ⟨rfl,?_,rfl⟩,rfl,rfl⟩
  exact Function.update_of_ne (fun same : r = s => other (by rw [same]; exact own)) ..

theorem frame_peer (σ : State) (s : Socket) (own : conn s = k) (server : Option Server) :
    Frame k σ { σ with peer := Function.update σ.peer s server } := by
  refine ⟨fun _ _ => rfl,fun _ _ => rfl,fun r other => ⟨rfl,rfl,?_⟩,rfl,rfl⟩
  exact Function.update_of_ne (fun same : r = s => other (by rw [same]; exact own)) ..

/-! ### The sockets of a thread -/

/-- The descriptors of a thread stand for its own sockets. -/
theorem own_client (held : Held σ.conns) {fd : Nat} (there : σ.conns.handler k ≠ .absent)
    (mine : handlerClient σ.conns.value (σ.conns.lost k) (σ.conns.handler k) = some fd) :
    σ.socketOf fd = some (.client k) :=
  (held.isOpen ((held.client_of_handler there).trans mine)).1

theorem own_remote (held : Held σ.conns) {fd : Nat} (mine : handlerRemote (σ.conns.handler k) = some fd) :
    σ.socketOf fd = some (.remote k) :=
  (held.isOpen (s := .remote k) mine).1

/-! ### A connection -/

/-- What holds of a connection: its thread has got to a stage, it has read what has
    arrived for it, in this order, and it is connected to the address of its host. -/
structure Connection (stack : Nat → List Byte) (σ : State) (k : Nat) : Prop where
  stage : Stage (stack k) (σ.calls k) (σ.memory k) (σ.sent (.remote k)) (σ.sent (.client k)) (σ.conns.handler k)
  client : σ.arrived (.client k) = (σ.calls k).request.getD [] ++ σ.incoming (.client k)
  remote : σ.arrived (.remote k) =
    ((σ.calls k).remoteReads.flatMap fun chunk => chunk.getD []) ++ σ.incoming (.remote k)
  peer : (σ.calls k).connect = true → ∃ server, contacted (stack k) (σ.calls k) = some server ∧
    σ.peer (.remote k) = some server

variable {stack : Nat → List Byte} {conns : Connections.State}

/-- A connection that has no part in the step. -/
theorem Connection.others (connection : Connection stack σ k) {j : Nat} (frame : Frame j σ σ1) (other : k ≠ j)
    (handler : conns.handler k = σ.conns.handler k) : Connection stack { σ1 with conns } k := by
  obtain ⟨clientIn,clientOut,_⟩ := frame.sockets (.client k) other
  obtain ⟨remoteIn,remoteOut,remotePeer⟩ := frame.sockets (.remote k) other
  obtain ⟨stage,client,remote,peer⟩ := connection
  constructor
  · rw [← handler] at stage
    show Stage (stack k) (σ1.calls k) (σ1.memory k) (σ1.sent (.remote k)) (σ1.sent (.client k)) (conns.handler k)
    rwa [frame.calls k other,frame.memory k other,clientOut,remoteOut]
  · show σ1.arrived (.client k) = (σ1.calls k).request.getD [] ++ σ1.incoming (.client k)
    rwa [frame.arrived,frame.calls k other,clientIn]
  · show σ1.arrived (.remote k) =
      ((σ1.calls k).remoteReads.flatMap fun chunk => chunk.getD []) ++ σ1.incoming (.remote k)
    rwa [frame.arrived,frame.calls k other,remoteIn]
  · show (σ1.calls k).connect = true → ∃ server, contacted (stack k) (σ1.calls k) = some server ∧
      σ1.peer (.remote k) = some server
    rwa [frame.calls k other,remotePeer]

@[simp] theorem handlerAt_self (c : Connections.State) (pc : HandlerPc) : (c.handlerAt k pc).handler k = pc :=
  Function.update_self ..

/-- What is known when a thread makes a call. -/
structure Calls (stack : Nat → List Byte) (σ : State) (k : Nat) (result : Int) (pc : HandlerPc) (σ1 : State)
    (conns : Connections.State) : Prop where
  held : Held σ.conns
  connection : Connection stack σ k
  here : σ.conns.handler k = pc
  called : call σ k result pc = some σ1
  goes : Connections.handleClient σ.conns k result = some conns

/-- The call has left everything else as it was, and the connection is sound. -/
def Returns (stack : Nat → List Byte) (σ : State) (k : Nat) (σ1 : State) (conns : Connections.State) : Prop :=
  Frame k σ σ1 ∧ Connection stack { σ1 with conns } k

/-- What a thread has been told of its address does not change any more. -/
theorem resolved_record {readed : Nat} {buffer : List Byte} {server : Server} {e e' : Env}
    (resolved : Resolved (stack k) e readed buffer server) (request : e'.request = e.request)
    (getaddrinfo : e'.getaddrinfo = e.getaddrinfo) : Resolved (stack k) e' readed buffer server := by
  obtain ⟨host,⟨line,⟨text,⟨data,copy,isData,received⟩,parsed⟩,headers⟩,found⟩ := resolved
  exact ⟨host,⟨line,⟨text,⟨data,copy,request.trans isData,received⟩,parsed⟩,headers⟩,by rw [getaddrinfo]; exact found⟩

theorem contacted_resolved {s : List Byte} {readed : Nat} {buffer : List Byte} {server : Server} {e : Env}
    (resolved : Resolved s e readed buffer server) (socket : e.socket = true) : contacted s e = some server := by
  obtain ⟨host,⟨line,⟨text,⟨data,copy,isData,rfl,filled,fits,copied,ended⟩,parsed⟩,headers⟩,found⟩ := resolved
  have whole : data.take (buffSize-1) = data := List.take_of_length_le fits
  have nonempty : data.length ≠ 0 := by omega
  simp [contacted,isData,whole,nonempty,copied,ended,parsed,headers,found,socket]

theorem opened_record {readed : Nat} {buffer : List Byte} {server : Server} {e e' : Env}
    (opened : Opened (stack k) e readed buffer server) (request : e'.request = e.request)
    (getaddrinfo : e'.getaddrinfo = e.getaddrinfo) (socket : e'.socket = e.socket) (connect : e'.connect = e.connect) :
    Opened (stack k) e' readed buffer server := by
  obtain ⟨isSocket,isConnect,first,resolved,removed⟩ := opened
  exact ⟨socket.trans isSocket,connect.trans isConnect,first,resolved_record resolved request getaddrinfo,removed⟩

theorem peer_record {e e' : Env} {peer : Option Server}
    (known : e.connect = true → ∃ server, contacted (stack k) e = some server ∧ peer = some server)
    (request : e'.request = e.request) (getaddrinfo : e'.getaddrinfo = e.getaddrinfo) (socket : e'.socket = e.socket)
    (connect : e'.connect = e.connect) :
    e'.connect = true → ∃ server, contacted (stack k) e' = some server ∧ peer = some server := by
  intro connected
  obtain ⟨server,is,same⟩ := known (connect.symm.trans connected)
  refine ⟨server,?_,same⟩
  simpa only [contacted,request,getaddrinfo,socket] using is

theorem returns_read {fd : Nat} (calls : Calls stack σ k result (.read fd) σ1 conns) : Returns stack σ k σ1 conns := by
  obtain ⟨held,⟨stage,client,remote,peer⟩,here,called,goes⟩ := calls
  have own : σ.socketOf fd = some (.client k) := own_client held (by rw [here]; simp) (by rw [here]; rfl)
  rw [here] at stage
  cases stage with
  | left closing => exact closing.elim
  | read unread =>
    have silent := unread.silent
    simp only [Connections.handleClient,here] at goes
    simp only [call] at called
    rw [unread.request] at client
    split at called <;> rename_i empty
    · rw [if_pos empty] at goes
      cases called
      cases goes
      have none : (nothing result).getD [] = [] := by
        unfold nothing
        split <;> rfl
      refine ⟨frame_record k σ _,?_,?_,?_,?_⟩
      · simp only [State.record_self,handlerAt_self]
        have silent' : Silent { σ.calls k with request := nothing result } (σ.sent (.remote k)) (σ.sent (.client k)) :=
          ⟨silent.remoteWrites,silent.remoteReads,silent.clientWrites,silent.remote,silent.client⟩
        exact silent'.left trivial (handleClient_unread none) ⟨rfl,rfl⟩ (by simp)
      · simpa [none] using client
      · simpa using remote
      · simp [unread.connect]
    · rw [if_neg empty] at goes
      obtain ⟨⟨σ2,data⟩,received,called⟩ := Option.bind_eq_some_iff.mp called
      obtain ⟨first,copied,called⟩ := Option.bind_eq_some_iff.mp called
      obtain ⟨buffer,ended,called⟩ := Option.bind_eq_some_iff.mp called
      obtain ⟨most,length,rest,is⟩ := receive_some own received
      cases called
      cases goes
      subst is
      refine ⟨(frame_incoming σ (.client k) rfl _).trans ((frame_store k _ _).trans (frame_record k _ _)),?_,?_,?_,?_⟩
      · simp only [State.record_self,State.record_memory,State.store_self,handlerAt_self]
        have few : min result.toNat (buffSize-1) = data.length := by omega
        rw [few]
        refine .parseRequestLine ⟨data,first,rfl,rfl,by omega,by omega,?_,ended⟩ unread.host
          ⟨silent.remoteWrites,silent.remoteReads,silent.clientWrites,silent.remote,silent.client⟩ unread.socket
          unread.connect
        rw [← unread.buffer]
        exact copied
      · simp only [State.record_self,Option.getD_some]
        exact client.trans rest
      · simpa using remote
      · simp [unread.connect]

theorem returns_parseRequestLine {fd readed : Nat}
    (calls : Calls stack σ k result (.parseRequestLine fd readed) σ1 conns) : Returns stack σ k σ1 conns := by
  obtain ⟨held,⟨stage,client,remote,peer⟩,here,called,goes⟩ := calls
  rw [here] at stage
  cases stage with
  | left closing => exact closing.elim
  | parseRequestLine received host silent socket connect =>
    obtain ⟨⟨parsed,buffer⟩,is,called⟩ := Option.bind_eq_some_iff.mp called
    dsimp only at called
    split at called <;> cases called
    rename_i returned
    simp only [Connections.handleClient,here] at goes
    refine ⟨frame_store k σ _,?_,client,remote,peer⟩
    simp only [State.store_self]
    cases parsed with
    | error message =>
      rw [if_pos (by simp [returned,status])] at goes
      cases goes
      rw [handlerAt_self]
      exact silent.left trivial (handleClient_line received is) ⟨rfl,rfl⟩ (by simp)
    | ok done =>
      rw [if_neg (by simp [returned,status])] at goes
      cases goes
      rw [handlerAt_self]
      exact .parseHeaders ⟨_,received,is⟩ host silent socket connect

theorem returns_parseHeaders {fd readed : Nat}
    (calls : Calls stack σ k result (.parseHeaders fd readed) σ1 conns) : Returns stack σ k σ1 conns := by
  obtain ⟨held,⟨stage,client,remote,peer⟩,here,called,goes⟩ := calls
  rw [here] at stage
  cases stage with
  | left closing => exact closing.elim
  | parseHeaders lined host silent socket connect =>
    obtain ⟨⟨parsed,buffer⟩,is,called⟩ := Option.bind_eq_some_iff.mp called
    rw [host] at is
    simp only [Connections.handleClient,here] at goes
    dsimp only at called
    split at called
    · rename_i returned
      cases parsed with
      | error message =>
        rw [if_pos (by simp [returned,status])] at goes
        cases called
        cases goes
        refine ⟨frame_store k σ _,?_,client,remote,peer⟩
        simp only [State.store_self,handlerAt_self]
        exact silent.left trivial (handleClient_headers lined is) ⟨rfl,rfl⟩ (by simp)
      | ok host =>
        rw [if_neg (by simp [returned,status])] at goes
        cases called
        cases goes
        refine ⟨frame_store k σ _,?_,client,remote,peer⟩
        simp only [State.store_self,handlerAt_self]
        exact .resolveHost ⟨_,lined,is⟩ silent socket connect
    · cases called

theorem returns_resolveHost {fd readed : Nat}
    (calls : Calls stack σ k result (.resolveHost fd readed) σ1 conns) : Returns stack σ k σ1 conns := by
  obtain ⟨held,⟨stage,client,remote,peer⟩,here,called,goes⟩ := calls
  rw [here] at stage
  cases stage with
  | left closing => exact closing.elim
  | resolveHost headed silent socket connect =>
    obtain ⟨found,is,called⟩ := Option.bind_eq_some_iff.mp called
    simp only [Connections.handleClient,here] at goes
    cases found with
    | none =>
      simp only [Option.isSome_none,Bool.false_eq_true,if_false] at called
      split at called <;> cases called
      rename_i returned
      rw [if_pos (by simp [returned])] at goes
      cases goes
      refine ⟨frame_store k σ _,?_,client,remote,peer⟩
      simp only [State.store_self,handlerAt_self]
      exact silent.left trivial (handleClient_unknown headed is) ⟨rfl,rfl⟩ (by simp)
    | some server =>
      simp only [Option.isSome_some,if_true] at called
      split at called <;> cases called
      rename_i returned
      rw [if_neg (by simp [returned])] at goes
      cases goes
      refine ⟨frame_store k σ _,?_,client,remote,peer⟩
      simp only [State.store_self,handlerAt_self]
      exact .socket ⟨_,headed,is⟩ rfl silent socket connect

theorem returns_socket {fd readed : Nat} (calls : Calls stack σ k result (.socket fd readed) σ1 conns) :
    Returns stack σ k σ1 conns := by
  obtain ⟨held,⟨stage,client,remote,peer⟩,here,called,goes⟩ := calls
  rw [here] at stage
  cases stage with
  | left closing => exact closing.elim
  | socket resolved address silent socket connect =>
    simp only [Connections.handleClient,here] at goes
    simp only [call] at called
    split at called <;> rename_i failed <;> cases called
    · rw [if_pos failed] at goes
      cases goes
      refine ⟨.refl k σ,?_,client,remote,peer⟩
      simp only [handlerAt_self]
      have handled := handleClient_resolved resolved
      rw [if_pos socket] at handled
      exact silent.left trivial handled ⟨rfl,rfl⟩ (by simp)
    · rw [if_neg failed] at goes
      obtain ⟨opened,_,rfl⟩ := Option.map_eq_some_iff.mp goes
      refine ⟨frame_record k σ _,?_,?_,?_,?_⟩
      · simp only [State.record_self,handlerAt_self]
        exact .setRcvTimeo resolved address
          ⟨silent.remoteWrites,silent.remoteReads,silent.clientWrites,silent.remote,silent.client⟩ rfl connect
      · simpa using client
      · simpa using remote
      · simp [connect]

theorem returns_connect {fd readed fd' : Nat} (calls : Calls stack σ k result (.connect fd readed fd') σ1 conns) :
    Returns stack σ k σ1 conns := by
  obtain ⟨held,⟨stage,client,remote,peer⟩,here,called,goes⟩ := calls
  have own : σ.socketOf fd' = some (.remote k) := own_remote held (by rw [here]; rfl)
  rw [here] at stage
  cases stage with
  | left closing => exact closing.elim
  | @connect _ _ _ server resolved address silent socket connect =>
    simp only [Connections.handleClient,here] at goes
    simp only [call] at called
    split at called <;> rename_i failed
    · rw [if_pos failed] at goes
      cases called
      cases goes
      refine ⟨.refl k σ,?_,client,remote,peer⟩
      simp only [handlerAt_self]
      have handled := handleClient_resolved resolved
      rw [if_neg (by simp [socket]),if_pos connect] at handled
      exact silent.left trivial handled ⟨rfl,rfl⟩ (by simp)
    · rw [if_neg failed] at goes
      obtain ⟨σ2,connected,called⟩ := Option.bind_eq_some_iff.mp called
      obtain ⟨request,removed,called⟩ := Option.bind_eq_some_iff.mp called
      obtain rfl := connect_some own connected
      cases called
      cases goes
      refine ⟨(frame_peer σ (.remote k) rfl _).trans ((frame_store k _ _).trans (frame_record k _ _)),?_,?_,?_,?_⟩
      · simp only [State.record_self,State.record_memory,State.store_self,handlerAt_self]
        refine .writeRemote ⟨socket,rfl,_,resolved,removed⟩ ?_ resolved.filled ?_ silent.client silent.remoteReads
          silent.clientWrites
        · rw [silent.remoteWrites]
          exact .none
        · exact silent.remote.trans (by simp [slice])
      · simpa using client
      · simpa using remote
      · intro _
        simp only [State.record_self,State.record_peer,State.store_peer]
        refine ⟨server,?_,by rw [Function.update_self,address]⟩
        exact contacted_resolved (resolved_record resolved rfl rfl) socket

theorem returns_writeRemote {fd fd' total sent : Nat}
    (calls : Calls stack σ k result (.writeRemote fd fd' total sent) σ1 conns) : Returns stack σ k σ1 conns := by
  obtain ⟨held,⟨stage,client,remote,peer⟩,here,called,goes⟩ := calls
  have own : σ.socketOf fd' = some (.remote k) := own_remote held (by rw [here]; rfl)
  rw [here] at stage
  cases stage with
  | left closing => exact closing.elim
  | @writeRemote _ _ _ _ server opened writes left isRemote isClient reads clientWrites =>
    simp only [Connections.handleClient,here] at goes
    simp only [call] at called
    have opened' : Opened (stack k) (wroteRemote (σ.calls k) result) total (σ.memory k).buffer server :=
      opened_record opened rfl rfl rfl rfl
    have peer' := @peer_record k stack (σ.calls k) (wroteRemote (σ.calls k) result) _ peer rfl rfl rfl rfl
    split at called <;> rename_i failed
    · rw [if_pos failed] at goes
      cases called
      cases goes
      refine ⟨frame_record k σ _,?_,?_,?_,?_⟩
      · simp only [State.record_self,handlerAt_self]
        have handled := stage_sendFailed opened' writes rfl left failed
        refine .left trivial handled isRemote isClient (by simp)
          (fun _ => ⟨_,_,_,_,opened',Nat.le_of_lt left,isRemote⟩) ?_
        rw [State.record_sent,isClient]
        exact List.nil_prefix
      · simp only [State.record_self]; exact client
      · simp only [State.record_self]; exact remote
      · simp only [State.record_self]; exact peer'
    · rw [if_neg failed] at goes
      split at called
      · rename_i most
        have own' : (σ.record k (wroteRemote (σ.calls k) result)).socketOf fd' = some (.remote k) := own
        obtain rfl := transmit_some own' called
        have few : min result.toNat (total - sent) = result.toNat := Nat.min_eq_left most
        have writes' := writes.more (Int.not_le.mp failed) most
        refine ⟨(frame_record k σ _).trans (frame_sent _ (.remote k) rfl _),?_,?_,?_,?_⟩
        · simp only [State.record_self,State.record_memory,State.record_sent,Function.update_self]
          have isRemote' : σ.sent (.remote k) ++ slice (σ.memory k).buffer sent result.toNat =
              slice (σ.memory k).buffer 0 (sent + result.toNat) := by
            rw [isRemote,slice_split _ (Nat.le_add_right sent result.toNat),Nat.zero_add,Nat.add_sub_cancel_left]
          rw [isRemote']
          rw [few] at goes
          split at goes <;> rename_i more <;> cases goes <;> rw [handlerAt_self]
          · refine .writeRemote opened' writes' more rfl ?_ reads clientWrites
            simpa using isClient
          · have whole : sent + result.toNat = total := by have := writes'.le; omega
            rw [whole] at writes' ⊢
            refine .readRemote opened' writes' rfl ?_
            show Relays _ (σ.calls k).remoteReads (σ.calls k).clientWrites _ _
            rw [reads,clientWrites,Function.update_of_ne (by simp)]
            exact isClient ▸ .none
        · simp only [State.record_self]; exact client
        · simp only [State.record_self]; exact remote
        · simp only [State.record_self]; exact peer'
      · cases called

theorem returns_readRemote {fd fd' : Nat} (calls : Calls stack σ k result (.readRemote fd fd') σ1 conns) :
    Returns stack σ k σ1 conns := by
  obtain ⟨held,⟨stage,client,remote,peer⟩,here,called,goes⟩ := calls
  have own : σ.socketOf fd' = some (.remote k) := own_remote held (by rw [here]; rfl)
  rw [here] at stage
  cases stage with
  | left closing => exact closing.elim
  | @readRemote _ _ total request server opened writes isRemote relays =>
    simp only [Connections.handleClient,here] at goes
    simp only [call] at called
    split at called <;> rename_i empty
    · rw [if_pos empty] at goes
      cases called
      cases goes
      have opened' : Opened (stack k) (readRemote (σ.calls k) (nothing result)) total request server :=
        opened_record opened rfl rfl rfl rfl
      have peer' := @peer_record k stack (σ.calls k) (readRemote (σ.calls k) (nothing result)) _ peer rfl rfl rfl rfl
      have handled := stage_sent opened' writes
      have loop := relayLoop_relays relays [nothing result] []
      rw [List.append_nil] at loop
      refine ⟨frame_record k σ _,?_,?_,?_,?_⟩
      · simp only [State.record_self,handlerAt_self]
        rw [show (readRemote (σ.calls k) (nothing result)).remoteReads = (σ.calls k).remoteReads ++ [nothing result]
          from rfl,show (readRemote (σ.calls k) (nothing result)).clientWrites = (σ.calls k).clientWrites from rfl,
          loop] at handled
        refine .left trivial handled isRemote ?_ ?_ (fun _ => ⟨_,_,_,_,opened',Nat.le_refl _,isRemote⟩) ?_
        · unfold nothing
          split <;> simp [relayLoop]
        · unfold nothing
          split <;> simp [relayLoop]
        · rw [State.record_sent,readRemote,List.flatMap_append,← relays_out relays]
          exact List.prefix_append ..
      · simp only [State.record_self]; exact client
      · simp only [State.record_self]
        rw [readRemote,List.flatMap_append]
        have none : (nothing result).getD [] = [] := by
          unfold nothing
          split <;> rfl
        simpa [none] using remote
      · simp only [State.record_self]; exact peer'
    · rw [if_neg empty] at goes
      obtain ⟨⟨σ2,data⟩,received,called⟩ := Option.bind_eq_some_iff.mp called
      obtain ⟨most,length,rest,is⟩ := receive_some own received
      cases called
      cases goes
      subst is
      have peer' := @peer_record k stack (σ.calls k) (readRemote (σ.calls k) (some data)) _ peer rfl rfl rfl rfl
      have opened' : Opened (stack k) (readRemote (σ.calls k) (some data)) total request server :=
        opened_record opened rfl rfl rfl rfl
      refine ⟨(frame_incoming σ (.remote k) rfl _).trans ((frame_store k _ _).trans (frame_record k _ _)),?_,?_,?_,?_⟩
      · simp only [State.record_self,State.record_memory,State.store_self,handlerAt_self]
        have few : min result.toNat buffSize = data.length := by omega
        have nonempty : data ≠ [] := by
          intro none
          rw [none,List.length_nil] at length
          omega
        rw [few]
        exact .writeClient opened' writes isRemote relays nonempty (by omega) rfl (List.append_nil _).symm rfl .none
          (by omega) (by simp [slice])
      · simp only [State.record_self]; exact client
      · simp only [State.record_self]
        rw [readRemote,List.flatMap_append,List.flatMap_singleton,List.append_assoc]
        exact remote.trans (congrArg (_ ++ ·) rest)
      · simp only [State.record_self]; exact peer'

theorem returns_writeClient {fd fd' size sent : Nat}
    (calls : Calls stack σ k result (.writeClient fd fd' size sent) σ1 conns) : Returns stack σ k σ1 conns := by
  obtain ⟨held,⟨stage,client,remote,peer⟩,here,called,goes⟩ := calls
  have own : σ.socketOf fd = some (.client k) := own_client held (by rw [here]; simp) (by rw [here]; rfl)
  rw [here] at stage
  cases stage with
  | left closing => exact closing.elim
  | @writeClient _ _ total _ request buffer chunk out server reads before results opened writes isRemote relays
      nonempty fits isReads isWrites isBuffer sends left isClient =>
    simp only [Connections.handleClient,here] at goes
    simp only [call] at called
    have opened' : Opened (stack k) (wroteClient (σ.calls k) result) total request server :=
      opened_record opened rfl rfl rfl rfl
    have peer' := @peer_record k stack (σ.calls k) (wroteClient (σ.calls k) result) _ peer rfl rfl rfl rfl
    have isWrites' : (wroteClient (σ.calls k) result).clientWrites = before ++ (results ++ [result]) := by
      rw [← List.append_assoc,← isWrites]
      rfl
    split at called <;> rename_i failed
    · rw [if_pos failed] at goes
      cases called
      cases goes
      refine ⟨frame_record k σ _,?_,?_,?_,?_⟩
      · simp only [State.record_self,handlerAt_self]
        have handled := stage_sent opened' writes
        have loop := relayLoop_chunk relays nonempty fits (writeLoop_fails sends left failed) (by simp)
        rw [isWrites',show (wroteClient (σ.calls k) result).remoteReads = _ from isReads,loop] at handled
        refine .left trivial handled isRemote ?_ (by simp) (fun _ => ⟨_,_,_,_,opened',Nat.le_refl _,isRemote⟩) ?_
        · rw [← isBuffer]
          exact isClient
        · rw [show (wroteClient (σ.calls k) result).remoteReads = _ from isReads,List.flatMap_append,
            ← relays_out relays,State.record_sent,isClient,isBuffer,List.flatMap_singleton]
          exact chunk_prefix _ _ (Nat.le_of_lt left)
      · simp only [State.record_self]; exact client
      · simp only [State.record_self]; exact remote
      · simp only [State.record_self]; exact peer'
    · rw [if_neg failed] at goes
      split at called
      · rename_i most
        have own' : (σ.record k (wroteClient (σ.calls k) result)).socketOf fd = some (.client k) := own
        obtain rfl := transmit_some own' called
        have few : min result.toNat (chunk.length - sent) = result.toNat := Nat.min_eq_left most
        have sends' := sends.more (Int.not_le.mp failed) most
        refine ⟨(frame_record k σ _).trans (frame_sent _ (.client k) rfl _),?_,?_,?_,?_⟩
        · simp only [State.record_self,State.record_memory,State.record_sent,Function.update_self]
          have isClient' : σ.sent (.client k) ++ slice (σ.memory k).buffer sent result.toNat =
              out ++ slice (σ.memory k).buffer 0 (sent + result.toNat) := by
            rw [isClient,slice_split _ (Nat.le_add_right sent result.toNat),Nat.zero_add,Nat.add_sub_cancel_left,
              List.append_assoc]
          rw [isClient',Function.update_of_ne (by simp)]
          rw [few] at goes
          split at goes <;> rename_i more <;> cases goes <;> rw [handlerAt_self]
          · exact .writeClient opened' writes isRemote relays nonempty fits isReads isWrites' isBuffer sends' more rfl
          · have whole : sent + result.toNat = chunk.length := by have := sends'.le; omega
            rw [whole] at sends' ⊢
            have chunks := relays.more nonempty fits sends'
            rw [isBuffer,slice_overwrite]
            refine .readRemote opened' writes isRemote ?_
            rw [isWrites',show (wroteClient (σ.calls k) result).remoteReads = _ from isReads,isBuffer]
            exact chunks
        · simp only [State.record_self]; exact client
        · simp only [State.record_self]; exact remote
        · simp only [State.record_self]; exact peer'
      · cases called

/-- A step that concerns neither the memory nor the sockets. -/
theorem returns_moves {pc pc' : HandlerPc} (calls : Calls stack σ k result pc σ1 conns)
    (silent : call σ k result pc = some σ) (next : conns.handler k = pc')
    (moves : ∀ {e m r c}, Stage (stack k) e m r c pc → Stage (stack k) e m r c pc') : Returns stack σ k σ1 conns := by
  obtain ⟨held,⟨stage,client,remote,peer⟩,here,called,goes⟩ := calls
  cases called.symm.trans silent
  rw [here] at stage
  exact ⟨.refl k σ,next ▸ moves stage,client,remote,peer⟩

theorem Stage.closes {s : List Byte} {e : Env} {m : Memory} {r c : List Byte} {pc pc' : HandlerPc}
    (closing : Closing pc) (later : Closing pc') (stage : Stage s e m r c pc) : Stage s e m r c pc' := by
  cases stage with
  | left _ handled isRemote isClient ended opened inOrder =>
    exact .left later handled isRemote isClient ended opened inOrder
  | _ => exact closing.elim

/-- What a step of a thread does. -/
theorem returns_call (held : Held σ.conns) (connection : Connection stack σ k)
    (called : call σ k result (σ.conns.handler k) = some σ1)
    (goes : Connections.handleClient σ.conns k result = some conns) : Returns stack σ k σ1 conns := by
  generalize here : σ.conns.handler k = pc at called
  have calls : Calls stack σ k result pc σ1 conns := ⟨held,connection,here,called,goes⟩
  cases pc with
  | read fd => exact returns_read calls
  | parseRequestLine fd readed => exact returns_parseRequestLine calls
  | parseHeaders fd readed => exact returns_parseHeaders calls
  | resolveHost fd readed => exact returns_resolveHost calls
  | socket fd readed => exact returns_socket calls
  | connect fd readed fd' => exact returns_connect calls
  | writeRemote fd fd' total sent => exact returns_writeRemote calls
  | readRemote fd fd' => exact returns_readRemote calls
  | writeClient fd fd' size sent => exact returns_writeClient calls
  | absent => rw [Connections.handleClient,here] at goes; cases goes
  | exited => rw [Connections.handleClient,here] at goes; cases goes
  | loadArg arg =>
    rw [Connections.handleClient,here] at goes
    cases goes
    refine returns_moves calls rfl (handlerAt_self ..) fun stage => ?_
    cases stage with
    | loadArg unread => exact .freeArg unread
    | left closing => exact closing.elim
  | freeArg arg fd =>
    rw [Connections.handleClient,here] at goes
    cases goes
    refine returns_moves calls rfl (handlerAt_self ..) fun stage => ?_
    cases stage with
    | freeArg unread => exact .read unread
    | left closing => exact closing.elim
  | setRcvTimeo fd readed fd' =>
    rw [Connections.handleClient,here] at goes
    cases goes
    refine returns_moves calls rfl (handlerAt_self ..) fun stage => ?_
    cases stage with
    | setRcvTimeo resolved address silent socket connect => exact .setSndTimeo resolved address silent socket connect
    | left closing => exact closing.elim
  | setSndTimeo fd readed fd' =>
    rw [Connections.handleClient,here] at goes
    cases goes
    refine returns_moves calls rfl (handlerAt_self ..) fun stage => ?_
    cases stage with
    | setSndTimeo resolved address silent socket connect => exact .connect resolved address silent socket connect
    | left closing => exact closing.elim
  | closeClient fd fd' =>
    rw [Connections.handleClient,here] at goes
    cases fd' <;> cases goes <;> exact returns_moves calls rfl (handlerAt_self ..) (Stage.closes trivial trivial)
  | closeRemote fd =>
    rw [Connections.handleClient,here] at goes
    cases goes
    exact returns_moves calls rfl (handlerAt_self ..) (Stage.closes trivial trivial)
  | exit =>
    rw [Connections.handleClient,here] at goes
    cases goes
    exact returns_moves calls rfl (handlerAt_self ..) (Stage.closes trivial trivial)

/-! ### Runs -/

theorem handlerAt_other (c : Connections.State) (pc : HandlerPc) {j : Nat} (other : j ≠ k) :
    (c.handlerAt k pc).handler j = c.handler j := Function.update_of_ne other ..

/-- A step of a thread moves no other one. -/
theorem handleClient_others {c c' : Connections.State} (goes : Connections.handleClient c k result = some c') {j : Nat}
    (other : j ≠ k) : c'.handler j = c.handler j := by
  unfold Connections.handleClient at goes
  cases here : c.handler k <;> simp only [here] at goes
  case absent => cases goes
  case exited => cases goes
  case socket fd readed =>
    split at goes
    · cases goes; exact handlerAt_other c _ other
    · obtain ⟨opened,isOpen,rfl⟩ := Option.map_eq_some_iff.mp goes
      obtain ⟨_,rfl⟩ := Descriptors.openAs_some isOpen
      exact handlerAt_other _ _ other
  all_goals
    repeat' split at goes
    all_goals cases goes
    all_goals exact handlerAt_other _ _ other

/-- The loop of `main` only starts threads. -/
theorem acceptLoop_handlers {c c' : Connections.State} (held : Held c)
    (goes : Connections.acceptLoop c result = some c')
    (j : Nat) : c'.handler j = c.handler j ∨ c.handler j = .absent ∧ ∃ arg, c'.handler j = .loadArg arg := by
  unfold Connections.acceptLoop at goes
  cases here : c.main <;> simp only [here] at goes
  case accept =>
    split at goes
    · cases goes; exact .inl rfl
    · obtain ⟨opened,isOpen,rfl⟩ := Option.map_eq_some_iff.mp goes
      obtain ⟨_,rfl⟩ := Descriptors.openAs_some isOpen
      exact .inl rfl
  case pthreadCreate i fd arg =>
    split at goes <;> cases goes
    · exact .inl rfl
    · by_cases isI : j = i
      · subst isI
        exact .inr ⟨(held.current j (by rw [here]; rfl)).2.1,arg,handlerAt_self ..⟩
      · exact .inl (handlerAt_other _ _ isI)
  all_goals
    repeat' split at goes
    all_goals cases goes
    all_goals exact .inl rfl

/-- What holds in every reachable state. -/
structure Isolated (stack : Nat → List Byte) (σ : State) : Prop where
  held : Held σ.conns
  connection : ∀ k, Connection stack σ k

theorem isolated_step (σ : State) (a : Act) (σ' : State) (isolated : Isolated stack σ) (taken : step σ a = some σ') :
    Isolated stack σ' := by
  obtain ⟨held,connection⟩ := isolated
  have held' : Held σ'.conns :=
    Transition.run_invariant (fun _ _ _ inv taken => Descriptors.step_held inv taken) (step_conns taken) held
  refine ⟨held',fun k => ?_⟩
  cases a with
  | main result =>
    obtain ⟨conns,goes,rfl⟩ := Option.map_eq_some_iff.mp taken
    obtain ⟨stage,client,remote,peer⟩ := connection k
    refine ⟨?_,client,remote,peer⟩
    rcases acceptLoop_handlers held goes k with same | ⟨absent,arg,started⟩
    · exact same ▸ stage
    · rw [absent] at stage
      cases stage with
      | absent unread => exact started ▸ .loadArg unread
      | left closing => exact closing.elim
  | handler j result =>
    obtain ⟨σ1,conns,called,goes,rfl⟩ := handler_cases taken
    obtain ⟨frame,returned⟩ := returns_call held (connection j) called goes
    by_cases isJ : k = j
    · subst isJ; exact returned
    · exact (connection k).others frame isJ (handleClient_others goes isJ)
  | arrive s bytes =>
    cases taken
    obtain ⟨stage,client,remote,peer⟩ := connection k
    refine ⟨stage,?_,?_,peer⟩
    · by_cases isClient : Socket.client k = s
      · subst isClient
        simp only [Function.update_self]
        rw [client,List.append_assoc]
      · simp only [Function.update_of_ne isClient]
        exact client
    · by_cases isRemote : Socket.remote k = s
      · subst isRemote
        simp only [Function.update_self]
        rw [remote,List.append_assoc]
      · simp only [Function.update_of_ne isRemote]
        exact remote

theorem start_isolated (dns : Nat → List Byte → Option Nat) (stack : Nat → List Byte) :
    Isolated stack (start dns stack) where
  held := Descriptors.start_held
  connection k := ⟨.absent ⟨⟨rfl,rfl,rfl,rfl,rfl⟩,rfl,rfl,rfl,rfl,rfl⟩,rfl,rfl,by simp [start,noCalls]⟩

theorem run_isolated {dns : Nat → List Byte → Option Nat} {acts : List Act}
    (ran : Transition.run step (start dns stack) acts = some σ) : Isolated stack σ :=
  Transition.run_invariant isolated_step ran (start_isolated dns stack)

/-- The traffic of a connection is that of `handle_client` alone: once the thread is
    connected, it has sent to both sides what the handler sends for the results of
    its calls, and before that nothing, and it has read what has arrived at its own
    sockets, in this order. -/
structure Alone (stack : Nat → List Byte) (σ : State) (k : Nat) : Prop where
  connected : Answering (σ.conns.handler k) → ∃ outcome, handleClient (stack k) (σ.calls k) = some outcome ∧
    σ.sent (.remote k) = outcome.remote ∧ σ.sent (.client k) = outcome.client ∧
      Ends (σ.conns.handler k) outcome.ending
  quiet : ¬ Answering (σ.conns.handler k) → σ.sent (.remote k) = [] ∧ σ.sent (.client k) = []
  client : σ.arrived (.client k) = (σ.calls k).request.getD [] ++ σ.incoming (.client k)
  remote : σ.arrived (.remote k) =
    ((σ.calls k).remoteReads.flatMap fun chunk => chunk.getD []) ++ σ.incoming (.remote k)

/-- In every reachable state of the proxy the traffic of each connection is that of
    its handler alone, whatever the other connections do. -/
theorem connections_isolated {dns : Nat → List Byte → Option Nat} {acts : List Act}
    (ran : Transition.run step (start dns stack) acts = some σ) (k : Nat) : Alone stack σ k := by
  obtain ⟨stage,client,remote,_⟩ := (run_isolated ran).connection k
  exact ⟨stage_handled stage,fun idle => ⟨(stage_silent stage idle).remote,(stage_silent stage idle).client⟩,client,
    remote⟩

/-- There is no cross-talk: a client is sent the beginning of what its own remote
    server has sent. The server that the host of the request stands for is sent what
    the edits make, in an array of zeros, of bytes of its own client: the rewritten
    text, and behind its NUL nothing but what they leave there of these bytes. -/
theorem no_crosstalk {dns : Nat → List Byte → Option Nat} {acts : List Act}
    (ran : Transition.run step (start dns stack) acts = some σ) (k : Nat) :
    σ.sent (.client k) <+: σ.arrived (.remote k) ∧
      (σ.sent (.remote k) ≠ [] → ∃ server data text rest, contacted (stack k) (σ.calls k) = some server ∧
        σ.peer (.remote k) = some server ∧ data <+: σ.arrived (.client k) ∧
        rewritten (data.takeWhile (· ≠ 0)) = some text ∧
        requestBuffer (array (stack k).length) data = some (text ++ 0 :: rest) ∧
        σ.sent (.remote k) <+: text ++ 0 :: rest ∧ (σ.sent (.remote k)).length ≤ data.length) := by
  obtain ⟨stage,client,remote,peer⟩ := (run_isolated ran).connection k
  refine ⟨?_,fun something => ?_⟩
  · rw [remote]
    exact (stage_inOrder stage).trans (List.prefix_append ..)
  · obtain ⟨total,request,_,sent,opened,within,is⟩ := stage_opened stage something
    obtain ⟨server,isServer,isPeer⟩ := peer opened.2.1
    obtain ⟨_,⟨_,⟨_,⟨data,_,isData,_⟩,_⟩,_⟩,_⟩ := opened.2.2.choose_spec.1
    obtain ⟨rfl,_,_⟩ := opened_requestBuffer opened isData
    obtain ⟨text,rest,isText,isArray,same⟩ := opened_array opened isData
    refine ⟨server,data,text,rest,isServer,isPeer,?_,isText,isArray,?_,?_⟩
    · rw [client,isData]
      exact List.prefix_append ..
    · rw [is,slice,List.drop_zero]
      exact (List.take_prefix_take_left within).trans same
    · rw [is,slice,List.length_take]
      omega

/-- The resolver knows one address. -/
def localhost (_ : Nat) (_ : List Byte) : Option Nat := some 2130706433

def handlerStack (_ : Nat) : List Byte := array buffSize

/-- A client is served, and its descriptor is given out again for another one. -/
def exchange : List Act :=
  [.arrive (.client 0) closing,.main 4,.main 64,.main 0,.main 0,.handler 0 0,.handler 0 0,.handler 0 48,.handler 0 0,
    .handler 0 0,.handler 0 0,.handler 0 5,.handler 0 0,.handler 0 0,.handler 0 0,.handler 0 40,.handler 0 8,
    .arrive (.remote 0) [1,2,3],.handler 0 3,.handler 0 2,.handler 0 1,.handler 0 0,.handler 0 0,.main 4,.main 72,
    .main 0,.main 0,.handler 1 0,.handler 1 0]

def after (acts : List Act) : State :=
  (Transition.run step (start localhost handlerStack) acts).getD (start localhost handlerStack)

/-- The end of the array plays no part in a run that does not write there. -/
theorem after_of_tail {n : Nat} {acts : List Act} {P : State → Prop} (small : n ≤ buffSize)
    (goes : ∀ tail, ∃ σ, Transition.run step (start localhost fun _ => array n ++ tail) acts = some σ ∧ P σ) :
    Transition.run step (start localhost handlerStack) acts = some (after acts) ∧ P (after acts) := by
  have whole : (fun _ : Nat => array n ++ array (buffSize-n)) = handlerStack := funext fun _ => by
    rw [handlerStack,array,array,List.replicate_append_replicate,Nat.add_sub_cancel' small,array]
  obtain ⟨σ,ran,holds⟩ := goes (array (buffSize-n))
  rw [whole] at ran
  rw [after,ran]
  exact ⟨rfl,holds⟩

def requestRead (tail : List Byte) : State :=
  (Transition.run step (start localhost fun _ => array 64 ++ tail) (exchange.take 8)).getD
    (start localhost fun _ => array 64 ++ tail)

def closingSent : List Byte := ascii "GET / HTTP/1.1\r\nHost: a.b\r\nConnection: close\r\n\r\n"

def closingLines : List RequestText.HeaderLine := [⟨ascii "Host",1,ascii "a.b"⟩,⟨ascii "Connection",1,ascii "close"⟩]

theorem closing_accepted : Accepted (localhost 0) closing closingSent closingSent 16 closingLines ⟨2130706433,80⟩ where
  noNul := by decide
  version := by decide
  headerLines := by decide
  hosted := by decide
  resolved := by decide +kernel
  rewrites := by decide

/-- Once the request has been taken, the rest of the run. -/
theorem exchange_served (tail rest host : List Byte) (server : Option Server) : ∃ σ,
    Transition.run step (atFirstWrite (requestRead tail) 0 4 5 48 ⟨closingSent ++ 0 :: rest,host,server⟩)
      (exchange.drop 15) = some σ ∧ σ.sent (.remote 0) = closingSent := ⟨_,rfl,rfl⟩

theorem exchange_runs : Transition.run step (start localhost handlerStack) exchange = some (after exchange) ∧
    (after exchange).sent (.remote 0) = closingSent := by
  have parts : exchange = exchange.take 8 ++ ([.handler 0 0,.handler 0 0,.handler 0 0,.handler 0 5,.handler 0 0,
    .handler 0 0,.handler 0 0] ++ exchange.drop 15) := rfl
  refine @after_of_tail 64 _ (fun σ => σ.sent (.remote 0) = closingSent) (by decide) fun tail => ?_
  have read : Transition.run step (start localhost fun _ => array 64 ++ tail) (exchange.take 8) =
    some (requestRead tail) := rfl
  obtain ⟨rest,opens⟩ := @request_opens _ (requestRead tail) 0 4 5 48 _ _ _ _ (array 15 ++ tail) _ rfl rfl rfl
    closing_accepted (Nat.zero_le _) rfl
  obtain ⟨σ,served,isSent⟩ := exchange_served tail rest _ _
  exact ⟨σ,(congrArg _ parts).trans (Transition.run_append read (Transition.run_append opens served)),isSent⟩

theorem connections_isolated_exchange : Alone handlerStack (after exchange) 0 :=
  connections_isolated exchange_runs.1 0

theorem no_crosstalk_exchange : (after exchange).sent (.remote 0) = closingSent ∧
    (after exchange).sent (.client 0) <+: (after exchange).arrived (.remote 0) ∧
      ((after exchange).sent (.remote 0) ≠ [] → ∃ server data text rest,
        contacted (handlerStack 0) ((after exchange).calls 0) = some server ∧
        (after exchange).peer (.remote 0) = some server ∧ data <+: (after exchange).arrived (.client 0) ∧
        rewritten (data.takeWhile (· ≠ 0)) = some text ∧
        requestBuffer (array (handlerStack 0).length) data = some (text ++ 0 :: rest) ∧
        (after exchange).sent (.remote 0) <+: text ++ 0 :: rest ∧
        ((after exchange).sent (.remote 0)).length ≤ data.length) :=
  ⟨exchange_runs.2,no_crosstalk exchange_runs.1 0⟩

end Os5Sem.ProxyIsolation

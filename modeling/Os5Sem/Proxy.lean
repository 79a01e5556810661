import Os5Sem.Descriptors

/-!
The whole proxy: the accept loop and the threads of `Connections`, with the memory
of the threads and the bytes that go over the sockets. A call acts on the socket
that its descriptor stands for when it is made, whichever connection that socket
belongs to, and the other ends of the sockets send whatever they like whenever they
like. A run ends where the source would write outside of an array.
-/
namespace Os5Sem.Proxy
open Os5Sem.CMemory Os5Sem.Handler
open Os5Sem.Connections (Socket HandlerPc)
open Os5Sem.Occurrences (overwrite)

/-- The arrays of a thread that runs `handle_client`, and `remote_addr`. -/
structure Memory where
  buffer : List Byte
  host : List Byte
  server : Option Server

/-- The descriptors and the threads, their memory, and the sockets: the bytes of the
    other end that nobody has read yet, and the address a socket is connected to.
    The last three fields only record the run: all bytes that the other end of a
    socket has sent, those that were sent to it, and what the calls of a thread
    have returned. -/
structure State where
  conns : Connections.State
  memory : Nat → Memory
  incoming : Socket → List Byte
  peer : Socket → Option Server
  arrived : Socket → List Byte
  sent : Socket → List Byte
  calls : Nat → Env

/-- No call has been made; `dns` tells what a thread is going to be told by
    `getaddrinfo`. -/
def noCalls (dns : Nat → List Byte → Option Nat) (k : Nat) : Env := ⟨none,dns k,false,false,[],[],[]⟩

/-- The buffer of a thread is what was left on its stack. -/
def start (dns : Nat → List Byte → Option Nat) (stack : Nat → List Byte) : State where
  conns := Connections.start
  memory k := ⟨stack k,array hValSize,none⟩
  incoming _ := []
  peer _ := none
  arrived _ := []
  sent _ := []
  calls := noCalls dns

namespace State

/-- The socket that a descriptor stands for. -/
def socketOf (σ : State) (fd : Nat) : Option Socket := σ.conns.descriptors.owner fd

def store (σ : State) (k : Nat) (memory : Memory) : State := { σ with memory := Function.update σ.memory k memory }

def record (σ : State) (k : Nat) (calls : Env) : State := { σ with calls := Function.update σ.calls k calls }

/-- `read` gives `n` bytes, of those that have arrived and no more than `limit`. -/
def receive (σ : State) (fd limit n : Nat) : Option (State × List Byte) :=
  match σ.socketOf fd with
  | none => none
  | some s =>
    if n ≤ limit ∧ n ≤ (σ.incoming s).length then
      some ({ σ with incoming := Function.update σ.incoming s ((σ.incoming s).drop n) },(σ.incoming s).take n)
    else none

/-- `write` takes the bytes. -/
def transmit (σ : State) (fd : Nat) (bytes : List Byte) : Option State :=
  match σ.socketOf fd with
  | none => none
  | some s => some { σ with sent := Function.update σ.sent s (σ.sent s ++ bytes) }

/-- `connect` succeeds. -/
def connect (σ : State) (fd : Nat) (server : Option Server) : Option State :=
  match σ.socketOf fd with
  | none => none
  | some s => some { σ with peer := Function.update σ.peer s server }

variable (σ : State) (k : Nat)

@[simp] theorem store_self (m : Memory) : (σ.store k m).memory k = m := Function.update_self ..
@[simp] theorem store_calls (m : Memory) : (σ.store k m).calls = σ.calls := rfl
@[simp] theorem store_incoming (m : Memory) : (σ.store k m).incoming = σ.incoming := rfl
@[simp] theorem store_peer (m : Memory) : (σ.store k m).peer = σ.peer := rfl
@[simp] theorem store_arrived (m : Memory) : (σ.store k m).arrived = σ.arrived := rfl
@[simp] theorem store_sent (m : Memory) : (σ.store k m).sent = σ.sent := rfl
@[simp] theorem record_self (e : Env) : (σ.record k e).calls k = e := Function.update_self ..
@[simp] theorem record_memory (e : Env) : (σ.record k e).memory = σ.memory := rfl
@[simp] theorem record_incoming (e : Env) : (σ.record k e).incoming = σ.incoming := rfl
@[simp] theorem record_peer (e : Env) : (σ.record k e).peer = σ.peer := rfl
@[simp] theorem record_arrived (e : Env) : (σ.record k e).arrived = σ.arrived := rfl
@[simp] theorem record_sent (e : Env) : (σ.record k e).sent = σ.sent := rfl

end State

/-- What a parser returns. -/
def status {ε α : Type} : Except ε α → Int
  | .ok _ => 0
  | .error _ => 1

/-- What `read` returns when it gives no bytes: the end of the stream, or an error. -/
def nothing (result : Int) : Option (List Byte) := if result = 0 then some [] else none

/-- One more call has returned. -/
def wroteRemote (e : Env) (n : Int) : Env := { e with remoteWrites := e.remoteWrites ++ [n] }
def readRemote (e : Env) (chunk : Option (List Byte)) : Env := { e with remoteReads := e.remoteReads ++ [chunk] }
def wroteClient (e : Env) (n : Int) : Env := { e with clientWrites := e.clientWrites ++ [n] }

/-- What a call of `handle_client` in thread `k` does with its memory and with the
    sockets, when it returns `result`. The parsers return what they compute. -/
def call (σ : State) (k : Nat) (result : Int) : HandlerPc → Option State
  | .read client_sock_fd =>
    if result ≤ 0 then some (σ.record k { σ.calls k with request := nothing result })
    else do
      let (σ,data) ← σ.receive client_sock_fd (buffSize-1) result.toNat
      let buffer ← memcpy (σ.memory k).buffer 0 data
      let buffer ← memcpy buffer data.length [0]
      return (σ.store k { σ.memory k with buffer }).record k { σ.calls k with request := some data }
  | .parseRequestLine _ _ => do
    let (parsed,buffer) ← parseRequestLine (σ.memory k).buffer
    if result = status parsed then some (σ.store k { σ.memory k with buffer }) else none
  | .parseHeaders _ _ => do
    let (parsed,buffer) ← parseHeaders (σ.memory k).buffer (σ.memory k).host
    if result = status parsed then
      match parsed with
      | .error _ => some (σ.store k { σ.memory k with buffer })
      | .ok host => some (σ.store k { σ.memory k with buffer, host })
    else none
  | .resolveHost _ _ => do
    let server ← resolveHost (σ.calls k).getaddrinfo (σ.memory k).host
    if result = (if server.isSome then 0 else 1) then some (σ.store k { σ.memory k with server }) else none
  | .socket _ _ =>
    if result < 0 then some σ else some (σ.record k { σ.calls k with socket := true })
  | .connect _ _ remote_sock_fd =>
    if result < 0 then some σ
    else do
      let σ ← σ.connect remote_sock_fd (σ.memory k).server
      -- What the thread does before its first `write`.
      let buffer ← removeUrl (σ.memory k).buffer
      return (σ.store k { σ.memory k with buffer }).record k { σ.calls k with connect := true }
  | .writeRemote _ remote_sock_fd total_read sent => do
    let σ := σ.record k (wroteRemote (σ.calls k) result)
    if result ≤ 0 then some σ
    else if result.toNat ≤ total_read - sent then
      σ.transmit remote_sock_fd (slice (σ.memory k).buffer sent result.toNat)
    else none
  | .readRemote _ remote_sock_fd =>
    if result ≤ 0 then some (σ.record k (readRemote (σ.calls k) (nothing result)))
    else do
      let (σ,data) ← σ.receive remote_sock_fd buffSize result.toNat
      return (σ.store k { σ.memory k with buffer := overwrite (σ.memory k).buffer 0 data }).record k
        (readRemote (σ.calls k) (some data))
  | .writeClient client_sock_fd _ remote_read client_sent => do
    let σ := σ.record k (wroteClient (σ.calls k) result)
    if result ≤ 0 then some σ
    else if result.toNat ≤ remote_read - client_sent then
      σ.transmit client_sock_fd (slice (σ.memory k).buffer client_sent result.toNat)
    else none
  | _ => some σ

/-! ### What a call can do -/

/-- At most one operation on a socket. -/
inductive Operates (σ : State) : State → Prop
  | nothing : Operates σ σ
  | receives {σ' : State} {fd limit n : Nat} {data : List Byte} (received : σ.receive fd limit n = some (σ',data)) :
    Operates σ σ'
  | transmits {σ' : State} {fd : Nat} {bytes : List Byte} (transmitted : σ.transmit fd bytes = some σ') : Operates σ σ'
  | connects {σ' : State} {fd : Nat} {server : Option Server} (connected : σ.connect fd server = some σ') :
    Operates σ σ'

/-- A call leaves what a thread has been told by the resolver, and reads a request of at
    most the size of the buffer. -/
structure Tells (e e' : Env) : Prop where
  getaddrinfo : e'.getaddrinfo = e.getaddrinfo
  request : e'.request = e.request ∨ ∀ data, e'.request = some data → data.length ≤ buffSize-1

section
variable {σ σ' σ1 : State} {k : Nat} {result : Int}

theorem record_calls (σ : State) (k : Nat) : σ.record k (σ.calls k) = σ := by
  rw [State.record,Function.update_eq_self]

theorem store_memory (σ : State) (k : Nat) : σ.store k (σ.memory k) = σ := by
  rw [State.store,Function.update_eq_self]

theorem receive_calls {fd limit n : Nat} {data : List Byte} (received : σ.receive fd limit n = some (σ',data)) :
    σ'.calls = σ.calls ∧ data.length ≤ limit := by
  rw [State.receive] at received
  split at received
  · cases received
  · split at received <;> cases received
    rename_i available
    rw [List.length_take]
    exact ⟨rfl,by omega⟩

theorem transmit_calls {fd : Nat} {bytes : List Byte} (transmitted : σ.transmit fd bytes = some σ') :
    σ'.calls = σ.calls := by
  rw [State.transmit] at transmitted
  split at transmitted <;> cases transmitted
  rfl

theorem connect_calls {fd : Nat} {server : Option Server} (connected : σ.connect fd server = some σ') :
    σ'.calls = σ.calls := by
  rw [State.connect] at connected
  split at connected <;> cases connected
  rfl

theorem Operates.calls (operates : Operates σ σ') : σ'.calls = σ.calls := by
  cases operates with
  | nothing => rfl
  | receives received => exact (receive_calls received).1
  | transmits transmitted => exact transmit_calls transmitted
  | connects connected => exact connect_calls connected

theorem transmit_record {e : Env} {fd : Nat} {bytes : List Byte}
    (transmitted : (σ.record k e).transmit fd bytes = some σ') :
    ∃ σ2, σ.transmit fd bytes = some σ2 ∧ σ' = σ2.record k e := by
  rw [State.transmit] at transmitted
  split at transmitted <;> cases transmitted
  rename_i s own
  have own : σ.socketOf fd = some s := own
  exact ⟨_,by rw [State.transmit,own],rfl⟩

/-- The state after a call: one operation on a socket, the thread's memory, and its
    record. -/
def Moved (σ σ1 : State) (k : Nat) : Prop :=
  ∃ σ2 m e, Operates σ σ2 ∧ Tells (σ.calls k) e ∧ σ1 = (σ2.store k m).record k e

theorem moved_of_store (operates : Operates σ σ') (m : Memory) : Moved σ (σ'.store k m) k := by
  have calls := operates.calls
  exact ⟨σ',m,σ.calls k,operates,⟨rfl,.inl rfl⟩,by rw [← calls]; exact (record_calls (σ'.store k m) k).symm⟩

theorem moved_of_record (operates : Operates σ σ') {e : Env} (tells : Tells (σ.calls k) e) :
    Moved σ (σ'.record k e) k := ⟨σ',σ'.memory k,e,operates,tells,by rw [store_memory]⟩

theorem call_cases {pc : HandlerPc} (called : call σ k result pc = some σ1) : Moved σ σ1 k := by
  have unmoved : Moved σ σ k := by
    have same := moved_of_store (k := k) (.nothing : Operates σ σ) (σ.memory k)
    rwa [store_memory] at same
  have nothing_fits : ∀ data, nothing result = some data → data.length ≤ buffSize-1 := by
    intro data is
    unfold nothing at is
    split at is <;> cases is
    exact Nat.zero_le _
  cases pc with
  | read fd =>
    simp only [call] at called
    split at called
    · cases called
      exact moved_of_record .nothing ⟨rfl,.inr nothing_fits⟩
    · obtain ⟨⟨σ2,data⟩,received,called⟩ := Option.bind_eq_some_iff.mp called
      obtain ⟨first,_,called⟩ := Option.bind_eq_some_iff.mp called
      obtain ⟨buffer,_,called⟩ := Option.bind_eq_some_iff.mp called
      cases called
      obtain ⟨calls,short⟩ := receive_calls received
      refine ⟨σ2,_,_,.receives received,⟨?_,.inr fun data' is => ?_⟩,rfl⟩
      · rw [← calls]
      · cases is
        exact short
  | parseRequestLine fd readed =>
    obtain ⟨⟨parsed,buffer⟩,_,called⟩ := Option.bind_eq_some_iff.mp called
    simp only at called
    split at called <;> cases called
    exact moved_of_store .nothing _
  | parseHeaders fd readed =>
    obtain ⟨⟨parsed,buffer⟩,_,called⟩ := Option.bind_eq_some_iff.mp called
    simp only at called
    split at called
    · cases parsed <;> cases called <;> exact moved_of_store .nothing _
    · cases called
  | resolveHost fd readed =>
    obtain ⟨server,_,called⟩ := Option.bind_eq_some_iff.mp called
    obtain ⟨_,stored⟩ := Option.ite_none_right_eq_some.mp called
    cases stored
    exact moved_of_store .nothing _
  | socket fd readed =>
    simp only [call] at called
    split at called <;> cases called
    · exact unmoved
    · exact moved_of_record .nothing ⟨rfl,.inl rfl⟩
  | connect fd readed fd' =>
    simp only [call] at called
    split at called
    · cases called
      exact unmoved
    · obtain ⟨σ2,connected,called⟩ := Option.bind_eq_some_iff.mp called
      obtain ⟨buffer,_,called⟩ := Option.bind_eq_some_iff.mp called
      cases called
      have calls := connect_calls connected
      exact ⟨σ2,_,_,.connects connected,⟨by rw [← calls],.inl (by rw [← calls])⟩,rfl⟩
  | writeRemote fd fd' total sent =>
    simp only [call] at called
    split at called
    · cases called
      exact moved_of_record .nothing ⟨rfl,.inl rfl⟩
    · obtain ⟨_,called⟩ := Option.ite_none_right_eq_some.mp called
      obtain ⟨σ2,transmitted,rfl⟩ := transmit_record called
      exact moved_of_record (.transmits transmitted) ⟨rfl,.inl rfl⟩
  | readRemote fd fd' =>
    simp only [call] at called
    split at called
    · cases called
      exact moved_of_record .nothing ⟨rfl,.inl rfl⟩
    · obtain ⟨⟨σ2,data⟩,received,called⟩ := Option.bind_eq_some_iff.mp called
      cases called
      have calls := (receive_calls received).1
      exact ⟨σ2,_,_,.receives received,⟨by rw [← calls]; rfl,.inl (by rw [← calls]; rfl)⟩,rfl⟩
  | writeClient fd fd' total sent =>
    simp only [call] at called
    split at called
    · cases called
      exact moved_of_record .nothing ⟨rfl,.inl rfl⟩
    · obtain ⟨_,called⟩ := Option.ite_none_right_eq_some.mp called
      obtain ⟨σ2,transmitted,rfl⟩ := transmit_record called
      exact moved_of_record (.transmits transmitted) ⟨rfl,.inl rfl⟩
  | _ =>
    cases called
    exact unmoved

end

/-- What can happen: the loop or a thread goes on, and its call returns a result, or
    the other end of a socket sends bytes. -/
inductive Act
  | main (result : Int)
  | handler (k : Nat) (result : Int)
  | arrive (s : Socket) (bytes : List Byte)
deriving DecidableEq

def step (σ : State) : Act → Option State
  | .main result => (Connections.acceptLoop σ.conns result).map fun conns => { σ with conns }
  | .handler k result => do
    let σ' ← call σ k result (σ.conns.handler k)
    let conns ← Connections.handleClient σ.conns k result
    return { σ' with conns }
  | .arrive s bytes =>
    some
      { σ with
        incoming := Function.update σ.incoming s (σ.incoming s ++ bytes)
        arrived := Function.update σ.arrived s (σ.arrived s ++ bytes) }

/-! ### Its descriptors -/

/-- The step of the machine of descriptors. -/
def Act.conns : Act → Option Connections.Act
  | .main result => some (.main result)
  | .handler k result => some (.handler k result)
  | .arrive _ _ => none

variable {σ σ' : State}

/-- A thread's call and the change of its program point. -/
theorem handler_cases {k : Nat} {result : Int} (taken : step σ (.handler k result) = some σ') :
    ∃ σ1 conns, call σ k result (σ.conns.handler k) = some σ1 ∧
      Connections.handleClient σ.conns k result = some conns ∧ σ' = { σ1 with conns } := by
  obtain ⟨σ1,called,taken⟩ := Option.bind_eq_some_iff.mp taken
  obtain ⟨conns,goes,taken⟩ := Option.bind_eq_some_iff.mp taken
  cases taken
  exact ⟨σ1,conns,called,goes,rfl⟩

theorem step_conns {a : Act} (taken : step σ a = some σ') :
    Transition.run Connections.step σ.conns a.conns.toList = some σ'.conns := by
  cases a with
  | main result =>
    obtain ⟨conns,goes,rfl⟩ := Option.map_eq_some_iff.mp taken
    exact Transition.run_cons.mpr ⟨conns,goes,rfl⟩
  | handler k result =>
    obtain ⟨σ1,conns,_,goes,rfl⟩ := handler_cases taken
    exact Transition.run_cons.mpr ⟨conns,goes,rfl⟩
  | arrive s bytes => cases taken; rfl

end Os5Sem.Proxy

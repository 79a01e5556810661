import Os5Sem.Handler
import Os5Sem.Handles
import Os5Sem.Transition

/-!
The accept loop of `main` in `main.c` and the threads that run `handle_client`, as
far as descriptors are concerned. Every call that uses a descriptor or the cell in
which it is handed over is a step, with whatever the call returns; the two parsers
and `resolve_host` are steps that may fail. The kernel gives out a descriptor again
once it has been closed, `malloc` an address once it has been freed.
-/
namespace Os5Sem.Connections
open Os5Sem.Handler (buffSize)
open Os5Sem.Handles (Table)

/-- The sockets of the connections, which are numbered in the order in which they
    were accepted. -/
inductive Socket
  | client (k : Nat)
  | remote (k : Nat)
deriving DecidableEq

/-- The next step of the loop of `main`, for connection `k`. -/
inductive MainPc
  | accept
  | malloc (k client_sock_fd : Nat)
  | storeArg (k client_sock_fd arg : Nat)
  | pthreadCreate (k client_sock_fd arg : Nat)
  | freeArg (k client_sock_fd arg : Nat)
  | closeClient (k client_sock_fd : Nat)
deriving DecidableEq

/-- The next step of `handle_client`; `absent` before there is a thread, `exited`
    once it has returned. The descriptor to be closed after that of the client is
    missing when there is no remote socket. -/
inductive HandlerPc
  | absent
  | loadArg (arg : Nat)
  | freeArg (arg client_sock_fd : Nat)
  | read (client_sock_fd : Nat)
  | parseRequestLine (client_sock_fd readed : Nat)
  | parseHeaders (client_sock_fd readed : Nat)
  | resolveHost (client_sock_fd readed : Nat)
  | socket (client_sock_fd readed : Nat)
  | setRcvTimeo (client_sock_fd readed remote_sock_fd : Nat)
  | setSndTimeo (client_sock_fd readed remote_sock_fd : Nat)
  | connect (client_sock_fd readed remote_sock_fd : Nat)
  | writeRemote (client_sock_fd remote_sock_fd total_read sent : Nat)
  | readRemote (client_sock_fd remote_sock_fd : Nat)
  | writeClient (client_sock_fd remote_sock_fd remote_read client_sent : Nat)
  | closeClient (client_sock_fd : Nat) (remote_sock_fd : Option Nat)
  | closeRemote (remote_sock_fd : Nat)
  | exit
  | exited
deriving DecidableEq

/-- The descriptors, the heap with the cells that `main` allocates, and the
    threads. `lost` only records the run: the descriptors of the connections for
    which there was no memory. -/
structure State where
  descriptors : Table Socket
  cells : Table Nat
  value : Nat → Nat
  main : MainPc
  handler : Nat → HandlerPc
  accepted : Nat
  lost : Nat → Option Nat

def start : State where
  descriptors := .empty
  cells := .empty
  value _ := 0
  main := .accept
  handler _ := .absent
  accepted := 0
  lost _ := none

namespace State

/-- A call returns a new descriptor, which is not open. -/
def openAs (σ : State) (fd : Nat) (s : Socket) : Option State :=
  if σ.descriptors.owner fd = none then some { σ with descriptors := σ.descriptors.take fd s } else none

/-- `close`, called on a descriptor for one of the sockets. -/
def close (σ : State) (fd : Nat) (s : Socket) : State := { σ with descriptors := σ.descriptors.release fd s }

def free (σ : State) (arg k : Nat) : State := { σ with cells := σ.cells.release arg k }

def mainAt (σ : State) (pc : MainPc) : State := { σ with main := pc }
def handlerAt (σ : State) (k : Nat) (pc : HandlerPc) : State := { σ with handler := Function.update σ.handler k pc }

end State

/-- A step of the loop of `main`, whose call returns `result`. -/
def acceptLoop (σ : State) (result : Int) : Option State :=
  match σ.main with
  | .accept =>
    if result < 0 then some σ
    else
      (σ.openAs result.toNat (.client σ.accepted)).map fun σ =>
        { σ.mainAt (.malloc σ.accepted result.toNat) with accepted := σ.accepted+1 }
  | .malloc k client_sock_fd =>
    if result = 0 then some { σ.mainAt .accept with lost := Function.update σ.lost k (some client_sock_fd) }
    else if 0 < result ∧ σ.cells.owner result.toNat = none then
      some { σ.mainAt (.storeArg k client_sock_fd result.toNat) with cells := σ.cells.take result.toNat k }
    else none
  | .storeArg k client_sock_fd arg =>
    some { σ.mainAt (.pthreadCreate k client_sock_fd arg) with value := Function.update σ.value arg client_sock_fd }
  | .pthreadCreate k client_sock_fd arg =>
    if result ≠ 0 then some (σ.mainAt (.freeArg k client_sock_fd arg))
    else some ((σ.mainAt .accept).handlerAt k (.loadArg arg))
  | .freeArg k client_sock_fd arg => some ((σ.free arg k).mainAt (.closeClient k client_sock_fd))
  | .closeClient k client_sock_fd => some ((σ.close client_sock_fd (.client k)).mainAt .accept)

/-- A step of `handle_client` for connection `k`, whose call returns `result`. -/
def handleClient (σ : State) (k : Nat) (result : Int) : Option State :=
  match σ.handler k with
  | .absent => none
  | .loadArg arg => some (σ.handlerAt k (.freeArg arg (σ.value arg)))
  | .freeArg arg client_sock_fd => some ((σ.free arg k).handlerAt k (.read client_sock_fd))
  | .read client_sock_fd =>
    if result ≤ 0 then some (σ.handlerAt k (.closeClient client_sock_fd none))
    else some (σ.handlerAt k (.parseRequestLine client_sock_fd (min result.toNat (buffSize-1))))
  | .parseRequestLine client_sock_fd readed =>
    if result ≠ 0 then some (σ.handlerAt k (.closeClient client_sock_fd none))
    else some (σ.handlerAt k (.parseHeaders client_sock_fd readed))
  | .parseHeaders client_sock_fd readed =>
    if result ≠ 0 then some (σ.handlerAt k (.closeClient client_sock_fd none))
    else some (σ.handlerAt k (.resolveHost client_sock_fd readed))
  | .resolveHost client_sock_fd readed =>
    if result ≠ 0 then some (σ.handlerAt k (.closeClient client_sock_fd none))
    else some (σ.handlerAt k (.socket client_sock_fd readed))
  | .socket client_sock_fd readed =>
    if result < 0 then some (σ.handlerAt k (.closeClient client_sock_fd none))
    else
      (σ.openAs result.toNat (.remote k)).map fun σ =>
        σ.handlerAt k (.setRcvTimeo client_sock_fd readed result.toNat)
  | .setRcvTimeo client_sock_fd readed remote_sock_fd =>
    some (σ.handlerAt k (.setSndTimeo client_sock_fd readed remote_sock_fd))
  | .setSndTimeo client_sock_fd readed remote_sock_fd =>
    some (σ.handlerAt k (.connect client_sock_fd readed remote_sock_fd))
  | .connect client_sock_fd readed remote_sock_fd =>
    if result < 0 then some (σ.handlerAt k (.closeClient client_sock_fd (some remote_sock_fd)))
    else some (σ.handlerAt k (.writeRemote client_sock_fd remote_sock_fd readed 0))
  | .writeRemote client_sock_fd remote_sock_fd total_read sent =>
    if result ≤ 0 then some (σ.handlerAt k (.closeClient client_sock_fd (some remote_sock_fd)))
    else
      let sent := sent + min result.toNat (total_read - sent)
      if sent < total_read then some (σ.handlerAt k (.writeRemote client_sock_fd remote_sock_fd total_read sent))
      else some (σ.handlerAt k (.readRemote client_sock_fd remote_sock_fd))
  | .readRemote client_sock_fd remote_sock_fd =>
    if result ≤ 0 then some (σ.handlerAt k (.closeClient client_sock_fd (some remote_sock_fd)))
    else some (σ.handlerAt k (.writeClient client_sock_fd remote_sock_fd (min result.toNat buffSize) 0))
  | .writeClient client_sock_fd remote_sock_fd remote_read client_sent =>
    if result ≤ 0 then some (σ.handlerAt k (.closeClient client_sock_fd (some remote_sock_fd)))
    else
      let client_sent := client_sent + min result.toNat (remote_read - client_sent)
      if client_sent < remote_read then
        some (σ.handlerAt k (.writeClient client_sock_fd remote_sock_fd remote_read client_sent))
      else some (σ.handlerAt k (.readRemote client_sock_fd remote_sock_fd))
  | .closeClient client_sock_fd remote_sock_fd =>
    match remote_sock_fd with
    | none => some ((σ.close client_sock_fd (.client k)).handlerAt k .exit)
    | some remote_sock_fd => some ((σ.close client_sock_fd (.client k)).handlerAt k (.closeRemote remote_sock_fd))
  | .closeRemote remote_sock_fd => some ((σ.close remote_sock_fd (.remote k)).handlerAt k .exit)
  | .exit => some (σ.handlerAt k .exited)
  | .exited => none

/-- What can happen: the loop or the thread of a connection goes on, and its call
    returns a result. -/
inductive Act
  | main (result : Int)
  | handler (k : Nat) (result : Int)
deriving DecidableEq

def step (σ : State) : Act → Option State
  | .main result => acceptLoop σ result
  | .handler k result => handleClient σ k result

end Os5Sem.Connections

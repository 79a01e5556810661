import Os5Sem.ReapQueue

/-!
The threads of `mythread.c`: the end of `thread_startup`, any number of calls of
`mythread_join` and `mythread_detach`, and the reaper of `queue.h`. Every atomic
operation, every system call and every access to a thread's block is a step. The
threads are those that `mythread_create` has made, whose `start_routine` and
`stack` are never the null pointer. A block keeps its last values after it has
been released, so that what the code does with a released block can be told.

`start_reaper` touches neither a thread nor the queue: a call is one step here,
and the reaper is there from the start, where it waits for the first thread.
-/
namespace Os5Sem.MyThread
open Os5Sem.ReapQueue (Env)

/-- The bits of `state`: `MT_DETACHED`, `MT_JOINED`, `MT_REAPED` and `MT_QUEUED`. -/
structure Flags where
  detached : Bool
  joined : Bool
  reaped : Bool
  queued : Bool
deriving DecidableEq

/-- `mythread_t`, as far as the steps below change it. Pointers are numbers, the
    null pointer is 0. -/
structure Block where
  retval : Nat
  finished : Bool
  state : Flags

/-- The next step of `thread_startup`. -/
inductive StartupPc
  | running
  | storeRetval (retval : Nat)
  | storeFinished
  | futexWake
  | loadState
  | orQueued
  | startReaper
  | callEnqueue
  | enqueueing
  | exit
  | exited
deriving DecidableEq

/-- The next step of `mythread_join`; `stored` is what was stored through
    `retval`, unless it is the null pointer. -/
inductive JoinPc
  | loadState
  | compareExchange (s : Flags)
  | loadFinished
  | futexWait
  | asleep
  | loadRetval
  | orReaped (stored : Option Nat)
  | destroyStack (stored : Option Nat)
  | free (stored : Option Nat)
deriving DecidableEq

/-- The next step of `mythread_detach`. -/
inductive DetachPc
  | loadState
  | compareExchange (s : Flags)
  | loadFinished
  | orQueued
  | startReaper
  | callEnqueue
  | enqueueing
deriving DecidableEq

/-- A call on a thread; `wants` tells whether `retval` is not the null pointer. -/
inductive Call
  | join (t : Nat) (wants : Bool)
  | detach (t : Nat)
deriving DecidableEq

def Call.thread : Call → Nat
  | .join t _ => t
  | .detach t => t

inductive ClientPc
  | idle
  | join (t : Nat) (wants : Bool) (pc : JoinPc)
  | detach (t : Nat) (pc : DetachPc)
deriving DecidableEq

/-- The next step of the reaper with the thread that it visits. -/
inductive VisitPc
  | orReaped
  | munmap
  | free
deriving DecidableEq

/-- What a call returns: 0, with the value stored through `retval`, or -1 with
    `errno` set to `EINVAL`. -/
inductive Result
  | ok (stored : Option Nat)
  | einval
deriving DecidableEq

structure Return where
  client : Nat
  call : Call
  result : Result
deriving DecidableEq

/-- Who calls `reap_enqueue`. -/
inductive Caller
  | thread (t : Nat)
  | client (c : Nat)
deriving DecidableEq

/-- Who releases a stack or a block. -/
inductive Releaser
  | joiner (c : Nat)
  | reaper
deriving DecidableEq

/-- The blocks, the queue and the parties. `sleepers` lists the clients that
    sleep on a thread's `finished`. The last five fields only record the run: what
    the start routines returned, the releases of stacks and of blocks, the calls
    and what they returned. -/
structure State where
  block : Nat → Block
  queue : ReapQueue.State Caller
  startup : Nat → StartupPc
  client : Nat → ClientPc
  visit : VisitPc
  sleepers : Nat → List Nat
  returned : Nat → Option Nat
  unmapped : Nat → List Releaser
  freed : Nat → List Releaser
  calls : List (Nat × Call)
  returns : List Return

def start : State where
  block _ := ⟨0,false,⟨false,false,false,false⟩⟩
  queue := ReapQueue.start Caller
  startup _ := .running
  client _ := .idle
  visit := .orReaped
  sleepers _ := []
  returned _ := none
  unmapped _ := []
  freed _ := []
  calls := []
  returns := []

/-- What the environment decides in a step: what it decides for the queue, and
    which of the sleepers a wake reaches. -/
structure Choice extends Env where
  pick : Nat
deriving DecidableEq

namespace State

def flags (σ : State) (t : Nat) : Flags := (σ.block t).state
def finished (σ : State) (t : Nat) : Bool := (σ.block t).finished

def setBlock (σ : State) (t : Nat) (block : Block) : State := { σ with block := Function.update σ.block t block }
def setFlags (σ : State) (t : Nat) (flags : Flags) : State := σ.setBlock t { σ.block t with state := flags }

def startupAt (σ : State) (t : Nat) (pc : StartupPc) : State := { σ with startup := Function.update σ.startup t pc }
def clientAt (σ : State) (c : Nat) (pc : ClientPc) : State := { σ with client := Function.update σ.client c pc }

def unmap (σ : State) (t : Nat) (releaser : Releaser) : State :=
  { σ with unmapped := Function.update σ.unmapped t (σ.unmapped t ++ [releaser]) }
def free (σ : State) (t : Nat) (releaser : Releaser) : State :=
  { σ with freed := Function.update σ.freed t (σ.freed t ++ [releaser]) }

/-- The client's call returns. -/
def leave (σ : State) (c : Nat) (call : Call) (result : Result) : State :=
  { σ.clientAt c .idle with returns := σ.returns ++ [⟨c,call,result⟩] }

/-- A sleeping joiner goes on with the test of its loop. -/
def wake (σ : State) (c : Nat) : State :=
  match σ.client c with
  | .join t wants .asleep =>
    { σ.clientAt c (.join t wants .loadFinished) with
      sleepers := Function.update σ.sleepers t ((σ.sleepers t).erase c) }
  | _ => σ

/-- `futex_wake(&t->finished, 1)`: one of the sleepers, if there are any. -/
def futexWake (σ : State) (t pick : Nat) : State :=
  match (σ.sleepers t)[pick % (σ.sleepers t).length]? with
  | none => σ
  | some c => σ.wake c

end State

/-- A step of `thread_startup` after the start routine. -/
def threadStartup (σ : State) (t : Nat) (choice : Choice) : Option State :=
  match σ.startup t with
  | .running => none
  | .storeRetval retval => some ((σ.setBlock t { σ.block t with retval }).startupAt t .storeFinished)
  | .storeFinished => some ((σ.setBlock t { σ.block t with finished := true }).startupAt t .futexWake)
  | .futexWake => some ((σ.futexWake t choice.pick).startupAt t .loadState)
  | .loadState =>
    if (σ.flags t).detached then some (σ.startupAt t .orQueued) else some (σ.startupAt t .exit)
  | .orQueued =>
    let prev := σ.flags t
    let σ := σ.setFlags t { prev with queued := true }
    if prev.queued then some (σ.startupAt t .exit) else some (σ.startupAt t .startReaper)
  | .startReaper => some (σ.startupAt t .callEnqueue)
  | .callEnqueue => some ({ σ with queue := σ.queue.enter (.thread t) t }.startupAt t .enqueueing)
  | .enqueueing =>
    (ReapQueue.reapEnqueue σ.queue (.thread t) choice.toEnv).map fun queue =>
      if queue.enqueuer (.thread t) = .idle then { σ with queue }.startupAt t .exit else { σ with queue }
  | .exit => some (σ.startupAt t .exited)
  | .exited => none

/-- The top of the loop of `mythread_join`, for the value `s` of `state`. -/
def joinLoop (σ : State) (c t : Nat) (wants : Bool) (s : Flags) : State :=
  if s.detached then σ.leave c (.join t wants) .einval
  else if s.joined then σ.leave c (.join t wants) .einval
  else σ.clientAt c (.join t wants (.compareExchange s))

/-- A step of the client's call of `mythread_join`. -/
def mythreadJoin (σ : State) (c t : Nat) (wants : Bool) : JoinPc → State
  | .loadState => joinLoop σ c t wants (σ.flags t)
  | .compareExchange s =>
    if σ.flags t = s then (σ.setFlags t { s with joined := true }).clientAt c (.join t wants .loadFinished)
    else joinLoop σ c t wants (σ.flags t)
  | .loadFinished =>
    if σ.finished t then
      if wants then σ.clientAt c (.join t wants .loadRetval) else σ.clientAt c (.join t wants (.orReaped none))
    else σ.clientAt c (.join t wants .futexWait)
  | .futexWait =>
    if σ.finished t then σ.clientAt c (.join t wants .loadFinished)
    else
      { σ.clientAt c (.join t wants .asleep) with sleepers := Function.update σ.sleepers t (σ.sleepers t ++ [c]) }
  -- A sleeper may wake without a reason.
  | .asleep => σ.wake c
  | .loadRetval => σ.clientAt c (.join t wants (.orReaped (some (σ.block t).retval)))
  | .orReaped stored =>
    let prev := σ.flags t
    let σ := σ.setFlags t { prev with reaped := true }
    if prev.reaped then σ.leave c (.join t wants) (.ok stored)
    else σ.clientAt c (.join t wants (.destroyStack stored))
  | .destroyStack stored => (σ.unmap t (.joiner c)).clientAt c (.join t wants (.free stored))
  | .free stored => (σ.free t (.joiner c)).leave c (.join t wants) (.ok stored)

/-- The top of the loop of `mythread_detach`, for the value `s` of `state`. -/
def detachLoop (σ : State) (c t : Nat) (s : Flags) : State :=
  if s.detached then σ.leave c (.detach t) (.ok none)
  else if s.joined then σ.leave c (.detach t) .einval
  else σ.clientAt c (.detach t (.compareExchange s))

/-- A step of the client's call of `mythread_detach`. -/
def mythreadDetach (σ : State) (c t : Nat) (env : Env) : DetachPc → Option State
  | .loadState => some (detachLoop σ c t (σ.flags t))
  | .compareExchange s =>
    if σ.flags t = s ∧ ¬ env.spurious then
      some ((σ.setFlags t { s with detached := true }).clientAt c (.detach t .loadFinished))
    else some (detachLoop σ c t (σ.flags t))
  | .loadFinished =>
    if σ.finished t then some (σ.clientAt c (.detach t .orQueued)) else some (σ.leave c (.detach t) (.ok none))
  | .orQueued =>
    let prev := σ.flags t
    let σ := σ.setFlags t { prev with queued := true }
    if prev.queued then some (σ.leave c (.detach t) (.ok none)) else some (σ.clientAt c (.detach t .startReaper))
  | .startReaper => some (σ.clientAt c (.detach t .callEnqueue))
  | .callEnqueue => some ({ σ with queue := σ.queue.enter (.client c) t }.clientAt c (.detach t .enqueueing))
  | .enqueueing =>
    (ReapQueue.reapEnqueue σ.queue (.client c) env).map fun queue =>
      if queue.enqueuer (.client c) = .idle then { σ with queue }.leave c (.detach t) (.ok none)
      else { σ with queue }

/-- A step of `reaper_main` that concerns the queue, or the last one of a visit. -/
def reapStep (σ : State) (env : Env) : Option State :=
  (ReapQueue.reaperMain σ.queue env).map fun queue => { σ with queue, visit := .orReaped }

/-- A step of `reaper_main`. -/
def reaperMain (σ : State) (env : Env) : Option State :=
  match σ.queue.reaper with
  | .visit t _ _ _ =>
    match σ.visit with
    | .orReaped =>
      let prev := σ.flags t
      let σ := σ.setFlags t { prev with reaped := true }
      if prev.reaped then reapStep σ env else some { σ with visit := .munmap }
    | .munmap => some { σ.unmap t .reaper with visit := .free }
    | .free => reapStep (σ.free t .reaper) env
  | _ => reapStep σ env

/-- What can happen: a start routine returns, a thread goes on after it, a client
    outside of any call makes one, a call goes on, or the reaper does. -/
inductive Act
  | finish (t retval : Nat)
  | startup (t : Nat) (choice : Choice)
  | call (c : Nat) (call : Call)
  | client (c : Nat) (env : Env)
  | reaper (env : Env)

def step (σ : State) : Act → Option State
  | .finish t retval =>
    if σ.startup t = .running then
      some { σ.startupAt t (.storeRetval retval) with returned := Function.update σ.returned t (some retval) }
    else none
  | .startup t choice => threadStartup σ t choice
  | .call c call =>
    if σ.client c = .idle then
      match call with
      | .join t wants => some { σ.clientAt c (.join t wants .loadState) with calls := σ.calls ++ [(c,call)] }
      | .detach t => some { σ.clientAt c (.detach t .loadState) with calls := σ.calls ++ [(c,call)] }
    else none
  | .client c env =>
    match σ.client c with
    | .idle => none
    | .join t wants pc => some (mythreadJoin σ c t wants pc)
    | .detach t pc => mythreadDetach σ c t env pc
  | .reaper env => reaperMain σ env

end Os5Sem.MyThread

import Os5Sem.MyThread

/-!
The library without a reaper, `wo_reaper/mythread.c`: the end of `thread_startup`
with the cleanup on a temporary stack, and any number of calls of `mythread_join`
and `mythread_detach`. Every atomic operation, every system call, every
allocation and every access to a thread's block is a step. The threads are those
that `mythread_create` has made, whose `start_routine` and `stack` are never the
null pointer. A block keeps its last values after it has been released, so that
what the code does with a released block can be told.
-/
namespace Os5Sem.WoReaper
open Os5Sem.MyThread (Call Result Return)

/-- `mythread_t`, as far as the steps below change it. -/
structure Block where
  retval : Nat
  finished : Bool
  joined : Bool
  detached : Bool

/-- The next step of `thread_startup`. -/
inductive StartupPc
  | running
  | storeRetval (retval : Nat)
  | storeFinished
  | futexWake
  | compareExchange
  | loadDetached
  | exit
  -- `cleanup_and_exit_from_other_stack`
  | malloc
  | fillArgs
  | mmap
  | swapContext
  -- `cleanup_trampoline`, on the temporary stack
  | munmap
  | freeBlock
  | freeArgs
  | trampolineExit
  | exited
deriving DecidableEq

/-- The next step of `mythread_join`; `stored` is what was stored through
    `retval`, unless it is the null pointer. -/
inductive JoinPc
  | loadDetached
  | loadFinished
  | futexWait
  | asleep
  | loadRetval
  | exchange (stored : Option Nat)
  | destroyStack (stored : Option Nat)
  | free (stored : Option Nat)
deriving DecidableEq

/-- The next step of `mythread_detach`. -/
inductive DetachPc
  | storeDetached
  | loadFinished
  | compareExchange
  | destroyStack
  | free
deriving DecidableEq

inductive ClientPc
  | idle
  | join (t : Nat) (wants : Bool) (pc : JoinPc)
  | detach (t : Nat) (pc : DetachPc)
deriving DecidableEq

/-- Who takes the flag `joined`, and releases a stack or a block. -/
inductive Releaser
  | thread
  | client (c : Nat)
deriving DecidableEq

/-- The blocks and the parties. `sleepers` lists the clients that sleep on a
    thread's `finished`, `args` and `tempStack` tell whether a thread has its
    cleanup arguments allocated and its temporary stack mapped, and `ended`
    whether the process is over. The last five fields only record the run: who has
    taken a thread's flag `joined`, the releases of stacks and of blocks, the calls
    and what they returned. -/
structure State where
  block : Nat → Block
  startup : Nat → StartupPc
  client : Nat → ClientPc
  sleepers : Nat → List Nat
  args : Nat → Bool
  tempStack : Nat → Bool
  ended : Bool
  taken : Nat → Option Releaser
  unmapped : Nat → List Releaser
  freed : Nat → List Releaser
  calls : List (Nat × Call)
  returns : List Return

def start : State where
  block _ := ⟨0,false,false,false⟩
  startup _ := .running
  client _ := .idle
  sleepers _ := []
  args _ := false
  tempStack _ := false
  ended := false
  taken _ := none
  unmapped _ := []
  freed _ := []
  calls := []
  returns := []

/-- What the environment decides in a step: whether an allocation or a mapping
    succeeds, and which of the sleepers a wake reaches. -/
structure Env where
  succeeds : Bool
  pick : Nat
deriving DecidableEq

namespace State

def setBlock (σ : State) (t : Nat) (block : Block) : State := { σ with block := Function.update σ.block t block }

def startupAt (σ : State) (t : Nat) (pc : StartupPc) : State := { σ with startup := Function.update σ.startup t pc }
def clientAt (σ : State) (c : Nat) (pc : ClientPc) : State := { σ with client := Function.update σ.client c pc }

/-- The flag `joined` is set by the one who finds it not set. -/
def take (σ : State) (t : Nat) (releaser : Releaser) : State :=
  { σ.setBlock t { σ.block t with joined := true } with taken := Function.update σ.taken t (some releaser) }

def unmap (σ : State) (t : Nat) (releaser : Releaser) : State :=
  { σ with unmapped := Function.update σ.unmapped t (σ.unmapped t ++ [releaser]) }
def free (σ : State) (t : Nat) (releaser : Releaser) : State :=
  { σ with freed := Function.update σ.freed t (σ.freed t ++ [releaser]) }

/-- The client's call returns. -/
def leave (σ : State) (c : Nat) (call : Call) (result : Result) : State :=
  { σ.clientAt c .idle with returns := σ.returns ++ [⟨c,call,result⟩] }

/-- A sleeping joiner goes on with the test of its loop. -/
def wake (σ : State) (c : Nat) : State :=
  match σ.client c with
  | .join t wants .asleep =>
    { σ.clientAt c (.join t wants .loadFinished) with
      sleepers := Function.update σ.sleepers t ((σ.sleepers t).erase c) }
  | _ => σ

/-- `futex_wake(&t->finished, 1)`: one of the sleepers, if there are any. -/
def futexWake (σ : State) (t pick : Nat) : State :=
  match (σ.sleepers t)[pick % (σ.sleepers t).length]? with
  | none => σ
  | some c => σ.wake c

end State

/-- A step of `thread_startup` after the start routine. -/
def threadStartup (σ : State) (t : Nat) (env : Env) : Option State :=
  match σ.startup t with
  | .running => none
  | .storeRetval retval => some ((σ.setBlock t { σ.block t with retval }).startupAt t .storeFinished)
  | .storeFinished => some ((σ.setBlock t { σ.block t with finished := true }).startupAt t .futexWake)
  | .futexWake => some ((σ.futexWake t env.pick).startupAt t .compareExchange)
  | .compareExchange =>
    if (σ.block t).joined then some (σ.startupAt t .exit) else some ((σ.take t .thread).startupAt t .loadDetached)
  | .loadDetached => if (σ.block t).detached then some (σ.startupAt t .malloc) else some (σ.startupAt t .exit)
  | .exit => some (σ.startupAt t .exited)
  | .malloc =>
    if env.succeeds then some ({ σ with args := Function.update σ.args t true }.startupAt t .fillArgs)
    -- The next access goes through the null pointer.
    else some { σ with ended := true }
  | .fillArgs => some (σ.startupAt t .mmap)
  | .mmap =>
    if env.succeeds then some ({ σ with tempStack := Function.update σ.tempStack t true }.startupAt t .swapContext)
    -- `_exit(1)`
    else some { σ with ended := true }
  | .swapContext => some (σ.startupAt t .munmap)
  | .munmap => some ((σ.unmap t .thread).startupAt t .freeBlock)
  | .freeBlock => some ((σ.free t .thread).startupAt t .freeArgs)
  | .freeArgs => some ({ σ with args := Function.update σ.args t false }.startupAt t .trampolineExit)
  | .trampolineExit => some (σ.startupAt t .exited)
  | .exited => none

/-- A step of the client's call of `mythread_join`. -/
def mythreadJoin (σ : State) (c t : Nat) (wants : Bool) : JoinPc → State
  | .loadDetached =>
    if (σ.block t).detached then σ.leave c (.join t wants) .einval
    else σ.clientAt c (.join t wants .loadFinished)
  | .loadFinished =>
    if (σ.block t).finished then
      if wants then σ.clientAt c (.join t wants .loadRetval) else σ.clientAt c (.join t wants (.exchange none))
    else σ.clientAt c (.join t wants .futexWait)
  | .futexWait =>
    if (σ.block t).finished then σ.clientAt c (.join t wants .loadFinished)
    else
      { σ.clientAt c (.join t wants .asleep) with sleepers := Function.update σ.sleepers t (σ.sleepers t ++ [c]) }
  -- A sleeper may wake without a reason.
  | .asleep => σ.wake c
  | .loadRetval => σ.clientAt c (.join t wants (.exchange (some (σ.block t).retval)))
  | .exchange stored =>
    if (σ.block t).joined then σ.leave c (.join t wants) (.ok stored)
    else (σ.take t (.client c)).clientAt c (.join t wants (.destroyStack stored))
  | .destroyStack stored => (σ.unmap t (.client c)).clientAt c (.join t wants (.free stored))
  | .free stored => (σ.free t (.client c)).leave c (.join t wants) (.ok stored)

/-- A step of the client's call of `mythread_detach`. -/
def mythreadDetach (σ : State) (c t : Nat) : DetachPc → State
  | .storeDetached => (σ.setBlock t { σ.block t with detached := true }).clientAt c (.detach t .loadFinished)
  | .loadFinished =>
    if (σ.block t).finished then σ.clientAt c (.detach t .compareExchange) else σ.leave c (.detach t) (.ok none)
  | .compareExchange =>
    if (σ.block t).joined then σ.leave c (.detach t) (.ok none)
    else (σ.take t (.client c)).clientAt c (.detach t .destroyStack)
  | .destroyStack => (σ.unmap t (.client c)).clientAt c (.detach t .free)
  | .free => (σ.free t (.client c)).leave c (.detach t) (.ok none)

/-- What can happen while the process is running: a start routine returns, a
    thread goes on after it, a client outside of any call makes one, or a call goes
    on. -/
inductive Act
  | finish (t retval : Nat)
  | startup (t : Nat) (env : Env)
  | call (c : Nat) (call : Call)
  | client (c : Nat)

def step (σ : State) (a : Act) : Option State :=
  if σ.ended then none
  else
    match a with
    | .finish t retval => if σ.startup t = .running then some (σ.startupAt t (.storeRetval retval)) else none
    | .startup t env => threadStartup σ t env
    | .call c call =>
      if σ.client c = .idle then
        match call with
        | .join t wants => some { σ.clientAt c (.join t wants .loadDetached) with calls := σ.calls ++ [(c,call)] }
        | .detach t => some { σ.clientAt c (.detach t .storeDetached) with calls := σ.calls ++ [(c,call)] }
      else none
    | .client c =>
      match σ.client c with
      | .idle => none
      | .join t wants pc => some (mythreadJoin σ c t wants pc)
      | .detach t pc => some (mythreadDetach σ c t pc)

end Os5Sem.WoReaper

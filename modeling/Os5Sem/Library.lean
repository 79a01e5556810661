import Os5Sem.MyThread
import Os5Sem.StartReaper

/-!
The whole library with the reaper: calls of `mythread_create`, the threads and the
clients of `MyThread`, and the calls of `start_reaper` that these make on their way
to `reap_enqueue`. A thread runs from its `clone` on, clients know it when its
creation has returned, and the reaper runs when a call of `start_reaper` has created
it. The memory of a thread is its block and the bytes of its stack that are mapped.

The program has one reaper here: a run ends where a second one would be created, which
`ReaperCreation` tells about.
-/
namespace Os5Sem.Library
open Os5Sem.MyThread (Caller)

/-- `USABLE_STACK`. -/
def usableStack : Nat := 256*1024

/-- `errno` of a call of `mythread_create` that returns -1: `EINVAL`, `ENOMEM`, or what
    `clone` has left. -/
inductive Errno
  | einval
  | enomem
  | clone (errno : Nat)
deriving DecidableEq

/-- The next step of `mythread_create`; `thread` and `start_routine` tell whether the
    arguments are not the null pointer. At the end it has returned 0 or -1. -/
inductive CreatePc
  | outside
  | checkArguments (thread start_routine : Bool)
  | calloc
  -- inside `create_stack`
  | sysconf
  | mmap (total page_sz : Nat)
  | mprotect (total page_sz : Nat)
  | munmap (total : Nat)
  | storeFields (total : Nat)
  | clone
  | storeThread
  | returned
  -- the error paths
  | destroyStack (saved_errno : Nat)
  | free (errno : Errno)
  | failed (errno : Errno)
deriving DecidableEq

/-- The threads, the calls of `start_reaper`, and the calls of `mythread_create`. A call
    has the number of the block that it allocates, if it does. `block` tells whether the
    block is allocated, `stack` how many bytes of the stack are mapped and `guard` how
    many of them nobody may access, `stackSize` is the field `stack_size`, and `created`
    lists the threads stored through `thread`. -/
structure State where
  lib : MyThread.State
  starter : StartReaper.State Caller
  create : Nat → CreatePc
  block : Nat → Bool
  stack : Nat → Nat
  guard : Nat → Nat
  stackSize : Nat → Nat
  created : List Nat

def start : State where
  lib := MyThread.start
  starter := StartReaper.start Caller
  create _ := .outside
  block _ := false
  stack _ := 0
  guard _ := 0
  stackSize _ := 0
  created := []

/-- What the environment decides in a step of `mythread_create`: the page size that
    `sysconf` tells, and the `errno` of an allocation or a system call that fails. -/
structure Env where
  page : Int
  failure : Option Nat
deriving DecidableEq

namespace State

def createAt (σ : State) (t : Nat) (pc : CreatePc) : State := { σ with create := Function.update σ.create t pc }

def setBlock (σ : State) (t : Nat) (allocated : Bool) : State :=
  { σ with block := Function.update σ.block t allocated }
def setStack (σ : State) (t mapped : Nat) : State := { σ with stack := Function.update σ.stack t mapped }
def setGuard (σ : State) (t bytes : Nat) : State := { σ with guard := Function.update σ.guard t bytes }
def setStackSize (σ : State) (t size : Nat) : State := { σ with stackSize := Function.update σ.stackSize t size }

/-- The fields of the block, as they are before the thread runs. -/
def clear (σ : State) (t : Nat) : State := { σ with lib := σ.lib.setBlock t (MyThread.start.block t) }

/-- `destroy_stack`; the stack of a thread is not the null pointer. -/
def destroyStack (σ : State) (t size : Nat) : State :=
  if size = 0 then σ else (σ.setStack t (σ.stack t - size)).setGuard t 0

end State

/-- A step of the call of `mythread_create` that has the block `t`. -/
def mythreadCreate (σ : State) (t : Nat) (env : Env) : Option State :=
  match σ.create t with
  | .outside => none
  | .checkArguments thread start_routine =>
    if !thread || !start_routine then some (σ.createAt t (.failed .einval)) else some (σ.createAt t .calloc)
  | .calloc =>
    match env.failure with
    | some _ => some (σ.createAt t (.failed .enomem))
    | none => some ((((σ.setBlock t true).setStackSize t 0).clear t).createAt t .sysconf)
  | .sysconf =>
    let page := if env.page ≤ 0 then 4096 else env.page.toNat
    some (σ.createAt t (.mmap (usableStack+page) page))
  | .mmap total page_sz =>
    match env.failure with
    | some _ => some (σ.createAt t (.free .enomem))
    | none => some ((σ.setStack t total).createAt t (.mprotect total page_sz))
  | .mprotect total page_sz =>
    match env.failure with
    | some _ => some (σ.createAt t (.munmap total))
    | none => some ((σ.setGuard t page_sz).createAt t (.storeFields total))
  | .munmap total => some ((σ.setStack t (σ.stack t - total)).createAt t (.free .enomem))
  | .storeFields total => some (((σ.clear t).setStackSize t total).createAt t .clone)
  | .clone =>
    match env.failure with
    | some errno => some (σ.createAt t (.destroyStack errno))
    | none => some (σ.createAt t .storeThread)
  | .storeThread => some ({ σ with created := σ.created ++ [t] }.createAt t .returned)
  | .destroyStack saved_errno => some ((σ.destroyStack t (σ.stackSize t)).createAt t (.free (.clone saved_errno)))
  | .free errno => some ((σ.setBlock t false).createAt t (.failed errno))
  | .returned => none
  | .failed _ => none

/-- `clone` has started the thread. -/
def cloned : CreatePc → Bool
  | .storeThread | .returned => true
  | _ => false

/-- A step of a thread, of a client or of the reaper, and what it releases. -/
def releasing (σ : State) (lib : MyThread.State) : State :=
  { σ with
    lib
    stack t := if lib.unmapped t = σ.lib.unmapped t then σ.stack t else σ.stack t - σ.stackSize t
    guard t := if lib.unmapped t = σ.lib.unmapped t then σ.guard t else 0
    block t := if lib.freed t = σ.lib.freed t then σ.block t else false }

/-- The party is about to call `start_reaper`, or inside of the call. -/
def callsReaper (lib : MyThread.State) : Caller → Bool
  | .thread t => lib.startup t = .startReaper
  | .client c =>
    match lib.client c with
    | .detach _ .startReaper => true
    | _ => false

/-- The step of the party behind `start_reaper`. -/
def behind : Caller → MyThread.Act
  | .thread t => .startup t ⟨⟨none,false⟩,0⟩
  | .client c => .client c ⟨none,false⟩

/-- A step of the party's call of `start_reaper`; whatever it returns, the party goes
    on. -/
def startReaper (σ : State) (p : Caller) (env : StartReaper.Env) : Option State :=
  if σ.starter.caller p = .idle then (StartReaper.step σ.starter (.call p)).map fun starter => { σ with starter }
  else
    (StartReaper.step σ.starter (.go p env)).bind fun starter =>
      if 1 < starter.reapers.length then none
      else if starter.caller p = .idle then
        (MyThread.step σ.lib (behind p)).map fun lib => { releasing σ lib with starter }
      else some { σ with starter }

/-- A thread runs when it has been started, a call on it is made when it is known, and
    the reaper runs when there is one. -/
def Enabled (σ : State) : MyThread.Act → Prop
  | .finish t _ => cloned (σ.create t) = true
  | .startup t _ => cloned (σ.create t) = true ∧ callsReaper σ.lib (.thread t) = false
  | .call _ call => call.thread ∈ σ.created
  | .client c _ => callsReaper σ.lib (.client c) = false
  | .reaper _ => σ.starter.reapers ≠ []

instance (σ : State) : DecidablePred (Enabled σ)
  | .finish t _ => inferInstanceAs (Decidable (cloned (σ.create t) = true))
  | .startup t _ => inferInstanceAs (Decidable (cloned (σ.create t) = true ∧ callsReaper σ.lib (.thread t) = false))
  | .call _ call => inferInstanceAs (Decidable (call.thread ∈ σ.created))
  | .client c _ => inferInstanceAs (Decidable (callsReaper σ.lib (.client c) = false))
  | .reaper _ => inferInstanceAs (Decidable (σ.starter.reapers ≠ []))

/-- What can happen: a call of `mythread_create` is made, or goes on, a call of
    `start_reaper` does, or something else happens in the library. -/
inductive Act
  | create (t : Nat) (thread start_routine : Bool)
  | creator (t : Nat) (env : Env)
  | starter (p : Caller) (env : StartReaper.Env)
  | library (a : MyThread.Act)

def step (σ : State) : Act → Option State
  | .create t thread start_routine =>
    if σ.create t = .outside then some (σ.createAt t (.checkArguments thread start_routine)) else none
  | .creator t env => mythreadCreate σ t env
  | .starter p env => if callsReaper σ.lib p then startReaper σ p env else none
  | .library a => if Enabled σ a then (MyThread.step σ.lib a).map (releasing σ) else none

end Os5Sem.Library

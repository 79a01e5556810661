import Os5Sem.Transition
import Os5Sem.Chains

/-!
The queue of `queue.h` between the threads that hand over a finished thread
(`reap_enqueue`) and the reaper (`reaper_main`, which takes whole batches with
`reap_dequeue`). Every atomic operation, every access to a node, every
allocation and every futex call is a step. What the reaper does with a thread it
has taken from the queue is one step here (`visit`).

The counter is an integer without bounds: a node stands for a thread whose stack
is still mapped, so that their number never comes near the bounds of an `int`.
-/
namespace Os5Sem.ReapQueue

/-- `reap_node_t`. -/
structure ReapNode where
  thread : Nat
  next : Option Nat

/-- The next step of `reap_enqueue`, with its local variables. -/
inductive EnqueuePc
  | idle
  | malloc (t : Nat)
  | fill (t node : Nat)
  | spinLock (node : Nat)
  | loadTail (node : Nat)
  -- the branch for an empty queue
  | storeHead (node : Nat)
  | storeFirstTail (node : Nat)
  | loadOldTail (node : Nat)
  | link (node oldTail : Nat)
  | storeTail (node : Nat)
  | spinUnlock
  | fetchAdd
  | futexWake
deriving DecidableEq

/-- The next step of `reaper_main`, with its local variables. From `spinLock` to
    `spinUnlock` it is inside `reap_dequeue`. -/
inductive ReaperPc
  | loadCount
  | futexWait
  | asleep
  | spinLock
  | loadHead
  | storeHead (head : Nat)
  | storeTail (head : Nat)
  | spinUnlock (list : Option Nat)
  | readNext (current processed : Nat)
  | readThread (current : Nat) (next : Option Nat) (processed : Nat)
  | visit (t current : Nat) (next : Option Nat) (processed : Nat)
  | freeNode (current : Nat) (next : Option Nat) (processed : Nat)
  | fetchSub (processed : Nat)
deriving DecidableEq

/-- The queue, the nodes in memory, the callers of `reap_enqueue` and the reaper.
    The last four fields only record the run: how often `reap_enqueue` was called
    for a thread, the threads in the order in which their enqueuers took the
    lock, those that the reaper has visited, and the error messages of the
    reaper. -/
structure State (Proc : Type) where
  head : Option Nat
  tail : Option Nat
  count : Int
  lock : Bool
  node : Nat → ReapNode
  live : Nat → Bool
  enqueuer : Proc → EnqueuePc
  reaper : ReaperPc
  entered : Nat → Nat
  order : List Nat
  visited : List Nat
  errors : Nat

/-- The queue before the first call. -/
def start (Proc : Type) : State Proc where
  head := none
  tail := none
  count := 0
  lock := false
  node _ := ⟨0,none⟩
  live _ := false
  enqueuer _ := .idle
  reaper := .loadCount
  entered _ := 0
  order := []
  visited := []
  errors := 0

/-- What the environment decides in a step: the address that `malloc` returns,
    and whether a weak compare-exchange fails without a reason. -/
structure Env where
  address : Option Nat
  spurious : Bool
deriving DecidableEq

variable {Proc : Type} [DecidableEq Proc]

namespace State

def next (σ : State Proc) (x : Nat) : Option Nat := (σ.node x).next

def setNode (σ : State Proc) (x : Nat) (node : ReapNode) : State Proc :=
  { σ with node := Function.update σ.node x node }

def setNext (σ : State Proc) (x : Nat) (p : Option Nat) : State Proc :=
  σ.setNode x { σ.node x with next := p }

def goto (σ : State Proc) (p : Proc) (pc : EnqueuePc) : State Proc :=
  { σ with enqueuer := Function.update σ.enqueuer p pc }

def reaperAt (σ : State Proc) (pc : ReaperPc) : State Proc := { σ with reaper := pc }

/-- A process calls `reap_enqueue(t)`. -/
def enter (σ : State Proc) (p : Proc) (t : Nat) : State Proc :=
  { σ.goto p (.malloc t) with entered := Function.update σ.entered t (σ.entered t + 1) }

/-- `futex_wake(&reap_queue.count, 1)`: the reaper is the only thread that waits
    there. -/
def futexWake (σ : State Proc) : State Proc := if σ.reaper = .asleep then σ.reaperAt .loadCount else σ

end State

/-- A step of the process's call of `reap_enqueue`. -/
def reapEnqueue (σ : State Proc) (p : Proc) (env : Env) : Option (State Proc) :=
  match σ.enqueuer p with
  | .idle => none
  | .malloc t =>
    match env.address with
    | none => some (σ.goto p .idle)
    | some x => if σ.live x then none else some ({ σ with live := Function.update σ.live x true }.goto p (.fill t x))
  | .fill t x => some ((σ.setNode x ⟨t,none⟩).goto p (.spinLock x))
  | .spinLock x =>
    if σ.lock ∨ env.spurious then some σ
    else some ({ σ with lock := true, order := σ.order ++ [(σ.node x).thread] }.goto p (.loadTail x))
  | .loadTail x =>
    match σ.tail with
    | none => some (σ.goto p (.storeHead x))
    | some _ => some (σ.goto p (.loadOldTail x))
  | .storeHead x => some ({ σ with head := some x }.goto p (.storeFirstTail x))
  | .storeFirstTail x => some ({ σ with tail := some x }.goto p .spinUnlock)
  | .loadOldTail x =>
    match σ.tail with
    -- The null pointer would be dereferenced by the next step.
    | none => none
    | some oldTail => some (σ.goto p (.link x oldTail))
  | .link x oldTail => some ((σ.setNext oldTail (some x)).goto p (.storeTail x))
  | .storeTail x => some ({ σ with tail := some x }.goto p .spinUnlock)
  | .spinUnlock => some ({ σ with lock := false }.goto p .fetchAdd)
  | .fetchAdd =>
    if σ.count = 0 then some ({ σ with count := σ.count+1 }.goto p .futexWake)
    else some ({ σ with count := σ.count+1 }.goto p .idle)
  | .futexWake => some (σ.futexWake.goto p .idle)

/-- A step of `reaper_main`. -/
def reaperMain (σ : State Proc) (env : Env) : Option (State Proc) :=
  match σ.reaper with
  | .loadCount => if σ.count = 0 then some (σ.reaperAt .futexWait) else some (σ.reaperAt .spinLock)
  | .futexWait => if σ.count = 0 then some (σ.reaperAt .asleep) else some (σ.reaperAt .loadCount)
  -- A sleeper may wake without a reason.
  | .asleep => some (σ.reaperAt .loadCount)
  | .spinLock => if σ.lock ∨ env.spurious then some σ else some ({ σ with lock := true }.reaperAt .loadHead)
  | .loadHead =>
    match σ.head with
    | none => some (σ.reaperAt (.spinUnlock none))
    | some x => some (σ.reaperAt (.storeHead x))
  | .storeHead x => some ({ σ with head := none }.reaperAt (.storeTail x))
  | .storeTail x => some ({ σ with tail := none }.reaperAt (.spinUnlock (some x)))
  | .spinUnlock none => some ({ σ with lock := false }.reaperAt .loadCount)
  | .spinUnlock (some x) => some ({ σ with lock := false }.reaperAt (.readNext x 0))
  | .readNext current processed => some (σ.reaperAt (.readThread current (σ.next current) processed))
  | .readThread current next processed =>
    some (σ.reaperAt (.visit (σ.node current).thread current next processed))
  | .visit t current next processed =>
    some ({ σ with visited := σ.visited ++ [t] }.reaperAt (.freeNode current next processed))
  | .freeNode current next processed =>
    let σ := { σ with live := Function.update σ.live current false }
    match next with
    | none => some (σ.reaperAt (.fetchSub (processed+1)))
    | some x => some (σ.reaperAt (.readNext x (processed+1)))
  | .fetchSub processed =>
    -- Whether anything remains or not, the next step is the top of the loop.
    let σ := if σ.count < processed then { σ with errors := σ.errors+1 } else σ
    some ({ σ with count := σ.count - processed }.reaperAt .loadCount)

/-- What can happen: a process outside `reap_enqueue` calls it, a call takes its
    next step, or the reaper does. -/
inductive Act (Proc : Type)
  | enter (p : Proc) (t : Nat)
  | enqueue (p : Proc) (env : Env)
  | reap (env : Env)

def step (σ : State Proc) : Act Proc → Option (State Proc)
  | .enter p t => if σ.enqueuer p = .idle then some (σ.enter p t) else none
  | .enqueue p env => reapEnqueue σ p env
  | .reap env => reaperMain σ env

end Os5Sem.ReapQueue

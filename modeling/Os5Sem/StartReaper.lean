import Os5Sem.Transition
import Mathlib.Algebra.Ring.Nat
import Mathlib.Logic.Function.Basic

/-!
`start_reaper` of `queue.h` with any number of concurrent calls, which take turns
by the flag `reaper_started`. Every operation on the flag, every system call and
every store to a static variable is a step. Whether a system call succeeds, and
with which `errno` it fails, is decided by the environment.
-/
namespace Os5Sem.StartReaper

/-- `PAGE_SIZE`, for a system that does not tell. -/
def pageSize : Nat := 4096

/-- `REAPER_STACK_SIZE`. -/
def reaperStackSize : Nat := 2^20

/-- The two places that call `__reaper_cleanup_on_error`. -/
inductive Site
  | mprotect
  | clone
deriving DecidableEq

/-- The next step of `start_reaper`, with its local variables; `saved` is the
    `errno` of the call that has failed. -/
inductive Pc
  | idle
  | compareExchange
  | sysconf
  | mmap (total : Nat)
  | mmapFailed (saved : Nat)
  | mprotect (map total : Nat)
  | clone (map total : Nat)
  | cloneFailed (map total saved : Nat)
  -- inside `__reaper_cleanup_on_error`
  | munmap (site : Site) (map total saved : Nat)
  | storeStarted (site : Site) (saved : Nat)
  -- the reaper has been created
  | storeStack (map total pid : Nat)
  | storeStackSize (total pid : Nat)
  | storeTid (pid : Nat)
deriving DecidableEq

/-- What a call returns: 0, or -1 with `errno` set. -/
inductive Result
  | ok
  | failed (errno : Nat)
deriving DecidableEq

/-- The static variables of `queue.h` and the calls. The last three fields only
    record the run: the reapers that have been created, the stacks that have been
    unmapped, and what the calls returned. -/
structure State (Proc : Type) where
  started : Bool
  stack : Nat
  stackSize : Nat
  tid : Int
  caller : Proc → Pc
  reapers : List Nat
  unmapped : List (Nat × Nat)
  returns : List (Proc × Result)

/-- Before the first call. -/
def start (Proc : Type) : State Proc where
  started := false
  stack := 0
  stackSize := 0
  tid := -1
  caller _ := .idle
  reapers := []
  unmapped := []
  returns := []

/-- What the environment decides in a step: the page size that `sysconf` tells, and
    what a system call returns, or with which `errno` it fails. -/
structure Env where
  page : Int
  outcome : Except Nat Nat

variable {Proc : Type} [DecidableEq Proc]

namespace State

def goto (σ : State Proc) (p : Proc) (pc : Pc) : State Proc := { σ with caller := Function.update σ.caller p pc }

/-- The call returns. -/
def leave (σ : State Proc) (p : Proc) (result : Result) : State Proc :=
  { σ.goto p .idle with returns := σ.returns ++ [(p,result)] }

variable {σ : State Proc} {p q : Proc} {pc : Pc} {result : Result}

@[simp] theorem goto_self : (σ.goto p pc).caller p = pc := by simp [goto]

theorem goto_other (other : q ≠ p) : (σ.goto p pc).caller q = σ.caller q := by simp [goto,other]

@[simp] theorem leave_self : (σ.leave p result).caller p = .idle := by simp [leave]

end State

/-- A step of the process's call of `start_reaper`. -/
def startReaper (σ : State Proc) (p : Proc) (env : Env) : Option (State Proc) :=
  match σ.caller p with
  | .idle => none
  | .compareExchange =>
    if σ.started then some (σ.leave p .ok) else some ({ σ with started := true }.goto p .sysconf)
  | .sysconf =>
    let page := if 0 < env.page then env.page.toNat else pageSize
    some (σ.goto p (.mmap (reaperStackSize+page)))
  | .mmap total =>
    match env.outcome with
    | .error errno => some (σ.goto p (.mmapFailed errno))
    | .ok map => some (σ.goto p (.mprotect map total))
  | .mmapFailed saved => some ({ σ with started := false }.leave p (.failed saved))
  | .mprotect map total =>
    match env.outcome with
    | .error errno => some (σ.goto p (.munmap .mprotect map total errno))
    | .ok _ => some (σ.goto p (.clone map total))
  | .clone map total =>
    match env.outcome with
    | .error errno => some (σ.goto p (.cloneFailed map total errno))
    | .ok pid => some ({ σ with reapers := σ.reapers ++ [pid] }.goto p (.storeStack map total pid))
  | .cloneFailed map total saved => some ({ σ with started := false }.goto p (.munmap .clone map total saved))
  | .munmap site map total saved =>
    if map ≠ 0 ∧ total ≠ 0 then
      some ({ σ with unmapped := σ.unmapped ++ [(map,total)] }.goto p (.storeStarted site saved))
    else some (σ.goto p (.storeStarted site saved))
  | .storeStarted _ saved => some ({ σ with started := false }.leave p (.failed saved))
  | .storeStack map total pid => some ({ σ with stack := map }.goto p (.storeStackSize total pid))
  | .storeStackSize total pid => some ({ σ with stackSize := total }.goto p (.storeTid pid))
  | .storeTid pid => some ({ σ with tid := pid }.leave p .ok)

/-- What can happen: a process outside of any call makes one, or a call takes its
    next step. -/
inductive Act (Proc : Type)
  | call (p : Proc)
  | go (p : Proc) (env : Env)

def step (σ : State Proc) : Act Proc → Option (State Proc)
  | .call p => if σ.caller p = .idle then some (σ.goto p .compareExchange) else none
  | .go p env => startReaper σ p env

end Os5Sem.StartReaper

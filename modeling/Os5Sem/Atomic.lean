import Mathlib.Logic.Function.Basic
import Os5Sem.Transition

/-!
Atomic objects. A thread calls an operation, the operation takes effect at one
point between its call and its return, and the thread is given its outcome. A
history of calls and returns is linearizable when points can be put between them
such that an atomic object goes through it. A machine that an atomic object
simulates has such histories only (`linearizes_until`, `linearizes_of_simulation`).
-/
namespace Os5Sem.Atomic
open Os5Sem.Transition
universe u v w x y

variable {Thread : Type u} {S : Type v} {Op : Type w} {Out : Type x}

/-- What can be seen of an object. -/
inductive Event (Thread : Type u) (Op : Type w) (Out : Type x)
  | call (t : Thread) (op : Op)
  | ret (t : Thread) (out : Out)
deriving DecidableEq

/-- An event, or the point at which a thread's operation takes effect. -/
inductive Mark (Thread : Type u) (Op : Type w) (Out : Type x)
  | call (t : Thread) (op : Op)
  | point (t : Thread)
  | ret (t : Thread) (out : Out)

def Mark.event : Mark Thread Op Out → Option (Event Thread Op Out)
  | .call t op => some (.call t op)
  | .point _ => none
  | .ret t out => some (.ret t out)

/-- A thread outside of an operation, before its point or after it. -/
inductive Status (Op : Type w) (Out : Type x)
  | top
  | called (op : Op)
  | decided (out : Out)

structure Object (Thread : Type u) (S : Type v) (Op : Type w) (Out : Type x) where
  value : S
  status : Thread → Status Op Out

/-- An object that no thread uses. -/
def fresh (value : S) : Object Thread S Op Out := ⟨value,fun _ => .top⟩

variable [DecidableEq Thread] [DecidableEq Out]

def Object.set (o : Object Thread S Op Out) (t : Thread) (status : Status Op Out) : Object Thread S Op Out :=
  { o with status := Function.update o.status t status }

def step (apply : Op → S → S × Out) (o : Object Thread S Op Out) :
    Mark Thread Op Out → Option (Object Thread S Op Out)
  | .call t op =>
    match o.status t with
    | .top => some (o.set t (.called op))
    | _ => none
  | .point t =>
    match o.status t with
    | .called op => some { o.set t (.decided (apply op o.value).2) with value := (apply op o.value).1 }
    | _ => none
  | .ret t out =>
    match o.status t with
    | .decided result => if result = out then some (o.set t .top) else none
    | _ => none

/-- An atomic object with the given value at first goes through the history, and is
    `o` after it. -/
def Linearizes (apply : Op → S → S × Out) (value : S) (history : List (Event Thread Op Out))
    (o : Object Thread S Op Out) : Prop :=
  ∃ marks, run (step apply) (fresh value) marks = some o ∧ marks.filterMap Mark.event = history

variable {apply : Op → S → S × Out} {o : Object Thread S Op Out}

theorem run_call {t : Thread} {op : Op} (top : o.status t = .top) :
    run (step apply) o [.call t op] = some (o.set t (.called op)) := by simp [run,step,top]

theorem run_point {t : Thread} {op : Op} (called : o.status t = .called op) :
    run (step apply) o [.point t] =
      some { o.set t (.decided (apply op o.value).2) with value := (apply op o.value).1 } := by
  simp [run,step,called]

theorem run_ret {t : Thread} {out : Out} (decided : o.status t = .decided out) :
    run (step apply) o [.ret t out] = some (o.set t .top) := by simp [run,step,decided]

variable {State : Type y} {Act : Type y}

/-- The events of a run. -/
def history (machine : State → Act → Option State) (events : State → Act → State → List (Event Thread Op Out)) :
    State → List Act → List (Event Thread Op Out)
  | _,[] => []
  | s,a :: rest =>
    match machine s a with
    | some next => events s a next ++ history machine events next rest
    | none => []

/-- What an atomic object does for a step of the machine: it goes through the events
    of the step, with points between them. -/
def Follows (apply : Op → S → S × Out) (R : State → Object Thread S Op Out → Prop)
    (events : List (Event Thread Op Out)) (o : Object Thread S Op Out) (s' : State) : Prop :=
  ∃ marks o', run (step apply) o marks = some o' ∧ marks.filterMap Mark.event = events ∧ R s' o'

/-- An invariant `I`, and what holds up to the end of the run, `Q`, help to find the
    points. -/
theorem linearizes_until {machine : State → Act → Option State}
    {events : State → Act → State → List (Event Thread Op Out)} {R : State → Object Thread S Op Out → Prop}
    {I Q : State → Prop} (keeps : ∀ s a s', I s → machine s a = some s' → I s')
    (back : ∀ s a s', I s → machine s a = some s' → Q s' → Q s)
    (simulates : ∀ s o a s', I s → Q s → R s o → machine s a = some s' → Follows apply R (events s a s') o s')
    {s s' : State} {acts : List Act} (ran : run machine s acts = some s') {value : S} (related : R s (fresh value))
    (inv : I s) (untilEnd : Q s') : ∃ o, Linearizes apply value (history machine events s acts) o ∧ R s' o := by
  suffices follows : ∀ {s}, I s → run machine s acts = some s' →
      Q s ∧ ∀ o, R s o → Follows apply R (history machine events s acts) o s' by
    obtain ⟨marks,o,goes,seen,related⟩ := (follows inv ran).2 _ related
    exact ⟨o,⟨marks,goes,seen⟩,related⟩
  clear ran related inv
  intro s inv ran
  induction acts generalizing s with
  | nil => cases ran; exact ⟨untilEnd,fun o related => ⟨[],o,rfl,rfl,related⟩⟩
  | cons a rest ih =>
    obtain ⟨next,taken,ran⟩ := run_cons.mp ran
    obtain ⟨later,follows⟩ := ih (keeps s a next inv taken) ran
    have now := back s a next inv taken later
    refine ⟨now,fun o related => ?_⟩
    obtain ⟨marks,mid,goes,seen,related⟩ := simulates s o a next inv now related taken
    obtain ⟨more,o',goes',seen',related'⟩ := follows mid related
    refine ⟨marks ++ more,o',run_append goes goes',?_,related'⟩
    simp only [history,taken,List.filterMap_append,seen,seen']

theorem linearizes_of_simulation {machine : State → Act → Option State}
    {events : State → Act → State → List (Event Thread Op Out)} {R : State → Object Thread S Op Out → Prop}
    (simulates : ∀ s o a s', R s o → machine s a = some s' → Follows apply R (events s a s') o s')
    {s s' : State} {acts : List Act} (ran : run machine s acts = some s') {value : S} (related : R s (fresh value)) :
    ∃ o, Linearizes apply value (history machine events s acts) o ∧ R s' o :=
  linearizes_until (I := fun _ => True) (Q := fun _ => True) (fun _ _ _ _ _ => trivial) (fun _ _ _ _ _ _ => trivial)
    (fun s o a s' _ _ => simulates s o a s') ran related trivial trivial

end Os5Sem.Atomic

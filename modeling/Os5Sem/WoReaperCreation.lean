import Os5Sem.WoReaperLifetime

/-!
`mythread_create` of the library without a reaper, and the threads that it makes:
calls of `mythread_create` take turns with the threads and the clients of
`WoReaper`. A thread runs from the `clone` of its creation on, and clients know it
when its creation has returned. Until then nobody else touches its block, so that
every run with creations is a run of the library (`library_run`).
-/
namespace Os5Sem.WoReaperCreation
open Os5Sem.WoReaperOwnership Os5Sem.WoReaperLifetime
open Os5Sem.Transition (Along)

/-- `errno` of a call that returns -1: `EINVAL`, `ENOMEM`, or what `clone` has
    left. -/
inductive Errno
  | einval
  | enomem
  | clone (errno : Nat)
deriving DecidableEq

/-- The next step of `mythread_create`; `thread` and `start_routine` tell whether
    the arguments are not the null pointer. At the end it has returned 0 or -1. -/
inductive CreatePc
  | outside
  | checkArguments (thread start_routine : Bool)
  | calloc
  | createStack
  | storeFields
  | clone
  | storeThread
  | returned
  -- the error paths
  | destroyStack (saved_errno : Nat)
  | free (errno : Errno)
  | failed (errno : Errno)
deriving DecidableEq

/-- The library and the calls of `mythread_create`. A call has the number of the
    block that it allocates, if it does. `block` and `stack` tell what the calls
    have allocated and not released themselves, and `created` lists the threads
    stored through `thread`. -/
structure State where
  lib : WoReaper.State
  create : Nat → CreatePc
  block : Nat → Bool
  stack : Nat → Bool
  created : List Nat

def start : State where
  lib := WoReaper.start
  create _ := .outside
  block _ := false
  stack _ := false
  created := []

namespace State

def createAt (σ : State) (t : Nat) (pc : CreatePc) : State := { σ with create := Function.update σ.create t pc }

/-- The fields of the block, as they are before the thread runs. -/
def clear (σ : State) (t : Nat) : State := { σ with lib := σ.lib.setBlock t ⟨0,false,false,false⟩ }

def setBlock (σ : State) (t : Nat) (allocated : Bool) : State :=
  { σ with block := Function.update σ.block t allocated }
def setStack (σ : State) (t : Nat) (mapped : Bool) : State := { σ with stack := Function.update σ.stack t mapped }

end State

/-- A step of the call of `mythread_create` that has the block `t`; `failure` is
    the `errno` of a system call or an allocation that fails. -/
def mythreadCreate (σ : State) (t : Nat) (failure : Option Nat) : Option State :=
  match σ.create t with
  | .outside => none
  | .checkArguments thread start_routine =>
    if !thread || !start_routine then some (σ.createAt t (.failed .einval)) else some (σ.createAt t .calloc)
  | .calloc =>
    match failure with
    | some _ => some (σ.createAt t (.failed .enomem))
    | none => some (((σ.setBlock t true).clear t).createAt t .createStack)
  | .createStack =>
    match failure with
    | some _ => some (σ.createAt t (.free .enomem))
    | none => some ((σ.setStack t true).createAt t .storeFields)
  | .storeFields => some ((σ.clear t).createAt t .clone)
  | .clone =>
    match failure with
    | some errno => some (σ.createAt t (.destroyStack errno))
    | none => some (σ.createAt t .storeThread)
  | .storeThread => some ({ σ with created := σ.created ++ [t] }.createAt t .returned)
  | .destroyStack saved_errno => some ((σ.setStack t false).createAt t (.free (.clone saved_errno)))
  | .free errno => some ((σ.setBlock t false).createAt t (.failed errno))
  | .returned => none
  | .failed _ => none

/-- `clone` has started the thread. -/
def cloned : CreatePc → Bool
  | .storeThread | .returned => true
  | _ => false

/-- A thread runs when it has been started, and a call on it is made when it is
    known. -/
def Enabled (σ : State) : WoReaper.Act → Prop
  | .finish t _ => cloned (σ.create t) = true
  | .startup t _ => cloned (σ.create t) = true
  | .call _ call => call.thread ∈ σ.created
  | .client _ => True

instance (σ : State) : DecidablePred (Enabled σ)
  | .finish t _ => inferInstanceAs (Decidable (cloned (σ.create t) = true))
  | .startup t _ => inferInstanceAs (Decidable (cloned (σ.create t) = true))
  | .call _ call => inferInstanceAs (Decidable (call.thread ∈ σ.created))
  | .client _ => .isTrue trivial

/-- What can happen: a call of `mythread_create` is made, or goes on, or something
    happens in the library. -/
inductive Act
  | create (t : Nat) (thread start_routine : Bool)
  | creator (t : Nat) (failure : Option Nat)
  | library (a : WoReaper.Act)

def step (σ : State) (a : Act) : Option State :=
  if σ.lib.ended then none
  else
    match a with
    | .create t thread start_routine =>
      if σ.create t = .outside then some (σ.createAt t (.checkArguments thread start_routine)) else none
    | .creator t failure => mythreadCreate σ t failure
    | .library a => if Enabled σ a then (WoReaper.step σ.lib a).map fun lib => { σ with lib } else none

variable {σ σ' : State} {t : Nat}

/-! ### What is known of a thread -/

/-- The block is allocated at these points of the call. -/
def allocated : CreatePc → Bool
  | .createStack | .storeFields | .clone | .storeThread | .destroyStack _ | .free _ | .returned => true
  | _ => false

/-- The stack is mapped at these points of the call. -/
def mapped : CreatePc → Bool
  | .storeFields | .clone | .storeThread | .destroyStack _ | .returned => true
  | _ => false

/-- A call of `mythread_create` and its thread: what is allocated, nobody touches
    the thread before `clone`, and no client knows it before the call returns. -/
structure Made (t : Nat) (σ : State) : Prop where
  block : σ.block t = allocated (σ.create t)
  stack : σ.stack t = mapped (σ.create t)
  untouched : cloned (σ.create t) = false → part σ.lib t = part WoReaper.start t ∧ σ.lib.startup t = .running
  known : ∀ c, Inside t (σ.lib.client c) → t ∈ σ.created
  created : t ∈ σ.created → σ.create t = .returned

theorem start_made (t : Nat) : Made t start := ⟨rfl,rfl,fun _ => ⟨rfl,rfl⟩,fun _ => False.elim,nofun⟩

/-- The stores to a block that nobody has touched change nothing. -/
theorem clear_untouched (same : part σ.lib t = part WoReaper.start t) : σ.clear t = σ := by
  have block : σ.lib.block t = ⟨0,false,false,false⟩ := congrArg Part.block same
  have lib : σ.lib.setBlock t ⟨0,false,false,false⟩ = σ.lib := by
    rw [WoReaper.State.setBlock,← block,Function.update_eq_self]
  rw [State.clear,lib]

@[simp] theorem createAt_self (pc : CreatePc) : (σ.createAt t pc).create t = pc := by simp [State.createAt]

/-- The call goes on, and has allocated and released what its next point tells. -/
theorem Made.goes (made : Made t σ) {pc : CreatePc} {τ : State} (lib : τ.lib = σ.lib) (created : τ.created = σ.created)
    (block : τ.block t = allocated pc) (stack : τ.stack t = mapped pc) (busy : σ.create t ≠ .returned)
    (early : cloned pc = false → cloned (σ.create t) = false) : Made t (τ.createAt t pc) := by
  have unlisted : t ∉ σ.created := fun member => busy (made.created member)
  have listed : (τ.createAt t pc).created = σ.created := created
  constructor
  case block => rw [createAt_self]; exact block
  case stack => rw [createAt_self]; exact stack
  case untouched =>
    rw [createAt_self]
    show _ → part τ.lib t = _ ∧ τ.lib.startup t = _
    rw [lib]
    intro unborn
    exact made.untouched (early unborn)
  case known =>
    show ∀ c, Inside t (τ.lib.client c) → _
    rw [lib,listed]
    exact made.known
  case created =>
    rw [listed]
    intro member
    exact absurd member unlisted

/-- A step of `mythread_create` leaves the library as it is. -/
theorem made_creator {failure : Option Nat} (made : Made t σ) (done : mythreadCreate σ t failure = some σ') :
    σ'.lib = σ.lib ∧ Made t σ' := by
  have block := made.block
  have stack := made.stack
  unfold mythreadCreate at done
  cases here : σ.create t with
  | outside => rw [here] at done; cases done
  | checkArguments thread start_routine =>
    rw [here] at done block stack
    simp only at done
    split at done <;> cases done <;>
      exact ⟨rfl,made.goes rfl rfl block stack (by simp [here]) (by simp [here,cloned])⟩
  | calloc =>
    rw [here] at done block stack
    cases failure with
    | some _ =>
      cases done
      exact ⟨rfl,made.goes rfl rfl block stack (by simp [here]) (by simp [here,cloned])⟩
    | none =>
      have untouched := (made.untouched (by rw [here]; rfl)).1
      rw [@clear_untouched (σ.setBlock t true) t untouched] at done
      cases done
      exact ⟨rfl,made.goes rfl rfl (Function.update_self ..) stack (by simp [here]) (by simp [here,cloned])⟩
  | createStack =>
    rw [here] at done block stack
    cases failure with
    | some _ =>
      cases done
      exact ⟨rfl,made.goes rfl rfl block stack (by simp [here]) (by simp [here,cloned])⟩
    | none =>
      cases done
      exact ⟨rfl,made.goes rfl rfl block (Function.update_self ..) (by simp [here]) (by simp [here,cloned])⟩
  | storeFields =>
    rw [here] at done block stack
    rw [clear_untouched (made.untouched (by rw [here]; rfl)).1] at done
    cases done
    exact ⟨rfl,made.goes rfl rfl block stack (by simp [here]) (by simp [here,cloned])⟩
  | clone =>
    rw [here] at done block stack
    cases failure with
    | some errno =>
      cases done
      exact ⟨rfl,made.goes rfl rfl block stack (by simp [here]) (by simp [here,cloned])⟩
    | none =>
      cases done
      exact ⟨rfl,made.goes rfl rfl block stack (by simp [here]) (by simp [here,cloned])⟩
  | storeThread =>
    rw [here] at done block stack
    cases done
    refine ⟨rfl,?_,?_,?_,?_,?_⟩
    case refine_1 => rw [createAt_self]; exact block
    case refine_2 => rw [createAt_self]; exact stack
    case refine_3 => rw [createAt_self]; nofun
    case refine_4 => exact fun c inside => List.mem_append_left _ (made.known c inside)
    case refine_5 => exact fun _ => createAt_self _
  | destroyStack saved_errno =>
    rw [here] at done block stack
    cases done
    exact ⟨rfl,made.goes rfl rfl block (Function.update_self ..) (by simp [here]) (by simp [here,cloned])⟩
  | free errno =>
    rw [here] at done block stack
    cases done
    exact ⟨rfl,made.goes rfl rfl (Function.update_self ..) stack (by simp [here]) (by simp [here,cloned])⟩
  | returned => rw [here] at done; cases done
  | failed errno => rw [here] at done; cases done

/-- The other calls stay where they are. -/
theorem mythreadCreate_others {failure : Option Nat} {u : Nat} (done : mythreadCreate σ t failure = some σ')
    (other : u ≠ t) :
    σ'.create u = σ.create u ∧ σ'.block u = σ.block u ∧ σ'.stack u = σ.stack u ∧ (u ∈ σ'.created ↔ u ∈ σ.created) := by
  have goes : ∀ (τ : State) pc, (τ.createAt t pc).create u = τ.create u := by
    intro τ pc
    simp [State.createAt,other]
  have blocks : ∀ allocated, (σ.setBlock t allocated).block u = σ.block u := by
    intro allocated
    simp [State.setBlock,other]
  have mappings : ∀ mapped, (σ.setStack t mapped).stack u = σ.stack u := by
    intro mapped
    simp [State.setStack,other]
  have listed : u ∈ σ.created ++ [t] ↔ u ∈ σ.created := by simp [other]
  unfold mythreadCreate at done
  split at done <;> try split at done
  all_goals cases done
  all_goals refine ⟨goes _ _,?_,?_,?_⟩
  all_goals first | exact blocks _ | exact mappings _ | exact listed | rfl

theorem Made.same (made : Made t σ) (lib : σ'.lib = σ.lib) (create : σ'.create t = σ.create t)
    (block : σ'.block t = σ.block t) (stack : σ'.stack t = σ.stack t) (listed : t ∈ σ'.created ↔ t ∈ σ.created) :
    Made t σ' := by
  constructor
  case block => rw [block,create]; exact made.block
  case stack => rw [stack,create]; exact made.stack
  case untouched => rw [lib,create]; exact made.untouched
  case known => rw [lib,listed]; exact made.known
  case created => rw [listed,create]; exact made.created

theorem made_library {b : WoReaper.Act} {lib : WoReaper.State} (made : Made t σ) (enabled : Enabled σ b)
    (done : WoReaper.step σ.lib b = some lib) : Made t { σ with lib } := by
  constructor
  case block => exact made.block
  case stack => exact made.stack
  case untouched =>
    intro unborn
    obtain ⟨same,running⟩ := made.untouched unborn
    have absent : ¬ cloned (σ.create t) = true := by rw [show cloned (σ.create t) = false from unborn]; nofun
    have stays : part lib t = part σ.lib t ∧ lib.startup t = σ.lib.startup t := by
      refine part_foreign done ?_ ?_ fun c _ inside => ?_
      · rintro retval rfl
        exact absent enabled
      · rintro env rfl
        exact absent enabled
      · exact absent (by rw [made.created (made.known c inside)]; rfl)
    exact ⟨stays.1.trans same,stays.2.trans running⟩
  case known =>
    intro c inside
    rcases inside_of_step done inside with before | ⟨call,rfl,rfl⟩
    · exact made.known c before
    · exact enabled
  case created => exact made.created

/-- A step of the whole is a step of the library, or leaves the library as it is. -/
theorem made_step {a : Act} (made : ∀ t, Made t σ) (done : step σ a = some σ') :
    (∀ t, Made t σ') ∧ ((∃ b, a = .library b ∧ WoReaper.step σ.lib b = some σ'.lib) ∨
      (∀ b, a ≠ .library b) ∧ σ'.lib = σ.lib) := by
  unfold step at done
  split at done
  · cases done
  cases a with
  | create t thread start_routine =>
    simp only at done
    split at done
    · rename_i outside
      cases done
      refine ⟨fun u => ?_,.inr ⟨nofun,rfl⟩⟩
      by_cases isT : u = t
      · subst isT
        have block := (made u).block
        have stack := (made u).stack
        rw [outside] at block stack
        exact (made u).goes rfl rfl block stack (by simp [outside]) (by simp [outside,cloned])
      · exact (made u).same rfl (by simp [State.createAt,isT]) rfl rfl .rfl
    · cases done
  | creator t failure =>
    obtain ⟨lib,self⟩ := made_creator (made t) done
    refine ⟨fun u => ?_,.inr ⟨nofun,lib⟩⟩
    by_cases isT : u = t
    · subst isT; exact self
    · obtain ⟨create,block,stack,listed⟩ := mythreadCreate_others done isT
      exact (made u).same lib create block stack listed
  | library b =>
    simp only at done
    split at done
    · rename_i enabled
      obtain ⟨lib,taken,rfl⟩ := Option.map_eq_some_iff.mp done
      exact ⟨fun t => made_library (made t) enabled taken,.inl ⟨b,rfl,taken⟩⟩
    · cases done

/-- What is asked of a step of the library, asked of the whole. -/
def OfLibrary (cond : WoReaper.State → WoReaper.Act → Prop) (σ : State) : Act → Prop
  | .library b => cond σ.lib b
  | _ => True

/-- Every run with creations is a run of the library, which meets what the run
    meets. -/
theorem library_run {cond : WoReaper.State → WoReaper.Act → Prop} {acts : List Act} (made : ∀ t, Made t σ)
    (ran : Transition.run step σ acts = some σ') (along : Along step (OfLibrary cond) σ acts) :
    (∀ t, Made t σ') ∧ ∃ acts', Transition.run WoReaper.step σ.lib acts' = some σ'.lib ∧
      Along WoReaper.step cond σ.lib acts' := by
  induction acts generalizing σ with
  | nil =>
    cases ran
    exact ⟨made,[],rfl,trivial⟩
  | cons a rest ih =>
    obtain ⟨next,taken,ran⟩ := Transition.run_cons.mp ran
    obtain ⟨meets,later⟩ := along
    obtain ⟨made',goes⟩ := made_step made taken
    obtain ⟨ends,acts',ran',along'⟩ := ih made' ran (later next taken)
    refine ⟨ends,?_⟩
    rcases goes with ⟨b,rfl,goes⟩ | ⟨_,same⟩
    · refine ⟨b :: acts',Transition.run_cons.mpr ⟨next.lib,goes,ran'⟩,?_⟩
      exact (Transition.along_cons goes).mpr ⟨meets,along'⟩
    · rw [same] at ran' along'
      exact ⟨acts',ran',along'⟩

end Os5Sem.WoReaperCreation

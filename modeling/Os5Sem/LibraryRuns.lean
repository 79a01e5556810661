import Os5Sem.Library
import Os5Sem.ThreadReclaim
import Os5Sem.ThreadLifetime

/-!
The runs of the whole library. Nobody touches a thread before its `clone`, and no client
knows it before its creation has returned, so that every run of the library is a run
of the threads and of the calls of `start_reaper` (`library_runs`). What is allocated
for a thread follows from how far its creation has got, and from what has been
released since (`Memory`).
-/
namespace Os5Sem.LibraryRuns
open Os5Sem.Library
open Os5Sem.MyThread (Caller)
open Os5Sem.ThreadOwnership (Owned)
open Os5Sem.ThreadCalls (Called)
open Os5Sem.ThreadReclaim (Known Untouched)

variable {σ σ' : State} {t : Nat}

/-! ### The memory of a thread -/

/-- What is allocated for a call at each point, and for its thread. -/
def Memory (σ : State) (t : Nat) : CreatePc → Prop
  | .outside | .checkArguments _ _ | .calloc | .failed _ => σ.block t = false ∧ σ.stack t = 0 ∧ σ.guard t = 0
  | .sysconf | .free _ => σ.block t = true ∧ σ.stack t = 0 ∧ σ.guard t = 0
  | .mmap total page_sz =>
    σ.block t = true ∧ σ.stack t = 0 ∧ σ.guard t = 0 ∧ total = usableStack+page_sz ∧ 0 < page_sz
  | .mprotect total page_sz =>
    σ.block t = true ∧ σ.stack t = total ∧ σ.guard t = 0 ∧ total = usableStack+page_sz ∧ 0 < page_sz
  | .munmap total => σ.block t = true ∧ σ.stack t = total ∧ σ.guard t = 0
  | .storeFields total =>
    σ.block t = true ∧ σ.stack t = total ∧ total = usableStack + σ.guard t ∧ 0 < σ.guard t
  | .clone | .destroyStack _ =>
    σ.block t = true ∧ σ.stack t = σ.stackSize t ∧ σ.stackSize t = usableStack + σ.guard t ∧ 0 < σ.guard t
  | .storeThread | .returned =>
    σ.block t = (σ.lib.freed t).isEmpty ∧
      (σ.lib.unmapped t = [] → σ.stack t = σ.stackSize t ∧ σ.stackSize t = usableStack + σ.guard t ∧ 0 < σ.guard t) ∧
      (σ.lib.unmapped t ≠ [] → σ.stack t = 0 ∧ σ.guard t = 0)

/-- A call of `mythread_create` and its thread: what is allocated, the thread does not
    run before `clone`, and no client knows it before the call returns. -/
structure Made (t : Nat) (σ : State) : Prop where
  memory : Memory σ t (σ.create t)
  unborn : cloned (σ.create t) = false → σ.lib.startup t = .running
  known : ∀ made ∈ σ.lib.calls, made.2.thread = t → t ∈ σ.created
  created : t ∈ σ.created → σ.create t = .returned

/-- What is known of a run of the library. -/
structure Sound (σ : State) : Prop where
  known : Known σ.lib
  called : Called σ.lib
  untouched : ∀ t, Untouched t σ.lib
  made : ∀ t, Made t σ

theorem start_made (t : Nat) : Made t start where
  memory := ⟨rfl,rfl,rfl⟩
  unborn _ := rfl
  known _ member := by cases member
  created member := by cases member

theorem start_sound : Sound start :=
  ⟨ThreadReclaim.start_known,ThreadCalls.start_called,fun _ _ _ => rfl,start_made⟩

/-- The block of a thread before its `clone`. -/
theorem Sound.unborn (sound : Sound σ) (unborn : cloned (σ.create t) = false) :
    σ.lib.block t = MyThread.start.block t ∧ σ.lib.unmapped t = [] ∧ σ.lib.freed t = [] := by
  have made := sound.made t
  have unknown : t ∉ σ.created := by
    intro member
    rw [made.created member] at unborn
    cases unborn
  have block := sound.untouched t (made.unborn unborn) fun call member on => unknown (made.known call member on)
  have unreaped : (σ.lib.flags t).reaped = false := by rw [MyThread.State.flags,block]; rfl
  exact ⟨block,sound.known.owned.released.unreaped t unreaped⟩

/-- The stores to a block that nobody has touched change nothing. -/
theorem clear_untouched (same : σ.lib.block t = MyThread.start.block t) : σ.clear t = σ := by
  have lib : σ.lib.setBlock t (MyThread.start.block t) = σ.lib := by
    rw [MyThread.State.setBlock,← same,Function.update_eq_self]
  rw [State.clear,lib]

/-! ### Steps of the threads -/

/-- A step releases a part of a thread for the first time, or not at all. -/
theorem releases_once {lib lib' : MyThread.State} {a : MyThread.Act} (owned : Owned lib) (owned' : Owned lib')
    (done : MyThread.step lib a = some lib') :
    (lib'.unmapped t = lib.unmapped t ∨ lib.unmapped t = [] ∧ lib'.unmapped t ≠ []) ∧
      (lib'.freed t = lib.freed t ∨ lib.freed t = [] ∧ lib'.freed t ≠ []) := by
  have grows : ∀ r, (r ∈ lib.unmapped t → r ∈ lib'.unmapped t) ∧ (r ∈ lib.freed t → r ∈ lib'.freed t) := by
    intro r
    obtain ⟨unmapped,freed⟩ := ThreadLifetime.step_releases (r := r) (t := t) done
    exact ⟨fun member => unmapped.mpr (.inl member),fun member => freed.mpr (.inl member)⟩
  have one : ∀ {before after : List MyThread.Releaser}, (before = [] ∨ ∃ r, before = [r]) →
      (after = [] ∨ ∃ r, after = [r]) → (∀ r, r ∈ before → r ∈ after) → after = before ∨ before = [] ∧ after ≠ [] := by
    rintro before after (rfl | ⟨r,rfl⟩) (rfl | ⟨q,rfl⟩) more
    · exact .inl rfl
    · exact .inr ⟨rfl,by simp⟩
    · exact absurd (more r (List.mem_singleton_self r)) (by simp)
    · have same := more r (List.mem_singleton_self r)
      rw [List.mem_singleton] at same
      exact .inl (by rw [same])
  have lists : ∀ {lib : MyThread.State}, Owned lib →
      (lib.unmapped t = [] ∨ ∃ r, lib.unmapped t = [r]) ∧ (lib.freed t = [] ∨ ∃ r, lib.freed t = [r]) := by
    intro lib owned
    rcases owned.released.settled t with ⟨unmapped,freed⟩ | ⟨r,_,unmapped,freed | freed⟩
    · exact ⟨.inl unmapped,.inl freed⟩
    · exact ⟨.inr ⟨r,unmapped⟩,.inl freed⟩
    · exact ⟨.inr ⟨r,unmapped⟩,.inr ⟨r,freed⟩⟩
  exact ⟨one (lists owned).1 (lists owned').1 fun r => (grows r).1,
    one (lists owned).2 (lists owned').2 fun r => (grows r).2⟩

/-- The memory of a thread after a step that releases nothing of it. -/
theorem Memory.same {pc : CreatePc} (memory : Memory σ t pc) (block : σ'.block t = σ.block t)
    (stack : σ'.stack t = σ.stack t) (guard : σ'.guard t = σ.guard t) (stackSize : σ'.stackSize t = σ.stackSize t)
    (unmapped : σ'.lib.unmapped t = σ.lib.unmapped t) (freed : σ'.lib.freed t = σ.lib.freed t) : Memory σ' t pc := by
  cases pc <;> simpa only [Memory,block,stack,guard,stackSize,unmapped,freed] using memory

@[simp] theorem releasing_create (lib : MyThread.State) : (releasing σ lib).create = σ.create := rfl
@[simp] theorem releasing_created (lib : MyThread.State) : (releasing σ lib).created = σ.created := rfl
@[simp] theorem releasing_lib (lib : MyThread.State) : (releasing σ lib).lib = lib := rfl
@[simp] theorem releasing_stackSize (lib : MyThread.State) : (releasing σ lib).stackSize = σ.stackSize := rfl
@[simp] theorem releasing_starter (lib : MyThread.State) : (releasing σ lib).starter = σ.starter := rfl

/-- What a step of the threads releases is no longer allocated. -/
theorem memory_releasing {lib : MyThread.State} {pc : CreatePc} (memory : Memory σ t pc)
    (nothing : cloned pc = false → lib.unmapped t = σ.lib.unmapped t ∧ lib.freed t = σ.lib.freed t)
    (unmapped : lib.unmapped t = σ.lib.unmapped t ∨ σ.lib.unmapped t = [] ∧ lib.unmapped t ≠ [])
    (freed : lib.freed t = σ.lib.freed t ∨ σ.lib.freed t = [] ∧ lib.freed t ≠ []) :
    Memory (releasing σ lib) t pc := by
  have same : lib.unmapped t = σ.lib.unmapped t → lib.freed t = σ.lib.freed t → Memory (releasing σ lib) t pc := by
    intro unmapped freed
    exact memory.same (if_pos freed) (if_pos unmapped) (if_pos unmapped) rfl unmapped freed
  have alive : cloned pc = true → Memory (releasing σ lib) t .returned := by
    intro born
    obtain ⟨block,whole,gone⟩ : Memory σ t .returned := by cases pc <;> first | exact memory | cases born
    refine ⟨?_,fun none => ?_,fun some => ?_⟩
    · rcases freed with same | ⟨before,after⟩
      · rw [releasing_lib,same]
        exact (if_pos same).trans block
      · rw [releasing_lib,List.isEmpty_eq_false_iff.mpr after]
        exact if_neg fun same => after (same.trans before)
    · have same : lib.unmapped t = σ.lib.unmapped t := unmapped.resolve_right fun change => change.2 none
      obtain ⟨stack,size,guard⟩ := whole (same ▸ none)
      have isGuard : (releasing σ lib).guard t = σ.guard t := if_pos same
      rw [isGuard]
      exact ⟨(if_pos same).trans stack,size,guard⟩
    · rcases unmapped with same | ⟨before,after⟩
      · obtain ⟨stack,guard⟩ := gone (same ▸ some)
        exact ⟨(if_pos same).trans stack,(if_pos same).trans guard⟩
      · have differs : lib.unmapped t ≠ σ.lib.unmapped t := fun same => after (same.trans before)
        refine ⟨(if_neg differs).trans ?_,if_neg differs⟩
        rw [(whole before).1,Nat.sub_self]
  cases born : cloned pc with
  | false => exact same (nothing born).1 (nothing born).2
  | true => cases pc <;> first | exact alive born | cases born

/-- A step of the threads: it is not the first one of a thread that does not run yet,
    and no call on an unknown thread. -/
theorem sound_releasing {a : MyThread.Act} {lib : MyThread.State} (sound : Sound σ)
    (done : MyThread.step σ.lib a = some lib)
    (runs : ∀ t, cloned (σ.create t) = false → lib.startup t = .running)
    (calls : ∀ made ∈ ThreadCalls.callMade a, made.2.thread ∈ σ.created) : Sound (releasing σ lib) := by
  have known := (ThreadReclaim.known_step sound.known done).1
  have called := ThreadCalls.called_step sound.called done
  have untouched : ∀ t, Untouched t lib := fun t =>
    ThreadReclaim.untouched_step (sound.untouched t) sound.known.owned sound.called done
  have listed : ∀ t, ∀ made ∈ lib.calls, made.2.thread = t → t ∈ σ.created := by
    intro t made member on
    rw [ThreadCalls.calls_step done,List.mem_append] at member
    rcases member with before | now
    · exact (sound.made t).known made before on
    · exact on ▸ calls made now
  refine ⟨known,called,untouched,fun t => ⟨?_,runs t,listed t,(sound.made t).created⟩⟩
  obtain ⟨unmapped,freed⟩ := releases_once (t := t) sound.known.owned known.owned done
  refine memory_releasing (sound.made t).memory (fun unborn => ?_) unmapped freed
  rw [releasing_create] at unborn
  obtain ⟨_,before⟩ := sound.unborn unborn
  -- The block is still untouched, so that nothing can have been released.
  have unknown : t ∉ σ.created := by
    intro member
    rw [(sound.made t).created member] at unborn
    cases unborn
  have block := untouched t (runs t unborn) fun made member on => unknown (listed t made member on)
  have unreaped : (lib.flags t).reaped = false := by rw [MyThread.State.flags,block]; rfl
  have after := known.owned.released.unreaped t unreaped
  exact ⟨after.1.trans before.1.symm,after.2.trans before.2.symm⟩

/-! ### Steps of `mythread_create` -/

@[simp] theorem createAt_self (pc : CreatePc) : (σ.createAt t pc).create t = pc := by simp [State.createAt]

/-- The call goes on: it has changed what is allocated for its own thread only. -/
theorem Sound.goes (sound : Sound σ) {pc : CreatePc} (lib : σ'.lib = σ.lib) (created : σ'.created = σ.created)
    (create : σ'.create = Function.update σ.create t pc) (memory : Memory σ' t pc)
    (others : ∀ u, u ≠ t → σ'.block u = σ.block u ∧ σ'.stack u = σ.stack u ∧ σ'.guard u = σ.guard u ∧
      σ'.stackSize u = σ.stackSize u)
    (busy : σ.create t ≠ .returned) (early : cloned pc = false → cloned (σ.create t) = false) : Sound σ' := by
  refine ⟨by rw [lib]; exact sound.known,by rw [lib]; exact sound.called,by rw [lib]; exact sound.untouched,fun u => ?_⟩
  have made := sound.made u
  refine ⟨?_,?_,?_,?_⟩
  · by_cases isT : u = t
    · rw [isT,create,Function.update_self]
      exact memory
    · obtain ⟨block,stack,guard,stackSize⟩ := others u isT
      rw [create,Function.update_of_ne isT]
      exact made.memory.same block stack guard stackSize (by rw [lib]) (by rw [lib])
  · rw [lib,create]
    by_cases isT : u = t
    · rw [isT,Function.update_self]
      exact fun unborn => (sound.made t).unborn (early unborn)
    · rw [Function.update_of_ne isT]
      exact made.unborn
  · rw [lib,created]
    exact made.known
  · rw [created,create]
    intro member
    have returned := made.created member
    by_cases isT : u = t
    · exact absurd (isT ▸ returned) busy
    · rw [Function.update_of_ne isT]
      exact returned

theorem sound_creator {env : Env} (sound : Sound σ) (done : mythreadCreate σ t env = some σ') :
    Sound σ' ∧ σ'.lib = σ.lib ∧ σ'.starter = σ.starter := by
  have memory := (sound.made t).memory
  have clear : cloned (σ.create t) = false → σ.lib.block t = MyThread.start.block t := fun unborn =>
    (sound.unborn unborn).1
  unfold mythreadCreate at done
  cases here : σ.create t with
  | outside => rw [here] at done; cases done
  | returned => rw [here] at done; cases done
  | failed errno => rw [here] at done; cases done
  | checkArguments thread start_routine =>
    rw [here] at done memory
    simp only at done
    split at done <;> cases done
    all_goals
      refine ⟨sound.goes (t := t) rfl rfl rfl memory (fun _ _ => ⟨rfl,rfl,rfl,rfl⟩) ?_ fun _ => ?_,rfl,rfl⟩
      · simp [here]
      · rw [here]; rfl
  | calloc =>
    rw [here] at done memory clear
    obtain ⟨block,stack,guard⟩ := memory
    cases failed : env.failure with
    | some errno =>
      simp only [failed] at done
      cases done
      exact ⟨sound.goes (t := t) rfl rfl rfl ⟨block,stack,guard⟩ (fun _ _ => ⟨rfl,rfl,rfl,rfl⟩) (by simp [here])
        fun _ => by rw [here]; rfl,rfl,rfl⟩
    | none =>
      simp only [failed] at done
      rw [@clear_untouched ((σ.setBlock t true).setStackSize t 0) t (clear rfl)] at done
      cases done
      refine ⟨sound.goes (t := t) rfl rfl rfl ⟨Function.update_self ..,stack,guard⟩ (fun u other => ?_) (by simp [here])
        fun _ => by rw [here]; rfl,rfl,rfl⟩
      exact ⟨Function.update_of_ne other ..,rfl,rfl,Function.update_of_ne other ..⟩
  | sysconf =>
    rw [here] at done memory
    obtain ⟨block,stack,guard⟩ := memory
    cases done
    refine ⟨sound.goes (t := t) rfl rfl rfl ⟨block,stack,guard,rfl,?_⟩ (fun _ _ => ⟨rfl,rfl,rfl,rfl⟩) (by simp [here])
      fun _ => by rw [here]; rfl,rfl,rfl⟩
    split <;> omega
  | mmap total page_sz =>
    rw [here] at done memory
    obtain ⟨block,stack,guard,isTotal,page⟩ := memory
    cases failed : env.failure with
    | some errno =>
      simp only [failed] at done
      cases done
      exact ⟨sound.goes (t := t) rfl rfl rfl ⟨block,stack,guard⟩ (fun _ _ => ⟨rfl,rfl,rfl,rfl⟩) (by simp [here])
        fun _ => by rw [here]; rfl,rfl,rfl⟩
    | none =>
      simp only [failed] at done
      cases done
      refine ⟨sound.goes (t := t) rfl rfl rfl ⟨block,Function.update_self ..,guard,isTotal,page⟩ (fun u other => ?_)
        (by simp [here]) fun _ => by rw [here]; rfl,rfl,rfl⟩
      exact ⟨rfl,Function.update_of_ne other ..,rfl,rfl⟩
  | mprotect total page_sz =>
    rw [here] at done memory
    obtain ⟨block,stack,guard,isTotal,page⟩ := memory
    cases failed : env.failure with
    | some errno =>
      simp only [failed] at done
      cases done
      exact ⟨sound.goes (t := t) rfl rfl rfl ⟨block,stack,guard⟩ (fun _ _ => ⟨rfl,rfl,rfl,rfl⟩) (by simp [here])
        fun _ => by rw [here]; rfl,rfl,rfl⟩
    | none =>
      simp only [failed] at done
      cases done
      have isGuard : (σ.setGuard t page_sz).guard t = page_sz := Function.update_self ..
      refine ⟨sound.goes (t := t) rfl rfl rfl ⟨block,stack,?_,?_⟩ (fun u other => ?_) (by simp [here])
        fun _ => by rw [here]; rfl,rfl,rfl⟩
      · exact isGuard.symm ▸ isTotal
      · exact isGuard.symm ▸ page
      · exact ⟨rfl,rfl,Function.update_of_ne other ..,rfl⟩
  | munmap total =>
    rw [here] at done memory
    obtain ⟨block,stack,guard⟩ := memory
    cases done
    have none : (σ.setStack t (σ.stack t - total)).stack t = 0 :=
      (Function.update_self ..).trans (by rw [stack,Nat.sub_self])
    refine ⟨sound.goes (t := t) rfl rfl rfl ⟨block,none,guard⟩ (fun u other => ?_) (by simp [here])
      fun _ => by rw [here]; rfl,rfl,rfl⟩
    exact ⟨rfl,Function.update_of_ne other ..,rfl,rfl⟩
  | storeFields total =>
    rw [here] at done memory clear
    obtain ⟨block,stack,isTotal,page⟩ := memory
    rw [clear_untouched (clear rfl)] at done
    cases done
    have size : (σ.setStackSize t total).stackSize t = total := Function.update_self ..
    refine ⟨sound.goes (t := t) rfl rfl rfl ⟨block,stack.trans size.symm,size.trans isTotal,page⟩ (fun u other => ?_)
      (by simp [here]) fun _ => by rw [here]; rfl,rfl,rfl⟩
    exact ⟨rfl,rfl,rfl,Function.update_of_ne other ..⟩
  | clone =>
    rw [here] at done memory
    obtain ⟨block,stack,size,page⟩ := memory
    cases failed : env.failure with
    | some errno =>
      simp only [failed] at done
      cases done
      exact ⟨sound.goes (t := t) rfl rfl rfl ⟨block,stack,size,page⟩ (fun _ _ => ⟨rfl,rfl,rfl,rfl⟩) (by simp [here])
        fun _ => by rw [here]; rfl,rfl,rfl⟩
    | none =>
      obtain ⟨_,unmapped,freed⟩ := sound.unborn (t := t) (by rw [here]; rfl)
      simp only [failed] at done
      cases done
      refine ⟨sound.goes (t := t) rfl rfl rfl ⟨?_,fun _ => ⟨stack,size,page⟩,fun some => absurd unmapped some⟩
        (fun _ _ => ⟨rfl,rfl,rfl,rfl⟩) (by simp [here]) fun _ => by rw [here]; rfl,rfl,rfl⟩
      show σ.block t = (σ.lib.freed t).isEmpty
      rw [freed,block]
      rfl
  | storeThread =>
    rw [here] at done memory
    cases done
    refine ⟨⟨sound.known,sound.called,sound.untouched,fun u => ?_⟩,rfl,rfl⟩
    have made := sound.made u
    have listed : u ∈ σ.created ++ [t] ↔ u ∈ σ.created ∨ u = t := by simp
    by_cases isT : u = t
    · subst isT
      refine ⟨?_,fun unborn => ?_,fun call member on => listed.mpr (.inr rfl),fun _ => createAt_self _⟩
      · rw [createAt_self]
        exact memory
      · rw [createAt_self] at unborn
        cases unborn
    · have stays : (State.createAt { σ with created := σ.created ++ [t] } t .returned).create u = σ.create u :=
        Function.update_of_ne isT ..
      refine ⟨?_,?_,fun call member on => listed.mpr (.inl (made.known call member on)),fun member => ?_⟩
      · rw [stays]
        exact made.memory
      · rw [stays]
        exact made.unborn
      · rw [stays]
        exact made.created ((listed.mp member).resolve_right isT)
  | destroyStack saved_errno =>
    rw [here] at done memory
    obtain ⟨block,stack,size,page⟩ := memory
    have some : σ.stackSize t ≠ 0 := by omega
    rw [State.destroyStack,if_neg some] at done
    cases done
    have none : ((σ.setStack t (σ.stack t - σ.stackSize t)).setGuard t 0).stack t = 0 :=
      (Function.update_self ..).trans (by rw [stack,Nat.sub_self])
    refine ⟨sound.goes (t := t) rfl rfl rfl ⟨block,none,Function.update_self ..⟩ (fun u other => ?_) (by simp [here])
      fun _ => by rw [here]; rfl,rfl,rfl⟩
    exact ⟨rfl,Function.update_of_ne other ..,Function.update_of_ne other ..,rfl⟩
  | free errno =>
    rw [here] at done memory
    obtain ⟨_,stack,guard⟩ := memory
    cases done
    refine ⟨sound.goes (t := t) rfl rfl rfl ⟨Function.update_self ..,stack,guard⟩ (fun u other => ?_) (by simp [here])
      fun _ => by rw [here]; rfl,rfl,rfl⟩
    exact ⟨Function.update_of_ne other ..,rfl,rfl,rfl⟩

/-! ### Runs -/

/-- There is no memory for the node of the thread. -/
def Drops (t : Nat) (σ : State) : Act → Prop
  | .library a => ThreadReclaim.Drops t σ.lib a
  | _ => False

/-- A thread goes on only by steps of its own. -/
theorem startup_others {lib lib' : MyThread.State} {a : MyThread.Act} (done : MyThread.step lib a = some lib')
    (finishes : ∀ retval, a ≠ .finish t retval) (goes : ∀ choice, a ≠ .startup t choice) :
    lib'.startup t = lib.startup t := by
  cases ThreadSteps.step_cases done with
  | finish u retval running =>
    have other : t ≠ u := fun same => finishes retval (by rw [same])
    simp [MyThread.State.startupAt,other]
  | @startup u choice _ done =>
    exact (ThreadSteps.threadStartup_effect done).others t fun same => goes choice (by rw [same])
  | call c call top => rfl
  | join env here => rw [(ThreadSteps.mythreadJoin_effect here).startup]
  | detach here done => rw [(ThreadSteps.mythreadDetach_effect here done).startup]
  | reaper done => rw [(ThreadSteps.reaperMain_effect done).startup]

theorem sound_library {a : MyThread.Act} {lib : MyThread.State} (sound : Sound σ) (enabled : Enabled σ a)
    (done : MyThread.step σ.lib a = some lib) : Sound (releasing σ lib) := by
  refine sound_releasing sound done (fun u unborn => ?_) fun made member => ?_
  · rw [startup_others done]
    · exact (sound.made u).unborn unborn
    · rintro retval rfl
      exact absurd (unborn.symm.trans enabled) (by simp)
    · rintro choice rfl
      exact absurd (unborn.symm.trans enabled.1) (by simp)
  · cases a with
    | call c call =>
      rw [ThreadCalls.callMade,List.mem_singleton] at member
      rw [member]
      exact enabled
    | _ => cases member

/-- Whoever calls `start_reaper` is outside of `reap_enqueue`. -/
theorem idle_of_callsReaper (sound : Sound σ) {p : Caller} (calls : callsReaper σ.lib p = true) :
    σ.lib.queue.enqueuer p = .idle := by
  have handed := sound.known.owned.handed
  cases p with
  | thread t =>
    have here : σ.lib.startup t = .startReaper := of_decide_eq_true calls
    exact handed.threads t (by simp [here])
  | client c =>
    refine handed.clients c fun u here => ?_
    simp [callsReaper,here] at calls

theorem sound_behind {p : Caller} {lib : MyThread.State} (sound : Sound σ) (calls : callsReaper σ.lib p = true)
    (done : MyThread.step σ.lib (behind p) = some lib) : Sound (releasing σ lib) := by
  refine sound_releasing sound done (fun u unborn => ?_) fun made member => ?_
  · have running := (sound.made u).unborn unborn
    rw [startup_others done]
    · exact running
    · cases p <;> simp [behind]
    · intro choice is
      cases p with
      | client c => cases is
      | thread t =>
        cases is
        have here : σ.lib.startup u = .startReaper := of_decide_eq_true calls
        rw [running] at here
        cases here
  · cases p <;> cases member

/-- What a step of the library is for the threads and for the calls of `start_reaper`. -/
structure Goes (σ σ' : State) (a : Act) : Prop where
  lib : σ'.lib = σ.lib ∨ ∃ b, MyThread.step σ.lib b = some σ'.lib
  starter : σ'.starter = σ.starter ∨ ∃ b, StartReaper.step σ.starter b = some σ'.starter
  whole : ∀ t, ReapRest.Whole t σ'.lib.queue ↔ ReapRest.Whole t σ.lib.queue ∧ ¬ Drops t σ a

theorem goes_elsewhere {a : Act} (lib : σ'.lib = σ.lib)
    (starter : σ'.starter = σ.starter ∨ ∃ b, StartReaper.step σ.starter b = some σ'.starter)
    (keeps : ∀ t, ¬ Drops t σ a) : Goes σ σ' a :=
  ⟨.inl lib,starter,fun t => by rw [lib]; exact (and_iff_left (keeps t)).symm⟩

theorem sound_starter {p : Caller} {env : StartReaper.Env} (sound : Sound σ) (calls : callsReaper σ.lib p = true)
    (done : startReaper σ p env = some σ') : Sound σ' ∧ Goes σ σ' (.starter p env) := by
  have same : ∀ starter, Sound { σ with starter } := fun starter =>
    ⟨sound.known,sound.called,sound.untouched,fun t =>
      ⟨(sound.made t).memory.same rfl rfl rfl rfl rfl rfl,(sound.made t).unborn,(sound.made t).known,
        (sound.made t).created⟩⟩
  unfold startReaper at done
  split at done
  · obtain ⟨starter,taken,rfl⟩ := Option.map_eq_some_iff.mp done
    exact ⟨same starter,goes_elsewhere rfl (.inr ⟨_,taken⟩) fun _ => id⟩
  · obtain ⟨starter,taken,done⟩ := Option.bind_eq_some_iff.mp done
    split at done
    · cases done
    · split at done
      · obtain ⟨lib,goes,rfl⟩ := Option.map_eq_some_iff.mp done
        have behind := sound_behind sound calls goes
        have idle := idle_of_callsReaper sound calls
        refine ⟨⟨behind.known,behind.called,behind.untouched,fun t =>
          ⟨(behind.made t).memory.same rfl rfl rfl rfl rfl rfl,(behind.made t).unborn,(behind.made t).known,
            (behind.made t).created⟩⟩,.inr ⟨_,goes⟩,.inr ⟨_,taken⟩,fun t => ?_⟩
        refine ((ThreadReclaim.known_step sound.known goes).2 t).trans (and_congr_right' (not_congr ?_))
        refine iff_of_false ?_ id
        cases p <;> exact ThreadReclaim.keeps_of_idle idle t
      · cases done
        exact ⟨same starter,goes_elsewhere rfl (.inr ⟨_,taken⟩) fun _ => id⟩

theorem sound_step {a : Act} (sound : Sound σ) (done : step σ a = some σ') : Sound σ' ∧ Goes σ σ' a := by
  cases a with
  | create t thread start_routine =>
    simp only [step] at done
    split at done <;> cases done
    rename_i outside
    have memory := (sound.made t).memory
    rw [outside] at memory
    refine ⟨sound.goes (t := t) rfl rfl rfl memory (fun _ _ => ⟨rfl,rfl,rfl,rfl⟩) ?_ fun _ => ?_,
      goes_elsewhere rfl (.inl rfl) fun _ => id⟩
    · simp [outside]
    · rw [outside]; rfl
  | creator t env =>
    obtain ⟨sound',lib,starter⟩ := sound_creator sound done
    exact ⟨sound',goes_elsewhere lib (.inl starter) fun _ => id⟩
  | starter p env =>
    simp only [step] at done
    split at done
    · exact sound_starter sound ‹_› done
    · cases done
  | library b =>
    simp only [step] at done
    split at done
    · rename_i enabled
      obtain ⟨lib,taken,rfl⟩ := Option.map_eq_some_iff.mp done
      exact ⟨sound_library sound enabled taken,.inr ⟨b,taken⟩,.inl rfl,(ThreadReclaim.known_step sound.known taken).2⟩
    · cases done

theorem run_sound {acts : List Act} (ran : Transition.run step start acts = some σ) : Sound σ :=
  Transition.run_invariant (fun _ _ _ sound done => (sound_step sound done).1) ran start_sound

/-- Every run of the library is a run of the threads, and its calls of `start_reaper`
    are a run of their own. -/
theorem library_runs {acts : List Act} (ran : Transition.run step start acts = some σ) :
    (∃ acts', Transition.run MyThread.step MyThread.start acts' = some σ.lib) ∧
      ∃ acts', Transition.run StartReaper.step (StartReaper.start Caller) acts' = some σ.starter := by
  have more : ∀ {State Act : Type} {step : State → Act → Option State} {first s s' : State},
      (∃ acts', Transition.run step first acts' = some s) → (s' = s ∨ ∃ b, step s b = some s') →
        ∃ acts', Transition.run step first acts' = some s' := by
    rintro State Act step first s s' ⟨acts',ran⟩ (rfl | ⟨b,taken⟩)
    · exact ⟨acts',ran⟩
    · exact ⟨acts' ++ [b],Transition.run_append ran (Transition.run_cons.mpr ⟨s',taken,rfl⟩)⟩
  refine (Transition.run_invariant (P := fun σ => Sound σ ∧
    (∃ acts', Transition.run MyThread.step MyThread.start acts' = some σ.lib) ∧
      ∃ acts', Transition.run StartReaper.step (StartReaper.start Caller) acts' = some σ.starter)
    (fun _ _ _ holds done => ?_) ran ⟨start_sound,⟨[],rfl⟩,[],rfl⟩).2
  obtain ⟨sound,lib,starter⟩ := holds
  obtain ⟨sound',goes⟩ := sound_step sound done
  exact ⟨sound',more lib goes.lib,more starter goes.starter⟩

end Os5Sem.LibraryRuns

import Os5Sem.LibraryRuns

/-!
The memory of the library at rest, in every run with creations that fail or not, calls
that race, and threads that the reaper takes in batches: a thread is given back as a
whole or in use as a whole, and nothing else is left (`memory_at_rest`).
-/
namespace Os5Sem.LibraryRest
open Os5Sem.Library Os5Sem.LibraryRuns
open Os5Sem.Transition (Along)

variable {σ : State} {t : Nat}

/-- No call is in progress, no thread is behind its start routine, and the reaper
    waits for something to do. -/
structure AtRest (σ : State) : Prop where
  creates : ∀ t, σ.create t = .outside ∨ σ.create t = .returned ∨ ∃ errno, σ.create t = .failed errno
  lib : ThreadReclaim.AtRest σ.lib

/-- The block is allocated, and the stack is mapped with its guard page. -/
def InUse (t : Nat) (σ : State) : Prop :=
  σ.block t = true ∧ σ.stack t = usableStack + σ.guard t ∧ 0 < σ.guard t

def GivenBack (t : Nat) (σ : State) : Prop := σ.block t = false ∧ σ.stack t = 0

/-- The thread is joined, or it is detached and over and no allocation has failed on
    its way to the reaper. -/
def Due (t : Nat) (acts : List Act) (σ : State) : Prop :=
  (σ.lib.flags t).joined = true ∨ (σ.lib.flags t).detached = true ∧ σ.lib.startup t = .exited ∧
    Along step (fun σ a => ¬ Drops t σ a) start acts

/-- A thread is not lost exactly when there was memory for its node. -/
theorem whole_iff {acts : List Act} (ran : Transition.run step start acts = some σ) (t : Nat) :
    ReapRest.Whole t σ.lib.queue ↔ Along step (fun σ a => ¬ Drops t σ a) start acts := by
  refine (Transition.holds_iff_along (P := fun σ => ReapRest.Whole t σ.lib.queue)
    (fun _ _ _ sound done => (sound_step sound done).1) (fun _ _ _ sound done => (sound_step sound done).2.whole t)
    ran start_sound).trans (and_iff_right (.inl rfl))

theorem in_use_of_whole (whole : σ.lib.unmapped t = [] ∧ σ.lib.freed t = []) (memory : Memory σ t .returned) :
    InUse t σ := by
  obtain ⟨block,stack,_⟩ := memory
  obtain ⟨stack,size,guard⟩ := stack whole.1
  refine ⟨?_,stack.trans size,guard⟩
  rw [block,whole.2]
  rfl

theorem given_back_of_released (released : ThreadReclaim.ReleasedOnce t σ.lib) (memory : Memory σ t .returned) :
    GivenBack t σ := by
  obtain ⟨r,unmapped,freed⟩ := released
  obtain ⟨block,_,stack⟩ := memory
  refine ⟨?_,(stack (by rw [unmapped]; simp)).1⟩
  rw [block,freed]
  rfl

/-- At rest all nodes are freed, and every thread is given back as a whole or in use as
    a whole. In use are exactly those whose creation has succeeded and that are not due
    to be released. -/
theorem memory_at_rest {acts : List Act} (ran : Transition.run step start acts = some σ) (rest : AtRest σ) :
    (∀ x, σ.lib.queue.live x = false) ∧
      ∀ t, (GivenBack t σ ∨ InUse t σ) ∧ (InUse t σ ↔ σ.create t = .returned ∧ ¬ Due t acts σ) := by
  have sound := run_sound ran
  have handed := sound.known.owned.handed
  refine ⟨((rest.lib.queue handed).settled sound.known.traced).2.2,fun t => ?_⟩
  have memory := (sound.made t).memory
  have apart : GivenBack t σ → ¬ InUse t σ := fun back use => absurd (back.1.symm.trans use.1) (by simp)
  by_cases returned : σ.create t = .returned
  · rw [returned] at memory
    have due : Due t acts σ ↔ ThreadReclaim.ReleasedOnce t σ.lib := by
      rw [rest.lib.releasedOnce_iff sound.known t,Due,whole_iff ran t]
    rcases rest.lib.whole sound.known t with released | whole
    · have back := given_back_of_released released memory
      exact ⟨.inl back,iff_of_false (apart back) fun both => both.2 (due.mpr released)⟩
    · have use := in_use_of_whole whole memory
      refine ⟨.inr use,iff_of_true use ⟨returned,fun isDue => ?_⟩⟩
      exact apart (given_back_of_released (due.mp isDue) memory) use
  · have back : GivenBack t σ := by
      rcases rest.creates t with outside | is | ⟨errno,failed⟩
      · rw [outside] at memory
        exact ⟨memory.1,memory.2.1⟩
      · exact absurd is returned
      · rw [failed] at memory
        exact ⟨memory.1,memory.2.1⟩
    exact ⟨.inl back,iff_of_false (apart back) fun both => returned both.1⟩

/-- The thread 0 is created, detached and over, and creates the reaper, which releases
    it; the creation of the thread 1 fails at its guard page, and the thread 2 runs on. -/
def releasedAndRunning : List Act :=
  let go : Env := ⟨4096,none⟩
  let env : ReapQueue.Env := ⟨none,false⟩
  let creates (t : Nat) : List Act := .create t true true :: List.replicate 8 (.creator t go)
  let thread (n : Nat) : List Act := List.replicate n (.library (.startup 0 ⟨env,0⟩))
  let starter (n : Nat) : List Act := List.replicate n (.starter (.thread 0) ⟨4096,.ok 100⟩)
  creates 0 ++ .library (.call 0 (.detach 0)) :: List.replicate 3 (.library (.client 0 env)) ++
    .create 1 true true :: List.replicate 4 (.creator 1 go) ++ List.replicate 3
      (.creator 1 ⟨4096,some 12⟩) ++ creates 2 ++
    .library (.finish 0 7) :: thread 5 ++ starter 9 ++ thread 1 ++ .library
      (.startup 0 ⟨⟨some 0,false⟩,0⟩) :: thread 9 ++
    List.replicate 13 (.library (.reaper env))

def after (acts : List Act) : State := (Transition.run step start acts).getD start

theorem released_and_running : Transition.run step start releasedAndRunning = some (after releasedAndRunning) := rfl

theorem memory_at_rest_running : (∀ x, (after releasedAndRunning).lib.queue.live x = false) ∧
    ∀ t, (GivenBack t (after releasedAndRunning) ∨ InUse t (after releasedAndRunning)) ∧
      (InUse t (after releasedAndRunning) ↔ (after releasedAndRunning).create t = .returned ∧
        ¬ Due t releasedAndRunning (after releasedAndRunning)) := by
  refine memory_at_rest released_and_running ⟨fun t => ?_,fun c => ?_,fun t => ?_,.inl rfl,rfl⟩
  · rcases t with _ | _ | _ | t
    · exact .inr (.inl rfl)
    · exact .inr (.inr ⟨.enomem,rfl⟩)
    · exact .inr (.inl rfl)
    · exact .inl rfl
  · rcases c with _ | c <;> rfl
  · rcases t with _ | t
    · exact .inr rfl
    · exact .inl rfl

end Os5Sem.LibraryRest

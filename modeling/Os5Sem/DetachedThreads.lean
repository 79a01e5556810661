import Os5Sem.WoReaperCreation
import Os5Sem.WoReaperExclusion

/-!
What detached threads leave behind in the library without a reaper. A thread that
is detached in time releases its stack, its block and the arguments of its cleanup
itself, on a temporary stack, which nobody unmaps: every such thread leaves one
mapping (`released_iff`).
-/
namespace Os5Sem.DetachedThreads
open Os5Sem.MyThread (Call Result Return)
open Os5Sem.WoReaper Os5Sem.WoReaperOwnership Os5Sem.WoReaperLifetime
open Os5Sem.WoReaperExclusion (Admission Kind admission Enters turn_of_step)
open Os5Sem.Transition (Along)

variable {σ σ' : State} {t c : Nat}

/-- A start routine returns when a detach of its thread has returned 0 and no call
    on the thread is in progress, and the thread is not detached again. -/
def InTime (σ : State) : Act → Prop
  | .finish t _ => (∃ r ∈ σ.returns, r.call = .detach t ∧ r.result = .ok none) ∧ ∀ c, ¬ Inside t (σ.client c)
  | .call _ (.detach t) => σ.startup t = .running
  | _ => True

/-! ### The flag `detached` -/

/-- Whoever detaches has set the flag. -/
structure Stored (v : Admission) : Prop where
  client : ∀ c, v.client c = some .detacher → v.detached = true
  returned : .detacher ∈ v.returned → v.detached = true

theorem stored_turn {v v' : Admission} {enters : Prop} (turn : v.Turn enters v') (stored : Stored v) : Stored v' := by
  cases turn with
  | stays => exact stored
  | @joins c now free =>
    refine ⟨fun d detacher => ?_,stored.returned⟩
    by_cases isC : d = c
    · subst isC; simp at detacher
    · exact stored.client d (by simpa [isC] using detacher)
  | detaches now => exact ⟨fun _ _ => rfl,fun _ => rfl⟩
  | returns c =>
    constructor
    case client =>
      intro d detacher
      by_cases isC : d = c
      · subst isC; simp at detacher
      · exact stored.client d (by simpa [isC] using detacher)
    case returned =>
      intro member
      rcases List.mem_append.mp member with before | now
      · exact stored.returned before
      · exact stored.client c (Option.mem_toList.mp now)

theorem detached_of_returned (stored : Stored (admission t σ))
    (returned : ∃ r ∈ σ.returns, r.call = .detach t ∧ r.result = .ok none) : (σ.block t).detached = true := by
  obtain ⟨⟨c,call,result⟩,member,rfl,rfl⟩ := returned
  exact stored.returned (List.mem_filterMap.mpr ⟨_,member,by simp [WoReaperExclusion.success]⟩)

/-! ### A thread that is left to itself -/

/-- What the thread has of its cleanup, and of its stack and its block at the end.
    It never gets to `exit`, where it would leave them. -/
def Cleanup (p : Part) (args tempStack : Bool) : StartupPc → Prop
  | .fillArgs | .mmap => args = true ∧ tempStack = false
  | .swapContext | .munmap | .freeBlock | .freeArgs => args = true ∧ tempStack = true
  | .trampolineExit => args = false ∧ tempStack = true
  | .exit => False
  | .exited => (args = false ∧ tempStack = true) ∧ p.unmapped = [.thread] ∧ p.freed = [.thread]
  | _ => args = false ∧ tempStack = false

/-- No client takes the thread's flag: the thread has been detached when its start
    routine returns, and calls on it are joins that are going to be refused. -/
structure Alone (t : Nat) (σ : State) : Prop where
  taken : ∀ c, σ.taken t ≠ some (.client c)
  detached : σ.startup t ≠ .running → (σ.block t).detached = true
  calls : σ.startup t ≠ .running → ∀ c, Inside t (σ.client c) → ∃ wants, σ.client c = .join t wants .loadDetached
  cleanup : Cleanup (part σ t) (σ.args t) (σ.tempStack t) (σ.startup t)

theorem start_alone (t : Nat) : Alone t WoReaper.start := ⟨nofun,fun out => absurd rfl out,fun _ _ => False.elim,
    ⟨rfl,rfl⟩⟩

/-- A step that leaves the thread alone. -/
theorem Alone.same (alone : Alone t σ) (part_same : part σ' t = part σ t) (startup : σ'.startup t = σ.startup t)
    (args : σ'.args t = σ.args t) (tempStack : σ'.tempStack t = σ.tempStack t)
    (calls : σ.startup t ≠ .running → ∀ c, Inside t (σ'.client c) →
      ∃ wants, σ'.client c = .join t wants .loadDetached) :
    Alone t σ' := by
  constructor
  case taken => rw [show σ'.taken t = σ.taken t from congrArg Part.taken part_same]; exact alone.taken
  case detached =>
    rw [startup,show σ'.block t = σ.block t from congrArg Part.block part_same]
    exact alone.detached
  case calls => rw [startup]; exact calls
  case cleanup => rw [part_same,args,tempStack,startup]; exact alone.cleanup

/-! ### The steps -/

theorem futexWake_cleanup (σ : State) (u pick : Nat) :
    (σ.futexWake u pick).args = σ.args ∧ (σ.futexWake u pick).tempStack = σ.tempStack := by
  unfold State.futexWake
  split
  · exact ⟨rfl,rfl⟩
  · unfold State.wake
    split <;> exact ⟨rfl,rfl⟩

theorem startup_cleanup {u : Nat} {env : Env} (done : threadStartup σ u env = some σ') (other : t ≠ u) :
    σ'.args t = σ.args t ∧ σ'.tempStack t = σ.tempStack t := by
  cases here : σ.startup u <;> simp only [threadStartup,here] at done <;> try split at done
  all_goals cases done
  case futexWake =>
    obtain ⟨args,tempStack⟩ := futexWake_cleanup σ u env.pick
    exact ⟨congrFun args t,congrFun tempStack t⟩
  case malloc.isTrue => exact ⟨Function.update_of_ne other ..,rfl⟩
  case mmap.isTrue => exact ⟨rfl,Function.update_of_ne other ..⟩
  case freeArgs => exact ⟨Function.update_of_ne other ..,rfl⟩
  all_goals exact ⟨rfl,rfl⟩

theorem client_cleanup (done : step σ (.client c) = some σ') : σ'.args = σ.args ∧ σ'.tempStack = σ.tempStack := by
  cases step_cases done with
  | @join c u wants pc here =>
    cases pc with
    | loadDetached => rw [mythreadJoin]; split <;> exact ⟨rfl,rfl⟩
    | loadFinished =>
      rw [mythreadJoin]
      split
      · split <;> exact ⟨rfl,rfl⟩
      · exact ⟨rfl,rfl⟩
    | futexWait => rw [mythreadJoin]; split <;> exact ⟨rfl,rfl⟩
    | asleep => rw [mythreadJoin]; unfold State.wake; split <;> exact ⟨rfl,rfl⟩
    | exchange stored => rw [mythreadJoin]; split <;> exact ⟨rfl,rfl⟩
    | _ => exact ⟨rfl,rfl⟩
  | @detach c u pc here =>
    cases pc with
    | loadFinished => rw [mythreadDetach]; split <;> exact ⟨rfl,rfl⟩
    | compareExchange => rw [mythreadDetach]; split <;> exact ⟨rfl,rfl⟩
    | _ => exact ⟨rfl,rfl⟩

theorem wake_calls (alone : Alone t σ) (out : σ.startup t ≠ .running) (d : Nat) (c : Nat)
    (inside : Inside t ((σ.wake d).client c)) : ∃ wants, (σ.wake d).client c = .join t wants .loadDetached := by
  rcases wake_client σ d c with same | ⟨u,wants,was,now⟩
  · rw [same] at inside ⊢
    exact alone.calls out c inside
  · rw [now] at inside
    obtain ⟨_,joins⟩ := alone.calls out c (by rw [was]; exact inside)
    rw [was] at joins
    cases joins

/-- The thread's own steps. Nobody else has its flag, and it is detached. -/
theorem alone_startup {env : Env} (owned : Owned σ) (alone : Alone t σ) (done : threadStartup σ t env = some σ') :
    Alone t σ' := by
  have knows := (owned t).startup
  have cleanup := alone.cleanup
  have out : σ.startup t ≠ .running := by
    intro running
    simp only [threadStartup,running] at done
    cases done
  have detached := alone.detached out
  have calls : ∀ c, Inside t (σ'.client c) → ∃ wants, σ'.client c = .join t wants .loadDetached := by
    intro c
    rcases threadStartup_clients done with same | ⟨d,woken⟩
    · rw [same]; exact alone.calls out c
    · rw [woken]; exact wake_calls alone out d c
  have still : (σ'.block t).detached = true := (startup_detached (t := t) done).1.trans detached
  have goes : ∀ {τ : State} {pc : StartupPc}, σ' = τ.startupAt t pc → (∀ c, τ.taken t ≠ some (.client c)) →
      Cleanup (part τ t) (τ.args t) (τ.tempStack t) pc → Alone t σ' := by
    rintro τ pc rfl taken cleanup
    exact ⟨taken,fun _ => still,fun _ => calls,by rw [startupAt_self]; exact cleanup⟩
  have untaken : σ.taken t ≠ some .thread → (σ.block t).joined = false := by
    intro others
    have flag : (σ.block t).joined = (σ.taken t).isSome := (owned t).flag
    rw [flag]
    cases taken : σ.taken t with
    | none => rfl
    | some r =>
      cases r with
      | thread => exact absurd taken others
      | client c => exact absurd taken (alone.taken c)
  cases here : σ.startup t <;> rw [here] at knows cleanup <;> simp only [threadStartup,here] at done <;>
    try split at done
  all_goals cases done
  case futexWake =>
    have woken : (σ.futexWake t env.pick).taken t = σ.taken t := congrArg Part.taken (part_futexWake ..)
    apply goes rfl (by rw [woken]; exact alone.taken)
    rw [(futexWake_cleanup ..).1,(futexWake_cleanup ..).2]
    exact cleanup
  case compareExchange.isTrue joined => exact absurd ((untaken knows.2).symm.trans joined) (by simp)
  case compareExchange.isFalse =>
    have mine : (σ.take t .thread).taken t = some .thread := by simp [State.take]
    exact goes rfl (by rw [mine]; simp) cleanup
  case loadDetached.isFalse attached => exact absurd detached attached
  case exit => exact cleanup.elim
  case malloc.isTrue => exact goes rfl alone.taken ⟨Function.update_self ..,cleanup.2⟩
  case malloc.isFalse => exact ⟨alone.taken,alone.detached,alone.calls,alone.cleanup⟩
  case mmap.isTrue => exact goes rfl alone.taken ⟨cleanup.1,Function.update_self ..⟩
  case mmap.isFalse => exact ⟨alone.taken,alone.detached,alone.calls,alone.cleanup⟩
  case freeArgs => exact goes rfl alone.taken ⟨Function.update_self ..,cleanup.2⟩
  case trampolineExit => exact goes rfl alone.taken ⟨cleanup,knows.2.2.2⟩
  all_goals exact goes rfl alone.taken cleanup

theorem finished_of_releasing {p : Part} {pc : ClientPc} (knows : ClientKnows t c p pc) (releasing : Releasing t pc) :
    p.block.finished = true := by
  cases pc with
  | idle => exact releasing.elim
  | join u wants pc => cases pc <;> first | exact (knows releasing).1 | exact releasing.elim
  | detach u pc => cases pc <;> first | exact (knows releasing).1 | exact releasing.elim

/-- The flag of a running thread is not taken by a client. -/
theorem running_untaken (owned : Owned σ) (alone : Alone t σ) (running : σ.startup t = .running)
    (done : step σ (.client c) = some σ') (d : Nat) : σ'.taken t ≠ some (.client d) := by
  have unfinished := (owned t).startup
  rw [running] at unfinished
  obtain ⟨_,pc,u,_,moves,others⟩ := client_step owned done
  by_cases isU : t = u
  · subst isU
    have taken : (part σ' t).taken = (part σ t).taken := by
      generalize part σ' t = p at moves
      cases moves with
      | takes free knows releasing =>
        have none := (owned t).free free
        have finished : ((part σ t).take (.client c)).block.finished = true :=
          finished_of_releasing (knows ((owned t).untaken none)) releasing
        exact absurd (unfinished.1.symm.trans finished) nofun
      | _ => rfl
    rw [show σ'.taken t = σ.taken t from taken]
    exact alone.taken d
  · rw [show σ'.taken t = σ.taken t from congrArg Part.taken (others t isU).1]
    exact alone.taken d

theorem alone_client (owned : Owned σ) (alone : Alone t σ) (done : step σ (.client c) = some σ') : Alone t σ' := by
  obtain ⟨args,tempStack⟩ := client_cleanup done
  obtain ⟨startups,pc,_,clients,_⟩ := client_step owned done
  by_cases running : σ.startup t = .running
  · have still : σ'.startup t = .running := (congrFun startups t).trans running
    have cleanup := alone.cleanup
    rw [running] at cleanup
    constructor
    case taken => exact running_untaken owned alone running done
    case detached => exact fun out => absurd still out
    case calls => exact fun out => absurd still out
    case cleanup => rw [args,tempStack,still]; exact cleanup
  · by_cases inside : Inside t (σ.client c)
    · obtain ⟨wants,here⟩ := alone.calls running c inside
      have refused : σ' = σ.leave c (.join t wants) .einval := by
        cases step_cases done with
        | join here' =>
          rw [here] at here'
          cases here'
          rw [mythreadJoin,if_pos (alone.detached running)]
        | detach here' => rw [here] at here'; cases here'
      rw [refused]
      refine alone.same (part_leave ..) rfl rfl rfl fun out d within => ?_
      by_cases isC : d = c
      · subst isC; simp [State.leave,State.clientAt,Inside] at within
      · have same : (σ.leave c (.join t wants) .einval).client d = σ.client d := by
          simp [State.leave,State.clientAt,isC]
        rw [same] at within ⊢
        exact alone.calls out d within
    · obtain ⟨same,startup⟩ := part_foreign done (by simp) (by simp) fun d isC => by cases isC; exact inside
      refine alone.same same startup (congrFun args t) (congrFun tempStack t) fun out d within => ?_
      rcases inside_of_step done within with before | ⟨_,isCall,_⟩
      · have isNotC : d ≠ c := fun isC => inside (isC ▸ before)
        rw [clients,Function.update_of_ne isNotC]
        exact alone.calls out d before
      · cases isCall

theorem alone_step {a : Act} (owned : Owned σ) (stored : Stored (admission t σ)) (alone : Alone t σ)
    (inTime : InTime σ a)
    (done : step σ a = some σ') : Alone t σ' := by
  cases step_cases done with
  | join => exact alone_client owned alone done
  | detach => exact alone_client owned alone done
  | finish u retval running =>
    by_cases isU : t = u
    · subst isU
      obtain ⟨returned,quiet⟩ := inTime
      have cleanup := alone.cleanup
      rw [running] at cleanup
      constructor
      case taken => exact alone.taken
      case detached => exact fun _ => detached_of_returned stored returned
      case calls => exact fun _ c inside => absurd inside (quiet c)
      case cleanup => rw [startupAt_self]; exact cleanup
    · exact alone.same rfl (by simp [State.startupAt,isU]) rfl rfl alone.calls
  | @startup u env _ done =>
    by_cases isU : t = u
    · subst isU
      exact alone_startup owned alone done
    · obtain ⟨same,startup⟩ := threadStartup_others done isU
      obtain ⟨args,tempStack⟩ := startup_cleanup done isU
      refine alone.same same startup args tempStack fun out c => ?_
      rcases threadStartup_clients done with same | ⟨d,woken⟩
      · rw [same]; exact alone.calls out c
      · rw [woken]; exact wake_calls alone out d c
  | call c call top =>
    refine alone.same rfl rfl rfl rfl fun out d inside => ?_
    have clients : (σ.clientAt c (entry call)).client d = if d = c then entry call else σ.client d := by
      by_cases isC : d = c <;> simp [State.clientAt,isC]
    change Inside t ((σ.clientAt c (entry call)).client d) at inside
    change ∃ wants, (σ.clientAt c (entry call)).client d = _
    rw [clients] at inside ⊢
    split at inside
    · rw [if_pos ‹_›]
      cases call with
      | join u wants => cases inside; exact ⟨wants,rfl⟩
      | detach u => cases inside; exact absurd inTime out
    · rw [if_neg ‹_›]
      exact alone.calls out d inside

theorem alone_along {acts : List Act} (ran : Transition.run step WoReaper.start acts = some σ)
    (inTime : Along step InTime WoReaper.start acts) (t : Nat) : Owned σ ∧ Alone t σ := by
  have kept := Transition.throughout_of_along
    (P := fun σ => Owned σ ∧ Stored (admission t σ) ∧ Alone t σ) (fun _ _ _ all inTime done =>
      ⟨owned_step all.1 done,stored_turn (turn_of_step done) all.2.1,alone_step all.1 all.2.1 all.2.2 inTime done⟩)
    ⟨start_owned,⟨nofun,nofun⟩,start_alone t⟩ inTime
  obtain ⟨owned,_,alone⟩ := kept acts [] σ (List.append_nil _).symm ran
  exact ⟨owned,alone⟩

/-! ### What is left behind -/

/-- What is allocated for a thread. -/
inductive Resource
  | stack
  | block
  | args
  | tempStack
deriving DecidableEq

/-- What has been allocated for the thread and not been released. -/
def held (σ : WoReaperCreation.State) (t : Nat) : List Resource :=
  (if σ.stack t = true ∧ σ.lib.unmapped t = [] then [.stack] else []) ++
    (if σ.block t = true ∧ σ.lib.freed t = [] then [.block] else []) ++
    (if σ.lib.args t then [.args] else []) ++ if σ.lib.tempStack t then [.tempStack] else []

/-- The calls of `mythread_create` may be made at any time. -/
def DetachedInTime : WoReaperCreation.State → WoReaperCreation.Act → Prop := WoReaperCreation.OfLibrary InTime

/-- A thread that has exited has left its temporary stack, and nothing else. -/
theorem tempStack_left {acts : List WoReaperCreation.Act} {σ : WoReaperCreation.State}
    (ran : Transition.run WoReaperCreation.step WoReaperCreation.start acts = some σ)
    (inTime : Along WoReaperCreation.step DetachedInTime WoReaperCreation.start acts)
    (exited : σ.lib.startup t = .exited) : held σ t = [.tempStack] := by
  obtain ⟨_,acts',ran,inTime⟩ := WoReaperCreation.library_run WoReaperCreation.start_made ran inTime
  have cleanup := (alone_along ran inTime t).2.cleanup
  rw [exited] at cleanup
  obtain ⟨⟨args,tempStack⟩,unmapped,freed⟩ := cleanup
  have stack : σ.lib.unmapped t ≠ [] := by rw [show σ.lib.unmapped t = _ from unmapped]; nofun
  have block : σ.lib.freed t ≠ [] := by rw [show σ.lib.freed t = _ from freed]; nofun
  simp [held,stack,block,args,tempStack]

/-- When all threads that have been created and detached in time have exited,
    everything that was allocated for them has been released exactly when there
    are none. -/
theorem released_iff {acts : List WoReaperCreation.Act} {σ : WoReaperCreation.State}
    (ran : Transition.run WoReaperCreation.step WoReaperCreation.start acts = some σ)
    (inTime : Along WoReaperCreation.step DetachedInTime WoReaperCreation.start acts)
    (exited : ∀ t ∈ σ.created, σ.lib.startup t = .exited) :
    (∀ t ∈ σ.created, held σ t = []) ↔ σ.created.length = 0 := by
  rw [List.length_eq_zero_iff,List.eq_nil_iff_forall_not_mem]
  refine forall₂_congr fun t member => iff_of_false ?_ id
  rw [tempStack_left ran inTime (exited t member)]
  nofun

/-- The thread 0 is created and detached, -/
def detachedEarly : List WoReaperCreation.Act :=
  .create 0 true true :: List.replicate 6 (.creator 0 none) ++ .library (.call 1 (.detach 0)) ::
    List.replicate 2 (.library (.client 1))

/-- and then its start routine returns, and it exits. -/
def detachedRun : List WoReaperCreation.Act :=
  detachedEarly ++ .library (.finish 0 7) :: List.replicate 13 (.library (.startup 0 ⟨true,0⟩))

def after (acts : List WoReaperCreation.Act) : WoReaperCreation.State :=
  (Transition.run WoReaperCreation.step WoReaperCreation.start acts).getD WoReaperCreation.start

/-- Nothing ends, and a thread is detached while it is running. -/
def Early (σ : WoReaperCreation.State) : WoReaperCreation.Act → Bool
  | .library (.finish _ _) => false
  | .library (.call _ (.detach t)) => σ.lib.startup t = .running
  | _ => true

theorem inTime_of_early (σ : WoReaperCreation.State) (a : WoReaperCreation.Act) (early : Early σ a = true) :
    DetachedInTime σ a := by
  cases a with
  | library b =>
    cases b with
    | finish t retval => cases early
    | call c call =>
      cases call with
      | join t wants => trivial
      | detach t =>
        have running : σ.lib.startup t = .running := by simpa [Early] using early
        exact running
    | _ => trivial
  | _ => trivial

theorem detachedRun_inTime : Along WoReaperCreation.step DetachedInTime WoReaperCreation.start detachedRun := by
  have before : Along WoReaperCreation.step (fun σ a => Early σ a = true) WoReaperCreation.start detachedEarly := by
    decide
  have finish : DetachedInTime (after detachedEarly) (.library (.finish 0 7)) := by
    refine ⟨by decide,?_⟩
    rintro (_ | _ | c)
    · exact id
    · exact id
    · exact id
  have behind : Along WoReaperCreation.step (fun σ a => Early σ a = true)
      (after (detachedEarly ++ [.library (.finish 0 7)])) (List.replicate 13 (.library (.startup 0 ⟨true,0⟩))) := by
    decide
  refine (Transition.along_append (rfl : Transition.run WoReaperCreation.step _ detachedEarly = some
    (after detachedEarly))).mpr ⟨before.mono inTime_of_early,?_⟩
  exact (Transition.along_cons rfl).mpr ⟨finish,behind.mono inTime_of_early⟩

theorem mapping_left :
    Along WoReaperCreation.step DetachedInTime WoReaperCreation.start detachedRun ∧
      (Transition.run WoReaperCreation.step WoReaperCreation.start detachedRun).isSome = true ∧
      (after detachedRun).created = [0] ∧ (after detachedRun).lib.startup 0 = .exited ∧
      held (after detachedRun) 0 = [.tempStack] ∧
      ¬ ∀ t ∈ (after detachedRun).created, held (after detachedRun) t = [] := by
  refine ⟨detachedRun_inTime,?_⟩
  decide

theorem released_iff_one :
    (∀ t ∈ (after detachedRun).created, held (after detachedRun) t = []) ↔ (after detachedRun).created.length = 0 :=
  released_iff (rfl : Transition.run _ _ detachedRun = some (after detachedRun)) detachedRun_inTime (by decide)

end Os5Sem.DetachedThreads

import Os5Sem.ThreadOwnership

/-!
The joiners that sleep until a thread has finished. `futex_wake` wakes one of
them, which is enough: `MT_JOINED` lets one joiner wait, and who looks at
`finished` after it has been set does not go to sleep (`no_sleeper_after_wake`).
-/
namespace Os5Sem.ThreadWake
open Os5Sem.MyThread Os5Sem.ThreadSteps Os5Sem.ThreadFacts Os5Sem.ThreadOwnership
open Os5Sem.ReapQueue (Env)

variable {σ σ' : State} {t c : Nat}

/-- The client sleeps on the thread's `finished`. -/
def Asleep (t : Nat) : ClientPc → Prop
  | .join u _ .asleep => u = t
  | _ => False

/-- The thread has executed its `futex_wake`. -/
def HasWoken : StartupPc → Prop
  | .running | .storeRetval _ | .storeFinished | .futexWake => False
  | _ => True

/-- The sleepers of a thread are those that sleep on its `finished`, and there are
    none after the wake. -/
structure Waking (σ : State) : Prop where
  sleepers : ∀ t c, c ∈ σ.sleepers t ↔ Asleep t (σ.client c)
  nodup : ∀ t, (σ.sleepers t).Nodup
  woken : ∀ t c, HasWoken (σ.startup t) → ¬ Asleep t (σ.client c)

theorem won_of_asleep {pc : ClientPc} (asleep : Asleep t pc) : Won t pc := by
  cases pc with
  | join u wants pc => cases pc <;> first | exact ⟨asleep,trivial⟩ | exact asleep.elim
  | _ => exact asleep.elim

theorem finished_of_hasWoken (inf : Informed σ) (woken : HasWoken (σ.startup t)) : σ.finished t = true := by
  have knows := inf.startups t
  cases here : σ.startup t <;> rw [here] at knows woken <;> first | exact woken.elim | exact knows.1

/-! ### Steps that wake nobody -/

/-- A step after which the same clients sleep, and which lets no thread get past its
    wake. -/
theorem Waking.congr (waking : Waking σ) (sleepers : σ'.sleepers = σ.sleepers)
    (clients : ∀ u d, Asleep u (σ'.client d) ↔ Asleep u (σ.client d))
    (startups : ∀ u, HasWoken (σ'.startup u) → HasWoken (σ.startup u)) : Waking σ' := by
  constructor
  case sleepers =>
    intro u d
    rw [sleepers,clients u d]
    exact waking.sleepers u d
  case nodup =>
    rw [sleepers]
    exact waking.nodup
  case woken =>
    intro u d woken asleep
    exact waking.woken u d (startups u woken) ((clients u d).mp asleep)

/-- One client goes on, and neither slept nor sleeps. -/
theorem Waking.clientAt (waking : Waking σ) (sleepers : σ'.sleepers = σ.sleepers)
    (others : ∀ d, d ≠ c → σ'.client d = σ.client d) (before : ∀ u, ¬ Asleep u (σ.client c))
    (after : ∀ u, ¬ Asleep u (σ'.client c)) (startups : σ'.startup = σ.startup) : Waking σ' := by
  refine waking.congr sleepers (fun u d => ?_) (fun u => startups ▸ id)
  by_cases isC : d = c
  · rw [isC]
    exact iff_of_false (after u) (before u)
  · rw [others d isC]

theorem detachLoop_sleepers (s : Flags) : (detachLoop σ c t s).sleepers = σ.sleepers := by
  unfold detachLoop
  split
  · rfl
  · split <;> rfl

theorem mythreadDetach_sleepers {env : Env} {pc : DetachPc} (done : mythreadDetach σ c t env pc = some σ') :
    σ'.sleepers = σ.sleepers := by
  cases pc with
  | loadState => cases done; exact detachLoop_sleepers _
  | compareExchange s =>
    simp only [mythreadDetach] at done
    split at done <;> cases done
    · rfl
    · exact detachLoop_sleepers _
  | loadFinished => simp only [mythreadDetach] at done; split at done <;> cases done <;> rfl
  | orQueued => simp only [mythreadDetach] at done; split at done <;> cases done <;> rfl
  | startReaper => cases done; rfl
  | callEnqueue => cases done; rfl
  | enqueueing =>
    obtain ⟨queue,_,rfl⟩ := Option.map_eq_some_iff.mp done
    split <;> rfl

theorem waking_detach (waking : Waking σ) {env : Env} {pc : DetachPc} (here : σ.client c = .detach t pc)
    (done : mythreadDetach σ c t env pc = some σ') : Waking σ' := by
  have effect := mythreadDetach_effect here done
  refine waking.clientAt (mythreadDetach_sleepers done) effect.others (fun u => ?_) (fun u => ?_) effect.startup
  · rw [here]; exact id
  · rcases effect.own with idle | ⟨pc',own⟩
    · rw [idle]; exact id
    · rw [own]; exact id

theorem reapStep_sleepers {env : Env} (done : reapStep σ env = some σ') : σ'.sleepers = σ.sleepers := by
  obtain ⟨queue,_,rfl⟩ := Option.map_eq_some_iff.mp done
  rfl

theorem reaperMain_sleepers {env : Env} (done : reaperMain σ env = some σ') : σ'.sleepers = σ.sleepers := by
  unfold reaperMain at done
  split at done
  · split at done
    · simp only at done
      split at done
      · exact (reapStep_sleepers done).trans rfl
      · cases done; rfl
    · cases done; rfl
    · exact (reapStep_sleepers done).trans rfl
  · exact reapStep_sleepers done

/-! ### The joiners -/

/-- A sleeper goes on with the test of its loop. -/
theorem Waking.wake (waking : Waking σ) (c : Nat) : Waking (σ.wake c) := by
  unfold State.wake
  split
  · rename_i t wants here
    constructor
    case sleepers =>
      intro u d
      show d ∈ Function.update σ.sleepers t ((σ.sleepers t).erase c) u ↔
        Asleep u (Function.update σ.client c (.join t wants .loadFinished) d)
      by_cases isC : d = c
      · subst isC
        rw [Function.update_self]
        refine iff_of_false (fun member => ?_) id
        by_cases isT : u = t
        · subst isT
          rw [Function.update_self] at member
          exact (waking.nodup u).not_mem_erase member
        · rw [Function.update_of_ne isT,waking.sleepers,here] at member
          exact isT (Eq.symm member)
      · rw [Function.update_of_ne isC,← waking.sleepers]
        by_cases isT : u = t
        · subst isT
          rw [Function.update_self,List.mem_erase_of_ne isC]
        · rw [Function.update_of_ne isT]
    case nodup =>
      intro u
      by_cases isT : u = t
      · subst isT
        simpa using (waking.nodup u).erase c
      · simpa [isT] using waking.nodup u
    case woken =>
      intro u d woken asleep
      apply waking.woken u d woken
      by_cases isC : d = c
      · subst isC
        simp [State.clientAt,Asleep] at asleep
      · simpa [State.clientAt,isC] using asleep
  · exact waking

/-- A joiner goes to sleep on a thread that has not finished. -/
theorem Waking.sleep (waking : Waking σ) (inf : Informed σ) {wants : Bool} (awake : ∀ u, ¬ Asleep u (σ.client c))
    (unfinished : σ.finished t ≠ true) :
    Waking
      { σ.clientAt c (.join t wants .asleep) with
        sleepers := Function.update σ.sleepers t (σ.sleepers t ++ [c]) } := by
  have unlisted : c ∉ σ.sleepers t := fun member => awake t ((waking.sleepers t c).mp member)
  constructor
  case sleepers =>
    intro u d
    show d ∈ Function.update σ.sleepers t (σ.sleepers t ++ [c]) u ↔
      Asleep u (Function.update σ.client c (.join t wants .asleep) d)
    by_cases isT : u = t
    · subst isT
      rw [Function.update_self,List.mem_append,List.mem_singleton,waking.sleepers]
      by_cases isC : d = c
      · subst isC
        rw [Function.update_self]
        exact iff_of_true (.inr rfl) rfl
      · rw [Function.update_of_ne isC]
        exact or_iff_left isC
    · rw [Function.update_of_ne isT,waking.sleepers]
      by_cases isC : d = c
      · subst isC
        rw [Function.update_self]
        exact iff_of_false (awake u) fun isT' => isT (Eq.symm isT')
      · rw [Function.update_of_ne isC]
  case nodup =>
    intro u
    by_cases isT : u = t
    · subst isT
      simpa using (waking.nodup u).append (List.nodup_singleton c) (List.disjoint_singleton.mpr unlisted)
    · simpa [isT] using waking.nodup u
  case woken =>
    intro u d woken asleep
    by_cases isC : d = c
    · subst isC
      simp only [State.clientAt,Function.update_self,Asleep] at asleep
      subst asleep
      exact unfinished (finished_of_hasWoken inf woken)
    · exact waking.woken u d woken (by simpa [State.clientAt,isC] using asleep)

theorem waking_joinLoop (waking : Waking σ) {wants : Bool} (s : Flags) (awake : ∀ u, ¬ Asleep u (σ.client c)) :
    Waking (joinLoop σ c t wants s) := by
  have effect := joinLoop_effect σ c t wants s
  have sleepers : (joinLoop σ c t wants s).sleepers = σ.sleepers := by
    unfold joinLoop
    split
    · rfl
    · split <;> rfl
  refine waking.clientAt sleepers effect.others awake (fun u => ?_) effect.startup
  unfold joinLoop
  split
  · simp [State.leave,State.clientAt,Asleep]
  · split <;> simp [State.leave,State.clientAt,Asleep]

theorem waking_join (waking : Waking σ) (inf : Informed σ) {wants : Bool} {pc : JoinPc}
    (here : σ.client c = .join t wants pc) : Waking (mythreadJoin σ c t wants pc) := by
  have awake : pc ≠ .asleep → ∀ u, ¬ Asleep u (σ.client c) := by
    intro other u
    rw [here]
    cases pc <;> first | exact id | exact absurd rfl other
  have goes : ∀ {τ : State} {now : ClientPc}, τ.sleepers = σ.sleepers → τ.client = σ.client → τ.startup = σ.startup →
      pc ≠ .asleep → (∀ u, ¬ Asleep u now) → Waking (τ.clientAt c now) := by
    intro τ now sleepers clients startups other after
    refine waking.clientAt (c := c) sleepers (fun d isD => ?_) (awake other) (fun u => ?_) startups
    · rw [← clients]
      exact Function.update_of_ne isD ..
    · simpa [State.clientAt] using after u
  have leaves : ∀ {τ : State} {result : Result}, τ.sleepers = σ.sleepers → τ.client = σ.client →
      τ.startup = σ.startup → pc ≠ .asleep → Waking (τ.leave c (.join t wants) result) := by
    intro τ result sleepers clients startups other
    have idle : Waking (τ.clientAt c .idle) := goes sleepers clients startups other fun _ => id
    exact idle.congr rfl (fun _ _ => .rfl) fun _ => id
  cases pc with
  | loadState => exact waking_joinLoop waking _ (awake (by simp))
  | compareExchange s =>
    rw [mythreadJoin]
    split
    · exact goes rfl rfl rfl (by simp) fun _ => id
    · exact waking_joinLoop waking _ (awake (by simp))
  | loadFinished =>
    rw [mythreadJoin]
    split
    · split <;> exact goes rfl rfl rfl (by simp) fun _ => id
    · exact goes rfl rfl rfl (by simp) fun _ => id
  | futexWait =>
    rw [mythreadJoin]
    split
    · exact goes rfl rfl rfl (by simp) fun _ => id
    · exact waking.sleep inf (awake (by simp)) ‹_›
  | asleep => exact waking.wake c
  | loadRetval => exact goes rfl rfl rfl (by simp) fun _ => id
  | orReaped stored =>
    simp only [mythreadJoin]
    split
    · exact leaves rfl rfl rfl (by simp)
    · exact goes rfl rfl rfl (by simp) fun _ => id
  | destroyStack stored => exact goes rfl rfl rfl (by simp) fun _ => id
  | free stored => exact leaves rfl rfl rfl (by simp)

/-! ### The wake -/

/-- The one sleeper that `futex_wake` reaches is the only one there is. -/
theorem no_sleeper_of_wake (waking : Waking σ) (single : Single σ) (pick : Nat) (d : Nat) :
    ¬ Asleep t ((σ.futexWake t pick).client d) := by
  intro asleep
  unfold State.futexWake at asleep
  split at asleep
  · rename_i none
    have member := (waking.sleepers t d).mpr asleep
    have inside := Nat.mod_lt pick (List.length_pos_of_mem member)
    rw [List.getElem?_eq_getElem inside] at none
    cases none
  · rename_i c picked
    have sleeps : Asleep t (σ.client c) := (waking.sleepers t c).mp (List.mem_of_getElem? picked)
    have slept : Asleep t (σ.client d) := by
      rcases wake_client σ c d with same | ⟨u,wants,_,now⟩
      · exact same ▸ asleep
      · rw [now] at asleep; exact asleep.elim
    obtain rfl := single.winner t c d (won_of_asleep sleeps) (won_of_asleep slept)
    cases here : σ.client c with
    | join u wants pc =>
      rw [here] at sleeps
      cases pc <;> first | exact sleeps.elim | skip
      simp [State.wake,here,State.clientAt,Asleep] at asleep
    | idle => rw [here] at sleeps; exact sleeps
    | detach u pc => rw [here] at sleeps; exact sleeps

theorem waking_startup (waking : Waking σ) (single : Single σ) {choice : Choice}
    (done : threadStartup σ t choice = some σ') : Waking σ' := by
  have goes : ∀ {τ : State} {pc : StartupPc}, Waking τ → τ.startup = σ.startup →
      (HasWoken pc → ∀ d, ¬ Asleep t (τ.client d)) → Waking (τ.startupAt t pc) := by
    intro τ pc kept startups woken
    refine ⟨kept.sleepers,kept.nodup,fun u d => ?_⟩
    show HasWoken (Function.update τ.startup t pc u) → _
    by_cases isT : u = t
    · subst isT
      rw [Function.update_self]
      intro past
      exact woken past d
    · rw [Function.update_of_ne isT]
      exact kept.woken u d
  have same : ∀ {τ : State}, τ.sleepers = σ.sleepers → τ.client = σ.client → τ.startup = σ.startup → Waking τ :=
    fun sleepers clients startups =>
      waking.congr sleepers (fun _ _ => by rw [clients]) fun _ => by rw [startups]; exact id
  have already : HasWoken (σ.startup t) → ∀ d, ¬ Asleep t (σ.client d) := fun past d => waking.woken t d past
  cases here : σ.startup t <;> rw [here] at already <;> simp only [threadStartup,here] at done <;> try split at done
  case enqueueing =>
    obtain ⟨queue,_,rfl⟩ := Option.map_eq_some_iff.mp done
    split
    · exact goes (same rfl rfl rfl) rfl already
    · exact same rfl rfl rfl
  all_goals cases done
  case storeRetval retval => exact goes (same rfl rfl rfl) rfl False.elim
  case storeFinished => exact goes (same rfl rfl rfl) rfl False.elim
  case futexWake =>
    refine goes ?_ ?_ fun _ => no_sleeper_of_wake waking single choice.pick
    · rcases futexWake_cases σ t choice.pick with unchanged | ⟨c,woken⟩
      · exact unchanged.symm ▸ waking
      · rw [woken]
        exact waking.wake c
    · rcases futexWake_cases σ t choice.pick with unchanged | ⟨c,woken⟩
      · rw [unchanged]
      · rw [woken]
        exact (wake_frame σ c).2.1
  all_goals exact goes (same rfl rfl rfl) rfl already

theorem waking_step {a : Act} (waking : Waking σ) (owned : Owned σ) (done : step σ a = some σ') : Waking σ' := by
  cases step_cases done with
  | finish t retval running =>
    refine waking.congr rfl (fun _ _ => .rfl) fun u => ?_
    show HasWoken (Function.update σ.startup t _ u) → _
    by_cases isT : u = t
    · rw [isT,Function.update_self]; exact False.elim
    · rw [Function.update_of_ne isT]; exact id
  | startup done => exact waking_startup waking owned.single done
  | call c call top =>
    refine waking.clientAt (c := c) rfl (fun d other => ?_) (fun u => ?_) (fun u => ?_) rfl
    · exact Function.update_of_ne other ..
    · rw [top]; exact id
    · show ¬ Asleep u (Function.update σ.client c (entry call) c)
      rw [Function.update_self]
      cases call <;> exact id
  | join env here => exact waking_join waking owned.informed here
  | detach here done => exact waking_detach waking here done
  | reaper done =>
    have effect := reaperMain_effect done
    exact waking.congr (reaperMain_sleepers done) (fun _ _ => by rw [effect.client]) fun _ => by
      rw [effect.startup]; exact id

theorem start_waking : Waking start := ⟨fun _ _ => ⟨nofun,False.elim⟩,fun _ => List.nodup_nil,fun _ _ => False.elim⟩

/-- In no reachable state a joiner sleeps on a thread that has executed its
    `futex_wake`. -/
theorem no_sleeper_after_wake {acts : List Act} (ran : Transition.run step start acts = some σ)
    (woken : HasWoken (σ.startup t)) (c : Nat) : ¬ Asleep t (σ.client c) := by
  have kept := Transition.run_invariant (P := fun σ => Owned σ ∧ Waking σ)
    (fun _ _ _ both done => ⟨owned_step both.1 done,waking_step both.2 both.1 done⟩) ran ⟨start_owned,start_waking⟩
  exact kept.2.woken t c woken

/-- A joiner sleeps on the thread 0 when it finishes and wakes it. -/
def wokenJoiner : List Act :=
  .call 1 (.join 0 true) :: List.replicate 4 (.client 1 ⟨none,false⟩) ++ .finish 0 7 ::
    List.replicate 3 (.startup 0 ⟨⟨none,false⟩,0⟩)

example : (after (wokenJoiner.take 5)).sleepers 0 = [1] := by decide

theorem no_sleeper_after_wake_joiner : ¬ Asleep 0 ((after wokenJoiner).client 1) := by
  have ran : Transition.run step start wokenJoiner = some (after wokenJoiner) := rfl
  have woken : (after wokenJoiner).startup 0 = .loadState := by decide
  exact no_sleeper_after_wake ran (by rw [woken]; trivial) 1

end Os5Sem.ThreadWake

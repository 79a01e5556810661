import Os5Sem.ThreadHandOver

/-!
How long a thread's stack and block live. The bit `finished` is set in the middle
of the end of `thread_startup`, so that a joiner or the reaper can release the
stack and the block while the thread still has steps to make
(`joiner_overtakes`, `reaper_overtakes`). A run is free of that exactly when no
release overtakes the thread, nor a detach that has not looked at `finished` yet.
-/
namespace Os5Sem.ThreadLifetime
open Os5Sem.MyThread Os5Sem.ThreadSteps Os5Sem.ThreadFacts Os5Sem.ThreadQueue Os5Sem.ThreadOwnership
open Os5Sem.ThreadCalls Os5Sem.ThreadHandOver
open Os5Sem.Transition (Along Throughout)
open Os5Sem.ReapQueue (Env)
open Os5Sem.ReapInvariant (visiting)

variable {σ σ' : State}

/-! ### Releases -/

/-- The step is the one with which a joiner or the reaper releases a part of the
    thread. -/
def Releases (last : Option Nat → JoinPc) (visit : VisitPc) (t : Nat) (σ : State) : Releaser → Act → Prop
  | .reaper, .reaper _ => visiting σ.queue.reaper = some t ∧ σ.visit = visit
  | .joiner c, .client d _ => d = c ∧ ∃ wants stored, σ.client c = .join t wants (last stored)
  | _, _ => False

/-- The step unmaps the stack of the thread. -/
def Unmaps : Nat → State → Releaser → Act → Prop := Releases .destroyStack .munmap

/-- The step frees the block of the thread. -/
def Frees : Nat → State → Releaser → Act → Prop := Releases .free .free

/-- The thread stands between its store of `finished` and its exit. -/
def Epilogue : StartupPc → Prop
  | .futexWake | .loadState | .orQueued | .startReaper | .callEnqueue | .enqueueing | .exit => True
  | _ => False

theorem exited_of_finished (inf : Informed σ) {t : Nat} (finished : σ.finished t = true)
    (late : ¬ Epilogue (σ.startup t)) : σ.startup t = .exited := by
  have knows := inf.startups t
  cases here : σ.startup t <;> rw [here] at knows late
  case running => exact absurd (knows.1.symm.trans finished) (by simp)
  case storeRetval => exact absurd (knows.1.symm.trans finished) (by simp)
  case storeFinished => exact absurd (knows.1.symm.trans finished) (by simp)
  all_goals exact absurd trivial late

theorem exited_step {t : Nat} {a : Act} (exited : σ.startup t = .exited) (done : step σ a = some σ') :
    σ'.startup t = .exited := by
  cases step_cases done with
  | finish u retval running =>
    have other : t ≠ u := fun same => by rw [same,running] at exited; cases exited
    simpa [State.startupAt,other] using exited
  | @startup u choice _ done =>
    have other : t ≠ u := fun same => by simp [threadStartup,← same,exited] at done
    exact ((threadStartup_effect done).others t other).trans exited
  | call c call => exact exited
  | join env here =>
    rw [(mythreadJoin_effect here).startup]
    exact exited
  | detach here done =>
    rw [(mythreadDetach_effect here done).startup]
    exact exited
  | reaper done =>
    rw [(reaperMain_effect done).startup]
    exact exited

/-- What one releaser adds to the releases of one kind. -/
theorem mem_update_append {releases : Nat → List Releaser} {t u : Nat} {r q : Releaser} :
    r ∈ Function.update releases u (releases u ++ [q]) t ↔ r ∈ releases t ∨ u = t ∧ r = q := by
  by_cases isT : t = u
  · subst isT; simp
  · simp [isT,Ne.symm isT]

variable {t : Nat} {r : Releaser} {releases releases' : Nat → List Releaser} {last : Option Nat →
  JoinPc} {visit : VisitPc}

theorem join_releases {c u : Nat} {wants : Bool} {pc : JoinPc} {env : Env} (here : σ.client c = .join u wants pc)
    (kept : (∀ stored, pc ≠ last stored) → releases' = releases)
    (added : ∀ stored, pc = last stored → releases' = Function.update releases u (releases u ++ [.joiner c])) :
    r ∈ releases' t ↔ r ∈ releases t ∨ Releases last visit t σ r (.client c env) := by
  by_cases now : ∃ stored, pc = last stored
  · obtain ⟨stored,isLast⟩ := now
    rw [added stored isLast,mem_update_append]
    apply or_congr .rfl
    cases r with
    | reaper => simp [Releases]
    | joiner d =>
      constructor
      · rintro ⟨rfl,same⟩
        cases same
        exact ⟨rfl,wants,stored,isLast ▸ here⟩
      · rintro ⟨rfl,w,st,is⟩
        cases here.symm.trans is
        exact ⟨rfl,rfl⟩
  · rw [kept fun stored is => now ⟨stored,is⟩,or_iff_left]
    cases r with
    | reaper => exact id
    | joiner d =>
      rintro ⟨rfl,w,st,is⟩
      cases here.symm.trans is
      exact now ⟨st,rfl⟩

theorem reaper_releases {env : Env}
    (kept : (∀ u, visiting σ.queue.reaper = some u → σ.visit ≠ visit) → releases' = releases)
    (added : ∀ u, visiting σ.queue.reaper = some u → σ.visit = visit →
      releases' = Function.update releases u (releases u ++ [.reaper])) :
    r ∈ releases' t ↔ r ∈ releases t ∨ Releases last visit t σ r (.reaper env) := by
  by_cases now : ∃ u, visiting σ.queue.reaper = some u ∧ σ.visit = visit
  · obtain ⟨u,visits,isLast⟩ := now
    rw [added u visits isLast,mem_update_append]
    apply or_congr .rfl
    cases r with
    | reaper => simp [Releases,visits,isLast]
    | joiner d => simp [Releases]
  · rw [kept fun u visits is => now ⟨u,visits,is⟩,or_iff_left]
    cases r with
    | reaper => exact fun is => now ⟨t,is⟩
    | joiner d => exact id

theorem reaperMain_releases {env : Env} (done : reaperMain σ env = some σ') :
    (r ∈ σ'.unmapped t ↔ r ∈ σ.unmapped t ∨ Unmaps t σ r (.reaper env)) ∧
      (r ∈ σ'.freed t ↔ r ∈ σ.freed t ∨ Frees t σ r (.reaper env)) := by
  unfold MyThread.reaperMain at done
  split at done
  · rename_i u _ _ _ here
    have visits : visiting σ.queue.reaper = some u := by rw [here]; rfl
    have onlyU : ∀ v, visiting σ.queue.reaper = some v → u = v := fun v is => Option.some.inj (visits.symm.trans is)
    split at done
    · rename_i now
      have same : σ'.unmapped = σ.unmapped ∧ σ'.freed = σ.freed := by
        simp only at done
        split at done
        · obtain ⟨queue,_,rfl⟩ := Option.map_eq_some_iff.mp done
          exact ⟨rfl,rfl⟩
        · cases done
          exact ⟨rfl,rfl⟩
      exact ⟨reaper_releases (fun _ => same.1) (by simp [now]),reaper_releases (fun _ => same.2) (by simp [now])⟩
    · rename_i now
      cases done
      refine ⟨reaper_releases (fun other => absurd now (other u visits)) fun v is _ => onlyU v is ▸ rfl,?_⟩
      exact reaper_releases (fun _ => rfl) (by simp [now])
    · rename_i now
      obtain ⟨queue,_,rfl⟩ := Option.map_eq_some_iff.mp done
      refine ⟨reaper_releases (fun _ => rfl) (by simp [now]),?_⟩
      exact reaper_releases (fun other => absurd now (other u visits)) fun v is _ => onlyU v is ▸ rfl
  · rename_i noVisit
    obtain ⟨queue,_,rfl⟩ := Option.map_eq_some_iff.mp done
    have nobody : ∀ v, visiting σ.queue.reaper ≠ some v := by
      intro v is
      cases here : σ.queue.reaper <;> rw [here] at is <;> first | exact noVisit _ _ _ _ here | cases is
    exact ⟨reaper_releases (fun _ => rfl) fun v is => absurd is (nobody v),
      reaper_releases (fun _ => rfl) fun v is => absurd is (nobody v)⟩

/-- Exactly these steps release something. -/
theorem step_releases {a : Act} (done : step σ a = some σ') :
    (r ∈ σ'.unmapped t ↔ r ∈ σ.unmapped t ∨ Unmaps t σ r a) ∧ (r ∈ σ'.freed t ↔ r ∈ σ.freed t ∨ Frees t σ r a) := by
  have kept : σ'.unmapped = σ.unmapped → σ'.freed = σ.freed → ¬ Unmaps t σ r a → ¬ Frees t σ r a →
      (r ∈ σ'.unmapped t ↔ r ∈ σ.unmapped t ∨ Unmaps t σ r a) ∧ (r ∈ σ'.freed t ↔ r ∈ σ.freed t ∨ Frees t σ r a) := by
    intro unmapped freed noUnmap noFree
    rw [unmapped,freed]
    exact ⟨(or_iff_left noUnmap).symm,(or_iff_left noFree).symm⟩
  cases step_cases done with
  | finish u retval => cases r <;> exact kept rfl rfl id id
  | startup done =>
    have effect := threadStartup_effect done
    cases r <;> exact kept effect.unmapped effect.freed id id
  | call c call => cases r <;> exact kept rfl rfl id id
  | join env here =>
    refine ⟨join_releases here mythreadJoin_releases.1 fun stored is => ?_,
      join_releases here mythreadJoin_releases.2 fun stored is => ?_⟩
    · rw [is]; rfl
    · rw [is]; rfl
  | @detach c u pc env _ here done =>
    have effect := mythreadDetach_effect here done
    cases r with
    | reaper => exact kept effect.unmapped effect.freed id id
    | joiner d =>
      have notJoin : ∀ last visit, ¬ Releases last visit t σ (.joiner d) (.client c env) := by
        rintro last visit ⟨rfl,wants,stored,is⟩
        cases here.symm.trans is
      exact kept effect.unmapped effect.freed (notJoin _ _) (notJoin _ _)
  | reaper done => exact reaperMain_releases done

/-- Every release is one that the ownership of the thread allows. -/
theorem finished_of_unmaps (owned : Owned σ) {a : Act} (unmaps : Unmaps t σ r a) : σ.finished t = true := by
  cases r with
  | reaper =>
    cases a <;> first | exact unmaps.elim | exact (detached_of_visiting owned.informed owned.handed unmaps.1).2
  | joiner c =>
    cases a <;> try exact unmaps.elim
    obtain ⟨_,wants,stored,here⟩ := unmaps
    have knows := owned.informed.clients c
    rw [here] at knows
    exact knows.2.1

/-- A part of the thread's block is released only after its stack. -/
theorem unmapped_of_frees (owned : Owned σ) {a : Act} (frees : Frees t σ r a) : r ∈ σ.unmapped t := by
  cases r with
  | reaper =>
    cases a <;> try exact frees.elim
    simp [(owned.released.reaperFrees t frees.1 frees.2).2.1]
  | joiner c =>
    cases a <;> try exact frees.elim
    obtain ⟨_,wants,stored,here⟩ := frees
    simp [(owned.released.joinerFrees t c wants stored here).1]

theorem unmapped_of_freed (owned : Owned σ) (freed : r ∈ σ.freed t) : r ∈ σ.unmapped t := by
  rcases owned.released.settled t with ⟨_,none⟩ | ⟨q,_,unmapped,none | some⟩
  · rw [none] at freed; cases freed
  · rw [none] at freed; cases freed
  · rw [unmapped]; exact some ▸ freed

/-- A release does not let the thread go on. -/
theorem startup_of_unmaps {a : Act} (unmaps : Unmaps t σ r a) (done : step σ a = some σ') :
    σ'.startup = σ.startup := by
  cases a with
  | client c env =>
    cases r with
    | reaper => exact unmaps.elim
    | joiner d =>
      obtain ⟨rfl,wants,stored,here⟩ := unmaps
      simp only [step,here] at done
      cases done
      exact (mythreadJoin_effect here).startup
  | reaper env => exact (reaperMain_effect done).startup
  | _ => cases r <;> exact unmaps.elim

/-! ### Joined threads -/

/-- Once a joiner has released a part of the thread, the thread has made its exit:
    it makes no more steps, neither on the stack nor with the block. -/
def JoinOutlived (t : Nat) (σ : State) : Prop :=
  ∀ c, .joiner c ∈ σ.unmapped t ++ σ.freed t → σ.startup t = .exited

/-- A joiner unmaps the stack of a thread that is still in its epilogue. -/
def JoinerOvertakes (t : Nat) (σ : State) (a : Act) : Prop := (∃ c, Unmaps t σ (.joiner c) a) ∧ Epilogue (σ.startup t)

theorem not_exited_of_epilogue (late : Epilogue (σ.startup t)) : σ.startup t ≠ .exited := by
  intro exited
  rw [exited] at late
  exact late

theorem joinOutlived_step {a : Act} (owned : Owned σ) (outlived : JoinOutlived t σ) (done : step σ a = some σ') :
    JoinOutlived t σ' ↔ ¬ JoinerOvertakes t σ a := by
  constructor
  · rintro after ⟨⟨c,unmaps⟩,late⟩
    have released : .joiner c ∈ σ'.unmapped t := (step_releases done).1.mpr (.inr unmaps)
    apply not_exited_of_epilogue late
    rw [← startup_of_unmaps unmaps done]
    exact after c (List.mem_append_left _ released)
  · intro behind c released
    refine exited_step (t := t) ?_ done
    rcases List.mem_append.mp released with unmapped | freed
    · rcases (step_releases done).1.mp unmapped with before | now
      · exact outlived c (List.mem_append_left _ before)
      · exact exited_of_finished owned.informed (finished_of_unmaps owned now) fun late => behind ⟨⟨c,now⟩,late⟩
    · rcases (step_releases done).2.mp freed with before | now
      · exact outlived c (List.mem_append_right _ before)
      · exact outlived c (List.mem_append_left _ (unmapped_of_frees owned now))

/-- A run keeps the stack and the block of a joined thread as long as the thread
    needs them exactly when no joiner unmaps the stack of a thread that is still in
    its epilogue. -/
theorem join_outlived_iff {acts : List Act} (ran : Transition.run step start acts = some σ) (t : Nat) :
    Throughout step (JoinOutlived t) start acts ↔ Along step (fun σ a => ¬ JoinerOvertakes t σ a) start acts :=
  Transition.throughout_iff_along (I := Owned) (Q := fun _ => True) (fun _ _ _ owned done => owned_step owned done)
    (fun _ _ _ _ _ => trivial) (fun _ _ _ owned outlived _ done =>
      joinOutlived_step owned outlived done) ran start_owned
    trivial fun c released => by simp [start] at released

/-- The thread 0 finishes; a join sees that and releases the thread, which has yet
    to wake the joiner and to load `state`. -/
def joinerAhead : List Act :=
  let go : Env := ⟨none,false⟩
  let thread := List.replicate 2 (.startup 0 ⟨go,0⟩)
  let join := List.replicate 6 (.client 1 go)
  .finish 0 7 :: thread ++ .call 1 (.join 0 false) :: join ++ [.startup 0 ⟨go,0⟩]

theorem joiner_overtakes : callsOn 0 (after joinerAhead) = [(1,.join 0 false)] ∧
    .joiner 1 ∈ (after joinerAhead).freed 0 ∧ (after joinerAhead).startup 0 = .loadState ∧
    ¬ Throughout step (JoinOutlived 0) start joinerAhead := by
  refine ⟨by decide,by decide,by decide,fun holds => ?_⟩
  have exited := holds joinerAhead [] (after joinerAhead) (List.append_nil _).symm rfl 1 (by decide)
  exact absurd exited (by decide)

theorem join_outlived_iff_ahead : Throughout step (JoinOutlived 0) start joinerAhead ↔
    Along step (fun σ a => ¬ JoinerOvertakes 0 σ a) start joinerAhead :=
  join_outlived_iff (rfl : Transition.run step start joinerAhead = some (after joinerAhead)) 0

/-! ### Detached threads -/

/-- The step of `thread_startup` reads or writes a field of the block, or passes
    its address to the kernel. -/
def StartupTouches : StartupPc → Prop
  | .storeRetval _ | .storeFinished | .futexWake | .loadState | .orQueued => True
  | _ => False

/-- The step of `mythread_detach` reads or writes a field of the block. -/
def DetachTouches (t : Nat) : ClientPc → Prop
  | .detach u .loadState | .detach u (.compareExchange _) | .detach u .loadFinished | .detach u .orQueued => u = t
  | _ => False

/-- Once the reaper has unmapped the stack, the thread has made its exit, and once
    it has freed the block, nobody is going to touch it. -/
structure DetachOutlived (t : Nat) (σ : State) : Prop where
  stack : .reaper ∈ σ.unmapped t → σ.startup t = .exited
  block : .reaper ∈ σ.freed t → ¬ StartupTouches (σ.startup t) ∧ ∀ c, ¬ DetachTouches t (σ.client c)

/-- The reaper unmaps the stack of a thread that is still in its epilogue, or
    frees its block while a detacher is going to look at `finished`. -/
def ReaperOvertakes (t : Nat) (σ : State) (a : Act) : Prop :=
  Unmaps t σ .reaper a ∧ Epilogue (σ.startup t) ∨ Frees t σ .reaper a ∧ ∃ c, Looks t (σ.client c)

theorem detachTouches_iff {pc : ClientPc} : DetachTouches t pc ↔ Undecided t pc ∨ Looks t pc := by
  cases pc with
  | detach u pc => cases pc <;> simp [DetachTouches,Undecided,Looks]
  | _ => simp [DetachTouches,Undecided,Looks]

theorem callOf_of_touches {pc : ClientPc} (touches : DetachTouches t pc) : callOf pc = some (.detach t) := by
  cases pc with
  | detach u pc => cases pc <;> first | exact touches.elim | exact congrArg (fun u => some (Call.detach u)) touches
  | _ => exact touches.elim

/-- A detach that is going to touch the block already was before its step. -/
theorem mythreadDetach_touches {c u : Nat} {env : Env} {pc : DetachPc} (here : σ.client c = .detach u pc)
    (done : mythreadDetach σ c u env pc = some σ') (touches : DetachTouches t (σ'.client c)) :
    DetachTouches t (σ.client c) := by
  have same : u = t := by
    rcases (mythreadDetach_effect here done).own with idle | ⟨pc',now⟩
    · rw [idle] at touches; exact touches.elim
    · rw [now] at touches; exact (Call.detach.inj (Option.some.inj (callOf_of_touches touches)))
  cases pc with
  | loadState => rw [here]; exact same
  | compareExchange s => rw [here]; exact same
  | loadFinished => rw [here]; exact same
  | orQueued => rw [here]; exact same
  | startReaper => cases done; simp [State.clientAt,DetachTouches] at touches
  | callEnqueue => cases done; simp [State.clientAt,DetachTouches] at touches
  | enqueueing =>
    obtain ⟨queue,_,rfl⟩ := Option.map_eq_some_iff.mp done
    split at touches
    · simp [State.leave,State.clientAt,DetachTouches] at touches
    · exact touches

/-- A client that is going to touch the block already was, unless it makes a call. -/
theorem touches_step {a : Act} {c : Nat} (done : step σ a = some σ') (touches : DetachTouches t (σ'.client c)) :
    DetachTouches t (σ.client c) ∨ a = .call c (.detach t) := by
  cases step_cases done with
  | finish u retval => exact .inl touches
  | startup done =>
    rcases (threadStartup_effect done).clients c with same | ⟨v,wants,_,now⟩
    · exact .inl (same ▸ touches)
    · rw [now] at touches; exact touches.elim
  | call d call =>
    by_cases isD : c = d
    · subst isD
      right
      simp only [State.clientAt,Function.update_self] at touches
      cases call with
      | join u wants => exact touches.elim
      | detach u => exact congrArg (fun u => Act.call c (.detach u)) touches
    · exact .inl (by simpa [State.clientAt,isD] using touches)
  | @join d u wants pc env here =>
    have effect := mythreadJoin_effect here
    by_cases isD : c = d
    · subst isD
      rcases effect.own with idle | ⟨pc',now⟩
      · rw [idle] at touches; exact touches.elim
      · rw [now] at touches; exact touches.elim
    · exact .inl (effect.others c isD ▸ touches)
  | @detach d u pc env _ here done =>
    by_cases isD : c = d
    · subst isD
      exact .inl (mythreadDetach_touches here done touches)
    · exact .inl ((mythreadDetach_effect here done).others c isD ▸ touches)
  | reaper done => exact .inl ((reaperMain_effect done).client ▸ touches)

theorem detachOutlived_step {a : Act} {c : Nat} (owned : Owned σ) (called : Called σ) (outlived : DetachOutlived t σ)
    (single : callsOn t σ' <+: [(c,.detach t)]) (done : step σ a = some σ') :
    DetachOutlived t σ' ↔ ¬ ReaperOvertakes t σ a := by
  have inf := owned.informed
  constructor
  · rintro after (⟨unmaps,late⟩ | ⟨frees,d,looks⟩)
    · apply not_exited_of_epilogue late
      rw [← startup_of_unmaps unmaps done]
      exact after.stack ((step_releases done).1.mpr (.inr unmaps))
    · have still : σ'.client d = σ.client d := by
        cases a <;> first | exact frees.elim | exact congrFun (reaperMain_effect done).client d
      refine (after.block ((step_releases done).2.mpr (.inr frees))).2 d ?_
      rw [still]
      exact detachTouches_iff.mpr (.inr looks)
  · intro behind
    have exited : .reaper ∈ σ'.unmapped t → σ.startup t = .exited := by
      intro unmapped
      rcases (step_releases done).1.mp unmapped with before | now
      · exact outlived.stack before
      · exact exited_of_finished inf (finished_of_unmaps owned now) fun late => behind (.inl ⟨now,late⟩)
    refine ⟨fun unmapped => exited_step (exited unmapped) done,fun freed => ?_⟩
    have unmapped : .reaper ∈ σ.unmapped t := by
      rcases (step_releases done).2.mp freed with before | now
      · exact unmapped_of_freed owned before
      · exact unmapped_of_frees owned now
    have detached : (σ.flags t).detached = true :=
      (owned.released.rightful (List.mem_append_left _ unmapped)).1
    -- The call that has detached the thread is the only one on it.
    obtain ⟨e,member⟩ := called.detached t detached
    have made : callsOn t σ = [(c,.detach t)] := by
      have first := callsOn_back done single
      have some : (e,.detach t) ∈ callsOn t σ := mem_callsOn.mpr ⟨member,rfl⟩
      cases calls : callsOn t σ with
      | nil => rw [calls] at some; cases some
      | cons x rest =>
        rw [calls,List.cons_prefix_cons,List.prefix_nil] at first
        rw [first.1,first.2]
    refine ⟨?_,fun d touches => ?_⟩
    · rw [exited_step (outlived.stack unmapped) done]; exact id
    · rcases touches_step done touches with touched | rfl
      · rcases detachTouches_iff.mp touched with undecided | looks
        · have alone := called.alone made (callOf_of_undecided undecided) rfl
          rw [called.undecided t d (alone.1 ▸ made) undecided] at detached
          cases detached
        · rcases (step_releases done).2.mp freed with before | now
          · exact (outlived.block before).2 d touched
          · exact behind (.inr ⟨now,d,looks⟩)
      · -- That would be a second call on the thread.
        have length := single.length_le
        rw [callsOn,calls_step done,List.filter_append,← callsOn,made] at length
        simp [callMade,Call.thread] at length

/-- A run in which the only call on a thread is one detach keeps the stack and the
    block as long as the thread and the detach need them exactly when the reaper
    does not overtake them. -/
theorem detach_outlived_iff {acts : List Act} (ran : Transition.run step start acts = some σ) {t c : Nat}
    (single : callsOn t σ = [(c,.detach t)]) :
    Throughout step (DetachOutlived t) start acts ↔ Along step (fun σ a => ¬ ReaperOvertakes t σ a) start acts :=
  Transition.throughout_iff_along (I := fun σ => Owned σ ∧ Called σ) (Q := fun σ => callsOn t σ <+: [(c,.detach t)])
    (fun _ _ _ inv done => ⟨owned_step inv.1 done,called_step inv.2 done⟩)
    (fun _ _ _ done upTo => callsOn_back done upTo)
    (fun _ _ _ inv outlived upTo done => detachOutlived_step inv.1 inv.2 outlived upTo done) ran
    ⟨start_owned,start_called⟩ (single ▸ List.prefix_rfl) ⟨nofun,nofun⟩

/-- The thread 0 finishes; a detach sees that and hands the thread over to the
    reaper, which releases it while the thread has yet to load `state`. -/
def reaperAhead : List Act :=
  let go : Env := ⟨none,false⟩
  let thread := List.replicate 2 (.startup 0 ⟨go,0⟩)
  let detach := List.replicate 6 (.client 1 go)
  let enqueue := List.replicate 9 (.client 1 ⟨some 0,false⟩)
  let reap := List.replicate 11 (.reaper go)
  .finish 0 7 :: thread ++ .call 1 (.detach 0) :: detach ++ enqueue ++ reap ++ [.startup 0 ⟨go,0⟩]

theorem reaper_overtakes : callsOn 0 (after reaperAhead) = [(1,.detach 0)] ∧
    .reaper ∈ (after reaperAhead).freed 0 ∧ (after reaperAhead).startup 0 = .loadState ∧
    ¬ Throughout step (DetachOutlived 0) start reaperAhead := by
  refine ⟨by decide,by decide,by decide,fun holds => ?_⟩
  have outlived := holds reaperAhead [] (after reaperAhead) (List.append_nil _).symm rfl
  exact absurd (outlived.stack (by decide)) (by decide)

theorem detach_outlived_iff_ahead : Throughout step (DetachOutlived 0) start reaperAhead ↔
    Along step (fun σ a => ¬ ReaperOvertakes 0 σ a) start reaperAhead :=
  detach_outlived_iff (rfl : Transition.run step start reaperAhead = some (after reaperAhead)) (c := 1) (by decide)

end Os5Sem.ThreadLifetime

import Os5Sem.MyThread
import Os5Sem.ReapInvariant

/-!
What the steps of each party leave alone, and where they can lead: one lemma for
each party, used by all invariants of the whole program.
-/
namespace Os5Sem.ThreadSteps
open Os5Sem.MyThread
open Os5Sem.ReapInvariant (visiting)
open Os5Sem.ReapQueue (Env)

variable {σ σ' : State}

/-! ### Parts of steps -/

/-- Every bit that is set in the first word is set in the second. -/
structure Subset (f g : Flags) : Prop where
  detached : f.detached = true → g.detached = true
  joined : f.joined = true → g.joined = true
  reaped : f.reaped = true → g.reaped = true
  queued : f.queued = true → g.queued = true

theorem subset_refl (f : Flags) : Subset f f := ⟨id,id,id,id⟩

theorem Subset.trans {f g h : Flags} (one : Subset f g) (two : Subset g h) : Subset f h :=
  ⟨two.detached ∘ one.detached,two.joined ∘ one.joined,two.reaped ∘ one.reaped,two.queued ∘ one.queued⟩

theorem setFlags_flags (σ : State) (t u : Nat) (f : Flags) :
    (σ.setFlags t f).flags u = if u = t then f else σ.flags u := by
  by_cases isT : u = t
  · subst isT; simp [State.setFlags,State.setBlock,State.flags]
  · simp [State.setFlags,State.setBlock,State.flags,isT]

theorem setFlags_subset {t : Nat} {f : Flags} (more : Subset (σ.flags t) f) (u : Nat) :
    Subset (σ.flags u) ((σ.setFlags t f).flags u) := by
  rw [setFlags_flags]
  split
  · rename_i same; exact same ▸ more
  · exact subset_refl _

@[simp] theorem setFlags_finished (σ : State) (t u : Nat) (f : Flags) :
    (σ.setFlags t f).finished u = σ.finished u := by
  by_cases isT : u = t
  · subst isT; simp [State.setFlags,State.setBlock,State.finished]
  · simp [State.setFlags,State.setBlock,State.finished,isT]

theorem setBlock_flags (σ : State) {t : Nat} {block : Block} (same : block.state = σ.flags t) (u : Nat) :
    (σ.setBlock t block).flags u = σ.flags u := by
  by_cases isT : u = t
  · subst isT; simpa [State.flags,State.setBlock] using same
  · simp [State.flags,State.setBlock,isT]

/-- A wake changes at most where one joiner is, and the list of sleepers. -/
theorem futexWake_cases (σ : State) (t pick : Nat) : σ.futexWake t pick = σ ∨ ∃ c, σ.futexWake t pick = σ.wake c := by
  unfold State.futexWake
  split
  · exact .inl rfl
  · exact .inr ⟨_,rfl⟩

theorem wake_frame (σ : State) (c : Nat) : (σ.wake c).block = σ.block ∧ (σ.wake c).startup = σ.startup ∧
    (σ.wake c).returned = σ.returned ∧ (σ.wake c).queue = σ.queue ∧ (σ.wake c).visit = σ.visit ∧
    (σ.wake c).unmapped = σ.unmapped ∧ (σ.wake c).freed = σ.freed ∧ (σ.wake c).returns = σ.returns ∧
    (σ.wake c).calls = σ.calls := by
  unfold State.wake
  split <;> exact ⟨rfl,rfl,rfl,rfl,rfl,rfl,rfl,rfl,rfl⟩

theorem wake_client (σ : State) (c d : Nat) : (σ.wake c).client d = σ.client d ∨
    ∃ t wants, σ.client d = .join t wants .asleep ∧ (σ.wake c).client d = .join t wants .loadFinished := by
  unfold State.wake
  split
  · rename_i t wants here
    by_cases isC : d = c
    · subst isC; exact .inr ⟨t,wants,here,by simp [State.clientAt]⟩
    · exact .inl (by simp [State.clientAt,isC])
  · exact .inl rfl

theorem reapEnqueue_frame {queue queue' : ReapQueue.State Caller} {caller : Caller} {env : Env}
    (done : ReapQueue.reapEnqueue queue caller env = some queue') :
    queue'.entered = queue.entered ∧ ∀ t, visiting queue'.reaper = some t → visiting queue.reaper = some t := by
  obtain ⟨_,_,entered,visits,_⟩ := ReapInvariant.reapEnqueue_threads [] done
  exact ⟨entered,visits⟩

/-! ### Joins -/

/-- A step of a join by client `c`. -/
structure JoinEffect (σ σ' : State) (c t : Nat) (wants : Bool) : Prop where
  others : ∀ d, d ≠ c → σ'.client d = σ.client d
  own : σ'.client c = .idle ∨ ∃ pc, σ'.client c = .join t wants pc
  queue : σ'.queue = σ.queue
  startup : σ'.startup = σ.startup
  visit : σ'.visit = σ.visit
  calls : σ'.calls = σ.calls
  flags : ∀ u, Subset (σ.flags u) (σ'.flags u)
  detached : ∀ u, (σ'.flags u).detached = (σ.flags u).detached
  queued : ∀ u, (σ'.flags u).queued = (σ.flags u).queued
  finished : ∀ u, σ'.finished u = σ.finished u

theorem joinEffect_clientAt {c t : Nat} {wants : Bool} (pc : JoinPc) :
    JoinEffect σ (σ.clientAt c (.join t wants pc)) c t wants where
  others d other := by simp [State.clientAt,other]
  own := .inr ⟨pc,by simp [State.clientAt]⟩
  queue := rfl
  startup := rfl
  visit := rfl
  calls := rfl
  flags _ := subset_refl _
  detached _ := rfl
  queued _ := rfl
  finished _ := rfl

theorem joinEffect_leave {c t : Nat} {wants : Bool} (result : Result) :
    JoinEffect σ (σ.leave c (.join t wants) result) c t wants where
  others d other := by simp [State.leave,State.clientAt,other]
  own := .inl (by simp [State.leave,State.clientAt])
  queue := rfl
  startup := rfl
  visit := rfl
  calls := rfl
  flags _ := subset_refl _
  detached _ := rfl
  queued _ := rfl
  finished _ := rfl

/-- Before the step to `σ'` a join has set a bit of its own. -/
theorem JoinEffect.setFlags {c t : Nat} {wants : Bool} {f : Flags} (effect : JoinEffect (σ.setFlags t f) σ' c t wants)
    (more : Subset (σ.flags t) f) (detached : f.detached = (σ.flags t).detached)
    (queued : f.queued = (σ.flags t).queued) :
    JoinEffect σ σ' c t wants where
  others := effect.others
  own := effect.own
  queue := effect.queue
  startup := effect.startup
  visit := effect.visit
  calls := effect.calls
  flags u := (setFlags_subset more u).trans (effect.flags u)
  detached u := by
    rw [effect.detached,setFlags_flags]
    split
    · rename_i same; rw [same,detached]
    · rfl
  queued u := by
    rw [effect.queued,setFlags_flags]
    split
    · rename_i same; rw [same,queued]
    · rfl
  finished u := by rw [effect.finished,setFlags_finished]

theorem joinLoop_effect (σ : State) (c t : Nat) (wants : Bool) (s : Flags) :
    JoinEffect σ (joinLoop σ c t wants s) c t wants := by
  unfold joinLoop
  split
  · exact joinEffect_leave _
  · split
    · exact joinEffect_leave _
    · exact joinEffect_clientAt _

theorem mythreadJoin_effect {c t : Nat} {wants : Bool} {pc : JoinPc} (here : σ.client c = .join t wants pc) :
    JoinEffect σ (mythreadJoin σ c t wants pc) c t wants := by
  cases pc with
  | loadState => exact joinLoop_effect ..
  | compareExchange s =>
    simp only [mythreadJoin]
    split
    · rename_i same
      have set : JoinEffect (σ.setFlags t { s with joined := true }) _ c t wants := joinEffect_clientAt .loadFinished
      exact set.setFlags (same ▸ ⟨id,fun _ => rfl,id,id⟩) (by rw [same]) (by rw [same])
    · exact joinLoop_effect ..
  | loadFinished =>
    simp only [mythreadJoin]
    split
    · split <;> exact joinEffect_clientAt _
    · exact joinEffect_clientAt _
  | futexWait =>
    simp only [mythreadJoin]
    split
    · exact joinEffect_clientAt _
    · have waits : JoinEffect σ _ c t wants := joinEffect_clientAt .asleep
      exact ⟨waits.others,waits.own,rfl,rfl,rfl,rfl,fun _ => subset_refl _,fun _ => rfl,fun _ => rfl,fun _ => rfl⟩
  | asleep =>
    have woken : JoinEffect σ _ c t wants := joinEffect_clientAt .loadFinished
    simp only [mythreadJoin,State.wake,here]
    exact ⟨woken.others,woken.own,rfl,rfl,rfl,rfl,fun _ => subset_refl _,fun _ => rfl,fun _ => rfl,fun _ => rfl⟩
  | loadRetval => exact joinEffect_clientAt _
  | orReaped stored =>
    simp only [mythreadJoin]
    split
    · exact (joinEffect_leave _).setFlags ⟨id,id,fun _ => rfl,id⟩ rfl rfl
    · exact (joinEffect_clientAt _).setFlags ⟨id,id,fun _ => rfl,id⟩ rfl rfl
  | destroyStack stored =>
    have unmapped : JoinEffect (σ.unmap t (.joiner c)) _ c t wants := joinEffect_clientAt (.free stored)
    exact ⟨unmapped.others,unmapped.own,rfl,rfl,rfl,rfl,fun _ => subset_refl _,fun _ => rfl,fun _ => rfl,fun _ => rfl⟩
  | free stored =>
    have freed : JoinEffect (σ.free t (.joiner c)) _ c t wants := joinEffect_leave (.ok stored)
    exact ⟨freed.others,freed.own,rfl,rfl,rfl,rfl,fun _ => subset_refl _,fun _ => rfl,fun _ => rfl,fun _ => rfl⟩

/-- A join releases something only in its last two steps. -/
theorem mythreadJoin_releases {c t : Nat} {wants : Bool} {pc : JoinPc} :
    ((∀ stored, pc ≠ .destroyStack stored) → (mythreadJoin σ c t wants pc).unmapped = σ.unmapped) ∧
      ((∀ stored, pc ≠ .free stored) → (mythreadJoin σ c t wants pc).freed = σ.freed) := by
  have loop : ∀ s, (joinLoop σ c t wants s).unmapped = σ.unmapped ∧ (joinLoop σ c t wants s).freed = σ.freed := by
    intro s
    unfold joinLoop
    split
    · exact ⟨rfl,rfl⟩
    · split <;> exact ⟨rfl,rfl⟩
  cases pc with
  | loadState => exact ⟨fun _ => (loop _).1,fun _ => (loop _).2⟩
  | compareExchange s =>
    simp only [mythreadJoin]
    split
    · exact ⟨fun _ => rfl,fun _ => rfl⟩
    · exact ⟨fun _ => (loop _).1,fun _ => (loop _).2⟩
  | loadFinished =>
    simp only [mythreadJoin]
    split
    · split <;> exact ⟨fun _ => rfl,fun _ => rfl⟩
    · exact ⟨fun _ => rfl,fun _ => rfl⟩
  | futexWait =>
    simp only [mythreadJoin]
    split <;> exact ⟨fun _ => rfl,fun _ => rfl⟩
  | asleep =>
    obtain ⟨_,_,_,_,_,unmapped,freed,_⟩ := wake_frame σ c
    exact ⟨fun _ => unmapped,fun _ => freed⟩
  | loadRetval => exact ⟨fun _ => rfl,fun _ => rfl⟩
  | orReaped stored =>
    simp only [mythreadJoin]
    split <;> exact ⟨fun _ => rfl,fun _ => rfl⟩
  | destroyStack stored => exact ⟨fun other => absurd rfl (other stored),fun _ => rfl⟩
  | free stored => exact ⟨fun _ => rfl,fun other => absurd rfl (other stored)⟩

/-! ### Detaches -/

/-- A step of a detach by client `c`. -/
structure DetachEffect (σ σ' : State) (c t : Nat) : Prop where
  others : ∀ d, d ≠ c → σ'.client d = σ.client d
  own : σ'.client c = .idle ∨ ∃ pc, σ'.client c = .detach t pc
  startup : σ'.startup = σ.startup
  visit : σ'.visit = σ.visit
  visiting : ∀ u, visiting σ'.queue.reaper = some u → visiting σ.queue.reaper = some u
  unmapped : σ'.unmapped = σ.unmapped
  freed : σ'.freed = σ.freed
  calls : σ'.calls = σ.calls
  flags : ∀ u, Subset (σ.flags u) (σ'.flags u)
  reaped : ∀ u, (σ'.flags u).reaped = (σ.flags u).reaped
  joined : ∀ u, (σ'.flags u).joined = (σ.flags u).joined
  finished : ∀ u, σ'.finished u = σ.finished u
  returns : σ'.returns = σ.returns ∨ ∃ result, σ'.returns = σ.returns ++ [⟨c,.detach t,result⟩]

theorem detachEffect_clientAt {c t : Nat} (pc : DetachPc) : DetachEffect σ (σ.clientAt c (.detach t pc)) c t where
  others d other := by simp [State.clientAt,other]
  own := .inr ⟨pc,by simp [State.clientAt]⟩
  startup := rfl
  visit := rfl
  visiting _ := id
  unmapped := rfl
  freed := rfl
  calls := rfl
  flags _ := subset_refl _
  reaped _ := rfl
  joined _ := rfl
  finished _ := rfl
  returns := .inl rfl

theorem detachEffect_leave {c t : Nat} (result : Result) : DetachEffect σ (σ.leave c (.detach t) result) c t where
  others d other := by simp [State.leave,State.clientAt,other]
  own := .inl (by simp [State.leave,State.clientAt])
  startup := rfl
  visit := rfl
  visiting _ := id
  unmapped := rfl
  freed := rfl
  calls := rfl
  flags _ := subset_refl _
  reaped _ := rfl
  joined _ := rfl
  finished _ := rfl
  returns := .inr ⟨result,rfl⟩

/-- Before the step to `σ'` a detach has set a bit of its own. -/
theorem DetachEffect.setFlags {c t : Nat} {f : Flags} (effect : DetachEffect (σ.setFlags t f) σ' c t)
    (more : Subset (σ.flags t) f) (reaped : f.reaped = (σ.flags t).reaped) (joined : f.joined = (σ.flags t).joined) :
    DetachEffect σ σ' c t where
  others := effect.others
  own := effect.own
  startup := effect.startup
  visit := effect.visit
  visiting := effect.visiting
  unmapped := effect.unmapped
  freed := effect.freed
  calls := effect.calls
  flags u := (setFlags_subset more u).trans (effect.flags u)
  reaped u := by
    rw [effect.reaped,setFlags_flags]
    split
    · rename_i same; rw [same,reaped]
    · rfl
  joined u := by
    rw [effect.joined,setFlags_flags]
    split
    · rename_i same; rw [same,joined]
    · rfl
  finished u := by rw [effect.finished,setFlags_finished]
  returns := effect.returns

/-- Before the step to `σ'` the queue has taken a step that is not the reaper's. -/
theorem DetachEffect.queue {c t : Nat} {queue : ReapQueue.State Caller} (effect : DetachEffect { σ with queue } σ' c t)
    (visits : ∀ u, ReapInvariant.visiting queue.reaper = some u → ReapInvariant.visiting σ.queue.reaper = some u) :
    DetachEffect σ σ' c t where
  others := effect.others
  own := effect.own
  startup := effect.startup
  visit := effect.visit
  visiting u is := visits u (effect.visiting u is)
  unmapped := effect.unmapped
  freed := effect.freed
  calls := effect.calls
  flags := effect.flags
  reaped := effect.reaped
  joined := effect.joined
  finished := effect.finished
  returns := effect.returns

theorem detachLoop_effect (σ : State) (c t : Nat) (s : Flags) : DetachEffect σ (detachLoop σ c t s) c t := by
  unfold detachLoop
  split
  · exact detachEffect_leave _
  · split
    · exact detachEffect_leave _
    · exact detachEffect_clientAt _

theorem mythreadDetach_effect {c t : Nat} {env : Env} {pc : DetachPc} (here : σ.client c = .detach t pc)
    (done : mythreadDetach σ c t env pc = some σ') : DetachEffect σ σ' c t := by
  cases pc with
  | loadState => cases done; exact detachLoop_effect ..
  | compareExchange s =>
    simp only [mythreadDetach] at done
    split at done <;> cases done
    · rename_i same
      exact (detachEffect_clientAt _).setFlags (same.1 ▸ ⟨fun _ => rfl,id,id,id⟩) (by rw [same.1]) (by rw [same.1])
    · exact detachLoop_effect ..
  | loadFinished =>
    simp only [mythreadDetach] at done
    split at done <;> cases done
    · exact detachEffect_clientAt _
    · exact detachEffect_leave _
  | orQueued =>
    simp only [mythreadDetach] at done
    split at done <;> cases done
    · exact (detachEffect_leave _).setFlags ⟨id,id,id,fun _ => rfl⟩ rfl rfl
    · exact (detachEffect_clientAt _).setFlags ⟨id,id,id,fun _ => rfl⟩ rfl rfl
  | startReaper => cases done; exact detachEffect_clientAt _
  | callEnqueue => cases done; exact (detachEffect_clientAt _).queue fun _ => id
  | enqueueing =>
    obtain ⟨queue,stepped,rfl⟩ := Option.map_eq_some_iff.mp done
    have visits := (reapEnqueue_frame stepped).2
    split
    · exact (detachEffect_leave _).queue visits
    · refine DetachEffect.queue ⟨fun _ _ => rfl,.inr ⟨.enqueueing,here⟩,rfl,rfl,fun _ => id,rfl,rfl,rfl,
        fun _ => subset_refl _,fun _ => rfl,fun _ => rfl,fun _ => rfl,.inl rfl⟩ visits

theorem mythreadDetach_queue {c t : Nat} {env : Env} {pc : DetachPc} (outside : pc ≠ .callEnqueue ∧ pc ≠ .enqueueing)
    (done : mythreadDetach σ c t env pc = some σ') : σ'.queue = σ.queue := by
  have loop : (detachLoop σ c t (σ.flags t)).queue = σ.queue := by
    unfold detachLoop
    split
    · rfl
    · split <;> rfl
  cases pc with
  | loadState => cases done; exact loop
  | compareExchange s =>
    simp only [mythreadDetach] at done
    split at done <;> cases done
    · rfl
    · exact loop
  | callEnqueue => exact absurd rfl outside.1
  | enqueueing => exact absurd rfl outside.2
  | _ =>
    simp only [mythreadDetach] at done
    try split at done
    all_goals cases done
    all_goals rfl

/-! ### Threads -/

/-- A step of thread `t` behind its start routine. -/
structure StartupEffect (σ σ' : State) (t : Nat) : Prop where
  clients : ∀ c, σ'.client c = σ.client c ∨
    ∃ u wants, σ.client c = .join u wants .asleep ∧ σ'.client c = .join u wants .loadFinished
  others : ∀ u, u ≠ t → σ'.startup u = σ.startup u
  visit : σ'.visit = σ.visit
  visiting : ∀ u, visiting σ'.queue.reaper = some u → visiting σ.queue.reaper = some u
  unmapped : σ'.unmapped = σ.unmapped
  freed : σ'.freed = σ.freed
  calls : σ'.calls = σ.calls
  returns : σ'.returns = σ.returns
  flags : ∀ u, Subset (σ.flags u) (σ'.flags u)
  finished : ∀ u, σ.finished u = true → σ'.finished u = true
  detached : ∀ u, (σ'.flags u).detached = (σ.flags u).detached
  joined : ∀ u, (σ'.flags u).joined = (σ.flags u).joined
  reaped : ∀ u, (σ'.flags u).reaped = (σ.flags u).reaped

/-- A step that changes the blocks, and of their bits only `MT_QUEUED`. -/
theorem startupEffect_of {t : Nat} {pc : StartupPc} {queue : ReapQueue.State Caller}
    (flags : ∀ u, σ'.flags u = { σ.flags u with queued := (σ'.flags u).queued })
    (queued : ∀ u, (σ.flags u).queued = true → (σ'.flags u).queued = true)
    (finished : ∀ u, σ.finished u = true → σ'.finished u = true)
    (visits : ∀ u, ReapInvariant.visiting queue.reaper = some u → ReapInvariant.visiting σ.queue.reaper = some u)
    (same : σ' = { σ with block := σ'.block, queue, startup := Function.update σ.startup t pc }) :
    StartupEffect σ σ' t where
  clients c := by rw [same]; exact .inl rfl
  others u other := by rw [same]; exact Function.update_of_ne other _ _
  visit := by rw [same]
  visiting u := by rw [same]; exact visits u
  unmapped := by rw [same]
  freed := by rw [same]
  calls := by rw [same]
  returns := by rw [same]
  flags u := ⟨by rw [flags]; exact id,by rw [flags]; exact id,by rw [flags]; exact id,queued u⟩
  finished := finished
  detached u := by rw [flags]
  joined u := by rw [flags]
  reaped u := by rw [flags]

/-- A step that changes no block. -/
theorem startupEffect_goto {t : Nat} {pc : StartupPc} {queue : ReapQueue.State Caller}
    (visits : ∀ u, ReapInvariant.visiting queue.reaper = some u → ReapInvariant.visiting σ.queue.reaper = some u)
    (same : σ' = { σ with queue, startup := Function.update σ.startup t pc }) : StartupEffect σ σ' t := by
  subst same
  exact startupEffect_of (fun _ => rfl) (fun _ => id) (fun _ => id) visits rfl

/-- A step that sets a value in the thread's own block. -/
theorem startupEffect_setBlock {t : Nat} {pc : StartupPc} {block : Block} (state : block.state = σ.flags t)
    (finished : σ.finished t = true → block.finished = true) :
    StartupEffect σ ((σ.setBlock t block).startupAt t pc) t := by
  have flags : ∀ u, ((σ.setBlock t block).startupAt t pc).flags u = σ.flags u := setBlock_flags σ state
  refine startupEffect_of (fun u => by rw [flags]) (fun u => by rw [flags]; exact id) (fun u => ?_) (fun _ => id) rfl
  by_cases isT : u = t
  · subst isT; simpa [State.finished,State.startupAt,State.setBlock] using finished
  · simp [State.finished,State.startupAt,State.setBlock,isT]

theorem threadStartup_effect {t : Nat} {choice : Choice} (done : threadStartup σ t choice = some σ') :
    StartupEffect σ σ' t := by
  cases here : σ.startup t with
  | running => simp [threadStartup,here] at done
  | exited => simp [threadStartup,here] at done
  | storeRetval retval =>
    simp only [threadStartup,here] at done
    cases done
    exact startupEffect_setBlock rfl id
  | storeFinished =>
    simp only [threadStartup,here] at done
    cases done
    exact startupEffect_setBlock rfl fun _ => rfl
  | futexWake =>
    simp only [threadStartup,here] at done
    cases done
    rcases futexWake_cases σ t choice.pick with same | ⟨c,woken⟩
    · rw [same]
      exact startupEffect_goto (fun _ => id) rfl
    · rw [woken]
      obtain ⟨block,startup,_,queue,visit,unmapped,freed,returns,calls⟩ := wake_frame σ c
      have flags : ∀ u, ((σ.wake c).startupAt t .loadState).flags u = σ.flags u := fun u =>
        congrArg (fun blocks => (blocks u).state) block
      refine ⟨wake_client σ c,fun u other => ?_,visit,fun u is => queue ▸ is,unmapped,freed,calls,returns,
        fun u => flags u ▸ subset_refl _,fun u is => ?_,fun u => by rw [flags],fun u => by rw [flags],
        fun u => by rw [flags]⟩
      · simp [State.startupAt,other,startup]
      · exact (congrArg (fun blocks => (blocks u).finished) block).trans is
  | loadState =>
    simp only [threadStartup,here] at done
    split at done <;> cases done <;> exact startupEffect_goto (fun _ => id) rfl
  | orQueued =>
    have flags : ∀ u, (σ.setFlags t { σ.flags t with queued := true }).flags u =
        { σ.flags u with queued := ((σ.setFlags t { σ.flags t with queued := true }).flags u).queued } := by
      intro u
      rw [setFlags_flags]
      split
      · rename_i same; rw [same]
      · rfl
    have adds : Subset (σ.flags t) { σ.flags t with queued := true } := ⟨id,id,id,fun _ => rfl⟩
    have more := setFlags_subset adds
    have finished : ∀ u, σ.finished u = true → (σ.setFlags t { σ.flags t with queued := true }).finished u = true :=
      by simp
    simp only [threadStartup,here] at done
    split at done <;> cases done <;>
      exact startupEffect_of flags (fun u => (more u).queued) finished (fun _ => id) rfl
  | callEnqueue =>
    simp only [threadStartup,here] at done
    cases done
    exact startupEffect_goto (fun _ => (id : visiting (σ.queue.enter (.thread t) t).reaper = _ → _)) rfl
  | enqueueing =>
    simp only [threadStartup,here] at done
    obtain ⟨queue,stepped,rfl⟩ := Option.map_eq_some_iff.mp done
    have visits := (reapEnqueue_frame stepped).2
    split
    · exact startupEffect_goto visits rfl
    · exact startupEffect_goto visits (by rw [Function.update_eq_self])
  | _ =>
    simp only [threadStartup,here] at done
    cases done
    exact startupEffect_goto (fun _ => id) rfl

/-! ### The reaper -/

structure ReaperEffect (σ σ' : State) : Prop where
  client : σ'.client = σ.client
  startup : σ'.startup = σ.startup
  calls : σ'.calls = σ.calls
  returns : σ'.returns = σ.returns
  entered : σ'.queue.entered = σ.queue.entered
  detached : ∀ u, (σ'.flags u).detached = (σ.flags u).detached
  joined : ∀ u, (σ'.flags u).joined = (σ.flags u).joined
  queued : ∀ u, (σ'.flags u).queued = (σ.flags u).queued
  finished : ∀ u, σ'.finished u = σ.finished u

theorem reapStep_effect {env : Env} (done : reapStep σ env = some σ') : ReaperEffect σ σ' := by
  obtain ⟨queue,stepped,rfl⟩ := Option.map_eq_some_iff.mp done
  exact ⟨rfl,rfl,rfl,rfl,(ReapInvariant.reaperMain_frame stepped).2.2,fun _ => rfl,fun _ => rfl,
    fun _ => rfl,fun _ => rfl⟩

theorem reaperMain_effect {env : Env} (done : reaperMain σ env = some σ') : ReaperEffect σ σ' := by
  unfold MyThread.reaperMain at done
  split at done
  · rename_i t _ _ _ _
    have flags : ∀ u, (σ.setFlags t { σ.flags t with reaped := true }).flags u =
        { σ.flags u with reaped := ((σ.setFlags t { σ.flags t with reaped := true }).flags u).reaped } := by
      intro u
      rw [setFlags_flags]
      split
      · rename_i same; rw [same]
      · rfl
    have set : ReaperEffect σ (σ.setFlags t { σ.flags t with reaped := true }) :=
      ⟨rfl,rfl,rfl,rfl,rfl,fun u => by rw [flags],fun u => by rw [flags],fun u => by rw [flags],
        fun u => setFlags_finished σ t u _⟩
    split at done
    · simp only at done
      split at done
      · have rest := reapStep_effect done
        exact ⟨rest.client,rest.startup,rest.calls,rest.returns,rest.entered,
          fun u => (rest.detached u).trans (set.detached u),fun u => (rest.joined u).trans (set.joined u),
          fun u => (rest.queued u).trans (set.queued u),fun u => (rest.finished u).trans (set.finished u)⟩
      · cases done
        exact ⟨rfl,rfl,rfl,rfl,rfl,set.detached,set.joined,set.queued,set.finished⟩
    · cases done
      exact ⟨rfl,rfl,rfl,rfl,rfl,fun _ => rfl,fun _ => rfl,fun _ => rfl,fun _ => rfl⟩
    · have rest := reapStep_effect done
      exact ⟨rest.client,rest.startup,rest.calls,rest.returns,rest.entered,rest.detached,rest.joined,rest.queued,
        rest.finished⟩
  · exact reapStep_effect done

/-! ### The whole program -/

/-- Where a call begins. -/
def entry : Call → ClientPc
  | .join t wants => .join t wants .loadState
  | .detach t => .detach t .loadState

/-- What can happen, and where it leads. -/
inductive Step (σ : State) : Act → State → Prop
  | finish (t retval : Nat) (running : σ.startup t = .running) :
    Step σ (.finish t retval)
      { σ.startupAt t (.storeRetval retval) with returned := Function.update σ.returned t (some retval) }
  | startup {t : Nat} {choice : Choice} {σ' : State} (done : threadStartup σ t choice = some σ') :
    Step σ (.startup t choice) σ'
  | call (c : Nat) (call : Call) (top : σ.client c = .idle) :
    Step σ (.call c call) { σ.clientAt c (entry call) with calls := σ.calls ++ [(c,call)] }
  | join {c t : Nat} {wants : Bool} {pc : JoinPc} (env : Env) (here : σ.client c = .join t wants pc) :
    Step σ (.client c env) (mythreadJoin σ c t wants pc)
  | detach {c t : Nat} {pc : DetachPc} {env : Env} {σ' : State} (here : σ.client c = .detach t pc)
    (done : mythreadDetach σ c t env pc = some σ') : Step σ (.client c env) σ'
  | reaper {env : Env} {σ' : State} (done : reaperMain σ env = some σ') : Step σ (.reaper env) σ'

theorem step_cases {a : Act} (done : step σ a = some σ') : Step σ a σ' := by
  cases a with
  | finish t retval =>
    simp only [step] at done
    split at done <;> cases done
    exact .finish t retval ‹_›
  | startup t choice => exact .startup done
  | call c call =>
    simp only [step] at done
    split at done
    · cases call <;> cases done <;> exact .call c _ ‹_›
    · cases done
  | client c env =>
    simp only [step] at done
    split at done
    · cases done
    · cases done
      exact .join env ‹_›
    · exact .detach ‹_› done
  | reaper env => exact .reaper done

end Os5Sem.ThreadSteps

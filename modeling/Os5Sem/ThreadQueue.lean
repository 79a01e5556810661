import Os5Sem.ThreadSteps

/-!
The queue inside the whole program. Every step of the program is a step of the
queue's own machine or leaves the queue alone, so that the invariant of the queue
holds in every state that the program reaches (`Handed`).
-/
namespace Os5Sem.ThreadQueue
open Os5Sem.MyThread Os5Sem.ThreadSteps
open Os5Sem.ReapQueue (Env)

variable {σ σ' : State}

/-- A party is inside `reap_enqueue` only where its own program calls it, and the
    queue's invariant holds. -/
structure Handed (σ : State) : Prop where
  threads : ∀ t, σ.startup t ≠ .enqueueing → σ.queue.enqueuer (.thread t) = .idle
  clients : ∀ c, (∀ t, σ.client c ≠ .detach t .enqueueing) → σ.queue.enqueuer (.client c) = .idle
  invariant : ∃ queue batch, ReapInvariant.Invariant σ.queue queue batch

/-! ### Steps -/

/-- Changes of anything but the queue and the program points. -/
theorem Handed.congr (handed : Handed σ) (queue : σ'.queue = σ.queue) (startup : σ'.startup = σ.startup)
    (client : σ'.client = σ.client) : Handed σ' where
  threads t := by rw [queue,startup]; exact handed.threads t
  clients c := by rw [queue,client]; exact handed.clients c
  invariant := queue ▸ handed.invariant

theorem Handed.clientAt (handed : Handed σ) {c : Nat} (idle : σ.queue.enqueuer (.client c) = .idle)
    (queue : σ'.queue = σ.queue) (startup : σ'.startup = σ.startup) (others : ∀ d, d ≠ c → σ'.client d = σ.client d) :
    Handed σ' where
  threads t := by rw [queue,startup]; exact handed.threads t
  clients d := by
    rw [queue]
    by_cases isC : d = c
    · intro _
      exact isC ▸ idle
    · rw [others d isC]; exact handed.clients d
  invariant := queue ▸ handed.invariant

theorem Handed.startupAt (handed : Handed σ) {t : Nat} {pc : StartupPc} (idle : σ.queue.enqueuer (.thread t) = .idle)
    (queue : σ'.queue = σ.queue) (startup : σ'.startup = Function.update σ.startup t pc)
    (client : σ'.client = σ.client) : Handed σ' where
  threads u := by
    rw [queue,startup]
    by_cases isT : u = t
    · intro _
      exact isT ▸ idle
    · rw [Function.update_of_ne isT]; exact handed.threads u
  clients c := by rw [queue,client]; exact handed.clients c
  invariant := queue ▸ handed.invariant

/-- A caller inside `reap_enqueue` takes a step there. -/
theorem Handed.enqueue (handed : Handed σ) {caller : Caller} {env : Env} {queue : ReapQueue.State Caller}
    (inside : (∀ t, caller = .thread t → σ.startup t = .enqueueing) ∧
      ∀ c, caller = .client c → ∃ t, σ.client c = .detach t .enqueueing)
    (done : ReapQueue.reapEnqueue σ.queue caller env = some queue) : Handed { σ with queue } where
  threads t outside := by
    have other : Caller.thread t ≠ caller := fun same => outside (inside.1 t same.symm)
    obtain ⟨pc,pcs,_⟩ := ReapInvariant.reapEnqueue_lock done
    simp only [pcs,Function.update_of_ne other]
    exact handed.threads t outside
  clients c outside := by
    have other : Caller.client c ≠ caller := fun same => by
      obtain ⟨t,here⟩ := inside.2 c same.symm
      exact outside t here
    obtain ⟨pc,pcs,_⟩ := ReapInvariant.reapEnqueue_lock done
    simp only [pcs,Function.update_of_ne other]
    exact handed.clients c outside
  invariant := by
    obtain ⟨queue,batch,inv⟩ := handed.invariant
    exact ReapInvariant.invariant_step (a := .enqueue caller env) inv done

theorem Handed.reap (handed : Handed σ) {env : Env} (done : reapStep σ env = some σ') : Handed σ' := by
  obtain ⟨queue,stepped,rfl⟩ := Option.map_eq_some_iff.mp done
  obtain ⟨pcs,_⟩ := ReapInvariant.reaperMain_frame stepped
  refine ⟨?_,?_,?_⟩
  · rw [pcs]; exact handed.threads
  · rw [pcs]; exact handed.clients
  · obtain ⟨queue,batch,inv⟩ := handed.invariant
    exact ReapInvariant.invariant_step (a := .reap env) inv stepped

/-- A party calls `reap_enqueue`. -/
theorem enter_invariant (handed : Handed σ) {caller : Caller} (t : Nat) (idle : σ.queue.enqueuer caller = .idle) :
    ∃ queue batch, ReapInvariant.Invariant (σ.queue.enter caller t) queue batch := by
  obtain ⟨queue,batch,inv⟩ := handed.invariant
  exact ReapInvariant.invariant_step (a := .enter caller t) inv (if_pos idle)

theorem handed_detach (handed : Handed σ) {c t : Nat} {env : Env} {pc : DetachPc} (here : σ.client c = .detach t pc)
    (done : mythreadDetach σ c t env pc = some σ') : Handed σ' := by
  by_cases isEnqueueing : pc = .enqueueing
  · subst isEnqueueing
    obtain ⟨queue,stepped,rfl⟩ := Option.map_eq_some_iff.mp done
    have moved : Handed { σ with queue } := handed.enqueue ⟨fun _ same => (by cases same),fun d same =>
      by cases same; exact ⟨t,here⟩⟩ stepped
    split
    · rename_i idle
      exact moved.clientAt (c := c) idle rfl rfl fun d other => by simp [State.leave,State.clientAt,other]
    · exact moved
  have idle := handed.clients c fun u same => by
    rw [here] at same
    cases same
    exact isEnqueueing rfl
  by_cases isCall : pc = .callEnqueue
  · subst isCall
    cases done
    refine ⟨fun u outside => ?_,fun d outside => ?_,enter_invariant handed t idle⟩
    · have := handed.threads u outside
      simpa [State.clientAt,ReapQueue.State.enter,ReapQueue.State.goto] using this
    · have notC : d ≠ c := by
        intro isC
        subst isC
        exact outside t (by simp [State.clientAt])
      have := handed.clients d fun u => by simpa [State.clientAt,notC] using outside u
      simpa [State.clientAt,ReapQueue.State.enter,ReapQueue.State.goto,notC] using this
  have effect := mythreadDetach_effect here done
  exact handed.clientAt idle (mythreadDetach_queue ⟨isCall,isEnqueueing⟩ done) effect.startup effect.others

theorem handed_startup (handed : Handed σ) {t : Nat} {choice : Choice} (done : threadStartup σ t choice = some σ') :
    Handed σ' := by
  have idle : σ.startup t ≠ .enqueueing → σ.queue.enqueuer (.thread t) = .idle := handed.threads t
  cases here : σ.startup t with
  | running => simp [threadStartup,here] at done
  | exited => simp [threadStartup,here] at done
  | futexWake =>
    have effect := threadStartup_effect done
    have outside := idle (by simp [here])
    have queue : σ'.queue = σ.queue := by
      simp only [threadStartup,here] at done
      cases done
      rcases futexWake_cases σ t choice.pick with same | ⟨c,woken⟩
      · rw [same]; rfl
      · rw [woken]; exact (wake_frame σ c).2.2.2.1
    refine ⟨fun u is => ?_,fun d is => ?_,queue ▸ handed.invariant⟩ <;> rw [queue]
    · by_cases isT : u = t
      · rw [isT]; exact outside
      · exact handed.threads u (effect.others u isT ▸ is)
    · rcases effect.clients d with same | ⟨u,wants,was,_⟩
      · exact handed.clients d (same ▸ is)
      · exact handed.clients d fun v => by simp [was]
  | callEnqueue =>
    simp only [threadStartup,here] at done
    cases done
    refine ⟨fun u outside => ?_,fun d outside => ?_,enter_invariant handed t (idle (by simp [here]))⟩
    · have notT : u ≠ t := by
        intro isT
        subst isT
        exact outside (by simp [State.startupAt])
      have := handed.threads u (by simpa [State.startupAt,notT] using outside)
      simpa [State.startupAt,ReapQueue.State.enter,ReapQueue.State.goto,notT] using this
    · have := handed.clients d outside
      simpa [State.startupAt,ReapQueue.State.enter,ReapQueue.State.goto] using this
  | enqueueing =>
    simp only [threadStartup,here] at done
    obtain ⟨queue,stepped,rfl⟩ := Option.map_eq_some_iff.mp done
    have moved : Handed { σ with queue } := handed.enqueue ⟨fun u same => by cases same; exact here,
      fun _ same => by cases same⟩ stepped
    split
    · exact moved.startupAt ‹_› rfl rfl rfl
    · exact moved
  | _ =>
    simp only [threadStartup,here] at done
    try split at done
    all_goals cases done
    all_goals exact handed.startupAt (idle (by simp [here])) rfl rfl rfl

theorem handed_step {a : Act} (handed : Handed σ) (done : step σ a = some σ') : Handed σ' := by
  cases step_cases done with
  | finish t retval running => exact handed.startupAt (handed.threads t (by simp [running])) rfl rfl rfl
  | startup done => exact handed_startup handed done
  | call c call top =>
    have idle := handed.clients c fun u => by simp [top]
    exact handed.clientAt (c := c) idle rfl rfl fun d other => by simp [State.clientAt,other]
  | @join c t wants pc env here =>
    have effect := mythreadJoin_effect here
    exact handed.clientAt (handed.clients c fun u => by simp [here]) effect.queue effect.startup effect.others
  | detach here done => exact handed_detach handed here done
  | reaper done =>
    simp only [MyThread.reaperMain] at done
    split at done
    · rename_i t _ _ _ _
      split at done
      · have set : Handed (σ.setFlags t { σ.flags t with reaped := true }) := handed.congr rfl rfl rfl
        split at done
        · exact set.reap done
        · cases done
          exact set.congr rfl rfl rfl
      · cases done
        exact handed.congr rfl rfl rfl
      · have freed : Handed (σ.free t .reaper) := handed.congr rfl rfl rfl
        exact freed.reap done
    · exact handed.reap done

theorem start_handed : Handed start where
  threads _ _ := rfl
  clients _ _ := rfl
  invariant := ⟨[],[],ReapInvariant.start_invariant⟩

end Os5Sem.ThreadQueue

import Os5Sem.ThreadReclaim

/-!
What the parties know between two steps (`ready_step`): a compare-exchange expects the
first word of all, since a thread that nobody owns has no bit set, and who is inside
`reap_enqueue` has a step to take there.
-/
namespace Os5Sem.ThreadReady
open Os5Sem.MyThread Os5Sem.ThreadSteps Os5Sem.ThreadFacts Os5Sem.ThreadQueue Os5Sem.ThreadOwnership
open Os5Sem.ThreadReclaim
open Os5Sem.ReapQueue (Env)

variable {σ σ' : State} {c t : Nat}

/-! ### What a step moves -/

/-- A step of a client's call. -/
structure ClientStep (σ σ' : State) (c : Nat) : Prop where
  clients : ∀ d, d ≠ c → σ'.client d = σ.client d
  startup : σ'.startup = σ.startup
  visit : σ'.visit = σ.visit
  enqueuers : ∀ p, p ≠ .client c → σ'.queue.enqueuer p = σ.queue.enqueuer p

/-- A step of a thread behind its start routine. -/
structure ThreadStep (σ σ' : State) (t : Nat) : Prop where
  clients : ∀ c, σ'.client c = σ.client c ∨
    ∃ u wants, σ.client c = .join u wants .asleep ∧ σ'.client c = .join u wants .loadFinished
  startup : ∀ u, u ≠ t → σ'.startup u = σ.startup u
  visit : σ'.visit = σ.visit
  enqueuers : ∀ p, p ≠ .thread t → σ'.queue.enqueuer p = σ.queue.enqueuer p

theorem enqueue_others {queue queue' : ReapQueue.State Caller} {caller p : Caller} {env : Env}
    (done : ReapQueue.reapEnqueue queue caller env = some queue') (other : p ≠ caller) :
    queue'.enqueuer p = queue.enqueuer p := by
  obtain ⟨pc,pcs,_⟩ := ReapInvariant.reapEnqueue_lock done
  rw [pcs,Function.update_of_ne other]

theorem join_step {wants : Bool} {pc : JoinPc} (here : σ.client c = .join t wants pc) :
    ClientStep σ (mythreadJoin σ c t wants pc) c := by
  have effect := mythreadJoin_effect here
  exact ⟨effect.others,effect.startup,effect.visit,fun p _ => by rw [effect.queue]⟩

theorem detach_step {env : Env} {pc : DetachPc} (here : σ.client c = .detach t pc)
    (done : mythreadDetach σ c t env pc = some σ') : ClientStep σ σ' c := by
  have effect := mythreadDetach_effect here done
  refine ⟨effect.others,effect.startup,effect.visit,fun p other => ?_⟩
  by_cases isCall : pc = .callEnqueue
  · subst isCall
    cases done
    exact Function.update_of_ne other _ _
  by_cases isEnqueueing : pc = .enqueueing
  · subst isEnqueueing
    obtain ⟨queue,stepped,rfl⟩ := Option.map_eq_some_iff.mp done
    have same := enqueue_others stepped other
    split <;> exact same
  · rw [mythreadDetach_queue ⟨isCall,isEnqueueing⟩ done]

theorem startup_step {choice : Choice} (done : threadStartup σ t choice = some σ') : ThreadStep σ σ' t := by
  have effect := threadStartup_effect done
  refine ⟨effect.clients,effect.others,effect.visit,fun p other => ?_⟩
  cases here : σ.startup t with
  | running => simp [threadStartup,here] at done
  | exited => simp [threadStartup,here] at done
  | callEnqueue =>
    simp only [threadStartup,here] at done
    cases done
    exact Function.update_of_ne other _ _
  | enqueueing =>
    simp only [threadStartup,here] at done
    obtain ⟨queue,stepped,rfl⟩ := Option.map_eq_some_iff.mp done
    have same := enqueue_others stepped other
    split <;> exact same
  | futexWake =>
    simp only [threadStartup,here] at done
    cases done
    rcases futexWake_cases σ t choice.pick with same | ⟨c,woken⟩
    · rw [same]
      rfl
    · rw [woken]
      exact congrArg (·.enqueuer p) (wake_frame σ c).2.2.2.1
  | _ =>
    simp only [threadStartup,here] at done
    try split at done
    all_goals cases done
    all_goals rfl

/-! ### Between two steps -/

def unset : Flags := ⟨false,false,false,false⟩

/-- The word that a compare-exchange expects. -/
def expected : ClientPc → Option Flags
  | .join _ _ (.compareExchange s) | .detach _ (.compareExchange s) => some s
  | _ => none

/-- A compare-exchange expects the first word of all, and who is inside `reap_enqueue`
    has a step to take there. -/
structure Ready (σ : State) : Prop where
  expects : ∀ c s, expected (σ.client c) = some s → s = unset
  threads : ∀ t, σ.startup t = .enqueueing → σ.queue.enqueuer (.thread t) ≠ .idle
  clients : ∀ c t, σ.client c = .detach t .enqueueing → σ.queue.enqueuer (.client c) ≠ .idle

/-- As long as nobody owns the thread, no bit is set. -/
theorem unset_of_nobody (known : Known σ) (undetached : (σ.flags t).detached = false)
    (unjoined : (σ.flags t).joined = false) : σ.flags t = unset := by
  obtain ⟨⟨inf,handed,single,rel⟩,_,_,_,reclaimed⟩ := known
  have unqueued : (σ.flags t).queued = false := by
    rw [Bool.eq_false_iff]
    intro queued
    exact absurd ((inf.queued t queued).1.symm.trans undetached) (by simp)
  have unreaped : (σ.flags t).reaped = false := by
    rw [Bool.eq_false_iff]
    intro reaped
    rcases reclaimed.begun t reaped with (⟨c,releases⟩ | ⟨visits,_⟩) | freed
    · exact absurd ((joined_of_won inf (won_of_releases releases)).symm.trans unjoined) (by simp)
    · exact absurd ((detached_of_visiting inf handed visits).1.symm.trans undetached) (by simp)
    · rcases rel.settled t with none | ⟨releaser,rightful,_⟩
      · exact freed none.2
      · cases releaser
        · exact absurd (rightful.1.symm.trans unjoined) (by simp)
        · exact absurd (rightful.1.symm.trans undetached) (by simp)
  cases is : σ.flags t
  rw [is] at undetached unjoined unqueued unreaped
  cases undetached
  cases unjoined
  cases unqueued
  cases unreaped
  rfl

/-- The loop of a join lets the thread go, or has found that nobody owns it. -/
theorem joinLoop_outcome (known : Known σ) (c t : Nat) (wants : Bool) :
    (joinLoop σ c t wants (σ.flags t)).client c = .idle ∨
      σ.flags t = unset ∧ (joinLoop σ c t wants (σ.flags t)).client c = .join t wants (.compareExchange unset) := by
  unfold joinLoop
  split
  · exact .inl (by simp [State.leave,State.clientAt])
  · rename_i undetached
    split
    · exact .inl (by simp [State.leave,State.clientAt])
    · rename_i unjoined
      have isUnset := unset_of_nobody known (by simpa using undetached) (by simpa using unjoined)
      exact .inr ⟨isUnset,by simp [State.clientAt,isUnset]⟩

theorem detachLoop_outcome (known : Known σ) (c t : Nat) :
    (detachLoop σ c t (σ.flags t)).client c = .idle ∨
      σ.flags t = unset ∧ (detachLoop σ c t (σ.flags t)).client c = .detach t (.compareExchange unset) := by
  unfold detachLoop
  split
  · exact .inl (by simp [State.leave,State.clientAt])
  · rename_i undetached
    split
    · exact .inl (by simp [State.leave,State.clientAt])
    · rename_i unjoined
      have isUnset := unset_of_nobody known (by simpa using undetached) (by simpa using unjoined)
      exact .inr ⟨isUnset,by simp [State.clientAt,isUnset]⟩

theorem expected_leave (σ : State) (c : Nat) (call : Call) (result : Result) :
    expected ((σ.leave c call result).client c) = none := by
  simp [State.leave,State.clientAt,expected]

theorem expected_joinLoop (known : Known σ) (c t : Nat) (wants : Bool) {s : Flags}
    (is : expected ((joinLoop σ c t wants (σ.flags t)).client c) = some s) : s = unset := by
  rcases joinLoop_outcome known c t wants with idle | ⟨_,now⟩
  · rw [idle] at is
    cases is
  · rw [now] at is
    exact (Option.some.inj is).symm

theorem expected_detachLoop (known : Known σ) (c t : Nat) {s : Flags}
    (is : expected ((detachLoop σ c t (σ.flags t)).client c) = some s) : s = unset := by
  rcases detachLoop_outcome known c t with idle | ⟨_,now⟩
  · rw [idle] at is
    cases is
  · rw [now] at is
    exact (Option.some.inj is).symm

theorem expected_join (known : Known σ) {wants : Bool} {pc : JoinPc} (here : σ.client c = .join t wants pc) {s : Flags}
    (is : expected ((mythreadJoin σ c t wants pc).client c) = some s) : s = unset := by
  cases pc with
  | loadState => exact expected_joinLoop known c t wants is
  | compareExchange w =>
    simp only [mythreadJoin] at is
    split at is
    · simp [State.clientAt,expected] at is
    · exact expected_joinLoop known c t wants is
  | loadFinished =>
    simp only [mythreadJoin] at is
    split at is
    · split at is <;> simp [State.clientAt,expected] at is
    · simp [State.clientAt,expected] at is
  | futexWait =>
    simp only [mythreadJoin] at is
    split at is <;> simp [State.clientAt,expected] at is
  | asleep => simp [mythreadJoin,State.wake,here,State.clientAt,expected] at is
  | orReaped stored =>
    simp only [mythreadJoin] at is
    split at is
    · rw [expected_leave] at is
      cases is
    · simp [State.clientAt,expected] at is
  | free stored =>
    simp only [mythreadJoin] at is
    rw [expected_leave] at is
    cases is
  | _ => simp [mythreadJoin,State.clientAt,expected] at is

theorem expected_detach (known : Known σ) {env : Env} {pc : DetachPc} (here : σ.client c = .detach t pc)
    (done : mythreadDetach σ c t env pc = some σ') {s : Flags} (is : expected (σ'.client c) = some s) : s = unset := by
  cases pc with
  | loadState =>
    cases done
    exact expected_detachLoop known c t is
  | compareExchange w =>
    simp only [mythreadDetach] at done
    split at done <;> cases done
    · simp [State.clientAt,expected] at is
    · exact expected_detachLoop known c t is
  | loadFinished =>
    simp only [mythreadDetach] at done
    split at done <;> cases done
    · simp [State.clientAt,expected] at is
    · rw [expected_leave] at is
      cases is
  | orQueued =>
    simp only [mythreadDetach] at done
    split at done <;> cases done
    · rw [expected_leave] at is
      cases is
    · simp [State.clientAt,expected] at is
  | enqueueing =>
    obtain ⟨queue,_,rfl⟩ := Option.map_eq_some_iff.mp done
    split at is
    · rw [expected_leave] at is
      cases is
    · simp [here,expected] at is
  | _ =>
    cases done
    simp [State.clientAt,expected] at is

/-- A detach that is inside `reap_enqueue` has just called it, or goes on there. -/
theorem busy_detach (known : Known σ) {env : Env} {pc : DetachPc} (here : σ.client c = .detach t pc)
    (done : mythreadDetach σ c t env pc = some σ') {u : Nat} (inside : σ'.client c = .detach u .enqueueing) :
    σ'.queue.enqueuer (.client c) ≠ .idle := by
  have loop : (detachLoop σ c t (σ.flags t)).client c ≠ .detach u .enqueueing := by
    rcases detachLoop_outcome known c t with idle | ⟨_,now⟩
    · simp [idle]
    · simp [now]
  cases pc with
  | loadState =>
    cases done
    exact absurd inside loop
  | compareExchange w =>
    simp only [mythreadDetach] at done
    split at done <;> cases done
    · simp [State.clientAt] at inside
    · exact absurd inside loop
  | callEnqueue =>
    cases done
    simp [State.clientAt,ReapQueue.State.enter,ReapQueue.State.goto]
  | enqueueing =>
    obtain ⟨queue,_,rfl⟩ := Option.map_eq_some_iff.mp done
    split at inside
    · simp [State.leave,State.clientAt] at inside
    · rename_i busy
      rw [if_neg busy]
      exact busy
  | _ =>
    simp only [mythreadDetach] at done
    try split at done
    all_goals cases done
    all_goals simp [State.leave,State.clientAt] at inside

theorem busy_startup {choice : Choice} (done : threadStartup σ t choice = some σ')
    (inside : σ'.startup t = .enqueueing) :
    σ'.queue.enqueuer (.thread t) ≠ .idle := by
  cases here : σ.startup t with
  | running => simp [threadStartup,here] at done
  | exited => simp [threadStartup,here] at done
  | callEnqueue =>
    simp only [threadStartup,here] at done
    cases done
    simp [State.startupAt,ReapQueue.State.enter,ReapQueue.State.goto]
  | enqueueing =>
    simp only [threadStartup,here] at done
    obtain ⟨queue,_,rfl⟩ := Option.map_eq_some_iff.mp done
    split at inside
    · simp [State.startupAt] at inside
    · rename_i busy
      rw [if_neg busy]
      exact busy
  | _ =>
    simp only [threadStartup,here] at done
    try split at done
    all_goals cases done
    all_goals simp [State.startupAt] at inside

theorem Ready.client (ready : Ready σ) (goes : ClientStep σ σ' c)
    (expects : ∀ s, expected (σ'.client c) = some s → s = unset)
    (busy : ∀ t, σ'.client c = .detach t .enqueueing → σ'.queue.enqueuer (.client c) ≠ .idle) : Ready σ' where
  expects d s is := by
    by_cases isC : d = c
    · exact expects s (isC ▸ is)
    · rw [goes.clients d isC] at is
      exact ready.expects d s is
  threads t inside := by
    rw [goes.startup] at inside
    rw [goes.enqueuers (.thread t) (by simp)]
    exact ready.threads t inside
  clients d t inside := by
    by_cases isC : d = c
    · exact isC ▸ busy t (isC ▸ inside)
    · rw [goes.clients d isC] at inside
      rw [goes.enqueuers (.client d) (by simpa using isC)]
      exact ready.clients d t inside

theorem ready_startup (ready : Ready σ) {choice : Choice} (done : threadStartup σ t choice = some σ') : Ready σ' := by
  have goes := startup_step done
  constructor
  case expects =>
    intro c s is
    rcases goes.clients c with same | ⟨u,wants,_,awake⟩
    · exact ready.expects c s (same ▸ is)
    · rw [awake] at is
      cases is
  case threads =>
    intro u inside
    by_cases isT : u = t
    · subst isT
      exact busy_startup done inside
    · rw [goes.startup u isT] at inside
      rw [goes.enqueuers (.thread u) (by simpa using isT)]
      exact ready.threads u inside
  case clients =>
    intro c u inside
    rcases goes.clients c with same | ⟨v,wants,_,awake⟩
    · rw [goes.enqueuers (.client c) (by simp)]
      exact ready.clients c u (same ▸ inside)
    · rw [awake] at inside
      cases inside

theorem reaper_enqueuers {env : Env} (done : MyThread.reaperMain σ env = some σ') :
    σ'.queue.enqueuer = σ.queue.enqueuer := by
  have reaps : ∀ {τ : State}, reapStep τ env = some σ' → τ.queue = σ.queue →
      σ'.queue.enqueuer = σ.queue.enqueuer := by
    intro τ reaped same
    obtain ⟨queue,stepped,rfl⟩ := Option.map_eq_some_iff.mp reaped
    rw [same] at stepped
    exact (ReapInvariant.reaperMain_frame stepped).1
  simp only [MyThread.reaperMain] at done
  split at done
  · split at done
    · split at done
      · exact reaps done rfl
      · cases done
        rfl
    · cases done
      rfl
    · exact reaps done rfl
  · exact reaps done rfl

theorem ready_step {a : Act} (known : Known σ) (ready : Ready σ) (done : step σ a = some σ') : Ready σ' := by
  cases step_cases done with
  | finish t retval running =>
    refine ⟨ready.expects,fun u inside => ready.threads u ?_,ready.clients⟩
    by_cases isT : u = t
    · subst isT
      simp [State.startupAt] at inside
    · simpa [State.startupAt,isT] using inside
  | startup done => exact ready_startup ready done
  | call c call top =>
    have goes : ClientStep σ { σ.clientAt c (entry call) with calls := σ.calls ++ [(c,call)] } c :=
      ⟨fun d other => by simp [State.clientAt,other],rfl,rfl,fun _ _ => rfl⟩
    refine ready.client goes (fun s is => ?_) fun t inside => ?_
    · cases call <;> simp [State.clientAt,entry,expected] at is
    · cases call <;> simp [State.clientAt,entry] at inside
  | @join c t wants pc env here =>
    refine ready.client (join_step here) (fun s is => expected_join known here is) fun u inside => ?_
    rcases (mythreadJoin_effect here).own with idle | ⟨pc',now⟩
    · rw [idle] at inside
      cases inside
    · rw [now] at inside
      cases inside
  | detach here done =>
    exact ready.client (detach_step here done) (fun s is => expected_detach known here done is) fun u =>
      busy_detach known here done
  | reaper done =>
    have effect := reaperMain_effect done
    have pcs := reaper_enqueuers done
    exact ⟨by rw [effect.client]; exact ready.expects,by rw [effect.startup,pcs]; exact ready.threads,
      by rw [effect.client,pcs]; exact ready.clients⟩

theorem start_ready : Ready start where
  expects _ _ is := by cases is
  threads _ is := by cases is
  clients _ _ is := by cases is

end Os5Sem.ThreadReady

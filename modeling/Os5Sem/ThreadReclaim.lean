import Os5Sem.ReapRest
import Os5Sem.ThreadHandOver

/-!
What is left of a thread when nothing is in progress. A thread that a join has won
is released by the joiner, and one that has got into the queue by the reaper, so
that at rest the stack and the block of a thread are released exactly when it is
joined, or detached and over, unless there was no memory to hand it over
(`releasedOnce_iff`).
-/
namespace Os5Sem.ThreadReclaim
open Os5Sem.MyThread Os5Sem.ThreadSteps Os5Sem.ThreadFacts Os5Sem.ThreadQueue Os5Sem.ThreadOwnership
open Os5Sem.ThreadHandOver
open Os5Sem.ReapQueue (Env)
open Os5Sem.ReapInvariant (visiting)
open Os5Sem.ReapRest (Fate Whole Traced)
open Os5Sem.ThreadCalls (callOf Called)

variable {σ σ' : State} {t : Nat}

/-! ### The queue in a run of the threads -/

/-- There is no memory for the node of the thread. -/
def Drops (t : Nat) (σ : State) : Act → Prop
  | .startup u choice => ReapCalls.Drops t σ.queue (.enqueue (.thread u) choice.toEnv)
  | .client c env => ReapCalls.Drops t σ.queue (.enqueue (.client c) env)
  | _ => False

/-- What a step is for the queue. -/
inductive QueueStep (σ : State) (a : Act) (queue : ReapQueue.State Caller) : Prop
  | stays (same : queue = σ.queue) (keeps : ∀ t, ¬ Drops t σ a)
  | goes (b : ReapQueue.Act Caller) (done : ReapQueue.step σ.queue b = some queue)
      (first : ∀ p t, b = .enter p t → σ.queue.entered t = 0) (drops : ∀ t, Drops t σ a ↔ ReapCalls.Drops t σ.queue b)
      (reaper : ∀ env, b = .reap env → a = .reaper env)

theorem keeps_of_idle {p : Caller} {env : Env} (idle : σ.queue.enqueuer p = .idle) (t : Nat) :
    ¬ ReapCalls.Drops t σ.queue (.enqueue p env) := by
  rintro ⟨here,_⟩
  rw [idle] at here
  cases here

theorem detach_queue (handed : Handed σ) (hand : HandOver σ) {c t : Nat} {env : Env} {pc : DetachPc}
    (here : σ.client c = .detach t pc) (done : mythreadDetach σ c t env pc = some σ') :
    QueueStep σ (.client c env) σ'.queue := by
  by_cases isEnqueueing : pc = .enqueueing
  · subst isEnqueueing
    obtain ⟨queue,stepped,rfl⟩ := Option.map_eq_some_iff.mp done
    have goes : QueueStep σ (.client c env) queue :=
      .goes (.enqueue (.client c) env) stepped (by simp) (fun _ => .rfl) (by simp)
    split
    · exact goes
    · exact goes
  have idle := handed.clients c fun u same => by
    rw [here] at same
    cases same
    exact isEnqueueing rfl
  by_cases isCall : pc = .callEnqueue
  · subst isCall
    cases done
    refine .goes (.enter (.client c) t) (if_pos idle) ?_ (fun u => iff_of_false (keeps_of_idle idle u) id) (by simp)
    intro p u is
    cases is
    exact hand.client t c (by rw [here]; rfl)
  exact .stays (mythreadDetach_queue ⟨isCall,isEnqueueing⟩ done) (keeps_of_idle idle)

theorem startup_queue (handed : Handed σ) (hand : HandOver σ) {t : Nat} {choice : Choice}
    (done : threadStartup σ t choice = some σ') : QueueStep σ (.startup t choice) σ'.queue := by
  have idle : σ.startup t ≠ .enqueueing → σ.queue.enqueuer (.thread t) = .idle := handed.threads t
  cases here : σ.startup t with
  | running => simp [threadStartup,here] at done
  | exited => simp [threadStartup,here] at done
  | futexWake =>
    simp only [threadStartup,here] at done
    cases done
    refine .stays ?_ (keeps_of_idle (idle (by simp [here])))
    rcases futexWake_cases σ t choice.pick with same | ⟨c,woken⟩
    · rw [same]; rfl
    · rw [woken]; exact (wake_frame σ c).2.2.2.1
  | callEnqueue =>
    have outside := idle (by simp [here])
    simp only [threadStartup,here] at done
    cases done
    refine .goes (.enter (.thread t) t) (if_pos outside) ?_ (fun u => iff_of_false (keeps_of_idle outside u) id)
      (by simp)
    intro p u is
    cases is
    exact hand.thread t (by rw [here]; trivial)
  | enqueueing =>
    simp only [threadStartup,here] at done
    obtain ⟨queue,stepped,rfl⟩ := Option.map_eq_some_iff.mp done
    have goes : QueueStep σ (.startup t choice) queue :=
      .goes (.enqueue (.thread t) choice.toEnv) stepped (by simp) (fun _ => .rfl) (by simp)
    split
    · exact goes
    · exact goes
  | _ =>
    have outside := idle (by simp [here])
    simp only [threadStartup,here] at done
    try split at done
    all_goals cases done
    all_goals exact .stays rfl (keeps_of_idle outside)

theorem reapStep_queue {env : Env} {τ : State} (done : reapStep τ env = some σ') (queue : τ.queue = σ.queue) :
    QueueStep σ (.reaper env) σ'.queue := by
  obtain ⟨queue',stepped,rfl⟩ := Option.map_eq_some_iff.mp done
  rw [queue] at stepped
  exact .goes (.reap env) stepped (by simp) (fun _ => .rfl) fun _ is => by cases is; rfl

/-- Every step of the threads is a step of the queue or leaves it as it is. -/
theorem queue_step {a : Act} (handed : Handed σ) (hand : HandOver σ) (done : step σ a = some σ') :
    QueueStep σ a σ'.queue := by
  cases step_cases done with
  | finish t retval running => exact .stays rfl fun _ => id
  | startup done => exact startup_queue handed hand done
  | call c call top => exact .stays rfl fun _ => id
  | @join c t wants pc env here =>
    exact .stays (mythreadJoin_effect here).queue (keeps_of_idle (handed.clients c fun u => by simp [here]))
  | detach here done => exact detach_queue handed hand here done
  | reaper done =>
    simp only [MyThread.reaperMain] at done
    split at done
    · split at done
      · split at done
        · exact reapStep_queue done rfl
        · cases done
          exact .stays rfl fun _ => id
      · cases done
        exact .stays rfl fun _ => id
      · exact reapStep_queue done rfl
    · exact reapStep_queue done rfl

/-- Only the reaper visits threads. -/
theorem QueueStep.unvisited {a : Act} {queue : ReapQueue.State Caller} (taken : QueueStep σ a queue)
    (other : ∀ env, a ≠ .reaper env) :
    queue.visited = σ.queue.visited ∧ visiting queue.reaper = visiting σ.queue.reaper := by
  cases taken with
  | stays same _ => rw [same]; exact ⟨rfl,rfl⟩
  | goes b done _ _ reaper =>
    cases b with
    | enter p t =>
      simp only [ReapQueue.step] at done
      split at done <;> cases done
      exact ⟨rfl,rfl⟩
    | enqueue p env =>
      obtain ⟨_,_,visited,awake,_⟩ := ReapHistory.reapEnqueue_order [] done
      refine ⟨visited,?_⟩
      rcases awake with same | ⟨asleep,woken⟩
      · rw [same]
      · rw [asleep,woken]; rfl
    | reap env => exact absurd (reaper env rfl) (other env)

theorem reaperMain_visited {env : Env} {queue : ReapQueue.State Caller}
    (done : ReapQueue.reaperMain σ.queue env = some queue) :
    queue.visited = σ.queue.visited ++ (visiting σ.queue.reaper).toList := by
  cases here : σ.queue.reaper with
  | spinUnlock list =>
    cases list <;> simp only [ReapQueue.reaperMain,here] at done <;> cases done <;> exact (List.append_nil _).symm
  | fetchSub n =>
    simp only [ReapQueue.reaperMain,here] at done
    cases done
    split <;> exact (List.append_nil _).symm
  | visit t x next n =>
    simp only [ReapQueue.reaperMain,here] at done
    cases done
    rfl
  | _ =>
    simp only [ReapQueue.reaperMain,here] at done
    try split at done
    all_goals cases done
    all_goals exact (List.append_nil _).symm

/-! ### Who releases a thread -/

/-- The client is behind the `MT_REAPED` of its join. -/
def Releases (t : Nat) : ClientPc → Prop
  | .join u _ (.destroyStack _) | .join u _ (.free _) => u = t
  | _ => False

/-- Somebody has set `MT_REAPED` and is about to release the thread. -/
def Releasing (t : Nat) (σ : State) : Prop :=
  (∃ c, Releases t (σ.client c)) ∨ visiting σ.queue.reaper = some t ∧ σ.visit ≠ .orReaped

/-- A thread that is joined, or that the reaper has visited, is released. -/
structure Reclaimed (σ : State) : Prop where
  begun : ∀ t, (σ.flags t).reaped = true → Releasing t σ ∨ σ.freed t ≠ []
  joined : ∀ t, (σ.flags t).joined = true → (∃ c, Won t (σ.client c)) ∨ σ.freed t ≠ []
  returned : ∀ t c, .joiner c ∈ σ.freed t → 0 < σ.returns.countP (joinReturned t)
  visited : ∀ t ∈ σ.queue.visited, σ.freed t ≠ []
  reaper : ∀ t, .reaper ∈ σ.unmapped t → t ∈ σ.queue.visited ∨ visiting σ.queue.reaper = some t ∧ σ.visit = .free

theorem start_reclaimed : Reclaimed start where
  begun t is := by simp [start,State.flags] at is
  joined t is := by simp [start,State.flags] at is
  returned t c member := by simp [start] at member
  visited t member := by simp [start,ReapQueue.start] at member
  reaper t member := by simp [start] at member

theorem won_of_releases {pc : ClientPc} (releases : Releases t pc) : Won t pc := by
  cases pc with
  | join u wants pc => cases pc <;> first | exact ⟨releases,trivial⟩ | exact releases.elim
  | _ => exact releases.elim

/-- A step of another party than the reaper. -/
theorem Reclaimed.congr (reclaimed : Reclaimed σ)
    (reaped : ∀ t, (σ'.flags t).reaped = true → (σ.flags t).reaped = true ∨ ∃ c, Releases t (σ'.client c))
    (joined : ∀ t, (σ'.flags t).joined = true → (σ.flags t).joined = true ∨ ∃ c, Won t (σ'.client c))
    (won : ∀ t c, Won t (σ.client c) → Won t (σ'.client c) ∨ σ'.freed t ≠ [])
    (releases : ∀ t c, Releases t (σ.client c) → Releases t (σ'.client c) ∨ σ'.freed t ≠ [])
    (unmapped : ∀ t, .reaper ∈ σ'.unmapped t → .reaper ∈ σ.unmapped t)
    (freed : ∀ t, σ.freed t ≠ [] → σ'.freed t ≠ [])
    (returned : ∀ t c, .joiner c ∈ σ'.freed t → .joiner c ∈ σ.freed t ∨ 0 < σ'.returns.countP (joinReturned t))
    (returns : ∀ t, σ.returns.countP (joinReturned t) ≤ σ'.returns.countP (joinReturned t))
    (queue : σ'.queue.visited = σ.queue.visited ∧ visiting σ'.queue.reaper = visiting σ.queue.reaper)
    (visit : σ'.visit = σ.visit) : Reclaimed σ' where
  begun t is := by
    rcases reaped t is with was | now
    · rcases reclaimed.begun t was with (⟨c,releasing⟩ | visiting) | done
      · exact (releases t c releasing).imp_left fun still => .inl ⟨c,still⟩
      · rw [← queue.2,← visit] at visiting
        exact .inl (.inr visiting)
      · exact .inr (freed t done)
    · exact .inl (.inl now)
  joined t is := by
    rcases joined t is with was | now
    · rcases reclaimed.joined t was with ⟨c,winner⟩ | done
      · exact (won t c winner).imp_left fun still => ⟨c,still⟩
      · exact .inr (freed t done)
    · exact .inl now
  returned t c member := by
    rcases returned t c member with was | now
    · exact (reclaimed.returned t c was).trans_le (returns t)
    · exact now
  visited t member := by
    rw [queue.1] at member
    exact freed t (reclaimed.visited t member)
  reaper t member := by
    rw [queue.1,queue.2,visit]
    exact reclaimed.reaper t (unmapped t member)

/-- Of the clients only one moves. -/
theorem moves {c : Nat} {Q : Nat → Prop} {R : Nat → ClientPc → Prop}
    (others : ∀ d, d ≠ c → σ'.client d = σ.client d) (own : ∀ t, R t (σ.client c) → R t (σ'.client c) ∨ Q t) :
    ∀ t d, R t (σ.client d) → R t (σ'.client d) ∨ Q t := by
  intro t d is
  by_cases isC : d = c
  · subst isC
    exact own t is
  · rw [others d isC]
    exact .inl is

theorem reclaimed_detach (reclaimed : Reclaimed σ) {c t : Nat} {env : Env} {pc : DetachPc}
    (here : σ.client c = .detach t pc) (queue : QueueStep σ (.client c env) σ'.queue)
    (done : mythreadDetach σ c t env pc = some σ') : Reclaimed σ' := by
  have effect := mythreadDetach_effect here done
  have returns : ∀ u, σ'.returns.countP (joinReturned u) = σ.returns.countP (joinReturned u) := by
    intro u
    rcases effect.returns with same | ⟨result,more⟩
    · rw [same]
    · rw [more,countP_detach]
  refine reclaimed.congr (fun u is => .inl (effect.reaped u ▸ is)) (fun u is => .inl (effect.joined u ▸ is))
    (moves (c := c) effect.others fun u is => ?_) (moves (c := c) effect.others fun u is => ?_)
    (fun u is => effect.unmapped ▸ is) (fun u is => effect.freed ▸ is) (fun u d is => .inl (effect.freed ▸ is))
    (fun u => (returns u).ge) (queue.unvisited (by simp)) effect.visit
  · rw [here] at is
    exact is.elim
  · rw [here] at is
    exact is.elim

theorem reclaimed_startup (reclaimed : Reclaimed σ) {t : Nat} {choice : Choice}
    (queue : QueueStep σ (.startup t choice) σ'.queue) (done : threadStartup σ t choice = some σ') : Reclaimed σ' := by
  have effect := threadStartup_effect done
  refine reclaimed.congr (fun u is => .inl (effect.reaped u ▸ is)) (fun u is => .inl (effect.joined u ▸ is))
    (fun u c is => .inl ?_) (fun u c is => .inl ?_) (fun u is => effect.unmapped ▸ is) (fun u is => effect.freed ▸ is)
    (fun u d is => .inl (effect.freed ▸ is)) (fun u => by rw [effect.returns]) (queue.unvisited (by simp)) effect.visit
  all_goals rcases effect.clients c with same | ⟨v,wants,was,now⟩
  · exact same ▸ is
  · rw [was] at is
    rw [now]
    exact ⟨is.1,trivial⟩
  · exact same ▸ is
  · rw [was] at is
    exact is.elim

/-- Who has won a join, and has not begun to release the thread, is the first to. -/
theorem Reclaimed.unreaped (reclaimed : Reclaimed σ) (owned : Owned σ) {c t : Nat} (won : Won t (σ.client c))
    (before : ¬ Releases t (σ.client c)) : (σ.flags t).reaped = false := by
  obtain ⟨inf,handed,single,rel⟩ := owned
  have joined := joined_of_won inf won
  by_contra reaped
  rcases reclaimed.begun t (by simpa using reaped) with (⟨d,releases⟩ | ⟨visits,_⟩) | freed
  · exact before (single.winner t d c (won_of_releases releases) won ▸ releases)
  · exact inf.single t ⟨(detached_of_visiting inf handed visits).1,joined⟩
  · rcases rel.settled t with ⟨_,none⟩ | ⟨releaser,rightful,_,none | some⟩
    · exact freed none
    · exact freed none
    · cases releaser with
      | joiner d =>
        have ended := reclaimed.returned t d (by rw [some]; exact List.mem_singleton_self _)
        rw [single.before t c won] at ended
        exact absurd ended (Nat.lt_irrefl 0)
      | reaper => exact inf.single t ⟨rightful.1,joined⟩

theorem reclaimed_joinLoop (reclaimed : Reclaimed σ) {c t : Nat} {wants : Bool} {pc : JoinPc}
    (here : σ.client c = .join t wants pc) (early : ¬ PastExchange pc) (s : Flags) :
    Reclaimed (joinLoop σ c t wants s) := by
  have notWon : ∀ u, ¬ Won u (σ.client c) := fun u is => by rw [here] at is; exact early is.2
  have notReleases : ∀ u, ¬ Releases u (σ.client c) := fun u is => notWon u (won_of_releases is)
  have others := (joinLoop_effect σ c t wants s).others
  have goes : ∀ τ : State, τ.block = σ.block → τ.queue = σ.queue → τ.visit = σ.visit → τ.unmapped = σ.unmapped →
      τ.freed = σ.freed → (∀ d, d ≠ c → τ.client d = σ.client d) →
        (∀ u, σ.returns.countP (joinReturned u) ≤ τ.returns.countP (joinReturned u)) → Reclaimed τ := by
    intro τ block queue visit unmapped freed others returns
    refine reclaimed.congr (fun u is => .inl ?_) (fun u is => .inl ?_)
      (moves (c := c) others fun u is => absurd is (notWon u))
      (moves (c := c) others fun u is => absurd is (notReleases u)) (fun u is => unmapped ▸ is) (fun u is => freed ▸ is)
      (fun u d is => .inl (freed ▸ is)) returns (by rw [queue]; exact ⟨rfl,rfl⟩) visit
    · rwa [State.flags,← block]
    · rwa [State.flags,← block]
  unfold joinLoop at others ⊢
  split at others
  · rename_i detached
    rw [if_pos detached]
    exact goes _ rfl rfl rfl rfl rfl others fun u => (countP_einval σ.returns u c _).ge
  · rename_i undetached
    rw [if_neg undetached]
    split at others
    · rename_i joined
      rw [if_pos joined]
      exact goes _ rfl rfl rfl rfl rfl others fun u => (countP_einval σ.returns u c _).ge
    · rename_i unjoined
      rw [if_neg unjoined]
      exact goes _ rfl rfl rfl rfl rfl others fun u => Nat.le_refl _

theorem reclaimed_join (reclaimed : Reclaimed σ) (owned : Owned σ) {c t : Nat} {wants : Bool} {pc : JoinPc}
    (here : σ.client c = .join t wants pc) : Reclaimed (mythreadJoin σ c t wants pc) := by
  -- From one place behind the compare-exchange, before `MT_REAPED`, to another.
  have goes : ∀ (τ : State) (pc' : JoinPc), τ.block = σ.block → τ.queue = σ.queue → τ.visit = σ.visit →
      τ.unmapped = σ.unmapped → τ.freed = σ.freed → τ.client = Function.update σ.client c (.join t wants pc') →
        τ.returns = σ.returns → PastExchange pc' → ¬ Releases t (.join t wants pc) → Reclaimed τ := by
    intro τ pc' block queue visit unmapped freed client returns past before
    have others : ∀ d, d ≠ c → τ.client d = σ.client d := fun d other => by rw [client,Function.update_of_ne other]
    have own : τ.client c = .join t wants pc' := by rw [client,Function.update_self]
    refine reclaimed.congr (fun u is => .inl ?_) (fun u is => .inl ?_) (moves (c := c) others fun u is => .inl ?_)
      (moves (c := c) others fun u is => ?_) (fun u is => unmapped ▸ is) (fun u is => freed ▸ is)
      (fun u d is => .inl (freed ▸ is)) (fun u => by rw [returns]) (by rw [queue]; exact ⟨rfl,rfl⟩) visit
    · rwa [State.flags,← block]
    · rwa [State.flags,← block]
    · rw [here] at is
      rw [own]
      exact ⟨is.1,past⟩
    · rw [here] at is
      have isT : t = u := (won_of_releases is).1
      exact absurd (isT ▸ is) before
  cases pc with
  | loadState => exact reclaimed_joinLoop reclaimed here id _
  | compareExchange s =>
    simp only [mythreadJoin]
    split
    · rename_i same
      have others : ∀ d, d ≠ c → ((σ.setFlags t { s with joined :=
        true }).clientAt c (.join t wants .loadFinished)).client d =
          σ.client d := fun d other => by simp [State.clientAt,State.setFlags,State.setBlock,other]
      have notWon : ∀ u, ¬ Won u (σ.client c) := fun u is => by rw [here] at is; exact is.2
      have flags : ∀ u, ((σ.setFlags t { s with joined := true }).clientAt c (.join t wants .loadFinished)).flags u =
          if u = t then { s with joined := true } else σ.flags u := fun u => setFlags_flags σ t u _
      refine reclaimed.congr (fun u is => .inl ?_) (fun u is => ?_)
        (moves (c := c) others fun u is => absurd is (notWon u))
        (moves (c := c) others fun u is => absurd (won_of_releases is) (notWon u)) (fun u is => is) (fun u is => is)
        (fun u d is => .inl is) (fun u => Nat.le_refl _) ⟨rfl,rfl⟩ rfl
      · rw [flags] at is
        split at is
        · rename_i isT
          rw [isT,same]
          exact is
        · exact is
      · by_cases isT : u = t
        · refine .inr ⟨c,?_⟩
          simp only [State.clientAt,Function.update_self]
          exact ⟨isT.symm,trivial⟩
        · rw [flags,if_neg isT] at is
          exact .inl is
    · exact reclaimed_joinLoop reclaimed here id _
  | loadFinished =>
    simp only [mythreadJoin]
    split
    · split <;> exact goes _ _ rfl rfl rfl rfl rfl rfl rfl trivial id
    · exact goes _ _ rfl rfl rfl rfl rfl rfl rfl trivial id
  | futexWait =>
    simp only [mythreadJoin]
    split <;> exact goes _ _ rfl rfl rfl rfl rfl rfl rfl trivial id
  | asleep =>
    simp only [mythreadJoin,State.wake,here]
    exact goes _ _ rfl rfl rfl rfl rfl rfl rfl trivial id
  | loadRetval => exact goes _ _ rfl rfl rfl rfl rfl rfl rfl trivial id
  | orReaped stored =>
    have won : Won t (σ.client c) := by rw [here]; exact ⟨rfl,trivial⟩
    have unreaped := reclaimed.unreaped owned won (by rw [here]; exact id)
    simp only [mythreadJoin]
    rw [if_neg (by rw [unreaped]; simp)]
    have flags : ∀ u, ((σ.setFlags t { σ.flags t with reaped := true }).clientAt c
        (.join t wants (.destroyStack stored))).flags u =
          if u = t then { σ.flags t with reaped := true } else σ.flags u := fun u => setFlags_flags σ t u _
    have others : ∀ d, d ≠ c → ((σ.setFlags t { σ.flags t with reaped := true }).clientAt c
        (.join t wants (.destroyStack stored))).client d = σ.client d :=
      fun d other => by simp [State.clientAt,State.setFlags,State.setBlock,other]
    have own : ((σ.setFlags t { σ.flags t with reaped := true }).clientAt c
        (.join t wants (.destroyStack stored))).client c = .join t wants (.destroyStack stored) :=
          by simp [State.clientAt]
    refine reclaimed.congr (fun u is => ?_) (fun u is => .inl ?_) (moves (c := c) others fun u is => .inl ?_)
      (moves (c := c) others fun u is => ?_) (fun u is => is) (fun u is => is) (fun u d is => .inl is)
      (fun u => Nat.le_refl _) ⟨rfl,rfl⟩ rfl
    · by_cases isT : u = t
      · exact .inr ⟨c,by rw [own]; exact isT.symm⟩
      · rw [flags,if_neg isT] at is
        exact .inl is
    · rw [flags] at is
      split at is
      · rename_i isT
        rw [isT]
        exact is
      · exact is
    · rw [here] at is
      rw [own]
      exact ⟨is.1,trivial⟩
    · rw [here] at is
      exact is.elim
  | destroyStack stored =>
    have others := (mythreadJoin_effect here).others
    have own : (mythreadJoin σ c t wants (.destroyStack stored)).client c = .join t wants (.free stored) := by
      simp [mythreadJoin,State.clientAt]
    refine reclaimed.congr (fun u is => .inl is) (fun u is => .inl is) (moves (c := c) others fun u is => .inl ?_)
      (moves (c := c) others fun u is => .inl ?_) (fun u is => ?_) (fun u is => is) (fun u d is => .inl is)
      (fun u => Nat.le_refl _) ⟨rfl,rfl⟩ rfl
    · rw [here] at is
      rw [own]
      exact is
    · rw [here] at is
      rw [own]
      exact is
    · simp only [mythreadJoin,State.clientAt,State.unmap] at is
      by_cases isT : u = t
      · subst isT
        simpa using is
      · rwa [Function.update_of_ne isT] at is
  | free stored =>
    have others := (mythreadJoin_effect here).others
    have released : (mythreadJoin σ c t wants (.free stored)).freed t ≠ [] := by
      simp [mythreadJoin,State.leave,State.clientAt,State.free]
    have returns : ∀ u, (σ.returns ++ [(⟨c,.join t wants,.ok stored⟩ : Return)]).countP (joinReturned u) =
        σ.returns.countP (joinReturned u) + if t = u then 1 else 0 := by
      intro u
      rw [List.countP_append]
      by_cases same : t = u <;> simp [joinReturned,same]
    refine reclaimed.congr (fun u is => .inl is) (fun u is => .inl is) (moves (c := c) others fun u is => .inr ?_)
      (moves (c := c) others fun u is => .inr ?_) (fun u is => is) (fun u is => ?_) (fun u d is => ?_)
      (fun u => ?_) ⟨rfl,rfl⟩ rfl
    · rw [here] at is
      rw [← is.1]
      exact released
    · rw [here] at is
      rw [← (won_of_releases is).1]
      exact released
    · by_cases isT : u = t
      · rw [isT]
        exact released
      · simpa [mythreadJoin,State.leave,State.clientAt,State.free,isT] using is
    · by_cases isT : u = t
      · right
        show 0 < (σ.returns ++ [(⟨c,.join t wants,.ok stored⟩ : Return)]).countP (joinReturned u)
        rw [returns,if_pos isT.symm]
        exact Nat.succ_pos _
      · exact .inl (by simpa [mythreadJoin,State.leave,State.clientAt,State.free,isT] using is)
    · show _ ≤ (σ.returns ++ [(⟨c,.join t wants,.ok stored⟩ : Return)]).countP (joinReturned u)
      rw [returns]
      exact Nat.le_add_right ..

/-! ### The reaper -/

/-- A thread that the reaper visits has not been visited before. -/
theorem not_visited (traced : Traced σ.queue) (fate : Fate t σ.queue) (visits : visiting σ.queue.reaper = some t) :
    t ∉ σ.queue.visited := by
  obtain ⟨queue,batch,returned,inv,hist,_⟩ := traced
  obtain ⟨soon,_,order⟩ := hist.order
  intro member
  have again : t ∈ ReapHistory.threads σ.queue.node (ReapHistory.unvisited σ.queue.reaper batch) := by
    cases here : σ.queue.reaper <;> rw [here] at visits <;> cases visits
    rename_i x next n
    have at_pc := inv.shape.batch
    rw [here] at at_pc
    obtain ⟨rest,rfl,_⟩ := at_pc
    exact List.mem_map.mpr ⟨x,List.mem_cons_self,hist.reading _ _ _ _ here⟩
  have twice : 2 ≤ σ.queue.order.count t := by
    rw [← order,List.count_append,List.count_append,List.count_append]
    have one := List.count_pos_iff.mpr member
    have two := List.count_pos_iff.mpr again
    omega
  cases fate <;> omega

/-- The reaper goes on from a visit when the thread is released. -/
theorem reclaimed_reapStep {env : Env} (reclaimed : Reclaimed σ)
    (ended : ∀ t, visiting σ.queue.reaper = some t → σ.freed t ≠ []) (done : reapStep σ env = some σ') :
    Reclaimed σ' := by
  obtain ⟨queue,stepped,rfl⟩ := Option.map_eq_some_iff.mp done
  have visited := reaperMain_visited stepped
  refine ⟨fun t is => ?_,reclaimed.joined,reclaimed.returned,fun t member => ?_,fun t member => .inl ?_⟩
  · rcases reclaimed.begun t is with (joiner | ⟨visiting,_⟩) | freed
    · exact .inl (.inl joiner)
    · exact .inr (ended t visiting)
    · exact .inr freed
  · simp only [visited,List.mem_append,Option.mem_toList] at member
    exact member.elim (reclaimed.visited t) (ended t)
  · simp only [visited,List.mem_append,Option.mem_toList]
    exact (reclaimed.reaper t member).imp_right And.left

theorem reclaimed_reaper {env : Env} (reclaimed : Reclaimed σ) (owned : Owned σ) (traced : Traced σ.queue)
    (fates : ∀ t, Fate t σ.queue) (done : reaperMain σ env = some σ') : Reclaimed σ' := by
  obtain ⟨inf,handed,single,rel⟩ := owned
  unfold MyThread.reaperMain at done
  split at done
  · rename_i t _ _ _ here
    have visits : visiting σ.queue.reaper = some t := by rw [here]; rfl
    have onlyT : ∀ u, visiting σ.queue.reaper = some u → u = t := fun u is => Option.some.inj (is.symm.trans visits)
    have detached := detached_of_visiting inf handed visits
    have fresh := not_visited traced (fates t) visits
    split at done
    · rename_i visit
      have unreaped : (σ.flags t).reaped = false := by
        by_contra reaped
        rcases reclaimed.begun t (by simpa using reaped) with (⟨c,releases⟩ | ⟨_,busy⟩) | freed
        · exact inf.single t ⟨detached.1,joined_of_won inf (won_of_releases releases)⟩
        · exact busy visit
        · rcases rel.settled t with ⟨_,none⟩ | ⟨releaser,rightful,unmapped,_⟩
          · exact freed none
          · cases releaser with
            | joiner c => exact inf.single t ⟨detached.1,rightful.1⟩
            | reaper =>
              rcases reclaimed.reaper t (by rw [unmapped]; exact List.mem_singleton_self _) with before | ⟨_,last⟩
              · exact fresh before
              · rw [visit] at last
                cases last
      simp only at done
      rw [if_neg (by rw [unreaped]; simp)] at done
      cases done
      have flags : ∀ u, (σ.setFlags t { σ.flags t with reaped := true }).flags u =
          if u = t then { σ.flags t with reaped := true } else σ.flags u := fun u => setFlags_flags σ t u _
      refine ⟨fun u is => ?_,fun u is => ?_,reclaimed.returned,reclaimed.visited,fun u member => ?_⟩
      · by_cases isT : u = t
        · exact .inl (.inr ⟨by rw [isT]; exact visits,by simp⟩)
        · have was : (σ.flags u).reaped = true := by
            have same := flags u
            rw [if_neg isT] at same
            rw [← same]
            exact is
          refine (reclaimed.begun u was).imp_left (Or.imp_right ?_)
          rintro ⟨visiting,_⟩
          exact absurd (onlyT u visiting) isT
      · refine reclaimed.joined u ?_
        have same := flags u
        split at same
        · rename_i isT
          rw [isT] at is same ⊢
          exact (congrArg Flags.joined same).symm.trans is
        · rw [← same]
          exact is
      · refine (reclaimed.reaper u member).imp_right ?_
        rintro ⟨_,last⟩
        rw [visit] at last
        cases last
    · rename_i visit
      cases done
      refine ⟨fun u is => ?_,reclaimed.joined,reclaimed.returned,reclaimed.visited,fun u member => ?_⟩
      · refine (reclaimed.begun u is).imp_left (Or.imp_right ?_)
        rintro ⟨visiting,_⟩
        exact ⟨visiting,by simp⟩
      · by_cases isT : u = t
        · exact .inr ⟨by rw [isT]; exact visits,rfl⟩
        · simp only [State.unmap,Function.update_of_ne isT] at member
          refine (reclaimed.reaper u member).imp_right ?_
          rintro ⟨visiting,_⟩
          exact absurd (onlyT u visiting) isT
    · rename_i visit
      have others : ∀ u, u ≠ t → (σ.free t .reaper).freed u = σ.freed u := fun u other => by simp [State.free,other]
      have released : (σ.free t .reaper).freed t ≠ [] := by simp [State.free]
      have more : ∀ u, σ.freed u ≠ [] → (σ.free t .reaper).freed u ≠ [] := by
        intro u was
        by_cases isT : u = t
        · rw [isT]
          exact released
        · rwa [others u isT]
      have freed : Reclaimed (σ.free t .reaper) := by
        refine ⟨fun u is => (reclaimed.begun u is).imp_right (more u),
          fun u is => (reclaimed.joined u is).imp_right (more u),
          fun u c member => ?_,fun u member => more u (reclaimed.visited u member),reclaimed.reaper⟩
        by_cases isT : u = t
        · subst isT
          exact reclaimed.returned u c (by simpa [State.free] using member)
        · exact reclaimed.returned u c (others u isT ▸ member)
      exact reclaimed_reapStep freed (fun u is => by rw [onlyT u is]; exact released) done
  · rename_i nobody
    refine reclaimed_reapStep reclaimed (fun t visits => ?_) done
    cases here : σ.queue.reaper <;> rw [here] at visits <;> cases visits
    exact absurd here (nobody _ _ _ _)

/-! ### Runs -/

theorem reclaimed_step {a : Act} (reclaimed : Reclaimed σ) (owned : Owned σ) (traced : Traced σ.queue)
    (fates : ∀ t, Fate t σ.queue) (queue : QueueStep σ a σ'.queue) (done : step σ a = some σ') : Reclaimed σ' := by
  cases step_cases done with
  | finish t retval running =>
    exact ⟨reclaimed.begun,reclaimed.joined,reclaimed.returned,reclaimed.visited,reclaimed.reaper⟩
  | startup done => exact reclaimed_startup reclaimed queue done
  | call c call top =>
    refine reclaimed.congr (fun u is => .inl is) (fun u is => .inl is)
      (moves (c := c) (fun d other => ?_) fun u is => ?_)
      (moves (c := c) (fun d other => ?_) fun u is => ?_) (fun u is => is) (fun u is => is) (fun u d is => .inl is)
      (fun u => Nat.le_refl _) ⟨rfl,rfl⟩ rfl
    · simp [State.clientAt,other]
    · rw [top] at is
      exact is.elim
    · simp [State.clientAt,other]
    · rw [top] at is
      exact is.elim
  | join env here => exact reclaimed_join reclaimed owned here
  | detach here done => exact reclaimed_detach reclaimed here queue done
  | reaper done => exact reclaimed_reaper reclaimed owned traced fates done

/-- What is known of a run. -/
structure Known (σ : State) : Prop where
  owned : Owned σ
  hand : HandOver σ
  traced : Traced σ.queue
  fates : ∀ t, Fate t σ.queue
  reclaimed : Reclaimed σ

/-- A thread is lost exactly in the step that finds no memory for its node. -/
theorem known_step {a : Act} (known : Known σ) (done : step σ a = some σ') :
    Known σ' ∧ ∀ t, Whole t σ'.queue ↔ Whole t σ.queue ∧ ¬ Drops t σ a := by
  obtain ⟨owned,hand,traced,fates,reclaimed⟩ := known
  have queue := queue_step owned.handed hand done
  have reclaimed' := reclaimed_step reclaimed owned traced fates queue done
  have owned' := owned_step owned done
  have hand' := handOver_step hand owned.informed done
  cases queue with
  | stays same keeps =>
    rw [same]
    exact ⟨⟨owned',hand',same ▸ traced,same ▸ fates,reclaimed'⟩,fun t => (and_iff_left (keeps t)).symm⟩
  | goes b taken first drops _ =>
    have fate : ∀ t, Fate t σ'.queue ∧ (Whole t σ'.queue ↔ Whole t σ.queue ∧ ¬ ReapCalls.Drops t σ.queue b) := by
      obtain ⟨_,_,_,inv,_,_⟩ := traced
      exact fun t => ReapRest.fate_step inv.nodes (fates t) (fun p is => first p t is) taken
    refine ⟨⟨owned',hand',ReapRest.traced_step traced taken,fun t => (fate t).1,reclaimed'⟩,fun t => ?_⟩
    rw [(fate t).2,drops t]

theorem start_known : Known start where
  owned := start_owned
  hand := (run_handOver (rfl : Transition.run step start [] = _)).2
  traced := ReapRest.start_traced
  fates := ReapRest.start_fate
  reclaimed := start_reclaimed

/-! ### At rest -/

/-- No call is in progress, no thread is behind its start routine, and the reaper
    waits for something to do. -/
structure AtRest (σ : State) : Prop where
  clients : ∀ c, σ.client c = .idle
  threads : ∀ t, σ.startup t = .running ∨ σ.startup t = .exited
  waits : σ.queue.reaper = .loadCount ∨ σ.queue.reaper = .futexWait ∨ σ.queue.reaper = .asleep
  nothing : σ.queue.count = 0

theorem AtRest.queue (rest : AtRest σ) (handed : Handed σ) : ReapRest.Rest σ.queue where
  quiet p := by
    cases p with
    | thread t => exact handed.threads t (by rcases rest.threads t with here | here <;> simp [here])
    | client c => exact handed.clients c fun t => by simp [rest.clients c]
  waits := rest.waits
  nothing := rest.nothing

/-- The thread is released, once, by one party. -/
def ReleasedOnce (t : Nat) (σ : State) : Prop := ∃ r, σ.unmapped t = [r] ∧ σ.freed t = [r]

/-- A thread that is detached and over has been handed over. -/
theorem AtRest.entered (rest : AtRest σ) (hand : HandOver σ)
    (detached : (σ.flags t).detached = true) (exited : σ.startup t = .exited) : σ.queue.entered t = 1 := by
  have queued : (σ.flags t).queued = true := by
    by_contra unqueued
    obtain ⟨c,looks⟩ := hand.seen t (by rw [exited]; trivial) detached (by simpa using unqueued)
    rw [rest.clients c] at looks
    exact looks
  rcases hand.pending t queued with one | thread | ⟨c,commits⟩
  · exact one
  · rw [exited] at thread
    exact thread.elim
  · rw [rest.clients c] at commits
    exact commits.elim

/-- Whatever has been released in part is released as a whole. -/
theorem AtRest.whole (rest : AtRest σ) (known : Known σ) (t : Nat) :
    ReleasedOnce t σ ∨ σ.unmapped t = [] ∧ σ.freed t = [] := by
  obtain ⟨⟨inf,handed,single,rel⟩,_,traced,_,reclaimed⟩ := known
  obtain ⟨_,nobody,_⟩ := (rest.queue handed).settled traced
  rcases rel.settled t with none | ⟨r,rightful,unmapped,freed | freed⟩
  · exact .inr none
  · exfalso
    cases r with
    | joiner c =>
      rcases reclaimed.joined t rightful.1 with ⟨d,won⟩ | done
      · rw [rest.clients d] at won
        exact won
      · exact done freed
    | reaper =>
      rcases reclaimed.reaper t (by rw [unmapped]; exact List.mem_singleton_self _) with visited | ⟨visits,_⟩
      · exact reclaimed.visited t visited freed
      · exact nobody t visits
  · exact .inl ⟨r,unmapped,freed⟩

/-- At rest a thread is released exactly when it is joined, or when it is detached
    and over and has not been lost on its way to the reaper. -/
theorem AtRest.releasedOnce_iff (rest : AtRest σ) (known : Known σ) (t : Nat) :
    ReleasedOnce t σ ↔ (σ.flags t).joined = true ∨
      (σ.flags t).detached = true ∧ σ.startup t = .exited ∧ Whole t σ.queue := by
  have whole := rest.whole known t
  obtain ⟨⟨inf,handed,single,rel⟩,hand,traced,fates,reclaimed⟩ := known
  have queue := rest.queue handed
  obtain ⟨order,nobody,_⟩ := queue.settled traced
  have released : σ.freed t ≠ [] → ReleasedOnce t σ := fun some => whole.resolve_right fun none => some none.2
  refine ⟨?_,?_⟩
  · rintro ⟨r,unmapped,freed⟩
    rcases rel.settled t with ⟨none,_⟩ | ⟨q,rightful,same,_⟩
    · rw [none] at unmapped
      cases unmapped
    rw [same] at unmapped
    cases unmapped
    cases r with
    | joiner c => exact .inl rightful.1
    | reaper =>
      refine .inr ⟨rightful.1,?_,.inr (.inr ?_)⟩
      · refine (rest.threads t).resolve_left fun running => ?_
        have knows := inf.startups t
        rw [running] at knows
        exact absurd (rightful.2.symm.trans knows.1) (by simp)
      · rw [← order]
        refine (reclaimed.reaper t ?_).resolve_right fun visits => nobody t visits.1
        rw [same]
        exact List.mem_singleton_self _
  · rintro (joined | ⟨detached,exited,kept⟩)
    · refine released ((reclaimed.joined t joined).resolve_left ?_)
      rintro ⟨c,won⟩
      rw [rest.clients c] at won
      exact won
    · -- The thread has been handed over, nobody carries it, and it is not lost.
      have entered := rest.entered hand detached exited
      refine released (reclaimed.visited t ?_)
      rw [order]
      rcases kept with none | ⟨p,carries⟩ | member
      · omega
      · simp [ReapCalls.carried,queue.quiet p] at carries
      · exact member

/-! ### Threads that nobody has touched -/

/-- The steps of a party change the block of one thread. -/
theorem join_block {c u : Nat} {wants : Bool} {pc : JoinPc} (other : t ≠ u) :
    (mythreadJoin σ c u wants pc).block t = σ.block t := by
  have flags : ∀ f, (σ.setFlags u f).block t = σ.block t := fun f => by
    simp [State.setFlags,State.setBlock,other]
  have loop : ∀ s, (joinLoop σ c u wants s).block t = σ.block t := by
    intro s
    unfold joinLoop
    split
    · rfl
    · split <;> rfl
  cases pc <;> simp only [mythreadJoin]
  case loadState => exact loop _
  case compareExchange s =>
    split
    · exact flags _
    · exact loop _
  case loadFinished => split <;> [split;skip] <;> rfl
  case futexWait => split <;> rfl
  case asleep => rw [(wake_frame σ c).1]
  case orReaped => split <;> exact flags _
  all_goals rfl

theorem detach_block {c u : Nat} {env : Env} {pc : DetachPc} (done : mythreadDetach σ c u env pc = some σ')
    (other : t ≠ u) : σ'.block t = σ.block t := by
  have flags : ∀ f, (σ.setFlags u f).block t = σ.block t := fun f => by
    simp [State.setFlags,State.setBlock,other]
  have loop : ∀ s, (detachLoop σ c u s).block t = σ.block t := by
    intro s
    unfold detachLoop
    split
    · rfl
    · split <;> rfl
  cases pc <;> simp only [mythreadDetach] at done
  case loadState => cases done; exact loop _
  case compareExchange s =>
    split at done <;> cases done
    · exact flags _
    · exact loop _
  case loadFinished => split at done <;> cases done <;> rfl
  case orQueued => split at done <;> cases done <;> exact flags _
  case startReaper => cases done; rfl
  case callEnqueue => cases done; rfl
  case enqueueing =>
    obtain ⟨queue,_,rfl⟩ := Option.map_eq_some_iff.mp done
    split <;> rfl

theorem startup_block {u : Nat} {choice : Choice} (done : threadStartup σ u choice = some σ') (other : t ≠ u) :
    σ'.block t = σ.block t := by
  have sets : ∀ block, (σ.setBlock u block).block t = σ.block t := fun block => by simp [State.setBlock,other]
  cases here : σ.startup u <;> simp only [threadStartup,here] at done
  case running => cases done
  case exited => cases done
  case storeRetval => cases done; exact sets _
  case storeFinished => cases done; exact sets _
  case futexWake =>
    cases done
    rcases futexWake_cases σ u choice.pick with same | ⟨c,woken⟩
    · rw [same]; rfl
    · rw [woken]; exact congrFun (wake_frame σ c).1 t
  case loadState => split at done <;> cases done <;> rfl
  case orQueued => split at done <;> cases done <;> exact sets _
  case enqueueing =>
    obtain ⟨queue,_,rfl⟩ := Option.map_eq_some_iff.mp done
    split <;> rfl
  all_goals cases done; rfl

theorem not_running {u : Nat} {choice : Choice} (done : threadStartup σ u choice = some σ') :
    σ'.startup u ≠ .running := by
  have at_pc : ∀ (τ : State) (pc : StartupPc), pc ≠ .running → (τ.startupAt u pc).startup u ≠ .running := by
    intro τ pc other
    simpa [State.startupAt] using other
  cases here : σ.startup u <;> simp only [threadStartup,here] at done
  case running => cases done
  case exited => cases done
  case loadState => split at done <;> cases done <;> exact at_pc _ _ (by simp)
  case orQueued => split at done <;> cases done <;> exact at_pc _ _ (by simp)
  case enqueueing =>
    obtain ⟨queue,_,rfl⟩ := Option.map_eq_some_iff.mp done
    split
    · exact at_pc _ _ (by simp)
    · rw [here]
      simp
  all_goals cases done; exact at_pc _ _ (by simp)

theorem reaper_block {env : Env} (done : reaperMain σ env = some σ') (other : visiting σ.queue.reaper ≠ some t) :
    σ'.block t = σ.block t := by
  have goes : ∀ {τ : State}, reapStep τ env = some σ' → σ'.block = τ.block := by
    intro τ done
    obtain ⟨queue,_,rfl⟩ := Option.map_eq_some_iff.mp done
    rfl
  simp only [MyThread.reaperMain] at done
  split at done
  · rename_i u _ _ _ here
    have notT : t ≠ u := fun isT => other (by rw [here,isT]; rfl)
    have flags : ∀ f, (σ.setFlags u f).block t = σ.block t := fun f => by simp [State.setFlags,State.setBlock,notT]
    split at done
    · split at done
      · rw [goes done]; exact flags _
      · cases done; exact flags _
    · cases done; rfl
    · rw [goes done]; rfl
  · rw [goes done]

/-- Before its start routine returns, and before there is a call on it, the block of a
    thread is as it was. -/
def Untouched (t : Nat) (σ : State) : Prop :=
  σ.startup t = .running → (∀ made ∈ σ.calls, made.2.thread ≠ t) → σ.block t = start.block t

theorem untouched_step {a : Act} (untouched : Untouched t σ) (owned : Owned σ) (called : Called σ)
    (done : step σ a = some σ') : Untouched t σ' := by
  intro running none
  have calls := ThreadCalls.calls_step done
  have before : ∀ made ∈ σ.calls, made.2.thread ≠ t := fun made member => none made (by rw [calls]; simp [member])
  have outside : ∀ {c call u}, callOf (σ.client c) = some call → call.thread = u → t ≠ u := by
    intro c call u inside on same
    exact before _ (called.made c call inside) (on.trans same.symm)
  cases step_cases done with
  | finish u retval here =>
    by_cases isT : t = u
    · simp [State.startupAt,isT] at running
    · exact untouched (by simpa [State.startupAt,isT] using running) before
  | @startup u choice _ done =>
    by_cases isT : t = u
    · subst isT
      exact absurd running (not_running done)
    · rw [startup_block done isT]
      exact untouched ((threadStartup_effect done).others t isT ▸ running) before
  | call c call top => exact untouched running before
  | @join c u wants pc env here =>
    have isNotU : t ≠ u := outside (c := c) (by rw [here]; rfl) (rfl : (Call.join u wants).thread = u)
    rw [join_block isNotU]
    exact untouched ((mythreadJoin_effect here).startup ▸ running) before
  | @detach c u pc env _ here done =>
    have isNotU : t ≠ u := outside (c := c) (by rw [here]; rfl) (rfl : (Call.detach u).thread = u)
    rw [detach_block done isNotU]
    exact untouched ((mythreadDetach_effect here done).startup ▸ running) before
  | reaper done =>
    have was : σ.startup t = .running := (reaperMain_effect done).startup ▸ running
    rw [reaper_block done ?_]
    · exact untouched was before
    · intro visits
      have finished := (detached_of_visiting owned.informed owned.handed visits).2
      have knows := owned.informed.startups t
      rw [was] at knows
      exact absurd (finished.symm.trans knows.1) (by simp)

end Os5Sem.ThreadReclaim

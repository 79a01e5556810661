import Os5Sem.ThreadOwnership
import Os5Sem.ThreadCalls

/-!
The hand-over of a detached thread to the reaper. The thread stores `finished`
and then loads `state`, a detacher sets `MT_DETACHED` and then loads `finished`:
at least one of them sees that the other one was there, and `MT_QUEUED` lets only
one of them call `reap_enqueue` (`HandOver`).
-/
namespace Os5Sem.ThreadHandOver
open Os5Sem.MyThread Os5Sem.ThreadSteps Os5Sem.ThreadFacts Os5Sem.ThreadQueue Os5Sem.ThreadOwnership
open Os5Sem.ReapQueue (Env)
open Os5Sem.ThreadCalls (callOf Called called_step start_called)

variable {σ σ' : State}

/-- The client has set `MT_QUEUED` and is going to call `reap_enqueue`. -/
def Commits (t : Nat) : ClientPc → Prop
  | .detach u .startReaper | .detach u .callEnqueue => u = t
  | _ => False

def ThreadCommits : StartupPc → Prop
  | .startReaper | .callEnqueue => True
  | _ => False

/-- The client has set `MT_DETACHED` and is going to look at `finished`, or has
    seen that it is set. -/
def Looks (t : Nat) : ClientPc → Prop
  | .detach u .loadFinished | .detach u .orQueued => u = t
  | _ => False

/-- The thread has reached its exit. -/
def AtExit : StartupPc → Prop
  | .exit | .exited => True
  | _ => False

/-- Who is going to hand over which thread. -/
structure HandOver (σ : State) : Prop where
  client : ∀ t c, Commits t (σ.client c) → σ.queue.entered t = 0
  thread : ∀ t, ThreadCommits (σ.startup t) → σ.queue.entered t = 0
  clients : ∀ t c d, Commits t (σ.client c) → Commits t (σ.client d) → c = d
  apart : ∀ t c, Commits t (σ.client c) → ¬ ThreadCommits (σ.startup t)
  once : ∀ t, σ.queue.entered t ≤ 1
  pending : ∀ t, (σ.flags t).queued = true →
    σ.queue.entered t = 1 ∨ ThreadCommits (σ.startup t) ∨ ∃ c, Commits t (σ.client c)
  seen : ∀ t, AtExit (σ.startup t) → (σ.flags t).detached = true → (σ.flags t).queued = false →
    ∃ c, Looks t (σ.client c)

theorem queued_of_commits (inf : Informed σ) {t c : Nat} (commits : Commits t (σ.client c)) :
    (σ.flags t).queued = true := by
  have knows := inf.clients c
  cases here : σ.client c with
  | detach u pc =>
    rw [here] at commits knows
    cases pc <;> first | exact commits.elim | (cases commits; exact knows.2.2)
  | _ => rw [here] at commits; exact commits.elim

theorem queued_of_threadCommits (inf : Informed σ) {t : Nat} (commits : ThreadCommits (σ.startup t)) :
    (σ.flags t).queued = true := by
  have knows := inf.startups t
  cases here : σ.startup t <;> rw [here] at commits knows <;> first | exact commits.elim | exact knows.2.2.2

theorem finished_of_atExit (inf : Informed σ) {t : Nat} (atExit : AtExit (σ.startup t)) : σ.finished t = true := by
  have knows := inf.startups t
  cases here : σ.startup t <;> rw [here] at atExit knows <;> first | exact atExit.elim | exact knows.1

/-- A step that hands nothing over, and after which the same parties are going to. -/
theorem HandOver.congr (hand : HandOver σ) (entered : σ'.queue.entered = σ.queue.entered)
    (detached : ∀ t, (σ'.flags t).detached = (σ.flags t).detached)
    (queued : ∀ t, (σ'.flags t).queued = (σ.flags t).queued)
    (clients : ∀ t c, Commits t (σ'.client c) ↔ Commits t (σ.client c))
    (threads : ∀ t, ThreadCommits (σ'.startup t) ↔ ThreadCommits (σ.startup t))
    (looks : ∀ t c, Looks t (σ.client c) → AtExit (σ'.startup t) → (σ.flags t).queued = false → Looks t (σ'.client c))
    (exits : ∀ t, AtExit (σ'.startup t) → AtExit (σ.startup t) ∨ (σ.flags t).detached = false ∨
      (σ.flags t).queued = true) :
    HandOver σ' where
  client t c commits := by rw [entered]; exact hand.client t c ((clients t c).mp commits)
  thread t commits := by rw [entered]; exact hand.thread t ((threads t).mp commits)
  clients t c d one two := hand.clients t c d ((clients t c).mp one) ((clients t d).mp two)
  apart t c commits thread := hand.apart t c ((clients t c).mp commits) ((threads t).mp thread)
  once t := by rw [entered]; exact hand.once t
  pending t is := by
    rw [entered,threads]
    rcases hand.pending t (queued t ▸ is) with done | thread | ⟨c,commits⟩
    · exact .inl done
    · exact .inr (.inl thread)
    · exact .inr (.inr ⟨c,(clients t c).mpr commits⟩)
  seen t atExit isDetached notQueued := by
    rw [detached] at isDetached
    rw [queued] at notQueued
    rcases exits t atExit with before | other | other
    · obtain ⟨c,was⟩ := hand.seen t before isDetached notQueued
      exact ⟨c,looks t c was atExit notQueued⟩
    · exact absurd (other.symm.trans isDetached) (by simp)
    · exact absurd (other.symm.trans notQueued) (by simp)

/-- Only the program point of one client changes. -/
theorem HandOver.clientAt (hand : HandOver σ) {c : Nat} (entered : σ'.queue.entered = σ.queue.entered)
    (detached : ∀ t, (σ'.flags t).detached = (σ.flags t).detached)
    (queued : ∀ t, (σ'.flags t).queued = (σ.flags t).queued)
    (startup : σ'.startup = σ.startup) (others : ∀ d, d ≠ c → σ'.client d = σ.client d)
    (commits : ∀ t, Commits t (σ'.client c) ↔ Commits t (σ.client c))
    (looks : ∀ t, Looks t (σ.client c) → AtExit (σ.startup t) → (σ.flags t).queued = false → Looks t (σ'.client c)) :
    HandOver σ' := by
  refine hand.congr entered detached queued (fun t d => ?_) (fun t => by rw [startup]) (fun t d is => ?_)
    (fun t is => .inl (startup ▸ is))
  · by_cases isC : d = c
    · rw [isC]; exact commits t
    · rw [others d isC]
  · rw [startup]
    by_cases isC : d = c
    · subst isC; exact looks t is
    · rw [others d isC]; exact fun _ _ => is

theorem handOver_join (hand : HandOver σ) {c t : Nat} {wants : Bool} {pc : JoinPc}
    (here : σ.client c = .join t wants pc) :
    HandOver (mythreadJoin σ c t wants pc) := by
  have effect := mythreadJoin_effect here
  have after : ∀ u, ¬ Commits u ((mythreadJoin σ c t wants pc).client c) := by
    intro u is
    rcases effect.own with idle | ⟨pc',now⟩
    · rw [idle] at is; exact is
    · rw [now] at is; exact is
  refine hand.clientAt (by rw [effect.queue]) effect.detached effect.queued effect.startup effect.others (fun u => ?_)
    (fun u is => ?_)
  · exact iff_of_false (after u) (by rw [here]; exact id)
  · rw [here] at is; exact is.elim

theorem handOver_reaper (hand : HandOver σ) (effect : ReaperEffect σ σ') : HandOver σ' :=
  hand.congr effect.entered effect.detached effect.queued (fun _ _ => by rw [effect.client])
    (fun _ => by rw [effect.startup]) (fun _ _ is _ _ => effect.client ▸ is) fun _ is => .inl (effect.startup ▸ is)

/-- A party sets `MT_QUEUED` and is going to hand over the thread. -/
theorem HandOver.commit (hand : HandOver σ) (inf : Informed σ) {t : Nat} (unqueued : (σ.flags t).queued = false)
    (entered : σ'.queue.entered = σ.queue.entered) (queued : ∀ u, (σ'.flags u).queued = true ↔
      u = t ∨ (σ.flags u).queued = true)
    (detached : ∀ u, (σ'.flags u).detached = (σ.flags u).detached)
    (clients : ∀ u c, u ≠ t → (Commits u (σ'.client c) ↔ Commits u (σ.client c)))
    (threads : ∀ u, u ≠ t → (ThreadCommits (σ'.startup u) ↔ ThreadCommits (σ.startup u)))
    (looks : ∀ u c, u ≠ t → Looks u (σ.client c) → Looks u (σ'.client c))
    (exits : ∀ u, u ≠ t → AtExit (σ'.startup u) → AtExit (σ.startup u))
    (single : (∀ c, ¬ Commits t (σ'.client c)) ∧ ThreadCommits (σ'.startup t) ∨
      ¬ ThreadCommits (σ'.startup t) ∧ ∃ c, Commits t (σ'.client c) ∧ ∀ d, Commits t (σ'.client d) → d = c) :
    HandOver σ' := by
  have none : σ.queue.entered t = 0 := by
    by_contra some
    exact absurd ((inf.entered t (by omega)).symm.trans unqueued) (by simp)
  have zero : ∀ u, u = t → σ'.queue.entered u = 0 := fun u isT => by rw [entered,isT]; exact none
  constructor
  case client =>
    intro u c is
    by_cases isT : u = t
    · exact zero u isT
    · rw [entered]; exact hand.client u c ((clients u c isT).mp is)
  case thread =>
    intro u is
    by_cases isT : u = t
    · exact zero u isT
    · rw [entered]; exact hand.thread u ((threads u isT).mp is)
  case clients =>
    intro u c d one two
    by_cases isT : u = t
    · subst isT
      rcases single with ⟨nobody,_⟩ | ⟨_,e,_,only⟩
      · exact absurd one (nobody c)
      · rw [only c one,only d two]
    · exact hand.clients u c d ((clients u c isT).mp one) ((clients u d isT).mp two)
  case apart =>
    intro u c is thread
    by_cases isT : u = t
    · subst isT
      rcases single with ⟨nobody,_⟩ | ⟨notThread,_⟩
      · exact nobody c is
      · exact notThread thread
    · exact hand.apart u c ((clients u c isT).mp is) ((threads u isT).mp thread)
  case once =>
    intro u
    rw [entered]
    exact hand.once u
  case pending =>
    intro u is
    by_cases isT : u = t
    · subst isT
      rcases single with ⟨_,thread⟩ | ⟨_,c,commits,_⟩
      · exact .inr (.inl thread)
      · exact .inr (.inr ⟨c,commits⟩)
    · rw [entered,threads u isT]
      rcases hand.pending u (((queued u).mp is).resolve_left isT) with done | thread | ⟨c,commits⟩
      · exact .inl done
      · exact .inr (.inl thread)
      · exact .inr (.inr ⟨c,(clients u c isT).mpr commits⟩)
  case seen =>
    intro u atExit isDetached notQueued
    have isNotT : u ≠ t := fun isT => absurd ((queued u).mpr (.inl isT)) (by simp [notQueued])
    have before : (σ.flags u).queued = false := by
      by_contra is
      exact absurd ((queued u).mpr (.inr (by simpa using is))) (by simp [notQueued])
    obtain ⟨c,was⟩ := hand.seen u (exits u isNotT atExit) (detached u ▸ isDetached) before
    exact ⟨c,looks u c isNotT was⟩

/-- The party that is going to hand over a thread calls `reap_enqueue`. -/
theorem HandOver.enter (hand : HandOver σ) {t : Nat} (zero : σ.queue.entered t = 0)
    (entered : σ'.queue.entered = Function.update σ.queue.entered t (σ.queue.entered t + 1))
    (flags : ∀ u, σ'.flags u = σ.flags u)
    (clients : ∀ u c, u ≠ t → (Commits u (σ'.client c) ↔ Commits u (σ.client c)))
    (threads : ∀ u, u ≠ t → (ThreadCommits (σ'.startup u) ↔ ThreadCommits (σ.startup u)))
    (nobody : (∀ c, ¬ Commits t (σ'.client c)) ∧ ¬ ThreadCommits (σ'.startup t))
    (looks : ∀ u c, Looks u (σ.client c) → Looks u (σ'.client c))
    (exits : ∀ u, AtExit (σ'.startup u) → AtExit (σ.startup u)) : HandOver σ' := by
  have other : ∀ u, u ≠ t → σ'.queue.entered u = σ.queue.entered u := fun u isNotT => by
    rw [entered,Function.update_of_ne isNotT]
  have one : σ'.queue.entered t = 1 := by rw [entered,Function.update_self,zero]
  constructor
  case client =>
    intro u c is
    by_cases isT : u = t
    · subst isT; exact absurd is (nobody.1 c)
    · rw [other u isT]; exact hand.client u c ((clients u c isT).mp is)
  case thread =>
    intro u is
    by_cases isT : u = t
    · subst isT; exact absurd is nobody.2
    · rw [other u isT]; exact hand.thread u ((threads u isT).mp is)
  case clients =>
    intro u c d is is'
    by_cases isT : u = t
    · subst isT; exact absurd is (nobody.1 c)
    · exact hand.clients u c d ((clients u c isT).mp is) ((clients u d isT).mp is')
  case apart =>
    intro u c is thread
    by_cases isT : u = t
    · subst isT; exact absurd is (nobody.1 c)
    · exact hand.apart u c ((clients u c isT).mp is) ((threads u isT).mp thread)
  case once =>
    intro u
    by_cases isT : u = t
    · rw [isT,one]
    · rw [other u isT]; exact hand.once u
  case pending =>
    intro u is
    by_cases isT : u = t
    · subst isT; exact .inl one
    · rw [other u isT,threads u isT]
      rcases hand.pending u (flags u ▸ is) with done | thread | ⟨c,commits⟩
      · exact .inl done
      · exact .inr (.inl thread)
      · exact .inr (.inr ⟨c,(clients u c isT).mpr commits⟩)
  case seen =>
    intro u atExit isDetached notQueued
    obtain ⟨c,was⟩ := hand.seen u (exits u atExit) (flags u ▸ isDetached) (flags u ▸ notQueued)
    exact ⟨c,looks u c was⟩

theorem handOver_detachLoop (hand : HandOver σ) {c t : Nat} (s : Flags) (before : ∀ u, ¬ Commits u (σ.client c))
    (notLooks : ∀ u, ¬ Looks u (σ.client c)) : HandOver (detachLoop σ c t s) := by
  have effect := detachLoop_effect σ c t s
  unfold detachLoop at effect ⊢
  split
  · exact hand.clientAt rfl (fun _ => rfl) (fun _ => rfl) rfl
      (fun d other => by simp [State.leave,State.clientAt,other])
      (fun u => by simpa [State.leave,State.clientAt,Commits] using before u) fun u is => absurd is (notLooks u)
  · split
    · exact hand.clientAt rfl (fun _ => rfl) (fun _ => rfl) rfl
        (fun d other => by simp [State.leave,State.clientAt,other])
        (fun u => by simpa [State.leave,State.clientAt,Commits] using before u) fun u is => absurd is (notLooks u)
    · exact hand.clientAt rfl (fun _ => rfl) (fun _ => rfl) rfl (fun d other => by simp [State.clientAt,other])
        (fun u => by simpa [State.clientAt,Commits] using before u) fun u is => absurd is (notLooks u)

/-- A detacher sets `MT_DETACHED`: it is the one that is going to look. -/
theorem handOver_compareExchange (hand : HandOver σ) {c t : Nat} {env : Env} {s : Flags}
    (here : σ.client c = .detach t (.compareExchange s))
    (done : mythreadDetach σ c t env (.compareExchange s) = some σ') : HandOver σ' := by
  simp only [mythreadDetach] at done
  split at done
  · rename_i same
    cases done
    have flags : ∀ u, ((σ.setFlags t { s with detached := true }).flags u).queued = (σ.flags u).queued := by
      intro u
      rw [setFlags_flags]
      split
      · rename_i isT; rw [isT,same.1]
      · rfl
    have commits : ∀ u d, Commits u (((σ.setFlags t { s with detached := true }).clientAt c
        (.detach t .loadFinished)).client d) ↔ Commits u (σ.client d) := by
      intro u d
      by_cases isC : d = c
      · subst isC; rw [here]; simp [State.clientAt,Commits]
      · simp [State.clientAt,State.setFlags,State.setBlock,isC]
    refine ⟨fun u d is => hand.client u d ((commits u d).mp is),hand.thread,
      fun u d e one two => hand.clients u d e ((commits u d).mp one) ((commits u e).mp two),
      fun u d is => hand.apart u d ((commits u d).mp is),hand.once,fun u is => ?_,
        fun u atExit isDetached notQueued => ?_⟩
    · exact (hand.pending u ((flags u).symm.trans is)).imp_right fun rest =>
        rest.imp_right (Exists.imp fun d => (commits u d).mpr)
    · by_cases isT : u = t
      · -- The detacher itself is going to look at `finished`.
        subst isT
        exact ⟨c,by simp [State.clientAt,Looks]⟩
      · have wasDetached : (σ.flags u).detached = true := by
          have := setFlags_flags σ t u { s with detached := true }
          rw [if_neg isT] at this
          rw [← this]
          exact isDetached
        obtain ⟨d,was⟩ := hand.seen u atExit wasDetached ((flags u).symm.trans notQueued)
        have isNotC : d ≠ c := by
          intro isC
          rw [isC,here] at was
          exact was
        exact ⟨d,by simpa [State.clientAt,State.setFlags,State.setBlock,isNotC] using was⟩
  · cases done
    exact handOver_detachLoop hand _ (fun u => by rw [here]; exact id) fun u => by rw [here]; exact id

/-- A detacher that finds the thread unfinished leaves: the thread is not at its exit. -/
theorem handOver_loadFinished (hand : HandOver σ) (inf : Informed σ) {c t : Nat} {env : Env}
    (here : σ.client c = .detach t .loadFinished) (done : mythreadDetach σ c t env .loadFinished = some σ') :
    HandOver σ' := by
  have effect := mythreadDetach_effect here done
  have other : ∀ u, ¬ Commits u (σ.client c) := fun u => by rw [here]; exact id
  simp only [mythreadDetach] at done
  split at done <;> cases done
  · refine hand.clientAt rfl (fun _ => rfl) (fun _ => rfl) rfl effect.others
      (fun u => by simpa [State.clientAt,Commits] using other u) fun u is _ _ => ?_
    rw [here] at is
    simpa [State.clientAt,Looks] using is
  · rename_i unfinished
    refine hand.clientAt rfl (fun _ => rfl) (fun _ => rfl) rfl effect.others
      (fun u => by simpa [State.leave,State.clientAt,Commits] using other u) fun u is atExit _ => ?_
    -- A thread at its exit is finished, which the detacher would have seen.
    rw [here] at is
    obtain rfl : t = u := is
    exact absurd (finished_of_atExit inf atExit) unfinished

/-- A detacher that is the first to set `MT_QUEUED` is going to hand over the thread. -/
theorem handOver_orQueued (hand : HandOver σ) (inf : Informed σ) {c t : Nat} {env : Env}
    (here : σ.client c = .detach t .orQueued) (done : mythreadDetach σ c t env .orQueued = some σ') : HandOver σ' := by
  have effect := mythreadDetach_effect here done
  have other : ∀ u, ¬ Commits u (σ.client c) := fun u => by rw [here]; exact id
  simp only [mythreadDetach] at done
  split at done
  · rename_i queued
    cases done
    have flags : ∀ u, (σ.setFlags t { σ.flags t with queued := true }).flags u = σ.flags u := by
      intro u
      rw [setFlags_flags]
      split
      · rename_i isT; rw [isT,← queued]
      · rfl
    refine hand.clientAt rfl (fun u => congrArg Flags.detached (flags u)) (fun u => congrArg Flags.queued (flags u)) rfl
      effect.others (fun u => by simpa [State.leave,State.clientAt,Commits] using other u) fun u is _ unqueued => ?_
    rw [here] at is
    obtain rfl : t = u := is
    exact absurd (queued.symm.trans unqueued) (by simp)
  · rename_i unqueued
    cases done
    have flags : ∀ u, (σ.setFlags t { σ.flags t with queued := true }).flags u =
        if u = t then { σ.flags t with queued := true } else σ.flags u := fun u => setFlags_flags σ t u _
    refine hand.commit inf (t := t) (by simpa using unqueued) rfl (fun u => ?_) (fun u => ?_) (fun u d isNotT => ?_)
      (fun _ _ => .rfl) (fun u d isNotT is => ?_) (fun _ _ => id) (.inr ⟨fun thread => ?_,c,?_,fun d is => ?_⟩)
    · show ((σ.setFlags t { σ.flags t with queued := true }).flags u).queued = true ↔ _
      rw [flags]
      by_cases isT : u = t <;> simp [isT]
    · show ((σ.setFlags t { σ.flags t with queued := true }).flags u).detached = _
      rw [flags]
      by_cases isT : u = t <;> simp [isT]
    · by_cases isC : d = c
      · subst isC
        rw [here]
        simp [State.clientAt,Commits,Ne.symm isNotT]
      · rw [effect.others d isC]
    · by_cases isC : d = c
      · subst isC
        rw [here] at is
        exact absurd is.symm isNotT
      · rw [effect.others d isC]; exact is
    · exact absurd (queued_of_threadCommits inf thread) unqueued
    · simp [State.clientAt,Commits]
    · by_contra isC
      rw [effect.others d isC] at is
      exact unqueued (queued_of_commits inf is)

theorem handOver_detach (hand : HandOver σ) (inf : Informed σ) {c t : Nat} {env : Env} {pc : DetachPc}
    (here : σ.client c = .detach t pc) (done : mythreadDetach σ c t env pc = some σ') : HandOver σ' := by
  have effect := mythreadDetach_effect here done
  cases pc with
  | loadState =>
    cases done
    exact handOver_detachLoop hand _ (fun u => by rw [here]; exact id) fun u => by rw [here]; exact id
  | compareExchange s => exact handOver_compareExchange hand here done
  | loadFinished => exact handOver_loadFinished hand inf here done
  | orQueued => exact handOver_orQueued hand inf here done
  | startReaper =>
    cases done
    refine hand.clientAt rfl (fun _ => rfl) (fun _ => rfl) rfl effect.others (fun u => ?_) fun u is => ?_
    · rw [here]; simp [State.clientAt,Commits]
    · rw [here] at is; exact is.elim
  | callEnqueue =>
    have mine : Commits t (σ.client c) := by rw [here]; rfl
    have own : ∀ u, ¬ Commits u (.detach t .enqueueing) := fun _ => id
    cases done
    refine hand.enter (t := t) (hand.client t c mine) rfl (fun _ => rfl) (fun u d isNotT => ?_) (fun _ _ => .rfl)
      ⟨fun d is => ?_,hand.apart t c mine⟩ (fun u d is => ?_) fun _ => id
    all_goals by_cases isC : d = c
    · subst isC; rw [here]; simp [State.clientAt,Commits,Ne.symm isNotT]
    · rw [effect.others d isC]
    · subst isC; simp [State.clientAt,Commits] at is
    · rw [effect.others d isC] at is
      exact isC (hand.clients t d c is mine)
    · subst isC; rw [here] at is; exact is.elim
    · rw [effect.others d isC]; exact is
  | enqueueing =>
    obtain ⟨queue,stepped,rfl⟩ := Option.map_eq_some_iff.mp done
    have entered := (reapEnqueue_frame stepped).1
    have moved : HandOver { σ with queue } :=
      hand.congr entered (fun _ => rfl) (fun _ => rfl) (fun _ _ => .rfl) (fun _ => .rfl)
        (fun _ _ is _ _ => is) fun _ => .inl
    split
    · refine moved.clientAt (c := c) rfl (fun _ => rfl) (fun _ => rfl) rfl
        (fun d other => by simp [State.leave,State.clientAt,other]) (fun u => ?_) fun u is => ?_
      · rw [show State.client { σ with queue } c = _ from here]; simp [State.leave,State.clientAt,Commits]
      · rw [show State.client { σ with queue } c = _ from here] at is; exact is.elim
    · exact moved

/-- A thread's steps do not change which clients are going to do what. -/
theorem commits_startup {t : Nat} (effect : StartupEffect σ σ' t) (u c : Nat) :
    (Commits u (σ'.client c) ↔ Commits u (σ.client c)) ∧ (Looks u (σ.client c) → Looks u (σ'.client c)) := by
  rcases effect.clients c with same | ⟨v,wants,was,now⟩
  · rw [same]; exact ⟨.rfl,id⟩
  · rw [was,now]; exact ⟨.rfl,id⟩

/-- A step of a thread that does not decide whether it is handed over. -/
theorem HandOver.goes (hand : HandOver σ) {t : Nat} (effect : StartupEffect σ σ' t)
    (entered : σ'.queue.entered = σ.queue.entered) (queued : ∀ u, (σ'.flags u).queued = (σ.flags u).queued)
    (commits : ThreadCommits (σ'.startup t) ↔ ThreadCommits (σ.startup t))
    (exits : AtExit (σ'.startup t) → AtExit (σ.startup t) ∨ (σ.flags t).detached = false ∨ (σ.flags t).queued = true) :
    HandOver σ' := by
  refine hand.congr entered effect.detached queued (fun u c => (commits_startup effect u c).1) (fun u => ?_)
    (fun u c is _ _ => (commits_startup effect u c).2 is) fun u is => ?_
  · by_cases isT : u = t
    · rw [isT]; exact commits
    · rw [effect.others u isT]
  · by_cases isT : u = t
    · subst isT; exact exits is
    · rw [effect.others u isT] at is; exact .inl is

theorem handOver_startup (hand : HandOver σ) (inf : Informed σ) {t : Nat} {choice : Choice}
    (done : threadStartup σ t choice = some σ') : HandOver σ' := by
  have effect := threadStartup_effect done
  have knows := inf.startups t
  cases here : σ.startup t with
  | running => simp [threadStartup,here] at done
  | exited => simp [threadStartup,here] at done
  | storeRetval retval =>
    simp only [threadStartup,here] at done
    cases done
    have flags : ∀ u, (σ.setBlock t { σ.block t with retval }).flags u = σ.flags u := setBlock_flags σ rfl
    exact hand.goes effect rfl (fun u => congrArg Flags.queued (flags u)) (by simp [here,State.startupAt,ThreadCommits])
      (by simp [State.startupAt,AtExit])
  | storeFinished =>
    simp only [threadStartup,here] at done
    cases done
    have flags : ∀ u, (σ.setBlock t { σ.block t with finished := true }).flags u = σ.flags u := setBlock_flags σ rfl
    exact hand.goes effect rfl (fun u => congrArg Flags.queued (flags u)) (by simp [here,State.startupAt,ThreadCommits])
      (by simp [State.startupAt,AtExit])
  | futexWake =>
    have same : σ'.block = σ.block ∧ σ'.queue = σ.queue ∧ σ'.startup t = .loadState := by
      simp only [threadStartup,here] at done
      cases done
      rcases futexWake_cases σ t choice.pick with same | ⟨c,woken⟩
      · rw [same]; exact ⟨rfl,rfl,Function.update_self ..⟩
      · rw [woken]
        obtain ⟨block,_,_,queue,_⟩ := wake_frame σ c
        exact ⟨block,queue,Function.update_self ..⟩
    obtain ⟨block,queue,now⟩ := same
    exact hand.goes effect (by rw [queue]) (fun u => congrArg (fun blocks => (blocks u).state.queued) block)
      (by simp [here,now,ThreadCommits]) (by simp [now,AtExit])
  | loadState =>
    simp only [threadStartup,here] at done
    split at done <;> cases done
    · exact hand.goes effect rfl (fun _ => rfl) (by simp [here,State.startupAt,ThreadCommits])
        (by simp [State.startupAt,AtExit])
    · rename_i attached
      exact hand.goes effect rfl (fun _ => rfl) (by simp [here,State.startupAt,ThreadCommits])
        fun _ => .inr (.inl (by simpa using attached))
  | orQueued =>
    have flags : ∀ u, (σ.setFlags t { σ.flags t with queued := true }).flags u =
        if u = t then { σ.flags t with queued := true } else σ.flags u := fun u => setFlags_flags σ t u _
    simp only [threadStartup,here] at done
    split at done <;> cases done
    · rename_i queued
      refine hand.goes effect rfl (fun u => ?_) (by simp [here,State.startupAt,ThreadCommits]) fun _ =>
        .inr (.inr queued)
      show ((σ.setFlags t { σ.flags t with queued := true }).flags u).queued = _
      rw [flags]
      split
      · rename_i isT; rw [isT,queued]
      · rfl
    · rename_i unqueued
      refine hand.commit inf (t := t) (by simpa using unqueued) rfl (fun u => ?_) effect.detached
        (fun u c _ => (commits_startup effect u c).1) (fun u isNotT => by rw [effect.others u isNotT])
        (fun u c _ => (commits_startup effect u c).2) (fun u isNotT is => effect.others u isNotT ▸ is)
        (.inl ⟨fun c is => ?_,by simp [State.startupAt,ThreadCommits]⟩)
      · show ((σ.setFlags t { σ.flags t with queued := true }).flags u).queued = true ↔ _
        rw [flags]
        by_cases isT : u = t <;> simp [isT]
      · exact unqueued (queued_of_commits inf ((commits_startup effect t c).1.mp is))
  | startReaper =>
    simp only [threadStartup,here] at done
    cases done
    exact hand.goes effect rfl (fun _ => rfl) (by simp [here,State.startupAt,ThreadCommits])
      (by simp [State.startupAt,AtExit])
  | callEnqueue =>
    have mine : ThreadCommits (σ.startup t) := by rw [here]; trivial
    simp only [threadStartup,here] at done
    cases done
    refine hand.enter (t := t) (hand.thread t mine) rfl (fun _ => rfl) (fun u c _ => (commits_startup effect u c).1)
      (fun u isNotT => by rw [effect.others u isNotT])
      ⟨fun c is => hand.apart t c ((commits_startup effect t c).1.mp is) mine,by simp [State.startupAt,ThreadCommits]⟩
      (fun u c => (commits_startup effect u c).2) fun u is => ?_
    by_cases isT : u = t
    · subst isT; simp [State.startupAt,AtExit] at is
    · exact effect.others u isT ▸ is
  | enqueueing =>
    rw [here] at knows
    simp only [threadStartup,here] at done
    obtain ⟨queue,stepped,rfl⟩ := Option.map_eq_some_iff.mp done
    have entered := (reapEnqueue_frame stepped).1
    split at effect
    · rw [if_pos ‹_›]
      exact hand.goes effect entered (fun _ => rfl) (by simp [here,State.startupAt,ThreadCommits])
        fun _ => .inr (.inr knows.2.2.2)
    · rw [if_neg ‹_›]
      exact hand.goes effect entered (fun _ => rfl) .rfl .inl
  | exit =>
    simp only [threadStartup,here] at done
    cases done
    exact hand.goes effect rfl (fun _ => rfl) (by simp [here,State.startupAt,ThreadCommits])
      fun _ => .inl (by rw [here]; trivial)

theorem handOver_step {a : Act} (hand : HandOver σ) (inf : Informed σ) (done : step σ a = some σ') : HandOver σ' := by
  cases step_cases done with
  | finish t retval running =>
    refine hand.congr rfl (fun _ => rfl) (fun _ => rfl) (fun _ _ => .rfl) (fun u => ?_)
      (fun _ _ is _ _ => is) fun u is => ?_
    all_goals by_cases isT : u = t
    · subst isT; simp [State.startupAt,running,ThreadCommits]
    · simp [State.startupAt,isT]
    · subst isT; simp [State.startupAt,AtExit] at is
    · exact .inl (by simpa [State.startupAt,isT] using is)
  | startup done => exact handOver_startup hand inf done
  | call c call top =>
    refine hand.clientAt (c := c) rfl (fun _ => rfl) (fun _ => rfl) rfl (fun d other => by simp [State.clientAt,other])
      (fun u => ?_) fun u is => by rw [top] at is; exact is.elim
    rw [top]
    cases call <;> simp [State.clientAt,entry,Commits]
  | join env here => exact handOver_join hand here
  | detach here done => exact handOver_detach hand inf here done
  | reaper done => exact handOver_reaper hand (reaperMain_effect done)

theorem run_handOver {acts : List Act} (ran : Transition.run step start acts = some σ) : Owned σ ∧ HandOver σ := by
  refine Transition.run_invariant (P := fun σ => Owned σ ∧ HandOver σ)
    (fun _ _ _ inv done => ⟨owned_step inv.1 done,handOver_step inv.2 inv.1.informed done⟩) ran ⟨start_owned,?_⟩
  exact ⟨nofun,nofun,nofun,nofun,fun _ => Nat.zero_le _,fun _ is => by simp [start,State.flags] at is,nofun⟩

/-- `reap_enqueue` is called at most once for a thread, only when it is detached
    and finished, and it has been called once the thread is at its exit and a
    detach has returned 0 while no other one is in progress. -/
theorem handed_over_once {acts : List Act} (ran : Transition.run step start acts = some σ) (t : Nat) :
    σ.queue.entered t ≤ 1 ∧ (1 ≤ σ.queue.entered t → (σ.flags t).detached = true ∧ σ.finished t = true) ∧
      (AtExit (σ.startup t) → (∃ r ∈ σ.returns, detachReturned t r = true) → (∀ c pc, σ.client c ≠ .detach t pc) →
        σ.queue.entered t = 1) := by
  obtain ⟨owned,hand⟩ := run_handOver ran
  have inf := owned.informed
  refine ⟨hand.once t,fun once => inf.queued t (inf.entered t once),fun atExit ⟨r,member,ok⟩ quiet => ?_⟩
  have nobody : ∀ c, ¬ Looks t (σ.client c) ∧ ¬ Commits t (σ.client c) := by
    intro c
    cases here : σ.client c with
    | idle => exact ⟨id,id⟩
    | join u wants pc => exact ⟨id,id⟩
    | detach u pc =>
      have other : u ≠ t := fun isT => quiet c pc (isT ▸ here)
      cases pc <;> exact ⟨by simp [Looks,other],by simp [Commits,other]⟩
  have queued : (σ.flags t).queued = true := by
    by_contra unqueued
    obtain ⟨c,looks⟩ := hand.seen t atExit (detached_of_returned inf member ok) (by simpa using unqueued)
    exact (nobody c).1 looks
  rcases hand.pending t queued with done | thread | ⟨c,commits⟩
  · exact done
  · cases here : σ.startup t <;> rw [here] at atExit thread <;> first | exact atExit.elim | exact thread.elim
  · exact absurd commits (nobody c).2

/-- A thread finishes, and a detach that sees it hands it over. -/
def handOverSchedule : List Act :=
  let go : Env := ⟨none,false⟩
  let threads := List.replicate 5 (.startup 0 ⟨go,0⟩)
  let detach := List.replicate 6 (.client 1 go)
  let enqueue := List.replicate 9 (.client 1 ⟨some 0,false⟩)
  .finish 0 7 :: threads ++ .call 1 (.detach 0) :: detach ++ enqueue

theorem handed_over_once_detached : (after handOverSchedule).queue.entered 0 = 1 := by
  have ran : Transition.run step start handOverSchedule = some (after handOverSchedule) := rfl
  have called : Called (after handOverSchedule) :=
    Transition.run_invariant (fun _ _ _ called done => called_step called done) ran start_called
  refine (handed_over_once ran 0).2.2 trivial ⟨⟨1,.detach 0,.ok none⟩,by decide,rfl⟩ fun c pc inside => ?_
  -- The client of the only call is outside of it again.
  have made : (c,.detach 0) ∈ [(1,Call.detach 0)] := called.made c (.detach 0) (by rw [inside]; rfl)
  obtain rfl : c = 1 := by simpa using made
  cases inside.symm.trans (rfl : (after handOverSchedule).client 1 = .idle)

end Os5Sem.ThreadHandOver

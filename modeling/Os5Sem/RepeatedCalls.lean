import Os5Sem.ThreadLifetime

/-!
A client that detaches a thread several times and then tries to join it, as
`test_multiple_detach`, `test_race_detach_vs_exit` and
`test_detach_then_join_fails` do. Its calls always return what the tests expect
(`Sole`). The handle does not stay valid: the first detach lets the reaper free
the block, which every later call reads (`freed_in_between`).
-/
namespace Os5Sem.RepeatedCalls
open Os5Sem.MyThread Os5Sem.ThreadSteps Os5Sem.ThreadFacts Os5Sem.ThreadQueue Os5Sem.ThreadOwnership
open Os5Sem.ThreadCalls Os5Sem.ThreadHandOver Os5Sem.ThreadLifetime
open Os5Sem.Transition (Along Throughout)
open Os5Sem.ReapQueue (Env)

variable {σ σ' : State} {c t n : Nat} {wants : List Bool}

/-! ### The calls -/

/-- `n + 1` calls of `mythread_detach` by the client, and then a call of
    `mythread_join` for each element of `wants`. -/
def asked (c t n : Nat) (wants : List Bool) : List (Nat × Call) :=
  List.replicate (n + 1) (c,.detach t) ++ wants.map fun wanted => (c,.join t wanted)

/-- What the calls are expected to return. -/
def expected : Call → Result
  | .detach _ => .ok none
  | .join _ _ => .einval

theorem client_of_asked {made : Nat × Call} (member : made ∈ asked c t n wants) : made.1 = c := by
  rcases List.mem_append.mp member with detach | join
  · rw [List.eq_of_mem_replicate detach]
  · obtain ⟨wanted,_,rfl⟩ := List.mem_map.mp join
    rfl

theorem first_of_asked {made : Nat × Call} (first : [made] <+: asked c t n wants) : made = (c,.detach t) := by
  rw [asked,List.replicate_succ,List.cons_append,List.cons_prefix_cons] at first
  exact first.1

/-- Whoever is inside a call on the thread is the client. -/
theorem client_of_inside (called : Called σ) (upTo : callsOn t σ <+: asked c t n wants) {d : Nat} {call : Call}
    (inside : callOf (σ.client d) = some call) (on : call.thread = t) : d = c := by
  have member : (d,call) ∈ callsOn t σ := mem_callsOn.mpr ⟨called.made d call inside,on⟩
  exact client_of_asked (upTo.subset member)

/-! ### What the calls return -/

/-- The client is the only one that makes calls on the thread, and detaches it
    first: nothing joins it, and every call has returned what it should. -/
structure Sole (c t : Nat) (σ : State) : Prop where
  unjoined : (σ.flags t).joined = false
  decided : callsOn t σ ≠ [] → (σ.flags t).detached = true ∨ Undecided t (σ.client c)
  joins : ∀ wanted pc, σ.client c = .join t wanted pc → (σ.flags t).detached = true ∧ pc = .loadState
  returns : ∀ r ∈ σ.returns, r.call.thread = t → r.result = expected r.call

/-- A step that makes no call on the thread, sets none of its bits but for the
    queue and the reaper, and leaves the client's calls on it where they are. -/
theorem Sole.congr (sole : Sole c t σ) (calls : callsOn t σ' = callsOn t σ)
    (joined : (σ'.flags t).joined = (σ.flags t).joined) (detached : (σ'.flags t).detached = (σ.flags t).detached)
    (undecided : Undecided t (σ.client c) → Undecided t (σ'.client c))
    (joins : ∀ wanted pc, σ'.client c = .join t wanted pc → σ.client c = .join t wanted pc)
    (returns : ∀ r ∈ σ'.returns, r ∈ σ.returns ∨ r.call.thread ≠ t) : Sole c t σ' where
  unjoined := joined.trans sole.unjoined
  decided made := by
    rw [detached]
    exact (sole.decided (calls ▸ made)).imp_right undecided
  joins wanted pc is := by
    rw [detached]
    exact sole.joins wanted pc (joins wanted pc is)
  returns r member on := (returns r member).elim (fun was => sole.returns r was on) fun other => absurd on other

/-- A step of a join sets `MT_JOINED` of its own thread only, and returns from its
    own call only. -/
theorem mythreadJoin_elsewhere {d u v : Nat} {wanted : Bool} {pc : JoinPc} (other : v ≠ u) :
    ((mythreadJoin σ d u wanted pc).flags v).joined = (σ.flags v).joined ∧
      ∀ r ∈ (mythreadJoin σ d u wanted pc).returns, r ∈ σ.returns ∨ r.call = .join u wanted := by
  have leaves : ∀ (result : Result), ∀ r ∈ (σ.leave d (.join u wanted) result).returns,
      r ∈ σ.returns ∨ r.call = .join u wanted := by
    intro result r member
    exact (List.mem_append.mp member).imp_right fun now => by rw [List.mem_singleton.mp now]
  have loop : ∀ s, ((joinLoop σ d u wanted s).flags v).joined = (σ.flags v).joined ∧
      ∀ r ∈ (joinLoop σ d u wanted s).returns, r ∈ σ.returns ∨ r.call = .join u wanted := by
    intro s
    unfold joinLoop
    split
    · exact ⟨rfl,leaves _⟩
    · split
      · exact ⟨rfl,leaves _⟩
      · exact ⟨rfl,fun _ => .inl⟩
  have set : ∀ f, (σ.setFlags u f).flags v = σ.flags v := fun f => by rw [setFlags_flags,if_neg other]
  cases pc with
  | loadState => exact loop _
  | compareExchange s =>
    simp only [mythreadJoin]
    split
    · exact ⟨congrArg Flags.joined (set _),fun _ => .inl⟩
    · exact loop _
  | loadFinished =>
    simp only [mythreadJoin]
    split
    · split <;> exact ⟨rfl,fun _ => .inl⟩
    · exact ⟨rfl,fun _ => .inl⟩
  | futexWait =>
    simp only [mythreadJoin]
    split <;> exact ⟨rfl,fun _ => .inl⟩
  | asleep =>
    obtain ⟨block,_,_,_,_,_,_,returns,_⟩ := wake_frame σ d
    exact ⟨by simp only [mythreadJoin,State.flags,block],fun r member => .inl (returns ▸ member)⟩
  | loadRetval => exact ⟨rfl,fun _ => .inl⟩
  | orReaped stored =>
    simp only [mythreadJoin]
    split
    · exact ⟨congrArg Flags.joined (set _),leaves _⟩
    · exact ⟨congrArg Flags.joined (set _),fun _ => .inl⟩
  | destroyStack stored => exact ⟨rfl,fun _ => .inl⟩
  | free stored => exact ⟨rfl,leaves _⟩

/-- A join of a thread that is detached returns `EINVAL` in its first step. -/
theorem sole_join (sole : Sole c t σ) (called : Called σ) (upTo : callsOn t σ <+: asked c t n wants) {d u : Nat}
    {wanted : Bool} {pc : JoinPc} (here : σ.client d = .join u wanted pc) :
    Sole c t (mythreadJoin σ d u wanted pc) := by
  have effect := mythreadJoin_effect here
  by_cases isT : u = t
  · subst isT
    obtain rfl := client_of_inside called upTo (by rw [here]; rfl) rfl
    obtain ⟨detached,rfl⟩ := sole.joins wanted pc here
    have left : mythreadJoin σ d u wanted .loadState = σ.leave d (.join u wanted) .einval := by
      simp [mythreadJoin,joinLoop,detached]
    rw [left]
    refine ⟨sole.unjoined,fun _ => .inl detached,fun w p is => ?_,fun r member on => ?_⟩
    · simp [State.leave,State.clientAt] at is
    · rcases List.mem_append.mp member with was | now
      · exact sole.returns r was on
      · rw [List.mem_singleton.mp now]; rfl
  · obtain ⟨joined,returns⟩ := @mythreadJoin_elsewhere σ d u t wanted pc (Ne.symm isT)
    refine sole.congr (by rw [callsOn,callsOn,effect.calls]) joined (effect.detached t) (fun is => ?_)
      (fun w p is => ?_) fun r member => ?_
    · by_cases isD : c = d
      · rw [isD,here] at is; exact is.elim
      · rw [effect.others c isD]; exact is
    · by_cases isD : c = d
      · subst isD
        rcases effect.own with idle | ⟨p',now⟩
        · rw [idle] at is; cases is
        · rw [now] at is; cases is; exact absurd rfl isT
      · rw [← effect.others c isD]; exact is
    · exact (returns r member).imp_right fun call => by rw [call]; exact isT

/-- A detach of the thread returns 0, and not before the thread is detached. -/
theorem mythreadDetach_sole {env : Env} {pc : DetachPc} (unjoined : (σ.flags t).joined = false)
    (here : σ.client c = .detach t pc) (decided : (σ.flags t).detached = true ∨ Undecided t (σ.client c))
    (done : mythreadDetach σ c t env pc = some σ') :
    ((σ'.flags t).detached = true ∨ Undecided t (σ'.client c)) ∧
      ∀ r ∈ σ'.returns, r ∈ σ.returns ∨ r.result = expected r.call := by
  have leaves : ∀ r ∈ (σ.leave c (.detach t) (.ok none)).returns, r ∈ σ.returns ∨ r.result = expected r.call := by
    intro r member
    exact (List.mem_append.mp member).imp_right fun now => by rw [List.mem_singleton.mp now]; rfl
  have loop : ((detachLoop σ c t (σ.flags t)).flags t).detached = true ∨
      Undecided t ((detachLoop σ c t (σ.flags t)).client c) := by
    unfold detachLoop
    split
    · exact .inl ‹_›
    · rw [unjoined]
      exact .inr (by simp [State.clientAt,Undecided])
  have loopReturns : ∀ r ∈ (detachLoop σ c t (σ.flags t)).returns, r ∈ σ.returns ∨ r.result = expected r.call := by
    unfold detachLoop
    split
    · exact leaves
    · rw [unjoined]
      intro _
      exact .inl
  -- Behind the compare-exchange the thread is detached, and stays so.
  have later : ¬ Undecided t (σ.client c) → (σ'.flags t).detached = true := fun past =>
    ((mythreadDetach_effect here done).flags t).detached (decided.resolve_right past)
  rw [here] at later
  cases pc with
  | loadState => cases done; exact ⟨loop,loopReturns⟩
  | compareExchange s =>
    simp only [mythreadDetach] at done
    split at done <;> cases done
    · exact ⟨.inl (by simp [State.clientAt,State.flags,State.setFlags,State.setBlock]),fun _ => .inl⟩
    · exact ⟨loop,loopReturns⟩
  | loadFinished =>
    refine ⟨.inl (later id),?_⟩
    simp only [mythreadDetach] at done
    split at done <;> cases done
    · intro _
      exact .inl
    · exact leaves
  | orQueued =>
    refine ⟨.inl (later id),?_⟩
    simp only [mythreadDetach] at done
    split at done <;> cases done
    · exact leaves
    · intro _
      exact .inl
  | startReaper => exact ⟨.inl (later id),by cases done; exact fun _ => .inl⟩
  | callEnqueue => exact ⟨.inl (later id),by cases done; exact fun _ => .inl⟩
  | enqueueing =>
    refine ⟨.inl (later id),?_⟩
    obtain ⟨queue,_,rfl⟩ := Option.map_eq_some_iff.mp done
    split
    · exact leaves
    · intro _
      exact .inl

theorem sole_detach (sole : Sole c t σ) (called : Called σ) (upTo : callsOn t σ <+: asked c t n wants) {d u : Nat}
    {env : Env} {pc : DetachPc} (here : σ.client d = .detach u pc) (done : mythreadDetach σ d u env pc = some σ') :
    Sole c t σ' := by
  have effect := mythreadDetach_effect here done
  have joins : ∀ wanted p, σ'.client c = .join t wanted p → σ.client c = .join t wanted p := by
    intro wanted p is
    by_cases isD : c = d
    · subst isD
      rcases effect.own with idle | ⟨p',now⟩
      · rw [idle] at is; cases is
      · rw [now] at is; cases is
    · rw [← effect.others c isD]; exact is
  have same : callsOn t σ' = callsOn t σ := by rw [callsOn,callsOn,effect.calls]
  by_cases isT : u = t
  · subst isT
    have inside : callOf (σ.client d) = some (.detach u) := by rw [here]; rfl
    obtain rfl := client_of_inside called upTo inside rfl
    have some : callsOn u σ ≠ [] := List.ne_nil_of_mem (mem_callsOn.mpr ⟨called.made d _ inside,rfl⟩)
    obtain ⟨decided,returns⟩ := mythreadDetach_sole sole.unjoined here (sole.decided some) done
    refine ⟨(effect.joined u).trans sole.unjoined,fun _ => decided,fun wanted p is => ?_,fun r member on => ?_⟩
    · rw [here] at joins
      cases joins wanted p is
    · exact (returns r member).elim (fun was => sole.returns r was on) id
  · refine sole.congr same (effect.joined t) ?_ (fun is => ?_) joins fun r member => ?_
    · rcases mythreadDetach_decides here done with ⟨detached,_⟩ | ⟨_,_,only⟩
      · exact detached t
      · rcases Bool.eq_false_or_eq_true (σ'.flags t).detached with now | not
        · rw [now,(only t now).resolve_left (Ne.symm isT)]
        · rw [not]
          by_contra wrong
          have was : (σ.flags t).detached = true := by simpa using Ne.symm wrong
          exact absurd (((effect.flags t).detached was).symm.trans not) (by simp)
    · by_cases isD : c = d
      · rw [isD,here] at is
        exact absurd (callOf_of_undecided is) (by simp [callOf,isT])
      · rw [effect.others c isD]; exact is
    · rcases effect.returns with same | ⟨result,added⟩
      · exact .inl (same ▸ member)
      · rw [added] at member
        exact (List.mem_append.mp member).imp_right fun now => by rw [List.mem_singleton.mp now]; exact isT

theorem call_step {d : Nat} {call : Call} (done : step σ (.call d call) = some σ') :
    σ.client d = .idle ∧ σ' = { σ.clientAt d (entry call) with calls := σ.calls ++ [(d,call)] } := by
  cases step_cases done with
  | call d call top => exact ⟨top,rfl⟩

theorem sole_call (sole : Sole c t σ) (upTo : callsOn t σ' <+: asked c t n wants) {d : Nat} {call : Call}
    (done : step σ (.call d call) = some σ') : Sole c t σ' := by
  obtain ⟨top,rfl⟩ := call_step done
  -- Outside of its calls the client has decided: the thread is detached after the first one.
  have settled : c = d → callsOn t σ ≠ [] → (σ.flags t).detached = true := by
    rintro rfl made
    refine (sole.decided made).resolve_right ?_
    rw [top]
    exact id
  by_cases on : call.thread = t
  · have grows : callsOn t { σ.clientAt d (entry call) with calls := σ.calls ++ [(d,call)] } =
        callsOn t σ ++ [(d,call)] := by simp [callsOn,on]
    rw [grows] at upTo
    obtain rfl : d = c := client_of_asked (upTo.subset (by simp : (d,call) ∈ _))
    have either : call = .detach t ∨ (σ.flags t).detached = true := by
      by_cases none : callsOn t σ = []
      · rw [none] at upTo
        exact .inl (Prod.mk.inj (first_of_asked upTo)).2
      · exact .inr (settled rfl none)
    refine ⟨sole.unjoined,fun _ => ?_,fun wanted pc is => ?_,sole.returns⟩
    · rcases either with rfl | detached
      · exact .inr (by simp [State.clientAt,entry,Undecided])
      · exact .inl detached
    · simp only [State.clientAt,Function.update_self] at is
      cases call with
      | detach u => cases is
      | join u w =>
        cases is
        exact ⟨either.resolve_left (by simp),rfl⟩
  · have same : callsOn t { σ.clientAt d (entry call) with calls := σ.calls ++ [(d,call)] } = callsOn t σ := by
      simp [callsOn,on]
    refine sole.congr same rfl rfl (fun is => ?_) (fun wanted pc is => ?_) fun _ => .inl <;> by_cases isD : c = d
    · rw [isD,top] at is; exact is.elim
    · simpa [State.clientAt,isD] using is
    · simp only [State.clientAt,isD,Function.update_self] at is
      cases call with
      | detach u => cases is
      | join u w => cases is; exact absurd rfl on
    · simpa [State.clientAt,isD] using is

theorem sole_step {a : Act} (sole : Sole c t σ) (called : Called σ) (upTo : callsOn t σ' <+: asked c t n wants)
    (done : step σ a = some σ') : Sole c t σ' := by
  have before := callsOn_back done upTo
  cases step_cases done with
  | finish u retval => exact sole.congr rfl rfl rfl id (fun _ _ => id) fun _ => .inl
  | startup done =>
    have effect := threadStartup_effect done
    refine sole.congr (by rw [callsOn,callsOn,effect.calls]) (effect.joined t) (effect.detached t) (fun is => ?_)
      (fun w p is => ?_) (fun r member => .inl (effect.returns ▸ member)) <;>
      rcases effect.clients c with same | ⟨v,wanted,was,now⟩
    · exact same ▸ is
    · rw [was] at is; exact is.elim
    · exact same ▸ is
    · -- A join of the thread never sleeps.
      cases now.symm.trans is
      cases (sole.joins w .asleep was).2
  | call d call => exact sole_call sole upTo done
  | join env here => exact sole_join sole called before here
  | detach here done => exact sole_detach sole called before here done
  | reaper done =>
    have effect := reaperMain_effect done
    exact sole.congr (by rw [callsOn,callsOn,effect.calls]) (effect.joined t) (effect.detached t)
      (fun is => effect.client ▸ is) (fun _ _ is => effect.client ▸ is) fun r member => .inl (effect.returns ▸ member)

theorem start_sole : Sole c t start where
  unjoined := rfl
  decided made := absurd rfl made
  joins _ _ is := by cases is
  returns _ member := by cases member

/-- However the calls, the thread and the reaper interleave, every call that returns
    has returned what is expected. -/
theorem results_expected {acts : List Act} (ran : Transition.run step start acts = some σ)
    (only : callsOn t σ = asked c t n wants) : ∀ r ∈ σ.returns, r.call.thread = t → r.result = expected r.call := by
  have inv := Transition.run_invariant (P := fun σ => Called σ ∧ (callsOn t σ <+: asked c t n wants → Sole c t σ))
    (fun _ _ _ inv done => ⟨called_step inv.1 done,fun upTo =>
      sole_step (inv.2 (callsOn_back done upTo)) inv.1 upTo done⟩) ran ⟨start_called,fun _ => start_sole⟩
  exact (inv.2 (only ▸ List.prefix_rfl)).returns

/-! ### How long the handle stays valid -/

/-- The client is about to read or write a field of the block. A sleeping join
    goes back to look at `finished`. -/
def Touches (t : Nat) : ClientPc → Prop
  | .join u _ _ => u = t
  | pc => DetachTouches t pc

/-- The calls on the thread have returned what is expected, and nobody touches its
    block once it has been freed. -/
structure Valid (t : Nat) (σ : State) : Prop where
  results : ∀ r ∈ σ.returns, r.call.thread = t → r.result = expected r.call
  block : σ.freed t ≠ [] → ∀ d, ¬ Touches t (σ.client d)

/-- A call is made on a thread whose block has been freed, or the reaper frees it
    while a call is about to touch it. -/
def Overruns (t : Nat) (σ : State) (a : Act) : Prop :=
  (∃ d call, a = .call d call ∧ call.thread = t ∧ σ.freed t ≠ []) ∨
    Frees t σ .reaper a ∧ ∃ d, Touches t (σ.client d)

theorem touches_iff {pc : ClientPc} : Touches t pc ↔ (∃ wanted p, pc = .join t wanted p) ∨ DetachTouches t pc := by
  cases pc with
  | idle => simp [Touches,DetachTouches]
  | join u wanted p => simp [Touches,DetachTouches]
  | detach u p => simp [Touches]

/-- Whoever is inside a call was before, or has just made it. -/
theorem inside_back {a : Act} {d : Nat} {call : Call} (done : step σ a = some σ')
    (inside : callOf (σ'.client d) = some call) : callOf (σ.client d) = some call ∨ a = .call d call := by
  have own : ∀ u, (σ'.client d = .idle ∨ callOf (σ'.client d) = some u) → callOf (σ.client d) = some u →
      callOf (σ.client d) = some call := by
    rintro u (idle | now) was
    · rw [idle] at inside; cases inside
    · exact was.trans (now.symm.trans inside)
  cases step_cases done with
  | finish u retval => exact .inl inside
  | startup done =>
    rcases (threadStartup_effect done).clients d with same | ⟨v,wanted,was,now⟩
    · exact .inl (same ▸ inside)
    · rw [now] at inside
      exact .inl (was ▸ inside)
  | call e other =>
    by_cases isE : d = e
    · subst isE
      simp only [State.clientAt,Function.update_self] at inside
      cases other <;> cases inside <;> exact .inr rfl
    · exact .inl (by simpa [State.clientAt,isE] using inside)
  | @join e u wanted pc env here =>
    have effect := mythreadJoin_effect here
    by_cases isE : d = e
    · subst isE
      exact .inl (own (.join u wanted) (effect.own.imp_right fun moved => moved.elim fun _ now =>
        by rw [now]; rfl) (by rw [here]; rfl))
    · exact .inl (effect.others d isE ▸ inside)
  | @detach e u pc env _ here done =>
    have effect := mythreadDetach_effect here done
    by_cases isE : d = e
    · subst isE
      exact .inl (own (.detach u) (effect.own.imp_right fun moved => moved.elim fun _ now =>
        by rw [now]; rfl) (by rw [here]; rfl))
    · exact .inl (effect.others d isE ▸ inside)
  | reaper done => exact .inl ((reaperMain_effect done).client ▸ inside)

/-- Whoever touches the block did so before, or has just made a call. -/
theorem touches_back {a : Act} {d : Nat} (done : step σ a = some σ') (touches : Touches t (σ'.client d)) :
    Touches t (σ.client d) ∨ ∃ call, a = .call d call ∧ call.thread = t := by
  rcases touches_iff.mp touches with ⟨wanted,pc,now⟩ | touches
  · have inside : callOf (σ'.client d) = some (.join t wanted) := by rw [now]; rfl
    rcases inside_back done inside with inside | rfl
    · cases here : σ.client d with
      | join u w p => rw [here] at inside; cases inside; exact .inl rfl
      | _ => rw [here] at inside; cases inside
    · exact .inr ⟨_,rfl,rfl⟩
  · rcases touches_step done touches with before | rfl
    · exact .inl (touches_iff.mpr (.inr before))
    · exact .inr ⟨_,rfl,rfl⟩

theorem touches_entry {call : Call} : Touches t (entry call) ↔ call.thread = t := by
  cases call <;> rfl

theorem freed_cases {a : Act} (sole : Sole c t σ) (called : Called σ) (upTo : callsOn t σ <+: asked c t n wants)
    (done : step σ a = some σ') : σ'.freed t ≠ [] ↔ σ.freed t ≠ [] ∨ Frees t σ .reaper a := by
  have members : ∀ releasers : List Releaser, releasers ≠ [] ↔ ∃ r, r ∈ releasers :=
    fun releasers => ⟨List.exists_mem_of_ne_nil releasers,fun ⟨_,member⟩ => List.ne_nil_of_mem member⟩
  rw [members,members]
  constructor
  · rintro ⟨r,member⟩
    rcases (step_releases done).2.mp member with was | now
    · exact .inl ⟨r,was⟩
    · cases r with
      | reaper => exact .inr now
      | joiner e =>
        cases a <;> try exact now.elim
        obtain ⟨_,wanted,stored,here⟩ := now
        obtain rfl := client_of_inside called upTo (by rw [here]; rfl) rfl
        cases (sole.joins wanted _ here).2
  · rintro (⟨r,was⟩ | now)
    · exact ⟨r,(step_releases done).2.mpr (.inl was)⟩
    · exact ⟨.reaper,(step_releases done).2.mpr (.inr now)⟩

theorem valid_step {a : Act} (sole : Sole c t σ) (called : Called σ) (valid : Valid t σ)
    (upTo : callsOn t σ' <+: asked c t n wants) (done : step σ a = some σ') : Valid t σ' ↔ ¬ Overruns t σ a := by
  have before := callsOn_back done upTo
  have freed := freed_cases sole called before done
  constructor
  · rintro after (⟨d,call,rfl,on,was⟩ | ⟨frees,d,touches⟩)
    · obtain ⟨_,rfl⟩ := call_step done
      refine after.block (freed.mpr (.inl was)) d ?_
      simpa [State.clientAt] using touches_entry.mpr on
    · have still : σ'.client d = σ.client d := by
        cases a <;> first | exact frees.elim | exact congrFun (reaperMain_effect done).client d
      exact after.block (freed.mpr (.inr frees)) d (still ▸ touches)
  · intro within
    refine ⟨(sole_step sole called upTo done).returns,fun gone d touches => ?_⟩
    rcases touches_back done touches with touched | ⟨call,rfl,on⟩
    · rcases freed.mp gone with was | now
      · exact valid.block was d touched
      · exact within (.inr ⟨now,d,touched⟩)
    · rcases freed.mp gone with was | now
      · exact within (.inl ⟨d,call,rfl,on,was⟩)
      · exact now.elim

/-- When the only calls on a thread are a client's detaches and then its joins, the
    handle stays valid exactly when no call is made after the reaper has freed the
    block, nor is about to touch it when the reaper does. -/
theorem valid_iff {acts : List Act} (ran : Transition.run step start acts = some σ) {c t n : Nat} {wants : List Bool}
    (only : callsOn t σ = asked c t n wants) :
    Throughout step (Valid t) start acts ↔ Along step (fun σ a => ¬ Overruns t σ a) start acts :=
  Transition.throughout_iff_along (I := fun σ => Called σ ∧ (callsOn t σ <+: asked c t n wants → Sole c t σ))
    (Q := fun σ => callsOn t σ <+: asked c t n wants)
    (fun _ _ _ inv done => ⟨called_step inv.1 done,fun upTo =>
      sole_step (inv.2 (callsOn_back done upTo)) inv.1 upTo done⟩)
    (fun _ _ _ done upTo => callsOn_back done upTo)
    (fun _ _ _ inv valid upTo done => valid_step (inv.2 (callsOn_back done upTo)) inv.1 valid upTo done) ran
    ⟨start_called,fun _ => start_sole⟩ (only ▸ List.prefix_rfl) ⟨nofun,fun gone => absurd rfl gone⟩

/-- A client detaches the thread 0, which then finishes and calls `reap_enqueue`;
    the reaper frees it, and the client detaches it again. Nobody is overtaken. -/
def freedInBetween : List Act :=
  let go : Env := ⟨none,false⟩
  let detach := List.replicate 3 (.client 1 go)
  let thread := List.replicate 7 (.startup 0 ⟨go,0⟩) ++ List.replicate 10 (.startup 0 ⟨⟨some 1,false⟩,0⟩)
  let reap := List.replicate 11 (.reaper go)
  .call 1 (.detach 0) :: detach ++ .finish 0 7 :: thread ++ reap ++ [.call 1 (.detach 0)]

theorem freed_in_between : callsOn 0 (after freedInBetween) = asked 1 0 1 [] ∧
    (after freedInBetween).returns = [⟨1,.detach 0,.ok none⟩] ∧ (after freedInBetween).startup 0 = .exited ∧
    (after freedInBetween).freed 0 = [.reaper] ∧ (after freedInBetween).client 1 = .detach 0 .loadState ∧
    ¬ Throughout step (Valid 0) start freedInBetween := by
  refine ⟨by decide,by decide,by decide,by decide,by decide,fun holds => ?_⟩
  have valid := holds freedInBetween [] (after freedInBetween) (List.append_nil _).symm rfl
  exact valid.block (by decide) 1 rfl

theorem valid_iff_in_between : Throughout step (Valid 0) start freedInBetween ↔
    Along step (fun σ a => ¬ Overruns 0 σ a) start freedInBetween :=
  valid_iff (rfl : Transition.run step start freedInBetween = some (after freedInBetween)) (c := 1) (n := 1)
    (by decide : callsOn 0 (after freedInBetween) = asked 1 0 1 [])

end Os5Sem.RepeatedCalls

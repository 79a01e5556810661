import Os5Sem.WoReaperOwnership

/-!
How long a thread's stack and block live in the library without a reaper. The bit
`finished` is set before the thread's last steps, so that a joiner or a detacher
can release the stack and the block while the thread still needs them, and the
thread can free its block while a detacher has yet to look at it
(`either_overtakes`).
-/
namespace Os5Sem.WoReaperLifetime
open Os5Sem.MyThread (Call Result Return)
open Os5Sem.WoReaper Os5Sem.WoReaperOwnership
open Os5Sem.Transition (Along Throughout)

variable {σ σ' : State} {t c : Nat} {call : Call}

/-! ### A single call on the thread -/

/-- The call that a client is inside of. -/
def callOf : ClientPc → Option Call
  | .idle => none
  | .join t wants _ => some (.join t wants)
  | .detach t _ => some (.detach t)

/-- The calls on the thread, with the clients that made them. -/
def callsOn (t : Nat) (σ : State) : List (Nat × Call) := σ.calls.filter fun made => made.2.thread = t

theorem callOf_of_inside {pc : ClientPc} (inside : Inside t pc) : ∃ call, callOf pc = some call ∧ call.thread = t := by
  cases pc <;> first | exact inside.elim | exact ⟨_,rfl,inside⟩

theorem inside_of_callOf {pc : ClientPc} (is : callOf pc = some call) (on : call.thread = t) : Inside t pc := by
  cases pc <;> cases is <;> exact on

theorem take_detached (t u : Nat) (r : Releaser) : ((σ.take u r).block t).detached = (σ.block t).detached := by
  by_cases isU : t = u
  · subst isU; simp [State.take,State.setBlock]
  · simp [State.take,State.setBlock,isU]

theorem join_detached {u : Nat} {wants : Bool} {pc : JoinPc} :
    ((mythreadJoin σ c u wants pc).block t).detached = (σ.block t).detached ∧
      (mythreadJoin σ c u wants pc).calls = σ.calls := by
  cases pc with
  | loadDetached => rw [mythreadJoin]; split <;> exact ⟨rfl,rfl⟩
  | loadFinished =>
    rw [mythreadJoin]
    split
    · split <;> exact ⟨rfl,rfl⟩
    · exact ⟨rfl,rfl⟩
  | futexWait => rw [mythreadJoin]; split <;> exact ⟨rfl,rfl⟩
  | asleep => rw [mythreadJoin]; unfold State.wake; split <;> exact ⟨rfl,rfl⟩
  | exchange stored =>
    rw [mythreadJoin]
    split
    · exact ⟨rfl,rfl⟩
    · exact ⟨take_detached t u (.client c),rfl⟩
  | _ => exact ⟨rfl,rfl⟩

theorem detach_detached {u : Nat} {pc : DetachPc} :
    (((mythreadDetach σ c u pc).block t).detached = (σ.block t).detached ∨
        u = t ∧ pc = .storeDetached ∧ (mythreadDetach σ c u pc).client c = .detach u .loadFinished) ∧
      (mythreadDetach σ c u pc).calls = σ.calls := by
  cases pc with
  | storeDetached =>
    refine ⟨?_,rfl⟩
    by_cases isU : u = t
    · exact .inr ⟨isU,rfl,by simp [mythreadDetach,State.clientAt]⟩
    · exact .inl (by simp [mythreadDetach,State.clientAt,State.setBlock,Ne.symm isU])
  | loadFinished => rw [mythreadDetach]; split <;> exact ⟨.inl rfl,rfl⟩
  | compareExchange =>
    rw [mythreadDetach]
    split
    · exact ⟨.inl rfl,rfl⟩
    · exact ⟨.inl (take_detached t u (.client c)),rfl⟩
  | _ => exact ⟨.inl rfl,rfl⟩

theorem startup_detached {u : Nat} {env : Env} (done : threadStartup σ u env = some σ') :
    (σ'.block t).detached = (σ.block t).detached ∧ σ'.calls = σ.calls := by
  have write : ∀ {block : Block}, block.detached = (σ.block u).detached →
      ((σ.setBlock u block).block t).detached = (σ.block t).detached := by
    intro block same
    by_cases isU : t = u
    · subst isU; simpa [State.setBlock] using same
    · simp [State.setBlock,isU]
  cases here : σ.startup u <;> simp only [threadStartup,here] at done <;> try split at done
  all_goals cases done
  case storeRetval retval => exact ⟨write rfl,rfl⟩
  case storeFinished => exact ⟨write rfl,rfl⟩
  case futexWake =>
    show ((σ.futexWake u env.pick).block t).detached = _ ∧ (σ.futexWake u env.pick).calls = _
    unfold State.futexWake
    split
    · exact ⟨rfl,rfl⟩
    · unfold State.wake
      split <;> exact ⟨rfl,rfl⟩
  case compareExchange.isFalse => exact ⟨take_detached t u .thread,rfl⟩
  all_goals exact ⟨rfl,rfl⟩

/-- A step that makes no call: whoever is inside a call was inside the same, nobody
    gets to the start of a detach, and a thread is detached only from there. -/
theorem step_quiet {a : Act} (done : step σ a = some σ') (noCall : ∀ c call, a ≠ .call c call) :
    σ'.calls = σ.calls ∧ (∀ d call, callOf (σ'.client d) = some call → callOf (σ.client d) = some call) ∧
      (∀ d, σ'.client d = .detach t .storeDetached → σ.client d = .detach t .storeDetached) ∧
      ((σ'.block t).detached = true → (σ.block t).detached = true ∨
        ∃ d, σ.client d = .detach t .storeDetached ∧ σ'.client d = .detach t .loadFinished) := by
  cases step_cases done with
  | finish u retval => exact ⟨rfl,fun _ _ => id,fun _ => id,.inl⟩
  | startup done =>
    obtain ⟨detached,calls⟩ := startup_detached (t := t) done
    have clients : ∀ d, σ'.client d = σ.client d ∨
        ∃ v wants, σ.client d = .join v wants .asleep ∧ σ'.client d = .join v wants .loadFinished := by
      intro d
      rcases threadStartup_clients done with same | ⟨e,woken⟩
      · exact .inl (congrFun same d)
      · rw [woken]
        exact wake_client σ e d
    refine ⟨calls,fun d call is => ?_,fun d is => ?_,fun now => .inl (detached ▸ now)⟩ <;>
      rcases clients d with same | ⟨v,wants,was,now⟩
    · exact same ▸ is
    · rw [now] at is; rw [was]; exact is
    · exact same ▸ is
    · rw [now] at is; cases is
  | call c call => exact absurd rfl (noCall c call)
  | @join c u wants pc here =>
    obtain ⟨_,_,pc',client,on⟩ := mythreadJoin_others here
    obtain ⟨detached,calls⟩ := @join_detached σ t c u wants pc
    refine ⟨calls,fun d call is => ?_,fun d is => ?_,fun now => .inl (detached ▸ now)⟩ <;> rw [client] at is <;>
      by_cases isC : d = c
    · subst isC
      rw [Function.update_self] at is
      rcases on with rfl | ⟨now,rfl⟩
      · cases is
      · rw [here]; exact is
    · rwa [Function.update_of_ne isC] at is
    · subst isC
      rw [Function.update_self] at is
      rcases on with rfl | ⟨now,rfl⟩ <;> cases is
    · rwa [Function.update_of_ne isC] at is
  | @detach c u pc here =>
    obtain ⟨_,_,pc',client,on⟩ := @mythreadDetach_others σ c u pc
    obtain ⟨detached,calls⟩ := @detach_detached σ t c u pc
    refine ⟨calls,fun d call is => ?_,fun d is => ?_,fun now => ?_⟩
    · rw [client] at is
      by_cases isC : d = c
      · subst isC
        rw [Function.update_self] at is
        rcases on with rfl | ⟨now,_,rfl⟩
        · cases is
        · rw [here]; exact is
      · rwa [Function.update_of_ne isC] at is
    · rw [client] at is
      by_cases isC : d = c
      · subst isC
        rw [Function.update_self] at is
        rcases on with rfl | ⟨now,notStore,rfl⟩
        · cases is
        · cases is; exact absurd rfl notStore
      · rwa [Function.update_of_ne isC] at is
    · rcases detached with same | ⟨rfl,rfl,goes⟩
      · exact .inl (same ▸ now)
      · exact .inr ⟨c,here,goes⟩

/-- A step that is not the thread's own and in no call on it leaves it alone. -/
theorem part_foreign {a : Act} (done : step σ a = some σ') (thread : ∀ retval, a ≠ .finish t retval)
    (startup : ∀ env, a ≠ .startup t env) (client : ∀ c, a = .client c → ¬ Inside t (σ.client c)) :
    part σ' t = part σ t ∧ σ'.startup t = σ.startup t := by
  cases step_cases done with
  | finish u retval running =>
    have other : t ≠ u := fun isU => thread retval (by rw [isU])
    exact ⟨rfl,by simp [State.startupAt,other]⟩
  | @startup u env _ done => exact threadStartup_others done fun isU => startup env (by rw [isU])
  | call c call top => exact ⟨rfl,rfl⟩
  | @join c u wants pc here =>
    have other : t ≠ u := fun isU => client c rfl (by rw [here]; exact isU.symm)
    have stays := mythreadJoin_others here
    exact ⟨stays.1 t other,congrFun stays.2.1 t⟩
  | @detach c u pc here =>
    have other : t ≠ u := fun isU => client c rfl (by rw [here]; exact isU.symm)
    have stays := @mythreadDetach_others σ c u pc
    exact ⟨stays.1 t other,congrFun stays.2.1 t⟩

/-- Whoever is inside a call has been before, or has just made it. -/
theorem inside_of_step {a : Act} (done : step σ a = some σ') {c : Nat} (inside : Inside t (σ'.client c)) :
    Inside t (σ.client c) ∨ ∃ call, a = .call c call ∧ call.thread = t := by
  by_cases calls : ∃ d call, a = .call d call
  · obtain ⟨d,call,rfl⟩ := calls
    cases step_cases done with
    | call d call top =>
      by_cases isD : c = d
      · subst isD
        refine .inr ⟨call,rfl,?_⟩
        cases call <;> simpa [State.clientAt,entry,Inside,Call.thread] using inside
      · exact .inl (by simpa [State.clientAt,isD] using inside)
  · have noCall : ∀ d call, a ≠ .call d call := fun d call is => calls ⟨d,call,is⟩
    obtain ⟨call,is,on⟩ := callOf_of_inside inside
    exact .inl (inside_of_callOf ((step_quiet (t := t) done noCall).2.1 c call is) on)

theorem call_step (done : step σ (.call c call) = some σ') :
    σ.client c = .idle ∧ σ'.block = σ.block ∧ σ'.startup = σ.startup ∧ σ'.unmapped = σ.unmapped ∧
      σ'.freed = σ.freed ∧ σ'.calls = σ.calls ++ [(c,call)] ∧
      ∃ pc, σ'.client = Function.update σ.client c pc ∧ callOf pc = some call := by
  cases step_cases done with
  | call c call top => exact ⟨top,rfl,rfl,rfl,rfl,rfl,_,rfl,by cases call <;> rfl⟩

theorem callsOn_back {a : Act} {made : List (Nat × Call)} (done : step σ a = some σ') (upTo : callsOn t σ' <+: made) :
    callsOn t σ <+: made := by
  refine List.IsPrefix.trans ?_ upTo
  by_cases isCall : ∃ c call, a = .call c call
  · obtain ⟨c,call,rfl⟩ := isCall
    obtain ⟨_,_,_,_,_,calls,_⟩ := call_step done
    rw [callsOn,callsOn,calls,List.filter_append]
    exact List.prefix_append ..
  · obtain ⟨calls,_⟩ := step_quiet (t := t) done fun c call is => isCall ⟨c,call,is⟩
    have same : callsOn t σ' = callsOn t σ := by rw [callsOn,callsOn,calls]
    exact same ▸ List.prefix_rfl

/-- When no call on the thread is made but this one, whoever is inside a call on it
    is in this one, and it is this call that has detached the thread. -/
structure Alone (t c : Nat) (call : Call) (σ : State) : Prop where
  inside : ∀ d, Inside t (σ.client d) → d = c ∧ callOf (σ.client d) = some call ∧ callsOn t σ ≠ []
  detached : (σ.block t).detached = true → call = .detach t ∧ σ.client c ≠ .detach t .storeDetached ∧ callsOn t σ ≠ []

theorem alone_step {a : Act} (alone : Alone t c call σ) (single : callsOn t σ' <+: [(c,call)])
    (done : step σ a = some σ') : Alone t c call σ' := by
  by_cases isCall : ∃ d made, a = .call d made
  · obtain ⟨d,made,rfl⟩ := isCall
    obtain ⟨top,block,_,_,_,calls,pc,client,first⟩ := call_step done
    by_cases on : made.thread = t
    · -- It is the one call on the thread.
      have grows : callsOn t σ' = callsOn t σ ++ [(d,made)] := by simp [callsOn,calls,on]
      have length := single.length_le
      have empty : callsOn t σ = [] := by
        rw [grows,List.length_append] at length
        exact List.eq_nil_of_length_eq_zero (by simpa using length)
      rw [grows,empty,List.nil_append] at single
      obtain ⟨rfl,rfl⟩ : d = c ∧ made = call := by simpa using single
      have some : callsOn t σ' ≠ [] := by rw [grows]; simp
      refine ⟨fun e inside => ?_,fun now => absurd empty (alone.detached (block ▸ now)).2.2⟩
      by_cases isD : e = d
      · subst isD
        exact ⟨rfl,by rw [client,Function.update_self]; exact first,some⟩
      · rw [client,Function.update_of_ne isD] at inside
        exact absurd empty (alone.inside e inside).2.2
    · have same : callsOn t σ' = callsOn t σ := by simp [callsOn,calls,on]
      have outside : ¬ Inside t pc := fun inside => by
        obtain ⟨other,is,isT⟩ := callOf_of_inside inside
        rw [Option.some.inj (first.symm.trans is)] at on
        exact on isT
      refine ⟨fun e inside => ?_,fun now => ?_⟩ <;> rw [same,client]
      · have isNotD : e ≠ d := fun isD => by
          rw [client,isD,Function.update_self] at inside
          exact outside inside
        rw [client,Function.update_of_ne isNotD] at inside
        rw [Function.update_of_ne isNotD]
        exact alone.inside e inside
      · obtain ⟨isDetach,before,some⟩ := alone.detached (block ▸ now)
        refine ⟨isDetach,?_,some⟩
        by_cases isD : c = d
        · rw [isD,Function.update_self]
          intro is
          exact outside (by rw [is]; rfl)
        · rwa [Function.update_of_ne isD]
  · obtain ⟨calls,clients,starts,detached⟩ := step_quiet (t := t) done fun d made is => isCall ⟨d,made,is⟩
    have same : callsOn t σ' = callsOn t σ := by rw [callsOn,callsOn,calls]
    have back : ∀ d, Inside t (σ'.client d) → Inside t (σ.client d) := by
      intro d inside
      obtain ⟨made,is,on⟩ := callOf_of_inside inside
      exact inside_of_callOf (clients d made is) on
    refine ⟨fun d inside => ?_,fun now => ?_⟩ <;> rw [same]
    · obtain ⟨isC,was,some⟩ := alone.inside d (back d inside)
      obtain ⟨made,is,_⟩ := callOf_of_inside inside
      have same : made = call := Option.some.inj ((clients d made is).symm.trans was)
      exact ⟨isC,same ▸ is,some⟩
    · rcases detached now with before | ⟨d,was,goes⟩
      · obtain ⟨isDetach,later,some⟩ := alone.detached before
        exact ⟨isDetach,fun is => later (starts c is),some⟩
      · obtain ⟨isC,made,some⟩ := alone.inside d (by rw [was]; rfl)
        rw [was] at made
        refine ⟨(Option.some.inj made).symm,fun is => ?_,some⟩
        rw [← isC,goes] at is
        cases is

theorem start_alone : Alone t c call start := ⟨nofun,nofun⟩

/-! ### Who outlives whom -/

/-- A thread that a client has released has exited, and where the thread has freed
    its own block, no client is inside a call on it, all of whose steps go to the
    block. -/
structure Outlived (t : Nat) (σ : State) : Prop where
  thread : ∀ c, .client c ∈ σ.unmapped t ++ σ.freed t → σ.startup t = .exited
  client : .thread ∈ σ.freed t → ∀ c, ¬ Inside t (σ.client c)

/-- The thread stands between its store of `finished` and its exit, and has not taken
    the flag. -/
def Epilogue : StartupPc → Prop
  | .futexWake | .compareExchange | .exit => True
  | _ => False

/-- The client has detached the thread, and has yet to look at `finished` or at
    `joined`. -/
def Looks (t : Nat) : ClientPc → Prop
  | .detach u .loadFinished | .detach u .compareExchange => u = t
  | _ => False

/-- A client unmaps the stack of a thread in its epilogue, or the thread frees its
    block before a detach that has yet to look at it. -/
def Overtakes (t : Nat) (σ : State) : Act → Prop
  | .client c => Unmaps t (σ.client c) ∧ Epilogue (σ.startup t)
  | .startup u _ => u = t ∧ σ.startup t = .freeBlock ∧ ∃ c, Looks t (σ.client c)
  | _ => False

/-- What a thread's own step adds to its releases. -/
theorem startup_releases {env : Env} (done : threadStartup σ t env = some σ') :
    (σ'.unmapped t = σ.unmapped t ∨ σ'.unmapped t = σ.unmapped t ++ [.thread]) ∧
      (σ'.freed t = σ.freed t ∨ σ.startup t = .freeBlock ∧ σ'.freed t = σ.freed t ++ [.thread]) := by
  cases here : σ.startup t <;> simp only [threadStartup,here] at done <;> try split at done
  all_goals cases done
  case munmap => exact ⟨.inr (by simp [State.unmap,State.startupAt]),.inl rfl⟩
  case freeBlock => exact ⟨.inl rfl,.inr ⟨rfl,by simp [State.free,State.startupAt]⟩⟩
  case futexWake =>
    show ((σ.futexWake t env.pick).unmapped t = _ ∨ _) ∧ ((σ.futexWake t env.pick).freed t = _ ∨ _)
    unfold State.futexWake
    split
    · exact ⟨.inl rfl,.inl rfl⟩
    · unfold State.wake
      split <;> exact ⟨.inl rfl,.inl rfl⟩
  all_goals exact ⟨.inl rfl,.inl rfl⟩

/-- A thread frees its own block only where it has been detached. -/
theorem detached_of_freed {p : Part} {startup : StartupPc} {client : Nat → ClientPc}
    (settled : Settled t p startup client) (freed : .thread ∈ p.freed) : p.block.detached = true := by
  cases taken : p.taken with
  | none => simp [(settled.untaken taken).2] at freed
  | some r =>
    cases r with
    | client c =>
      by_cases releasing : Releasing t (client c)
      · have none : p.freed = [] := by
          have knows := settled.clients c
          cases pc : client c with
          | idle => rw [pc] at releasing; exact releasing.elim
          | join u wants pc' =>
            rw [pc] at knows releasing
            cases pc' <;> first | exact releasing.elim | exact (knows releasing).2.2.2
          | detach u pc' =>
            rw [pc] at knows releasing
            cases pc' <;> first | exact releasing.elim | exact (knows releasing).2.2.2
        rw [none] at freed
        cases freed
      · rw [(settled.released c taken releasing).2] at freed
        simp at freed
    | thread =>
      have knows := settled.startup
      cases startup with
      | exit | exited =>
        rcases knows.2.2 taken with ⟨_,none⟩ | ⟨detached,_⟩
        · rw [none] at freed; cases freed
        · exact detached
      | _ => simp_all [StartupKnows]

theorem unmaps_step (done : step σ (.client c) = some σ') (now : Unmaps t (σ.client c)) :
    .client c ∈ σ'.unmapped t ∧ σ'.startup = σ.startup := by
  cases step_cases done with
  | @join c u wants pc here =>
    rw [here] at now
    cases pc <;> first | exact now.elim | skip
    cases now
    exact ⟨by simp [mythreadJoin,State.unmap,State.clientAt],rfl⟩
  | @detach c u pc here =>
    rw [here] at now
    cases pc <;> first | exact now.elim | skip
    cases now
    exact ⟨by simp [mythreadDetach,State.unmap,State.clientAt],rfl⟩

/-- A client that is about to unmap the stack of a thread finds it past its
    epilogue only when it has exited. -/
theorem exited_of_unmaps (owned : Owned σ) (now : Unmaps t (σ.client c)) (late : ¬ Epilogue (σ.startup t)) :
    σ.startup t = .exited := by
  have knows : (part σ t).block.finished = true ∧ (part σ t).taken = some (.client c) := by
    have knows := (owned t).clients c
    cases here : σ.client c with
    | idle => rw [here] at now; exact now.elim
    | join u wants pc =>
      rw [here] at knows now
      cases pc <;> first | exact now.elim | exact ⟨(knows now).1,(knows now).2.1⟩
    | detach u pc =>
      rw [here] at knows now
      cases pc <;> first | exact now.elim | exact ⟨(knows now).1,(knows now).2.1⟩
  have startup := (owned t).startup
  cases here : σ.startup t <;> rw [here] at startup late <;> simp_all [StartupKnows,Epilogue]

theorem exited_stuck {a : Act} (owned : Owned σ) (exited : σ.startup t = .exited) (done : step σ a = some σ') :
    σ'.startup t = .exited ∧ ∀ env, a ≠ .startup t env := by
  have other : ∀ env, a ≠ .startup t env := by
    rintro env rfl
    simp only [step,threadStartup,exited] at done
    split at done <;> cases done
  refine ⟨?_,other⟩
  rcases (step_foreign owned done other).2 with same | ⟨_,running,_⟩
  · exact same.trans exited
  · rw [exited] at running; cases running

/-- What a client's step adds to the releases of a thread. -/
theorem client_releases (owned : Owned σ) (done : step σ (.client c) = some σ') :
    (σ'.unmapped t = σ.unmapped t ∨ Unmaps t (σ.client c) ∧ σ'.unmapped t = σ.unmapped t ++ [.client c]) ∧
      (σ'.freed t = σ.freed t ∨ σ.unmapped t = [.client c] ∧ σ'.freed t = σ.freed t ++ [.client c]) := by
  obtain ⟨_,pc,u,_,moves,others⟩ := client_step owned done
  by_cases isU : t = u
  · subst isU
    generalize after : part σ' t = p' at moves
    have unmapped : σ'.unmapped t = p'.unmapped := congrArg Part.unmapped after
    have freed : σ'.freed t = p'.freed := congrArg Part.freed after
    rw [unmapped,freed]
    cases moves with
    | unmaps _ now _ _ => exact ⟨.inr ⟨now,rfl⟩,.inl rfl⟩
    | frees _ before _ => exact ⟨.inl rfl,.inr ⟨before,rfl⟩⟩
    | _ => exact ⟨.inl rfl,.inl rfl⟩
  · have same := (others t isU).1
    exact ⟨.inl (congrArg Part.unmapped same),.inl (congrArg Part.freed same)⟩

/-- The steps that release nothing. -/
theorem other_releases {a : Act} (done : step σ a = some σ') (noClient : ∀ c, a ≠ .client c)
    (noStartup : ∀ env, a ≠ .startup t env) : σ'.unmapped t = σ.unmapped t ∧ σ'.freed t = σ.freed t := by
  cases step_cases done with
  | finish u retval => exact ⟨rfl,rfl⟩
  | @startup u env _ done =>
    have isNotU : t ≠ u := fun isU => noStartup env (by rw [isU])
    have same := (threadStartup_others done isNotU).1
    exact ⟨congrArg Part.unmapped same,congrArg Part.freed same⟩
  | call c call => exact ⟨rfl,rfl⟩
  | @join c => exact absurd rfl (noClient c)
  | @detach c => exact absurd rfl (noClient c)

/-- Whether a step is a thread's own. -/
theorem startup_of_step {env : Env} (done : step σ (.startup t env) = some σ') : threadStartup σ t env = some σ' := by
  cases step_cases done with
  | startup done => exact done

/-- What a client has released, it had released before, or it does so now. -/
theorem client_release {a : Act} {d : Nat} (owned : Owned σ) (done : step σ a = some σ')
    (released : .client d ∈ σ'.unmapped t ++ σ'.freed t) :
    .client d ∈ σ.unmapped t ++ σ.freed t ∨ a = .client d ∧ Unmaps t (σ.client d) := by
  by_cases isClient : ∃ c, a = .client c
  · obtain ⟨c,rfl⟩ := isClient
    obtain ⟨unmapped,freed⟩ := client_releases (t := t) owned done
    rcases List.mem_append.mp released with stack | block
    · rcases unmapped with same | ⟨now,more⟩
      · exact .inl (List.mem_append_left _ (same ▸ stack))
      · rw [more,List.mem_append,List.mem_singleton] at stack
        rcases stack with before | isC
        · exact .inl (List.mem_append_left _ before)
        · cases isC
          exact .inr ⟨rfl,now⟩
    · rcases freed with same | ⟨before,more⟩
      · exact .inl (List.mem_append_right _ (same ▸ block))
      · rw [more,List.mem_append,List.mem_singleton] at block
        rcases block with earlier | isC
        · exact .inl (List.mem_append_right _ earlier)
        · exact .inl (List.mem_append_left _ (by rw [before,isC]; exact List.mem_singleton.mpr rfl))
  · left
    by_cases isStartup : ∃ env, a = .startup t env
    · obtain ⟨env,rfl⟩ := isStartup
      obtain ⟨unmapped,freed⟩ := startup_releases (startup_of_step done)
      rcases List.mem_append.mp released with stack | block
      · apply List.mem_append_left
        rcases unmapped with same | more
        · exact same ▸ stack
        · rw [more] at stack; simpa using stack
      · apply List.mem_append_right
        rcases freed with same | ⟨_,more⟩
        · exact same ▸ block
        · rw [more] at block; simpa using block
    · obtain ⟨unmapped,freed⟩ := other_releases done (fun c is => isClient ⟨c,is⟩) fun env is => isStartup ⟨env,is⟩
      rwa [unmapped,freed] at released

/-- What the thread has freed, it had freed before, or it does so now. -/
theorem thread_release {a : Act} (owned : Owned σ) (done : step σ a = some σ') (freed : .thread ∈ σ'.freed t) :
    .thread ∈ σ.freed t ∨ ∃ env, a = .startup t env ∧ σ.startup t = .freeBlock := by
  by_cases isClient : ∃ c, a = .client c
  · obtain ⟨c,rfl⟩ := isClient
    left
    rcases (client_releases (t := t) owned done).2 with same | ⟨_,more⟩
    · exact same ▸ freed
    · rw [more] at freed; simpa using freed
  · by_cases isStartup : ∃ env, a = .startup t env
    · obtain ⟨env,rfl⟩ := isStartup
      rcases (startup_releases (startup_of_step done)).2 with same | ⟨now,_⟩
      · exact .inl (same ▸ freed)
      · exact .inr ⟨env,rfl,now⟩
    · exact .inl ((other_releases done (fun c is => isClient ⟨c,is⟩) fun env is => isStartup ⟨env,is⟩).2 ▸ freed)

/-- Where the only call on the thread has detached it, a client inside the call has
    yet to look at the thread, or has taken it. -/
theorem looks_of_inside (owned : Owned σ) (alone : Alone t c call σ) {d : Nat} (detached : (σ.block t).detached = true)
    (mine : σ.taken t = some .thread) (inside : Inside t (σ.client d)) : Looks t (σ.client d) := by
  obtain ⟨rfl,is,_⟩ := alone.inside d inside
  obtain ⟨rfl,later,_⟩ := alone.detached detached
  have knows := (owned t).clients d
  cases here : σ.client d with
  | idle => rw [here] at is; cases is
  | join u wants pc => rw [here] at is; cases is
  | detach u pc =>
    rw [here] at is knows later
    cases is
    cases pc with
    | storeDetached => exact absurd rfl later
    | loadFinished => rfl
    | compareExchange => rfl
    | destroyStack => exact absurd (mine.symm.trans (knows rfl).2.1) (by simp)
    | free => exact absurd (mine.symm.trans (knows rfl).2.1) (by simp)

/-- Once the thread has freed its block, the only call on it is over. -/
theorem over_of_freed {a : Act} (owned : Owned σ) (alone : Alone t c call σ) (outlived : Outlived t σ)
    (single : callsOn t σ' <+: [(c,call)]) (done : step σ a = some σ') (freed : .thread ∈ σ.freed t) (d : Nat) :
    ¬ Inside t (σ'.client d) := by
  intro inside
  by_cases isCall : ∃ e made, a = .call e made
  · obtain ⟨e,made,rfl⟩ := isCall
    obtain ⟨_,_,_,_,_,calls,pc,client,first⟩ := call_step done
    by_cases isE : d = e
    · subst isE
      rw [client,Function.update_self] at inside
      obtain ⟨other,is,on⟩ := callOf_of_inside inside
      obtain rfl := Option.some.inj (first.symm.trans is)
      -- It would be a second call on the thread.
      have some := (alone.detached (detached_of_freed (owned t) freed)).2.2
      have length := single.length_le
      have grows : callsOn t σ' = callsOn t σ ++ [(d,made)] := by simp [callsOn,calls,on]
      rw [grows,List.length_append] at length
      exact some (List.eq_nil_of_length_eq_zero (by simpa using length))
    · rw [client,Function.update_of_ne isE] at inside
      exact outlived.client freed d inside
  · obtain ⟨_,clients,_⟩ := step_quiet (t := t) done fun e made is => isCall ⟨e,made,is⟩
    obtain ⟨made,is,on⟩ := callOf_of_inside inside
    exact outlived.client freed d (inside_of_callOf (clients d made is) on)

theorem outlived_step {a : Act} (owned : Owned σ) (alone : Alone t c call σ) (outlived : Outlived t σ)
    (single : callsOn t σ' <+: [(c,call)]) (done : step σ a = some σ') : Outlived t σ' ↔ ¬ Overtakes t σ a := by
  constructor
  · intro after overtakes
    cases a with
    | client d =>
      obtain ⟨now,late⟩ := overtakes
      obtain ⟨released,startup⟩ := unmaps_step done now
      have exited := after.thread d (List.mem_append_left _ released)
      rw [startup] at exited
      rw [exited] at late
      exact late
    | startup u env =>
      obtain ⟨rfl,here,d,looks⟩ := overtakes
      have own := startup_of_step done
      simp only [threadStartup,here] at own
      cases own
      apply after.client (by simp [State.free,State.startupAt]) d
      show Inside u (σ.client d)
      cases pc : σ.client d with
      | detach v now => rw [pc] at looks; cases now <;> first | exact looks | exact looks.elim
      | idle => rw [pc] at looks; exact looks
      | join v wants now => rw [pc] at looks; exact looks.elim
    | _ => exact overtakes
  · intro behind
    refine ⟨fun d released => ?_,fun freed d => ?_⟩
    · rcases client_release owned done released with before | ⟨rfl,now⟩
      · exact (exited_stuck owned (outlived.thread d before) done).1
      · rw [(unmaps_step done now).2]
        exact exited_of_unmaps owned now fun late => behind ⟨now,late⟩
    · rcases thread_release owned done freed with before | ⟨env,rfl,here⟩
      · exact over_of_freed owned alone outlived single done before d
      · intro inside
        have knows := (owned t).startup
        rw [here] at knows
        obtain ⟨_,clients,_⟩ := step_quiet (t := t) done (by simp)
        obtain ⟨made,is,on⟩ := callOf_of_inside inside
        have was := inside_of_callOf (clients d made is) on
        exact behind ⟨rfl,here,d,looks_of_inside owned alone knows.2.1 knows.2.2.1 was⟩

/-- A run in which a single call is made on a thread keeps the stack and the block as
    long as the thread and the call need them exactly when neither of them overtakes
    the other. -/
theorem outlived_iff {acts : List Act} (ran : Transition.run step start acts = some σ)
    (single : callsOn t σ = [(c,call)]) :
    Throughout step (Outlived t) start acts ↔ Along step (fun σ a => ¬ Overtakes t σ a) start acts :=
  Transition.throughout_iff_along (I := fun σ => Owned σ ∧ (callsOn t σ <+: [(c,call)] → Alone t c call σ))
    (Q := fun σ => callsOn t σ <+: [(c,call)])
    (fun _ _ _ inv done => ⟨owned_step inv.1 done,fun upTo => alone_step (inv.2 (callsOn_back done upTo)) upTo done⟩)
    (fun _ _ _ done upTo => callsOn_back done upTo)
    (fun _ _ _ inv outlived upTo done =>
      outlived_step inv.1 (inv.2 (callsOn_back done upTo)) outlived upTo done) ran
    ⟨start_owned,fun _ => start_alone⟩ (single ▸ List.prefix_rfl) ⟨nofun,nofun⟩

/-- The thread 0 finishes; a join sees that, takes the flag and releases the thread,
    which has yet to wake the joiner. -/
def clientAhead : List Act :=
  .finish 0 7 :: List.replicate 2 (.startup 0 ⟨true,0⟩) ++ .call 1 (.join 0 false) :: List.replicate 5 (.client 1)

/-- The thread 0 is detached and releases itself, before the detach looks at
    `finished`. -/
def threadAhead : List Act :=
  [.call 1 (.detach 0),.client 1,.finish 0 7] ++ List.replicate 13 (.startup 0 ⟨true,0⟩)

theorem either_overtakes :
    (callsOn 0 (after clientAhead) = [(1,.join 0 false)] ∧ .client 1 ∈ (after clientAhead).freed 0 ∧
      (after clientAhead).startup 0 = .futexWake ∧ ¬ Throughout step (Outlived 0) start clientAhead) ∧
    callsOn 0 (after threadAhead) = [(1,.detach 0)] ∧ .thread ∈ (after threadAhead).freed 0 ∧
      (after threadAhead).client 1 = .detach 0 .loadFinished ∧ ¬ Throughout step (Outlived 0) start threadAhead := by
  refine ⟨⟨by decide,by decide,by decide,fun holds => ?_⟩,by decide,by decide,by decide,fun holds => ?_⟩
  · have exited := (holds clientAhead [] (after clientAhead) (List.append_nil _).symm rfl).thread 1 (by decide)
    exact absurd exited (by decide)
  · have outlived := (holds threadAhead [] (after threadAhead) (List.append_nil _).symm rfl).client (by decide) 1
    exact outlived (by rw [show (after threadAhead).client 1 = .detach 0 .loadFinished by decide]; rfl)

theorem outlived_iff_ahead : Throughout step (Outlived 0) start clientAhead ↔
    Along step (fun σ a => ¬ Overtakes 0 σ a) start clientAhead :=
  outlived_iff (rfl : Transition.run step start clientAhead = some (after clientAhead))
    (show callsOn 0 (after clientAhead) = [(1,.join 0 false)] by decide)

end Os5Sem.WoReaperLifetime

import Os5Sem.ThreadSteps

/-!
The calls that the clients have made. Whoever is inside a call has made it, a
thread is detached only by a call that asks for it, and when a single call on a
thread has been made, the thread is not detached before that call's
compare-exchange (`Called`).
-/
namespace Os5Sem.ThreadCalls
open Os5Sem.MyThread Os5Sem.ThreadSteps
open Os5Sem.ReapQueue (Env)

variable {σ σ' : State}

/-- The call that a client is inside of. -/
def callOf : ClientPc → Option Call
  | .idle => none
  | .join t wants _ => some (.join t wants)
  | .detach t _ => some (.detach t)

/-- The calls on the thread, with the clients that made them. -/
def callsOn (t : Nat) (σ : State) : List (Nat × Call) := σ.calls.filter fun made => made.2.thread = t

/-- Inside a detach, before the compare-exchange that sets `MT_DETACHED`. -/
def Undecided (t : Nat) : ClientPc → Prop
  | .detach u .loadState | .detach u (.compareExchange _) => u = t
  | _ => False

/-- The call that a step makes. -/
def callMade : Act → List (Nat × Call)
  | .call c call => [(c,call)]
  | _ => []

theorem calls_step {a : Act} (done : step σ a = some σ') : σ'.calls = σ.calls ++ callMade a := by
  cases step_cases done with
  | call c call => rfl
  | finish t retval => exact (List.append_nil _).symm
  | startup done => exact (threadStartup_effect done).calls.trans (List.append_nil _).symm
  | join env here => exact (mythreadJoin_effect here).calls.trans (List.append_nil _).symm
  | detach here done => exact (mythreadDetach_effect here done).calls.trans (List.append_nil _).symm
  | reaper done => exact (reaperMain_effect done).calls.trans (List.append_nil _).symm

theorem callsOn_back {t : Nat} {a : Act} {made : List (Nat × Call)} (done : step σ a = some σ')
    (upTo : callsOn t σ' <+: made) :
    callsOn t σ <+: made := by
  refine List.IsPrefix.trans ?_ upTo
  rw [callsOn,callsOn,calls_step done,List.filter_append]
  exact List.prefix_append ..

structure Called (σ : State) : Prop where
  made : ∀ c call, callOf (σ.client c) = some call → (c,call) ∈ σ.calls
  detached : ∀ t, (σ.flags t).detached = true → ∃ c, (c,.detach t) ∈ σ.calls
  undecided : ∀ t c, callsOn t σ = [(c,.detach t)] → Undecided t (σ.client c) → (σ.flags t).detached = false

theorem callOf_of_undecided {t : Nat} {pc : ClientPc} (is : Undecided t pc) : callOf pc = some (.detach t) := by
  cases pc with
  | detach u pc => cases pc <;> first | exact is.elim | exact congrArg (fun u => some (Call.detach u)) is
  | _ => exact is.elim

theorem mem_callsOn {t : Nat} {made : Nat × Call} : made ∈ callsOn t σ ↔ made ∈ σ.calls ∧ made.2.thread = t := by
  simp [callsOn]

/-- When there is a single call on the thread, whoever is inside a call on it is
    in that one. -/
theorem Called.alone (called : Called σ) {t c d : Nat} {call other : Call} (single : callsOn t σ = [(c,call)])
    (inside : callOf (σ.client d) = some other) (on : other.thread = t) : d = c ∧ other = call := by
  have member : (d,other) ∈ callsOn t σ := mem_callsOn.mpr ⟨called.made d other inside,on⟩
  rw [single] at member
  simpa using member

/-- A step that makes no call, detaches nothing and leads into no call. -/
theorem Called.congr (called : Called σ) (calls : σ'.calls = σ.calls)
    (detached : ∀ t, (σ'.flags t).detached = (σ.flags t).detached)
    (clients : ∀ c, σ'.client c = σ.client c ∨ ∀ call, callOf (σ'.client c) = some call →
      callOf (σ.client c) = some call)
    (undecided : ∀ c t, Undecided t (σ'.client c) → Undecided t (σ.client c)) : Called σ' where
  made c call inside := by
    rw [calls]
    rcases clients c with same | was
    · exact called.made c call (same ▸ inside)
    · exact called.made c call (was call inside)
  detached t is := by
    rw [calls]
    exact called.detached t (detached t ▸ is)
  undecided t c single is := by
    rw [detached]
    exact called.undecided t c (by rw [← single,callsOn,callsOn,calls]) (undecided c t is)

/-- A client's program point changes, but not the call that it is inside of. -/
theorem Called.clientAt (called : Called σ) {c : Nat} (calls : σ'.calls = σ.calls)
    (detached : ∀ t, (σ'.flags t).detached = (σ.flags t).detached) (others : ∀ d, d ≠ c → σ'.client d = σ.client d)
    (own : ∀ call, callOf (σ'.client c) = some call → callOf (σ.client c) = some call)
    (undecided : ∀ t, Undecided t (σ'.client c) → Undecided t (σ.client c)) : Called σ' := by
  refine called.congr calls detached (fun d => ?_) (fun d t => ?_) <;> by_cases isC : d = c
  · exact .inr (isC ▸ own)
  · exact .inl (others d isC)
  · exact isC ▸ undecided t
  · rw [others d isC]; exact id

theorem called_join (called : Called σ) {c t : Nat} {wants : Bool} {pc : JoinPc}
    (here : σ.client c = .join t wants pc) :
    Called (mythreadJoin σ c t wants pc) := by
  have effect := mythreadJoin_effect here
  refine called.clientAt effect.calls effect.detached effect.others (fun call inside => ?_) (fun u is => ?_)
  · rcases effect.own with idle | ⟨pc',now⟩
    · rw [idle] at inside; cases inside
    · rw [now] at inside; rw [here]; exact inside
  · rcases effect.own with idle | ⟨pc',now⟩
    · rw [idle] at is; exact is.elim
    · rw [now] at is; exact is.elim

theorem detachLoop_undecided (c t u : Nat) (s : Flags) (is : Undecided u ((detachLoop σ c t s).client c)) : u = t := by
  unfold detachLoop at is
  split at is
  · simp [State.leave,State.clientAt,Undecided] at is
  · split at is
    · simp [State.leave,State.clientAt,Undecided] at is
    · simpa [State.clientAt,Undecided,eq_comm] using is

theorem detachLoop_detached (c t u : Nat) (s : Flags) :
    ((detachLoop σ c t s).flags u).detached = (σ.flags u).detached := by
  unfold detachLoop
  split
  · rfl
  · split <;> rfl

/-- A step of a detach changes whether a thread is detached only by the
    compare-exchange that succeeds. -/
theorem mythreadDetach_decides {c t : Nat} {env : Env} {pc : DetachPc} (here : σ.client c = .detach t pc)
    (done : mythreadDetach σ c t env pc = some σ') :
    (∀ u, (σ'.flags u).detached = (σ.flags u).detached) ∧ (∀ u, Undecided u (σ'.client c) → Undecided u (σ.client c)) ∨
      Undecided t (σ.client c) ∧ σ'.client c = .detach t .loadFinished ∧
        ∀ u, (σ'.flags u).detached = true → u = t ∨ (σ.flags u).detached = true := by
  cases pc with
  | loadState =>
    cases done
    refine .inl ⟨fun u => detachLoop_detached c t u _,fun u is => ?_⟩
    rw [here,detachLoop_undecided c t u _ is]
    rfl
  | compareExchange s =>
    simp only [mythreadDetach] at done
    split at done <;> cases done
    · refine .inr ⟨by rw [here]; rfl,by simp [State.clientAt],fun u is => ?_⟩
      have flags := setFlags_flags σ t u { s with detached := true }
      by_cases isT : u = t
      · exact .inl isT
      · rw [if_neg isT] at flags
        exact .inr (flags ▸ is)
    · refine .inl ⟨fun u => detachLoop_detached c t u _,fun u is => ?_⟩
      rw [here,detachLoop_undecided c t u _ is]
      rfl
  | loadFinished =>
    simp only [mythreadDetach] at done
    split at done <;> cases done <;>
      exact .inl ⟨fun _ => rfl,fun u is => by simp [State.leave,State.clientAt,Undecided] at is⟩
  | orQueued =>
    have flags : ∀ u, ((σ.setFlags t { σ.flags t with queued := true }).flags u).detached = (σ.flags u).detached := by
      intro u
      rw [setFlags_flags]
      split
      · rename_i isT; rw [isT]
      · rfl
    simp only [mythreadDetach] at done
    split at done <;> cases done <;>
      exact .inl ⟨flags,fun u is => by simp [State.leave,State.clientAt,Undecided] at is⟩
  | startReaper => cases done; exact .inl ⟨fun _ => rfl,fun u is => by simp [State.clientAt,Undecided] at is⟩
  | callEnqueue => cases done; exact .inl ⟨fun _ => rfl,fun u is => by simp [State.clientAt,Undecided] at is⟩
  | enqueueing =>
    obtain ⟨queue,_,rfl⟩ := Option.map_eq_some_iff.mp done
    split
    · exact .inl ⟨fun _ => rfl,fun u is => by simp [State.leave,State.clientAt,Undecided] at is⟩
    · exact .inl ⟨fun _ => rfl,fun u => id⟩

theorem called_detach (called : Called σ) {c t : Nat} {env : Env} {pc : DetachPc} (here : σ.client c = .detach t pc)
    (done : mythreadDetach σ c t env pc = some σ') : Called σ' := by
  have effect := mythreadDetach_effect here done
  have own : ∀ call, callOf (σ'.client c) = some call → callOf (σ.client c) = some call := by
    intro call inside
    rcases effect.own with idle | ⟨pc',now⟩
    · rw [idle] at inside; cases inside
    · rw [now] at inside; rw [here]; exact inside
  rcases mythreadDetach_decides here done with ⟨detached,undecided⟩ | ⟨_,now,detached⟩
  · exact called.clientAt effect.calls detached effect.others own undecided
  · have mine : (c,.detach t) ∈ σ.calls := called.made c _ (by rw [here]; rfl)
    have inside : ∀ d call, callOf (σ'.client d) = some call → callOf (σ.client d) = some call := by
      intro d call
      by_cases isC : d = c
      · exact isC ▸ own call
      · rw [effect.others d isC]; exact id
    refine ⟨fun d call is => ?_,fun u is => ?_,fun u d single is => ?_⟩
    · rw [effect.calls]
      exact called.made d call (inside d call is)
    · rw [effect.calls]
      rcases detached u is with rfl | was
      · exact ⟨c,mine⟩
      · exact called.detached u was
    · have notC : d ≠ c := fun isC => by rw [isC,now] at is; exact is
      rw [effect.others d notC] at is
      have single : callsOn u σ = [(d,.detach u)] := by rw [← single,callsOn,callsOn,effect.calls]
      by_contra wrong
      rcases detached u (by simpa using wrong) with rfl | was
      · -- The detacher of the thread would have made the only call on it.
        have inside : callOf (σ.client c) = some (.detach u) := by rw [here]; rfl
        exact notC (called.alone single inside rfl).1.symm
      · rw [called.undecided u d single is] at was
        cases was

/-- A client that is outside of any call makes one. -/
theorem called_call (called : Called σ) {c : Nat} {call : Call} {pc : ClientPc} (top : σ.client c = .idle)
    (first : callOf pc = some call) : Called { σ.clientAt c pc with calls := σ.calls ++ [(c,call)] } := by
  refine ⟨fun d other inside => ?_,fun u is => ?_,fun u d single is => ?_⟩
  · by_cases isC : d = c
    · subst isC
      simp only [State.clientAt,Function.update_self] at inside
      rw [Option.some.inj (inside.symm.trans first)]
      simp
    · simp only [State.clientAt,Function.update_of_ne isC] at inside
      exact List.mem_append_left _ (called.made d other inside)
  · obtain ⟨d,member⟩ := called.detached u is
    exact ⟨d,List.mem_append_left _ member⟩
  · by_contra wrong
    obtain ⟨e,member⟩ := called.detached u (eq_true_of_ne_false wrong)
    have earlier : (e,.detach u) ∈ callsOn u σ := mem_callsOn.mpr ⟨member,rfl⟩
    have split : callsOn u σ ++ [(c,call)].filter (fun made => made.2.thread = u) = [(d,.detach u)] := by
      rw [← single]
      exact (List.filter_append ..).symm
    by_cases on : call.thread = u
    · -- A second call on the thread.
      have length := congrArg List.length split
      simp [on,List.ne_nil_of_mem earlier] at length
    · simp only [on,List.filter_cons,List.filter_nil,decide_false,Bool.false_eq_true,if_false,List.append_nil] at split
      have notC : d ≠ c := by
        intro isC
        subst isC
        simp only [State.clientAt,Function.update_self] at is
        rw [callOf_of_undecided is] at first
        cases first
        exact on rfl
      simp only [State.clientAt,Function.update_of_ne notC] at is
      exact wrong (called.undecided u d split is)

theorem called_step {a : Act} (called : Called σ) (done : step σ a = some σ') : Called σ' := by
  cases step_cases done with
  | finish t retval => exact called.congr rfl (fun _ => rfl) (fun _ => .inl rfl) fun _ _ => id
  | startup done =>
    have effect := threadStartup_effect done
    refine called.congr effect.calls effect.detached (fun c => ?_) (fun c u is => ?_) <;>
      rcases effect.clients c with same | ⟨v,wants,was,now⟩
    · exact .inl same
    · exact .inr fun call inside => by rw [now] at inside; rw [was]; exact inside
    · exact same ▸ is
    · rw [now] at is; exact is.elim
  | call c call top => exact called_call called top (by cases call <;> rfl)
  | join env here => exact called_join called here
  | detach here done => exact called_detach called here done
  | reaper done =>
    have effect := reaperMain_effect done
    exact called.congr effect.calls effect.detached (fun _ => .inl (by rw [effect.client]))
      fun _ _ is => effect.client ▸ is

theorem start_called : Called start := ⟨nofun,fun _ is => by simp [start,State.flags] at is,nofun⟩

end Os5Sem.ThreadCalls

import Os5Sem.Atomic
import Os5Sem.ThreadOwnership

/-!
The calls of `mythread_join` and `mythread_detach` as operations of one atomic object,
which knows of each thread who owns it. A call takes effect when it reads that it is
refused or not needed, or with its compare-exchange. Every run of the threads is a
history of this object (`calls_linearizable`).
-/
namespace Os5Sem.ThreadLinear
open Os5Sem.MyThread Os5Sem.ThreadSteps Os5Sem.ThreadFacts Os5Sem.ThreadOwnership
open Os5Sem.ReapQueue (Env)

/-! ### The object -/

inductive Owner
  | nobody
  | joiner
  | reaper
deriving DecidableEq

/-- A call that takes effect as a whole, when the start routine of `t` returns
    `value t`. -/
def apply (value : Nat → Nat) : Call → (Nat → Owner) → (Nat → Owner) × Result
  | .join t wants,owner =>
    match owner t with
    | .nobody => (Function.update owner t .joiner,.ok (if wants then some (value t) else none))
    | _ => (owner,.einval)
  | .detach t,owner =>
    match owner t with
    | .nobody => (Function.update owner t .reaper,.ok none)
    | .reaper => (owner,.ok none)
    | .joiner => (owner,.einval)

def ownerOf (f : Flags) : Owner := if f.detached then .reaper else if f.joined then .joiner else .nobody

def owners (σ : State) (t : Nat) : Owner := ownerOf (σ.flags t)

/-- What the object knows of a client: until the compare-exchange a call has no
    effect. -/
def statusOf (value : Nat → Nat) : ClientPc → Atomic.Status Call Result
  | .idle => .top
  | .join t wants pc =>
    match pc with
    | .loadState | .compareExchange _ => .called (.join t wants)
    | _ => .decided (.ok (if wants then some (value t) else none))
  | .detach t pc =>
    match pc with
    | .loadState | .compareExchange _ => .called (.detach t)
    | _ => .decided (.ok none)

def object (value : Nat → Nat) (σ : State) : Atomic.Object Nat (Nat → Owner) Call Result :=
  ⟨owners σ,fun c => statusOf value (σ.client c)⟩

abbrev CallEvent := Atomic.Event Nat Call Result

def returnsOf (σ σ' : State) : List CallEvent :=
  (σ'.returns.drop σ.returns.length).map fun r => .ret r.client r.result

/-- What a step shows: a call or a return. -/
def events (σ : State) (a : Act) (σ' : State) : List CallEvent :=
  match a with
  | .call c call => [.call c call]
  | _ => returnsOf σ σ'

/-- The object is where the program is. -/
def Stands (value : Nat → Nat) (σ : State) (o : Atomic.Object Nat (Nat → Owner) Call Result) : Prop :=
  o = object value σ

/-- The values that have been returned so far are the ones that are returned. -/
def Agrees (value : Nat → Nat) (σ : State) : Prop := ∀ t v, σ.returned t = some v → v = value t

variable {value : Nat → Nat} {σ σ' : State} {c t : Nat} {call : Call} {result : Result}

/-! ### Kinds of steps -/

theorem returnsOf_same (returns : σ'.returns = σ.returns) : returnsOf σ σ' = [] := by
  rw [returnsOf,returns,List.drop_length,List.map_nil]

theorem returnsOf_one {r : Return} (returns : σ'.returns = σ.returns ++ [r]) :
    returnsOf σ σ' = [.ret r.client r.result] := by
  rw [returnsOf,returns,List.drop_left,List.map_singleton]

/-- Only one client goes on. -/
theorem object_eq (others : ∀ d, d ≠ c → σ'.client d = σ.client d) :
    object value σ' = ⟨owners σ',Function.update (object value σ).status c (statusOf value (σ'.client c))⟩ := by
  have clients : (fun d => statusOf value (σ'.client d)) =
      Function.update (object value σ).status c (statusOf value (σ'.client c)) := by
    funext d
    by_cases isC : d = c
    · subst isC
      rw [Function.update_self]
    · rw [Function.update_of_ne isC,others d isC]
      rfl
  rw [← clients]
  rfl

/-- The step is nothing for the object. -/
theorem follows_quiet (owned : owners σ' = owners σ)
    (clients : ∀ d, statusOf value (σ'.client d) = statusOf value (σ.client d)) (returns : σ'.returns = σ.returns) :
    Atomic.Follows (apply value) (Stands value) (returnsOf σ σ') (object value σ) σ' := by
  rw [returnsOf_same returns]
  refine ⟨[],object value σ,rfl,rfl,?_⟩
  rw [Stands,object,object,owned,funext clients]

/-- The call takes effect. -/
theorem follows_point (called : statusOf value (σ.client c) = .called call)
    (applied : apply value call (owners σ) = (owners σ',result))
    (decided : statusOf value (σ'.client c) = .decided result) (others : ∀ d, d ≠ c → σ'.client d = σ.client d)
    (returns : σ'.returns = σ.returns) :
    Atomic.Follows (apply value) (Stands value) (returnsOf σ σ') (object value σ) σ' := by
  have isCalled : (object value σ).status c = .called call := called
  rw [returnsOf_same returns]
  refine ⟨[.point c],_,Atomic.run_point isCalled,rfl,?_⟩
  have is : apply value call (object value σ).value = (owners σ',result) := applied
  rw [Stands,is,object_eq others,decided]
  rfl

/-- The call returns what has been decided. -/
theorem follows_return (decided : statusOf value (σ.client c) = .decided result)
    (owned : owners σ' = owners σ) (others : ∀ d, d ≠ c → σ'.client d = σ.client d) (top : σ'.client c = .idle)
    (returns : σ'.returns = σ.returns ++ [⟨c,call,result⟩]) :
    Atomic.Follows (apply value) (Stands value) (returnsOf σ σ') (object value σ) σ' := by
  have isDecided : (object value σ).status c = .decided result := decided
  rw [returnsOf_one returns]
  refine ⟨[.ret c result],_,Atomic.run_ret isDecided,rfl,?_⟩
  rw [Stands,object_eq others,owned,top]
  rfl

/-- The call takes effect and returns, and changes nothing. -/
theorem follows_refusal (called : statusOf value (σ.client c) = .called call)
    (applied : apply value call (owners σ) = (owners σ,result)) (owned : owners σ' = owners σ)
    (others : ∀ d, d ≠ c → σ'.client d = σ.client d) (top : σ'.client c = .idle)
    (returns : σ'.returns = σ.returns ++ [⟨c,call,result⟩]) :
    Atomic.Follows (apply value) (Stands value) (returnsOf σ σ') (object value σ) σ' := by
  have isCalled : (object value σ).status c = .called call := called
  have is : apply value call (object value σ).value = (owners σ,result) := applied
  rw [returnsOf_one returns]
  have goes : Transition.run (Atomic.step (apply value)) (object value σ) [.point c,.ret c result] =
      some ((object value σ).set c .top) := by
    have point : Transition.run (Atomic.step (apply value)) (object value σ) [.point c] = _ := Atomic.run_point isCalled
    rw [is] at point
    refine Transition.run_append point ?_
    rw [Atomic.run_ret (by simp [Atomic.Object.set])]
    simp [Atomic.Object.set,object]
  refine ⟨[.point c,.ret c result],_,goes,rfl,?_⟩
  rw [Stands,object_eq others,owned,top]
  rfl

/-! ### Joins -/

theorem owners_of_flags (detached : ∀ u, (σ'.flags u).detached = (σ.flags u).detached)
    (joined : ∀ u, (σ'.flags u).joined = (σ.flags u).joined) : owners σ' = owners σ := by
  funext u
  simp only [owners,ownerOf,detached,joined]

theorem owners_setFlags (σ : State) (t : Nat) (f : Flags) :
    owners (σ.setFlags t f) = Function.update (owners σ) t (ownerOf f) := by
  funext u
  rw [owners,setFlags_flags]
  by_cases isT : u = t
  · subst isT
    rw [if_pos rfl,Function.update_self]
  · rw [if_neg isT,Function.update_of_ne isT]
    rfl

theorem leave_client (σ : State) (c : Nat) (call : Call) (result : Result) :
    (σ.leave c call result).client c = .idle ∧ ∀ d, d ≠ c → (σ.leave c call result).client d = σ.client d :=
  ⟨by simp [State.leave,State.clientAt],fun d other => by simp [State.leave,State.clientAt,other]⟩

theorem clientAt_client (σ : State) (c : Nat) (pc : ClientPc) :
    (σ.clientAt c pc).client c = pc ∧ ∀ d, d ≠ c → (σ.clientAt c pc).client d = σ.client d :=
  ⟨by simp [State.clientAt],fun d other => by simp [State.clientAt,other]⟩

/-- Between two points of its call a client goes on. -/
theorem follows_goes {pc : ClientPc} (owned : owners σ' = owners σ) (client : σ'.client = (σ.clientAt c pc).client)
    (same : statusOf value pc = statusOf value (σ.client c)) (returns : σ'.returns = σ.returns) :
    Atomic.Follows (apply value) (Stands value) (returnsOf σ σ') (object value σ) σ' := by
  refine follows_quiet owned (fun d => ?_) returns
  rw [client]
  by_cases isC : d = c
  · subst isC
    rw [(clientAt_client σ d pc).1,same]
  · rw [(clientAt_client σ c pc).2 d isC]

theorem follows_joinLoop {wants : Bool} (called : statusOf value (σ.client c) = .called (.join t wants)) :
    Atomic.Follows (apply value) (Stands value) (returnsOf σ (joinLoop σ c t wants (σ.flags t))) (object value σ)
      (joinLoop σ c t wants (σ.flags t)) := by
  obtain ⟨top,others⟩ := leave_client σ c (.join t wants) .einval
  unfold joinLoop
  split
  · rename_i detached
    have owner : owners σ t = .reaper := if_pos detached
    exact follows_refusal called (by simp [apply,owner]) rfl others top rfl
  · rename_i undetached
    split
    · rename_i joined
      have owner : owners σ t = .joiner := by rw [owners,ownerOf,if_neg undetached,if_pos joined]
      exact follows_refusal called (by simp [apply,owner]) rfl others top rfl
    · exact follows_goes rfl rfl called.symm rfl

/-- What a join is about to return is what has been decided. -/
theorem decided_of_stores (informed : Informed σ) (agrees : Agrees value σ) (done : σ.finished t = true)
    (wants : Bool) :
    stores σ t wants = if wants then some (value t) else none := by
  have returned := returned_of_finished informed done
  rw [stores,returned,agrees t _ returned]

theorem follows_join {wants : Bool} {pc : JoinPc} (informed : Informed σ) (agrees : Agrees value σ)
    (here : σ.client c = .join t wants pc) :
    Atomic.Follows (apply value) (Stands value) (returnsOf σ (mythreadJoin σ c t wants pc)) (object value σ)
      (mythreadJoin σ c t wants pc) := by
  have knows := informed.clients c
  have status : statusOf value (σ.client c) = statusOf value (.join t wants pc) := by rw [here]
  have decided : ∀ {stored}, statusOf value (σ.client c) = .decided (.ok (if wants then some (value t) else none)) →
      σ.finished t = true → stored = stores σ t wants → statusOf value (σ.client c) = .decided (.ok stored) := by
    intro stored is done isStored
    rw [is,isStored,decided_of_stores informed agrees done wants]
  rw [here] at knows
  cases pc with
  | loadState => exact follows_joinLoop status
  | compareExchange s =>
    simp only [mythreadJoin]
    split
    · rename_i same
      have owner : owners σ t = .nobody := by
        rw [owners,same,ownerOf,knows.1,knows.2]
        rfl
      have takes : ownerOf { s with joined := true } = .joiner := by
        rw [ownerOf,knows.1]
        rfl
      have applied : apply value (.join t wants) (owners σ) =
          (owners (σ.setFlags t { s with joined := true }),.ok (if wants then some (value t) else none)) := by
        rw [owners_setFlags,takes]
        simp only [apply,owner]
      obtain ⟨now,others⟩ := clientAt_client (σ.setFlags t { s with joined := true }) c (.join t wants .loadFinished)
      exact follows_point status applied (by rw [now]; rfl) others rfl
    · exact follows_joinLoop status
  | loadFinished =>
    simp only [mythreadJoin]
    split
    · split <;> exact follows_goes rfl rfl status.symm rfl
    · exact follows_goes rfl rfl status.symm rfl
  | futexWait =>
    simp only [mythreadJoin]
    split <;> exact follows_goes rfl rfl status.symm rfl
  | asleep =>
    simp only [mythreadJoin,State.wake,here]
    exact follows_goes rfl rfl status.symm rfl
  | loadRetval => exact follows_goes rfl rfl status.symm rfl
  | orReaped stored =>
    have owned : owners (σ.setFlags t { σ.flags t with reaped := true }) = owners σ := by
      rw [owners_setFlags]
      exact Function.update_eq_self t (owners σ)
    simp only [mythreadJoin]
    split
    · obtain ⟨top,others⟩ :=
        leave_client (σ.setFlags t { σ.flags t with reaped := true }) c (.join t wants) (.ok stored)
      exact follows_return (decided status knows.2.1 knows.2.2) owned others top rfl
    · exact follows_goes owned rfl status.symm rfl
  | destroyStack stored => exact follows_goes rfl rfl status.symm rfl
  | free stored =>
    obtain ⟨top,others⟩ := leave_client (σ.free t (.joiner c)) c (.join t wants) (.ok stored)
    exact follows_return (decided status knows.2.1 knows.2.2.1) rfl others top rfl

/-! ### Detaches -/

theorem follows_detachLoop (called : statusOf value (σ.client c) = .called (.detach t)) :
    Atomic.Follows (apply value) (Stands value) (returnsOf σ (detachLoop σ c t (σ.flags t))) (object value σ)
      (detachLoop σ c t (σ.flags t)) := by
  unfold detachLoop
  split
  · rename_i detached
    have owner : owners σ t = .reaper := if_pos detached
    obtain ⟨top,others⟩ := leave_client σ c (.detach t) (.ok none)
    exact follows_refusal called (by simp [apply,owner]) rfl others top rfl
  · rename_i undetached
    split
    · rename_i joined
      have owner : owners σ t = .joiner := by rw [owners,ownerOf,if_neg undetached,if_pos joined]
      obtain ⟨top,others⟩ := leave_client σ c (.detach t) .einval
      exact follows_refusal called (by simp [apply,owner]) rfl others top rfl
    · exact follows_goes rfl rfl called.symm rfl

theorem follows_detach {env : Env} {pc : DetachPc} (informed : Informed σ) (here : σ.client c = .detach t pc)
    (done : mythreadDetach σ c t env pc = some σ') :
    Atomic.Follows (apply value) (Stands value) (returnsOf σ σ') (object value σ) σ' := by
  have knows := informed.clients c
  have status : statusOf value (σ.client c) = statusOf value (.detach t pc) := by rw [here]
  rw [here] at knows
  obtain ⟨top,others⟩ := leave_client σ c (.detach t) (.ok none)
  cases pc with
  | loadState => cases done; exact follows_detachLoop status
  | compareExchange s =>
    simp only [mythreadDetach] at done
    split at done <;> cases done
    · rename_i same
      have owner : owners σ t = .nobody := by
        rw [owners,same.1,ownerOf,knows.1,knows.2]
        rfl
      have applied : apply value (.detach t) (owners σ) =
          (owners (σ.setFlags t { s with detached := true }),.ok none) := by
        rw [owners_setFlags]
        simp only [apply,owner]
        rfl
      obtain ⟨now,others⟩ := clientAt_client (σ.setFlags t { s with detached := true }) c (.detach t .loadFinished)
      exact follows_point status applied (by rw [now]; rfl) others rfl
    · exact follows_detachLoop status
  | loadFinished =>
    simp only [mythreadDetach] at done
    split at done <;> cases done
    · exact follows_goes rfl rfl status.symm rfl
    · exact follows_return status rfl others top rfl
  | orQueued =>
    have owned : owners (σ.setFlags t { σ.flags t with queued := true }) = owners σ := by
      rw [owners_setFlags]
      exact Function.update_eq_self t (owners σ)
    simp only [mythreadDetach] at done
    split at done <;> cases done
    · exact follows_return status owned others top rfl
    · exact follows_goes owned rfl status.symm rfl
  | startReaper => cases done; exact follows_goes rfl rfl status.symm rfl
  | callEnqueue => cases done; exact follows_goes rfl rfl status.symm rfl
  | enqueueing =>
    obtain ⟨queue,_,rfl⟩ := Option.map_eq_some_iff.mp done
    split
    · exact follows_return status rfl others top rfl
    · exact follows_quiet rfl (fun _ => rfl) rfl

/-! ### Runs -/

theorem status_of_woken (woken : σ'.client c = σ.client c ∨
    ∃ u wants, σ.client c = .join u wants .asleep ∧ σ'.client c = .join u wants .loadFinished) :
    statusOf value (σ'.client c) = statusOf value (σ.client c) := by
  rcases woken with same | ⟨u,wants,asleep,awake⟩
  · rw [same]
  · rw [asleep,awake]
    rfl

/-- The program before a step and the object go on together. -/
theorem follows_step (σ : State) (o : Atomic.Object Nat (Nat → Owner) Call Result) (a : Act) (σ' : State)
    (informed : Informed σ) (agrees : Agrees value σ) (stands : Stands value σ o) (done : step σ a = some σ') :
    Atomic.Follows (apply value) (Stands value) (events σ a σ') o σ' := by
  cases stands
  cases step_cases done with
  | finish t retval running => exact follows_quiet rfl (fun _ => rfl) rfl
  | startup done =>
    have effect := threadStartup_effect done
    exact follows_quiet (owners_of_flags effect.detached effect.joined) (fun c => status_of_woken (effect.clients c))
      effect.returns
  | call c call top =>
    have isTop : (object value σ).status c = .top := by
      show statusOf value (σ.client c) = _
      rw [top]
      rfl
    refine ⟨[.call c call],_,Atomic.run_call isTop,rfl,?_⟩
    obtain ⟨now,others⟩ := clientAt_client σ c (entry call)
    show _ = object value (σ.clientAt c (entry call))
    rw [object_eq others,now]
    cases call <;> rfl
  | join env here => exact follows_join informed agrees here
  | detach here done => exact follows_detach informed here done
  | reaper done =>
    have effect := reaperMain_effect done
    exact follows_quiet (owners_of_flags effect.detached effect.joined) (fun c => by rw [effect.client]) effect.returns

theorem mythreadJoin_returned {wants : Bool} {pc : JoinPc} : (mythreadJoin σ c t wants pc).returned = σ.returned := by
  have loop : ∀ s, (joinLoop σ c t wants s).returned = σ.returned := by
    intro s
    unfold joinLoop
    split
    · rfl
    · split <;> rfl
  cases pc with
  | loadState => exact loop _
  | compareExchange s =>
    simp only [mythreadJoin]
    split
    · rfl
    · exact loop _
  | asleep => exact (wake_frame σ c).2.2.1
  | _ =>
    simp only [mythreadJoin]
    try split
    all_goals try split
    all_goals rfl

theorem mythreadDetach_returned {env : Env} {pc : DetachPc} (done : mythreadDetach σ c t env pc = some σ') :
    σ'.returned = σ.returned := by
  have loop : ∀ s, (detachLoop σ c t s).returned = σ.returned := by
    intro s
    unfold detachLoop
    split
    · rfl
    · split <;> rfl
  cases pc with
  | loadState => cases done; exact loop _
  | compareExchange s =>
    simp only [mythreadDetach] at done
    split at done <;> cases done
    · rfl
    · exact loop _
  | enqueueing =>
    obtain ⟨queue,_,rfl⟩ := Option.map_eq_some_iff.mp done
    split <;> rfl
  | _ =>
    simp only [mythreadDetach] at done
    try split at done
    all_goals cases done
    all_goals rfl

theorem threadStartup_returned {choice : Choice} (done : threadStartup σ t choice = some σ') :
    σ'.returned = σ.returned := by
  cases here : σ.startup t with
  | running => simp [threadStartup,here] at done
  | exited => simp [threadStartup,here] at done
  | futexWake =>
    simp only [threadStartup,here] at done
    cases done
    rcases futexWake_cases σ t choice.pick with same | ⟨c,woken⟩
    · rw [same]
      rfl
    · rw [woken]
      exact (wake_frame σ c).2.2.1
  | enqueueing =>
    simp only [threadStartup,here] at done
    obtain ⟨queue,_,rfl⟩ := Option.map_eq_some_iff.mp done
    split <;> rfl
  | _ =>
    simp only [threadStartup,here] at done
    try split at done
    all_goals cases done
    all_goals rfl

theorem reaperMain_returned {env : Env} (done : MyThread.reaperMain σ env = some σ') : σ'.returned = σ.returned := by
  have reaps : ∀ {τ : State}, reapStep τ env = some σ' → τ.returned = σ.returned → σ'.returned = σ.returned := by
    intro τ reaped same
    obtain ⟨queue,_,rfl⟩ := Option.map_eq_some_iff.mp reaped
    exact same
  simp only [MyThread.reaperMain] at done
  split at done
  · split at done
    · split at done
      · exact reaps done rfl
      · cases done
        rfl
    · cases done
      rfl
    · exact reaps done rfl
  · exact reaps done rfl

/-- A start routine returns once. -/
theorem returned_step {a : Act} (informed : Informed σ) (done : step σ a = some σ') {v : Nat}
    (returned : σ.returned t = some v) : σ'.returned t = some v := by
  cases step_cases done with
  | finish u retval running =>
    have other : t ≠ u := by
      rintro rfl
      have knows := informed.startups t
      rw [running] at knows
      cases knows.2.symm.trans returned
    exact (Function.update_of_ne other _ _).trans returned
  | startup done => rw [threadStartup_returned done,returned]
  | call c call top => exact returned
  | join env here => rw [mythreadJoin_returned,returned]
  | detach here done => rw [mythreadDetach_returned done,returned]
  | reaper done => rw [reaperMain_returned done,returned]

/-- What the history of a run tells about the object. -/
structure Linearizable (acts : List Act) (σ : State) (value : Nat → Nat) : Prop where
  linearizes : Atomic.Linearizes (apply value) (fun _ => .nobody) (Atomic.history step events start acts)
    (object value σ)
  values : ∀ t v, σ.returned t = some v → v = value t
  -- a join that returns 0 has waited for the start routine
  waits : ∀ r ∈ σ.returns, ∀ t wants stored, r.call = .join t wants → r.result = .ok stored →
    σ.returned t = some (value t)

/-- Every run of the threads, at any time, is a history of the atomic object, which
    is told by the words of state, and by the values that the start routines return. -/
theorem calls_linearizable {acts : List Act} (ran : Transition.run step start acts = some σ) :
    ∃ value, Linearizable acts σ value := by
  have agrees : Agrees (fun t => (σ.returned t).getD 0) σ := by
    intro t v returned
    simp [returned]
  refine ⟨fun t => (σ.returned t).getD 0,?_,agrees,fun r member t wants stored isJoin isOk => ?_⟩
  · obtain ⟨o,linearizes,stands⟩ := Atomic.linearizes_until (fun _ _ _ informed => informed_step informed)
      (fun s a s' informed done later t v returned => later t v (returned_step informed done returned)) follows_step ran
      (rfl : Stands _ start _) start_informed agrees
    cases stands
    exact linearizes
  · obtain ⟨c,call,result⟩ := r
    cases isJoin
    cases isOk
    obtain ⟨_,finished,_⟩ := (run_owned ran).informed.returns _ member
    have returned := returned_of_finished (run_owned ran).informed finished
    rw [returned]
    rfl

example : Atomic.history step events start raceSchedule =
    [.call 1 (.join 0 true),.call 2 (.detach 0),.ret 2 .einval,.ret 1 (.ok (some 7))] := by decide

/-- The join wins its race with the detach. -/
theorem calls_linearizable_race : ∃ value, Linearizable raceSchedule (after raceSchedule) value :=
  calls_linearizable (rfl : Transition.run step start raceSchedule = _)

end Os5Sem.ThreadLinear

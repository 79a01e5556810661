import Os5Sem.ProxyIsolation

/-!
The work of a connection. Whatever its calls return, a thread of the proxy takes a fixed
number of steps at most, and two for each byte that its server has sent, and some result
of its call lets it go on until it has returned, with both descriptors closed
(`thread_ends`).
-/
namespace Os5Sem.ProxyWork
open Os5Sem.CMemory Os5Sem.Handler
open Os5Sem.Connections (Socket HandlerPc)
open Os5Sem.Descriptors (Held handlerClient handlerRemote)
open Os5Sem.Proxy Os5Sem.ProxyIsolation

variable {σ σ' σ1 : State} {k : Nat} {result : Int}

/-! ### What a call leaves to be read -/

/-- Nothing arrives, and no more is left to be read. -/
structure Fewer (σ σ' : State) : Prop where
  arrived : σ'.arrived = σ.arrived
  incoming : ∀ s, (σ'.incoming s).length ≤ (σ.incoming s).length

theorem operates_fewer (operates : Operates σ σ') : Fewer σ σ' := by
  cases operates with
  | nothing => exact ⟨rfl,fun s => le_rfl⟩
  | receives received =>
    rw [State.receive] at received
    split at received
    · cases received
    · rename_i own _
      split at received <;> cases received
      refine ⟨rfl,fun s => ?_⟩
      by_cases isOwn : s = own <;> simp [isOwn]
  | transmits transmitted =>
    rw [State.transmit] at transmitted
    split at transmitted <;> cases transmitted
    exact ⟨rfl,fun s => le_rfl⟩
  | connects connected =>
    rw [State.connect] at connected
    split at connected <;> cases connected
    exact ⟨rfl,fun s => le_rfl⟩

theorem call_fewer {pc : HandlerPc} (called : call σ k result pc = some σ1) : Fewer σ σ1 := by
  obtain ⟨σ2,m,e,operates,_,rfl⟩ := call_cases called
  have fewer := operates_fewer operates
  exact ⟨fewer.arrived,fewer.incoming⟩

/-- What `read` has taken of the answer. -/
theorem readRemote_takes {fd fd' : Nat} (called : call σ k result (.readRemote fd fd') = some σ1)
    (own : σ.socketOf fd' = some (.remote k)) (positive : 0 < result) :
    result.toNat ≤ buffSize ∧
      (σ1.incoming (.remote k)).length + result.toNat = (σ.incoming (.remote k)).length := by
  simp only [call,if_neg (not_le.mpr positive)] at called
  obtain ⟨⟨σ2,data⟩,received,called⟩ := Option.bind_eq_some_iff.mp called
  obtain ⟨most,size,taken,_⟩ := receive_some own received
  cases called
  refine ⟨most,?_⟩
  rw [State.record_incoming,State.store_incoming,taken,List.length_append,size]
  exact Nat.add_comm ..

/-! ### Work -/

/-- How far a thread is from its end when its server sends nothing more. Before it has
    read the request, this may turn out to fill the buffer. -/
def pcWork : HandlerPc → Nat
  | .absent | .loadArg _ => buffSize+13
  | .freeArg _ _ => buffSize+12
  | .read _ => buffSize+11
  | .parseRequestLine _ readed => readed+11
  | .parseHeaders _ readed => readed+10
  | .resolveHost _ readed => readed+9
  | .socket _ readed => readed+8
  | .setRcvTimeo _ readed _ => readed+7
  | .setSndTimeo _ readed _ => readed+6
  | .connect _ readed _ => readed+5
  | .writeRemote _ _ total_read sent => total_read-sent+4
  | .readRemote _ _ => 4
  | .writeClient _ _ remote_read client_sent => remote_read-client_sent+4
  | .closeClient _ (some _) => 3
  | .closeClient _ none | .closeRemote _ => 2
  | .exit => 1
  | .exited => 0

/-- A byte of the answer may take a `read` and a `write` of its own. -/
def work (k : Nat) (σ : State) : Nat := pcWork (σ.conns.handler k) + 2*(σ.incoming (.remote k)).length

/-- Every step of a thread leaves less to do. -/
theorem handler_descends (held : Held σ.conns) (taken : step σ (.handler k result) = some σ') :
    work k σ' < work k σ := by
  obtain ⟨σ1,conns,called,goes,rfl⟩ := handler_cases taken
  have positive : 0 < buffSize := by decide
  have fewer := (call_fewer called).incoming (.remote k)
  have less : ∀ {pc}, conns.handler k = pc → pcWork pc < pcWork (σ.conns.handler k) →
      work k { σ1 with conns } < work k σ := by
    intro pc now lower
    simp only [work,now]
    omega
  cases here : σ.conns.handler k with
  | absent => simp [Connections.handleClient,here] at goes
  | exited => simp [Connections.handleClient,here] at goes
  | socket fd readed =>
    simp only [Connections.handleClient,here] at goes
    split at goes
    · cases goes
      exact less (handlerAt_self ..) (by simp only [pcWork,here]; omega)
    · obtain ⟨c,_,rfl⟩ := Option.map_eq_some_iff.mp goes
      exact less (handlerAt_self ..) (by simp only [pcWork,here]; omega)
  | writeRemote fd fd' total sent =>
    rw [here] at called
    simp only [Connections.handleClient,here] at goes
    simp only [call] at called
    split at goes
    · cases goes
      exact less (handlerAt_self ..) (by simp only [pcWork,here]; omega)
    · rename_i wrote
      rw [if_neg wrote] at called
      obtain ⟨fits,_⟩ := Option.ite_none_right_eq_some.mp called
      split at goes <;> cases goes <;> exact less (handlerAt_self ..) (by simp only [pcWork,here]; omega)
  | readRemote fd fd' =>
    rw [here] at called
    simp only [Connections.handleClient,here] at goes
    split at goes
    · cases goes
      exact less (handlerAt_self ..) (by simp only [pcWork,here]; omega)
    · rename_i positive
      have own : σ.socketOf fd' = some (.remote k) := own_remote held (by rw [here]; rfl)
      obtain ⟨most,takes⟩ := readRemote_takes called own (not_le.mp positive)
      cases goes
      simp only [work,here,handlerAt_self,pcWork]
      omega
  | writeClient fd fd' size sent =>
    rw [here] at called
    simp only [Connections.handleClient,here] at goes
    simp only [call] at called
    split at goes
    · cases goes
      exact less (handlerAt_self ..) (by simp only [pcWork,here]; omega)
    · rename_i wrote
      rw [if_neg wrote] at called
      obtain ⟨fits,_⟩ := Option.ite_none_right_eq_some.mp called
      split at goes <;> cases goes <;> exact less (handlerAt_self ..) (by simp only [pcWork,here]; omega)
  | closeClient fd remote =>
    simp only [Connections.handleClient,here] at goes
    cases remote <;> cases goes <;> exact less (handlerAt_self ..) (by simp only [pcWork,here]; omega)
  | _ =>
    simp only [Connections.handleClient,here] at goes
    try split at goes
    all_goals cases goes
    all_goals exact less (handlerAt_self ..) (by simp only [pcWork,here]; omega)

/-- A step of the thread. -/
def handles (k : Nat) : Act → Bool
  | .handler j _ => j == k
  | _ => false

/-- Only what arrives adds to the work of a thread. -/
theorem work_step {a : Act} (held : Held σ.conns) (taken : step σ a = some σ') (k : Nat) :
    work k σ' + (if handles k a then 1 else 0) + 2*(σ.arrived (.remote k)).length ≤
      work k σ + 2*(σ'.arrived (.remote k)).length := by
  cases a with
  | main result =>
    obtain ⟨conns,goes,rfl⟩ := Option.map_eq_some_iff.mp taken
    have same : pcWork (conns.handler k) = pcWork (σ.conns.handler k) := by
      rcases acceptLoop_handlers held goes k with still | ⟨absent,arg,starts⟩
      · rw [still]
      · rw [absent,starts]
        rfl
    simp only [work,handles,same,Bool.false_eq_true,if_false]
    omega
  | handler j result =>
    obtain ⟨σ1,conns,called,goes,rfl⟩ := handler_cases taken
    have fewer := call_fewer called
    by_cases isK : j = k
    · subst isK
      have less := handler_descends held taken
      have same : (σ1.arrived (.remote j)).length = (σ.arrived (.remote j)).length := by rw [fewer.arrived]
      simp only [handles,beq_self_eq_true,if_true]
      omega
    · have other : handles k (.handler j result) = false := beq_false_of_ne isK
      have unread := fewer.incoming (.remote k)
      simp only [work,other,fewer.arrived,handleClient_others goes fun isJ => isK isJ.symm,Bool.false_eq_true,if_false]
      omega
  | arrive s bytes =>
    cases taken
    by_cases isS : s = .remote k
    · subst isS
      simp only [work,handles,Function.update_self,List.length_append,Bool.false_eq_true,if_false]
      omega
    · have other : Socket.remote k ≠ s := fun same => isS same.symm
      simp only [work,handles,Function.update_of_ne other,Bool.false_eq_true,if_false]
      omega

theorem steps_paid {dns : Nat → List Byte → Option Nat} {stack : Nat → List Byte} {acts : List Act}
    (ran : Transition.run step (start dns stack) acts = some σ) (k : Nat) :
    acts.countP (handles k) ≤ buffSize+13 + 2*(σ.arrived (.remote k)).length := by
  have paid : ∀ {τ : State} {acts : List Act}, Held τ.conns → Transition.run step τ acts = some σ →
      acts.countP (handles k) + work k σ + 2*(τ.arrived (.remote k)).length ≤
        work k τ + 2*(σ.arrived (.remote k)).length := by
    intro τ acts held ran
    induction acts generalizing τ with
    | nil =>
      cases ran
      simp
    | cons a rest ih =>
      obtain ⟨next,taken,ran⟩ := Transition.run_cons.mp ran
      have held' : Held next.conns :=
        Transition.run_invariant (fun _ _ _ inv taken => Descriptors.step_held inv taken) (step_conns taken) held
      have first := work_step held taken k
      have later := ih held' ran
      rw [List.countP_cons]
      omega
  have whole := paid Descriptors.start_held ran
  have fresh : work k (start dns stack) = buffSize+13 := rfl
  have none : ((start dns stack).arrived (.remote k)).length = 0 := rfl
  omega

/-! ### The next step -/

/-- The next step of the thread would write outside of an array. -/
def Outside (k : Nat) (σ : State) : Prop :=
  match σ.conns.handler k with
  | .parseRequestLine _ _ => parseRequestLine (σ.memory k).buffer = none
  | .parseHeaders _ _ => parseHeaders (σ.memory k).buffer (σ.memory k).host = none
  | .resolveHost _ _ => resolveHost (σ.calls k).getaddrinfo (σ.memory k).host = none
  | _ => False

/-- Every call can return, and the thread goes on. -/
theorem goes_on (there : σ.conns.handler k ≠ .absent) (unended : σ.conns.handler k ≠ .exited)
    (inside : ¬ Outside k σ) : ∃ result σ', step σ (.handler k result) = some σ' := by
  cases here : σ.conns.handler k with
  | absent => exact absurd here there
  | exited => exact absurd here unended
  | parseRequestLine fd readed =>
    simp only [Outside,here] at inside
    obtain ⟨⟨parsed,buffer⟩,is⟩ := Option.ne_none_iff_exists'.mp inside
    refine ⟨status parsed,Option.isSome_iff_exists.mp ?_⟩
    cases parsed <;> simp [step,call,here,is,status,Connections.handleClient]
  | parseHeaders fd readed =>
    simp only [Outside,here] at inside
    obtain ⟨⟨parsed,buffer⟩,is⟩ := Option.ne_none_iff_exists'.mp inside
    refine ⟨status parsed,Option.isSome_iff_exists.mp ?_⟩
    cases parsed <;> simp [step,call,here,is,status,Connections.handleClient]
  | resolveHost fd readed =>
    simp only [Outside,here] at inside
    obtain ⟨server,is⟩ := Option.ne_none_iff_exists'.mp inside
    refine ⟨if server.isSome then 0 else 1,Option.isSome_iff_exists.mp ?_⟩
    cases server <;> simp [step,call,here,is,Connections.handleClient]
  | closeClient fd remote =>
    refine ⟨0,Option.isSome_iff_exists.mp ?_⟩
    cases remote <;> simp [step,call,here,Connections.handleClient]
  | _ => exact ⟨-1,Option.isSome_iff_exists.mp (by simp [step,call,here,Connections.handleClient])⟩

/-- How a thread of the proxy ends. -/
structure Ends (k : Nat) (acts : List Act) (σ : State) : Prop where
  steps : acts.countP (handles k) ≤ buffSize+13 + 2*(σ.arrived (.remote k)).length
  goes : σ.conns.handler k = .absent ∨ σ.conns.handler k = .exited ∨ Outside k σ ∨
    ∃ result σ', step σ (.handler k result) = some σ'
  closed : σ.conns.handler k = .exited → ∀ fd, σ.socketOf fd ≠ some (.client k) ∧ σ.socketOf fd ≠ some (.remote k)

/-- In every run, whatever the calls return and whoever else runs, a thread takes no
    more steps than its request and its answer need, it can go on until it has returned,
    and then its sockets are closed. -/
theorem thread_ends {dns : Nat → List Byte → Option Nat} {stack : Nat → List Byte} {acts : List Act}
    (ran : Transition.run step (start dns stack) acts = some σ) (k : Nat) : Ends k acts σ where
  steps := steps_paid ran k
  goes := by
    by_cases there : σ.conns.handler k = .absent
    · exact .inl there
    by_cases ended : σ.conns.handler k = .exited
    · exact .inr (.inl ended)
    by_cases outside : Outside k σ
    · exact .inr (.inr (.inl outside))
    · exact .inr (.inr (.inr (goes_on there ended outside)))
  closed ended fd := by
    have held := (run_isolated ran).held
    have there : σ.conns.handler k ≠ .absent := by simp [ended]
    constructor
    · intro own
      have is := (held.descriptors.owner fd (.client k)).mp own
      rw [held.client_of_handler there,ended] at is
      cases is
    · intro own
      have is := (held.descriptors.owner fd (.remote k)).mp own
      rw [Descriptors.held,ended] at is
      cases is

theorem thread_ends_exchange : Ends 0 exchange (after exchange) := thread_ends exchange_runs.1 0

end Os5Sem.ProxyWork

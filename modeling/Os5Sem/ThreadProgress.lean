import Mathlib.Algebra.Order.BigOperators.Group.Finset
import Os5Sem.ReapProgress
import Os5Sem.ThreadReady
import Os5Sem.ThreadWake

/-!
The way of the threads to rest. Whatever has happened, when no new calls are made, the
start routines that are waited for return, and there is memory for the nodes, the
calls and the threads can come to an end, and the reaper, if there is one, with all
that is in the queue: as long as there is something to do, some step leaves less of
it (`descends`).
-/
namespace Os5Sem.ThreadProgress
open Os5Sem.MyThread Os5Sem.ThreadSteps Os5Sem.ThreadFacts Os5Sem.ThreadQueue Os5Sem.ThreadOwnership
open Os5Sem.ThreadHandOver Os5Sem.ThreadWake Os5Sem.ThreadReclaim Os5Sem.ThreadReady Os5Sem.ReapProgress
open Os5Sem.ReapQueue (Env)
open Os5Sem.ReapInvariant (visiting Locks ReaperLocks)
open Os5Sem.ReapRest (Whole)
open Os5Sem.ThreadCalls (callOf)
open Os5Sem.Transition (Along)

variable {σ σ' : State} {c t : Nat}

/-! ### Who takes part -/

/-- Outside of the clients no call is in progress, and outside of the threads none has
    returned from its start routine or is the target of a call. -/
structure Within (clients threads : Finset Nat) (σ : State) : Prop where
  idle : ∀ c, c ∉ clients → σ.client c = .idle
  running : ∀ t, t ∉ threads → σ.startup t = .running
  targets : ∀ c call, callOf (σ.client c) = some call → call.thread ∈ threads

variable {clients threads : Finset Nat}

theorem Within.mono (within : Within clients threads σ) {clients' threads' : Finset Nat} (more : clients ⊆ clients')
    (more' : threads ⊆ threads') : Within clients' threads' σ where
  idle c out := within.idle c fun member => out (more member)
  running t out := within.running t fun member => out (more' member)
  targets c call inside := more' (within.targets c call inside)

/-- A step of a client inside a call. -/
theorem Within.client (within : Within clients threads σ) (goes : ClientStep σ σ' c) (active : σ.client c ≠ .idle)
    (same : σ'.client c = .idle ∨ ∃ call, callOf (σ.client c) = some call ∧
      ∀ call', callOf (σ'.client c) = some call' → call'.thread = call.thread) : Within clients threads σ' where
  idle d out := by
    have other : d ≠ c := by
      rintro rfl
      exact active (within.idle d out)
    rw [goes.clients d other]
    exact within.idle d out
  running t out := by
    rw [goes.startup]
    exact within.running t out
  targets d call' inside := by
    by_cases isC : d = c
    · subst isC
      rcases same with idle | ⟨call,was,thread⟩
      · rw [idle] at inside
        cases inside
      · rw [thread call' inside]
        exact within.targets d call was
    · rw [goes.clients d isC] at inside
      exact within.targets d call' inside

theorem within_startup (within : Within clients threads σ) {choice : Choice}
    (done : threadStartup σ t choice = some σ') : Within clients threads σ' := by
  have goes := startup_step done
  constructor
  case idle =>
    intro c out
    rcases goes.clients c with same | ⟨u,wants,asleep,_⟩
    · rw [same]
      exact within.idle c out
    · rw [within.idle c out] at asleep
      cases asleep
  case running =>
    intro u out
    have other : u ≠ t := by
      rintro rfl
      simp [threadStartup,within.running u out] at done
    rw [goes.startup u other]
    exact within.running u out
  case targets =>
    intro c call inside
    rcases goes.clients c with same | ⟨u,wants,asleep,awake⟩
    · exact within.targets c call (same ▸ inside)
    · rw [awake] at inside
      cases inside
      exact within.targets c _ (by rw [asleep]; rfl)

/-- The clients that a step adds, and the threads. -/
def callers : Act → Finset Nat
  | .call c _ => {c}
  | _ => ∅

def targets : Act → Finset Nat
  | .call _ call => {call.thread}
  | .finish t _ => {t}
  | _ => ∅

theorem within_step {a : Act} (within : Within clients threads σ) (done : step σ a = some σ') :
    Within (callers a ∪ clients) (targets a ∪ threads) σ' := by
  cases step_cases done with
  | finish t retval running =>
    refine ⟨fun c out => within.idle c fun member => out (Finset.mem_union_right _ member),fun u out => ?_,
      fun c call inside => Finset.mem_union_right _ (within.targets c call inside)⟩
    simp only [targets,Finset.mem_union,Finset.mem_singleton,not_or] at out
    simpa [State.startupAt,out.1] using within.running u out.2
  | startup done => exact (within_startup within done).mono Finset.subset_union_right Finset.subset_union_right
  | call c call top =>
    constructor
    case idle =>
      intro d out
      simp only [callers,Finset.mem_union,Finset.mem_singleton,not_or] at out
      simpa [State.clientAt,out.1] using within.idle d out.2
    case running => exact fun t out => within.running t fun member => out (Finset.mem_union_right _ member)
    case targets =>
      intro d call' inside
      by_cases isC : d = c
      · subst isC
        have same : call'.thread = call.thread := by
          cases call <;> simp [State.clientAt,entry,callOf] at inside <;> subst inside <;> rfl
        simp [targets,same]
      · refine Finset.mem_union_right _ (within.targets d call' ?_)
        simpa [State.clientAt,isC] using inside
  | @join c t wants pc env here =>
    refine (within.client (join_step here) (by simp [here]) ?_).mono Finset.subset_union_right
      Finset.subset_union_right
    refine (mythreadJoin_effect here).own.imp_right ?_
    rintro ⟨pc',now⟩
    refine ⟨.join t wants,by rw [here]; rfl,fun call' is => ?_⟩
    rw [now] at is
    cases is
    rfl
  | @detach c t pc env _ here done =>
    refine (within.client (detach_step here done) (by simp [here]) ?_).mono Finset.subset_union_right
      Finset.subset_union_right
    refine (mythreadDetach_effect here done).own.imp_right ?_
    rintro ⟨pc',now⟩
    refine ⟨.detach t,by rw [here]; rfl,fun call' is => ?_⟩
    rw [now] at is
    cases is
    rfl
  | reaper done =>
    have effect := reaperMain_effect done
    have same : Within clients threads σ' :=
      ⟨by rw [effect.client]; exact within.idle,by rw [effect.startup]; exact within.running,
        by rw [effect.client]; exact within.targets⟩
    exact same.mono Finset.subset_union_right Finset.subset_union_right

/-- The callers of `reap_enqueue` are among the clients and the threads. -/
theorem Within.enqueuers (within : Within clients threads σ) (handed : Handed σ) (p : Caller)
    (out : p ∉ clients.image .client ∪ threads.image .thread) : σ.queue.enqueuer p = .idle := by
  simp only [Finset.mem_union,Finset.mem_image,not_or,not_exists,not_and] at out
  cases p with
  | client c =>
    have idle := within.idle c fun member => out.1 c member rfl
    exact handed.clients c fun t => by simp [idle]
  | thread t =>
    have running := within.running t fun member => out.2 t member rfl
    exact handed.threads t (by simp [running])

/-! ### Work -/

/-- How far a client is from the end of its call. A call of `reap_enqueue` is counted
    apart. -/
def pcWork : ClientPc → Nat
  | .idle => 0
  | .join _ _ pc =>
    match pc with
    | .loadState => 9
    | .compareExchange _ => 8
    | .asleep => 7
    | .futexWait => 6
    | .loadFinished => 5
    | .loadRetval => 4
    | .orReaped _ => 3
    | .destroyStack _ => 2
    | .free _ => 1
  | .detach _ pc =>
    match pc with
    | .loadState => 157
    | .compareExchange _ => 156
    | .loadFinished => 155
    | .orQueued => 154
    | .startReaper => 153
    | .callEnqueue => 152
    | .enqueueing => 1

def startupWork : StartupPc → Nat
  | .running => 160
  | .storeRetval _ => 159
  | .storeFinished => 158
  | .futexWake => 157
  | .loadState => 156
  | .orQueued => 155
  | .startReaper => 154
  | .callEnqueue => 153
  | .enqueueing => 2
  | .exit => 1
  | .exited => 0

def visitWork : VisitPc → Nat
  | .orReaped => 2
  | .munmap => 1
  | .free => 0

def clientWork (σ : State) (c : Nat) : Nat := pcWork (σ.client c) + 3*callWork (σ.queue.enqueuer (.client c))

def threadWork (σ : State) (t : Nat) : Nat := startupWork (σ.startup t) + 3*callWork (σ.queue.enqueuer (.thread t))

/-- What there is to do for all parties. -/
def budget (clients threads : Finset Nat) (σ : State) (queue batch : List Nat) : Nat :=
  ∑ c ∈ clients, clientWork σ c + ∑ t ∈ threads, threadWork σ t + 3*reaperWork queue batch σ.queue.reaper +
    visitWork σ.visit

variable {queue batch queue' batch' : List Nat}

theorem sum_others {parties : Finset Nat} {f f' : Nat → Nat} {p : Nat} (member : p ∈ parties)
    (others : ∀ q, q ≠ p → f' q = f q) : ∑ q ∈ parties, f' q + f p = ∑ q ∈ parties, f q + f' p := by
  have rest : ∑ q ∈ parties.erase p, f' q = ∑ q ∈ parties.erase p, f q :=
    Finset.sum_congr rfl fun q inside => others q (Finset.ne_of_mem_erase inside)
  have before := Finset.add_sum_erase parties f member
  have after := Finset.add_sum_erase parties f' member
  omega

theorem budget_client (goes : ClientStep σ σ' c) (member : c ∈ clients)
    (less : clientWork σ' c + 3*reaperWork queue' batch' σ'.queue.reaper <
      clientWork σ c + 3*reaperWork queue batch σ.queue.reaper) :
    budget clients threads σ' queue' batch' < budget clients threads σ queue batch := by
  have own := @sum_others clients (clientWork σ) (clientWork σ') c member fun d other => by
    rw [clientWork,clientWork,goes.clients d other,goes.enqueuers (.client d) (by simpa using other)]
  have others : ∑ t ∈ threads, threadWork σ' t = ∑ t ∈ threads, threadWork σ t :=
    Finset.sum_congr rfl fun t _ => by rw [threadWork,threadWork,goes.startup,goes.enqueuers (.thread t) (by simp)]
  rw [budget,budget,others,goes.visit]
  omega

theorem budget_thread (goes : ThreadStep σ σ' t) (member : t ∈ threads)
    (less : threadWork σ' t + 3*reaperWork queue' batch' σ'.queue.reaper <
      threadWork σ t + 3*reaperWork queue batch σ.queue.reaper) :
    budget clients threads σ' queue' batch' < budget clients threads σ queue batch := by
  have own := @sum_others threads (threadWork σ) (threadWork σ') t member fun u other => by
    rw [threadWork,threadWork,goes.startup u other,goes.enqueuers (.thread u) (by simpa using other)]
  have others : ∑ c ∈ clients, clientWork σ' c ≤ ∑ c ∈ clients, clientWork σ c := by
    refine Finset.sum_le_sum fun c _ => ?_
    rw [clientWork,clientWork,goes.enqueuers (.client c) (by simp)]
    rcases goes.clients c with same | ⟨u,wants,asleep,awake⟩
    · rw [same]
    · rw [asleep,awake]
      simp [pcWork]
  rw [budget,budget,goes.visit]
  omega

theorem budget_reaper (client : σ'.client = σ.client) (startup : σ'.startup = σ.startup)
    (enqueuers : σ'.queue.enqueuer = σ.queue.enqueuer)
    (less : 3*reaperWork queue' batch' σ'.queue.reaper + visitWork σ'.visit <
      3*reaperWork queue batch σ.queue.reaper + visitWork σ.visit) :
    budget clients threads σ' queue' batch' < budget clients threads σ queue batch := by
  have own : clientWork σ' = clientWork σ := by
    funext c
    rw [clientWork,clientWork,client,enqueuers]
  have others : threadWork σ' = threadWork σ := by
    funext t
    rw [threadWork,threadWork,startup,enqueuers]
  rw [budget,budget,own,others]
  omega

/-! ### Steps to rest -/

/-- No new call is made, only start routines that are waited for return, there is
    memory, no compare-exchange fails without a reason, and nobody wakes without one. -/
def Orderly (σ : State) : Act → Prop
  | .finish t _ => ∃ c wants pc, σ.client c = .join t wants pc
  | .startup _ choice => choice.address ≠ none ∧ choice.spurious = false
  | .call _ _ => False
  | .client c env => env.address ≠ none ∧ env.spurious = false ∧ ∀ t, ¬ Asleep t (σ.client c)
  | .reaper env => env.spurious = false ∧ σ.queue.reaper ≠ .asleep

/-- What is known in every run. -/
structure Prepared (σ : State) : Prop where
  known : Known σ
  waking : Waking σ
  ready : Ready σ

theorem prepared_step {a : Act} (prepared : Prepared σ) (done : step σ a = some σ') : Prepared σ' where
  known := (known_step prepared.known done).1
  waking := waking_step prepared.waking prepared.known.owned done
  ready := ready_step prepared.known prepared.ready done

theorem start_prepared : Prepared start := ⟨start_known,start_waking,start_ready⟩

/-- There is so much to do. -/
def Measured (n : Nat) (σ : State) : Prop :=
  Prepared σ ∧ ∃ clients threads queue batch, Within clients threads σ ∧ Held σ.queue queue batch ∧
    budget clients threads σ queue batch = n

/-- A step of the reaper. -/
def Reaps : Act → Prop
  | .reaper _ => True
  | _ => False

/-- Some step leaves less to do, and it is one of the reaper only if this is `there`. -/
def Goes (there : Prop) (σ : State) (n : Nat) : Prop :=
  ∃ a σ' m, Orderly σ a ∧ (Reaps a → there) ∧ step σ a = some σ' ∧ m < n ∧ Measured m σ'

variable {there : Prop}

theorem goes_of_less {a : Act} (prepared : Prepared σ) (within : Within clients threads σ) (orderly : Orderly σ a)
    (able : Reaps a → there) (done : step σ a = some σ') (nobody : callers a = ∅) (inside : targets a ⊆ threads)
    (held : Held σ'.queue queue' batch')
    (less : budget clients threads σ' queue' batch' < budget clients threads σ queue batch) :
    Goes there σ (budget clients threads σ queue batch) := by
  have within' : Within clients threads σ' :=
    (within_step within done).mono (by rw [nobody,Finset.empty_union])
      (Finset.union_subset inside (Finset.Subset.refl _))
  exact ⟨a,σ',_,orderly,able,done,less,prepared_step prepared done,_,_,_,_,within',held,rfl⟩

/-- The end of a detach: a call of `reap_enqueue`, which goes on or returns. -/
theorem enqueueing_detach {env : Env} {next : ReapQueue.State Caller} (here : σ.client c = .detach t .enqueueing)
    (stepped : ReapQueue.reapEnqueue σ.queue (.client c) env = some next) :
    ∃ σ', mythreadDetach σ c t env .enqueueing = some σ' ∧ σ'.queue = next ∧ pcWork (σ'.client c) ≤ 1 := by
  simp only [mythreadDetach,stepped,Option.map_some]
  split
  · exact ⟨_,rfl,rfl,by simp [State.leave,State.clientAt,pcWork]⟩
  · exact ⟨_,rfl,rfl,by simp [here,pcWork]⟩

theorem enqueueing_startup {choice : Choice} {next : ReapQueue.State Caller} (here : σ.startup t = .enqueueing)
    (stepped : ReapQueue.reapEnqueue σ.queue (.thread t) choice.toEnv = some next) :
    ∃ σ', threadStartup σ t choice = some σ' ∧ σ'.queue = next ∧ startupWork (σ'.startup t) ≤ 2 := by
  simp only [threadStartup,here,stepped,Option.map_some]
  split
  · exact ⟨_,rfl,rfl,by simp [State.startupAt,startupWork]⟩
  · exact ⟨_,rfl,rfl,by simp [here,startupWork]⟩

/-- A call of `reap_enqueue` goes on. -/
theorem busy_goes (prepared : Prepared σ) (within : Within clients threads σ) (held : Held σ.queue queue batch)
    {p : Caller} (busy : σ.queue.enqueuer p ≠ .idle) (free : σ.queue.lock = false ∨ Locks (σ.queue.enqueuer p)) :
    Goes there σ (budget clients threads σ queue batch) := by
  have handed := prepared.known.owned.handed
  obtain ⟨x,fresh⟩ := exists_fresh held (within.enqueuers handed)
  obtain ⟨next,stepped⟩ := enqueue_enabled held busy fresh
  obtain ⟨pc,pcs,less⟩ := @enqueue_descends _ _ _ queue batch _ _ _ stepped (by simp) rfl free
  have held' : Held next (ReapInvariant.linking (σ.queue.enqueuer p) queue) batch :=
    @Held.step _ _ _ _ _ _ (.enqueue p ⟨some x,false⟩) held stepped
  have own : next.enqueuer p = pc := by rw [pcs,Function.update_self]
  cases p with
  | client c =>
    obtain ⟨t,here⟩ : ∃ t, σ.client c = .detach t .enqueueing := by
      by_contra outside
      exact busy (handed.clients c fun t is => outside ⟨t,is⟩)
    have member : c ∈ clients := by
      by_contra out
      rw [within.idle c out] at here
      cases here
    obtain ⟨σ',ran,rfl,little⟩ := enqueueing_detach here stepped
    have done : step σ (.client c ⟨some x,false⟩) = some σ' := by simp only [step,here,ran]
    have orderly : Orderly σ (.client c ⟨some x,false⟩) := ⟨by simp,rfl,fun u => by rw [here]; exact id⟩
    refine goes_of_less prepared within orderly False.elim done rfl (Finset.empty_subset _) held'
      (budget_client (detach_step here ran) member ?_)
    have one : pcWork (.detach t .enqueueing) = 1 := rfl
    rw [clientWork,clientWork,here,own]
    omega
  | thread t =>
    have here : σ.startup t = .enqueueing := by
      by_contra outside
      exact busy (handed.threads t outside)
    have member : t ∈ threads := by
      by_contra out
      rw [within.running t out] at here
      cases here
    obtain ⟨σ',ran,rfl,little⟩ := @enqueueing_startup _ t ⟨⟨some x,false⟩,0⟩ _ here stepped
    have orderly : Orderly σ (.startup t ⟨⟨some x,false⟩,0⟩) := ⟨by simp,rfl⟩
    refine goes_of_less prepared within orderly False.elim ran rfl (Finset.empty_subset _) held'
      (budget_thread (startup_step ran) member ?_)
    have two : startupWork .enqueueing = 2 := rfl
    rw [threadWork,threadWork,here,own]
    omega

/-- The queue stays as it is, or the party calls `reap_enqueue`. -/
def Calls (σ σ' : State) (p : Caller) : Prop :=
  σ'.queue = σ.queue ∨ ∃ t, σ'.queue = σ.queue.enter p t

theorem Calls.held {p : Caller} (calls : Calls σ σ' p) (held : Held σ.queue queue batch)
    (idle : σ.queue.enqueuer p = .idle) : Held σ'.queue queue batch ∧ σ'.queue.reaper = σ.queue.reaper := by
  rcases calls with same | ⟨t,entered⟩
  · rw [same]
    exact ⟨held,rfl⟩
  · rw [entered]
    exact ⟨@Held.step _ _ _ _ _ _ (.enter p t) held (if_pos idle),rfl⟩

theorem startup_descends (here : σ.startup t ≠ .running ∧ σ.startup t ≠ .exited ∧ σ.startup t ≠ .enqueueing)
    (idle : σ.queue.enqueuer (.thread t) = .idle) (choice : Choice) :
    ∃ σ', threadStartup σ t choice = some σ' ∧ Calls σ σ' (.thread t) ∧ threadWork σ' t < threadWork σ t := by
  have goes : ∀ {τ : State} {pc}, τ.queue = σ.queue → startupWork pc < startupWork (σ.startup t) →
      Calls σ (τ.startupAt t pc) (.thread t) ∧ threadWork (τ.startupAt t pc) t < threadWork σ t := by
    intro τ pc same less
    refine ⟨.inl same,?_⟩
    have own : (τ.startupAt t pc).startup t = pc := Function.update_self ..
    have queue : (τ.startupAt t pc).queue = σ.queue := same
    rw [threadWork,threadWork,own,queue]
    omega
  cases is : σ.startup t with
  | running => exact absurd is here.1
  | exited => exact absurd is here.2.1
  | enqueueing => exact absurd is here.2.2
  | futexWake =>
    have queue : (σ.futexWake t choice.pick).queue = σ.queue := by
      rcases futexWake_cases σ t choice.pick with same | ⟨c,woken⟩
      · rw [same]
      · rw [woken]
        exact (wake_frame σ c).2.2.2.1
    simp only [threadStartup,is]
    exact ⟨_,rfl,goes queue (by simp [is,startupWork])⟩
  | callEnqueue =>
    simp only [threadStartup,is]
    refine ⟨_,rfl,.inr ⟨t,rfl⟩,?_⟩
    rw [threadWork,threadWork,is,idle]
    simp [State.startupAt,ReapQueue.State.enter,ReapQueue.State.goto,startupWork,callWork]
  | _ =>
    simp only [threadStartup,is]
    try split
    all_goals exact ⟨_,rfl,goes rfl (by simp [is,startupWork])⟩

/-- A thread goes on to its exit. -/
theorem thread_goes (prepared : Prepared σ) (within : Within clients threads σ) (held : Held σ.queue queue batch)
    (quiet : ∀ p, σ.queue.enqueuer p = .idle) (here : σ.startup t ≠ .running ∧ σ.startup t ≠ .exited) :
    Goes there σ (budget clients threads σ queue batch) := by
  have outside : σ.startup t ≠ .enqueueing := fun inside => prepared.ready.threads t inside (quiet _)
  have member : t ∈ threads := by
    by_contra out
    exact here.1 (within.running t out)
  obtain ⟨σ',ran,calls,less⟩ := startup_descends ⟨here.1,here.2,outside⟩ (quiet _) ⟨⟨some 0,false⟩,0⟩
  obtain ⟨held',reaper⟩ := calls.held held (quiet _)
  have orderly : Orderly σ (.startup t ⟨⟨some 0,false⟩,0⟩) := ⟨by simp,rfl⟩
  refine goes_of_less prepared within orderly False.elim ran rfl (Finset.empty_subset _) held'
    (budget_thread (startup_step ran) member ?_)
  rw [reaper]
  omega

/-- A start routine returns that a join waits for. -/
theorem finish_goes (prepared : Prepared σ) (within : Within clients threads σ) (held : Held σ.queue queue batch)
    {wants : Bool} {pc : JoinPc} (here : σ.client c = .join t wants pc) (running : σ.startup t = .running) :
    Goes there σ (budget clients threads σ queue batch) := by
  have member : t ∈ threads := within.targets c (.join t wants) (by rw [here]; rfl)
  have done : step σ (.finish t 0) = some { σ.startupAt t (.storeRetval 0) with
      returned := Function.update σ.returned t (some 0) } := if_pos running
  have orderly : Orderly σ (.finish t 0) := ⟨c,wants,pc,here⟩
  refine goes_of_less prepared within orderly False.elim done rfl (Finset.singleton_subset_iff.mpr member) held
    (budget_thread ⟨fun _ => .inl rfl,fun u other => Function.update_of_ne other _ _,rfl,fun _ _ => rfl⟩ member ?_)
  rw [threadWork,threadWork,running]
  simp [State.startupAt,startupWork]

/-! ### Clients -/

theorem joinLoop_work (known : Known σ) (wants : Bool) :
    pcWork ((joinLoop σ c t wants (σ.flags t)).client c) ≤ 8 := by
  rcases joinLoop_outcome known c t wants with idle | ⟨_,now⟩
  · simp [idle,pcWork]
  · simp [now,pcWork]

theorem detachLoop_work (known : Known σ) : pcWork ((detachLoop σ c t (σ.flags t)).client c) ≤ 156 := by
  rcases detachLoop_outcome known c t with idle | ⟨_,now⟩
  · simp [idle,pcWork]
  · simp [now,pcWork]

/-- Once the thread has exited, every step of a join brings it closer to its end. -/
theorem join_work (prepared : Prepared σ) {wants : Bool} {pc : JoinPc} (here : σ.client c = .join t wants pc)
    (exited : σ.startup t = .exited) :
    pcWork ((mythreadJoin σ c t wants pc).client c) < pcWork (σ.client c) := by
  have hasWoken : HasWoken (σ.startup t) := by rw [exited]; trivial
  have finished := finished_of_hasWoken prepared.known.owned.informed hasWoken
  rw [here]
  cases pc with
  | loadState => exact Nat.lt_succ_of_le (joinLoop_work prepared.known wants)
  | compareExchange s =>
    have isUnset : s = unset := prepared.ready.expects c s (by rw [here]; rfl)
    simp only [mythreadJoin]
    split
    · simp [State.clientAt,pcWork]
    · rename_i other
      rw [(joinLoop_outcome prepared.known c t wants).resolve_right fun both => other (both.1.trans isUnset.symm)]
      exact Nat.succ_pos _
  | loadFinished =>
    simp only [mythreadJoin,finished]
    cases wants <;> simp [State.clientAt,pcWork]
  | futexWait => simp [mythreadJoin,finished,State.clientAt,pcWork]
  | asleep => exact absurd rfl (here ▸ prepared.waking.woken t c hasWoken)
  | orReaped stored =>
    simp only [mythreadJoin]
    split <;> simp [State.leave,State.clientAt,pcWork]
  | free stored => simp [mythreadJoin,State.leave,State.clientAt,pcWork]
  | _ => simp [mythreadJoin,State.clientAt,pcWork]

theorem detach_work (prepared : Prepared σ) {pc : DetachPc} (here : σ.client c = .detach t pc)
    (outside : pc ≠ .callEnqueue ∧ pc ≠ .enqueueing) {env : Env} (strong : env.spurious = false) :
    ∃ σ', mythreadDetach σ c t env pc = some σ' ∧ pcWork (σ'.client c) < pcWork (σ.client c) := by
  rw [here]
  cases pc with
  | loadState => exact ⟨_,rfl,Nat.lt_succ_of_le (detachLoop_work prepared.known)⟩
  | compareExchange s =>
    have isUnset : s = unset := prepared.ready.expects c s (by rw [here]; rfl)
    simp only [mythreadDetach,strong]
    split
    · exact ⟨_,rfl,by simp [State.clientAt,pcWork]⟩
    · rename_i other
      have set : σ.flags t ≠ unset := fun same => other ⟨isUnset ▸ same,by simp⟩
      refine ⟨_,rfl,?_⟩
      rw [(detachLoop_outcome prepared.known c t).resolve_right fun both => set both.1]
      exact Nat.succ_pos _
  | callEnqueue => exact absurd rfl outside.1
  | enqueueing => exact absurd rfl outside.2
  | startReaper => exact ⟨_,rfl,by simp [State.clientAt,pcWork]⟩
  | _ =>
    simp only [mythreadDetach]
    split <;> exact ⟨_,rfl,by simp [State.leave,State.clientAt,pcWork]⟩

theorem detach_descends (prepared : Prepared σ) {pc : DetachPc} (here : σ.client c = .detach t pc)
    (outside : pc ≠ .enqueueing) (idle : σ.queue.enqueuer (.client c) = .idle) {env : Env}
    (strong : env.spurious = false) :
    ∃ σ', mythreadDetach σ c t env pc = some σ' ∧ Calls σ σ' (.client c) ∧ clientWork σ' c < clientWork σ c := by
  by_cases isCall : pc = .callEnqueue
  · subst isCall
    refine ⟨_,rfl,.inr ⟨t,rfl⟩,?_⟩
    rw [clientWork,clientWork,here,idle]
    simp [State.clientAt,ReapQueue.State.enter,ReapQueue.State.goto,pcWork,callWork]
  · obtain ⟨σ',done,less⟩ := detach_work prepared here ⟨isCall,outside⟩ strong
    have queue := mythreadDetach_queue ⟨isCall,outside⟩ done
    refine ⟨σ',done,.inl queue,?_⟩
    rw [clientWork,clientWork,queue]
    omega

/-- A call goes on to its end, or the start routine returns that it waits for. -/
theorem client_goes (prepared : Prepared σ) (within : Within clients threads σ) (held : Held σ.queue queue batch)
    (quiet : ∀ p, σ.queue.enqueuer p = .idle) (settled : ∀ t, σ.startup t = .running ∨ σ.startup t = .exited)
    (active : σ.client c ≠ .idle) : Goes there σ (budget clients threads σ queue batch) := by
  have member : c ∈ clients := by
    by_contra out
    exact active (within.idle c out)
  cases here : σ.client c with
  | idle => exact absurd here active
  | join t wants pc =>
    rcases settled t with running | exited
    · exact finish_goes prepared within held here running
    have awake : ∀ u, ¬ Asleep u (σ.client c) := by
      intro u asleep
      have isT : u = t := by
        rw [here] at asleep
        cases pc <;> first | exact asleep.symm | exact asleep.elim
      exact prepared.waking.woken t c (by rw [exited]; trivial) (isT ▸ asleep)
    have done : step σ (.client c ⟨some 0,false⟩) = some (mythreadJoin σ c t wants pc) := by simp only [step,here]
    have queue := (mythreadJoin_effect here).queue
    have less := join_work prepared here exited
    have orderly : Orderly σ (.client c ⟨some 0,false⟩) := ⟨by simp,rfl,awake⟩
    refine goes_of_less prepared within orderly False.elim done rfl (Finset.empty_subset _) (queue ▸ held)
      (budget_client (join_step here) member ?_)
    rw [clientWork,clientWork,queue]
    omega
  | detach t pc =>
    have outside : pc ≠ .enqueueing := by
      rintro rfl
      exact prepared.ready.clients c t here (quiet _)
    obtain ⟨σ',ran,calls,less⟩ := @detach_descends _ c t prepared pc here outside (quiet _) ⟨some 0,false⟩ rfl
    obtain ⟨held',reaper⟩ := calls.held held (quiet _)
    have done : step σ (.client c ⟨some 0,false⟩) = some σ' := by simp only [step,here,ran]
    have orderly : Orderly σ (.client c ⟨some 0,false⟩) := ⟨by simp,rfl,fun u => by rw [here]; exact id⟩
    refine goes_of_less prepared within orderly False.elim done rfl (Finset.empty_subset _) held'
      (budget_client (detach_step here ran) member ?_)
    rw [reaper]
    omega

/-! ### The reaper -/

/-- The reaper goes on, when it has the lock at hand and does not wait for something to
    do. A visit takes up to two steps before the queue's own. -/
theorem reaper_goes (isThere : there) (prepared : Prepared σ) (within : Within clients threads σ)
    (held : Held σ.queue queue batch) (awake : σ.queue.reaper ≠ .asleep)
    (waits : σ.queue.reaper = .loadCount ∨ σ.queue.reaper = .futexWait → σ.queue.count ≠ 0 ∧ queue ≠ [])
    (free : σ.queue.lock = false ∨ ReaperLocks σ.queue.reaper) :
    Goes there σ (budget clients threads σ queue batch) := by
  have orderly : Orderly σ (.reaper ⟨some 0,false⟩) := ⟨rfl,awake⟩
  -- The visit goes on, and the queue stays as it is.
  have visits : ∀ {τ : State}, MyThread.reaperMain σ ⟨some 0,false⟩ = some τ → τ.queue = σ.queue →
      visitWork τ.visit < visitWork σ.visit → Goes there σ (budget clients threads σ queue batch) := by
    intro τ done same less
    have effect := reaperMain_effect done
    refine goes_of_less prepared within orderly (fun _ => isThere) done rfl (Finset.empty_subset _) (same ▸ held)
      (budget_reaper effect.client effect.startup (by rw [same]) ?_)
    rw [same]
    omega
  have reaps : ∀ {τ : State}, MyThread.reaperMain σ ⟨some 0,false⟩ = reapStep τ ⟨some 0,false⟩ → τ.queue = σ.queue →
      Goes there σ (budget clients threads σ queue batch) := by
    intro τ is same
    obtain ⟨next,stepped⟩ := reaper_enabled σ.queue ⟨some 0,false⟩
    have done : MyThread.reaperMain σ ⟨some 0,false⟩ = some { τ with queue := next, visit := .orReaped } := by
      rw [is,reapStep,same,stepped]
      rfl
    have less := reaper_descends held stepped awake waits free rfl
    have held' : Held next _ _ := @Held.step _ _ _ _ _ _ (.reap ⟨some 0,false⟩) held stepped
    have effect := reaperMain_effect done
    refine goes_of_less prepared within orderly (fun _ => isThere) done rfl (Finset.empty_subset _) held'
      (budget_reaper effect.client effect.startup (reaper_enqueuers done) ?_)
    have two : visitWork .orReaped = 2 := rfl
    simp only [ReapInvariant.moving]
    omega
  cases here : σ.queue.reaper with
  | visit t x next n =>
    let marked := σ.setFlags t { σ.flags t with reaped := true }
    cases at_pc : σ.visit with
    | orReaped =>
      cases reaped : (σ.flags t).reaped with
      | true =>
        refine reaps (τ := marked) ?_ rfl
        simp only [MyThread.reaperMain,here,at_pc]
        exact if_pos reaped
      | false =>
        refine visits (τ := { marked with visit := .munmap }) ?_ rfl (by simp [at_pc,visitWork])
        simp only [MyThread.reaperMain,here,at_pc]
        exact if_neg (by simp [reaped])
    | munmap =>
      refine visits (τ := { σ.unmap t .reaper with visit := .free }) ?_ rfl (by simp [at_pc,visitWork])
      simp only [MyThread.reaperMain,here,at_pc]
    | free =>
      refine reaps (τ := σ.free t .reaper) ?_ rfl
      simp only [MyThread.reaperMain,here,at_pc]
  | _ =>
    refine reaps (τ := σ) ?_ rfl
    simp only [MyThread.reaperMain,here]

/-! ### Rest -/

/-- With no call inside `reap_enqueue`, the reaper has nothing to do when the counter is
    0, and has the whole queue before it otherwise. -/
theorem filled_of_waits (held : Held σ.queue queue batch) (quiet : ∀ p, σ.queue.enqueuer p = .idle)
    (waits : σ.queue.reaper = .loadCount ∨ σ.queue.reaper = .futexWait) (counted : σ.queue.count ≠ 0) : queue ≠ [] := by
  rintro rfl
  have count := ReapSafety.count_of_idle held.inv.accounts quiet
  have at_pc := held.inv.shape.batch
  rcases waits with here | here <;> rw [here] at count at_pc <;> have noBatch : batch = [] := at_pc <;>
    simp [noBatch,ReapInvariant.processed] at count <;> exact counted count

/-- No call is in progress, and no thread is behind its start routine. -/
structure Quiet (σ : State) : Prop where
  clients : ∀ c, σ.client c = .idle
  threads : ∀ t, σ.startup t = .running ∨ σ.startup t = .exited

/-- As long as there is something to do, some step leaves less of it. A reaper that is
    not there does nothing, and has not taken the lock. -/
theorem descends {n : Nat} (measured : Measured n σ) (off : ¬ there → ¬ ReaperLocks σ.queue.reaper) :
    Quiet σ ∧ (there → AtRest σ) ∨ Goes there σ n := by
  obtain ⟨prepared,clients,threads,queue,batch,within,held,rfl⟩ := measured
  by_cases quiet : ∀ p, σ.queue.enqueuer p = .idle
  case neg =>
    obtain ⟨p,busy⟩ := not_forall.mp quiet
    cases lock : σ.queue.lock with
    | false => exact .inr (busy_goes prepared within held busy (.inl lock))
    | true =>
      rcases held.inv.exclusive.holder lock with reaper | ⟨q,locks⟩
      · have isThere : there := by
          by_contra absent
          exact off absent reaper
        refine .inr (reaper_goes isThere prepared within held (fun is => ?_) (fun is => ?_) (.inr reaper))
        · rw [is] at reaper
          exact reaper.elim
        · rcases is with is | is <;> rw [is] at reaper <;> exact reaper.elim
      · have busy : σ.queue.enqueuer q ≠ .idle := by
          intro idle
          rw [idle] at locks
          exact locks.elim
        exact .inr (busy_goes prepared within held busy (.inr locks))
  by_cases settled : ∀ t, σ.startup t = .running ∨ σ.startup t = .exited
  case neg =>
    obtain ⟨t,behind⟩ := not_forall.mp settled
    exact .inr (thread_goes prepared within held quiet (not_or.mp behind))
  by_cases idle : ∀ c, σ.client c = .idle
  case neg =>
    obtain ⟨c,active⟩ := not_forall.mp idle
    exact .inr (client_goes prepared within held quiet settled active)
  by_cases isThere : there
  case neg => exact .inl ⟨⟨idle,settled⟩,fun is => absurd is isThere⟩
  by_cases waits : (σ.queue.reaper = .loadCount ∨ σ.queue.reaper = .futexWait ∨ σ.queue.reaper = .asleep) ∧
      σ.queue.count = 0
  · exact .inl ⟨⟨idle,settled⟩,fun _ => ⟨idle,settled,waits.1,waits.2⟩⟩
  have free : σ.queue.lock = false ∨ ReaperLocks σ.queue.reaper := by
    by_cases locks : ReaperLocks σ.queue.reaper
    · exact .inr locks
    · exact .inl (ReapSafety.unlocked_of_idle held.inv.exclusive locks quiet)
  refine .inr (reaper_goes isThere prepared within held (fun asleep => ?_) (fun is => ?_) free)
  · rcases held.inv.accounts.awake asleep with nothing | ⟨p,wakes⟩
    · exact waits ⟨.inr (.inr asleep),nothing⟩
    · rw [quiet p] at wakes
      cases wakes
  · have counted : σ.queue.count ≠ 0 := fun nothing => waits ⟨is.imp_right .inl,nothing⟩
    exact ⟨counted,filled_of_waits held quiet is counted⟩

theorem start_within : Within ∅ ∅ start where
  idle _ _ := rfl
  running _ _ := rfl
  targets _ _ inside := by cases inside

theorem measured_of_run {acts : List Act} (ran : Transition.run step start acts = some σ) : ∃ n, Measured n σ := by
  have keeps : ∀ τ a τ', (Prepared τ ∧ ∃ clients threads, Within clients threads τ) → step τ a = some τ' →
      Prepared τ' ∧ ∃ clients threads, Within clients threads τ' := by
    rintro τ a τ' ⟨prepared,clients,threads,within⟩ done
    exact ⟨prepared_step prepared done,_,_,within_step within done⟩
  obtain ⟨prepared,clients,threads,within⟩ :=
    Transition.run_invariant keeps ran ⟨start_prepared,∅,∅,start_within⟩
  obtain ⟨queue,batch,returned,inv,hist,kept⟩ := prepared.known.traced
  exact ⟨_,prepared,clients,threads,queue,batch,within,⟨inv,kept⟩,rfl⟩

/-! ### Answers -/

/-- The client's call is in progress, or it has returned. -/
def Answers (c : Nat) (call : Call) (σ : State) : Prop :=
  callOf (σ.client c) = some call ∨ ∃ result, ⟨c,call,result⟩ ∈ σ.returns

/-- A client goes on with its call, or the call returns. -/
def Proceeds (σ σ' : State) (c : Nat) (call : Call) : Prop :=
  σ'.returns = σ.returns ∧ callOf (σ'.client c) = some call ∨ ∃ result, σ'.returns = σ.returns ++ [⟨c,call,result⟩]

theorem join_proceeds {wants : Bool} {pc : JoinPc} (here : σ.client c = .join t wants pc) :
    Proceeds σ (mythreadJoin σ c t wants pc) c (.join t wants) := by
  have goes : ∀ {τ : State} (pc' : JoinPc), τ.returns = σ.returns →
      Proceeds σ (τ.clientAt c (.join t wants pc')) c (.join t wants) :=
    fun pc' same => .inl ⟨same,by simp [State.clientAt,callOf]⟩
  have loop : ∀ s, Proceeds σ (joinLoop σ c t wants s) c (.join t wants) := by
    intro s
    unfold joinLoop
    split
    · exact .inr ⟨_,rfl⟩
    · split
      · exact .inr ⟨_,rfl⟩
      · exact goes _ rfl
  cases pc with
  | loadState => exact loop _
  | compareExchange s =>
    simp only [mythreadJoin]
    split
    · exact goes _ rfl
    · exact loop _
  | loadFinished =>
    simp only [mythreadJoin]
    split
    · split <;> exact goes _ rfl
    · exact goes _ rfl
  | futexWait =>
    simp only [mythreadJoin]
    split
    · exact goes _ rfl
    · exact .inl ⟨rfl,by simp [State.clientAt,callOf]⟩
  | asleep => exact .inl ⟨(wake_frame σ c).2.2.2.2.2.2.2.1,by simp [mythreadJoin,State.wake,here,State.clientAt,callOf]⟩
  | orReaped stored =>
    simp only [mythreadJoin]
    split
    · exact .inr ⟨_,rfl⟩
    · exact goes _ rfl
  | free stored => exact .inr ⟨_,rfl⟩
  | _ => exact goes _ rfl

theorem detach_proceeds {env : Env} {pc : DetachPc} (here : σ.client c = .detach t pc)
    (done : mythreadDetach σ c t env pc = some σ') : Proceeds σ σ' c (.detach t) := by
  have goes : ∀ {τ : State} (pc' : DetachPc), τ.returns = σ.returns →
      Proceeds σ (τ.clientAt c (.detach t pc')) c (.detach t) :=
    fun pc' same => .inl ⟨same,by simp [State.clientAt,callOf]⟩
  have loop : ∀ s, Proceeds σ (detachLoop σ c t s) c (.detach t) := by
    intro s
    unfold detachLoop
    split
    · exact .inr ⟨_,rfl⟩
    · split
      · exact .inr ⟨_,rfl⟩
      · exact goes _ rfl
  cases pc with
  | loadState =>
    cases done
    exact loop _
  | compareExchange s =>
    simp only [mythreadDetach] at done
    split at done <;> cases done
    · exact goes _ rfl
    · exact loop _
  | loadFinished =>
    simp only [mythreadDetach] at done
    split at done <;> cases done
    · exact goes _ rfl
    · exact .inr ⟨_,rfl⟩
  | orQueued =>
    simp only [mythreadDetach] at done
    split at done <;> cases done
    · exact .inr ⟨_,rfl⟩
    · exact goes _ rfl
  | enqueueing =>
    obtain ⟨queue,_,rfl⟩ := Option.map_eq_some_iff.mp done
    split
    · exact .inr ⟨_,rfl⟩
    · exact .inl ⟨rfl,by rw [here]; rfl⟩
  | _ =>
    cases done
    exact goes _ rfl

theorem Answers.proceeds {d : Nat} {call made : Call} (answers : Answers d made σ)
    (others : ∀ e, e ≠ c → σ'.client e = σ.client e) (here : callOf (σ.client c) = some call)
    (proceeds : Proceeds σ σ' c call) : Answers d made σ' := by
  have kept : ∀ r ∈ σ.returns, r ∈ σ'.returns := by
    intro r member
    rcases proceeds with ⟨same,_⟩ | ⟨result,more⟩
    · exact same ▸ member
    · rw [more]
      exact List.mem_append_left _ member
  rcases answers with inside | ⟨result,member⟩
  case inr => exact .inr ⟨result,kept _ member⟩
  by_cases isC : d = c
  · subst isC
    obtain rfl := Option.some.inj (here.symm.trans inside)
    rcases proceeds with ⟨_,same⟩ | ⟨result,more⟩
    · exact .inl same
    · exact .inr ⟨result,by simp [more]⟩
  · exact .inl ((others d isC).symm ▸ inside)

theorem answers_step {a : Act} {made : Call} (answers : Answers c made σ) (done : step σ a = some σ') :
    Answers c made σ' := by
  cases step_cases done with
  | finish t retval running => exact answers
  | startup done =>
    rw [Answers,(threadStartup_effect done).returns]
    refine answers.imp_left fun inside => ?_
    rcases (startup_step done).clients c with same | ⟨u,wants,asleep,awake⟩
    · exact same ▸ inside
    · rw [asleep] at inside
      rw [awake]
      exact inside
  | call d call top =>
    refine answers.imp_left fun inside => ?_
    have other : c ≠ d := by
      rintro rfl
      rw [top] at inside
      cases inside
    simpa [State.clientAt,other] using inside
  | join env here =>
    exact answers.proceeds (mythreadJoin_effect here).others (by rw [here]; rfl) (join_proceeds here)
  | detach here done =>
    exact answers.proceeds (mythreadDetach_effect here done).others (by rw [here]; rfl) (detach_proceeds here done)
  | reaper done =>
    have effect := reaperMain_effect done
    rw [Answers,effect.client,effect.returns]
    exact answers

end Os5Sem.ThreadProgress

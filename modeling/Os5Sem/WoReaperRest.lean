import Mathlib.Algebra.Order.BigOperators.Group.Finset
import Os5Sem.WoReaperWake

/-!
Whether the threads without a reaper come to rest. A joiner that is left asleep does not
return, and the second one of two that sleep on a thread is going to be left. The calls
and the threads can come to an end exactly when there are no such joiners
(`comes_to_rest_iff`).
-/
namespace Os5Sem.WoReaperRest
open Os5Sem.MyThread (Call Result)
open Os5Sem.WoReaper Os5Sem.WoReaperOwnership Os5Sem.WoReaperWake
open Os5Sem.SleepQueues (Beds)
open Os5Sem.Transition (Along)

variable {σ σ' : State} {c t : Nat}

/-! ### Rest -/

/-- No call is in progress, and no thread is behind its start routine. -/
structure AtRest (σ : State) : Prop where
  clients : ∀ c, σ.client c = .idle
  threads : ∀ t, σ.startup t = .running ∨ σ.startup t = .exited

/-- No new call is made, only start routines return that are waited for, allocations
    succeed, and nobody wakes without a reason. -/
def Orderly (σ : State) : Act → Prop
  | .finish t _ => ∃ c wants pc, σ.client c = .join t wants pc
  | .startup _ env => env.succeeds = true
  | .call _ _ => False
  | .client c => ∀ t, ¬ Asleep t (σ.client c)

/-- The thread's wake reaches or has reached everybody who sleeps on it. -/
structure Wakeable (t : Nat) (σ : State) : Prop where
  single : OneSleeper t σ
  left : NobodyLeft t σ

/-! ### Joiners that are left -/

theorem startup_clients {env : Env} (other : σ.startup t ≠ .futexWake) (done : threadStartup σ t env = some σ') :
    σ'.client = σ.client := by
  cases here : σ.startup t <;> simp only [threadStartup,here] at done <;> try split at done
  all_goals cases done
  case futexWake => exact absurd here other
  all_goals rfl

theorem asleep_of_others {d : Nat} {pc : ClientPc} (client : σ'.client = Function.update σ.client c pc)
    (awake : ¬ Asleep t (σ.client c)) (asleep : Asleep t (σ.client d)) : Asleep t (σ'.client d) := by
  have other : d ≠ c := by
    rintro rfl
    exact awake asleep
  rw [client,Function.update_of_ne other]
  exact asleep

/-- Only the wake of its thread ends the sleep of a joiner. -/
theorem stays_asleep {a : Act} {d : Nat} (orderly : Orderly σ a) (listed : (beds σ).Listed)
    (done : step σ a = some σ') (noWake : ¬ Wakes t σ a) (asleep : Asleep t (σ.client d)) :
    Asleep t (σ'.client d) := by
  cases step_cases done with
  | finish u retval running => exact asleep
  | @startup u env _ done =>
    by_cases wakes : σ.startup u = .futexWake
    · have other : u ≠ t := by
        rintro rfl
        exact noWake ⟨rfl,wakes⟩
      simp only [threadStartup,wakes] at done
      cases done
      show Asleep t ((σ.futexWake u env.pick).client d)
      rcases futexWake_cases σ u env.pick with ⟨_,same⟩ | ⟨c,sleeper,woken⟩
      · rw [same]
        exact asleep
      · have onU : (beds σ).bed c = some u := (listed.mem u c).mp sleeper
        have isNotC : d ≠ c := by
          rintro rfl
          exact other (Option.some.inj (onU.symm.trans (asleep_iff.mp asleep)))
        have now : bed ((σ.wake c).client d) = Function.update (beds σ).bed c none d :=
          congrFun (congrArg Beds.bed ((beds_wake σ c).trans (Beds.wake_asleep onU))) d
        rw [woken,asleep_iff,now,Function.update_of_ne isNotC]
        exact asleep_iff.mp asleep
    · rw [startup_clients wakes done]
      exact asleep
  | call c call top => exact orderly.elim
  | join here =>
    obtain ⟨_,_,pc,client,_⟩ := mythreadJoin_others here
    exact asleep_of_others client (orderly t) asleep
  | @detach c u pc here =>
    obtain ⟨_,_,pc',client,_⟩ := @mythreadDetach_others σ c u pc
    exact asleep_of_others client (orderly t) asleep

theorem wakeable_back {a : Act} (orderly : Orderly σ a) (owned : Owned σ) (listed : (beds σ).Listed)
    (done : step σ a = some σ') (wakeable : Wakeable t σ') : Wakeable t σ := by
  by_cases wakes : Wakes t σ a
  · have nobody := wakeable.left ((hasWoken_step owned done).mpr (.inr wakes))
    cases step_cases done with
    | @startup u env _ done =>
      obtain ⟨rfl,here⟩ := wakes
      simp only [threadStartup,here] at done
      cases done
      refine ⟨(nobody_left_iff listed env.pick).mp nobody,fun woken => ?_⟩
      rw [here] at woken
      exact woken.elim
    | _ => exact wakes.elim
  · have stays : ∀ d, Asleep t (σ.client d) → Asleep t (σ'.client d) :=
      fun d => stays_asleep orderly listed done wakes
    constructor
    · intro c d one two
      exact wakeable.single c d (stays c one) (stays d two)
    · intro woken d asleep
      exact wakeable.left ((hasWoken_step owned done).mpr (.inl woken)) d (stays d asleep)

theorem wakeable_of_run {more : List Act} (owned : Owned σ) (listed : (beds σ).Listed)
    (ran : Transition.run step σ more = some σ') (along : Along step Orderly σ more) (wakeable : Wakeable t σ') :
    Wakeable t σ := by
  induction more generalizing σ with
  | nil =>
    cases ran
    exact wakeable
  | cons a rest ih =>
    obtain ⟨next,taken,ran⟩ := Transition.run_cons.mp ran
    obtain ⟨orderly,along⟩ := (Transition.along_cons taken).mp along
    have later := ih (owned_step owned taken) (listed_step listed taken) ran along
    exact wakeable_back orderly owned listed taken later

theorem AtRest.wakeable (rest : AtRest σ) (t : Nat) : Wakeable t σ := by
  have nobody : ∀ c, ¬ Asleep t (σ.client c) := by
    intro c
    rw [rest.clients c]
    exact id
  exact ⟨fun c d asleep => absurd asleep (nobody c),fun _ => nobody⟩

/-! ### Who takes part -/

/-- Outside of the clients no call is in progress, and outside of the threads none has
    returned from its start routine or is waited for. -/
structure Within (clients threads : Finset Nat) (σ : State) : Prop where
  idle : ∀ c, c ∉ clients → σ.client c = .idle
  running : ∀ t, t ∉ threads → σ.startup t = .running
  joined : ∀ c t wants pc, σ.client c = .join t wants pc → t ∈ threads

variable {clients threads : Finset Nat}

theorem Within.mono (within : Within clients threads σ) {clients' threads' : Finset Nat} (more : clients ⊆ clients')
    (more' : threads ⊆ threads') : Within clients' threads' σ where
  idle c out := within.idle c fun member => out (more member)
  running t out := within.running t fun member => out (more' member)
  joined c t wants pc here := more' (within.joined c t wants pc here)

/-- A client goes on with its call. -/
theorem Within.client (within : Within clients threads σ) {pc : ClientPc}
    (client : σ'.client = Function.update σ.client c pc) (startup : σ'.startup = σ.startup)
    (active : σ.client c ≠ .idle) (joined : ∀ t wants now, pc = .join t wants now → t ∈ threads) :
    Within clients threads σ' := by
  constructor
  case idle =>
    intro d out
    have other : d ≠ c := by
      rintro rfl
      exact active (within.idle d out)
    rw [client,Function.update_of_ne other]
    exact within.idle d out
  case running =>
    rw [startup]
    exact within.running
  case joined =>
    intro d t wants now here
    by_cases isC : d = c
    · rw [client,isC,Function.update_self] at here
      exact joined t wants now here
    · rw [client,Function.update_of_ne isC] at here
      exact within.joined d t wants now here

theorem startup_wakes {env : Env} (done : threadStartup σ t env = some σ') (c : Nat) :
    σ'.client c = σ.client c ∨
      ∃ u wants, σ.client c = .join u wants .asleep ∧ σ'.client c = .join u wants .loadFinished := by
  rcases threadStartup_clients done with same | ⟨d,woken⟩
  · exact .inl (congrFun same c)
  · rw [woken]
    exact wake_client σ d c

theorem within_startup (within : Within clients threads σ) {env : Env} (done : threadStartup σ t env = some σ') :
    Within clients threads σ' := by
  constructor
  case idle =>
    intro c out
    rcases startup_wakes done c with same | ⟨u,wants,asleep,_⟩
    · rw [same]
      exact within.idle c out
    · rw [within.idle c out] at asleep
      cases asleep
  case running =>
    intro u out
    have other : u ≠ t := by
      rintro rfl
      simp [threadStartup,within.running u out] at done
    rw [(threadStartup_others done other).2]
    exact within.running u out
  case joined =>
    intro c u wants pc here
    rcases startup_wakes done c with same | ⟨v,wants',asleep,awake⟩
    · exact within.joined c u wants pc (same ▸ here)
    · rw [awake] at here
      cases here
      exact within.joined c u wants .asleep asleep

/-- The clients that a step adds, and the threads. -/
def callers : Act → Finset Nat
  | .call c _ => {c}
  | _ => ∅

def targets : Act → Finset Nat
  | .call _ call => {call.thread}
  | .finish t _ => {t}
  | _ => ∅

theorem within_step {a : Act} (within : Within clients threads σ) (done : step σ a = some σ') :
    Within (callers a ∪ clients) (targets a ∪ threads) σ' := by
  have more : Within (callers a ∪ clients) (targets a ∪ threads) σ :=
    within.mono Finset.subset_union_right Finset.subset_union_right
  cases step_cases done with
  | finish t retval running =>
    refine ⟨more.idle,fun u out => ?_,more.joined⟩
    have other : u ≠ t := by
      rintro rfl
      exact out (Finset.mem_union_left _ (Finset.mem_singleton_self u))
    simpa [State.startupAt,other] using more.running u out
  | startup done => exact within_startup more done
  | call c call top =>
    constructor
    case idle =>
      intro d out
      have other : d ≠ c := by
        rintro rfl
        exact out (Finset.mem_union_left _ (Finset.mem_singleton_self d))
      simpa [State.clientAt,other] using more.idle d out
    case running => exact more.running
    case joined =>
      intro d t wants pc here
      by_cases isC : d = c
      · subst isC
        refine Finset.mem_union_left _ (Finset.mem_singleton.mpr ?_)
        cases call <;> simp [State.clientAt,entry] at here
        exact here.1.symm
      · exact more.joined d t wants pc (by simpa [State.clientAt,isC] using here)
  | @join c u wants pc here =>
    obtain ⟨_,startup,now,client,on⟩ := mythreadJoin_others here
    refine more.client client startup (by simp [here]) fun t wants' pc' is => ?_
    rcases on with idle | ⟨pc'',same⟩
    · rw [idle] at is
      cases is
    · rw [same] at is
      cases is
      exact more.joined c u wants pc here
  | @detach c u pc here =>
    obtain ⟨_,startup,now,client,on⟩ := @mythreadDetach_others σ c u pc
    refine more.client client startup (by simp [here]) fun t wants pc' is => ?_
    rcases on with idle | ⟨pc'',_,same⟩
    · rw [idle] at is
      cases is
    · rw [same] at is
      cases is

/-! ### Work -/

/-- How far a client is from the end of its call. -/
def pcWork : ClientPc → Nat
  | .idle => 0
  | .join _ _ pc =>
    match pc with
    | .loadDetached => 8
    | .asleep => 7
    | .futexWait => 6
    | .loadFinished => 5
    | .loadRetval => 4
    | .exchange _ => 3
    | .destroyStack _ => 2
    | .free _ => 1
  | .detach _ pc =>
    match pc with
    | .storeDetached => 5
    | .loadFinished => 4
    | .compareExchange => 3
    | .destroyStack => 2
    | .free => 1

def startupWork : StartupPc → Nat
  | .running => 15
  | .storeRetval _ => 14
  | .storeFinished => 13
  | .futexWake => 12
  | .compareExchange => 11
  | .loadDetached => 10
  | .malloc => 9
  | .fillArgs => 8
  | .mmap => 7
  | .swapContext => 6
  | .munmap => 5
  | .freeBlock => 4
  | .freeArgs => 3
  | .trampolineExit => 2
  | .exit => 1
  | .exited => 0

def budget (clients threads : Finset Nat) (σ : State) : Nat :=
  ∑ c ∈ clients, pcWork (σ.client c) + ∑ t ∈ threads, startupWork (σ.startup t)

theorem budget_client {pc : ClientPc} (client : σ'.client = Function.update σ.client c pc)
    (startup : σ'.startup = σ.startup) (member : c ∈ clients) (less : pcWork pc < pcWork (σ.client c)) :
    budget clients threads σ' < budget clients threads σ := by
  have calls : ∑ d ∈ clients, pcWork (σ'.client d) < ∑ d ∈ clients, pcWork (σ.client d) := by
    refine Finset.sum_lt_sum (fun d _ => ?_) ⟨c,member,?_⟩
    · by_cases isC : d = c
      · rw [client,isC,Function.update_self]
        exact less.le
      · rw [client,Function.update_of_ne isC]
    · rw [client,Function.update_self]
      exact less
  rw [budget,budget,startup]
  omega

theorem budget_thread (clientWork : ∀ c, pcWork (σ'.client c) ≤ pcWork (σ.client c))
    (others : ∀ u, u ≠ t → σ'.startup u = σ.startup u) (member : t ∈ threads)
    (less : startupWork (σ'.startup t) < startupWork (σ.startup t)) :
    budget clients threads σ' < budget clients threads σ := by
  have calls : ∑ c ∈ clients, pcWork (σ'.client c) ≤ ∑ c ∈ clients, pcWork (σ.client c) :=
    Finset.sum_le_sum fun c _ => clientWork c
  have ends : ∑ u ∈ threads, startupWork (σ'.startup u) < ∑ u ∈ threads, startupWork (σ.startup u) := by
    refine Finset.sum_lt_sum (fun u _ => ?_) ⟨t,member,less⟩
    by_cases isT : u = t
    · rw [isT]
      exact less.le
    · rw [others u isT]
  rw [budget,budget]
  omega

/-! ### Steps to rest -/

/-- The process is running, and nobody is going to be left asleep. -/
structure Prepared (σ : State) : Prop where
  owned : Owned σ
  listed : (beds σ).Listed
  wakeable : ∀ t, Wakeable t σ
  unended : σ.ended = false

/-- There is so much to do. -/
def Measured (n : Nat) (σ : State) : Prop :=
  Prepared σ ∧ ∃ clients threads, Within clients threads σ ∧ budget clients threads σ = n

/-- Some step leaves less to do. -/
def Goes (σ : State) (n : Nat) : Prop := ∃ a σ' m, Orderly σ a ∧ step σ a = some σ' ∧ m < n ∧ Measured m σ'

theorem goes_of_less {a : Act} (prepared : Prepared σ) (within : Within clients threads σ) (orderly : Orderly σ a)
    (done : step σ a = some σ') (nobody : callers a = ∅) (inside : targets a ⊆ threads)
    (unended : σ'.ended = false) (awake : ∀ t d, Asleep t (σ'.client d) → Asleep t (σ.client d))
    (less : budget clients threads σ' < budget clients threads σ) : Goes σ (budget clients threads σ) := by
  have within' : Within clients threads σ' :=
    (within_step within done).mono (by rw [nobody,Finset.empty_union])
      (Finset.union_subset inside (Finset.Subset.refl _))
  have wakeable : ∀ t, Wakeable t σ' := by
    intro t
    obtain ⟨single,left⟩ := prepared.wakeable t
    refine ⟨fun c d one two => single c d (awake t c one) (awake t d two),?_⟩
    exact (nobodyLeft_step prepared.owned prepared.listed left done).mpr fun _ => single
  have prepared' : Prepared σ' :=
    ⟨owned_step prepared.owned done,listed_step prepared.listed done,wakeable,unended⟩
  exact ⟨a,σ',_,orderly,done,less,prepared',_,_,within',rfl⟩

theorem wake_ended (σ : State) (c : Nat) : (σ.wake c).ended = σ.ended := by
  unfold State.wake
  split <;> rfl

theorem startup_descends (behind : σ.startup t ≠ .running ∧ σ.startup t ≠ .exited) (pick : Nat) :
    ∃ σ', threadStartup σ t ⟨true,pick⟩ = some σ' ∧ σ'.ended = σ.ended ∧
      startupWork (σ'.startup t) < startupWork (σ.startup t) := by
  cases here : σ.startup t with
  | running => exact absurd here behind.1
  | exited => exact absurd here behind.2
  | futexWake =>
    simp only [threadStartup,here]
    refine ⟨_,rfl,?_,by simp [startupWork]⟩
    rcases futexWake_cases σ t pick with ⟨_,same⟩ | ⟨c,_,woken⟩
    · rw [same]
      rfl
    · rw [woken]
      exact wake_ended σ c
  | malloc =>
    simp only [threadStartup,here]
    exact ⟨_,if_pos trivial,rfl,by simp [startupWork]⟩
  | mmap =>
    simp only [threadStartup,here]
    exact ⟨_,if_pos trivial,rfl,by simp [startupWork]⟩
  | _ =>
    simp only [threadStartup,here]
    try split
    all_goals exact ⟨_,rfl,rfl,by simp [startupWork]⟩

/-- A thread goes on to its exit. -/
theorem thread_goes (prepared : Prepared σ) (within : Within clients threads σ)
    (behind : σ.startup t ≠ .running ∧ σ.startup t ≠ .exited) : Goes σ (budget clients threads σ) := by
  have member : t ∈ threads := by
    by_contra out
    exact behind.1 (within.running t out)
  obtain ⟨σ',ran,ended,less⟩ := startup_descends behind 0
  have done : step σ (.startup t ⟨true,0⟩) = some σ' := by rw [step,prepared.unended]; exact ran
  have orderly : Orderly σ (.startup t ⟨true,0⟩) := rfl
  refine goes_of_less prepared within orderly done rfl (Finset.empty_subset _) (ended.trans prepared.unended)
    (fun u d asleep => ?_)
    (budget_thread (fun c => ?_) (fun u other => (threadStartup_others ran other).2) member less)
  · rcases startup_wakes ran d with same | ⟨v,wants,_,awake⟩
    · exact same ▸ asleep
    · rw [awake] at asleep
      exact asleep.elim
  · rcases startup_wakes ran c with same | ⟨v,wants,asleep,awake⟩
    · rw [same]
    · rw [asleep,awake]
      simp [pcWork]

/-- A start routine returns that a join waits for. -/
theorem finish_goes (prepared : Prepared σ) (within : Within clients threads σ) {wants : Bool} {pc : JoinPc}
    (here : σ.client c = .join t wants pc) (running : σ.startup t = .running) : Goes σ (budget clients threads σ) := by
  have member : t ∈ threads := within.joined c t wants pc here
  have done : step σ (.finish t 0) = some (σ.startupAt t (.storeRetval 0)) := by
    rw [step,prepared.unended]
    exact if_pos running
  have orderly : Orderly σ (.finish t 0) := ⟨c,wants,pc,here⟩
  refine goes_of_less prepared within orderly done rfl (Finset.singleton_subset_iff.mpr member) prepared.unended
    (fun _ _ => id)
    (budget_thread (fun _ => le_rfl) (fun u other => Function.update_of_ne other _ _) member ?_)
  rw [startupAt_self,running]
  simp [startupWork]

/-- Once the thread has exited, every step of a join brings it closer to its end. -/
theorem join_descends (prepared : Prepared σ) {wants : Bool} {pc : JoinPc} (here : σ.client c = .join t wants pc)
    (exited : σ.startup t = .exited) :
    ∃ now, (mythreadJoin σ c t wants pc).client = Function.update σ.client c now ∧
      (mythreadJoin σ c t wants pc).ended = σ.ended ∧ pcWork now < pcWork (σ.client c) ∧ ∀ u, ¬ Asleep u now := by
  have hasWoken : HasWoken (σ.startup t) := by rw [exited]; trivial
  have finished := finished_of_hasWoken prepared.owned hasWoken
  rw [here]
  cases pc with
  | asleep => exact absurd (here ▸ rfl) ((prepared.wakeable t).left hasWoken c)
  | loadFinished =>
    rw [mythreadJoin,if_pos finished]
    cases wants <;> exact ⟨_,rfl,rfl,by simp [pcWork],fun u => id⟩
  | futexWait =>
    rw [mythreadJoin,if_pos finished]
    exact ⟨_,rfl,rfl,by simp [pcWork],fun u => id⟩
  | loadDetached =>
    rw [mythreadJoin]
    split <;> exact ⟨_,rfl,rfl,by simp [pcWork],fun u => id⟩
  | exchange stored =>
    rw [mythreadJoin]
    split <;> exact ⟨_,rfl,rfl,by simp [pcWork],fun u => id⟩
  | _ => exact ⟨_,rfl,rfl,by simp [pcWork],fun u => id⟩

theorem detach_descends {pc : DetachPc} (here : σ.client c = .detach t pc) :
    ∃ now, (mythreadDetach σ c t pc).client = Function.update σ.client c now ∧
      (mythreadDetach σ c t pc).ended = σ.ended ∧ pcWork now < pcWork (σ.client c) ∧ ∀ u, ¬ Asleep u now := by
  rw [here]
  cases pc with
  | loadFinished =>
    rw [mythreadDetach]
    split <;> exact ⟨_,rfl,rfl,by simp [pcWork],fun u => id⟩
  | compareExchange =>
    rw [mythreadDetach]
    split <;> exact ⟨_,rfl,rfl,by simp [pcWork],fun u => id⟩
  | _ => exact ⟨_,rfl,rfl,by simp [pcWork],fun u => id⟩

/-- A call goes on, and the client does not go to sleep. -/
theorem goes_of_client (prepared : Prepared σ) (within : Within clients threads σ) {now : ClientPc}
    (active : σ.client c ≠ .idle) (awake : ∀ u, ¬ Asleep u (σ.client c)) (done : step σ (.client c) = some σ')
    (client : σ'.client = Function.update σ.client c now) (startup : σ'.startup = σ.startup)
    (ended : σ'.ended = σ.ended) (less : pcWork now < pcWork (σ.client c)) (stays : ∀ u, ¬ Asleep u now) :
    Goes σ (budget clients threads σ) := by
  have member : c ∈ clients := by
    by_contra out
    exact active (within.idle c out)
  have orderly : Orderly σ (.client c) := awake
  refine goes_of_less prepared within orderly done rfl (Finset.empty_subset _) (ended.trans prepared.unended)
    (fun u d asleep => ?_) (budget_client client startup member less)
  by_cases isC : d = c
  · rw [client,isC,Function.update_self] at asleep
    exact absurd asleep (stays u)
  · rwa [client,Function.update_of_ne isC] at asleep

theorem client_goes (prepared : Prepared σ) (within : Within clients threads σ)
    (settled : ∀ t, σ.startup t = .running ∨ σ.startup t = .exited) (active : σ.client c ≠ .idle) :
    Goes σ (budget clients threads σ) := by
  cases here : σ.client c with
  | idle => exact absurd here active
  | join t wants pc =>
    rcases settled t with running | exited
    · exact finish_goes prepared within here running
    have awake : ∀ u, ¬ Asleep u (σ.client c) := by
      intro u asleep
      have isT : u = t := by
        rw [here] at asleep
        cases pc <;> first | exact asleep.symm | exact asleep.elim
      exact (prepared.wakeable t).left (by rw [exited]; trivial) c (isT ▸ asleep)
    have done : step σ (.client c) = some (mythreadJoin σ c t wants pc) := by
      rw [step,prepared.unended]
      simp [here]
    obtain ⟨now,client,ended,less,stays⟩ := join_descends prepared here exited
    exact goes_of_client prepared within active awake done client (mythreadJoin_others here).2.1 ended less stays
  | detach t pc =>
    have awake : ∀ u, ¬ Asleep u (σ.client c) := fun u => by rw [here]; exact id
    have done : step σ (.client c) = some (mythreadDetach σ c t pc) := by
      rw [step,prepared.unended]
      simp [here]
    obtain ⟨now,client,ended,less,stays⟩ := detach_descends here
    exact goes_of_client prepared within active awake done client mythreadDetach_others.2.1 ended less stays

/-- As long as the program is not at rest, some step leaves less to do. -/
theorem descends (n : Nat) (σ : State) (measured : Measured n σ) : AtRest σ ∨ Goes σ n := by
  obtain ⟨prepared,clients,threads,within,rfl⟩ := measured
  by_cases settled : ∀ t, σ.startup t = .running ∨ σ.startup t = .exited
  case neg =>
    obtain ⟨t,behind⟩ := not_forall.mp settled
    exact .inr (thread_goes prepared within (not_or.mp behind))
  by_cases idle : ∀ c, σ.client c = .idle
  case neg =>
    obtain ⟨c,active⟩ := not_forall.mp idle
    exact .inr (client_goes prepared within settled active)
  exact .inl ⟨idle,settled⟩

theorem start_within : Within ∅ ∅ start where
  idle _ _ := rfl
  running _ _ := rfl
  joined _ _ _ _ here := by cases here

/-- The program comes to rest, without another call and without a wake that has no
    reason, exactly when nobody has been left asleep and no two joiners sleep on one
    thread. -/
theorem comes_to_rest_iff {acts : List Act} (ran : Transition.run step start acts = some σ)
    (unended : σ.ended = false) :
    (∃ more σ', Transition.run step σ more = some σ' ∧ Along step Orderly σ more ∧ AtRest σ') ↔
      ∀ t, OneSleeper t σ ∧ (HasWoken (σ.startup t) → ∀ c, ¬ Asleep t (σ.client c)) := by
  have keeps : ∀ τ a τ', (Owned τ ∧ (beds τ).Listed ∧ ∃ clients threads, Within clients threads τ) →
      step τ a = some τ' → Owned τ' ∧ (beds τ').Listed ∧ ∃ clients threads, Within clients threads τ' := by
    rintro τ a τ' ⟨owned,listed,clients,threads,within⟩ done
    exact ⟨owned_step owned done,listed_step listed done,_,_,within_step within done⟩
  obtain ⟨owned,listed,clients,threads,within⟩ :=
    Transition.run_invariant keeps ran ⟨start_owned,Beds.listed_empty,∅,∅,start_within⟩
  constructor
  · rintro ⟨more,σ',goes,orderly,rest⟩ t
    obtain ⟨single,left⟩ := wakeable_of_run owned listed goes orderly (rest.wakeable t)
    exact ⟨single,left⟩
  · intro wakeable
    have prepared : Prepared σ := ⟨owned,listed,fun t => ⟨(wakeable t).1,(wakeable t).2⟩,unended⟩
    exact Transition.reaches descends ⟨prepared,clients,threads,within,rfl⟩

/-- Two joins that sleep on one thread do not both return, unless one of them wakes
    without a reason. -/
theorem comes_to_rest_iff_twoJoiners : ¬ ∃ more σ', Transition.run step (after (twoJoiners.take 8)) more = some σ' ∧
    Along step Orderly (after (twoJoiners.take 8)) more ∧ AtRest σ' := by
  have ran : Transition.run step start (twoJoiners.take 8) = some (after (twoJoiners.take 8)) := rfl
  rw [comes_to_rest_iff ran rfl]
  intro wakeable
  have same : 1 = 2 := (wakeable 0).1 1 2 rfl rfl
  exact absurd same (by decide)

end Os5Sem.WoReaperRest

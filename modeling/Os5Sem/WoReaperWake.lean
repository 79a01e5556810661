import Os5Sem.WoReaperOwnership
import Os5Sem.SleepQueues

/-!
The joiners that sleep until a thread has finished, in the library without a
reaper. Here any number of joiners can wait for a thread, and `futex_wake` wakes
one of them. So a joiner is left asleep when two of them sleep at the wake
(`left_asleep`), and only then (`no_sleeper_iff_along`).
-/
namespace Os5Sem.WoReaperWake
open Os5Sem.MyThread (Call Result Return)
open Os5Sem.WoReaper Os5Sem.WoReaperOwnership
open Os5Sem.SleepQueues
open Os5Sem.Transition (Along Throughout)

variable {σ σ' : State} {t c : Nat}

/-- The client sleeps on the thread's `finished`. -/
def Asleep (t : Nat) : ClientPc → Prop
  | .join u _ .asleep => u = t
  | _ => False

/-- The thread has executed its `futex_wake`. -/
def HasWoken : StartupPc → Prop
  | .running | .storeRetval _ | .storeFinished | .futexWake => False
  | _ => True

/-- The thread executes its `futex_wake`. -/
def Wakes (t : Nat) (σ : State) : Act → Prop
  | .startup u _ => u = t ∧ σ.startup t = .futexWake
  | _ => False

/-! ### The beds -/

/-- The thread on whose `finished` a client sleeps. -/
def bed : ClientPc → Option Nat
  | .join t _ .asleep => some t
  | _ => none

theorem asleep_iff {pc : ClientPc} : Asleep t pc ↔ bed pc = some t := by
  cases pc with
  | join u wants pc => cases pc <;> simp [Asleep,bed]
  | _ => simp [Asleep,bed]

def beds (σ : State) : Beds Nat Nat := ⟨σ.sleepers,fun c => bed (σ.client c)⟩

theorem beds_clientAt {τ : State} {now : ClientPc} (same : beds τ = beds σ) (clients : τ.client = σ.client)
    (awake : bed (σ.client c) = none) (stays : bed now = none) : beds (τ.clientAt c now) = beds σ := by
  refine congrArg₂ Beds.mk (congrArg Beds.sleepers same) (funext fun d => ?_)
  by_cases isC : d = c
  · subst isC
    simp [State.clientAt,awake,stays]
  · simp [State.clientAt,clients,isC]

theorem beds_wake (σ : State) (c : Nat) : beds (σ.wake c) = (beds σ).wake c := by
  cases here : bed (σ.client c) with
  | none =>
    rw [Beds.wake_awake (q := beds σ) here,State.wake]
    split
    · rename_i asleep
      rw [asleep] at here
      cases here
    · rfl
  | some t =>
    rw [Beds.wake_asleep (q := beds σ) here]
    obtain ⟨wants,asleep⟩ : ∃ wants, σ.client c = .join t wants .asleep := by
      cases is : σ.client c with
      | join u wants pc => cases pc <;> rw [is] at here <;> cases here; exact ⟨wants,rfl⟩
      | _ => rw [is] at here; cases here
    rw [State.wake,asleep]
    refine congrArg (Beds.mk _) (funext fun d => ?_)
    by_cases isC : d = c
    · simp [State.clientAt,isC,bed]
    · simp [State.clientAt,isC,beds]

/-- `futex_wake` wakes one of the sleepers, when there are any. -/
theorem futexWake_cases (σ : State) (t pick : Nat) :
    σ.sleepers t = [] ∧ σ.futexWake t pick = σ ∨ ∃ c ∈ σ.sleepers t, σ.futexWake t pick = σ.wake c := by
  rw [State.futexWake]
  split
  · rename_i none
    refine .inl ⟨List.length_eq_zero_iff.mp (Nat.eq_zero_of_not_pos fun some => ?_),rfl⟩
    rw [List.getElem?_eq_getElem (Nat.mod_lt pick some)] at none
    cases none
  · rename_i c picked
    exact .inr ⟨c,List.mem_of_getElem? picked,rfl⟩

/-- What a step does to the beds. -/
inductive Turn (σ : State) : Act → Beds Nat Nat → Prop
  | stays {a : Act} : Turn σ a (beds σ)
  | sleeps {c t : Nat} (awake : bed (σ.client c) = none) (unfinished : (σ.block t).finished = false) :
    Turn σ (.client c) ((beds σ).sleep c t)
  | wakes {a : Act} (c : Nat) : Turn σ a ((beds σ).wake c)

theorem turn_join {wants : Bool} {pc : JoinPc} (here : σ.client c = .join t wants pc) :
    Turn σ (.client c) (beds (mythreadJoin σ c t wants pc)) := by
  have awake : pc ≠ .asleep → bed (σ.client c) = none := by
    intro other
    rw [here]
    cases pc <;> first | rfl | exact absurd rfl other
  have goes : ∀ {τ : State} {now : ClientPc}, beds τ = beds σ → τ.client = σ.client → pc ≠ .asleep → bed now = none →
      Turn σ (.client c) (beds (τ.clientAt c now)) := by
    intro τ now same clients other stays
    rw [beds_clientAt same clients (awake other) stays]
    exact .stays
  cases pc with
  | loadDetached => rw [mythreadJoin]; split <;> exact goes rfl rfl (by simp) rfl
  | loadFinished =>
    rw [mythreadJoin]
    split
    · split <;> exact goes rfl rfl (by simp) rfl
    · exact goes rfl rfl (by simp) rfl
  | futexWait =>
    rw [mythreadJoin]
    split
    · exact goes rfl rfl (by simp) rfl
    · rename_i unfinished
      have sleeps := Turn.sleeps (σ := σ) (c := c) (t := t) (awake (by simp)) (eq_false_of_ne_true unfinished)
      have same : beds { σ.clientAt c (.join t wants .asleep) with
          sleepers := Function.update σ.sleepers t (σ.sleepers t ++ [c]) } = (beds σ).sleep c t := by
        refine congrArg (Beds.mk _) (funext fun d => ?_)
        by_cases isC : d = c
        · simp [State.clientAt,isC,bed]
        · simp [State.clientAt,isC,beds]
      exact same ▸ sleeps
  | asleep =>
    rw [mythreadJoin,beds_wake]
    exact .wakes c
  | loadRetval => exact goes rfl rfl (by simp) rfl
  | exchange stored => rw [mythreadJoin]; split <;> exact goes rfl rfl (by simp) rfl
  | destroyStack stored => exact goes rfl rfl (by simp) rfl
  | free stored => exact goes rfl rfl (by simp) rfl

theorem beds_detach {pc : DetachPc} (here : σ.client c = .detach t pc) : beds (mythreadDetach σ c t pc) = beds σ := by
  have awake : bed (σ.client c) = none := by rw [here]; rfl
  cases pc with
  | storeDetached => exact beds_clientAt rfl rfl awake rfl
  | loadFinished => rw [mythreadDetach]; split <;> exact beds_clientAt rfl rfl awake rfl
  | compareExchange => rw [mythreadDetach]; split <;> exact beds_clientAt rfl rfl awake rfl
  | destroyStack => exact beds_clientAt rfl rfl awake rfl
  | free => exact beds_clientAt rfl rfl awake rfl

theorem turn_startup {env : Env} (done : threadStartup σ t env = some σ') : Turn σ (.startup t env) (beds σ') := by
  cases here : σ.startup t <;> simp only [threadStartup,here] at done <;> try split at done
  all_goals cases done
  case futexWake =>
    rcases futexWake_cases σ t env.pick with ⟨_,same⟩ | ⟨c,_,woken⟩
    · rw [same]
      exact .stays
    · rw [woken]
      show Turn σ _ (beds (σ.wake c))
      rw [beds_wake]
      exact .wakes c
  all_goals exact .stays

theorem turn_of_step {a : Act} (done : step σ a = some σ') : Turn σ a (beds σ') := by
  cases step_cases done with
  | finish u retval running => exact .stays
  | startup done => exact turn_startup done
  | call c call top =>
    have same : beds (σ.clientAt c (entry call)) = beds σ :=
      beds_clientAt rfl rfl (by rw [top]; rfl) (by cases call <;> rfl)
    exact same ▸ .stays
  | join here => exact turn_join here
  | detach here =>
    rw [beds_detach here]
    exact .stays

theorem listed_step {a : Act} (listed : (beds σ).Listed) (done : step σ a = some σ') : (beds σ').Listed := by
  generalize is : beds σ' = q
  have turn := is ▸ turn_of_step done
  cases turn with
  | stays => exact listed
  | sleeps awake unfinished => exact listed.sleep awake _
  | wakes c => exact listed.wake c

/-- Who sleeps on a thread after a step has slept on it before, or has found it not
    finished. -/
theorem asleep_of_step {a : Act} (done : step σ a = some σ') (asleep : Asleep t (σ'.client c)) :
    Asleep t (σ.client c) ∨ (σ.block t).finished = false := by
  have here : (beds σ').bed c = some t := asleep_iff.mp asleep
  generalize is : beds σ' = q at here
  have turn := is ▸ turn_of_step done
  cases turn with
  | stays => exact .inl (asleep_iff.mpr here)
  | @sleeps d u awake unfinished =>
    by_cases isD : c = d
    · right
      have : u = t := by simpa [Beds.sleep,isD] using here
      exact this ▸ unfinished
    · exact .inl (asleep_iff.mpr (by simpa [Beds.sleep,isD,beds] using here))
  | wakes d => exact .inl (asleep_iff.mpr (Beds.bed_of_wake here))

/-! ### The wake -/

theorem finished_of_hasWoken (owned : Owned σ) (woken : HasWoken (σ.startup t)) : (σ.block t).finished = true := by
  have knows := (owned t).startup
  cases here : σ.startup t <;> rw [here] at knows woken <;> first | exact woken.elim | exact knows.1

theorem hasWoken_startup {env : Env} (done : threadStartup σ t env = some σ') :
    HasWoken (σ'.startup t) ↔ HasWoken (σ.startup t) ∨ Wakes t σ (.startup t env) := by
  cases here : σ.startup t <;> simp only [threadStartup,here] at done <;> try split at done
  all_goals cases done
  case malloc.isFalse => exact iff_of_true (by rw [here]; trivial) (.inl trivial)
  case mmap.isFalse => exact iff_of_true (by rw [here]; trivial) (.inl trivial)
  all_goals
    rw [startupAt_self]
    simp [HasWoken,Wakes,here]

theorem hasWoken_step {a : Act} (owned : Owned σ) (done : step σ a = some σ') :
    HasWoken (σ'.startup t) ↔ HasWoken (σ.startup t) ∨ Wakes t σ a := by
  by_cases own : ∃ env, a = .startup t env
  · obtain ⟨env,rfl⟩ := own
    cases step_cases done with
    | startup done => exact hasWoken_startup done
  · have other : ∀ env, a ≠ .startup t env := fun env isOwn => own ⟨env,isOwn⟩
    have noWake : ¬ Wakes t σ a := by
      cases a with
      | startup u env => exact fun ⟨isT,_⟩ => other env (by rw [isT])
      | _ => exact id
    rw [or_iff_left noWake]
    rcases (step_foreign owned done other).2 with same | ⟨retval,was,now⟩
    · rw [same]
    · rw [was,now]
      exact .rfl

/-- At most one client sleeps on the thread. -/
def OneSleeper (t : Nat) (σ : State) : Prop := ∀ c d, Asleep t (σ.client c) → Asleep t (σ.client d) → c = d

/-- The wake leaves nobody asleep exactly when it finds no two sleepers. -/
theorem nobody_left_iff (listed : (beds σ).Listed) (pick : Nat) :
    (∀ d, ¬ Asleep t ((σ.futexWake t pick).client d)) ↔ OneSleeper t σ := by
  rcases futexWake_cases σ t pick with ⟨none,same⟩ | ⟨c,sleeper,woken⟩
  · have nobody : ∀ d, ¬ Asleep t (σ.client d) := fun d asleep =>
      listed.nobody.mp none d (asleep_iff.mp asleep)
    rw [same]
    exact iff_of_true nobody fun d _ asleep => absurd asleep (nobody d)
  · have asleep : (beds σ).bed c = some t := (listed.mem t c).mp sleeper
    have others : ∀ d, Asleep t ((σ.wake c).client d) ↔ d ≠ c ∧ Asleep t (σ.client d) := by
      intro d
      have now : bed ((σ.wake c).client d) = Function.update (beds σ).bed c none d :=
        congrFun (congrArg Beds.bed ((beds_wake σ c).trans (Beds.wake_asleep asleep))) d
      rw [asleep_iff,asleep_iff,now]
      by_cases isC : d = c
      · simp [isC]
      · simp [isC,beds]
    simp only [woken,others,not_and]
    constructor
    · intro left d e one two
      have isC : ∀ f, Asleep t (σ.client f) → f = c := fun f asleep => by
        by_contra other
        exact left f other asleep
      rw [isC d one,isC e two]
    · intro single d other one
      exact other (single d c one (asleep_iff.mpr asleep))

/-- After the thread's wake nobody sleeps on it. -/
def NobodyLeft (t : Nat) (σ : State) : Prop := HasWoken (σ.startup t) → ∀ c, ¬ Asleep t (σ.client c)

theorem nobodyLeft_step {a : Act} (owned : Owned σ) (listed : (beds σ).Listed) (before : NobodyLeft t σ)
    (done : step σ a = some σ') : NobodyLeft t σ' ↔ (Wakes t σ a → OneSleeper t σ) := by
  by_cases wakes : Wakes t σ a
  · have woken := (hasWoken_step owned done).mpr (.inr wakes)
    cases step_cases done with
    | @startup u env _ done =>
      obtain ⟨rfl,here⟩ := wakes
      simp only [threadStartup,here] at done
      cases done
      have nobody := nobody_left_iff (t := u) listed env.pick
      exact ⟨fun left _ => nobody.mp (left woken),fun single _ => nobody.mpr (single ⟨rfl,here⟩)⟩
    | _ => exact wakes.elim
  · refine iff_of_true (fun woken c asleep => ?_) fun now => absurd now wakes
    have already := ((hasWoken_step owned done).mp woken).resolve_right wakes
    rcases asleep_of_step done asleep with slept | unfinished
    · exact before already c slept
    · rw [finished_of_hasWoken owned already] at unfinished
      cases unfinished

/-- Nobody is left asleep on a thread after its wake, in all of a run, exactly when
    the wake never finds two sleepers. -/
theorem no_sleeper_iff_along {acts : List Act} (ran : Transition.run step start acts = some σ) :
    Throughout step (fun σ => HasWoken (σ.startup t) → ∀ c, ¬ Asleep t (σ.client c)) start acts ↔
      Along step (fun σ a => Wakes t σ a → OneSleeper t σ) start acts := by
  refine Transition.throughout_iff_along (I := fun σ => Owned σ ∧ (beds σ).Listed) (P := NobodyLeft t)
    (Q := fun _ => True) (fun _ _ _ both done => ?_) (fun _ _ _ _ => id) (fun _ _ _ both before _ done => ?_) ran
    ⟨start_owned,Beds.listed_empty⟩ trivial False.elim
  · exact ⟨owned_step both.1 done,listed_step both.2 done⟩
  · exact nobodyLeft_step both.1 both.2 before done

/-- Two joins sleep on the thread 0, which finishes and wakes one of them. -/
def twoJoiners : List Act :=
  .call 1 (.join 0 false) :: List.replicate 3 (.client 1) ++ .call 2 (.join 0 false) :: List.replicate 3 (.client 2) ++
    .finish 0 7 :: List.replicate 3 (.startup 0 ⟨true,0⟩)

theorem left_asleep :
    (after twoJoiners).startup 0 = .compareExchange ∧ (after twoJoiners).client 2 = .join 0 false .asleep ∧
      ¬ Throughout step (fun σ => HasWoken (σ.startup 0) → ∀ c, ¬ Asleep 0 (σ.client c)) start twoJoiners := by
  have woken : (after twoJoiners).startup 0 = .compareExchange := by decide
  have asleep : (after twoJoiners).client 2 = .join 0 false .asleep := by decide
  refine ⟨woken,asleep,fun holds => ?_⟩
  have nobody := holds twoJoiners [] (after twoJoiners) (List.append_nil _).symm rfl
  exact nobody (by rw [woken]; trivial) 2 (by rw [asleep]; rfl)

/-- The same with one join. -/
def oneJoiner : List Act :=
  .call 1 (.join 0 false) :: List.replicate 3 (.client 1) ++ .finish 0 7 :: List.replicate 3 (.startup 0 ⟨true,0⟩)

theorem no_sleeper_iff_along_oneJoiner :
    Throughout step (fun σ => HasWoken (σ.startup 0) → ∀ c, ¬ Asleep 0 (σ.client c)) start oneJoiner ↔
      Along step (fun σ a => Wakes 0 σ a → OneSleeper 0 σ) start oneJoiner :=
  no_sleeper_iff_along (rfl : Transition.run step start oneJoiner = some (after oneJoiner))

end Os5Sem.WoReaperWake

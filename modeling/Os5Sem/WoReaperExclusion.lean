import Os5Sem.WoReaperLifetime

/-!
Joins and detaches of one thread in the library without a reaper. A join looks at
`detached` once, before it waits, and what it returns does not depend on who has
taken the flag `joined`; a detach returns 0 whatever it finds. So two joins, or a
join and a detach, can both return 0 (`both_return_zero`), and do not where nobody
joins or detaches a thread that has been joined (`exclusive_along`).
-/
namespace Os5Sem.WoReaperExclusion
open Os5Sem.MyThread (Call Result Return)
open Os5Sem.WoReaper Os5Sem.WoReaperOwnership Os5Sem.WoReaperLifetime
open Os5Sem.Transition (Along Throughout)

/-! ### Admission to a thread -/

/-- What a client has become of a thread: a joiner that found it not detached, or
    a detacher that has set `detached`. -/
inductive Kind
  | joiner
  | detacher
deriving DecidableEq

/-- Whether the thread is detached, what each client has become of it and has not
    ceased to be, and who has returned 0, in order. -/
@[ext] structure Admission where
  detached : Bool
  client : Nat → Option Kind
  returned : List Kind

namespace Admission

/-- Somebody joins the thread, or has joined it. -/
def Joined (v : Admission) : Prop := (∃ c, v.client c = some .joiner) ∨ .joiner ∈ v.returned

/-- A client begins to join or to detach, or ceases to; `enters` tells whether it
    begins. -/
inductive Turn (v : Admission) (enters : Prop) : Admission → Prop
  | stays : Turn v enters v
  | joins {c : Nat} (now : enters) (free : v.detached = false) :
    Turn v enters { v with client := Function.update v.client c (some .joiner) }
  | detaches {c : Nat} (now : enters) :
    Turn v enters { v with client := Function.update v.client c (some .detacher), detached := true }
  | returns (c : Nat) :
    Turn v enters
      { v with client := Function.update v.client c none, returned := v.returned ++ (v.client c).toList }

/-- The thread is joined at most once, and not when it is detached. -/
structure Sound (v : Admission) : Prop where
  once : v.returned.count .joiner ≤ 1
  alone : ∀ c d, v.client c = some .joiner → v.client d = some .joiner → c = d
  pending : ∀ c, v.client c = some .joiner → .joiner ∉ v.returned
  apart : v.detached = true → ¬ v.Joined
  stored : ∀ c, v.client c = some .detacher → v.detached = true
  before : .detacher ∈ v.returned → v.detached = true

/-- At most one join has returned 0, and not both a join and a detach. -/
def Exclusive (v : Admission) : Prop :=
  v.returned.count .joiner ≤ 1 ∧ ¬ (.joiner ∈ v.returned ∧ .detacher ∈ v.returned)

instance {v : Admission} : Decidable v.Exclusive := by unfold Exclusive; infer_instance

variable {v v' : Admission} {enters : Prop}

theorem Sound.exclusive (sound : v.Sound) : v.Exclusive := by
  constructor
  · exact sound.once
  · rintro ⟨joined,detached⟩
    exact sound.apart (sound.before detached) (.inr joined)

theorem Sound.joins {c : Nat} (sound : v.Sound) (free : v.detached = false) (unjoined : ¬ v.Joined) :
    Sound { v with client := Function.update v.client c (some .joiner) } := by
  have only : ∀ d, Function.update v.client c (some .joiner) d = some .joiner → d = c := by
    intro d joins
    by_contra other
    rw [Function.update_of_ne other] at joins
    exact unjoined (.inl ⟨d,joins⟩)
  constructor
  case once => exact sound.once
  case alone => exact fun d e isD isE => (only d isD).trans (only e isE).symm
  case pending => exact fun _ _ joined => unjoined (.inr joined)
  case apart => exact fun detached => absurd (free.symm.trans detached) nofun
  case stored =>
    intro d detacher
    by_cases isC : d = c
    · subst isC; simp at detacher
    · exact sound.stored d (by simpa [isC] using detacher)
  case before => exact sound.before

theorem Sound.detaches {c : Nat} (sound : v.Sound) (unjoined : ¬ v.Joined) :
    Sound { v with client := Function.update v.client c (some .detacher), detached := true } := by
  have nobody : ∀ d, Function.update v.client c (some .detacher) d ≠ some .joiner := by
    intro d joins
    by_cases isC : d = c
    · subst isC; simp at joins
    · exact unjoined (.inl ⟨d,by simpa [isC] using joins⟩)
  constructor
  case once => exact sound.once
  case alone => exact fun d _ isD => absurd isD (nobody d)
  case pending => exact fun d isD => absurd isD (nobody d)
  case apart =>
    rintro _ (⟨d,isD⟩ | joined)
    · exact nobody d isD
    · exact unjoined (.inr joined)
  case stored => exact fun _ _ => rfl
  case before => exact fun _ => rfl

theorem Sound.returns (sound : v.Sound) (c : Nat) :
    Sound { v with client := Function.update v.client c none, returned := v.returned ++ (v.client c).toList } := by
  have before : ∀ {d kind}, Function.update v.client c none d = some kind → d ≠ c ∧ v.client d = some kind := by
    intro d kind is
    by_cases isC : d = c
    · subst isC; simp at is
    · exact ⟨isC,by simpa [isC] using is⟩
  have member : ∀ {kind}, kind ∈ v.returned ++ (v.client c).toList → kind ∈ v.returned ∨ v.client c = some kind := by
    intro kind within
    simpa using within
  constructor
  case once =>
    by_cases joins : v.client c = some .joiner
    · have none := List.count_eq_zero.mpr (sound.pending c joins)
      rw [joins,List.count_append,none]
      decide
    · have nothing : (v.client c).toList.count .joiner = 0 := List.count_eq_zero.mpr (by simpa using joins)
      rw [List.count_append,nothing]
      exact sound.once
  case alone => exact fun d e isD isE => sound.alone d e (before isD).2 (before isE).2
  case pending =>
    intro d isD within
    obtain ⟨other,joins⟩ := before isD
    rcases member within with earlier | own
    · exact sound.pending d joins earlier
    · exact other (sound.alone d c joins own)
  case apart =>
    rintro detached (⟨d,isD⟩ | within)
    · exact sound.apart detached (.inl ⟨d,(before isD).2⟩)
    · rcases member within with earlier | own
      · exact sound.apart detached (.inr earlier)
      · exact sound.apart detached (.inl ⟨c,own⟩)
  case stored => exact fun d isD => sound.stored d (before isD).2
  case before =>
    intro within
    rcases member within with earlier | own
    · exact sound.before earlier
    · exact sound.stored c own

theorem Turn.sound (turn : v.Turn enters v') (sound : v.Sound) (unjoined : ¬ (enters ∧ v.Joined)) : v'.Sound := by
  cases turn with
  | stays => exact sound
  | joins now free => exact sound.joins free fun joined => unjoined ⟨now,joined⟩
  | detaches now => exact sound.detaches fun joined => unjoined ⟨now,joined⟩
  | returns c => exact sound.returns c

end Admission

variable {σ σ' τ : State} {t c : Nat}

/-! ### The calls on a thread -/

/-- What a client has become of the thread. -/
def kindOf (t : Nat) : ClientPc → Option Kind
  | .idle => none
  | .join u _ pc => if u = t ∧ pc ≠ .loadDetached then some .joiner else none
  | .detach u pc => if u = t ∧ pc ≠ .storeDetached then some .detacher else none

/-- A call on the thread that has returned 0. -/
def success (t : Nat) : Return → Option Kind
  | ⟨_,.join u _,.ok _⟩ => if u = t then some .joiner else none
  | ⟨_,.detach u,.ok _⟩ => if u = t then some .detacher else none
  | ⟨_,_,.einval⟩ => none

def admission (t : Nat) (σ : State) : Admission :=
  ⟨(σ.block t).detached,fun c => kindOf t (σ.client c),σ.returns.filterMap (success t)⟩

/-- A join finds the thread not detached, or a detach sets `detached`. -/
def Enters (t : Nat) (σ : State) : Act → Prop
  | .client c =>
    match σ.client c with
    | .join u _ .loadDetached => u = t ∧ (σ.block t).detached = false
    | .detach u .storeDetached => u = t
    | _ => False
  | _ => False

@[simp] theorem admission_startupAt (u : Nat) (pc : StartupPc) : admission t (σ.startupAt u pc) = admission t σ := rfl

@[simp] theorem admission_unmap (u : Nat) (r : Releaser) : admission t (σ.unmap u r) = admission t σ := rfl

@[simp] theorem admission_free (u : Nat) (r : Releaser) : admission t (σ.free u r) = admission t σ := rfl

@[simp] theorem admission_take (u : Nat) (r : Releaser) : admission t (σ.take u r) = admission t σ := by
  rw [admission,take_detached]
  rfl

theorem admission_setBlock (u : Nat) (block : Block) :
    admission t (σ.setBlock u block) =
      { admission t σ with detached := if t = u then block.detached else (σ.block t).detached } := by
  by_cases isU : t = u
  · subst isU; simp [admission,State.setBlock]
  · simp [admission,State.setBlock,isU]

theorem admission_clientAt (c : Nat) (pc : ClientPc) :
    admission t (σ.clientAt c pc) =
      { admission t σ with client := Function.update (admission t σ).client c (kindOf t pc) } := by
  refine congrArg (Admission.mk _ · _) (funext fun d => ?_)
  by_cases isC : d = c
  · subst isC; simp [State.clientAt]
  · simp [State.clientAt,admission,isC]

theorem admission_stays {pc : ClientPc} (same : kindOf t pc = kindOf t (σ.client c)) :
    admission t (σ.clientAt c pc) = admission t σ := by
  rw [admission_clientAt,same]
  exact congrArg (Admission.mk _ · _) (Function.update_eq_self c _)

/-- A client that stays what it is makes no turn. -/
theorem turn_stays {now : ClientPc} {enters : Prop} (same : admission t τ = admission t σ)
    (clients : τ.client = σ.client) (kind : kindOf t now = kindOf t (σ.client c)) :
    (admission t σ).Turn enters (admission t (τ.clientAt c now)) := by
  rw [admission_stays (by rw [kind,clients]),same]
  exact .stays

theorem admission_wake (c : Nat) : admission t (σ.wake c) = admission t σ := by
  unfold State.wake
  split
  · rename_i u wants here
    refine @admission_stays σ t c (.join u wants .loadFinished) ?_
    rw [here]
    simp [kindOf]
  · rfl

theorem admission_leave {call : Call} {result : Result} {kind : Option Kind} (is : kindOf t (σ.client c) = kind)
    (reported : success t ⟨c,call,result⟩ = kind) (enters : Prop) :
    (admission t σ).Turn enters (admission t (σ.leave c call result)) := by
  have leaves : admission t (σ.leave c call result) =
      { admission t σ with
        client := Function.update (admission t σ).client c none
        returned := (admission t σ).returned ++ ((admission t σ).client c).toList } := by
    have client := congrArg Admission.client (@admission_clientAt σ t c .idle)
    refine Admission.ext rfl client ?_
    show (σ.returns ++ [Return.mk c call result]).filterMap (success t) =
      σ.returns.filterMap (success t) ++ (kindOf t (σ.client c)).toList
    rw [List.filterMap_append,is,← reported]
    cases here : success t ⟨c,call,result⟩ <;> simp [here]
  rw [leaves]
  exact .returns c

/-! ### What a step does to the admission -/

theorem admission_join {wants : Bool} {u : Nat} {pc : JoinPc} (here : σ.client c = .join u wants pc) :
    (admission t σ).Turn (Enters t σ (.client c)) (admission t (mythreadJoin σ c u wants pc)) := by
  have kind : kindOf t (σ.client c) = if u = t ∧ pc ≠ .loadDetached then some .joiner else none := by rw [here]; rfl
  cases pc with
  | loadDetached =>
    rw [mythreadJoin]
    split
    · exact admission_leave (kind.trans (by simp [success])) rfl _
    · rename_i free
      by_cases isT : u = t
      · subst isT
        rw [admission_clientAt]
        have now : Enters u σ (.client c) := by rw [Enters,here]; exact ⟨rfl,eq_false_of_ne_true free⟩
        simpa [kindOf] using Admission.Turn.joins (v := admission u σ) (c := c) now (eq_false_of_ne_true free)
      · exact turn_stays rfl rfl (by rw [kind]; simp [kindOf,isT])
  | loadFinished =>
    rw [mythreadJoin]
    split
    · split <;> exact turn_stays rfl rfl (by rw [kind]; simp [kindOf])
    · exact turn_stays rfl rfl (by rw [kind]; simp [kindOf])
  | futexWait =>
    rw [mythreadJoin]
    split
    · exact turn_stays rfl rfl (by rw [kind]; simp [kindOf])
    · exact @turn_stays σ { σ with sleepers := _ } t c _ _ rfl rfl (by rw [kind]; simp [kindOf])
  | asleep =>
    rw [mythreadJoin,admission_wake]
    exact .stays
  | loadRetval => exact turn_stays rfl rfl (by rw [kind]; simp [kindOf])
  | exchange stored =>
    rw [mythreadJoin]
    split
    · exact admission_leave kind (by simp [success]) _
    · exact turn_stays (admission_take ..) rfl (by rw [kind]; simp [kindOf])
  | destroyStack stored => exact turn_stays (admission_unmap ..) rfl (by rw [kind]; simp [kindOf])
  | free stored =>
    rw [mythreadJoin,← @admission_free σ t u (.client c)]
    exact @admission_leave (σ.free u (.client c)) _ _ _ _ _ kind (by simp [success]) _

theorem admission_detach {u : Nat} {pc : DetachPc} (here : σ.client c = .detach u pc) :
    (admission t σ).Turn (Enters t σ (.client c)) (admission t (mythreadDetach σ c u pc)) := by
  have kind : kindOf t (σ.client c) = if u = t ∧ pc ≠ .storeDetached then some .detacher else none := by rw [here]; rfl
  cases pc with
  | storeDetached =>
    rw [mythreadDetach]
    by_cases isT : u = t
    · subst isT
      have now : Enters u σ (.client c) := by rw [Enters,here]
      rw [admission_clientAt,admission_setBlock,if_pos rfl]
      simpa [kindOf] using Admission.Turn.detaches (v := admission u σ) (c := c) now
    · refine turn_stays ?_ rfl (by rw [kind]; simp [kindOf,isT])
      rw [admission_setBlock,if_neg (Ne.symm isT)]
      rfl
  | loadFinished =>
    rw [mythreadDetach]
    split
    · exact turn_stays rfl rfl (by rw [kind]; simp [kindOf])
    · exact admission_leave kind (by simp [success]) _
  | compareExchange =>
    rw [mythreadDetach]
    split
    · exact admission_leave kind (by simp [success]) _
    · exact turn_stays (admission_take ..) rfl (by rw [kind]; simp [kindOf])
  | destroyStack => exact turn_stays (admission_unmap ..) rfl (by rw [kind]; simp [kindOf])
  | free =>
    rw [mythreadDetach,← @admission_free σ t u (.client c)]
    exact @admission_leave (σ.free u (.client c)) _ _ _ _ _ kind (by simp [success]) _

/-- A thread's own steps leave the admissions alone. -/
theorem admission_startup {u : Nat} {env : Env} (done : threadStartup σ u env = some σ') :
    admission t σ' = admission t σ := by
  cases here : σ.startup u <;> simp only [threadStartup,here] at done <;> try split at done
  all_goals cases done
  case storeRetval retval => rw [admission_startupAt,admission_setBlock]; split <;> simp_all [admission]
  case storeFinished => rw [admission_startupAt,admission_setBlock]; split <;> simp_all [admission]
  case futexWake =>
    rw [admission_startupAt,State.futexWake]
    split
    · rfl
    · exact admission_wake _
  case compareExchange.isFalse => exact admission_take u .thread
  all_goals rfl

theorem turn_of_step {a : Act} (done : step σ a = some σ') :
    (admission t σ).Turn (Enters t σ a) (admission t σ') := by
  cases step_cases done with
  | finish u retval running => exact .stays
  | startup done =>
    rw [admission_startup done]
    exact .stays
  | call c call top =>
    have same : admission t (σ.clientAt c (entry call)) = admission t σ :=
      admission_stays (by rw [top]; cases call <;> simp [entry,kindOf])
    show (admission t σ).Turn _ (admission t (σ.clientAt c (entry call)))
    rw [same]
    exact .stays
  | join here => exact admission_join here
  | detach here => exact admission_detach here

/-- Where nobody joins or detaches a thread after it has been joined, at most one
    join of it returns 0, and not both a join and a detach. -/
theorem exclusive_along {acts : List Act} (along : Along step (fun σ a => ¬ (Enters t σ a ∧ (admission t σ).Joined))
      start acts) : Throughout step (fun σ => (admission t σ).Exclusive) start acts := by
  have sound : (admission t start).Sound := ⟨Nat.zero_le 1,nofun,nofun,nofun,nofun,nofun⟩
  have kept := Transition.throughout_of_along (P := fun σ => (admission t σ).Sound)
    (fun _ _ _ sound unjoined done => (turn_of_step done).sound sound unjoined) sound along
  exact Transition.throughout_imp (fun _ sound => sound.exclusive) kept

/-- Two joins find the thread 0 not detached, and wait for it. -/
def joinedTwice : List Act :=
  [.call 1 (.join 0 false),.client 1,.call 2 (.join 0 false),.client 2,.finish 0 7] ++
    List.replicate 2 (.startup 0 ⟨true,0⟩) ++ [.client 1,.client 2,.client 1,.client 2,.client 1,.client 1]

/-- The thread 0 is detached while a join of it waits. -/
def detachedWhileJoined : List Act :=
  [.call 1 (.join 0 false),.client 1,.call 2 (.detach 0),.client 2,.client 2,.finish 0 7] ++
    List.replicate 2 (.startup 0 ⟨true,0⟩) ++ List.replicate 4 (.client 1)

theorem both_return_zero :
    ((after joinedTwice).returns = [⟨2,.join 0 false,.ok none⟩,⟨1,.join 0 false,.ok none⟩] ∧
      ¬ Throughout step (fun σ => (admission 0 σ).Exclusive) start joinedTwice) ∧
    (after detachedWhileJoined).returns = [⟨2,.detach 0,.ok none⟩,⟨1,.join 0 false,.ok none⟩] ∧
      ¬ Throughout step (fun σ => (admission 0 σ).Exclusive) start detachedWhileJoined := by
  refine ⟨⟨by decide,fun holds => ?_⟩,by decide,fun holds => ?_⟩
  · exact absurd (holds joinedTwice [] (after joinedTwice) (List.append_nil _).symm rfl) (by decide)
  · exact absurd (holds detachedWhileJoined [] (after detachedWhileJoined) (List.append_nil _).symm rfl) (by decide)

/-- The thread 0 is detached, and then a join is refused. -/
def detachedThenJoined : List Act :=
  [.call 1 (.detach 0),.client 1,.client 1,.call 2 (.join 0 true),.client 2]

theorem exclusive_along_refused :
    Throughout step (fun σ => (admission 0 σ).Exclusive) start detachedThenJoined := by
  refine exclusive_along ⟨fun meets => meets.1,fun _ taken => ?_⟩
  cases taken
  refine ⟨?_,fun _ taken => ?_⟩
  · rintro ⟨_,⟨d,joins⟩ | joined⟩
    · by_cases isOne : d = 1
      · subst isOne; cases joins
      · simp [isOne,admission,start,kindOf,State.clientAt] at joins
    · cases joined
  cases taken
  refine ⟨fun meets => meets.1,fun _ taken => ?_⟩
  cases taken
  refine ⟨fun meets => meets.1,fun _ taken => ?_⟩
  cases taken
  exact ⟨fun meets => absurd meets.1.2 (by decide),fun _ _ => trivial⟩

end Os5Sem.WoReaperExclusion

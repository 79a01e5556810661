import Mathlib.Logic.Relation

/-!
Machines whose actions are partial functions on states: the runs of a schedule,
what every step of a run preserves, runs whose steps all meet a condition, and
what the moves of an abstract relation preserve.
-/
namespace Os5Sem.Transition
universe u v w

variable {State : Type u} {Act : Type v}

/-- The state after all actions of a schedule; `none` when one of them is not
    enabled in its turn. -/
def run (step : State → Act → Option State) : State → List Act → Option State
  | s, [] => some s
  | s, a :: rest => (step s a).bind fun next => run step next rest

variable {step : State → Act → Option State}

theorem run_cons {s s' : State} {a : Act} {rest : List Act} :
    run step s (a :: rest) = some s' ↔ ∃ next, step s a = some next ∧ run step next rest = some s' := by
  simp [run,Option.bind_eq_some_iff]

theorem run_append {s mid s' : State} {acts more : List Act} (ran : run step s acts = some mid)
    (goes : run step mid more = some s') : run step s (acts ++ more) = some s' := by
  induction acts generalizing s with
  | nil => cases ran; exact goes
  | cons a rest ih =>
    obtain ⟨next,taken,ran⟩ := run_cons.mp ran
    exact run_cons.mpr ⟨next,taken,ih ran⟩

/-- What every enabled action preserves holds after a run. -/
theorem run_invariant {P : State → Prop} (keeps : ∀ s a s', P s → step s a = some s' → P s')
    {s s' : State} {acts : List Act} (ran : run step s acts = some s') (holds : P s) : P s' := by
  induction acts generalizing s with
  | nil => cases ran; exact holds
  | cons a rest ih =>
    obtain ⟨next,taken,ran⟩ := run_cons.mp ran
    exact ih ran (keeps s a next holds taken)

/-- The same for what is preserved by the actions that a schedule may have. -/
theorem run_invariant_of {P : State → Prop} {allowed : Act → Prop}
    (keeps : ∀ s a s', P s → allowed a → step s a = some s' → P s') {s s' : State} {acts : List Act}
    (ran : run step s acts = some s') (only : ∀ a ∈ acts, allowed a) (holds : P s) : P s' := by
  induction acts generalizing s with
  | nil => cases ran; exact holds
  | cons a rest ih =>
    obtain ⟨next,taken,ran⟩ := run_cons.mp ran
    have allowed := only a List.mem_cons_self
    exact ih ran (fun b member => only b (List.mem_cons_of_mem _ member)) (keeps s a next holds allowed taken)

/-- What every enabled action preserves of the state and the actions that have led to it. -/
theorem run_history {P : List Act → State → Prop}
    (keeps : ∀ past s a s', P past s → step s a = some s' → P (past ++ [a]) s')
    {s s' : State} {acts : List Act} (ran : run step s acts = some s') (holds : P [] s) : P acts s' := by
  suffices later : ∀ past, P past s → P (past ++ acts) s' from later [] holds
  clear holds
  induction acts generalizing s with
  | nil =>
    intro past holds
    cases ran
    rwa [List.append_nil]
  | cons a rest ih =>
    intro past holds
    obtain ⟨next,taken,ran⟩ := run_cons.mp ran
    rw [List.append_cons]
    exact ih ran _ (keeps past s a next holds taken)

/-- Every step of the run meets the condition, which reads the state before the
    step and the action. -/
def Along (step : State → Act → Option State) (cond : State → Act → Prop) : State → List Act → Prop
  | _, [] => True
  | s, a :: rest => cond s a ∧ ∀ next, step s a = some next → Along step cond next rest

/-- A run that meets a condition meets every weaker one. -/
theorem Along.mono {cond weaker : State → Act → Prop} (imp : ∀ s a, cond s a → weaker s a) {s : State}
    {acts : List Act} (along : Along step cond s acts) : Along step weaker s acts := by
  induction acts generalizing s with
  | nil => trivial
  | cons a rest ih => exact ⟨imp s a along.1,fun next taken => ih (along.2 next taken)⟩

theorem along_cons {cond : State → Act → Prop} {s next : State} {a : Act} {rest : List Act}
    (taken : step s a = some next) : Along step cond s (a :: rest) ↔ cond s a ∧ Along step cond next rest := by
  refine and_congr_right fun _ => ⟨fun later => later next taken,fun later other taken' => ?_⟩
  obtain rfl := Option.some.inj (taken.symm.trans taken')
  exact later

theorem along_stuck {cond : State → Act → Prop} {s : State} {a : Act} {rest : List Act} (stuck : step s a = none) :
    Along step cond s (a :: rest) ↔ cond s a := by
  refine ⟨And.left,fun meets => ⟨meets,fun next taken => ?_⟩⟩
  rw [stuck] at taken
  cases taken

theorem along_append {cond : State → Act → Prop} {s mid : State} {acts more : List Act}
    (ran : run step s acts = some mid) :
    Along step cond s (acts ++ more) ↔ Along step cond s acts ∧ Along step cond mid more := by
  induction acts generalizing s with
  | nil => cases ran; exact (and_iff_right trivial).symm
  | cons a rest ih =>
    obtain ⟨next,taken,ran⟩ := run_cons.mp ran
    rw [List.cons_append,along_cons taken,along_cons taken,ih ran,and_assoc]

instance decidableAlong {cond : State → Act → Prop} [∀ s a, Decidable (cond s a)] :
    ∀ (s : State) (acts : List Act), Decidable (Along step cond s acts)
  | _, [] => .isTrue trivial
  | s, a :: rest =>
    match taken : step s a with
    | none => decidable_of_iff' (cond s a) (along_stuck taken)
    | some next =>
      have : Decidable (Along step cond next rest) := decidableAlong next rest
      decidable_of_iff' (cond s a ∧ Along step cond next rest) (along_cons taken)

/-- The property holds in every state that the run goes through. -/
def Throughout (step : State → Act → Option State) (P : State → Prop) (s : State) (acts : List Act) : Prop :=
  ∀ first second mid, acts = first ++ second → run step s first = some mid → P mid

theorem throughout_cons {P : State → Prop} {s next : State} {a : Act} {rest : List Act} (taken : step s a = some next) :
    Throughout step P s (a :: rest) ↔ P s ∧ Throughout step P next rest := by
  constructor
  · intro holds
    refine ⟨holds [] (a :: rest) s rfl rfl,fun first second mid same ran => ?_⟩
    exact holds (a :: first) second mid (by rw [same,List.cons_append]) (run_cons.mpr ⟨next,taken,ran⟩)
  · rintro ⟨now,later⟩ first second mid same ran
    cases first with
    | nil => cases ran; exact now
    | cons b first =>
      obtain ⟨isA,isRest⟩ := List.cons.inj same
      obtain ⟨other,taken',ran⟩ := run_cons.mp ran
      rw [← isA,taken] at taken'
      cases taken'
      exact later first second mid isRest ran

/-- What holds at the end of a run holds at its start when no step makes it true. -/
theorem run_back {Q : State → Prop} (back : ∀ s a s', step s a = some s' → Q s' → Q s)
    {s s' : State} {acts : List Act} (ran : run step s acts = some s') (holds : Q s') : Q s := by
  induction acts generalizing s with
  | nil => cases ran; exact holds
  | cons a rest ih =>
    obtain ⟨next,taken,ran⟩ := run_cons.mp ran
    exact back s a next taken (ih ran)

/-- When the condition decides whether a step keeps the property, a run keeps it
    exactly when all its steps meet the condition. The invariant `I` and what
    holds up to the end of the run, `Q`, help to decide it. -/
theorem throughout_iff_along {I P Q : State → Prop} {cond : State → Act → Prop}
    (keeps : ∀ s a s', I s → step s a = some s' → I s') (back : ∀ s a s', step s a = some s' → Q s' → Q s)
    (decides : ∀ s a s', I s → P s → Q s' → step s a = some s' → (P s' ↔ cond s a))
    {s s' : State} {acts : List Act} (ran : run step s acts = some s') (inv : I s) (untilEnd : Q s') (holds : P s) :
    Throughout step P s acts ↔ Along step cond s acts := by
  induction acts generalizing s with
  | nil =>
    refine iff_of_true (fun first second mid same ran => ?_) trivial
    rw [(List.nil_eq_append_iff.mp same).1] at ran
    cases ran
    exact holds
  | cons a rest ih =>
    obtain ⟨next,taken,ran⟩ := run_cons.mp ran
    have decided := decides s a next inv holds (run_back back ran untilEnd) taken
    rw [throughout_cons taken]
    constructor
    · rintro ⟨_,later⟩
      have still : P next := later [] rest next rfl rfl
      refine ⟨decided.mp still,fun other taken' => ?_⟩
      obtain rfl := Option.some.inj (taken.symm.trans taken')
      exact (ih ran (keeps s a next inv taken) still).mp later
    · rintro ⟨meets,later⟩
      exact ⟨holds,(ih ran (keeps s a next inv taken) (decided.mpr meets)).mpr (later next taken)⟩

/-- What every step keeps that meets the condition holds in every state of a run
    whose steps all meet it. -/
theorem throughout_of_along {P : State → Prop} {cond : State → Act → Prop}
    (keeps : ∀ s a s', P s → cond s a → step s a = some s' → P s') {s : State} {acts : List Act} (holds : P s)
    (along : Along step cond s acts) : Throughout step P s acts := by
  induction acts generalizing s with
  | nil =>
    intro first second mid same ran
    rw [(List.nil_eq_append_iff.mp same).1] at ran
    cases ran
    exact holds
  | cons a rest ih =>
    intro first second mid same ran
    cases first with
    | nil => cases ran; exact holds
    | cons b first =>
      obtain ⟨rfl,rfl⟩ := List.cons.inj same
      obtain ⟨next,taken,ran⟩ := run_cons.mp ran
      exact ih (keeps s a next holds along.1 taken) (along.2 next taken) first second mid rfl ran

theorem throughout_imp {P Q : State → Prop} (imp : ∀ s, P s → Q s) {s : State} {acts : List Act}
    (holds : Throughout step P s acts) : Throughout step Q s acts :=
  fun first second mid same ran => imp mid (holds first second mid same ran)

/-- When a step keeps the property exactly when it meets the condition, and no step
    restores the property, it holds after a run exactly when it held before and all
    steps met the condition. -/
theorem holds_iff_along {I P : State → Prop} {cond : State → Act → Prop}
    (keeps : ∀ s a s', I s → step s a = some s' → I s')
    (decides : ∀ s a s', I s → step s a = some s' → (P s' ↔ P s ∧ cond s a)) {s s' : State} {acts : List Act}
    (ran : run step s acts = some s') (inv : I s) : P s' ↔ P s ∧ Along step cond s acts := by
  induction acts generalizing s with
  | nil =>
    cases ran
    exact ⟨fun holds => ⟨holds,trivial⟩,And.left⟩
  | cons a rest ih =>
    obtain ⟨next,taken,ran⟩ := run_cons.mp ran
    rw [ih ran (keeps s a next inv taken),decides s a next inv taken,along_cons taken,and_assoc]

/-- A run leads to the goal when, as long as it has not been reached, a few steps that
    meet the condition make the measure smaller. -/
theorem reaches_by_runs {Goal : State → Prop} {cond : State → Act → Prop} {Measured : Nat → State → Prop}
    (descends : ∀ n s, Measured n s → Goal s ∨ ∃ acts s' m, run step s acts = some s' ∧ Along step cond s acts ∧
      m < n ∧ Measured m s')
    {n : Nat} {s : State} (measured : Measured n s) :
    ∃ acts s', run step s acts = some s' ∧ Along step cond s acts ∧ Goal s' := by
  induction n using Nat.strongRecOn generalizing s with
  | ind n ih =>
    rcases descends n s measured with goal | ⟨first,next,m,ran,meets,less,measured⟩
    · exact ⟨[],s,rfl,trivial,goal⟩
    · obtain ⟨acts,s',later,along,goal⟩ := ih m less measured
      exact ⟨first ++ acts,s',run_append ran later,(along_append ran).mpr ⟨meets,along⟩,goal⟩

/-- The same with single steps. -/
theorem reaches {Goal : State → Prop} {cond : State → Act → Prop} {Measured : Nat → State → Prop}
    (descends : ∀ n s, Measured n s → Goal s ∨ ∃ a s' m, cond s a ∧ step s a = some s' ∧ m < n ∧ Measured m s')
    {n : Nat} {s : State} (measured : Measured n s) :
    ∃ acts s', run step s acts = some s' ∧ Along step cond s acts ∧ Goal s' := by
  refine reaches_by_runs (fun n s measured => (descends n s measured).imp_right ?_) measured
  rintro ⟨a,s',m,meets,taken,less,measured⟩
  exact ⟨[a],s',m,run_cons.mpr ⟨s',taken,rfl⟩,(along_cons taken).mpr ⟨meets,trivial⟩,less,measured⟩

/-- What every abstract step preserves holds after any number of them. -/
theorem moves_invariant {Abstract : Type w} {Move : Abstract → Abstract → Prop} {P : Abstract → Prop}
    (keeps : ∀ x y, P x → Move x y → P y) {x y : Abstract} (moved : Relation.ReflTransGen Move x y)
    (holds : P x) : P y := by
  induction moved with
  | refl => exact holds
  | tail _ move ih => exact keeps _ _ ih move

end Os5Sem.Transition

import Os5Sem.StartReaper

/-!
What concurrent calls of `start_reaper` may rely on. A call that has taken the
flag gives it back when it fails, but after a failed clone it resets the flag a
second time, when another call may have taken it (`flag_reset_twice`). A call
that finds the flag taken returns 0, while the call that has taken it may still
fail (`promise_broken`).
-/
namespace Os5Sem.ReaperCreation
open Os5Sem.StartReaper
open Os5Sem.Transition (Along Throughout)

/-! ### What a program point tells -/

/-- The call has taken the flag, and has neither reset it nor created a reaper. -/
def Holds : Pc → Prop
  | .sysconf | .mmap _ | .mmapFailed _ | .mprotect _ _ | .clone _ _ | .cloneFailed _ _ _ => True
  | .munmap .mprotect _ _ _ | .storeStarted .mprotect _ => True
  | _ => False

/-- The call may still create a reaper. -/
def Attempts : Pc → Prop
  | .sysconf | .mmap _ | .mprotect _ _ | .clone _ _ => True
  | _ => False

/-- The call has created a reaper. -/
def Created : Pc → Prop
  | .storeStack _ _ _ | .storeStackSize _ _ | .storeTid _ => True
  | _ => False

/-- The second reset of the flag after a failed clone. -/
def again : Pc → Bool
  | .storeStarted .clone _ => true
  | _ => false

/-- The call makes a system call that may fail. -/
def Asks : Pc → Prop
  | .mmap _ | .mprotect _ _ | .clone _ _ => True
  | _ => False

variable {Proc : Type} {σ σ' : State Proc}

/-! ### What the calls rely on -/

/-- At most one reaper has been created, and the flag is set in that case. -/
def SingleReaper (σ : State Proc) : Prop := σ.reapers.length ≤ 1 ∧ (σ.reapers ≠ [] → σ.started = true)

/-- The flag is set for the one call that holds it, and for the one reaper. -/
structure Guarded (σ : State Proc) : Prop where
  unique : ∀ p q, Holds (σ.caller p) → Holds (σ.caller q) → p = q
  held : ∀ p, Holds (σ.caller p) → σ.started = true ∧ σ.reapers = []
  single : SingleReaper σ

/-- A call resets the flag for the second time while it is set. -/
def ResetsAgain (σ : State Proc) : Act Proc → Prop
  | .go p _ => again (σ.caller p) = true ∧ σ.started = true
  | .call _ => False

instance (σ : State Proc) : ∀ a, Decidable (ResetsAgain σ a)
  | .go _ _ => instDecidableAnd
  | .call _ => instDecidableFalse

theorem start_guarded : Guarded (start Proc) := ⟨nofun,nofun,by simp [start],by simp [start]⟩

/-- A call of `start_reaper` has returned 0. -/
def Succeeded (σ : State Proc) : Prop := ∃ p, (p,.ok) ∈ σ.returns

/-- When all calls have returned and one of them has returned 0, a reaper has been
    created. -/
def Consumer (σ : State Proc) : Prop := (∀ p, σ.caller p = .idle) → Succeeded σ → σ.reapers ≠ []

/-- A call finds the flag taken and returns 0, when there is no reaper and nobody
    may still create one. -/
def Unfounded (σ : State Proc) : Act Proc → Prop
  | .go p _ =>
    σ.caller p = .compareExchange ∧ σ.started = true ∧ σ.reapers = [] ∧ ∀ q, ¬ Attempts (σ.caller q)
  | .call _ => False

/-- A system call fails for the only call that may still create a reaper, when
    there is none and a call has returned 0. -/
def Abandons (σ : State Proc) : Act Proc → Prop
  | .go p env =>
    Asks (σ.caller p) ∧ (∃ errno, env.outcome = .error errno) ∧ σ.reapers = [] ∧ Succeeded σ ∧
      ∀ q, q ≠ p → ¬ Attempts (σ.caller q)
  | .call _ => False

/-- What a call that has returned 0 relies on: a reaper, or a call that may still
    create one. -/
structure Promised (σ : State Proc) : Prop where
  created : ∀ p, Created (σ.caller p) → σ.reapers ≠ []
  kept : Succeeded σ → σ.reapers ≠ [] ∨ ∃ p, Attempts (σ.caller p)

theorem start_promised : Promised (start Proc) := ⟨nofun,by rintro ⟨p,member⟩; cases member⟩

variable [DecidableEq Proc]

/-- A step of a call changes no other call. -/
theorem startReaper_others {p q : Proc} {env : Env} (done : startReaper σ p env = some σ') (other : q ≠ p) :
    σ'.caller q = σ.caller q := by
  unfold startReaper at done
  split at done
  case h_1 => cases done
  all_goals
    try split at done
    all_goals cases done
    all_goals exact State.goto_other other

/-! ### The flag -/

/-- What a step of a call does to the flag and to the reapers: nothing, it takes
    the flag, it gives it back, it creates a reaper, or it resets the flag for the
    second time. -/
theorem startReaper_flag {p : Proc} {env : Env} (done : startReaper σ p env = some σ') :
    (Holds (σ'.caller p) → Holds (σ.caller p)) ∧ σ'.started = σ.started ∧ σ'.reapers = σ.reapers ∨
      σ.started = false ∧ σ'.started = true ∧ σ'.reapers = σ.reapers ∨
      Holds (σ.caller p) ∧ ¬ Holds (σ'.caller p) ∧ σ'.started = false ∧ σ'.reapers = σ.reapers ∨
      Holds (σ.caller p) ∧ ¬ Holds (σ'.caller p) ∧ σ'.started = σ.started ∧ (∃ pid, σ'.reapers = σ.reapers ++ [pid]) ∨
      again (σ.caller p) = true ∧ ¬ Holds (σ'.caller p) ∧ σ'.started = false ∧ σ'.reapers = σ.reapers := by
  cases here : σ.caller p with
  | idle => simp [startReaper,here] at done
  | compareExchange =>
    simp only [startReaper,here] at done
    split at done <;> cases done
    · exact .inl ⟨by simp [Holds],rfl,rfl⟩
    · rename_i free
      exact .inr (.inl ⟨by simpa using free,rfl,rfl⟩)
  | sysconf =>
    simp only [startReaper,here] at done
    cases done
    exact .inl ⟨fun _ => trivial,rfl,rfl⟩
  | mmap total =>
    simp only [startReaper,here] at done
    split at done <;> cases done <;> exact .inl ⟨fun _ => trivial,rfl,rfl⟩
  | mprotect map total =>
    simp only [startReaper,here] at done
    split at done <;> cases done <;> exact .inl ⟨fun _ => trivial,rfl,rfl⟩
  | clone map total =>
    simp only [startReaper,here] at done
    split at done <;> cases done
    · exact .inl ⟨fun _ => trivial,rfl,rfl⟩
    · exact .inr (.inr (.inr (.inl ⟨trivial,by simp [Holds],rfl,_,rfl⟩)))
  | munmap site map total saved =>
    simp only [startReaper,here] at done
    split at done <;> cases done <;> cases site <;> exact .inl ⟨by simp [Holds],rfl,rfl⟩
  | mmapFailed saved =>
    simp only [startReaper,here] at done
    cases done
    exact .inr (.inr (.inl ⟨trivial,by simp [Holds],rfl,rfl⟩))
  | cloneFailed map total saved =>
    simp only [startReaper,here] at done
    cases done
    exact .inr (.inr (.inl ⟨trivial,by simp [Holds],rfl,rfl⟩))
  | storeStarted site saved =>
    simp only [startReaper,here] at done
    cases done
    cases site with
    | mprotect => exact .inr (.inr (.inl ⟨trivial,by simp [Holds],rfl,rfl⟩))
    | clone => exact .inr (.inr (.inr (.inr ⟨rfl,by simp [Holds],rfl,rfl⟩)))
  | _ =>
    simp only [startReaper,here] at done
    cases done
    exact .inl ⟨by simp [Holds],rfl,rfl⟩

theorem guarded_step {a : Act Proc} (guarded : Guarded σ) (once : ¬ ResetsAgain σ a) (done : step σ a = some σ') :
    Guarded σ' := by
  cases a with
  | call p =>
    simp only [step] at done
    split at done <;> cases done
    have before : ∀ q, Holds ((σ.goto p .compareExchange).caller q) → Holds (σ.caller q) := by
      intro q holds
      by_cases isP : q = p
      · subst isP
        rw [State.goto_self] at holds
        exact holds.elim
      · rwa [State.goto_other isP] at holds
    exact ⟨fun q r one two => guarded.unique q r (before q one) (before r two),
      fun q holds => guarded.held q (before q holds),guarded.single⟩
  | go p env =>
    have others : ∀ q, q ≠ p → σ'.caller q = σ.caller q := fun q other => startReaper_others done other
    rcases startReaper_flag done with ⟨before,started,reapers⟩ | ⟨free,started,reapers⟩ |
      ⟨holds,out,started,reapers⟩ | ⟨holds,out,started,pid,reapers⟩ | ⟨again,out,started,reapers⟩
    · have before : ∀ q, Holds (σ'.caller q) → Holds (σ.caller q) := by
        intro q holds
        by_cases isP : q = p
        · subst isP; exact before holds
        · exact others q isP ▸ holds
      refine ⟨fun q r one two => guarded.unique q r (before q one) (before r two),fun q holds => ?_,?_⟩
      · rw [started,reapers]; exact guarded.held q (before q holds)
      · rw [SingleReaper,started,reapers]; exact guarded.single
    · -- Nobody holds a flag that is not set.
      have nobody : ∀ q, ¬ Holds (σ.caller q) := by
        intro q holds
        rw [(guarded.held q holds).1] at free
        cases free
      have none : σ.reapers = [] := by
        by_contra some
        rw [guarded.single.2 some] at free
        cases free
      have onlyP : ∀ q, Holds (σ'.caller q) → q = p := by
        intro q holds
        by_contra isNotP
        exact nobody q (others q isNotP ▸ holds)
      exact ⟨fun q r one two => (onlyP q one).trans (onlyP r two).symm,fun _ _ => ⟨started,reapers.trans none⟩,
        by simp [reapers,none],fun _ => started⟩
    · have nobody : ∀ q, ¬ Holds (σ'.caller q) := by
        intro q one
        by_cases isP : q = p
        · subst isP; exact out one
        · exact isP (guarded.unique q p (others q isP ▸ one) holds)
      have none := (guarded.held p holds).2
      exact ⟨fun q _ one => absurd one (nobody q),fun q one => absurd one (nobody q),by simp [reapers,none],
        fun some => absurd (reapers.trans none) some⟩
    · have nobody : ∀ q, ¬ Holds (σ'.caller q) := by
        intro q one
        by_cases isP : q = p
        · subst isP; exact out one
        · exact isP (guarded.unique q p (others q isP ▸ one) holds)
      obtain ⟨set,none⟩ := guarded.held p holds
      exact ⟨fun q _ one => absurd one (nobody q),fun q one => absurd one (nobody q),by simp [reapers,none],
        fun _ => started.trans set⟩
    · have free : σ.started = false := by
        by_contra set
        exact once ⟨again,by simpa using set⟩
      have nobody : ∀ q, ¬ Holds (σ'.caller q) := by
        intro q one
        by_cases isP : q = p
        · subst isP; exact out one
        · have set := (guarded.held q (others q isP ▸ one)).1
          rw [free] at set
          cases set
      refine ⟨fun q _ one => absurd one (nobody q),fun q one => absurd one (nobody q),?_⟩
      rw [SingleReaper,started,reapers,← free]
      exact guarded.single

/-- As long as no call resets the flag for a second time while it is set, there is
    at most one reaper, and the flag is set once there is one. -/
theorem single_reaper {acts : List (Act Proc)}
    (once : Along step (fun σ a => ¬ ResetsAgain σ a) (start Proc) acts) :
    Throughout step SingleReaper (start Proc) acts :=
  Transition.throughout_imp (fun _ guarded => guarded.single)
    (Transition.throughout_of_along (fun _ _ _ guarded once done => guarded_step guarded once done) start_guarded once)

/-- The call 0 fails at its clone and resets the flag. The call 1 takes it and
    creates a reaper. The call 0 resets the flag again, and the call 2 takes it and
    creates a second reaper. -/
def resetTwice : List (Act Nat) :=
  let go (p : Nat) (outcome : Except Nat Nat) : Act Nat := .go p ⟨4096,outcome⟩
  let toClone (p map : Nat) := .call p :: [go p (.ok 0),go p (.ok 0),go p (.ok map),go p (.ok 0)]
  toClone 0 100 ++ [go 0 (.error 11),go 0 (.ok 0)] ++ toClone 1 200 ++ [go 1 (.ok 71)] ++
    [go 0 (.ok 0),go 0 (.ok 0)] ++ toClone 2 300 ++ [go 2 (.ok 72)]

def after (acts : List (Act Nat)) : State Nat := (Transition.run step (start Nat) acts).getD (start Nat)

theorem flag_reset_twice : (after resetTwice).reapers = [71,72] ∧
    ¬ Throughout step SingleReaper (start Nat) resetTwice := by
  have two : (after resetTwice).reapers = [71,72] := by decide
  refine ⟨two,fun single => ?_⟩
  have one := (single resetTwice [] (after resetTwice) (List.append_nil _).symm rfl).1
  rw [two] at one
  exact absurd one (by decide)

/-- The call 0 fails at its clone and resets the flag twice before the call 1 takes
    it. -/
def resetInTime : List (Act Nat) :=
  let go (p : Nat) (outcome : Except Nat Nat) : Act Nat := .go p ⟨4096,outcome⟩
  let toClone (p map : Nat) := .call p :: [go p (.ok 0),go p (.ok 0),go p (.ok map),go p (.ok 0)]
  toClone 0 100 ++ [go 0 (.error 11),go 0 (.ok 0),go 0 (.ok 0),go 0 (.ok 0)] ++ toClone 1 200 ++ [go 1 (.ok 71)]

theorem single_reaper_in_time : Throughout step SingleReaper (start Nat) resetInTime := single_reaper (by decide)

/-! ### The promise -/

/-- What a step of a call does to the promise. -/
theorem startReaper_promise {p : Proc} {env : Env} (done : startReaper σ p env = some σ') :
    (σ.reapers ≠ [] → σ'.reapers ≠ []) ∧
      (Created (σ'.caller p) → Created (σ.caller p) ∨ σ'.reapers ≠ []) ∧
      (Succeeded σ' → Succeeded σ ∨ Created (σ.caller p) ∨ σ.caller p = .compareExchange ∧ σ.started = true) ∧
      (Attempts (σ.caller p) →
        Attempts (σ'.caller p) ∨ σ'.reapers ≠ [] ∨ Asks (σ.caller p) ∧ ∃ errno, env.outcome = .error errno) := by
  have failed : ∀ errno, σ'.returns = σ.returns ++ [(p,.failed errno)] → Succeeded σ' → Succeeded σ := by
    rintro errno returns ⟨q,member⟩
    rw [returns] at member
    exact ⟨q,by simpa using member⟩
  cases here : σ.caller p with
  | idle => simp [startReaper,here] at done
  | compareExchange =>
    simp only [startReaper,here] at done
    split at done <;> cases done
    · exact ⟨id,by simp [Created],fun _ => .inr (.inr ⟨rfl,‹_›⟩),nofun⟩
    · exact ⟨id,by simp [Created],.inl,nofun⟩
  | sysconf =>
    simp only [startReaper,here] at done
    cases done
    exact ⟨id,by simp [Created],.inl,fun _ => .inl (by simp [Attempts])⟩
  | mmap total =>
    simp only [startReaper,here] at done
    split at done <;> cases done
    · exact ⟨id,by simp [Created],.inl,fun _ => .inr (.inr ⟨trivial,_,‹_›⟩)⟩
    · exact ⟨id,by simp [Created],.inl,fun _ => .inl (by simp [Attempts])⟩
  | mprotect map total =>
    simp only [startReaper,here] at done
    split at done <;> cases done
    · exact ⟨id,by simp [Created],.inl,fun _ => .inr (.inr ⟨trivial,_,‹_›⟩)⟩
    · exact ⟨id,by simp [Created],.inl,fun _ => .inl (by simp [Attempts])⟩
  | clone map total =>
    simp only [startReaper,here] at done
    split at done <;> cases done
    · exact ⟨id,by simp [Created],.inl,fun _ => .inr (.inr ⟨trivial,_,‹_›⟩)⟩
    · have some : ∀ pid, σ.reapers ++ [pid] ≠ [] := fun pid => by simp
      exact ⟨fun _ => some _,fun _ => .inr (some _),.inl,fun _ => .inr (.inl (some _))⟩
  | mmapFailed saved =>
    simp only [startReaper,here] at done
    cases done
    exact ⟨id,by simp [Created],fun ok => .inl (failed saved rfl ok),nofun⟩
  | storeStarted site saved =>
    simp only [startReaper,here] at done
    cases done
    exact ⟨id,by simp [Created],fun ok => .inl (failed saved rfl ok),nofun⟩
  | cloneFailed map total saved =>
    simp only [startReaper,here] at done
    cases done
    exact ⟨id,by simp [Created],.inl,nofun⟩
  | munmap site map total saved =>
    simp only [startReaper,here] at done
    split at done <;> cases done <;> exact ⟨id,by simp [Created],.inl,nofun⟩
  | _ =>
    simp only [startReaper,here] at done
    cases done
    exact ⟨id,fun _ => .inl trivial,fun _ => .inr (.inl trivial),nofun⟩

theorem promised_step {a : Act Proc} (promised : Promised σ) (founded : ¬ Unfounded σ a) (persists : ¬ Abandons σ a)
    (done : step σ a = some σ') : Promised σ' := by
  cases a with
  | call p =>
    simp only [step] at done
    split at done <;> cases done
    rename_i top
    refine ⟨fun q created => ?_,fun ok => ?_⟩
    · by_cases isP : q = p
      · rw [isP,State.goto_self] at created
        exact created.elim
      · rw [State.goto_other isP] at created
        exact promised.created q created
    · refine (promised.kept ok).imp_right ?_
      rintro ⟨q,attempts⟩
      have isNotP : q ≠ p := fun isP => by rw [isP,top] at attempts; exact attempts
      exact ⟨q,by rwa [State.goto_other isNotP]⟩
  | go p env =>
    have others : ∀ q, q ≠ p → σ'.caller q = σ.caller q := fun q other => startReaper_others done other
    obtain ⟨reapers,created,succeeded,attempts⟩ := startReaper_promise done
    refine ⟨fun q is => ?_,fun ok => ?_⟩
    · by_cases isP : q = p
      · subst isP
        exact (created is).elim (fun was => reapers (promised.created q was)) id
      · exact reapers (promised.created q (others q isP ▸ is))
    · by_cases some : σ'.reapers = []
      · have none : σ.reapers = [] := by_contra fun some' => reapers some' some
        have stays : ∀ q, q ≠ p → Attempts (σ.caller q) → ∃ r, Attempts (σ'.caller r) :=
          fun q other trying => ⟨q,others q other ▸ trying⟩
        right
        rcases succeeded ok with before | was | ⟨loses,set⟩
        · obtain ⟨q,trying⟩ := (promised.kept before).resolve_left fun some' => some' none
          by_cases isP : q = p
          · subst isP
            rcases attempts trying with still | some' | ⟨asks,fails⟩
            · exact ⟨q,still⟩
            · exact absurd some some'
            · by_contra nobody
              refine persists ⟨asks,fails,none,before,fun r other trying => nobody (stays r other trying)⟩
          · exact stays q isP trying
        · exact absurd none (promised.created p was)
        · by_contra nobody
          refine founded ⟨loses,set,none,fun q trying => nobody (stays q (fun isP => ?_) trying)⟩
          rw [isP,loses] at trying
          exact trying
      · exact .inl some

/-- As long as no call returns 0 for a flag behind which nobody may create a reaper
    any more, and the last call that may create one does not fail after another
    has returned 0, a call that has returned 0 means that there is a reaper. -/
theorem success_has_consumer {acts : List (Act Proc)}
    (kept : Along step (fun σ a => ¬ Unfounded σ a ∧ ¬ Abandons σ a) (start Proc) acts) :
    Throughout step Consumer (start Proc) acts := by
  refine Transition.throughout_imp (P := Promised) (fun σ promised quiet ok => ?_)
    (Transition.throughout_of_along (fun _ _ _ promised cond done => promised_step promised cond.1 cond.2 done)
      start_promised kept)
  refine (promised.kept ok).resolve_right ?_
  rintro ⟨p,trying⟩
  rw [quiet p] at trying
  exact trying

/-- The call 1 finds the flag taken by the call 0 and returns 0. Then the mmap of
    the call 0 fails. -/
def promiseBroken : List (Act Nat) :=
  let go (p : Nat) (outcome : Except Nat Nat) : Act Nat := .go p ⟨4096,outcome⟩
  [.call 0,go 0 (.ok 0),.call 1,go 1 (.ok 0),go 0 (.ok 0),go 0 (.error 12),go 0 (.ok 0)]

theorem promise_broken : (after promiseBroken).returns = [(1,.ok),(0,.failed 12)] ∧
    (after promiseBroken).reapers = [] ∧ ¬ Throughout step Consumer (start Nat) promiseBroken := by
  have none : (after promiseBroken).reapers = [] := by decide
  have quiet : ∀ p, (after promiseBroken).caller p = .idle
    | 0 => rfl
    | 1 => rfl
    | _+2 => rfl
  refine ⟨by decide,none,fun holds => ?_⟩
  exact holds promiseBroken [] (after promiseBroken) (List.append_nil _).symm rfl quiet ⟨1,by decide⟩ none

/-- The call 1 returns 0 as before, and the call 0 creates the reaper. -/
def promiseKept : List (Act Nat) :=
  let go (p : Nat) (outcome : Except Nat Nat) : Act Nat := .go p ⟨4096,outcome⟩
  [.call 0,go 0 (.ok 0),.call 1,go 1 (.ok 0),go 0 (.ok 0),go 0 (.ok 100),go 0 (.ok 0),go 0 (.ok 71)] ++
    List.replicate 3 (go 0 (.ok 0))

/-- Nobody fails, and the flag is found taken only while the call 0 is on its way. -/
def Calm (σ : State Nat) : Act Nat → Prop
  | .go p env =>
    (σ.caller p = .compareExchange → σ.started = true → σ.caller 0 = .sysconf) ∧ env.outcome.isOk = true
  | .call _ => True

instance (σ : State Nat) : ∀ a, Decidable (Calm σ a)
  | .go _ _ => instDecidableAnd
  | .call _ => instDecidableTrue

theorem success_has_consumer_kept : Throughout step Consumer (start Nat) promiseKept := by
  have calm : Along step Calm (start Nat) promiseKept := by decide
  refine success_has_consumer (calm.mono fun σ a meets => ?_)
  cases a with
  | call p => exact ⟨id,id⟩
  | go p env =>
    refine ⟨?_,?_⟩
    · rintro ⟨loses,set,_,nobody⟩
      exact nobody 0 (by rw [meets.1 loses set]; trivial)
    · rintro ⟨_,⟨errno,fails⟩,_⟩
      have ok := meets.2
      rw [fails] at ok
      cases ok

end Os5Sem.ReaperCreation

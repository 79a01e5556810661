import Os5Sem.LibraryRest
import Os5Sem.ReaperCreation
import Os5Sem.ThreadProgress

/-!
The way of the whole library to rest. Whatever has happened, also after calls of
`start_reaper` and allocations have failed, the calls and the threads can come to an
end without another call (`comes_to_rest`). Then everything that is due has been
released, unless it was due to a reaper that does not exist: nobody tells a call of
`reap_enqueue` that `start_reaper` has failed.
-/
namespace Os5Sem.LibraryProgress
open Os5Sem.Library Os5Sem.LibraryRuns
open Os5Sem.MyThread (Caller Call)
open Os5Sem.ThreadCalls (callOf)
open Os5Sem.ThreadReclaim (ReleasedOnce)
open Os5Sem.ThreadProgress (Reaps Quiet Answers)
open Os5Sem.Transition (Along)

variable {σ σ' : State} {p : Caller} {t : Nat}

/-! ### The library without a reaper -/

/-- The reaper has not taken a step. -/
structure Unstarted (lib : MyThread.State) : Prop where
  waits : lib.queue.reaper = .loadCount
  unmapped : ∀ t, .reaper ∉ lib.unmapped t
  freed : ∀ t, .reaper ∉ lib.freed t

/-- No other step makes the reaper leave its first step. -/
theorem waits_step {lib : MyThread.State} {a : MyThread.Act} {queue : ReapQueue.State Caller}
    (taken : ThreadReclaim.QueueStep lib a queue) (other : ¬ Reaps a) (waits : lib.queue.reaper = .loadCount) :
    queue.reaper = .loadCount := by
  cases taken with
  | stays same _ => rw [same,waits]
  | goes b done _ _ reaper =>
    cases b with
    | enter p t =>
      simp only [ReapQueue.step] at done
      split at done <;> cases done
      exact waits
    | enqueue p env =>
      obtain ⟨_,_,_,awake,_⟩ := ReapHistory.reapEnqueue_order [] done
      rcases awake with same | ⟨_,woken⟩
      · rw [same,waits]
      · exact woken
    | reap env =>
      obtain rfl := reaper env rfl
      exact absurd trivial other

theorem Unstarted.step {lib lib' : MyThread.State} {a : MyThread.Act} (unstarted : Unstarted lib)
    (known : ThreadReclaim.Known lib) (done : MyThread.step lib a = some lib') (other : ¬ Reaps a) :
    Unstarted lib' := by
  have nobody : ∀ last visit u, ¬ ThreadLifetime.Releases last visit u lib .reaper a := by
    intro last visit u releases
    cases a with
    | reaper env => exact other trivial
    | _ => exact releases
  have released := fun u => @ThreadLifetime.step_releases lib lib' u .reaper a done
  refine ⟨waits_step (ThreadReclaim.queue_step known.owned.handed known.hand done) other unstarted.waits,
    fun u => ?_,fun u => ?_⟩
  · rw [(released u).1]
    exact not_or.mpr ⟨unstarted.unmapped u,nobody _ _ u⟩
  · rw [(released u).2]
    exact not_or.mpr ⟨unstarted.freed u,nobody _ _ u⟩

/-- There is one reaper, or it has not taken a step. -/
structure Standing (σ : State) : Prop where
  sound : Sound σ
  single : σ.starter.reapers.length ≤ 1
  unstarted : σ.starter.reapers = [] → Unstarted σ.lib

theorem start_standing : Standing start where
  sound := start_sound
  single := Nat.zero_le _
  unstarted _ := ⟨rfl,fun _ => List.not_mem_nil,fun _ => List.not_mem_nil⟩

/-- Reapers stay. -/
theorem reapers_stay {starter starter' : StartReaper.State Caller} {b : StartReaper.Act Caller}
    (done : StartReaper.step starter b = some starter') (none : starter'.reapers = []) : starter.reapers = [] := by
  cases b with
  | call p =>
    simp only [StartReaper.step] at done
    split at done <;> cases done
    exact none
  | go p env =>
    rcases ReaperCreation.startReaper_flag done with ⟨_,_,same⟩ | ⟨_,_,same⟩ | ⟨_,_,_,same⟩ | ⟨_,_,_,_,more⟩ |
      ⟨_,_,_,same⟩
    case inr.inr.inr.inl => rw [more] at none; simp at none
    all_goals rw [← same]; exact none

theorem behind_other (p : Caller) : ¬ Reaps (behind p) := by cases p <;> exact id

/-- A step of a call of `start_reaper`: the party stays where it is, or goes on behind the
    call. -/
theorem starter_cases {env : StartReaper.Env} (done : step σ (.starter p env) = some σ') :
    (∃ b, StartReaper.step σ.starter b = some σ'.starter) ∧
      (σ.starter.reapers.length ≤ 1 → σ'.starter.reapers.length ≤ 1) ∧ σ'.create = σ.create ∧
        (σ'.lib = σ.lib ∨ MyThread.step σ.lib (behind p) = some σ'.lib) := by
  simp only [step] at done
  split at done
  · unfold startReaper at done
    split at done
    · obtain ⟨starter,taken,rfl⟩ := Option.map_eq_some_iff.mp done
      refine ⟨⟨_,taken⟩,fun few => ?_,rfl,.inl rfl⟩
      simp only [StartReaper.step] at taken
      split at taken <;> cases taken <;> exact few
    · obtain ⟨starter,taken,done⟩ := Option.bind_eq_some_iff.mp done
      split at done
      · cases done
      · rename_i few
        split at done
        · obtain ⟨lib,goes,rfl⟩ := Option.map_eq_some_iff.mp done
          exact ⟨⟨_,taken⟩,fun _ => Nat.not_lt.mp few,rfl,.inr goes⟩
        · cases done
          exact ⟨⟨_,taken⟩,fun _ => Nat.not_lt.mp few,rfl,.inl rfl⟩
  · cases done

theorem standing_step {a : Act} (standing : Standing σ) (done : step σ a = some σ') : Standing σ' := by
  obtain ⟨sound,single,unstarted⟩ := standing
  have sound' := (sound_step sound done).1
  cases a with
  | create t thread start_routine =>
    simp only [step] at done
    split at done <;> cases done
    exact ⟨sound',single,unstarted⟩
  | creator t env =>
    obtain ⟨_,lib,starter⟩ := sound_creator sound done
    exact ⟨sound',by rw [starter]; exact single,by rw [starter,lib]; exact unstarted⟩
  | library b =>
    simp only [step] at done
    split at done
    · rename_i enabled
      obtain ⟨lib,taken,rfl⟩ := Option.map_eq_some_iff.mp done
      refine ⟨sound',single,fun none => (unstarted none).step sound.known taken ?_⟩
      cases b with
      | reaper env => exact fun _ => enabled none
      | _ => exact id
    · cases done
  | starter p env =>
    obtain ⟨⟨_,taken⟩,few,_,lib⟩ := starter_cases done
    refine ⟨sound',few single,fun none => ?_⟩
    have before := unstarted (reapers_stay taken none)
    rcases lib with same | goes
    · rw [same]
      exact before
    · exact before.step sound.known goes (behind_other p)

theorem run_standing {acts : List Act} (ran : Transition.run step start acts = some σ) : Standing σ :=
  Transition.run_invariant (fun _ _ _ standing done => standing_step standing done) ran start_standing

/-! ### Steps to rest -/

/-- No new call is made, the system calls of `mythread_create` succeed, and those of
    `start_reaper` as long as there is no reaper; the threads, the clients and the reaper
    go on as in `ThreadProgress`. -/
def Orderly (σ : State) : Act → Prop
  | .create _ _ _ => False
  | .creator _ env => env.failure = none
  | .starter _ env => σ.starter.reapers = [] → ∃ value, env.outcome = .ok value
  | .library a => ThreadProgress.Orderly σ.lib a

/-- How far a call of `start_reaper` is from its end. -/
def starterWork : StartReaper.Pc → Nat
  | .idle => 10
  | .compareExchange => 9
  | .sysconf => 8
  | .mmap _ => 7
  | .mprotect _ _ => 6
  | .clone _ _ => 5
  | .cloneFailed _ _ _ => 4
  | .munmap _ _ _ _ | .storeStack _ _ _ => 3
  | .storeStarted _ _ | .storeStackSize _ _ => 2
  | .mmapFailed _ | .storeTid _ => 1

/-- The system calls succeed as long as there is no reaper. -/
def favourable (σ : State) : StartReaper.Env := ⟨4096,if σ.starter.reapers = [] then .ok 1 else .error 0⟩

theorem favourable_ok (none : σ.starter.reapers = []) : (favourable σ).outcome = .ok 1 := if_pos none

/-- A call of `start_reaper` goes on, whatever the others do: it returns or comes closer
    to its end, and it does not create a second reaper. -/
theorem startReaper_goes (single : σ.starter.reapers.length ≤ 1) (inside : σ.starter.caller p ≠ .idle) :
    ∃ starter, StartReaper.step σ.starter (.go p (favourable σ)) = some starter ∧ starter.reapers.length ≤ 1 ∧
      (starter.caller p = .idle ∨ starterWork (starter.caller p) < starterWork (σ.starter.caller p)) := by
  have goes : ∀ {τ : StartReaper.State Caller} {pc}, τ.reapers = σ.starter.reapers →
      starterWork pc < starterWork (σ.starter.caller p) → (τ.goto p pc).reapers.length ≤ 1 ∧
        ((τ.goto p pc).caller p = .idle ∨ starterWork ((τ.goto p pc).caller p) < starterWork (σ.starter.caller p)) := by
    intro τ pc same less
    refine ⟨?_,.inr ?_⟩
    · show τ.reapers.length ≤ 1
      rw [same]
      exact single
    · rwa [StartReaper.State.goto_self]
  have leaves : ∀ {τ : StartReaper.State Caller} (result), τ.reapers = σ.starter.reapers →
      (τ.leave p result).reapers.length ≤ 1 ∧ ((τ.leave p result).caller p = .idle ∨
        starterWork ((τ.leave p result).caller p) < starterWork (σ.starter.caller p)) := by
    intro τ result same
    refine ⟨?_,.inl StartReaper.State.leave_self⟩
    show τ.reapers.length ≤ 1
    rw [same]
    exact single
  simp only [StartReaper.step]
  cases here : σ.starter.caller p with
  | idle => exact absurd here inside
  | compareExchange =>
    simp only [StartReaper.startReaper,here]
    split
    · exact ⟨_,rfl,here ▸ leaves _ rfl⟩
    · exact ⟨_,rfl,here ▸ goes rfl (by rw [here]; decide)⟩
  | sysconf =>
    simp only [StartReaper.startReaper,here]
    exact ⟨_,rfl,here ▸ goes rfl (by rw [here]; simp [starterWork])⟩
  | clone map total =>
    simp only [StartReaper.startReaper,here]
    by_cases none : σ.starter.reapers = []
    · rw [favourable_ok none]
      refine ⟨_,rfl,?_,.inr ?_⟩
      · simp [StartReaper.State.goto,none]
      · simp [starterWork]
    · simp only [favourable,if_neg none]
      exact ⟨_,rfl,here ▸ goes rfl (by rw [here]; simp [starterWork])⟩
  | mmap _ | mprotect _ _ | munmap _ _ _ _ =>
    simp only [StartReaper.startReaper,here]
    split
    all_goals exact ⟨_,rfl,here ▸ goes rfl (by rw [here]; simp [starterWork])⟩
  | mmapFailed _ | storeStarted _ _ | storeTid _ =>
    simp only [StartReaper.startReaper,here]
    exact ⟨_,rfl,here ▸ leaves _ rfl⟩
  | _ =>
    simp only [StartReaper.startReaper,here]
    exact ⟨_,rfl,here ▸ goes rfl (by rw [here]; simp [starterWork])⟩

/-- Behind `start_reaper` the party calls `reap_enqueue`. -/
theorem behind_step {lib : MyThread.State} (calls : callsReaper lib p = true) :
    ∃ lib', MyThread.step lib (behind p) = some lib' := by
  cases p with
  | thread t =>
    have here : lib.startup t = .startReaper := of_decide_eq_true calls
    exact ⟨_,by simp only [behind,MyThread.step,MyThread.threadStartup,here]; rfl⟩
  | client c =>
    simp only [callsReaper] at calls
    split at calls
    · rename_i t here
      exact ⟨_,by simp only [behind,MyThread.step,here,MyThread.mythreadDetach]; rfl⟩
    · cases calls

/-- A step of a party's call of `start_reaper`: the call comes closer to its end, or the
    party goes on behind it. -/
theorem starter_goes (standing : Standing σ) (calls : callsReaper σ.lib p = true) :
    ∃ a σ', Orderly σ a ∧ step σ a = some σ' ∧ σ'.create = σ.create ∧
      (σ'.lib = σ.lib ∧ starterWork (σ'.starter.caller p) < starterWork (σ.starter.caller p) ∨
        MyThread.step σ.lib (behind p) = some σ'.lib) := by
  have orderly : Orderly σ (.starter p (favourable σ)) := fun none => ⟨1,favourable_ok none⟩
  by_cases idle : σ.starter.caller p = .idle
  · have taken : StartReaper.step σ.starter (.call p) = some (σ.starter.goto p .compareExchange) := if_pos idle
    refine ⟨_,{ σ with starter := σ.starter.goto p .compareExchange },orderly,?_,rfl,.inl ⟨rfl,?_⟩⟩
    · rw [step,if_pos calls,startReaper,if_pos idle,taken]
      rfl
    · rw [StartReaper.State.goto_self,idle]
      decide
  · obtain ⟨starter,taken,few,returns⟩ := startReaper_goes standing.single idle
    have goes : step σ (.starter p (favourable σ)) = if starter.caller p = .idle then
        (MyThread.step σ.lib (behind p)).map fun lib => { releasing σ lib with starter }
      else some { σ with starter } := by
      rw [step,if_pos calls,startReaper,if_neg idle,taken,Option.bind_some,if_neg (Nat.not_lt.mpr few)]
    by_cases ready : starter.caller p = .idle
    · obtain ⟨lib,behind⟩ := behind_step calls
      rw [if_pos ready,behind,Option.map_some] at goes
      exact ⟨_,_,orderly,goes,rfl,.inr behind⟩
    · rw [if_neg ready] at goes
      exact ⟨_,_,orderly,goes,rfl,.inl ⟨rfl,returns.resolve_left ready⟩⟩

/-- A run that does for the threads what one step of theirs does. -/
def Lifts (σ : State) (lib : MyThread.State) : Prop :=
  ∃ acts σ', Transition.run step σ acts = some σ' ∧ Along step Orderly σ acts ∧ σ'.lib = lib ∧ σ'.create = σ.create

/-- A call of `start_reaper` comes to its end, with a reaper or without one. -/
theorem starter_returns (standing : Standing σ) (calls : callsReaper σ.lib p = true) {lib : MyThread.State}
    (goes : MyThread.step σ.lib (behind p) = some lib) : Lifts σ lib := by
  have descends : ∀ n τ, (Standing τ ∧ τ.create = σ.create ∧
      (τ.lib = σ.lib ∧ n = starterWork (τ.starter.caller p) + 1 ∨ τ.lib = lib)) →
      (τ.lib = lib ∧ τ.create = σ.create) ∨ ∃ a τ' m, Orderly τ a ∧ step τ a = some τ' ∧ m < n ∧
        Standing τ' ∧ τ'.create = σ.create ∧
          (τ'.lib = σ.lib ∧ m = starterWork (τ'.starter.caller p) + 1 ∨ τ'.lib = lib) := by
    rintro n τ ⟨standing,create,⟨same,rfl⟩ | arrived⟩
    · obtain ⟨a,τ',orderly,taken,kept,still | gone⟩ := starter_goes standing (same.symm ▸ calls)
      · exact .inr ⟨a,τ',_,orderly,taken,Nat.succ_lt_succ still.2,standing_step standing taken,kept.trans create,
          .inl ⟨still.1.trans same,rfl⟩⟩
      · rw [same,goes,Option.some.injEq] at gone
        exact .inr ⟨a,τ',0,orderly,taken,Nat.succ_pos _,standing_step standing taken,kept.trans create,.inr gone.symm⟩
    · exact .inl ⟨arrived,create⟩
  exact Transition.reaches descends ⟨standing,rfl,.inl ⟨rfl,rfl⟩⟩

theorem lifts_library {a : MyThread.Act} {lib : MyThread.State} (orderly : ThreadProgress.Orderly σ.lib a)
    (enabled : Enabled σ a) (done : MyThread.step σ.lib a = some lib) : Lifts σ lib := by
  have taken : step σ (.library a) = some (releasing σ lib) := by rw [step,if_pos enabled,done]; rfl
  exact ⟨[.library a],_,Transition.run_cons.mpr ⟨_,taken,rfl⟩,(Transition.along_cons taken).mpr ⟨orderly,trivial⟩,
    rfl,rfl⟩

/-- Behind its start routine a thread has been started. -/
theorem cloned_of_behind (sound : Sound σ) (behind : σ.lib.startup t ≠ .running) : cloned (σ.create t) = true := by
  by_contra unborn
  exact behind ((sound.made t).unborn (Bool.eq_false_of_not_eq_true unborn))

theorem cloned_of_call (sound : Sound σ) {c : Nat} {call : Call} (inside : callOf (σ.lib.client c) = some call) :
    cloned (σ.create call.thread) = true := by
  have member := (sound.made call.thread).known _ (sound.called.made c call inside) rfl
  rw [(sound.made call.thread).created member]
  rfl

/-- What the threads can do on their way to rest, the library can do. -/
theorem lifts {a : MyThread.Act} {lib : MyThread.State} (standing : Standing σ)
    (orderly : ThreadProgress.Orderly σ.lib a) (able : Reaps a → σ.starter.reapers ≠ [])
    (done : MyThread.step σ.lib a = some lib) : Lifts σ lib := by
  have sound := standing.sound
  cases a with
  | finish t retval =>
    have started : cloned (σ.create t) = true := by
      obtain ⟨c,wants,pc,here⟩ := orderly
      have inside : callOf (σ.lib.client c) = some (.join t wants) := by rw [here]; rfl
      exact cloned_of_call sound inside
    exact lifts_library orderly started done
  | startup t choice =>
    cases calls : callsReaper σ.lib (.thread t) with
    | true =>
      have here : σ.lib.startup t = .startReaper := of_decide_eq_true calls
      refine starter_returns standing calls (done ▸ ?_)
      simp only [behind,MyThread.step,MyThread.threadStartup,here]
    | false =>
      refine lifts_library orderly ⟨cloned_of_behind sound fun running => ?_,calls⟩ done
      simp [MyThread.step,MyThread.threadStartup,running] at done
  | client c env =>
    cases calls : callsReaper σ.lib (.client c) with
    | true =>
      refine starter_returns standing calls (done ▸ ?_)
      simp only [callsReaper] at calls
      split at calls
      · rename_i t here
        simp only [behind,MyThread.step,here,MyThread.mythreadDetach]
      · cases calls
    | false => exact lifts_library orderly calls done
  | call c call => exact orderly.elim
  | reaper env => exact lifts_library orderly (able trivial) done

/-! ### Calls of `mythread_create` -/

/-- The call has returned, or there is none. -/
def Ended : CreatePc → Prop
  | .outside | .returned | .failed _ => True
  | _ => False

/-- How far a call of `mythread_create` is from its end. -/
def createWork : CreatePc → Nat
  | .checkArguments _ _ => 9
  | .calloc => 8
  | .sysconf => 7
  | .mmap _ _ => 6
  | .mprotect _ _ => 5
  | .storeFields _ => 4
  | .clone => 3
  | .munmap _ | .destroyStack _ => 2
  | .storeThread | .free _ => 1
  | .outside | .returned | .failed _ => 0

/-- A call of `mythread_create` goes on to its end. -/
theorem creator_goes (busy : ¬ Ended (σ.create t)) : ∃ σ', mythreadCreate σ t ⟨4096,none⟩ = some σ' ∧
    (∀ u, u ≠ t → σ'.create u = σ.create u) ∧ createWork (σ'.create t) < createWork (σ.create t) := by
  have goes : ∀ {τ : State} {pc}, τ.create = σ.create → createWork pc < createWork (σ.create t) →
      (∀ u, u ≠ t → (τ.createAt t pc).create u = σ.create u) ∧
        createWork ((τ.createAt t pc).create t) < createWork (σ.create t) := by
    intro τ pc same less
    refine ⟨fun u other => ?_,?_⟩
    · rw [State.createAt,← same]
      exact Function.update_of_ne other ..
    · rwa [createAt_self]
  unfold mythreadCreate
  cases here : σ.create t with
  | outside | returned | failed _ =>
    rw [here] at busy
    exact absurd trivial busy
  | checkArguments thread start_routine =>
    dsimp only
    split
    all_goals exact ⟨_,rfl,here ▸ goes rfl (by rw [here]; simp [createWork])⟩
  | destroyStack saved_errno =>
    refine ⟨_,rfl,here ▸ goes ?_ (by rw [here]; simp [createWork])⟩
    unfold State.destroyStack
    split <;> rfl
  | _ => exact ⟨_,rfl,here ▸ goes rfl (by rw [here]; simp [createWork])⟩

/-! ### Rest -/

/-- No call is in progress, and no thread is behind its start routine. The reaper, if
    there is one, waits with nothing to do. -/
structure AtRest (σ : State) : Prop where
  creates : ∀ t, Ended (σ.create t)
  clients : ∀ c, σ.lib.client c = .idle
  threads : ∀ t, σ.lib.startup t = .running ∨ σ.lib.startup t = .exited
  reaper : σ.starter.reapers ≠ [] → ThreadReclaim.AtRest σ.lib

/-- There is so much to do for the calls of `mythread_create` in `creates`, and for the
    threads. -/
def Measured (n : Nat) (σ : State) : Prop :=
  Standing σ ∧ ∃ (creates : Finset Nat) (m : Nat), (∀ t, t ∉ creates → σ.create t = .outside) ∧
    ThreadProgress.Measured m σ.lib ∧ ∑ t ∈ creates, createWork (σ.create t) + m = n

/-- As long as the library is not at rest, a few steps leave less to do. -/
theorem descends (n : Nat) (σ : State) (measured : Measured n σ) : AtRest σ ∨ ∃ acts σ' m,
    Transition.run step σ acts = some σ' ∧ Along step Orderly σ acts ∧ m < n ∧ Measured m σ' := by
  obtain ⟨standing,creates,m,outside,threads,rfl⟩ := measured
  by_cases ended : ∀ t, Ended (σ.create t)
  case neg =>
    obtain ⟨t,busy⟩ := not_forall.mp ended
    obtain ⟨σ',taken,others,less⟩ := creator_goes busy
    have member : t ∈ creates := by
      by_contra out
      exact busy (by rw [outside t out]; trivial)
    have done : step σ (.creator t ⟨4096,none⟩) = some σ' := taken
    have sum := @ThreadProgress.sum_others creates (fun t => createWork (σ.create t))
      (fun t => createWork (σ'.create t)) t member fun u other => by rw [others u other]
    refine .inr ⟨[_],σ',_,Transition.run_cons.mpr ⟨σ',done,rfl⟩,(Transition.along_cons done).mpr ⟨rfl,trivial⟩,?_,
      standing_step standing done,creates,m,fun u out => ?_,?_,rfl⟩
    · omega
    · rw [others u fun isT => out (isT ▸ member)]
      exact outside u out
    · rw [(sound_creator standing.sound taken).2.1]
      exact threads
  have off : ¬ σ.starter.reapers ≠ [] → ¬ ReapInvariant.ReaperLocks σ.lib.queue.reaper := by
    intro absent locks
    rw [(standing.unstarted (not_not.mp absent)).waits] at locks
    exact locks
  rcases ThreadProgress.descends threads off with ⟨quiet,reaper⟩ | ⟨a,lib,m',orderly,able,done,less,threads'⟩
  · exact .inl ⟨ended,quiet.clients,quiet.threads,reaper⟩
  · obtain ⟨acts,σ',ran,along,isLib,create⟩ := lifts standing orderly able done
    have standing' : Standing σ' :=
      Transition.run_invariant (fun _ _ _ standing done => standing_step standing done) ran standing
    refine .inr ⟨acts,σ',_,ran,along,?_,standing',creates,m',fun t out => ?_,isLib ▸ threads',rfl⟩
    · rw [create]
      omega
    · rw [create]
      exact outside t out

theorem mythreadCreate_others {env : Env} (done : mythreadCreate σ t env = some σ') {u : Nat} (other : u ≠ t) :
    σ'.create u = σ.create u := by
  have at_pc : ∀ {τ : State} {pc}, τ.create = σ.create → (τ.createAt t pc).create u = σ.create u := by
    intro τ pc same
    rw [State.createAt,← same]
    exact Function.update_of_ne other ..
  unfold mythreadCreate at done
  cases here : σ.create t with
  | outside | returned | failed _ => rw [here] at done; cases done
  | destroyStack saved_errno =>
    rw [here] at done
    cases done
    refine at_pc ?_
    unfold State.destroyStack
    split <;> rfl
  | _ =>
    rw [here] at done
    dsimp only at done
    try split at done
    all_goals cases done; exact at_pc rfl

/-- The call of `mythread_create` that a step begins. -/
def begins : Act → Finset Nat
  | .create t _ _ => {t}
  | _ => ∅

theorem create_outside {a : Act} {creates : Finset Nat} (outside : ∀ t, t ∉ creates → σ.create t = .outside)
    (done : step σ a = some σ') : ∀ t, t ∉ begins a ∪ creates → σ'.create t = .outside := by
  intro t out
  rw [Finset.mem_union,not_or] at out
  have was := outside t out.2
  have same : σ'.create t = σ.create t := by
    cases a with
    | create u thread start_routine =>
      simp only [step] at done
      split at done <;> cases done
      exact Function.update_of_ne (fun isU => out.1 (Finset.mem_singleton.mpr isU)) ..
    | creator u env =>
      refine mythreadCreate_others done fun isU => ?_
      rw [isU] at was
      simp [step,mythreadCreate,was] at done
    | starter p env => exact congrFun (starter_cases done).2.2.1 t
    | library b =>
      simp only [step] at done
      split at done
      · obtain ⟨lib,_,rfl⟩ := Option.map_eq_some_iff.mp done
        rfl
      · cases done
  exact same.trans was

theorem measured_of_run {acts : List Act} (ran : Transition.run step start acts = some σ) : ∃ n, Measured n σ := by
  obtain ⟨acts',lib⟩ := (library_runs ran).1
  obtain ⟨m,threads⟩ := ThreadProgress.measured_of_run lib
  have keeps : ∀ τ a τ', (∃ creates : Finset Nat, ∀ t, t ∉ creates → τ.create t = .outside) → step τ a = some τ' →
      ∃ creates : Finset Nat, ∀ t, t ∉ creates → τ'.create t = .outside :=
    fun τ a τ' ⟨_,outside⟩ done => ⟨_,create_outside outside done⟩
  obtain ⟨creates,outside⟩ := Transition.run_invariant keeps ran ⟨∅,fun _ _ => rfl⟩
  exact ⟨_,run_standing ran,creates,m,outside,threads,rfl⟩

/-- The thread is joined, or it is detached and over, no allocation has failed on its way
    to the reaper, and there is a reaper. -/
def Due (t : Nat) (acts : List Act) (σ : State) : Prop :=
  (σ.lib.flags t).joined = true ∨ σ.starter.reapers ≠ [] ∧ (σ.lib.flags t).detached = true ∧
    σ.lib.startup t = .exited ∧ Along step (fun σ a => ¬ Drops t σ a) start acts

/-- Without a reaper exactly the joined threads are released. -/
theorem released_without_reaper (standing : Standing σ) (none : σ.starter.reapers = [])
    (clients : ∀ c, σ.lib.client c = .idle) (t : Nat) :
    ReleasedOnce t σ.lib ↔ (σ.lib.flags t).joined = true := by
  have known := standing.sound.known
  constructor
  · rintro ⟨r,unmapped,_⟩
    rcases known.owned.released.settled t with ⟨nothing,_⟩ | ⟨q,rightful,same,_⟩
    · rw [nothing] at unmapped
      cases unmapped
    · cases q with
      | joiner c => exact rightful.1
      | reaper => exact absurd (by rw [same]; exact List.mem_singleton_self _) ((standing.unstarted none).unmapped t)
  · intro joined
    have freed : σ.lib.freed t ≠ [] := by
      refine (known.reclaimed.joined t joined).resolve_left ?_
      rintro ⟨c,won⟩
      rw [clients c] at won
      exact won
    rcases known.owned.released.settled t with ⟨_,nothing⟩ | ⟨r,_,unmapped,nothing | once⟩
    · exact absurd nothing freed
    · exact absurd nothing freed
    · exact ⟨r,unmapped,once⟩

theorem AtRest.releasedOnce_iff {acts : List Act} (rest : AtRest σ) (ran : Transition.run step start acts = some σ)
    (t : Nat) : ReleasedOnce t σ.lib ↔ Due t acts σ := by
  have standing := run_standing ran
  by_cases reaper : σ.starter.reapers = []
  · rw [released_without_reaper standing reaper rest.clients,Due]
    exact (or_iff_left fun both => both.1 reaper).symm
  · rw [(rest.reaper reaper).releasedOnce_iff standing.sound.known t,Due,LibraryRest.whole_iff ran t,
      and_iff_right (a := σ.starter.reapers ≠ []) reaper]

/-- Whatever has happened in a run, the library can come to rest without another call:
    the calls return, the threads behind their start routines exit, and a reaper has
    nothing left to do. What is due to be released has been released, once, by one
    party. -/
theorem comes_to_rest {acts : List Act} (ran : Transition.run step start acts = some σ) :
    ∃ more σ', Transition.run step σ more = some σ' ∧ Along step Orderly σ more ∧ AtRest σ' ∧
      (∀ c call, callOf (σ.lib.client c) = some call → ∃ result, ⟨c,call,result⟩ ∈ σ'.lib.returns) ∧
      ∀ t, ReleasedOnce t σ'.lib ↔ Due t (acts ++ more) σ' := by
  obtain ⟨n,measured⟩ := measured_of_run ran
  obtain ⟨more,σ',goes,orderly,rest⟩ := Transition.reaches_by_runs descends measured
  refine ⟨more,σ',goes,orderly,rest,fun c call inside => ?_,rest.releasedOnce_iff (Transition.run_append ran goes)⟩
  have answers : Sound σ' ∧ Answers c call σ'.lib := by
    refine Transition.run_invariant (P := fun τ => Sound τ ∧ Answers c call τ.lib) ?_ goes
      ⟨(run_standing ran).sound,.inl inside⟩
    rintro τ a τ' ⟨sound,answers⟩ done
    obtain ⟨sound',lib | ⟨b,taken⟩,_⟩ := sound_step sound done
    · exact ⟨sound',by rw [lib]; exact answers⟩
    · exact ⟨sound',ThreadProgress.answers_step answers taken⟩
  refine answers.2.resolve_left fun still => ?_
  rw [rest.clients c] at still
  cases still

/-- The thread 0 is detached and over, and its call of `start_reaper` fails; it is inside
    `reap_enqueue`. The client 1 sleeps in its join of the thread 1, and the creation of the
    thread 2 is in progress. -/
def strandedSchedule : List Act :=
  let go : ReapQueue.Env := ⟨some 0,false⟩
  let creates (t n : Nat) : List Act := .create t true true :: List.replicate n (.creator t ⟨4096,none⟩)
  creates 0 8 ++ creates 1 8 ++ creates 2 3 ++ .library (.call 0 (.detach 0)) :: List.replicate 3
    (.library (.client 0 go)) ++ .library (.call 1 (.join 1 true)) :: List.replicate 4 (.library (.client 1 go)) ++
    .library (.finish 0 7) :: List.replicate 5 (.library (.startup 0 ⟨go,0⟩)) ++
    List.replicate 5 (.starter (.thread 0) ⟨4096,.error 12⟩) ++ List.replicate 3 (.library (.startup 0 ⟨go,0⟩))

def after (acts : List Act) : State := (Transition.run step start acts).getD start

-- The thread goes on to its exit, and nobody releases it.
example :
    let exits := strandedSchedule ++ List.replicate 8 (.library (.startup 0 ⟨⟨some 0,false⟩,0⟩))
    (after exits).lib.startup 0 = .exited ∧ (after exits).starter.reapers = [] ∧ (after exits).lib.freed 0 = [] := by
  decide

theorem stranded_runs : Transition.run step start strandedSchedule = some (after strandedSchedule) := rfl

theorem comes_to_rest_stranded : ∃ more σ', Transition.run step (after strandedSchedule) more = some σ' ∧
    Along step Orderly (after strandedSchedule) more ∧ AtRest σ' ∧
    (∀ c call, callOf ((after strandedSchedule).lib.client c) = some call →
      ∃ result, ⟨c,call,result⟩ ∈ σ'.lib.returns) ∧
    ∀ t, ReleasedOnce t σ'.lib ↔ Due t (strandedSchedule ++ more) σ' :=
  comes_to_rest stranded_runs

end Os5Sem.LibraryProgress

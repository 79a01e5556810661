import Os5Sem.WoReaper

/-!
Who releases a thread in the library without a reaper. The flag `joined` is taken
once, by the thread, a joiner or a detacher, and whoever takes it releases the
stack and the block, unless it is the thread and it does not find itself detached
(`released_once_iff`).
-/
namespace Os5Sem.WoReaperOwnership
open Os5Sem.MyThread (Call Result Return)
open Os5Sem.WoReaper
open Os5Sem.Transition (Along Throughout)

variable {σ σ' : State}

/-! ### The steps -/

/-- Where a call begins. -/
def entry : Call → ClientPc
  | .join t wants => .join t wants .loadDetached
  | .detach t => .detach t .storeDetached

/-- What can happen, and where it leads. -/
inductive Step (σ : State) : Act → State → Prop
  | finish (t retval : Nat) (running : σ.startup t = .running) :
    Step σ (.finish t retval) (σ.startupAt t (.storeRetval retval))
  | startup {t : Nat} {env : Env} {σ' : State} (done : threadStartup σ t env = some σ') : Step σ (.startup t env) σ'
  | call (c : Nat) (call : Call) (top : σ.client c = .idle) :
    Step σ (.call c call) { σ.clientAt c (entry call) with calls := σ.calls ++ [(c,call)] }
  | join {c t : Nat} {wants : Bool} {pc : JoinPc} (here : σ.client c = .join t wants pc) :
    Step σ (.client c) (mythreadJoin σ c t wants pc)
  | detach {c t : Nat} {pc : DetachPc} (here : σ.client c = .detach t pc) :
    Step σ (.client c) (mythreadDetach σ c t pc)

theorem step_cases {a : Act} (done : step σ a = some σ') : Step σ a σ' := by
  unfold step at done
  split at done
  · cases done
  cases a with
  | finish t retval =>
    simp only at done
    split at done <;> cases done
    exact .finish t retval ‹_›
  | startup t env => exact .startup done
  | call c call =>
    simp only at done
    split at done
    · cases call <;> cases done <;> exact .call c _ ‹_›
    · cases done
  | client c =>
    simp only at done
    split at done
    · cases done
    · cases done; exact .join ‹_›
    · cases done; exact .detach ‹_›

/-! ### The part of the state that belongs to a thread -/

/-- A thread's block, who has taken its flag, and its releases. -/
structure Part where
  block : Block
  taken : Option Releaser
  unmapped : List Releaser
  freed : List Releaser

def part (σ : State) (t : Nat) : Part := ⟨σ.block t,σ.taken t,σ.unmapped t,σ.freed t⟩

namespace Part

def setBlock (p : Part) (block : Block) : Part := { p with block }
def take (p : Part) (r : Releaser) : Part := { p with block := { p.block with joined := true }, taken := some r }
def unmap (p : Part) (r : Releaser) : Part := { p with unmapped := p.unmapped ++ [r] }
def free (p : Part) (r : Releaser) : Part := { p with freed := p.freed ++ [r] }

end Part

@[simp] theorem part_startupAt (t u : Nat) (pc : StartupPc) : part (σ.startupAt u pc) t = part σ t := rfl

@[simp] theorem startupAt_self (t : Nat) (pc : StartupPc) : (σ.startupAt t pc).startup t = pc := by
  simp [State.startupAt]

@[simp] theorem part_clientAt (t c : Nat) (pc : ClientPc) : part (σ.clientAt c pc) t = part σ t := rfl

@[simp] theorem part_leave (t c : Nat) (call : Call) (result : Result) :
    part (σ.leave c call result) t = part σ t := rfl

@[simp] theorem part_wake (t c : Nat) : part (σ.wake c) t = part σ t := by
  unfold State.wake
  split <;> rfl

@[simp] theorem part_futexWake (t u pick : Nat) : part (σ.futexWake u pick) t = part σ t := by
  unfold State.futexWake
  split
  · rfl
  · exact part_wake ..

theorem part_setBlock (t u : Nat) (block : Block) :
    part (σ.setBlock u block) t = if t = u then (part σ t).setBlock block else part σ t := by
  by_cases isT : t = u
  · subst isT; simp [part,State.setBlock,Part.setBlock]
  · simp [part,State.setBlock,isT]

theorem part_take (t u : Nat) (r : Releaser) :
    part (σ.take u r) t = if t = u then (part σ t).take r else part σ t := by
  by_cases isT : t = u
  · subst isT; simp [part,State.take,State.setBlock,Part.take]
  · simp [part,State.take,State.setBlock,isT]

theorem part_unmap (t u : Nat) (r : Releaser) :
    part (σ.unmap u r) t = if t = u then (part σ t).unmap r else part σ t := by
  by_cases isT : t = u
  · subst isT; simp [part,State.unmap,Part.unmap]
  · simp [part,State.unmap,isT]

theorem part_free (t u : Nat) (r : Releaser) :
    part (σ.free u r) t = if t = u then (part σ t).free r else part σ t := by
  by_cases isT : t = u
  · subst isT; simp [part,State.free,Part.free]
  · simp [part,State.free,isT]

/-! ### What a program point tells -/

/-- What the thread knows of its own part. -/
def StartupKnows (p : Part) : StartupPc → Prop
  | .running | .storeRetval _ | .storeFinished => p.block.finished = false ∧ p.taken ≠ some .thread
  | .futexWake | .compareExchange => p.block.finished = true ∧ p.taken ≠ some .thread
  | .loadDetached => p.block.finished = true ∧ p.taken = some .thread ∧ p.unmapped = [] ∧ p.freed = []
  | .malloc | .fillArgs | .mmap | .swapContext | .munmap =>
    p.block.finished = true ∧ p.block.detached = true ∧ p.taken = some .thread ∧ p.unmapped = [] ∧ p.freed = []
  | .freeBlock =>
    p.block.finished = true ∧ p.block.detached = true ∧ p.taken = some .thread ∧ p.unmapped = [.thread] ∧ p.freed = []
  | .freeArgs | .trampolineExit =>
    p.block.finished = true ∧ p.block.detached = true ∧ p.taken = some .thread ∧ p.unmapped = [.thread] ∧
      p.freed = [.thread]
  | .exit | .exited =>
    p.block.finished = true ∧ p.taken ≠ none ∧
      (p.taken = some .thread → p.unmapped = [] ∧ p.freed = [] ∨
        p.block.detached = true ∧ p.unmapped = [.thread] ∧ p.freed = [.thread])

/-- What a client that is inside a call on the thread knows of the thread's part. -/
def ClientKnows (t c : Nat) (p : Part) : ClientPc → Prop
  | .join u _ .loadRetval | .join u _ (.exchange _) | .detach u .compareExchange => u = t → p.block.finished = true
  | .join u _ (.destroyStack _) | .detach u .destroyStack =>
    u = t → p.block.finished = true ∧ p.taken = some (.client c) ∧ p.unmapped = [] ∧ p.freed = []
  | .join u _ (.free _) | .detach u .free =>
    u = t → p.block.finished = true ∧ p.taken = some (.client c) ∧ p.unmapped = [.client c] ∧ p.freed = []
  | _ => True

/-- The client is about to unmap the stack of the thread. -/
def Unmaps (t : Nat) : ClientPc → Prop
  | .join u _ (.destroyStack _) | .detach u .destroyStack => u = t
  | _ => False

/-- The client is about to release the thread. -/
def Releasing (t : Nat) : ClientPc → Prop
  | .join u _ (.destroyStack _) | .detach u .destroyStack | .join u _ (.free _) | .detach u .free => u = t
  | _ => False

/-- What is known of a thread's part, for its own program point and those of the
    clients. -/
structure Settled (t : Nat) (p : Part) (startup : StartupPc) (client : Nat → ClientPc) : Prop where
  flag : p.block.joined = p.taken.isSome
  startup : StartupKnows p startup
  clients : ∀ c, ClientKnows t c p (client c)
  untaken : p.taken = none → p.unmapped = [] ∧ p.freed = []
  released : ∀ c, p.taken = some (.client c) → ¬ Releasing t (client c) → p.unmapped = [.client c] ∧
    p.freed = [.client c]

/-- The invariant. -/
def Owned (σ : State) : Prop := ∀ t, Settled t (part σ t) (σ.startup t) σ.client

theorem start_owned : Owned start := fun _ => ⟨rfl,⟨rfl,nofun⟩,fun _ => trivial,fun _ => ⟨rfl,rfl⟩,nofun⟩

variable {t c : Nat} {p p' : Part} {startup : StartupPc} {client client' : Nat → ClientPc}

theorem clientKnows_mono {pc : ClientPc} (finished : p.block.finished = true → p'.block.finished = true)
    (mine : p.taken = some (.client c) → p'.taken = p.taken ∧ p'.unmapped = p.unmapped ∧ p'.freed = p.freed)
    (knows : ClientKnows t c p pc) : ClientKnows t c p' pc := by
  have holding : ∀ {u : Nat} {unmapped : List Releaser},
      (u = t → p.block.finished = true ∧ p.taken = some (.client c) ∧ p.unmapped = unmapped ∧ p.freed = []) →
        u = t → p'.block.finished = true ∧ p'.taken = some (.client c) ∧ p'.unmapped = unmapped ∧ p'.freed = [] := by
    intro u unmapped knows isT
    obtain ⟨done,taken,stack,freed⟩ := knows isT
    obtain ⟨same,sameStack,sameFreed⟩ := mine taken
    exact ⟨finished done,same.trans taken,sameStack.trans stack,sameFreed.trans freed⟩
  cases pc with
  | idle => trivial
  | join u wants pc =>
    cases pc with
    | loadRetval => exact finished ∘ knows
    | exchange stored => exact finished ∘ knows
    | destroyStack stored => exact holding knows
    | free stored => exact holding knows
    | _ => trivial
  | detach u pc =>
    cases pc with
    | compareExchange => exact finished ∘ knows
    | destroyStack => exact holding knows
    | free => exact holding knows
    | _ => trivial

/-- What a client may do to a thread's part. -/
structure Foreign (p p' : Part) : Prop where
  finished : p'.block.finished = p.block.finished
  detached : p.block.detached = true → p'.block.detached = true
  stays : p.taken ≠ none → p'.taken ≠ none
  mine : p'.taken = some .thread ↔ p.taken = some .thread
  kept : p.taken = some .thread → p'.unmapped = p.unmapped ∧ p'.freed = p.freed

theorem foreign_refl (p : Part) : Foreign p p := ⟨rfl,id,id,.rfl,fun _ => ⟨rfl,rfl⟩⟩

theorem foreign_detach (p : Part) : Foreign p (p.setBlock { p.block with detached := true }) :=
  ⟨rfl,fun _ => rfl,id,.rfl,fun _ => ⟨rfl,rfl⟩⟩

theorem foreign_take (c : Nat) (none : p.taken = none) : Foreign p (p.take (.client c)) where
  finished := rfl
  detached := id
  stays some := absurd none some
  mine := iff_of_false (by simp [Part.take]) (by simp [none])
  kept _ := ⟨rfl,rfl⟩

/-- A client releases a thread that it has taken. -/
theorem foreign_release (taken : p.taken = some (.client c)) (block : p'.block = p.block) (same : p'.taken = p.taken) :
    Foreign p p' where
  finished := by rw [block]
  detached := by rw [block]; exact id
  stays := by rw [same]; exact id
  mine := by rw [same]
  kept mine := absurd (taken.symm.trans mine) (by simp)

theorem startupKnows_foreign (foreign : Foreign p p') (knows : StartupKnows p startup) : StartupKnows p' startup := by
  obtain ⟨finished,detached,stays,mine,kept⟩ := foreign
  have releasing : ∀ {unmapped freed : List Releaser}, p.block.finished = true ∧ p.block.detached = true ∧
      p.taken = some .thread ∧ p.unmapped = unmapped ∧ p.freed = freed →
      p'.block.finished = true ∧ p'.block.detached = true ∧ p'.taken = some .thread ∧ p'.unmapped = unmapped ∧
        p'.freed = freed := by
    rintro unmapped freed ⟨done,isDetached,taken,stack,block⟩
    obtain ⟨sameStack,sameBlock⟩ := kept taken
    exact ⟨finished.trans done,detached isDetached,mine.mpr taken,sameStack.trans stack,sameBlock.trans block⟩
  have early : ∀ {done : Bool}, p.block.finished = done ∧ p.taken ≠ some .thread →
      p'.block.finished = done ∧ p'.taken ≠ some .thread := fun knows =>
    ⟨finished.trans knows.1,fun taken => knows.2 (mine.mp taken)⟩
  have late : (p.block.finished = true ∧ p.taken ≠ none ∧ (p.taken = some .thread → p.unmapped = [] ∧ p.freed = [] ∨
        p.block.detached = true ∧ p.unmapped = [.thread] ∧ p.freed = [.thread])) →
      p'.block.finished = true ∧ p'.taken ≠ none ∧ (p'.taken = some .thread → p'.unmapped = [] ∧ p'.freed = [] ∨
        p'.block.detached = true ∧ p'.unmapped = [.thread] ∧ p'.freed = [.thread]) := by
    rintro ⟨done,some,either⟩
    refine ⟨finished.trans done,stays some,fun taken => ?_⟩
    obtain ⟨sameStack,sameBlock⟩ := kept (mine.mp taken)
    rw [sameStack,sameBlock]
    exact (either (mine.mp taken)).imp_right fun ⟨isDetached,released⟩ => ⟨detached isDetached,released⟩
  cases startup with
  | running => exact early knows
  | storeRetval _ => exact early knows
  | storeFinished => exact early knows
  | futexWake => exact early knows
  | compareExchange => exact early knows
  | loadDetached =>
    obtain ⟨done,taken,stack,block⟩ := knows
    obtain ⟨sameStack,sameBlock⟩ := kept taken
    exact ⟨finished.trans done,mine.mpr taken,sameStack.trans stack,sameBlock.trans block⟩
  | exit => exact late knows
  | exited => exact late knows
  | _ => exact releasing knows

theorem Settled.free (settled : Settled t p startup client) (free : p.block.joined = false) : p.taken = none := by
  have flag := settled.flag
  rw [free] at flag
  simpa using flag.symm

/-- A client goes on, and nothing of the thread's part changes. -/
theorem Settled.clientsGo (settled : Settled t p startup client)
    (goes : ∀ c, client' c = client c ∨
      ClientKnows t c p (client' c) ∧ (Releasing t (client c) → Releasing t (client' c))) :
    Settled t p startup client' := by
  refine ⟨settled.flag,settled.startup,fun c => ?_,settled.untaken,fun c taken out => ?_⟩
  · rcases goes c with same | ⟨knows,_⟩
    · exact same ▸ settled.clients c
    · exact knows
  · refine settled.released c taken fun releasing => out ?_
    rcases goes c with same | ⟨_,still⟩
    · exact same ▸ releasing
    · exact still releasing

/-! ### Steps of the thread -/

/-- The thread goes on, and nothing of its part changes. -/
theorem Settled.startupGoes (settled : Settled t p startup client) {startup' : StartupPc}
    (knows : StartupKnows p startup') : Settled t p startup' client :=
  ⟨settled.flag,knows,settled.clients,settled.untaken,settled.released⟩

/-- The thread changes its part, which it has either taken or is not able to
    release yet. -/
theorem Settled.startupWrites (settled : Settled t p startup client) {startup' : StartupPc}
    (flag : p'.block.joined = p'.taken.isSome) (knows : StartupKnows p' startup')
    (finished : p.block.finished = true → p'.block.finished = true)
    (untaken : p'.taken = none → p'.unmapped = [] ∧ p'.freed = [])
    (others : ∀ c, p.taken = some (.client c) ∨ p'.taken = some (.client c) →
      p'.taken = p.taken ∧ p'.unmapped = p.unmapped ∧ p'.freed = p.freed) : Settled t p' startup' client := by
  refine ⟨flag,knows,fun c => ?_,untaken,fun c taken out => ?_⟩
  · exact clientKnows_mono finished (fun taken => others c (.inl taken)) (settled.clients c)
  · obtain ⟨same,stack,block⟩ := others c (.inr taken)
    rw [stack,block]
    exact settled.released c (same ▸ taken) out

theorem wake_client (σ : State) (c d : Nat) : (σ.wake c).client d = σ.client d ∨
    ∃ u wants, σ.client d = .join u wants .asleep ∧ (σ.wake c).client d = .join u wants .loadFinished := by
  unfold State.wake
  split
  · rename_i u wants here
    by_cases isC : d = c
    · subst isC
      exact .inr ⟨u,wants,here,by simp [State.clientAt]⟩
    · exact .inl (by simp [State.clientAt,isC])
  · exact .inl rfl

/-- A thread's step leaves the parts of the others alone. -/
theorem threadStartup_others {u : Nat} {env : Env} (done : threadStartup σ u env = some σ') (other : t ≠ u) :
    part σ' t = part σ t ∧ σ'.startup t = σ.startup t := by
  have goes : ∀ (τ : State) pc, part τ t = part σ t → τ.startup = σ.startup →
      part (τ.startupAt u pc) t = part σ t ∧ (τ.startupAt u pc).startup t = σ.startup t := by
    intro τ pc same startups
    exact ⟨same,by simp [State.startupAt,other,startups]⟩
  have wake : ∀ pick, (σ.futexWake u pick).startup = σ.startup := by
    intro pick
    unfold State.futexWake
    split
    · rfl
    · unfold State.wake
      split <;> rfl
  cases here : σ.startup u <;> simp only [threadStartup,here] at done <;> try split at done
  all_goals cases done
  case storeRetval retval => exact goes _ _ (by rw [part_setBlock,if_neg other]) rfl
  case storeFinished => exact goes _ _ (by rw [part_setBlock,if_neg other]) rfl
  case futexWake => exact goes _ _ (part_futexWake ..) (wake _)
  case compareExchange.isFalse => exact goes _ _ (by rw [part_take,if_neg other]) rfl
  case munmap => exact goes _ _ (by rw [part_unmap,if_neg other]) rfl
  case freeBlock => exact goes _ _ (by rw [part_free,if_neg other]) rfl
  case malloc.isFalse => exact ⟨rfl,rfl⟩
  case mmap.isFalse => exact ⟨rfl,rfl⟩
  all_goals exact goes _ _ rfl rfl

/-- Of a thread's steps only the wake moves a client, a joiner that sleeps. -/
theorem threadStartup_clients {u : Nat} {env : Env} (done : threadStartup σ u env = some σ') :
    σ'.client = σ.client ∨ ∃ c, σ'.client = (σ.wake c).client := by
  cases here : σ.startup u <;> simp only [threadStartup,here] at done <;> try split at done
  all_goals cases done
  case futexWake =>
    show (σ.futexWake u env.pick).client = _ ∨ _
    unfold State.futexWake
    split
    · exact .inl rfl
    · exact .inr ⟨_,rfl⟩
  all_goals exact .inl rfl

theorem clients_goes {u : Nat} {env : Env} (done : threadStartup σ u env = some σ') (p : Part) (c : Nat) :
    σ'.client c = σ.client c ∨
      ClientKnows t c p (σ'.client c) ∧ (Releasing t (σ.client c) → Releasing t (σ'.client c)) := by
  rcases threadStartup_clients done with same | ⟨d,woken⟩
  · exact .inl (congrFun same c)
  · rw [woken]
    refine (wake_client σ d c).imp_right ?_
    rintro ⟨u,wants,was,now⟩
    rw [was,now]
    exact ⟨trivial,id⟩

/-- A thread's step, for its own part and before a client is woken. -/
theorem settled_startup {env : Env} (settled : Settled t (part σ t) (σ.startup t) client)
    (done : threadStartup σ t env = some σ') : Settled t (part σ' t) (σ'.startup t) client := by
  have knows := settled.startup
  cases here : σ.startup t <;> rw [here] at knows <;> simp only [threadStartup,here] at done <;> try split at done
  all_goals cases done
  case malloc.isFalse => exact settled
  case mmap.isFalse => exact settled
  all_goals rw [part_startupAt,startupAt_self]
  case storeRetval retval =>
    rw [part_setBlock,if_pos rfl]
    exact settled.startupWrites settled.flag knows id settled.untaken fun _ _ => ⟨rfl,rfl,rfl⟩
  case storeFinished =>
    rw [part_setBlock,if_pos rfl]
    exact settled.startupWrites settled.flag ⟨rfl,knows.2⟩ (fun _ => rfl) settled.untaken fun _ _ => ⟨rfl,rfl,rfl⟩
  case futexWake =>
    rw [part_futexWake]
    exact settled.startupGoes knows
  case compareExchange.isTrue taken =>
    have some : (part σ t).taken ≠ none := by
      intro none
      have flag := settled.flag
      rw [none] at flag
      exact absurd (flag.symm.trans taken) (by simp)
    exact settled.startupGoes ⟨knows.1,some,fun mine => absurd mine knows.2⟩
  case compareExchange.isFalse free =>
    have none := settled.free (eq_false_of_ne_true free)
    rw [part_take,if_pos rfl]
    refine settled.startupWrites rfl ⟨knows.1,rfl,settled.untaken none⟩ id nofun fun c either => ?_
    rcases either with was | now
    · rw [none] at was; cases was
    · cases now
  case loadDetached.isTrue detached => exact settled.startupGoes ⟨knows.1,detached,knows.2⟩
  case loadDetached.isFalse =>
    exact settled.startupGoes ⟨knows.1,by rw [knows.2.1]; nofun,fun _ => .inl knows.2.2⟩
  case exit => exact settled.startupGoes knows
  case malloc.isTrue => exact settled.startupGoes knows
  case fillArgs => exact settled.startupGoes knows
  case mmap.isTrue => exact settled.startupGoes knows
  case swapContext => exact settled.startupGoes knows
  case munmap =>
    obtain ⟨finished,detached,taken,stack,block⟩ := knows
    rw [part_unmap,if_pos rfl]
    refine settled.startupWrites settled.flag ⟨finished,detached,taken,by simp [Part.unmap,stack],block⟩ id ?_ ?_
    · intro none
      exact absurd (taken.symm.trans none) nofun
    · intro c either
      exact absurd (taken.symm.trans (or_self_iff.mp either)) (by simp)
  case freeBlock =>
    obtain ⟨finished,detached,taken,stack,block⟩ := knows
    rw [part_free,if_pos rfl]
    refine settled.startupWrites settled.flag ⟨finished,detached,taken,stack,by simp [Part.free,block]⟩ id ?_ ?_
    · intro none
      exact absurd (taken.symm.trans none) nofun
    · intro c either
      exact absurd (taken.symm.trans (or_self_iff.mp either)) (by simp)
  case freeArgs => exact settled.startupGoes knows
  case trampolineExit =>
    obtain ⟨finished,detached,taken,released⟩ := knows
    exact settled.startupGoes ⟨finished,by rw [taken]; nofun,fun _ => .inr ⟨detached,released⟩⟩

theorem owned_startup {u : Nat} {env : Env} (owned : Owned σ) (done : threadStartup σ u env = some σ') : Owned σ' := by
  intro t
  by_cases isT : t = u
  · subst isT
    exact (settled_startup (owned t) done).clientsGo (clients_goes done _)
  · obtain ⟨same,startup⟩ := threadStartup_others done isT
    rw [same,startup]
    exact (owned t).clientsGo (clients_goes done _)

/-! ### Steps of the clients -/

/-- The client goes on, and nothing of the thread's part changes. -/
theorem Settled.clientGoes (settled : Settled t p startup client) {pc : ClientPc} (knows : ClientKnows t c p pc)
    (still : Releasing t (client c) → Releasing t pc) : Settled t p startup (Function.update client c pc) := by
  refine settled.clientsGo fun d => ?_
  by_cases isC : d = c
  · subst isC
    rw [Function.update_self]
    exact .inr ⟨knows,still⟩
  · exact .inl (Function.update_of_ne isC ..)

/-- The client changes the part of the thread, which it has taken or which no other
    has taken. -/
theorem Settled.clientWrites (settled : Settled t p startup client) {pc : ClientPc} (foreign : Foreign p p')
    (flag : p'.block.joined = p'.taken.isSome) (own : ClientKnows t c p' pc)
    (untaken : p'.taken = none → p'.unmapped = [] ∧ p'.freed = [])
    (others : ∀ d, d ≠ c → p.taken = some (.client d) ∨ p'.taken = some (.client d) →
      p'.taken = p.taken ∧ p'.unmapped = p.unmapped ∧ p'.freed = p.freed)
    (mine : p'.taken = some (.client c) → ¬ Releasing t pc → p'.unmapped = [.client c] ∧ p'.freed = [.client c]) :
    Settled t p' startup (Function.update client c pc) := by
  have finished : p.block.finished = true → p'.block.finished = true := fun done => foreign.finished.trans done
  refine ⟨flag,startupKnows_foreign foreign settled.startup,fun d => ?_,untaken,fun d taken out => ?_⟩ <;>
    by_cases isC : d = c
  · subst isC
    rw [Function.update_self]
    exact own
  · rw [Function.update_of_ne isC]
    exact clientKnows_mono finished (fun taken => others d isC (.inl taken)) (settled.clients d)
  · subst isC
    rw [Function.update_self] at out
    exact mine taken out
  · rw [Function.update_of_ne isC] at out
    obtain ⟨same,stack,block⟩ := others d isC (.inr taken)
    rw [stack,block]
    exact settled.released d (same ▸ taken) out

/-- The client takes the flag of a thread that has finished. -/
theorem Settled.clientTakes (settled : Settled t p startup client) {pc : ClientPc} (free : p.block.joined = false)
    (own : p.unmapped = [] ∧ p.freed = [] → ClientKnows t c (p.take (.client c)) pc) (releasing : Releasing t pc) :
    Settled t (p.take (.client c)) startup (Function.update client c pc) := by
  have none := settled.free free
  have nothing := settled.untaken none
  refine settled.clientWrites (foreign_take c none) rfl (own nothing) nofun (fun d other either => ?_)
    fun _ out => absurd releasing out
  rcases either with was | now
  · rw [none] at was; cases was
  · exact absurd (Option.some.inj now).symm (by simpa using other)

/-- The client unmaps the stack of the thread that it has taken. -/
theorem Settled.clientUnmaps (settled : Settled t p startup client) {pc : ClientPc} (taken : p.taken = some (.client c))
    (own : ClientKnows t c (p.unmap (.client c)) pc) (releasing : Releasing t pc) :
    Settled t (p.unmap (.client c)) startup (Function.update client c pc) := by
  refine settled.clientWrites (foreign_release taken rfl rfl) settled.flag own
    (fun none => absurd (taken.symm.trans none) nofun) (fun d other either => ?_) fun _ out => absurd releasing out
  exact absurd (taken.symm.trans (or_self_iff.mp either)) (by simpa using other.symm)

/-- The client frees the block of the thread that it has taken. -/
theorem Settled.clientFrees (settled : Settled t p startup client) (taken : p.taken = some (.client c))
    (unmapped : p.unmapped = [.client c]) (freed : p.freed = []) :
    Settled t (p.free (.client c)) startup (Function.update client c .idle) := by
  refine settled.clientWrites (foreign_release taken rfl rfl) settled.flag trivial
    (fun none => absurd (taken.symm.trans none) nofun) (fun d other either => ?_)
    fun _ _ => ⟨unmapped,by simp [Part.free,freed]⟩
  exact absurd (taken.symm.trans (or_self_iff.mp either)) (by simpa using other.symm)

theorem wake_self {u : Nat} {wants : Bool} (here : σ.client c = .join u wants .asleep) :
    (σ.wake c).client = Function.update σ.client c (.join u wants .loadFinished) ∧ (σ.wake c).startup = σ.startup := by
  simp [State.wake,here,State.clientAt]

/-- A step of a join leaves the other threads alone. -/
theorem mythreadJoin_others {u : Nat} {wants : Bool} {pc : JoinPc} (here : σ.client c = .join u wants pc) :
    (∀ t, t ≠ u → part (mythreadJoin σ c u wants pc) t = part σ t) ∧
      (mythreadJoin σ c u wants pc).startup = σ.startup ∧
      ∃ pc', (mythreadJoin σ c u wants pc).client = Function.update σ.client c pc' ∧
        (pc' = .idle ∨ ∃ now, pc' = .join u wants now) := by
  cases pc with
  | loadDetached => rw [mythreadJoin]; split <;> exact ⟨fun _ _ => rfl,rfl,_,rfl,by simp⟩
  | loadFinished =>
    rw [mythreadJoin]
    split
    · split <;> exact ⟨fun _ _ => rfl,rfl,_,rfl,by simp⟩
    · exact ⟨fun _ _ => rfl,rfl,_,rfl,by simp⟩
  | futexWait => rw [mythreadJoin]; split <;> exact ⟨fun _ _ => rfl,rfl,_,rfl,by simp⟩
  | asleep => exact ⟨fun t _ => part_wake t c,(wake_self here).2,_,(wake_self here).1,by simp⟩
  | loadRetval => exact ⟨fun _ _ => rfl,rfl,_,rfl,by simp⟩
  | exchange stored =>
    rw [mythreadJoin]
    split
    · exact ⟨fun _ _ => rfl,rfl,_,rfl,by simp⟩
    · exact ⟨fun t other => by rw [part_clientAt,part_take,if_neg other],rfl,_,rfl,by simp⟩
  | destroyStack stored =>
    exact ⟨fun t other => by rw [mythreadJoin,part_clientAt,part_unmap,if_neg other],rfl,_,rfl,by simp⟩
  | free stored => exact ⟨fun t other => by rw [mythreadJoin,part_leave,part_free,if_neg other],rfl,_,rfl,by simp⟩

theorem mythreadDetach_others {u : Nat} {pc : DetachPc} :
    (∀ t, t ≠ u → part (mythreadDetach σ c u pc) t = part σ t) ∧ (mythreadDetach σ c u pc).startup = σ.startup ∧
      ∃ pc', (mythreadDetach σ c u pc).client = Function.update σ.client c pc' ∧
        (pc' = .idle ∨ ∃ now, now ≠ .storeDetached ∧ pc' = .detach u now) := by
  cases pc with
  | storeDetached =>
    exact ⟨fun t other => by rw [mythreadDetach,part_clientAt,part_setBlock,if_neg other],rfl,_,rfl,by simp⟩
  | loadFinished => rw [mythreadDetach]; split <;> exact ⟨fun _ _ => rfl,rfl,_,rfl,by simp⟩
  | compareExchange =>
    rw [mythreadDetach]
    split
    · exact ⟨fun _ _ => rfl,rfl,_,rfl,by simp⟩
    · exact ⟨fun t other => by rw [part_clientAt,part_take,if_neg other],rfl,_,rfl,by simp⟩
  | destroyStack =>
    exact ⟨fun t other => by rw [mythreadDetach,part_clientAt,part_unmap,if_neg other],rfl,_,rfl,by simp⟩
  | free => exact ⟨fun t other => by rw [mythreadDetach,part_leave,part_free,if_neg other],rfl,_,rfl,by simp⟩

/-- What a step of a client does to the part of the thread that it is inside a call
    on, and where it leads. -/
inductive Moves (t c : Nat) (p : Part) (pc : ClientPc) : ClientPc → Part → Prop
  | keeps {pc' : ClientPc} (knows : ClientKnows t c p pc') (out : ¬ Releasing t pc) : Moves t c p pc pc' p
  | detaches {pc' : ClientPc} (knows : ClientKnows t c (p.setBlock { p.block with detached := true }) pc')
      (out : ¬ Releasing t pc) : Moves t c p pc pc' (p.setBlock { p.block with detached := true })
  | takes {pc' : ClientPc} (free : p.block.joined = false)
      (knows : p.unmapped = [] ∧ p.freed = [] → ClientKnows t c (p.take (.client c)) pc')
      (releasing : Releasing t pc') : Moves t c p pc pc' (p.take (.client c))
  | unmaps {pc' : ClientPc} (taken : p.taken = some (.client c)) (now : Unmaps t pc)
      (knows : ClientKnows t c (p.unmap (.client c)) pc') (releasing : Releasing t pc') :
      Moves t c p pc pc' (p.unmap (.client c))
  | frees (taken : p.taken = some (.client c)) (unmapped : p.unmapped = [.client c]) (freed : p.freed = []) :
      Moves t c p pc .idle (p.free (.client c))

theorem Settled.moves (settled : Settled t p startup client) {pc : ClientPc} (moves : Moves t c p (client c) pc p') :
    Settled t p' startup (Function.update client c pc) := by
  cases moves with
  | keeps knows out => exact settled.clientGoes knows fun releasing => absurd releasing out
  | detaches knows out =>
    exact settled.clientWrites (foreign_detach _) settled.flag knows settled.untaken (fun _ _ _ => ⟨rfl,rfl,rfl⟩)
      fun taken _ => settled.released c taken out
  | takes free knows releasing => exact settled.clientTakes free knows releasing
  | unmaps taken _ knows releasing => exact settled.clientUnmaps taken knows releasing
  | frees taken unmapped freed => exact settled.clientFrees taken unmapped freed

theorem Settled.foreign (settled : Settled t p startup client) {pc : ClientPc} (moves : Moves t c p (client c) pc p') :
    Foreign p p' := by
  cases moves with
  | keeps _ _ => exact foreign_refl p
  | detaches _ _ => exact foreign_detach p
  | takes free _ _ => exact foreign_take c (settled.free free)
  | unmaps taken _ _ _ => exact foreign_release taken rfl rfl
  | frees taken _ _ => exact foreign_release taken rfl rfl

theorem join_moves {wants : Bool} {pc : JoinPc} (knows : ClientKnows t c (part σ t) (.join t wants pc))
    (here : σ.client c = .join t wants pc) :
    ∃ pc', (mythreadJoin σ c t wants pc).client = Function.update σ.client c pc' ∧
      Moves t c (part σ t) (.join t wants pc) pc' (part (mythreadJoin σ c t wants pc) t) := by
  cases pc with
  | loadDetached =>
    rw [mythreadJoin]
    split <;> exact ⟨_,rfl,.keeps trivial id⟩
  | loadFinished =>
    rw [mythreadJoin]
    split
    · rename_i finished
      split <;> exact ⟨_,rfl,.keeps (fun _ => finished) id⟩
    · exact ⟨_,rfl,.keeps trivial id⟩
  | futexWait =>
    rw [mythreadJoin]
    split <;> exact ⟨_,rfl,.keeps trivial id⟩
  | asleep =>
    rw [mythreadJoin,part_wake]
    exact ⟨_,(wake_self here).1,.keeps trivial id⟩
  | loadRetval => exact ⟨_,rfl,.keeps knows id⟩
  | exchange stored =>
    rw [mythreadJoin]
    split
    · exact ⟨_,rfl,.keeps trivial id⟩
    · rename_i free
      rw [part_clientAt,part_take,if_pos rfl]
      exact ⟨_,rfl,.takes (eq_false_of_ne_true free) (fun nothing _ => ⟨knows rfl,rfl,nothing⟩) rfl⟩
  | destroyStack stored =>
    obtain ⟨finished,taken,stack,block⟩ := knows rfl
    rw [mythreadJoin,part_clientAt,part_unmap,if_pos rfl]
    exact ⟨_,rfl,.unmaps taken rfl (fun _ => ⟨finished,taken,by simp [Part.unmap,stack],block⟩) rfl⟩
  | free stored =>
    obtain ⟨_,taken,stack,block⟩ := knows rfl
    rw [mythreadJoin,part_leave,part_free,if_pos rfl]
    exact ⟨_,rfl,.frees taken stack block⟩

theorem detach_moves {pc : DetachPc} (knows : ClientKnows t c (part σ t) (.detach t pc)) :
    ∃ pc', (mythreadDetach σ c t pc).client = Function.update σ.client c pc' ∧
      Moves t c (part σ t) (.detach t pc) pc' (part (mythreadDetach σ c t pc) t) := by
  cases pc with
  | storeDetached =>
    rw [mythreadDetach,part_clientAt,part_setBlock,if_pos rfl]
    exact ⟨_,rfl,.detaches trivial id⟩
  | loadFinished =>
    rw [mythreadDetach]
    split
    · exact ⟨_,rfl,.keeps (fun _ => ‹_›) id⟩
    · exact ⟨_,rfl,.keeps trivial id⟩
  | compareExchange =>
    rw [mythreadDetach]
    split
    · exact ⟨_,rfl,.keeps trivial id⟩
    · rename_i free
      rw [part_clientAt,part_take,if_pos rfl]
      exact ⟨_,rfl,.takes (eq_false_of_ne_true free) (fun nothing _ => ⟨knows rfl,rfl,nothing⟩) rfl⟩
  | destroyStack =>
    obtain ⟨finished,taken,stack,block⟩ := knows rfl
    rw [mythreadDetach,part_clientAt,part_unmap,if_pos rfl]
    exact ⟨_,rfl,.unmaps taken rfl (fun _ => ⟨finished,taken,by simp [Part.unmap,stack],block⟩) rfl⟩
  | free =>
    obtain ⟨_,taken,stack,block⟩ := knows rfl
    rw [mythreadDetach,part_leave,part_free,if_pos rfl]
    exact ⟨_,rfl,.frees taken stack block⟩

theorem elsewhere_join {u : Nat} {wants : Bool} {pc : JoinPc} (other : t ≠ u) :
    ClientKnows t c p (.join u wants pc) ∧ ¬ Releasing t (.join u wants pc) := by
  cases pc <;> simp [ClientKnows,Releasing,other.symm]

theorem elsewhere_detach {u : Nat} {pc : DetachPc} (other : t ≠ u) :
    ClientKnows t c p (.detach u pc) ∧ ¬ Releasing t (.detach u pc) := by
  cases pc <;> simp [ClientKnows,Releasing,other.symm]

/-- What a step of a client does: it moves on with the thread that it is inside a
    call on, and leaves the others alone. -/
theorem client_step (owned : Owned σ) (done : step σ (.client c) = some σ') :
    σ'.startup = σ.startup ∧ ∃ pc u, σ'.client = Function.update σ.client c pc ∧
      Moves u c (part σ u) (σ.client c) pc (part σ' u) ∧
      ∀ t, t ≠ u → part σ' t = part σ t ∧ ClientKnows t c (part σ t) pc ∧ ¬ Releasing t (σ.client c) := by
  cases step_cases done with
  | @join c u wants pc here =>
    obtain ⟨others,startups,pc',client,on⟩ := mythreadJoin_others here
    have knows := (owned u).clients c
    rw [here] at knows
    obtain ⟨pc'',client',moves⟩ := join_moves knows here
    have same : pc' = pc'' := by simpa using congrFun (client.symm.trans client') c
    refine ⟨startups,pc',u,client,by rw [here,same]; exact moves,fun t other => ⟨others t other,?_⟩⟩
    refine ⟨?_,here ▸ (elsewhere_join (c := c) (p := part σ t) other).2⟩
    rcases on with rfl | ⟨now,rfl⟩
    · trivial
    · exact (elsewhere_join other).1
  | @detach c u pc here =>
    obtain ⟨others,startups,pc',client,on⟩ := @mythreadDetach_others σ c u pc
    have knows := (owned u).clients c
    rw [here] at knows
    obtain ⟨pc'',client',moves⟩ := detach_moves knows
    have same : pc' = pc'' := by simpa using congrFun (client.symm.trans client') c
    refine ⟨startups,pc',u,client,by rw [here,same]; exact moves,fun t other => ⟨others t other,?_⟩⟩
    refine ⟨?_,here ▸ (elsewhere_detach (c := c) (p := part σ t) other).2⟩
    rcases on with rfl | ⟨now,_,rfl⟩
    · trivial
    · exact (elsewhere_detach other).1

theorem owned_step {a : Act} (owned : Owned σ) (done : step σ a = some σ') : Owned σ' := by
  have client : ∀ c, a = .client c → Owned σ' := by
    rintro c rfl t
    obtain ⟨startups,pc,u,client,moves,others⟩ := client_step owned done
    rw [startups,client]
    by_cases isU : t = u
    · subst isU
      exact (owned t).moves moves
    · obtain ⟨same,knows,out⟩ := others t isU
      rw [same]
      exact (owned t).clientGoes knows fun releasing => absurd releasing out
  cases step_cases done with
  | join => exact client _ rfl
  | detach => exact client _ rfl
  | finish u retval running =>
    intro t
    by_cases isU : t = u
    · subst isU
      have knows := (owned t).startup
      rw [running] at knows
      rw [part_startupAt,startupAt_self]
      exact (owned t).startupGoes knows
    · have same : (σ.startupAt u (.storeRetval retval)).startup t = σ.startup t := by simp [State.startupAt,isU]
      rw [part_startupAt,same]
      exact owned t
  | startup done => exact owned_startup owned done
  | call c call top =>
    intro t
    have out : Releasing t (σ.client c) → Releasing t (entry call) := fun releasing => by
      rw [top] at releasing; exact releasing.elim
    exact (owned t).clientGoes (by cases call <;> trivial) out

/-! ### What becomes of a thread -/

/-- The steps that are not the thread's own leave it where it is, unless its start
    routine returns, and leave its own releases alone. -/
theorem step_foreign {a : Act} (owned : Owned σ) (done : step σ a = some σ') (other : ∀ env, a ≠ .startup t env) :
    Foreign (part σ t) (part σ' t) ∧
      (σ'.startup t = σ.startup t ∨ ∃ retval, σ.startup t = .running ∧ σ'.startup t = .storeRetval retval) := by
  have client : ∀ c, a = .client c → Foreign (part σ t) (part σ' t) ∧ σ'.startup t = σ.startup t := by
    rintro c rfl
    obtain ⟨startups,pc,u,_,moves,others⟩ := client_step owned done
    refine ⟨?_,congrFun startups t⟩
    by_cases isU : t = u
    · subst isU
      exact (owned t).foreign moves
    · rw [(others t isU).1]
      exact foreign_refl _
  cases step_cases done with
  | join => exact (client _ rfl).imp_right .inl
  | detach => exact (client _ rfl).imp_right .inl
  | finish u retval running =>
    refine ⟨foreign_refl _,?_⟩
    by_cases isU : t = u
    · subst isU
      exact .inr ⟨retval,running,startupAt_self ..⟩
    · exact .inl (by simp [State.startupAt,isU])
  | @startup u env _ done =>
    have isNotU : t ≠ u := fun isU => other env (by rw [isU])
    obtain ⟨same,startup⟩ := threadStartup_others done isNotU
    exact ⟨same ▸ foreign_refl _,.inl startup⟩
  | call c call => exact ⟨foreign_refl _,.inl rfl⟩

/-- The thread has taken its flag and left without releasing itself. -/
def Forfeited (p : Part) : StartupPc → Prop
  | .exit | .exited => p.taken = some .thread ∧ p.unmapped = []
  | _ => False

/-- The thread, which has taken its flag, does not find itself detached. -/
def Forfeits (t : Nat) (σ : State) : Act → Prop
  | .startup u _ => u = t ∧ σ.startup t = .loadDetached ∧ (σ.block t).detached = false
  | _ => False

theorem forfeited_foreign (foreign : Foreign p p') : Forfeited p' startup ↔ Forfeited p startup := by
  have same : p'.taken = some .thread ∧ p'.unmapped = [] ↔ p.taken = some .thread ∧ p.unmapped = [] := by
    rw [foreign.mine]
    exact and_congr_right fun mine => by rw [(foreign.kept mine).1]
  cases startup <;> first | exact same | exact .rfl

theorem forfeited_startup {env : Env} (settled : Settled t (part σ t) (σ.startup t) client)
    (done : threadStartup σ t env = some σ') :
    Forfeited (part σ' t) (σ'.startup t) ↔ Forfeited (part σ t) (σ.startup t) ∨ Forfeits t σ (.startup t env) := by
  have knows := settled.startup
  cases here : σ.startup t <;> rw [here] at knows <;> simp only [threadStartup,here] at done <;> try split at done
  all_goals cases done
  case loadDetached.isTrue detached =>
    rw [startupAt_self]
    exact iff_of_false id (by simp [Forfeited,Forfeits,detached])
  case loadDetached.isFalse attached =>
    rw [startupAt_self]
    exact iff_of_true ⟨knows.2.1,knows.2.2.1⟩ (.inr ⟨rfl,here,eq_false_of_ne_true attached⟩)
  case compareExchange.isTrue =>
    rw [startupAt_self]
    exact iff_of_false (fun left => knows.2 left.1) (by simp [Forfeited,Forfeits,here])
  case exit =>
    rw [startupAt_self]
    exact (or_iff_left (by simp [Forfeits,here])).symm
  case trampolineExit =>
    rw [startupAt_self]
    exact iff_of_false (fun left => absurd (knows.2.2.2.1.symm.trans left.2) nofun) (by simp [Forfeited,Forfeits,here])
  case malloc.isFalse => exact iff_of_false (by rw [here]; exact id) (by simp [Forfeited,Forfeits,here])
  case mmap.isFalse => exact iff_of_false (by rw [here]; exact id) (by simp [Forfeited,Forfeits,here])
  all_goals
    rw [startupAt_self]
    exact iff_of_false id (by simp [Forfeited,Forfeits,here])

theorem forfeited_step {a : Act} (owned : Owned σ) (done : step σ a = some σ') :
    ¬ Forfeited (part σ' t) (σ'.startup t) ↔ ¬ Forfeited (part σ t) (σ.startup t) ∧ ¬ Forfeits t σ a := by
  rw [← not_or]
  apply not_congr
  by_cases own : ∃ env, a = .startup t env
  · obtain ⟨env,rfl⟩ := own
    cases step_cases done with
    | startup done => exact forfeited_startup (owned t) done
  · have other : ∀ env, a ≠ .startup t env := fun env isOwn => own ⟨env,isOwn⟩
    have noForfeit : ¬ Forfeits t σ a := by
      cases a with
      | startup u env => exact fun ⟨isT,_⟩ => other env (by rw [isT])
      | _ => exact id
    obtain ⟨foreign,startup⟩ := step_foreign owned done other
    rw [or_iff_left noForfeit]
    rcases startup with same | ⟨retval,was,now⟩
    · rw [same]
      exact forfeited_foreign foreign
    · rw [was,now]
      exact .rfl

/-- The client is inside a call on the thread. -/
def Inside (t : Nat) : ClientPc → Prop
  | .join u _ _ | .detach u _ => u = t
  | .idle => False

theorem inside_of_releasing {pc : ClientPc} (releasing : Releasing t pc) : Inside t pc := by
  cases pc with
  | idle => exact releasing.elim
  | join u wants pc => cases pc <;> first | exact releasing | exact releasing.elim
  | detach u pc => cases pc <;> first | exact releasing | exact releasing.elim

/-- A thread that has exited and on which no call is in progress has been released
    exactly once, or has forfeited its release. -/
theorem released_once (settled : Settled t p .exited client) (quiet : ∀ c, ¬ Inside t (client c)) :
    p.unmapped.length = 1 ∧ p.freed.length = 1 ↔ ¬ Forfeited p .exited := by
  obtain ⟨_,some,either⟩ := settled.startup
  obtain ⟨r,taken⟩ := Option.ne_none_iff_exists'.mp some
  cases r with
  | thread =>
    rcases either taken with ⟨stack,block⟩ | ⟨_,stack,block⟩
    · simp [Forfeited,taken,stack]
    · simp [Forfeited,stack,block]
  | client c =>
    obtain ⟨stack,block⟩ := settled.released c taken fun releasing => quiet c (inside_of_releasing releasing)
    simp [Forfeited,taken,stack,block]

/-- Once a thread has exited and no call on it is in progress, its stack and its
    block have been released exactly once, provided that the thread never took its
    flag and then found itself not detached. -/
theorem released_once_iff {acts : List Act} (ran : Transition.run step start acts = some σ) {t : Nat}
    (exited : σ.startup t = .exited) (quiet : ∀ c, ¬ Inside t (σ.client c)) :
    (σ.unmapped t).length = 1 ∧ (σ.freed t).length = 1 ↔ Along step (fun σ a => ¬ Forfeits t σ a) start acts := by
  have settled := Transition.run_invariant (P := Owned) (fun _ _ _ owned done =>
    owned_step owned done) ran start_owned t
  rw [exited] at settled
  have kept := Transition.holds_iff_along (I := Owned) (P := fun σ => ¬ Forfeited (part σ t) (σ.startup t))
    (fun _ _ _ owned done => owned_step owned done) (fun _ _ _ owned done => forfeited_step owned done) ran start_owned
  rw [exited] at kept
  exact (released_once settled quiet).trans (kept.trans (and_iff_right id))

/-- The thread 0 takes its flag, finds itself not detached and exits; then a detach
    finds the flag taken. -/
def detachedTooLate : List Act :=
  .finish 0 7 :: List.replicate 6 (.startup 0 ⟨true,0⟩) ++ .call 1 (.detach 0) :: List.replicate 3 (.client 1)

/-- The same with a join. -/
def joinedTooLate : List Act :=
  .finish 0 7 :: List.replicate 6 (.startup 0 ⟨true,0⟩) ++ .call 1 (.join 0 false) :: List.replicate 3 (.client 1)

def after (acts : List Act) : State := (Transition.run step start acts).getD start

theorem never_released :
    ((after detachedTooLate).calls = [(1,.detach 0)] ∧ (after detachedTooLate).returns = [⟨1,.detach 0,.ok none⟩] ∧
      (after detachedTooLate).startup 0 = .exited ∧ (after detachedTooLate).unmapped 0 = [] ∧
      (after detachedTooLate).freed 0 = []) ∧
    (after joinedTooLate).calls = [(1,.join 0 false)] ∧ (after joinedTooLate).returns = [⟨1,.join 0 false,.ok none⟩] ∧
      (after joinedTooLate).startup 0 = .exited ∧ (after joinedTooLate).unmapped 0 = [] ∧
      (after joinedTooLate).freed 0 = [] := by decide

/-- The thread 0 is detached before it finishes, and releases itself. -/
def detachedInTime : List Act :=
  .call 1 (.detach 0) :: List.replicate 2 (.client 1) ++ .finish 0 7 :: List.replicate 13 (.startup 0 ⟨true,0⟩)

example : (after detachedInTime).unmapped 0 = [.thread] ∧ (after detachedInTime).freed 0 = [.thread] := by decide

theorem released_once_iff_in_time :
    ((after detachedInTime).unmapped 0).length = 1 ∧ ((after detachedInTime).freed 0).length = 1 ↔
      Along step (fun σ a => ¬ Forfeits 0 σ a) start detachedInTime :=
  released_once_iff (rfl : Transition.run step start detachedInTime = some (after detachedInTime)) (by decide) fun
    | 0 => id
    | 1 => id
    | _+2 => id

end Os5Sem.WoReaperOwnership

import Os5Sem.ThreadSteps

/-!
What every program point of the threads and of their callers tells about the
blocks (`Informed`). All of it stays true once it is: the bits of `state` are
never cleared, and a block that is finished keeps its value (`Grows`).
-/
namespace Os5Sem.ThreadFacts
open Os5Sem.MyThread Os5Sem.ThreadSteps
open Os5Sem.ReapQueue (Env)

/-! ### Facts that stay true -/

variable {σ σ' : State}

/-- A step that only adds bits to words of state. -/
structure Grows (σ σ' : State) : Prop where
  flags : ∀ t, Subset (σ.flags t) (σ'.flags t)
  finished : ∀ t, σ'.finished t = σ.finished t
  retval : ∀ t, (σ'.block t).retval = (σ.block t).retval
  returned : ∀ t, σ'.returned t = σ.returned t

theorem grows_of_block (block : σ'.block = σ.block) (returned : σ'.returned = σ.returned) : Grows σ σ' where
  flags t := by simp only [State.flags,block]; exact subset_refl _
  finished t := by simp only [State.finished,block]
  retval t := by rw [block]
  returned t := by rw [returned]

theorem grows_of_flags {t : Nat} {f : Flags} (more : Subset (σ.flags t) f) (block : σ'.block = (σ.setFlags t f).block)
    (returned : σ'.returned = σ.returned) : Grows σ σ' := by
  have same : ∀ u, (σ'.block u).finished = (σ.block u).finished ∧ (σ'.block u).retval = (σ.block u).retval := by
    intro u
    rw [block]
    by_cases isT : u = t
    · subst isT; simp [State.setFlags,State.setBlock]
    · simp [State.setFlags,State.setBlock,isT]
  refine ⟨fun u => ?_,fun u => (same u).1,fun u => (same u).2,fun u => by rw [returned]⟩
  by_cases isT : u = t
  · subst isT; simpa [State.flags,block,State.setFlags,State.setBlock] using more
  · simpa [State.flags,block,State.setFlags,State.setBlock,isT] using subset_refl _

/-- What `retval` is set to when the call wants it. -/
def stores (σ : State) (t : Nat) (wants : Bool) : Option Nat := if wants then σ.returned t else none

/-- What a client's program point tells. -/
def Knows (σ : State) : ClientPc → Prop
  | .idle => True
  | .join t wants pc =>
    match pc with
    | .loadState => True
    | .compareExchange s => s.detached = false ∧ s.joined = false
    | .loadFinished | .futexWait | .asleep => (σ.flags t).joined = true
    | .loadRetval => (σ.flags t).joined = true ∧ σ.finished t = true ∧ wants = true
    | .orReaped stored => (σ.flags t).joined = true ∧ σ.finished t = true ∧ stored = stores σ t wants
    | .destroyStack stored | .free stored =>
      (σ.flags t).joined = true ∧ σ.finished t = true ∧ stored = stores σ t wants ∧ (σ.flags t).reaped = true
  | .detach t pc =>
    match pc with
    | .loadState => True
    | .compareExchange s => s.detached = false ∧ s.joined = false
    | .loadFinished => (σ.flags t).detached = true
    | .orQueued => (σ.flags t).detached = true ∧ σ.finished t = true
    | .startReaper | .callEnqueue | .enqueueing =>
      (σ.flags t).detached = true ∧ σ.finished t = true ∧ (σ.flags t).queued = true

/-- What the program point of a thread tells about its own block. -/
def StartupKnows (σ : State) (t : Nat) : StartupPc → Prop
  | .running => σ.finished t = false ∧ σ.returned t = none
  | .storeRetval retval => σ.finished t = false ∧ σ.returned t = some retval
  | .storeFinished => σ.finished t = false ∧ σ.returned t = some (σ.block t).retval
  | .futexWake | .loadState | .exit | .exited => σ.finished t = true ∧ σ.returned t = some (σ.block t).retval
  | .orQueued =>
    σ.finished t = true ∧ σ.returned t = some (σ.block t).retval ∧ (σ.flags t).detached = true
  | .startReaper | .callEnqueue | .enqueueing =>
    σ.finished t = true ∧ σ.returned t = some (σ.block t).retval ∧ (σ.flags t).detached = true ∧
      (σ.flags t).queued = true

/-- What the return of a call tells. -/
def ReturnKnows (σ : State) (r : Return) : Prop :=
  match r.result with
  | .einval => (σ.flags r.call.thread).detached = true ∨ (σ.flags r.call.thread).joined = true
  | .ok stored =>
    match r.call with
    | .join t wants => (σ.flags t).joined = true ∧ σ.finished t = true ∧ stored = stores σ t wants
    | .detach t => (σ.flags t).detached = true

/-- All that the parties know is true, and the bits of `state` fit together. -/
structure Informed (σ : State) : Prop where
  clients : ∀ c, Knows σ (σ.client c)
  startups : ∀ t, StartupKnows σ t (σ.startup t)
  returns : ∀ r ∈ σ.returns, ReturnKnows σ r
  single : ∀ t, ¬ ((σ.flags t).detached = true ∧ (σ.flags t).joined = true)
  queued : ∀ t, (σ.flags t).queued = true → (σ.flags t).detached = true ∧ σ.finished t = true
  entered : ∀ t, 1 ≤ σ.queue.entered t → (σ.flags t).queued = true

/-- What a client knows needs only the bits and the values of finished blocks. -/
theorem knows_mono {pc : ClientPc} (flags : ∀ t, Subset (σ.flags t) (σ'.flags t))
    (finished : ∀ t, σ.finished t = true → σ'.finished t = true ∧ σ'.returned t = σ.returned t) (knows : Knows σ pc) :
    Knows σ' pc := by
  have stored : ∀ {t wants stored}, σ.finished t = true → stored = stores σ t wants → stored = stores σ' t wants := by
    intro t wants stored done is
    rw [is,stores,stores,(finished t done).2]
  cases pc with
  | idle => trivial
  | join t wants pc =>
    cases pc with
    | loadState => trivial
    | compareExchange s => exact knows
    | loadFinished => exact (flags t).joined knows
    | futexWait => exact (flags t).joined knows
    | asleep => exact (flags t).joined knows
    | loadRetval => exact ⟨(flags t).joined knows.1,(finished t knows.2.1).1,knows.2.2⟩
    | orReaped st => exact ⟨(flags t).joined knows.1,(finished t knows.2.1).1,stored knows.2.1 knows.2.2⟩
    | destroyStack st =>
      exact ⟨(flags t).joined knows.1,(finished t knows.2.1).1,stored knows.2.1 knows.2.2.1,
        (flags t).reaped knows.2.2.2⟩
    | free st =>
      exact ⟨(flags t).joined knows.1,(finished t knows.2.1).1,stored knows.2.1 knows.2.2.1,
        (flags t).reaped knows.2.2.2⟩
  | detach t pc =>
    cases pc with
    | loadState => trivial
    | compareExchange s => exact knows
    | loadFinished => exact (flags t).detached knows
    | orQueued => exact ⟨(flags t).detached knows.1,(finished t knows.2).1⟩
    | startReaper => exact ⟨(flags t).detached knows.1,(finished t knows.2.1).1,(flags t).queued knows.2.2⟩
    | callEnqueue => exact ⟨(flags t).detached knows.1,(finished t knows.2.1).1,(flags t).queued knows.2.2⟩
    | enqueueing => exact ⟨(flags t).detached knows.1,(finished t knows.2.1).1,(flags t).queued knows.2.2⟩

theorem returnKnows_mono {r : Return} (flags : ∀ t, Subset (σ.flags t) (σ'.flags t))
    (finished : ∀ t, σ.finished t = true → σ'.finished t = true ∧ σ'.returned t = σ.returned t)
    (knows : ReturnKnows σ r) : ReturnKnows σ' r := by
  obtain ⟨c,call,result⟩ := r
  cases result with
  | einval => exact Or.imp (flags _).detached (flags _).joined knows
  | ok stored =>
    cases call with
    | join t wants =>
      obtain ⟨joined,done,is⟩ := knows
      refine ⟨(flags t).joined joined,(finished t done).1,?_⟩
      rw [is,stores,stores,(finished t done).2]
    | detach t => exact (flags t).detached knows

theorem startupKnows_mono {t : Nat} {pc : StartupPc} (flags : Subset (σ.flags t) (σ'.flags t))
    (finished : σ'.finished t = σ.finished t) (retval : (σ'.block t).retval = (σ.block t).retval)
    (returned : σ'.returned t = σ.returned t) (knows : StartupKnows σ t pc) : StartupKnows σ' t pc := by
  cases pc with
  | orQueued => exact ⟨finished ▸ knows.1,by rw [returned,retval]; exact knows.2.1,flags.detached knows.2.2⟩
  | startReaper =>
    exact ⟨finished ▸ knows.1,by rw [returned,retval]; exact knows.2.1,flags.detached knows.2.2.1,
      flags.queued knows.2.2.2⟩
  | callEnqueue =>
    exact ⟨finished ▸ knows.1,by rw [returned,retval]; exact knows.2.1,flags.detached knows.2.2.1,
      flags.queued knows.2.2.2⟩
  | enqueueing =>
    exact ⟨finished ▸ knows.1,by rw [returned,retval]; exact knows.2.1,flags.detached knows.2.2.1,
      flags.queued knows.2.2.2⟩
  | _ => simpa only [StartupKnows,finished,returned,retval] using knows

/-- A step of a client or of the reaper: it changes at most one client's program
    point, and of the blocks only bits, which it sets. -/
theorem Informed.other (inf : Informed σ) (grows : Grows σ σ') (startups : σ'.startup = σ.startup)
    (clients : ∀ c, σ'.client c = σ.client c ∨ Knows σ' (σ'.client c))
    (returns : ∀ r ∈ σ'.returns, r ∈ σ.returns ∨ ReturnKnows σ' r)
    (single : ∀ t, ¬ ((σ'.flags t).detached = true ∧ (σ'.flags t).joined = true))
    (queued : ∀ t, (σ'.flags t).queued = true → (σ.flags t).queued = true ∨ (σ.flags t).detached = true ∧
      σ.finished t = true)
    (entered : ∀ t, σ'.queue.entered t = σ.queue.entered t ∨ (σ'.flags t).queued = true) : Informed σ' where
  clients c := by
    rcases clients c with same | knows
    · rw [same]
      exact knows_mono grows.flags (fun t done => ⟨(grows.finished t).trans done,grows.returned t⟩) (inf.clients c)
    · exact knows
  startups t := by
    rw [startups]
    exact startupKnows_mono (grows.flags t) (grows.finished t) (grows.retval t) (grows.returned t) (inf.startups t)
  returns r member := by
    rcases returns r member with before | knows
    · exact returnKnows_mono grows.flags (fun t done => ⟨(grows.finished t).trans done,grows.returned t⟩)
        (inf.returns r before)
    · exact knows
  single := single
  queued t is := by
    rw [grows.finished t]
    rcases queued t is with before | ⟨detached,finished⟩
    · exact ⟨(grows.flags t).detached (inf.queued t before).1,(inf.queued t before).2⟩
    · exact ⟨(grows.flags t).detached detached,finished⟩
  entered t once := by
    rcases entered t with same | is
    · exact (grows.flags t).queued (inf.entered t (same ▸ once))
    · exact is

/-! ### Steps -/

theorem Informed.clientAt (inf : Informed σ) {c : Nat} {pc : ClientPc} (knows : Knows σ pc) :
    Informed (σ.clientAt c pc) := by
  refine inf.other (grows_of_block rfl rfl) rfl (fun d => ?_) (fun _ => .inl) inf.single
    (fun _ => .inl) (fun _ => .inl rfl)
  by_cases isC : d = c
  · subst isC
    right
    simp only [State.clientAt,Function.update_self]
    exact knows_mono (fun _ => subset_refl _) (fun _ done => ⟨done,rfl⟩) knows
  · exact .inl (by simp [State.clientAt,isC])

theorem Informed.leave (inf : Informed σ) {c : Nat} {call : Call} {result : Result}
    (knows : ReturnKnows σ ⟨c,call,result⟩) : Informed (σ.leave c call result) := by
  have idle : Informed (σ.clientAt c .idle) := inf.clientAt trivial
  refine idle.other (grows_of_block rfl rfl) rfl (fun _ => .inl rfl) (fun r member => ?_) idle.single (fun _ => .inl)
    (fun _ => .inl rfl)
  rcases List.mem_append.mp member with before | new
  · exact .inl before
  · rw [List.mem_singleton] at new
    subst new
    exact .inr (returnKnows_mono (fun _ => subset_refl _) (fun _ done => ⟨done,rfl⟩) knows)

/-- Bits are set in the word of one thread. -/
theorem Informed.setFlags (inf : Informed σ) {t : Nat} {f : Flags} (more : Subset (σ.flags t) f)
    (single : ¬ (f.detached = true ∧ f.joined = true))
    (queued : f.queued = true → (σ.flags t).queued = true ∨ (σ.flags t).detached = true ∧ σ.finished t = true) :
    Informed (σ.setFlags t f) := by
  refine inf.other (grows_of_flags more rfl rfl) rfl (fun _ => .inl rfl) (fun _ => .inl) (fun u => ?_) (fun u => ?_)
    (fun _ => .inl rfl)
  · rw [setFlags_flags]
    split
    · exact single
    · exact inf.single u
  · rw [setFlags_flags]
    split
    · rename_i isT
      subst isT
      exact queued
    · exact .inl

/-- Changes of what no party knows about. -/
theorem Informed.congr (inf : Informed σ) (block : σ'.block = σ.block) (returned : σ'.returned = σ.returned)
    (startups : σ'.startup = σ.startup) (clients : σ'.client = σ.client) (returns : σ'.returns = σ.returns)
    (entered : σ'.queue.entered = σ.queue.entered) : Informed σ' := by
  refine inf.other (grows_of_block block returned) startups (fun c => .inl (by rw [clients]))
    (fun r member => .inl (returns ▸ member)) ?_ (fun t => ?_) (fun t => .inl (by rw [entered]))
  · simp only [State.flags,block]; exact inf.single
  · simp only [State.flags,block]; exact .inl

/-- A call of `reap_enqueue` for a thread whose word has the bit for it. -/
theorem Informed.enter (inf : Informed σ) {caller : Caller} {t : Nat} (queued : (σ.flags t).queued = true) :
    Informed { σ with queue := σ.queue.enter caller t } := by
  refine inf.other (grows_of_block rfl rfl) rfl (fun _ => .inl rfl) (fun _ => .inl)
    inf.single (fun _ => .inl) (fun u => ?_)
  by_cases isT : u = t
  · exact .inr (isT ▸ queued)
  · exact .inl (by simp [ReapQueue.State.enter,isT])

/-- A step of a thread that changes its own program point, and of the blocks only
    the values of its own. -/
theorem Informed.startup (inf : Informed σ) {t : Nat} {pc : StartupPc}
    (startups : σ'.startup = Function.update σ.startup t pc)
    (flags : ∀ u, σ'.flags u = σ.flags u) (others : ∀ u, u ≠ t → σ'.block u = σ.block u ∧ σ'.returned u = σ.returned u)
    (finished : σ.finished t = true → σ'.finished t = true ∧ σ'.returned t = σ.returned t)
    (knows : StartupKnows σ' t pc) (clients : σ'.client = σ.client) (returns : σ'.returns = σ.returns)
    (entered : σ'.queue.entered = σ.queue.entered) : Informed σ' := by
  have subset : ∀ u, Subset (σ.flags u) (σ'.flags u) := fun u => by rw [flags]; exact subset_refl _
  have done : ∀ u, σ.finished u = true → σ'.finished u = true ∧ σ'.returned u = σ.returned u := by
    intro u before
    by_cases isT : u = t
    · subst isT; exact finished before
    · exact ⟨by rw [State.finished,(others u isT).1]; exact before,(others u isT).2⟩
  constructor
  case clients =>
    intro c
    rw [clients]
    exact knows_mono subset done (inf.clients c)
  case startups =>
    intro u
    rw [startups]
    by_cases isT : u = t
    · subst isT; rw [Function.update_self]; exact knows
    · rw [Function.update_of_ne isT]
      obtain ⟨block,returned⟩ := others u isT
      exact startupKnows_mono (subset u) (by rw [State.finished,block]; rfl) (by rw [block]) returned (inf.startups u)
  case returns =>
    intro r member
    rw [returns] at member
    exact returnKnows_mono subset done (inf.returns r member)
  case single =>
    intro u
    rw [flags]
    exact inf.single u
  case queued =>
    intro u is
    rw [flags] at is ⊢
    exact ⟨(inf.queued u is).1,(done u (inf.queued u is).2).1⟩
  case entered =>
    intro u
    rw [flags,entered]
    exact inf.entered u

theorem Informed.joinLoop (inf : Informed σ) (c t : Nat) (wants : Bool) :
    Informed (joinLoop σ c t wants (σ.flags t)) := by
  unfold MyThread.joinLoop
  split
  · exact inf.leave (.inl ‹_›)
  · split
    · exact inf.leave (.inr ‹_›)
    · exact inf.clientAt ⟨by simpa using ‹¬ (σ.flags t).detached = true›,by simpa using ‹¬ (σ.flags t).joined = true›⟩

theorem Informed.detachLoop (inf : Informed σ) (c t : Nat) : Informed (detachLoop σ c t (σ.flags t)) := by
  unfold MyThread.detachLoop
  split
  · exact inf.leave ‹(σ.flags t).detached = true›
  · split
    · exact inf.leave (.inr ‹_›)
    · exact inf.clientAt ⟨by simpa using ‹¬ (σ.flags t).detached = true›,by simpa using ‹¬ (σ.flags t).joined = true›⟩

/-- A thread that is finished has stored what its start routine returned. -/
theorem returned_of_finished (inf : Informed σ) {t : Nat} (done : σ.finished t = true) :
    σ.returned t = some (σ.block t).retval := by
  have knows := inf.startups t
  cases here : σ.startup t <;> rw [here] at knows
  case running => exact absurd (knows.1.symm.trans done) (by simp)
  case storeRetval => exact absurd (knows.1.symm.trans done) (by simp)
  case storeFinished => exact knows.2
  case futexWake => exact knows.2
  case loadState => exact knows.2
  case orQueued => exact knows.2.1
  case startReaper => exact knows.2.1
  case callEnqueue => exact knows.2.1
  case enqueueing => exact knows.2.1
  case exit => exact knows.2
  case exited => exact knows.2

theorem Informed.wake (inf : Informed σ) (c : Nat) : Informed (σ.wake c) := by
  unfold State.wake
  split
  · rename_i t wants here
    have knows := inf.clients c
    rw [here] at knows
    have woken : Informed (σ.clientAt c (.join t wants .loadFinished)) := inf.clientAt knows
    exact woken.congr rfl rfl rfl rfl rfl rfl
  · exact inf

theorem informed_join (inf : Informed σ) {c t : Nat} {wants : Bool} {pc : JoinPc}
    (here : σ.client c = .join t wants pc) :
    Informed (mythreadJoin σ c t wants pc) := by
  have knows := inf.clients c
  rw [here] at knows
  cases pc with
  | loadState => exact inf.joinLoop c t wants
  | compareExchange s =>
    simp only [mythreadJoin]
    split
    · rename_i same
      obtain ⟨notDetached,notJoined⟩ := knows
      have set : Informed (σ.setFlags t { s with joined := true }) :=
        inf.setFlags (same ▸ ⟨id,fun _ => rfl,id,id⟩) (by simp [notDetached]) (fun is => .inl (same ▸ is))
      exact set.clientAt (by simp [Knows,setFlags_flags])
    · exact inf.joinLoop c t wants
  | loadFinished =>
    simp only [mythreadJoin]
    split
    · rename_i done
      split
      · rename_i wanted
        exact inf.clientAt ⟨knows,done,wanted⟩
      · rename_i unwanted
        exact inf.clientAt ⟨knows,done,by simp [stores,unwanted]⟩
    · exact inf.clientAt knows
  | futexWait =>
    simp only [mythreadJoin]
    split
    · exact inf.clientAt knows
    · have slept : Informed (σ.clientAt c (.join t wants .asleep)) := inf.clientAt knows
      exact slept.congr rfl rfl rfl rfl rfl rfl
  | asleep => exact inf.wake c
  | loadRetval =>
    obtain ⟨joined,done,wanted⟩ := knows
    exact inf.clientAt ⟨joined,done,by simp [stores,wanted,returned_of_finished inf done]⟩
  | orReaped stored =>
    obtain ⟨joined,done,is⟩ := knows
    have set : Informed (σ.setFlags t { σ.flags t with reaped := true }) :=
      inf.setFlags ⟨id,id,fun _ => rfl,id⟩ (inf.single t) .inl
    simp only [mythreadJoin]
    split
    · exact set.leave ⟨by simp [setFlags_flags,joined],by simpa [State.finished,State.setFlags,
        State.setBlock] using done,is⟩
    · exact set.clientAt ⟨by simp [setFlags_flags,joined],by simpa [State.finished,State.setFlags,
        State.setBlock] using done,is,
        by simp [setFlags_flags]⟩
  | destroyStack stored =>
    have unmapped : Informed (σ.unmap t (.joiner c)) := inf.congr rfl rfl rfl rfl rfl rfl
    exact unmapped.clientAt knows
  | free stored =>
    have freed : Informed (σ.free t (.joiner c)) := inf.congr rfl rfl rfl rfl rfl rfl
    exact freed.leave ⟨knows.1,knows.2.1,knows.2.2.1⟩

theorem informed_detach (inf : Informed σ) {c t : Nat} {env : Env} {pc : DetachPc} (here : σ.client c = .detach t pc)
    (done : mythreadDetach σ c t env pc = some σ') : Informed σ' := by
  have knows := inf.clients c
  rw [here] at knows
  cases pc with
  | loadState =>
    cases done
    exact inf.detachLoop c t
  | compareExchange s =>
    simp only [mythreadDetach] at done
    split at done <;> cases done
    · rename_i same
      obtain ⟨notDetached,notJoined⟩ := knows
      have set : Informed (σ.setFlags t { s with detached := true }) :=
        inf.setFlags (same.1 ▸ ⟨fun _ => rfl,id,id,id⟩) (by simp [notJoined]) (fun is => .inl (same.1 ▸ is))
      exact set.clientAt (by simp [Knows,setFlags_flags])
    · exact inf.detachLoop c t
  | loadFinished =>
    simp only [mythreadDetach] at done
    split at done <;> cases done
    · exact inf.clientAt ⟨knows,‹_›⟩
    · exact inf.leave knows
  | orQueued =>
    obtain ⟨detached,finished⟩ := knows
    have set : Informed (σ.setFlags t { σ.flags t with queued := true }) :=
      inf.setFlags ⟨id,id,id,fun _ => rfl⟩ (inf.single t) (fun _ => .inr ⟨detached,finished⟩)
    simp only [mythreadDetach] at done
    split at done <;> cases done
    · exact set.leave (by simpa [ReturnKnows,setFlags_flags] using detached)
    · exact set.clientAt ⟨by simpa [setFlags_flags] using detached,
        by simpa [State.finished,State.setFlags,State.setBlock] using finished,by simp [setFlags_flags]⟩
  | startReaper =>
    cases done
    exact inf.clientAt knows
  | callEnqueue =>
    cases done
    exact (inf.enter knows.2.2).clientAt knows
  | enqueueing =>
    obtain ⟨queue,stepped,rfl⟩ := Option.map_eq_some_iff.mp done
    have moved : Informed { σ with queue } := inf.congr rfl rfl rfl rfl rfl (reapEnqueue_frame stepped).1
    split
    · exact moved.leave knows.1
    · exact moved

/-- A thread goes on without changing a block. -/
theorem Informed.startupAt (inf : Informed σ) {t : Nat} {pc : StartupPc} (knows : StartupKnows σ t pc) :
    Informed (σ.startupAt t pc) :=
  inf.startup rfl (fun _ => rfl) (fun _ _ => ⟨rfl,rfl⟩) (fun before => ⟨before,rfl⟩)
    (startupKnows_mono (subset_refl _) rfl rfl rfl knows) rfl rfl rfl

theorem informed_startup (inf : Informed σ) {t : Nat} {choice : Choice} (done : threadStartup σ t choice = some σ') :
    Informed σ' := by
  have knows := inf.startups t
  cases here : σ.startup t with
  | running => simp [threadStartup,here] at done
  | exited => simp [threadStartup,here] at done
  | storeRetval retval =>
    simp only [threadStartup,here] at done
    cases done
    rw [here] at knows
    refine inf.startup rfl (setBlock_flags σ rfl) (fun u other => ⟨by simp [State.startupAt,State.setBlock,other],rfl⟩)
      (fun before => ?_) ?_ rfl rfl rfl
    · exact absurd (knows.1.symm.trans before) (by simp)
    · simpa [StartupKnows,State.startupAt,State.setBlock,State.finished] using knows
  | storeFinished =>
    simp only [threadStartup,here] at done
    cases done
    rw [here] at knows
    refine inf.startup rfl (setBlock_flags σ rfl) (fun u other => ⟨by simp [State.startupAt,State.setBlock,other],rfl⟩)
      (fun before => ?_) ?_ rfl rfl rfl
    · exact absurd (knows.1.symm.trans before) (by simp)
    · simpa [StartupKnows,State.startupAt,State.setBlock,State.finished] using knows.2
  | futexWake =>
    rw [here] at knows
    simp only [threadStartup,here] at done
    cases done
    rcases futexWake_cases σ t choice.pick with same | ⟨c,woken⟩
    · rw [same]
      exact inf.startupAt knows
    · rw [woken]
      obtain ⟨block,_,returned,_,_⟩ := wake_frame σ c
      refine (inf.wake c).startupAt (startupKnows_mono ?_ ?_ (by rw [block]) (by rw [returned]) knows)
      · rw [State.flags,State.flags,block]; exact subset_refl _
      · rw [State.finished,State.finished,block]
  | loadState =>
    rw [here] at knows
    simp only [threadStartup,here] at done
    split at done <;> cases done
    · exact inf.startupAt ⟨knows.1,knows.2,‹_›⟩
    · exact inf.startupAt knows
  | orQueued =>
    rw [here] at knows
    obtain ⟨finished,value,detached⟩ := knows
    have set : Informed (σ.setFlags t { σ.flags t with queued := true }) :=
      inf.setFlags ⟨id,id,id,fun _ => rfl⟩ (inf.single t) (fun _ => .inr ⟨detached,finished⟩)
    have known : StartupKnows (σ.setFlags t { σ.flags t with queued := true }) t .startReaper := by
      simpa [StartupKnows,State.finished,State.setFlags,State.setBlock,State.flags] using ⟨finished,value,detached⟩
    simp only [threadStartup,here] at done
    split at done <;> cases done
    · exact set.startupAt ⟨known.1,known.2.1⟩
    · exact set.startupAt known
  | startReaper =>
    rw [here] at knows
    simp only [threadStartup,here] at done
    cases done
    exact inf.startupAt knows
  | callEnqueue =>
    rw [here] at knows
    simp only [threadStartup,here] at done
    cases done
    exact (inf.enter knows.2.2.2).startupAt knows
  | enqueueing =>
    rw [here] at knows
    simp only [threadStartup,here] at done
    obtain ⟨queue,stepped,rfl⟩ := Option.map_eq_some_iff.mp done
    have moved : Informed { σ with queue } := inf.congr rfl rfl rfl rfl rfl (reapEnqueue_frame stepped).1
    split
    · exact moved.startupAt ⟨knows.1,knows.2.1⟩
    · exact moved
  | exit =>
    rw [here] at knows
    simp only [threadStartup,here] at done
    cases done
    exact inf.startupAt knows

theorem informed_reapStep {env : Env} (inf : Informed σ) (done : reapStep σ env = some σ') : Informed σ' := by
  obtain ⟨queue,stepped,rfl⟩ := Option.map_eq_some_iff.mp done
  exact inf.congr rfl rfl rfl rfl rfl (ReapInvariant.reaperMain_frame stepped).2.2

theorem informed_reaper {env : Env} (inf : Informed σ) (done : reaperMain σ env = some σ') : Informed σ' := by
  unfold MyThread.reaperMain at done
  split at done
  · rename_i t _ _ _ _
    split at done
    · have set : Informed (σ.setFlags t { σ.flags t with reaped := true }) :=
        inf.setFlags ⟨id,id,fun _ => rfl,id⟩ (inf.single t) .inl
      simp only at done
      split at done
      · exact informed_reapStep set done
      · cases done
        exact set.congr rfl rfl rfl rfl rfl rfl
    · cases done
      exact inf.congr rfl rfl rfl rfl rfl rfl
    · have freed : Informed (σ.free t .reaper) := inf.congr rfl rfl rfl rfl rfl rfl
      exact informed_reapStep freed done
  · exact informed_reapStep inf done

theorem informed_step {a : Act} (inf : Informed σ) (done : step σ a = some σ') : Informed σ' := by
  cases step_cases done with
  | finish t retval running =>
    have knows := inf.startups t
    rw [running] at knows
    refine inf.startup rfl (fun _ => rfl) (fun u other => ⟨rfl,by simp [other]⟩) (fun before => ?_) ?_ rfl rfl rfl
    · exact absurd (knows.1.symm.trans before) (by simp)
    · exact ⟨knows.1,Function.update_self ..⟩
  | startup done => exact informed_startup inf done
  | call c call =>
    have asked : Informed (σ.clientAt c (entry call)) := inf.clientAt (by cases call <;> trivial)
    exact asked.congr rfl rfl rfl rfl rfl rfl
  | join env here => exact informed_join inf here
  | detach here done => exact informed_detach inf here done
  | reaper done => exact informed_reaper inf done

theorem start_informed : Informed start where
  clients _ := trivial
  startups _ := ⟨rfl,rfl⟩
  returns := nofun
  single _ both := absurd both.1 (by simp [State.flags,start])
  queued _ is := absurd is (by simp [State.flags,start])
  entered _ once := absurd once (by simp [start,ReapQueue.start])

end Os5Sem.ThreadFacts

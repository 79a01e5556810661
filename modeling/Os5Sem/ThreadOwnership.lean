import Os5Sem.ThreadFacts
import Os5Sem.ThreadQueue

/-!
Who owns a thread. The compare-exchange on `state` lets one call of
`mythread_join` through, or calls of `mythread_detach`, but never both
(`Single`), and the bit `MT_REAPED` lets one party release the stack and the
block (`Released`).
-/
namespace Os5Sem.ThreadOwnership
open Os5Sem.MyThread Os5Sem.ThreadSteps Os5Sem.ThreadFacts Os5Sem.ThreadQueue
open Os5Sem.ReapQueue (Env)
open Os5Sem.ReapInvariant (visiting)

variable {σ σ' : State}

/-- Behind the compare-exchange that sets `MT_JOINED`. -/
def PastExchange : JoinPc → Prop
  | .loadState | .compareExchange _ => False
  | _ => True

/-- The client is in a join of the thread that has set `MT_JOINED`. -/
def Won (t : Nat) : ClientPc → Prop
  | .join u _ pc => u = t ∧ PastExchange pc
  | _ => False

/-- A join of the thread has returned 0. -/
def joinReturned (t : Nat) (r : Return) : Bool :=
  match r.call, r.result with
  | .join u _, .ok _ => u == t
  | _, _ => false

/-- At most one join of a thread wins, and it returns once. -/
structure Single (σ : State) : Prop where
  winner : ∀ t c d, Won t (σ.client c) → Won t (σ.client d) → c = d
  once : ∀ t, σ.returns.countP (joinReturned t) ≤ 1
  before : ∀ t c, Won t (σ.client c) → σ.returns.countP (joinReturned t) = 0

theorem joined_of_won (inf : Informed σ) {t c : Nat} (won : Won t (σ.client c)) : (σ.flags t).joined = true := by
  have knows := inf.clients c
  cases here : σ.client c with
  | idle => rw [here] at won; exact won.elim
  | detach u pc => rw [here] at won; exact won.elim
  | join u wants pc =>
    rw [here] at won knows
    obtain ⟨rfl,past⟩ := won
    cases pc with
    | loadState => exact past.elim
    | compareExchange s => exact past.elim
    | loadFinished => exact knows
    | futexWait => exact knows
    | asleep => exact knows
    | loadRetval => exact knows.1
    | orReaped st => exact knows.1
    | destroyStack st => exact knows.1
    | free st => exact knows.1

theorem joined_of_returned (inf : Informed σ) {t : Nat} {r : Return} (member : r ∈ σ.returns)
    (ok : joinReturned t r = true) : (σ.flags t).joined = true := by
  have knows := inf.returns r member
  obtain ⟨c,call,result⟩ := r
  cases call <;> cases result <;> simp only [joinReturned,beq_iff_eq,Bool.false_eq_true] at ok
  subst ok
  exact knows.1

/-- A step that lets nobody win and no join return 0. -/
theorem Single.congr (single : Single σ) (won : ∀ t c, Won t (σ'.client c) → Won t (σ.client c))
    (returns : ∀ t, σ'.returns.countP (joinReturned t) = σ.returns.countP (joinReturned t)) : Single σ' where
  winner t c d one two := single.winner t c d (won t c one) (won t d two)
  once t := returns t ▸ single.once t
  before t c is := (returns t).trans (single.before t c (won t c is))

/-- Only the program point of one client changes, and no join returns 0. -/
theorem Single.clientAt (single : Single σ) {c : Nat} (others : ∀ d, d ≠ c → σ'.client d = σ.client d)
    (own : ∀ t, Won t (σ'.client c) → Won t (σ.client c))
    (returns : ∀ t, σ'.returns.countP (joinReturned t) = σ.returns.countP (joinReturned t)) : Single σ' := by
  refine single.congr (fun t d is => ?_) returns
  by_cases isC : d = c
  · rw [isC] at is ⊢; exact own t is
  · rw [others d isC] at is; exact is

theorem countP_einval (returns : List Return) (t c : Nat) (call : Call) :
    (returns ++ [(⟨c,call,.einval⟩ : Return)]).countP (joinReturned t) = returns.countP (joinReturned t) := by
  cases call <;> simp [List.countP_append,joinReturned]

theorem countP_detach (returns : List Return) (t c u : Nat) (result : Result) :
    (returns ++ [(⟨c,.detach u,result⟩ : Return)]).countP (joinReturned t) = returns.countP (joinReturned t) := by
  cases result <;> simp [List.countP_append,joinReturned]

theorem single_joinLoop (single : Single σ) (c t : Nat) (wants : Bool) (s : Flags) :
    Single (joinLoop σ c t wants s) := by
  have left : Single (σ.leave c (.join t wants) .einval) :=
    single.clientAt (c := c) (fun d other => by simp [State.leave,State.clientAt,other])
      (fun _ is => by simp [State.leave,State.clientAt,Won] at is) fun u => countP_einval σ.returns u c _
  unfold joinLoop
  split
  · exact left
  · split
    · exact left
    · refine single.clientAt (c := c) (fun d other => by simp [State.clientAt,other]) (fun _ is => ?_) fun _ => rfl
      simp only [State.clientAt,Function.update_self] at is
      exact is.2.elim

/-- The join that has won returns 0. -/
theorem Single.finish (single : Single σ) {c t : Nat} {wants : Bool} {stored : Option Nat} (won : Won t (σ.client c))
    (clients : σ'.client = Function.update σ.client c .idle)
    (returns : σ'.returns = σ.returns ++ [⟨c,.join t wants,.ok stored⟩]) : Single σ' := by
  have own : ∀ u, σ'.returns.countP (joinReturned u) = σ.returns.countP (joinReturned u) + if t = u then 1 else 0 := by
    intro u
    rw [returns,List.countP_append]
    by_cases same : t = u <;> simp [joinReturned,same]
  have still : ∀ u d, Won u (σ'.client d) → d ≠ c ∧ Won u (σ.client d) := by
    intro u d is
    rw [clients] at is
    by_cases isC : d = c
    · rw [isC,Function.update_self] at is; exact is.elim
    · rw [Function.update_of_ne isC] at is; exact ⟨isC,is⟩
  refine ⟨fun u d e one two => single.winner u d e (still u d one).2 (still u e two).2,fun u => ?_,fun u d is => ?_⟩
  · rw [own]
    split
    · rename_i same
      rw [single.before u c (same ▸ won)]
    · exact single.once u
  · obtain ⟨notC,was⟩ := still u d is
    rw [own,single.before u d was,if_neg]
    intro same
    exact notC (single.winner u d c was (same ▸ won))

theorem single_join (single : Single σ) (inf : Informed σ) {c t : Nat} {wants : Bool} {pc : JoinPc}
    (here : σ.client c = .join t wants pc) : Single (mythreadJoin σ c t wants pc) := by
  -- Steps from one place behind the compare-exchange to another.
  have goes : ∀ {p : JoinPc}, Won t (σ.client c) → Single (σ.clientAt c (.join t wants p)) := by
    intro p won
    refine single.clientAt (c := c) (fun d other => by simp [State.clientAt,other]) (fun u is => ?_) fun _ => rfl
    simp only [State.clientAt,Function.update_self] at is
    exact is.1 ▸ won
  have won : PastExchange pc → Won t (σ.client c) := fun past => by rw [here]; exact ⟨rfl,past⟩
  cases pc with
  | loadState => exact single_joinLoop single c t wants _
  | compareExchange s =>
    simp only [mythreadJoin]
    split
    · rename_i same
      have knows := inf.clients c
      rw [here] at knows
      -- Before this step nobody has won.
      have nobody : ¬ (σ.flags t).joined = true := by rw [same,knows.2]; simp
      have onlyC : ∀ u d,
          Won u (((σ.setFlags t { s with joined := true }).clientAt c (.join t wants .loadFinished)).client d) →
          d = c ∧ u = t ∨ d ≠ c ∧ u ≠ t ∧ Won u (σ.client d) := by
        intro u d is
        by_cases isC : d = c
        · subst isC
          simp only [State.clientAt,Function.update_self] at is
          exact .inl ⟨rfl,is.1.symm⟩
        · have was : Won u (σ.client d) := by
            simpa [State.setFlags,State.setBlock,State.clientAt,isC] using is
          exact .inr ⟨isC,fun isT => nobody (isT ▸ joined_of_won inf was),was⟩
      refine ⟨fun u d e one two => ?_,single.once,fun u d is => ?_⟩
      · rcases onlyC u d one with ⟨isC,isT⟩ | ⟨_,notT,was⟩ <;> rcases onlyC u e two with ⟨isC',isT'⟩ | ⟨_,notT',was'⟩
        · rw [isC,isC']
        · exact absurd isT notT'
        · exact absurd isT' notT
        · exact single.winner u d e was was'
      · rcases onlyC u d is with ⟨_,isT⟩ | ⟨_,_,was⟩
        · refine List.countP_eq_zero.mpr fun r member ok => nobody ?_
          exact isT ▸ joined_of_returned inf member ok
        · exact single.before u d was
    · exact single_joinLoop single c t wants _
  | loadFinished =>
    simp only [mythreadJoin]
    split
    · split <;> exact goes (won trivial)
    · exact goes (won trivial)
  | futexWait =>
    simp only [mythreadJoin]
    split
    · exact goes (won trivial)
    · exact (goes (p := .asleep) (won trivial)).congr (fun _ _ is => is) fun _ => rfl
  | asleep =>
    simp only [mythreadJoin,State.wake,here]
    exact (goes (p := .loadFinished) (won trivial)).congr (fun _ _ is => is) fun _ => rfl
  | loadRetval => exact goes (won trivial)
  | orReaped stored =>
    simp only [mythreadJoin]
    split
    · exact single.finish (won trivial) rfl rfl
    · exact (goes (p := .destroyStack stored) (won trivial)).congr (fun _ _ is => is) fun _ => rfl
  | destroyStack stored =>
    exact (goes (p := .free stored) (won trivial)).congr (fun _ _ is => is) fun _ => rfl
  | free stored => exact single.finish (won trivial) rfl rfl

theorem single_detach (single : Single σ) {c t : Nat} (effect : DetachEffect σ σ' c t) : Single σ' := by
  refine single.clientAt effect.others (fun u is => ?_) (fun u => ?_)
  · rcases effect.own with idle | ⟨pc,here⟩
    · rw [idle] at is; exact is.elim
    · rw [here] at is; exact is.elim
  · rcases effect.returns with same | ⟨result,more⟩
    · rw [same]
    · rw [more,countP_detach]

theorem single_startup (single : Single σ) {t : Nat} (effect : StartupEffect σ σ' t) : Single σ' := by
  refine single.congr (fun u c is => ?_) (fun u => by rw [effect.returns])
  rcases effect.clients c with same | ⟨v,wants,was,now⟩
  · exact same ▸ is
  · rw [now] at is
    rw [was]
    exact ⟨is.1,trivial⟩

/-! ### Releases -/

/-- The releaser has the right to: the joiner, or the reaper once the thread is
    detached, and only after the thread is finished. -/
def Rightful (σ : State) (t : Nat) : Releaser → Prop
  | .joiner _ => (σ.flags t).joined = true ∧ σ.finished t = true
  | .reaper => (σ.flags t).detached = true ∧ σ.finished t = true

/-- Who has released what, and who is about to. -/
structure Released (σ : State) : Prop where
  unreaped : ∀ t, (σ.flags t).reaped = false → σ.unmapped t = [] ∧ σ.freed t = []
  joinerUnmaps : ∀ t c wants stored, σ.client c = .join t wants (.destroyStack stored) →
    σ.unmapped t = [] ∧ σ.freed t = []
  joinerFrees : ∀ t c wants stored, σ.client c = .join t wants (.free stored) →
    σ.unmapped t = [.joiner c] ∧ σ.freed t = []
  reaperUnmaps : ∀ t, visiting σ.queue.reaper = some t → σ.visit = .munmap →
    (σ.flags t).reaped = true ∧ σ.unmapped t = [] ∧ σ.freed t = []
  reaperFrees : ∀ t, visiting σ.queue.reaper = some t → σ.visit = .free →
    (σ.flags t).reaped = true ∧ σ.unmapped t = [.reaper] ∧ σ.freed t = []
  settled : ∀ t, σ.unmapped t = [] ∧ σ.freed t = [] ∨
    ∃ releaser, Rightful σ t releaser ∧ σ.unmapped t = [releaser] ∧ (σ.freed t = [] ∨ σ.freed t = [releaser])

theorem rightful_mono {t : Nat} {releaser : Releaser} (flags : Subset (σ.flags t) (σ'.flags t))
    (finished : σ.finished t = true → σ'.finished t = true) (rightful : Rightful σ t releaser) :
    Rightful σ' t releaser := by
  cases releaser with
  | joiner c => exact ⟨flags.joined rightful.1,finished rightful.2⟩
  | reaper => exact ⟨flags.detached rightful.1,finished rightful.2⟩

/-- The reaper visits only threads that are detached and finished. -/
theorem detached_of_visiting (inf : Informed σ) (handed : Handed σ) {t : Nat}
    (visits : visiting σ.queue.reaper = some t) :
    (σ.flags t).detached = true ∧ σ.finished t = true := by
  obtain ⟨queue,batch,inv⟩ := handed.invariant
  exact inf.queued t (inf.entered t (inv.carries.visited t visits))

/-- A step that releases nothing, and after which nobody new is about to. -/
theorem Released.congr (rel : Released σ) (unmapped : σ'.unmapped = σ.unmapped) (freed : σ'.freed = σ.freed)
    (flags : ∀ t, Subset (σ.flags t) (σ'.flags t)) (finished : ∀ t, σ.finished t = true → σ'.finished t = true)
    (clients : ∀ c t wants stored, (σ'.client c = .join t wants (.destroyStack stored) →
        σ.client c = .join t wants (.destroyStack stored) ∨ σ.unmapped t = [] ∧ σ.freed t = []) ∧
      (σ'.client c = .join t wants (.free stored) → σ.client c = .join t wants (.free stored)))
    (visits : ∀ t, visiting σ'.queue.reaper = some t → σ'.visit ≠ .orReaped →
      visiting σ.queue.reaper = some t ∧ σ'.visit = σ.visit ∨
        σ'.visit = .munmap ∧ (σ'.flags t).reaped = true ∧ σ.unmapped t = [] ∧ σ.freed t = []) : Released σ' where
  unreaped t is := by
    rw [unmapped,freed]
    apply rel.unreaped t
    by_contra reaped
    have := (flags t).reaped (by simpa using reaped)
    rw [is] at this
    cases this
  joinerUnmaps t c wants stored here := by
    rw [unmapped,freed]
    rcases (clients c t wants stored).1 here with before | clean
    · exact rel.joinerUnmaps t c wants stored before
    · exact clean
  joinerFrees t c wants stored here := by
    rw [unmapped,freed]
    exact rel.joinerFrees t c wants stored ((clients c t wants stored).2 here)
  reaperUnmaps t visit is := by
    rw [unmapped,freed]
    rcases visits t visit (by simp [is]) with ⟨before,same⟩ | ⟨_,new⟩
    · obtain ⟨reaped,clean⟩ := rel.reaperUnmaps t before (same.symm.trans is)
      exact ⟨(flags t).reaped reaped,clean⟩
    · exact new
  reaperFrees t visit is := by
    rw [unmapped,freed]
    rcases visits t visit (by simp [is]) with ⟨before,same⟩ | ⟨other,_⟩
    · obtain ⟨reaped,half⟩ := rel.reaperFrees t before (same.symm.trans is)
      exact ⟨(flags t).reaped reaped,half⟩
    · exact absurd (is.symm.trans other) (by simp)
  settled t := by
    rw [unmapped,freed]
    exact (rel.settled t).imp_right fun ⟨releaser,rightful,rest⟩ =>
      ⟨releaser,rightful_mono (flags t) (finished t) rightful,rest⟩

theorem released_detach (rel : Released σ) {c t : Nat} (effect : DetachEffect σ σ' c t) : Released σ' := by
  refine rel.congr effect.unmapped effect.freed effect.flags (fun u done => (effect.finished u).trans done)
    (fun d u wants stored => ?_) (fun u visit _ => .inl ⟨effect.visiting u visit,effect.visit⟩)
  by_cases isC : d = c
  · subst isC
    rcases effect.own with idle | ⟨pc,here⟩
    · rw [idle]; exact ⟨nofun,nofun⟩
    · rw [here]; exact ⟨nofun,nofun⟩
  · rw [effect.others d isC]; exact ⟨.inl,id⟩

theorem released_startup (rel : Released σ) {t : Nat} (effect : StartupEffect σ σ' t) : Released σ' := by
  refine rel.congr effect.unmapped effect.freed effect.flags effect.finished (fun c u wants stored => ?_)
    (fun u visit _ => .inl ⟨effect.visiting u visit,effect.visit⟩)
  rcases effect.clients c with same | ⟨v,wants',_,now⟩
  · rw [same]; exact ⟨.inl,id⟩
  · rw [now]; exact ⟨nofun,nofun⟩

/-- A step of a join that releases nothing, and leads to a release only of what
    nobody has released. -/
theorem released_goto (rel : Released σ) {c t : Nat} {wants : Bool} (effect : JoinEffect σ σ' c t wants)
    (unmapped : σ'.unmapped = σ.unmapped) (freed : σ'.freed = σ.freed)
    (own : ∀ wants stored, (σ'.client c = .join t wants (.destroyStack stored) → σ.unmapped t = [] ∧ σ.freed t = []) ∧
      σ'.client c ≠ .join t wants (.free stored)) : Released σ' := by
  refine rel.congr unmapped freed effect.flags (fun u done => (effect.finished u).trans done)
    (fun d u wants' stored => ?_) (fun u visit _ => .inl ⟨effect.queue ▸ visit,effect.visit⟩)
  by_cases isC : d = c
  · subst isC
    rcases effect.own with idle | ⟨pc,here⟩
    · rw [idle]; exact ⟨nofun,nofun⟩
    · refine ⟨fun is => ?_,fun is => ?_⟩
      · obtain rfl : t = u := by rw [here] at is; cases is; rfl
        exact .inr ((own wants' stored).1 is)
      · obtain rfl : t = u := by rw [here] at is; cases is; rfl
        exact absurd is (own wants' stored).2
  · rw [effect.others d isC]; exact ⟨.inl,id⟩

theorem released_joinLoop (rel : Released σ) (c t : Nat) (wants : Bool) (s : Flags) :
    Released (joinLoop σ c t wants s) := by
  refine released_goto rel (joinLoop_effect σ c t wants s) ?_ ?_ fun wants' stored => ?_ <;> unfold joinLoop
  · split
    · rfl
    · split <;> rfl
  · split
    · rfl
    · split <;> rfl
  · split
    · simp [State.leave,State.clientAt]
    · split <;> simp [State.leave,State.clientAt]

/-- A step that releases something of one thread. -/
theorem Released.change (rel : Released σ) {t : Nat} (reaped : (σ.flags t).reaped = true) (block : σ'.block = σ.block)
    (others : ∀ u, u ≠ t → σ'.unmapped u = σ.unmapped u ∧ σ'.freed u = σ.freed u)
    (clients : ∀ c u, u ≠ t → ∀ wants stored,
      (σ'.client c = .join u wants (.destroyStack stored) → σ.client c = .join u wants (.destroyStack stored)) ∧
        (σ'.client c = .join u wants (.free stored) → σ.client c = .join u wants (.free stored)))
    (visits : ∀ u, u ≠ t → visiting σ'.queue.reaper = some u → σ'.visit ≠ .orReaped →
      visiting σ.queue.reaper = some u ∧ σ'.visit = σ.visit)
    (joinerUnmaps : ∀ c wants stored, σ'.client c ≠ .join t wants (.destroyStack stored))
    (joinerFrees : ∀ c wants stored, σ'.client c = .join t wants (.free stored) →
      σ'.unmapped t = [.joiner c] ∧ σ'.freed t = [])
    (reaperUnmaps : visiting σ'.queue.reaper = some t → σ'.visit ≠ .munmap)
    (reaperFrees : visiting σ'.queue.reaper = some t → σ'.visit = .free → σ'.unmapped t = [.reaper] ∧ σ'.freed t = [])
    (settled : ∃ releaser, Rightful σ t releaser ∧ σ'.unmapped t = [releaser] ∧
      (σ'.freed t = [] ∨ σ'.freed t = [releaser])) : Released σ' where
  unreaped u is := by
    simp only [State.flags,block] at is
    by_cases isT : u = t
    · subst isT; exact absurd (reaped.symm.trans is) (by simp)
    · rw [(others u isT).1,(others u isT).2]; exact rel.unreaped u is
  joinerUnmaps u c wants stored here := by
    by_cases isT : u = t
    · subst isT; exact absurd here (joinerUnmaps c wants stored)
    · rw [(others u isT).1,(others u isT).2]
      exact rel.joinerUnmaps u c wants stored ((clients c u isT wants stored).1 here)
  joinerFrees u c wants stored here := by
    by_cases isT : u = t
    · subst isT; exact joinerFrees c wants stored here
    · rw [(others u isT).1,(others u isT).2]
      exact rel.joinerFrees u c wants stored ((clients c u isT wants stored).2 here)
  reaperUnmaps u visit is := by
    by_cases isT : u = t
    · subst isT; exact absurd is (reaperUnmaps visit)
    · obtain ⟨before,same⟩ := visits u isT visit (by simp [is])
      rw [(others u isT).1,(others u isT).2]
      simp only [State.flags,block]
      exact rel.reaperUnmaps u before (same.symm.trans is)
  reaperFrees u visit is := by
    by_cases isT : u = t
    · subst isT
      refine ⟨?_,reaperFrees visit is⟩
      simp only [State.flags,block]
      exact reaped
    · obtain ⟨before,same⟩ := visits u isT visit (by simp [is])
      rw [(others u isT).1,(others u isT).2]
      simp only [State.flags,block]
      exact rel.reaperFrees u before (same.symm.trans is)
  settled u := by
    have kept : ∀ releaser, Rightful σ u releaser → Rightful σ' u releaser := fun releaser rightful =>
      rightful_mono (by simp only [State.flags,block]; exact subset_refl _)
        (by simp only [State.finished,block]; exact id) rightful
    by_cases isT : u = t
    · subst isT
      obtain ⟨releaser,rightful,rest⟩ := settled
      exact .inr ⟨releaser,kept releaser rightful,rest⟩
    · rw [(others u isT).1,(others u isT).2]
      exact (rel.settled u).imp_right (Exists.imp fun releaser => And.imp_left (kept releaser))

/-- A joiner that releases something is the only one who does. -/
theorem released_alone (inf : Informed σ) (single : Single σ) (handed : Handed σ) {c t : Nat}
    (won : Won t (σ.client c)) :
    (∀ d wants stored, d ≠ c → σ.client d ≠ .join t wants (.destroyStack stored) ∧
      σ.client d ≠ .join t wants (.free stored)) ∧
      visiting σ.queue.reaper ≠ some t := by
  refine ⟨fun d wants stored other => ⟨fun here => other ?_,fun here => other ?_⟩,fun visits => ?_⟩
  · exact single.winner t d c (by rw [here]; exact ⟨rfl,trivial⟩) won
  · exact single.winner t d c (by rw [here]; exact ⟨rfl,trivial⟩) won
  · exact inf.single t ⟨(detached_of_visiting inf handed visits).1,joined_of_won inf won⟩

theorem released_join (rel : Released σ) (inf : Informed σ) (single : Single σ) (handed : Handed σ) {c t : Nat}
    {wants : Bool} {pc : JoinPc} (here : σ.client c = .join t wants pc) : Released (mythreadJoin σ c t wants pc) := by
  have effect := mythreadJoin_effect here
  cases pc with
  | loadState => exact released_joinLoop rel c t wants _
  | compareExchange s =>
    simp only [mythreadJoin] at effect ⊢
    split at effect
    · rw [if_pos ‹_›]
      exact released_goto rel effect rfl rfl fun _ _ => by simp [State.clientAt]
    · rw [if_neg ‹_›]
      exact released_joinLoop rel c t wants _
  | loadFinished =>
    refine released_goto rel effect (mythreadJoin_releases.1 (by simp))
      (mythreadJoin_releases.2 (by simp)) fun _ _ => ?_
    simp only [mythreadJoin]
    split
    · split <;> simp [State.clientAt]
    · simp [State.clientAt]
  | futexWait =>
    refine released_goto rel effect (mythreadJoin_releases.1 (by simp))
      (mythreadJoin_releases.2 (by simp)) fun _ _ => ?_
    simp only [mythreadJoin]
    split <;> simp [State.clientAt]
  | asleep =>
    refine released_goto rel effect (mythreadJoin_releases.1 (by simp))
      (mythreadJoin_releases.2 (by simp)) fun _ _ => ?_
    simp [mythreadJoin,State.wake,here,State.clientAt]
  | loadRetval => exact released_goto rel effect rfl rfl fun _ _ => by simp [mythreadJoin,State.clientAt]
  | orReaped stored =>
    by_cases reaped : (σ.flags t).reaped = true
    · refine released_goto rel effect ?_ ?_ fun _ _ => ?_ <;> simp only [mythreadJoin] <;> rw [if_pos reaped]
      · rfl
      · rfl
      · simp [State.leave,State.clientAt]
    · have clean := rel.unreaped t (by simpa using reaped)
      refine released_goto rel effect ?_ ?_ fun _ _ => ?_ <;> simp only [mythreadJoin] <;> rw [if_neg reaped]
      · rfl
      · rfl
      · exact ⟨fun _ => clean,by simp [State.clientAt]⟩
  | destroyStack stored =>
    obtain ⟨noJoiner,noReaper⟩ := released_alone inf single handed (t := t) (c := c) (by rw [here]; exact ⟨rfl,trivial⟩)
    have knows := inf.clients c
    rw [here] at knows
    obtain ⟨unmapped,freed⟩ := rel.joinerUnmaps t c wants stored here
    refine rel.change (t := t) knows.2.2.2 rfl (fun u other =>
      ⟨by simp [mythreadJoin,State.unmap,State.clientAt,other],rfl⟩)
      (fun d u other wants' stored' => ?_) (fun u _ visit _ => ⟨visit,rfl⟩) (fun d wants' stored' => ?_)
      (fun d wants' stored' => ?_) (fun visit => absurd visit noReaper) (fun visit => absurd visit noReaper)
      ⟨.joiner c,⟨knows.1,knows.2.1⟩,by simp [mythreadJoin,State.unmap,State.clientAt,unmapped],.inl freed⟩
    all_goals by_cases isC : d = c
    · subst isC
      simp only [mythreadJoin,State.clientAt,Function.update_self]
      exact ⟨by simp,fun same => by cases same; exact absurd rfl other⟩
    · simp only [mythreadJoin,State.clientAt,Function.update_of_ne isC]
      exact ⟨id,id⟩
    · subst isC; simp [mythreadJoin,State.clientAt]
    · simp only [mythreadJoin,State.clientAt,Function.update_of_ne isC]
      exact (noJoiner d wants' stored' isC).1
    · subst isC
      intro _
      exact ⟨by simp [mythreadJoin,State.unmap,State.clientAt,unmapped],freed⟩
    · simp only [mythreadJoin,State.clientAt,Function.update_of_ne isC]
      intro is
      exact absurd is (noJoiner d wants' stored' isC).2
  | free stored =>
    obtain ⟨noJoiner,noReaper⟩ := released_alone inf single handed (t := t) (c := c) (by rw [here]; exact ⟨rfl,trivial⟩)
    have knows := inf.clients c
    rw [here] at knows
    obtain ⟨unmapped,freed⟩ := rel.joinerFrees t c wants stored here
    refine rel.change (t := t) knows.2.2.2 rfl
      (fun u other => ⟨rfl,by simp [mythreadJoin,State.free,State.leave,State.clientAt,other]⟩)
      (fun d u other wants' stored' => ?_) (fun u _ visit _ => ⟨visit,rfl⟩) (fun d wants' stored' => ?_)
      (fun d wants' stored' => ?_) (fun visit => absurd visit noReaper) (fun visit => absurd visit noReaper)
      ⟨.joiner c,⟨knows.1,knows.2.1⟩,unmapped,
        .inr (by simp [mythreadJoin,State.free,State.leave,State.clientAt,freed])⟩
    all_goals by_cases isC : d = c
    · subst isC
      simp only [mythreadJoin,State.leave,State.clientAt,Function.update_self]
      exact ⟨by simp,by simp⟩
    · simp only [mythreadJoin,State.leave,State.clientAt,Function.update_of_ne isC]
      exact ⟨id,id⟩
    · subst isC; simp [mythreadJoin,State.leave,State.clientAt]
    · simp only [mythreadJoin,State.leave,State.clientAt,Function.update_of_ne isC]
      exact (noJoiner d wants' stored' isC).1
    · subst isC; simp [mythreadJoin,State.leave,State.clientAt]
    · simp only [mythreadJoin,State.leave,State.clientAt,Function.update_of_ne isC]
      intro is
      exact absurd is (noJoiner d wants' stored' isC).2

theorem released_reapStep {env : Env} (rel : Released σ) (done : reapStep σ env = some σ') : Released σ' := by
  obtain ⟨queue,_,rfl⟩ := Option.map_eq_some_iff.mp done
  exact rel.congr rfl rfl (fun _ => subset_refl _) (fun _ => id) (fun _ _ _ _ => ⟨.inl,id⟩)
    fun _ _ busy => absurd rfl busy

theorem released_reaper {env : Env} (rel : Released σ) (inf : Informed σ) (handed : Handed σ)
    (done : reaperMain σ env = some σ') : Released σ' := by
  unfold MyThread.reaperMain at done
  split at done
  · rename_i t _ _ _ here
    have visits : visiting σ.queue.reaper = some t := by rw [here]; rfl
    have onlyT : ∀ u, visiting σ.queue.reaper = some u → u = t := fun u is => Option.some.inj (is.symm.trans visits)
    have detached := detached_of_visiting inf handed visits
    -- No joiner has won, so that none is about to release anything.
    have noJoiner : ∀ c, ¬ Won t (σ.client c) := fun c won => inf.single t ⟨detached.1,joined_of_won inf won⟩
    have noUnmap : ∀ c wants stored, σ.client c ≠ .join t wants (.destroyStack stored) := fun c wants stored is =>
      noJoiner c (by rw [is]; exact ⟨rfl,trivial⟩)
    have noFree : ∀ c wants stored, σ.client c ≠ .join t wants (.free stored) := fun c wants stored is =>
      noJoiner c (by rw [is]; exact ⟨rfl,trivial⟩)
    split at done
    · rename_i visit
      have more : Subset (σ.flags t) { σ.flags t with reaped := true } := ⟨id,id,fun _ => rfl,id⟩
      simp only at done
      split at done
      · have set : Released (σ.setFlags t { σ.flags t with reaped := true }) :=
          rel.congr rfl rfl (setFlags_subset more) (fun u => by simp) (fun _ _ _ _ => ⟨.inl,id⟩)
            fun u _ busy => absurd visit busy
        exact released_reapStep set done
      · rename_i reaped
        cases done
        refine rel.congr rfl rfl (setFlags_subset more) (fun u => ?_) (fun _ _ _ _ => ⟨.inl,id⟩) fun u is _ => .inr ?_
        · intro finished
          exact (setFlags_finished σ t u _).trans finished
        · rw [onlyT u is]
          exact ⟨rfl,congrArg Flags.reaped ((setFlags_flags σ t t _).trans (if_pos rfl)),
            rel.unreaped t (by simpa using reaped)⟩
    · rename_i visit
      cases done
      obtain ⟨reaped,unmapped,freed⟩ := rel.reaperUnmaps t visits visit
      refine rel.change (t := t) reaped rfl (fun u other => ⟨by simp [State.unmap,other],rfl⟩)
        (fun _ _ _ _ _ => ⟨id,id⟩) (fun u other is => absurd (onlyT u is) other) noUnmap
        (fun c wants stored is => absurd is (noFree c wants stored)) (fun _ => by simp)
        (fun _ _ => ⟨by simp [State.unmap,unmapped],freed⟩)
        ⟨.reaper,detached,by simp [State.unmap,unmapped],.inl freed⟩
    · rename_i visit
      obtain ⟨reaped,unmapped,freed⟩ := rel.reaperFrees t visits visit
      obtain ⟨queue,_,rfl⟩ := Option.map_eq_some_iff.mp done
      refine rel.change (t := t) reaped rfl (fun u other => ⟨rfl,by simp [State.free,other]⟩)
        (fun _ _ _ _ _ => ⟨id,id⟩) (fun _ _ _ busy => absurd rfl busy) noUnmap
        (fun c wants stored is => absurd is (noFree c wants stored)) (fun _ => by simp) (fun _ is => by simp at is)
        ⟨.reaper,detached,unmapped,.inr (by simp [State.free,freed])⟩
  · exact released_reapStep rel done

theorem single_step {a : Act} (single : Single σ) (inf : Informed σ) (done : step σ a = some σ') : Single σ' := by
  cases step_cases done with
  | finish t retval => exact single.congr (fun _ _ => id) fun _ => rfl
  | startup done => exact single_startup single (threadStartup_effect done)
  | call c call =>
    refine single.clientAt (c := c) (fun d other => by simp [State.clientAt,other]) (fun _ is => ?_) fun _ => rfl
    cases call <;> simp [State.clientAt,entry,Won,PastExchange] at is
  | join env here => exact single_join single inf here
  | detach here done => exact single_detach single (mythreadDetach_effect here done)
  | reaper done =>
    have effect := reaperMain_effect done
    exact single.congr (fun _ _ is => effect.client ▸ is) fun _ => by rw [effect.returns]

theorem released_step {a : Act} (rel : Released σ) (inf : Informed σ) (single : Single σ) (handed : Handed σ)
    (done : step σ a = some σ') : Released σ' := by
  cases step_cases done with
  | finish t retval =>
    exact rel.congr rfl rfl (fun _ => subset_refl _) (fun _ => id) (fun _ _ _ _ => ⟨.inl,id⟩)
      fun _ visits _ => .inl ⟨visits,rfl⟩
  | startup done => exact released_startup rel (threadStartup_effect done)
  | call c call =>
    refine rel.congr rfl rfl (fun _ => subset_refl _) (fun _ => id) (fun d u wants stored => ?_)
      fun _ visits _ => .inl ⟨visits,rfl⟩
    by_cases isC : d = c
    · subst isC; cases call <;> simp [State.clientAt,entry]
    · have other : (σ.clientAt c (entry call)).client d = σ.client d := by simp [State.clientAt,isC]
      exact ⟨fun is => .inl (other.symm.trans is),fun is => other.symm.trans is⟩
  | join env here => exact released_join rel inf single handed here
  | detach here done => exact released_detach rel (mythreadDetach_effect here done)
  | reaper done => exact released_reaper rel inf handed done

/-! ### Runs -/

/-- The invariant of the whole program, as far as it is about the ownership of
    threads. -/
structure Owned (σ : State) : Prop where
  informed : Informed σ
  handed : Handed σ
  single : Single σ
  released : Released σ

theorem owned_step {a : Act} (owned : Owned σ) (done : step σ a = some σ') : Owned σ' where
  informed := informed_step owned.informed done
  handed := handed_step owned.handed done
  single := single_step owned.single owned.informed done
  released := released_step owned.released owned.informed owned.single owned.handed done

theorem start_owned : Owned start where
  informed := start_informed
  handed := start_handed
  single := ⟨fun _ _ _ won => won.elim,fun _ => by simp [start],fun _ _ won => won.elim⟩
  released := ⟨fun _ _ => ⟨rfl,rfl⟩,nofun,nofun,nofun,nofun,fun _ => .inl ⟨rfl,rfl⟩⟩

theorem run_owned {acts : List Act} (ran : Transition.run step start acts = some σ) : Owned σ :=
  Transition.run_invariant (P := Owned) (fun _ _ _ owned done => owned_step owned done) ran start_owned

/-- A detach of the thread has returned 0. -/
def detachReturned (t : Nat) (r : Return) : Bool :=
  match r.call, r.result with
  | .detach u, .ok _ => u == t
  | _, _ => false

/-- The thread has at most one owner, who releases it once. -/
structure OwnedOnce (σ : State) (t : Nat) : Prop where
  bits : ¬ ((σ.flags t).joined = true ∧ (σ.flags t).detached = true)
  joins : σ.returns.countP (joinReturned t) ≤ 1
  either : ∀ r ∈ σ.returns, ∀ q ∈ σ.returns, joinReturned t r = true → detachReturned t q = false
  unmapped : (σ.unmapped t).length ≤ 1
  freed : (σ.freed t).length ≤ 1
  finished : ∀ r ∈ σ.unmapped t ++ σ.freed t, σ.finished t = true
  joiner : ∀ c, .joiner c ∈ σ.unmapped t ++ σ.freed t → (σ.flags t).joined = true
  reaper : .reaper ∈ σ.unmapped t ++ σ.freed t → (σ.flags t).detached = true
  value : ∀ r ∈ σ.returns, ∀ stored, r.call = .join t true → r.result = .ok stored →
    ∃ v, σ.returned t = some v ∧ stored = some v

theorem detached_of_returned (inf : Informed σ) {t : Nat} {r : Return} (member : r ∈ σ.returns)
    (ok : detachReturned t r = true) : (σ.flags t).detached = true := by
  have knows := inf.returns r member
  obtain ⟨c,call,result⟩ := r
  cases call <;> cases result <;> simp only [detachReturned,beq_iff_eq,Bool.false_eq_true] at ok
  subst ok
  exact knows

theorem Released.rightful (rel : Released σ) {t : Nat} {releaser : Releaser}
    (member : releaser ∈ σ.unmapped t ++ σ.freed t) : Rightful σ t releaser := by
  rcases rel.settled t with ⟨unmapped,freed⟩ | ⟨other,rightful,unmapped,freed⟩
  · rw [unmapped,freed] at member; cases member
  · have same : releaser = other := by
      rcases freed with freed | freed <;> rw [unmapped,freed] at member <;> simpa using member
    exact same ▸ rightful

/-- In every reachable state a thread has at most one owner, however many calls
    there are on it. -/
theorem ownership_decided_once {acts : List Act} (ran : Transition.run step start acts = some σ) (t : Nat) :
    OwnedOnce σ t := by
  obtain ⟨inf,handed,single,rel⟩ := run_owned ran
  refine ⟨fun both => inf.single t both.symm,single.once t,fun r memberR q memberQ joined => ?_,?_,?_,
    fun r member => ?_,
    fun c member => (rel.rightful member).1,fun member => (rel.rightful member).1,fun r member stored call result => ?_⟩
  · by_contra detached
    exact inf.single t ⟨detached_of_returned inf memberQ (by simpa using detached),
      joined_of_returned inf memberR joined⟩
  · rcases rel.settled t with ⟨unmapped,_⟩ | ⟨_,_,unmapped,_⟩ <;> simp [unmapped]
  · rcases rel.settled t with ⟨_,freed⟩ | ⟨_,_,_,freed | freed⟩ <;> simp [freed]
  · cases r <;> exact (rel.rightful member).2
  · obtain ⟨c,call',result'⟩ := r
    cases call
    cases result
    obtain ⟨_,done,is⟩ := inf.returns _ member
    have value := returned_of_finished inf done
    exact ⟨_,value,by simpa [stores,value] using is⟩

/-- A join and a detach race for a finished thread; the join wins and returns the
    thread's value 7. -/
def raceSchedule : List Act :=
  let go : Env := ⟨none,false⟩
  [.finish 0 7,.startup 0 ⟨go,0⟩,.startup 0 ⟨go,0⟩,.call 1 (.join 0 true),.call 2 (.detach 0),.client 1 go,.client 2 go,
    .client 1 go,.client 2 go,.client 1 go,.client 1 go,.client 1 go,.client 1 go,.client 1 go]

def after (acts : List Act) : State := (Transition.run step start acts).getD start

example : (after raceSchedule).returns = [⟨2,.detach 0,.einval⟩,⟨1,.join 0 true,.ok (some 7)⟩] := by decide

theorem ownership_decided_race : OwnedOnce (after raceSchedule) 0 :=
  ownership_decided_once (rfl : Transition.run step start raceSchedule = _) 0

end Os5Sem.ThreadOwnership

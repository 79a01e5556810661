import Os5Sem.ListProgram

/-!
What the steps of the list programs are, and the locks that a thread can hold at
each of its program points: those of the nodes in its local variables, and none at
the top of its loop.
-/
namespace Os5Sem.ListLocks
open Os5Sem.ListStorage Os5Sem.ListProgram

/-- What can happen, and where it leads. -/
inductive Step (v : Variant) (s : Storage) (value : Nat → List Char) (σ : State) : Act → State → Prop
  | search (t : Nat) (kind : Searcher) (running : σ.isRunning = true ∧ 2 ≤ s.size) (top : σ.pc t = .idle) :
    Step v s value σ (.search t kind) (σ.goto t (.search kind .lockFirst))
  | swap (t : Nat) (kind : Swapper) (randR : Nat) (running : σ.isRunning = true ∧ 2 ≤ s.size) (top : σ.pc t = .idle) :
    Step v s value σ (.swap t kind randR) (σ.goto t (.swap kind (randR % (s.size - 1)) .lockPrev))
  | searching {t : Nat} {kind : Searcher} {pc : SearchPc} {σ' : State} (here : σ.pc t = .search kind pc)
    (taken : searchPairs v s value kind t σ pc = some σ') : Step v s value σ (.step t) σ'
  | swapping {t leftIndex : Nat} {kind : Swapper} {pc : SwapPc} {σ' : State}
    (here : σ.pc t = .swap kind leftIndex pc) (taken : swapPairs s value kind leftIndex t σ pc = some σ') :
    Step v s value σ (.step t) σ'
  | stop : Step v s value σ .stop { σ with isRunning := false }

theorem step_cases {v : Variant} {s : Storage} {value : Nat → List Char} {σ σ' : State} {a : Act}
    (taken : step v s value σ a = some σ') : Step v s value σ a σ' := by
  cases a with
  | search t kind =>
    simp only [step] at taken
    split at taken <;> cases taken
    rename_i enabled
    exact .search t kind ⟨enabled.1,enabled.2.1⟩ enabled.2.2
  | swap t kind randR =>
    simp only [step] at taken
    split at taken <;> cases taken
    rename_i enabled
    exact .swap t kind randR ⟨enabled.1,enabled.2.1⟩ enabled.2.2
  | step t =>
    simp only [step] at taken
    split at taken
    · cases taken
    · exact .searching ‹_› taken
    · exact .swapping ‹_› taken
  | stop => cases taken; exact .stop

/-- The nodes whose locks a thread can hold at a program point. -/
def holding (s : Storage) : Pc → List Nat
  | .idle => []
  | .search _ pc =>
    match pc with
    | .lockFirst | .countSingle | .addPairs _ | .addIteration _ => []
    | .readFirst | .unlockSingle | .lockA _ => [s.first]
    | .unlockFirst a => [s.first,a]
    | .readB a _ | .unlockLast a _ | .lockB a _ _ => [a]
    | .unlockA a b _ => [a,b]
  | .swap _ _ pc =>
    match pc with
    | .lockPrev => []
    | .readCur | .unlockNoCur | .lockCur _ => [s.first]
    | .readStep prev cur _ | .lockStep prev cur _ _ | .readNext prev cur | .unlockNoNextCur prev cur
    | .lockNext prev cur _ | .unlockCur prev cur _ => [prev,cur]
    | .unlockNoNextPrev prev | .unlockPrev prev _ => [prev]
    | .unlockStep prev cur next _ | .compare prev cur next | .swapNodes prev cur next _ | .addSwap prev cur next
    | .unlockNext prev cur next _ => [prev,cur,next]

/-- Every thread holds at most the locks of its program point. -/
def LocalLocks (s : Storage) (σ : State) : Prop :=
  ∀ t x m, (t,m) ∈ σ.sync x → x ∈ holding s (σ.pc t)

variable {s : Storage} {σ : State}

theorem LocalLocks.goto (locks : LocalLocks s σ) {t : Nat} {p : Pc}
    (keeps : ∀ x ∈ holding s (σ.pc t), x ∈ holding s p) : LocalLocks s (σ.goto t p) := by
  intro u x m member
  have before := locks u x m member
  by_cases same : u = t
  · subst same; simpa [State.goto] using keeps x before
  · simpa [State.goto,same] using before

theorem LocalLocks.lock (locks : LocalLocks s σ) {σ' : State} {t x : Nat} {mode : Mode} {p : Pc}
    (granted : σ.lock t x mode = some σ') (keeps : ∀ y ∈ holding s (σ.pc t), y ∈ holding s p)
    (new : x ∈ holding s p) : LocalLocks s (σ'.goto t p) := by
  unfold State.lock at granted
  split at granted
  · cases granted
    intro u y m member
    by_cases same : u = t
    · subst same
      by_cases isX : y = x
      · subst isX; simpa [State.goto] using new
      · simp only [State.goto,Function.update_of_ne isX] at member
        simpa [State.goto] using keeps y (locks _ _ _ member)
    · by_cases isX : y = x
      · subst isX
        simp only [State.goto,Function.update_self,List.mem_cons,Prod.mk.injEq,same,false_and,false_or] at member
        simpa [State.goto,same] using locks _ _ _ member
      · simp only [State.goto,Function.update_of_ne isX] at member
        simpa [State.goto,same] using locks _ _ _ member
  · cases granted

theorem LocalLocks.unlock (locks : LocalLocks s σ) {t x : Nat} {p : Pc}
    (keeps : ∀ y ∈ holding s (σ.pc t), y ≠ x → y ∈ holding s p) : LocalLocks s ((σ.unlock t x).goto t p) := by
  intro u y m member
  by_cases isX : y = x
  · subst isX
    simp only [State.goto,State.unlock,Function.update_self,List.mem_filter,bne_iff_ne] at member
    simpa [State.goto,State.unlock,member.2] using locks _ _ _ member.1
  · simp only [State.goto,State.unlock,Function.update_of_ne isX] at member
    by_cases same : u = t
    · subst same; simpa [State.goto,State.unlock] using keeps y (locks _ _ _ member) isX
    · simpa [State.goto,State.unlock,same] using locks _ _ _ member

theorem LocalLocks.congr (locks : LocalLocks s σ) {σ' : State} (sync : σ'.sync = σ.sync) (pcs : σ'.pc = σ.pc) :
    LocalLocks s σ' := by
  intro t x m member
  rw [sync] at member
  rw [pcs]
  exact locks t x m member

theorem searchPairs_locks {v : Variant} {value : Nat → List Char} {σ' : State} {t : Nat} {kind : Searcher}
    {pc : SearchPc}
    (locks : LocalLocks s σ) (at_pc : σ.pc t = .search kind pc) (taken : searchPairs v s value kind t σ pc = some σ') :
    LocalLocks s σ' := by
  cases pc with
  | lockFirst =>
    obtain ⟨σ1,granted,rfl⟩ := Option.map_eq_some_iff.mp taken
    exact (locks.lock (p := .search kind .readFirst) granted (by simp [at_pc,holding])
      (by simp [holding])).congr rfl rfl
  | readFirst =>
    simp only [searchPairs] at taken
    split at taken <;> cases taken <;> exact locks.goto (by simp [at_pc,holding])
  | unlockSingle => cases taken; exact locks.unlock (by simp [at_pc,holding])
  | countSingle => cases taken; exact (locks.goto (p := .idle) (t := t) (by simp [at_pc,holding])).congr rfl rfl
  | lockA a =>
    obtain ⟨σ1,granted,rfl⟩ := Option.map_eq_some_iff.mp taken
    exact locks.lock granted (by simp [at_pc,holding]) (by simp [holding])
  | unlockFirst a => cases taken; exact locks.unlock (by simp [at_pc,holding])
  | readB a n =>
    simp only [searchPairs] at taken
    split at taken <;> cases taken <;> exact locks.goto (by simp [at_pc,holding])
  | unlockLast a n =>
    simp only [searchPairs] at taken
    split at taken <;> cases taken <;> exact locks.unlock (by simp [at_pc,holding])
  | lockB a b n =>
    obtain ⟨σ1,granted,rfl⟩ := Option.map_eq_some_iff.mp taken
    exact locks.lock granted (by simp [at_pc,holding]) (by simp [holding])
  | unlockA a b n => cases taken; exact locks.unlock (by simp [at_pc,holding])
  | addPairs n =>
    cases taken
    exact (locks.goto (p := .search kind (.addIteration n)) (t := t) (by simp [at_pc,holding])).congr rfl rfl
  | addIteration n => cases taken; exact (locks.goto (p := .idle) (t := t) (by simp [at_pc,holding])).congr rfl rfl

theorem swapPairs_locks {value : Nat → List Char} {σ' : State} {t k : Nat} {kind : Swapper} {pc : SwapPc}
    (locks : LocalLocks s σ) (at_pc : σ.pc t = .swap kind k pc) (taken : swapPairs s value kind k t σ pc = some σ') :
    LocalLocks s σ' := by
  have walks : ∀ prev cur j x, x ∈ holding s (.swap kind k (walk k prev cur j)) ↔ x = prev ∨ x = cur := by
    intro prev cur j x
    unfold walk
    split <;> simp [holding]
  cases pc with
  | lockPrev =>
    obtain ⟨σ1,granted,rfl⟩ := Option.map_eq_some_iff.mp taken
    exact (locks.lock (p := .swap kind k .readCur) granted (by simp [at_pc,holding]) (by simp [holding])).congr rfl rfl
  | readCur =>
    simp only [swapPairs] at taken
    split at taken <;> cases taken <;> exact locks.goto (by simp [at_pc,holding])
  | unlockNoCur =>
    cases taken
    exact (locks.unlock (p := .idle) (t := t) (x := s.first) (by simp [at_pc,holding])).congr rfl rfl
  | lockCur cur =>
    obtain ⟨σ1,granted,rfl⟩ := Option.map_eq_some_iff.mp taken
    refine locks.lock granted (fun y => ?_) (by rw [walks]; exact .inr rfl)
    rw [walks]
    simp only [at_pc,holding,List.mem_singleton]
    exact .inl
  | readStep prev cur j =>
    simp only [swapPairs] at taken
    split at taken <;> cases taken <;> exact locks.goto (by simp [at_pc,holding])
  | lockStep prev cur next j =>
    obtain ⟨σ1,granted,rfl⟩ := Option.map_eq_some_iff.mp taken
    exact locks.lock granted (by simp [at_pc,holding]) (by simp [holding])
  | unlockStep prev cur next j =>
    cases taken
    refine locks.unlock fun y => ?_
    rw [walks]
    simp only [at_pc,holding,List.mem_cons,List.not_mem_nil,or_false]
    rintro (isPrev | isCur | isNext) other
    · exact absurd isPrev other
    · exact .inl isCur
    · exact .inr isNext
  | readNext prev cur =>
    simp only [swapPairs] at taken
    split at taken <;> cases taken <;> exact locks.goto (by simp [at_pc,holding])
  | unlockNoNextCur prev cur => cases taken; exact locks.unlock (by simp +contextual [at_pc,holding])
  | unlockNoNextPrev prev =>
    cases taken
    exact (locks.unlock (p := .idle) (t := t) (x := prev) (by simp [at_pc,holding])).congr rfl rfl
  | lockNext prev cur next =>
    obtain ⟨σ1,granted,rfl⟩ := Option.map_eq_some_iff.mp taken
    exact locks.lock granted (by simp [at_pc,holding]) (by simp [holding])
  | compare prev cur next =>
    simp only [swapPairs] at taken
    split at taken <;> cases taken <;> exact locks.goto (by simp [at_pc,holding])
  | swapNodes prev cur next npc =>
    cases npc <;> cases taken <;> exact (locks.goto (t := t) (by simp [at_pc,holding])).congr rfl rfl
  | addSwap prev cur next => cases taken; exact (locks.goto (t := t) (by simp [at_pc,holding])).congr rfl rfl
  | unlockNext prev cur next decision => cases taken; exact locks.unlock (by simp +contextual [at_pc,holding])
  | unlockCur prev cur decision => cases taken; exact locks.unlock (by simp +contextual [at_pc,holding])
  | unlockPrev prev decision =>
    cases taken
    exact (locks.unlock (p := .idle) (t := t) (x := prev) (by simp [at_pc,holding])).congr rfl rfl

theorem step_locks {v : Variant} {value : Nat → List Char} {σ' : State} {a : Act} (locks : LocalLocks s σ)
    (taken : step v s value σ a = some σ') : LocalLocks s σ' := by
  cases step_cases taken with
  | search t kind _ top => exact locks.goto (by simp [top,holding])
  | swap t kind randR _ top => exact locks.goto (by simp [top,holding])
  | searching here taken => exact searchPairs_locks locks here taken
  | swapping here taken => exact swapPairs_locks locks here taken
  | stop => exact locks.congr rfl rfl

theorem start_locks (s : Storage) (h : Heap) : LocalLocks s (start h) := by
  intro t x m member
  cases member

end Os5Sem.ListLocks

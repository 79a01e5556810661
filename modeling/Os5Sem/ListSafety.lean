import Os5Sem.ListSerializable

/-!
What holds in every reachable state of the list programs, in the middle of any
operations: the list is intact while no swap is relinking nodes, the next fields
that a swap relinks are its own, a thread waits only for the current successor
of a node, the exits for a missing successor are never taken, some thread can
always go on, and a thread outside an operation holds no lock.
-/
namespace Os5Sem.ListSafety
open Os5Sem.Chains Os5Sem.ListStorage Os5Sem.ListProgram Os5Sem.ListLocks Os5Sem.ListConvoy Os5Sem.ListRefine
open Os5Sem.ListSerializable

/-! ### What a program point is about to do -/

/-- Between the first and the last write of `swap_nodes`. -/
def Relinking : Pc → Prop
  | .swap _ _ (.swapNodes _ _ _ pc) => pc ≠ .storePrev
  | _ => False

/-- The three nodes of the call of `swap_nodes` that a thread is in. -/
def swapping : Pc → List Nat
  | .swap _ _ (.swapNodes prev cur next _) => [prev,cur,next]
  | _ => []

/-- The node whose next field is read or written by the next step. -/
def accesses (s : Storage) : Pc → Option Nat
  | .search _ .readFirst => some s.first
  | .search _ (.readB a _) => some a
  | .swap _ _ .readCur => some s.first
  | .swap _ _ (.readStep _ cur _) => some cur
  | .swap _ _ (.readNext _ cur) => some cur
  | .swap _ _ (.swapNodes prev cur next pc) =>
    match pc with
    | .storePrev => some prev
    | .loadRight => some next
    | .storeLeft _ => some cur
    | .storeRight => some next
  | _ => none

/-- The node whose lock is requested by the next step, after the node from whose
    next field it was read. -/
def awaits (s : Storage) : Pc → Option (Nat × Nat)
  | .search _ (.lockA a) => some (s.first,a)
  | .search _ (.lockB a b _) => some (a,b)
  | .swap _ _ (.lockCur cur) => some (s.first,cur)
  | .swap _ _ (.lockStep _ cur next _) => some (cur,next)
  | .swap _ _ (.lockNext _ cur next) => some (cur,next)
  | _ => none

/-- The node whose successor the next step expects: if there were none, the step
    would go to one of the exits, or leave the walk. -/
def expects (s : Storage) : Pc → Option Nat
  | .search _ .readFirst => some s.first
  | .swap _ _ .readCur => some s.first
  | .swap _ _ (.readStep _ cur _) => some cur
  | .swap _ _ (.readNext _ cur) => some cur
  | _ => none

/-- Inside the branch of `search_pairs` for a single node or inside an exit of
    `swap_pairs` for a missing successor. -/
def NoSuccessor : Pc → Prop
  | .search _ .unlockSingle | .search _ .countSingle => True
  | .swap _ _ .unlockNoCur | .swap _ _ (.unlockNoNextCur _ _) | .swap _ _ (.unlockNoNextPrev _) => True
  | _ => False

/-- The lock that the next step requests. -/
def requests (v : Variant) (s : Storage) : Pc → Option (Nat × Mode)
  | .search _ .lockFirst => some (s.first,v.searchMode)
  | .search _ (.lockA a) => some (a,v.searchMode)
  | .search _ (.lockB _ b _) => some (b,v.searchMode)
  | .swap _ _ .lockPrev => some (s.first,.exclusive)
  | .swap _ _ (.lockCur cur) => some (cur,.exclusive)
  | .swap _ _ (.lockStep _ _ next _) => some (next,.exclusive)
  | .swap _ _ (.lockNext _ _ next) => some (next,.exclusive)
  | _ => none

/-! ### Integrity -/

/-- The list of a storage with the given nodes, in the middle of a run. -/
structure Intact (s : Storage) (nodes : List Nat) (σ : State) : Prop where
  list : (∀ t, ¬ Relinking (σ.pc t)) →
    ∃ final, final.Perm nodes ∧ (s.first :: final).Nodup ∧ Chain σ.next (some s.first) (s.first :: final)
  owned : ∀ t u x, u ≠ t → x ∈ swapping (σ.pc t) → accesses s (σ.pc u) ≠ some x
  current : ∀ t x y, awaits s (σ.pc t) = some (x,y) → σ.next x = some y
  expected : ∀ t x, expects s (σ.pc t) = some x → (σ.next x).isSome
  successor : ∀ t, ¬ NoSuccessor (σ.pc t)

variable {v : Variant} {s : Storage} {value : Nat → List Char} {σ : State} {c : Convoy} {nodes : List Nat}

theorem clean_of_not_relinking {pc : Pc} (settled : ¬ Relinking pc) : dirty pc = [] := by
  unfold dirty
  split
  · exact absurd (by simp [Relinking]) settled
  · exact absurd (by simp [Relinking]) settled
  · exact absurd (by simp [Relinking]) settled
  · rfl

/-- A thread reads and writes next fields only inside its window. -/
theorem accesses_held (ref : Refines v s value σ c) {u x : Nat} (access : accesses s (σ.pc u) = some x) :
    ∃ p, c.items[p]? = some x ∧ (c.phase u).Holds p := by
  have fit := ref.fits u
  generalize c.phase u = phase at fit ⊢
  generalize σ.pc u = pc at fit access
  cases fit <;> simp only [accesses,Option.some.injEq,reduceCtorEq] at access <;> subst access
  case readFirst => exact ⟨0,ref.first,by omega,by omega⟩
  case readB here => exact ⟨_,here,by omega,by omega⟩
  case readCur => exact ⟨0,ref.first,by omega,by omega⟩
  case readStep atCur _ => exact ⟨_,atCur,by omega,by omega⟩
  case readNext atCur => exact ⟨_,atCur,by omega,by omega⟩
  case storePrev atPrev _ _ _ => exact ⟨_,atPrev,by omega,by omega⟩
  case loadRight atNext _ _ => exact ⟨_,atNext,by omega,by omega⟩
  case storeLeft atCur _ _ _ => exact ⟨_,atCur,by omega,by omega⟩
  case storeRight atNext _ _ _ => exact ⟨_,atNext,by omega,by omega⟩

/-- The nodes of a call of `swap_nodes` are in the thread's exclusive window. -/
theorem swapping_held (ref : Refines v s value σ c) {t x : Nat} (member : x ∈ swapping (σ.pc t)) :
    ∃ p, c.items[p]? = some x ∧ (c.phase t).Holds p ∧ (c.phase t).mode v = .exclusive := by
  have three : ∀ {i k prev cur nxt kind}, c.items[k]? = some prev → c.items[k+1]? = some cur →
      c.items[k+2]? = some nxt → x ∈ [prev,cur,nxt] →
        ∃ p, c.items[p]? = some x ∧ (Phase.inside i k (k+3) (.swap kind k)).Holds p ∧
          (Phase.inside i k (k+3) (.swap kind k)).mode v = .exclusive := by
    intro i k prev cur nxt kind atPrev atCur atNext member
    simp only [List.mem_cons,List.not_mem_nil,or_false] at member
    rcases member with rfl | rfl | rfl
    · exact ⟨k,atPrev,⟨by omega,by omega⟩,rfl⟩
    · exact ⟨k+1,atCur,⟨by omega,by omega⟩,rfl⟩
    · exact ⟨k+2,atNext,⟨by omega,by omega⟩,rfl⟩
  have fit := ref.fits t
  generalize c.phase t = phase at fit ⊢
  generalize σ.pc t = pc at fit member
  cases fit <;> simp only [swapping,List.not_mem_nil] at member
  case storePrev atPrev atCur atNext _ => exact three atPrev atCur atNext member
  case loadRight atPrev atCur atNext _ _ => exact three atPrev atCur atNext member
  case storeLeft atPrev atCur atNext _ _ => exact three atPrev atCur atNext member
  case storeRight atPrev atCur atNext _ _ _ => exact three atPrev atCur atNext member

theorem successor_exists (ref : Refines v s value σ c) (t : Nat) : ¬ NoSuccessor (σ.pc t) := by
  have fit := ref.fits t
  generalize c.phase t = phase at fit
  generalize σ.pc t = pc at fit
  cases fit <;> exact id

theorem awaits_successor (ref : Refines v s value σ c) {t x y : Nat} (waiting : awaits s (σ.pc t) = some (x,y)) :
    σ.next x = some y := by
  have fit := ref.fits t
  have clean : dirty (σ.pc t) = [] := by
    generalize σ.pc t = pc at waiting
    unfold awaits at waiting
    split at waiting <;> first | rfl | cases waiting
  generalize here : c.phase t = phase at fit
  have read : ∀ {p}, c.items[p]? = some x → phase.Holds p → c.items[p+1]? = some y → σ.next x = some y := by
    intro p atX holds ahead
    rw [← ahead]
    exact next_of_holds ref atX (here ▸ holds) (by simp [clean])
  generalize σ.pc t = pc at fit waiting
  cases fit <;> simp only [awaits,Option.some.injEq,Prod.mk.injEq,reduceCtorEq] at waiting <;>
    obtain ⟨rfl,rfl⟩ := waiting
  case lockA ahead => exact read ref.first ⟨by omega,by omega⟩ ahead
  case lockB atA ahead => exact read atA ⟨by omega,by omega⟩ ahead
  case lockCur ahead => exact read ref.first ⟨by omega,by omega⟩ ahead
  case lockStep atCur ahead _ => exact read atCur ⟨by omega,by omega⟩ ahead
  case lockNext atCur ahead => exact read atCur ⟨by omega,by omega⟩ ahead

theorem expects_successor (ref : Refines v s value σ c) {t x : Nat} (reading : expects s (σ.pc t) = some x) :
    (σ.next x).isSome := by
  have fit := ref.fits t
  have clean : dirty (σ.pc t) = [] := by
    generalize σ.pc t = pc at reading
    unfold expects at reading
    split at reading <;> first | rfl | cases reading
  generalize here : c.phase t = phase at fit
  have read : ∀ {p}, c.items[p]? = some x → phase.Holds p → p+1 < c.items.length → (σ.next x).isSome := by
    intro p atX holds inside
    rw [next_of_holds ref atX (here ▸ holds) (by simp [clean])]
    simpa using inside
  have size := ref.size
  have two := ref.two
  generalize σ.pc t = pc at fit reading
  cases fit <;> simp only [expects,Option.some.injEq,reduceCtorEq] at reading <;> subst reading
  case readFirst => exact read ref.first ⟨by omega,by omega⟩ (by omega)
  case readCur => exact read ref.first ⟨by omega,by omega⟩ (by omega)
  case readStep atCur _ =>
    have limits := ref.geometry.reach here
    exact read atCur ⟨by omega,by omega⟩ (by omega)
  case readNext atCur =>
    have limits := ref.geometry.reach here
    exact read atCur ⟨by omega,by omega⟩ (by omega)

theorem intact_of_stands (stands : Stands v s value nodes σ c) : Intact s nodes σ where
  list := by
    intro settled
    have chain := chain_of_clean stands.refines fun t => clean_of_not_relinking (settled t)
    have first := stands.refines.first
    have rearranged := stands.rearranged
    have distinct := stands.refines.distinct
    cases items : c.items with
    | nil => rw [items] at first; cases first
    | cons x final =>
      rw [items] at first chain rearranged distinct
      cases first
      exact ⟨final,rearranged.cons_inv,distinct,chain⟩
  owned := by
    intro t u x different member access
    obtain ⟨p,here,mine,exclusive⟩ := swapping_held stands.refines member
    obtain ⟨q,there,theirs⟩ := accesses_held stands.refines access
    have same := position_unique stands.refines.distinct here there
    subst same
    exact apart_of_conflict stands.refines.geometry different mine theirs (.inl exclusive)
  current _ _ _ := awaits_successor stands.refines
  expected _ _ := expects_successor stands.refines
  successor := successor_exists stands.refines

/-- In every reachable state of each of the three programs the list is intact. -/
theorem list_intact {v : Variant} {n : Int} (two : 2 ≤ n) {succeeds : Nat → Bool} {rand : Nat → Nat} {s : Storage}
    {h : Heap} (built : storageInit n succeeds rand = (some s,h)) {acts : List Act} {σ : State}
    (ran : Transition.run (step v s h.value) (start h) acts = some σ) :
    ∃ nodes, Holds s h nodes ∧ (nodes.length : Int) = n ∧ Intact s nodes σ := by
  obtain ⟨size,nodes,holds⟩ := storageInit_holds built
  obtain ⟨c,stands⟩ := run_stands holds (by omega) ran
  exact ⟨nodes,holds,by rw [holds.size,size],intact_of_stands stands⟩

/-- In the middle of the swap, after its first write. -/
theorem list_intact_pair : ∃ nodes, Holds pairStorage pairHeap nodes ∧ (nodes.length : Int) = 2 ∧
    Intact pairStorage nodes (pairAfter .spinlock (pairSchedule.take 20)) :=
  list_intact (n := 2) (by decide) (rfl : storageInit 2 (fun _ => true) pairRand = _)
    (rfl : Transition.run _ _ (pairSchedule.take 20) = _)

/-! ### Progress -/

/-- The position of the lock that an operation requests next, if it does. -/
def front : Phase → Nat
  | .inside _ _ hi _ => hi
  | _ => 0

theorem requests_front (ref : Refines v s value σ c) {t x : Nat} {mode : Mode}
    (asks : requests v s (σ.pc t) = some (x,mode)) : c.items[front (c.phase t)]? = some x := by
  have fit := ref.fits t
  generalize c.phase t = phase at fit ⊢
  generalize σ.pc t = pc at fit asks
  cases fit <;> simp only [requests,Option.some.injEq,Prod.mk.injEq,reduceCtorEq] at asks <;>
    obtain ⟨rfl,-⟩ := asks
  case searchAsk => exact ref.first
  case lockA ahead => exact ahead
  case lockB ahead => exact ahead
  case swapAsk => exact ref.first
  case lockCur ahead => exact ahead
  case lockStep ahead _ => exact ahead
  case lockNext ahead => exact ahead

/-- Only a lock that is not granted can stop a thread inside an operation. -/
theorem step_enabled {t : Nat} (active : σ.pc t ≠ .idle)
    (granted : ∀ x mode, requests v s (σ.pc t) = some (x,mode) → grantable mode (σ.sync x) = true) :
    ∃ σ', step v s value σ (.step t) = some σ' := by
  have locks : ∀ {x mode} {f : State → State}, requests v s (σ.pc t) = some (x,mode) →
      ∃ σ', (σ.lock t x mode).map f = some σ' := by
    intro x mode f asks
    simp [State.lock,granted x mode asks]
  generalize at_pc : σ.pc t = here at active locks
  simp only [step,at_pc]
  cases here with
  | idle => exact absurd rfl active
  | search kind pc =>
    cases pc <;> simp only [searchPairs] <;> first | exact locks rfl | exact ⟨_,rfl⟩ | (split <;> exact ⟨_,rfl⟩)
  | swap kind k pc =>
    cases pc <;> simp only [swapPairs] <;> first | exact locks rfl | exact ⟨_,rfl⟩ | (split <;> exact ⟨_,rfl⟩)

/-- A request that is not granted is at a position in the window of another
    operation, which itself requests a later one. -/
theorem blocked_by_later (ref : Refines v s value σ c) {t x : Nat} {mode : Mode}
    (asks : requests v s (σ.pc t) = some (x,mode)) (refused : grantable mode (σ.sync x) ≠ true) :
    ∃ u, σ.pc u ≠ .idle ∧ front (c.phase t) < front (c.phase u) := by
  have occupied : ∃ holder, holder ∈ σ.sync x := by
    by_contra empty
    refine refused ((grantable_iff _ _).mpr fun holder member => ?_)
    exact absurd ⟨holder,member⟩ empty
  obtain ⟨⟨u,m⟩,member⟩ := occupied
  obtain ⟨p,atX,holds,_⟩ := ref.held member
  have same := position_unique ref.distinct (requests_front ref asks) atX
  refine ⟨u,?_,?_⟩
  · intro top
    have fit := ref.fits u
    rw [top] at fit
    generalize c.phase u = phase at fit holds
    cases fit
    exact holds
  · rw [same]
    generalize c.phase u = phase at holds ⊢
    cases phase with
    | idle => exact holds.elim
    | waiting op => exact holds.elim
    | inside i lo hi job => exact holds.2

/-- By induction on the distance of its request to the end of the list, behind
    every thread inside an operation there is one that can take its next step. -/
theorem progress (ref : Refines v s value σ c) {t : Nat} (active : σ.pc t ≠ .idle) :
    ∃ u σ', step v s value σ (.step u) = some σ' := by
  generalize distance : c.items.length - front (c.phase t) = d
  induction d using Nat.strongRecOn generalizing t with
  | _ d ih =>
    by_cases granted : ∀ x mode, requests v s (σ.pc t) = some (x,mode) → grantable mode (σ.sync x) = true
    · exact ⟨t,step_enabled active granted⟩
    · push Not at granted
      obtain ⟨x,mode,asks,refused⟩ := granted
      obtain ⟨u,activeU,later⟩ := blocked_by_later ref asks refused
      have inside := (List.getElem?_eq_some_iff.mp (requests_front ref asks)).1
      exact ih _ (by omega) activeU rfl

/-- In every reachable state of each of the three programs some thread can take
    its next step, unless all are outside of their operations, and a thread
    outside an operation holds no lock. -/
theorem no_deadlock_no_leak {v : Variant} {n : Int} (two : 2 ≤ n) {succeeds : Nat → Bool} {rand : Nat → Nat}
    {s : Storage} {h : Heap} (built : storageInit n succeeds rand = (some s,h)) {acts : List Act} {σ : State}
    (ran : Transition.run (step v s h.value) (start h) acts = some σ) :
    (∀ t, σ.pc t ≠ .idle → ∃ u σ', step v s h.value σ (.step u) = some σ') ∧
      ∀ t, σ.pc t = .idle → ∀ x mode, (t,mode) ∉ σ.sync x := by
  obtain ⟨size,nodes,holds⟩ := storageInit_holds built
  obtain ⟨c,stands⟩ := run_stands holds (by omega) ran
  refine ⟨fun t active => progress stands.refines active,fun t top x mode member => ?_⟩
  have kept := stands.locks t x mode member
  rw [top] at kept
  exact List.not_mem_nil kept

/-- While the swap waits for the node that the search has locked, the search can
    go on. -/
theorem no_deadlock_pair :
    (∀ t, (pairAfter .mutex (pairSchedule.take 8)).pc t ≠ .idle →
      ∃ u σ', step .mutex pairStorage pairHeap.value (pairAfter .mutex (pairSchedule.take 8)) (.step u) = some σ') ∧
      ∀ t, (pairAfter .mutex (pairSchedule.take 8)).pc t = .idle →
        ∀ x mode, (t,mode) ∉ (pairAfter .mutex (pairSchedule.take 8)).sync x :=
  no_deadlock_no_leak (n := 2) (by decide) (rfl : storageInit 2 (fun _ => true) pairRand = _)
    (rfl : Transition.run _ _ (pairSchedule.take 8) = _)

end Os5Sem.ListSafety

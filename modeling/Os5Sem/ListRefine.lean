import Os5Sem.ListConvoy
import Os5Sem.ListLocks

/-!
The list programs refine the convoy. `Fits` tells, for every program point, where
on the list the thread's operation is and which nodes its local variables point
to; `Refines` relates a state of the program to a convoy: the next fields form
the chain of the convoy's list, except at the nodes that a swap is relinking, and
every lock is held by threads whose window contains the node. Every step of a
thread is a move of the convoy or none (`refines_step`).
-/
namespace Os5Sem.ListRefine
open Os5Sem.Adjacent Os5Sem.ListStorage Os5Sem.ListProgram Os5Sem.ListLocks Os5Sem.ListConvoy

/-- The nodes whose next fields a thread has relinked in a swap that it has not
    finished. -/
def dirty : Pc → List Nat
  | .swap _ _ (.swapNodes prev _ _ .loadRight) => [prev]
  | .swap _ _ (.swapNodes prev _ _ (.storeLeft _)) => [prev]
  | .swap _ _ (.swapNodes prev cur _ .storeRight) => [prev,cur]
  | _ => []

/-- A program point of a thread fits its phase: the local variables are the nodes
    at the positions of the window and just before it. -/
inductive Fits (v : Variant) (value : Nat → List Char) (items : List Nat) (next : Nat → Option Nat) :
    Pc → Phase → Prop
  | idle : Fits v value items next .idle .idle
  | searchAsk {kind} : Fits v value items next (.search kind .lockFirst) (.waiting (.search kind))
  | readFirst {kind i} : Fits v value items next (.search kind .readFirst) (.inside i 0 1 (.search kind 0))
  | lockA {kind i a} (ahead : items[1]? = some a) :
      Fits v value items next (.search kind (.lockA a)) (.inside i 0 1 (.search kind 0))
  | unlockFirst {kind i a} (here : items[1]? = some a) :
      Fits v value items next (.search kind (.unlockFirst a)) (.inside i 0 2 (.search kind 0))
  | readB {kind i p a n} (positive : 1 ≤ p) (here : items[p]? = some a) :
      Fits v value items next (.search kind (.readB a n)) (.inside i p (p+1) (.search kind n))
  | unlockLast {kind i p a n} (positive : 1 ≤ p) (here : items[p]? = some a) (last : items.length = p+1) :
      Fits v value items next (.search kind (.unlockLast a n)) (.inside i p (p+1) (.search kind n))
  | lockB {kind i p a b n} (positive : 1 ≤ p) (here : items[p]? = some a) (ahead : items[p+1]? = some b) :
      Fits v value items next (.search kind (.lockB a b n)) (.inside i p (p+1) (.search kind n))
  | unlockA {kind i p a b n} (positive : 1 ≤ p) (here : items[p]? = some a) (ahead : items[p+1]? = some b) :
      Fits v value items next (.search kind (.unlockA a b n)) (.inside i p (p+2) (.search kind n))
  | addPairs {kind i p n} (beyond : items.length = p) :
      Fits v value items next (.search kind (.addPairs n)) (.inside i p p (.done v.searchMode (.pairs n)))
  | addIteration {kind i p n} (beyond : items.length = p) :
      Fits v value items next (.search kind (.addIteration n)) (.inside i p p (.done v.searchMode (.pairs n)))
  | swapAsk {kind k} : Fits v value items next (.swap kind k .lockPrev) (.waiting (.swap kind k))
  | readCur {kind k i} : Fits v value items next (.swap kind k .readCur) (.inside i 0 1 (.swap kind k))
  | lockCur {kind k i cur} (ahead : items[1]? = some cur) :
      Fits v value items next (.swap kind k (.lockCur cur)) (.inside i 0 1 (.swap kind k))
  | readStep {kind k i j prev cur} (atPrev : items[j]? = some prev) (atCur : items[j+1]? = some cur) (before : j < k) :
      Fits v value items next (.swap kind k (.readStep prev cur j)) (.inside i j (j+2) (.swap kind k))
  | lockStep {kind k i j prev cur nxt} (atPrev : items[j]? = some prev) (atCur : items[j+1]? = some cur)
      (ahead : items[j+2]? = some nxt) (before : j < k) :
      Fits v value items next (.swap kind k (.lockStep prev cur nxt j)) (.inside i j (j+2) (.swap kind k))
  | unlockStep {kind k i j prev cur nxt} (atPrev : items[j]? = some prev) (atCur : items[j+1]? = some cur)
      (atNext : items[j+2]? = some nxt) (before : j < k) :
      Fits v value items next (.swap kind k (.unlockStep prev cur nxt j)) (.inside i j (j+3) (.swap kind k))
  | readNext {kind k i prev cur} (atPrev : items[k]? = some prev) (atCur : items[k+1]? = some cur) :
      Fits v value items next (.swap kind k (.readNext prev cur)) (.inside i k (k+2) (.swap kind k))
  | lockNext {kind k i prev cur nxt} (atPrev : items[k]? = some prev) (atCur : items[k+1]? = some cur)
      (ahead : items[k+2]? = some nxt) :
      Fits v value items next (.swap kind k (.lockNext prev cur nxt)) (.inside i k (k+2) (.swap kind k))
  | compare {kind k i prev cur nxt} (atPrev : items[k]? = some prev) (atCur : items[k+1]? = some cur)
      (atNext : items[k+2]? = some nxt) :
      Fits v value items next (.swap kind k (.compare prev cur nxt)) (.inside i k (k+3) (.swap kind k))
  | storePrev {kind k i prev cur nxt} (atPrev : items[k]? = some prev) (atCur : items[k+1]? = some cur)
      (atNext : items[k+2]? = some nxt) (accepted : swapTest value kind cur nxt = true) :
      Fits v value items next (.swap kind k (.swapNodes prev cur nxt .storePrev)) (.inside i k (k+3) (.swap kind k))
  | loadRight {kind k i prev cur nxt} (atPrev : items[k]? = some prev) (atCur : items[k+1]? = some cur)
      (atNext : items[k+2]? = some nxt) (accepted : swapTest value kind cur nxt = true)
      (linked : next prev = some nxt) :
      Fits v value items next (.swap kind k (.swapNodes prev cur nxt .loadRight)) (.inside i k (k+3) (.swap kind k))
  | storeLeft {kind k i prev cur nxt} (atPrev : items[k]? = some prev) (atCur : items[k+1]? = some cur)
      (atNext : items[k+2]? = some nxt) (accepted : swapTest value kind cur nxt = true)
      (linked : next prev = some nxt) :
      Fits v value items next (.swap kind k (.swapNodes prev cur nxt (.storeLeft items[k+3]?)))
        (.inside i k (k+3) (.swap kind k))
  | storeRight {kind k i prev cur nxt} (atPrev : items[k]? = some prev) (atCur : items[k+1]? = some cur)
      (atNext : items[k+2]? = some nxt) (accepted : swapTest value kind cur nxt = true)
      (linked : next prev = some nxt) (relinked : next cur = items[k+3]?) :
      Fits v value items next (.swap kind k (.swapNodes prev cur nxt .storeRight)) (.inside i k (k+3) (.swap kind k))
  | addSwap {kind k i prev cur nxt} (atPrev : items[k]? = some prev) (notCur : cur ≠ prev) (notNext : nxt ≠ prev) :
      Fits v value items next (.swap kind k (.addSwap prev cur nxt))
        (.inside i k (k+3) (.done .exclusive (.swapped true)))
  | unlockNext {kind k i prev cur nxt decision} (atPrev : items[k]? = some prev) (notCur : cur ≠ prev)
      (notNext : nxt ≠ prev) :
      Fits v value items next (.swap kind k (.unlockNext prev cur nxt decision))
        (.inside i k (k+3) (.done .exclusive (.swapped decision)))
  | unlockCur {kind k i prev cur decision} (atPrev : items[k]? = some prev) (notCur : cur ≠ prev) :
      Fits v value items next (.swap kind k (.unlockCur prev cur decision))
        (.inside i k (k+3) (.done .exclusive (.swapped decision)))
  | unlockPrev {kind k i prev decision} (atPrev : items[k]? = some prev) :
      Fits v value items next (.swap kind k (.unlockPrev prev decision))
        (.inside i k (k+3) (.done .exclusive (.swapped decision)))

/-- The positions whose locks the thread surely holds: its whole window, or once
    its operation is done only the rear of it. -/
def Secures : Phase → Nat → Prop
  | .inside _ lo hi (.done _ _), p => p = lo ∧ lo < hi
  | .inside _ lo hi _, p => lo ≤ p ∧ p < hi
  | _, _ => False

/-- A state of a list program stands for a convoy. -/
structure Refines (v : Variant) (s : Storage) (value : Nat → List Char) (σ : State) (c : Convoy) : Prop where
  geometry : Geometry v c
  distinct : c.items.Nodup
  first : c.items[0]? = some s.first
  size : c.items.length = s.size + 1
  two : 2 ≤ s.size
  order : c.order = σ.order
  outcome : c.outcome = σ.outcome
  ticket : ∀ {t i lo hi job}, c.phase t = .inside i lo hi job → σ.ticket t = i
  fits : ∀ t, Fits v value c.items σ.next (σ.pc t) (c.phase t)
  links : ∀ p x, c.items[p]? = some x → (∀ t, x ∉ dirty (σ.pc t)) → σ.next x = c.items[p+1]?
  held : ∀ {x t m}, (t,m) ∈ σ.sync x → ∃ p, c.items[p]? = some x ∧ (c.phase t).Holds p ∧ m = (c.phase t).mode v
  secured : ∀ {t p}, Secures (c.phase t) p → ∃ x, c.items[p]? = some x ∧ (t,(c.phase t).mode v) ∈ σ.sync x

variable {v : Variant} {s : Storage} {value : Nat → List Char} {σ : State} {c : Convoy}

/-- What a thread, or nobody, does to the convoy in a step: it makes some moves, in
    which the others stay where they are, and the list changes only when it swaps. -/
structure Advances (v : Variant) (value : Nat → List Char) (who : Option Nat) (c c' : Convoy) : Prop where
  moved : Relation.ReflTransGen (Move v value) c c'
  others : ∀ u, who ≠ some u → c'.phase u = c.phase u
  items : c'.items = c.items ∨
    ∃ t i lo hi, who = some t ∧ c'.phase t = .inside i lo hi (.done .exclusive (.swapped true))

theorem advances_refl (who : Option Nat) : Advances v value who c c := ⟨.refl,fun _ _ => rfl,.inl rfl⟩

theorem advances_of_move {c' : Convoy} {t : Nat} {phase : Phase} (move : Move v value c c')
    (phases : c'.phase = Function.update c.phase t phase) (items : c'.items = c.items) :
    Advances v value (some t) c c' := by
  refine ⟨.single move,fun u other => ?_,.inl items⟩
  rw [phases,Function.update_of_ne fun same => other (congrArg some same.symm)]

theorem position_unique {items : List Nat} (distinct : items.Nodup) {p q x : Nat} (one : items[p]? = some x)
    (other : items[q]? = some x) : p = q := by
  have inside := (List.getElem?_eq_some_iff.mp one).1
  exact (List.getElem?_inj inside distinct).mp (one.trans other.symm)

/-- Nodes at two positions are two nodes. -/
theorem node_ne {items : List Nat} (distinct : items.Nodup) {p q x y : Nat} (one : items[p]? = some x)
    (other : items[q]? = some y) (apart : p ≠ q) : x ≠ y := by
  rintro rfl
  exact apart (position_unique distinct one other)

/-! ### Exclusive windows -/

/-- Windows of conflicting operations have no common position. -/
theorem apart_of_conflict (geo : Geometry v c) {t u p : Nat} (different : u ≠ t) (mine : (c.phase t).Holds p)
    (theirs : (c.phase u).Holds p) : ¬ Conflict ((c.phase t).mode v) ((c.phase u).mode v) := by
  intro conflict
  cases here : c.phase t with
  | idle => rw [here] at mine; exact mine
  | waiting op => rw [here] at mine; exact mine
  | inside i lo hi job =>
    cases there : c.phase u with
    | idle => rw [there] at theirs; exact theirs
    | waiting op => rw [there] at theirs; exact theirs
    | inside j lo' hi' job' =>
      rw [here] at mine
      rw [there] at theirs
      rw [here,there] at conflict
      have mine' : lo ≤ p ∧ p < hi := mine
      have theirs' : lo' ≤ p ∧ p < hi' := theirs
      rcases Nat.lt_trichotomy i j with before | same | after
      · have := geo.apart here there before conflict
        omega
      · subst same
        exact different (geo.same_thread there here)
      · have := geo.apart there here after conflict.symm
        omega

/-- The nodes that a thread has relinked are in its window, which is exclusive. -/
theorem dirty_held (ref : Refines v s value σ c) {u x : Nat} (member : x ∈ dirty (σ.pc u)) :
    ∃ p, c.items[p]? = some x ∧ (c.phase u).Holds p ∧ (c.phase u).mode v = .exclusive := by
  have fit := ref.fits u
  generalize c.phase u = phase at fit ⊢
  generalize σ.pc u = pc at fit member
  cases fit
  case loadRight atPrev atCur atNext accepted linked =>
    have := List.mem_singleton.mp member
    subst this
    exact ⟨_,atPrev,⟨Nat.le_refl _,by omega⟩,rfl⟩
  case storeLeft atPrev atCur atNext accepted linked =>
    have := List.mem_singleton.mp member
    subst this
    exact ⟨_,atPrev,⟨Nat.le_refl _,by omega⟩,rfl⟩
  case storeRight atPrev atCur atNext accepted linked relinked =>
    rcases List.mem_cons.mp member with isPrev | isCur
    · subst isPrev
      exact ⟨_,atPrev,⟨Nat.le_refl _,by omega⟩,rfl⟩
    · have := List.mem_singleton.mp isCur
      subst this
      exact ⟨_,atCur,⟨by omega,by omega⟩,rfl⟩
  all_goals exact absurd member (by simp [dirty])

/-- A node in a thread's window is being relinked by no other thread. -/
theorem clean_of_holds (ref : Refines v s value σ c) {t u p x : Nat} (here : c.items[p]? = some x)
    (mine : (c.phase t).Holds p) (different : u ≠ t) : x ∉ dirty (σ.pc u) := by
  intro member
  obtain ⟨q,there,theirs,exclusive⟩ := dirty_held ref member
  have same := position_unique ref.distinct here there
  subst same
  exact apart_of_conflict ref.geometry different mine theirs (.inr exclusive)

/-- What a thread reads from a node in its window that it is not relinking itself. -/
theorem next_of_holds (ref : Refines v s value σ c) {t p x : Nat} (here : c.items[p]? = some x)
    (mine : (c.phase t).Holds p) (own : x ∉ dirty (σ.pc t)) : σ.next x = c.items[p+1]? := by
  refine ref.links p x here fun u => ?_
  by_cases same : u = t
  · subst same; exact own
  · exact clean_of_holds ref here mine same

/-! ### Granted locks -/

theorem grantable_iff (mode : Mode) (holders : List (Nat × Mode)) :
    grantable mode holders = true ↔ ∀ holder ∈ holders, ¬ Conflict mode holder.2 := by
  simp only [grantable,List.all_eq_true]
  refine forall₂_congr fun holder _ => ?_
  cases mode <;> cases holder.2 <;> simp [Conflict]

/-- A granted lock is at a position that no conflicting operation's window
    contains: such a window would begin there, and its rear is locked. -/
theorem free_of_grant (ref : Refines v s value σ c) {t i lo hi x : Nat} {job : Job}
    (here : c.phase t = .inside i lo hi job) (ahead : c.items[hi]? = some x)
    (granted : grantable (job.mode v) (σ.sync x) = true) : c.Free v (job.mode v) hi := by
  intro u holds conflict
  have different : u ≠ t := by
    intro same
    subst same
    rw [here] at holds
    exact absurd holds.2 (Nat.lt_irrefl _)
  cases there : c.phase u with
  | idle => rw [there] at holds; exact holds
  | waiting op => rw [there] at holds; exact holds
  | inside j lo' hi' job' =>
    rw [there] at holds conflict
    have holds' : lo' ≤ hi ∧ hi < hi' := holds
    have rear : lo' = hi := by
      rcases Nat.lt_trichotomy i j with before | same | after
      · have := ref.geometry.apart here there before conflict
        have := ref.geometry.window here
        omega
      · subst same
        exact absurd (ref.geometry.same_thread there here) different
      · have := ref.geometry.apart there here after conflict.symm
        omega
    have secures : Secures (c.phase u) hi := by
      rw [there]
      cases job' <;> simp only [Secures] <;> omega
    obtain ⟨y,atY,locked⟩ := ref.secured secures
    rw [ahead] at atY
    cases atY
    rw [there] at locked
    exact (grantable_iff _ _).mp granted _ locked conflict

theorem free_of_grant_first (ref : Refines v s value σ c) {mode : Mode}
    (granted : grantable mode (σ.sync s.first) = true) : c.Free v mode 0 := by
  intro u holds conflict
  cases there : c.phase u with
  | idle => rw [there] at holds; exact holds
  | waiting op => rw [there] at holds; exact holds
  | inside j lo' hi' job' =>
    rw [there] at holds conflict
    have holds' : lo' ≤ 0 ∧ 0 < hi' := holds
    have secures : Secures (c.phase u) 0 := by
      rw [there]
      cases job' <;> simp only [Secures] <;> omega
    obtain ⟨y,atY,locked⟩ := ref.secured secures
    rw [ref.first] at atY
    cases atY
    rw [there] at locked
    exact (grantable_iff _ _).mp granted _ locked conflict

/-! ### How the relation is kept -/

/-- One thread changes its program point, its phase and its own entries in the
    locks. -/
theorem Refines.update (ref : Refines v s value σ c) {σ' : State} {t : Nat} {pc : Pc} {phase : Phase}
    (pcs : σ'.pc = Function.update σ.pc t pc) (next : σ'.next = σ.next) (order : σ'.order = σ.order)
    (outcome : σ'.outcome = σ.outcome) (ticket : σ'.ticket = σ.ticket)
    (others : ∀ u x m, u ≠ t → ((u,m) ∈ σ'.sync x ↔ (u,m) ∈ σ.sync x))
    (geo : Geometry v (c.setPhase t phase)) (fit : Fits v value c.items σ.next pc phase)
    (unfinished : ∀ x ∈ dirty (σ.pc t), x ∈ dirty pc)
    (own : ∀ i lo hi job, phase = .inside i lo hi job → σ.ticket t = i)
    (held : ∀ x m, (t,m) ∈ σ'.sync x → ∃ p, c.items[p]? = some x ∧ phase.Holds p ∧ m = phase.mode v)
    (secured : ∀ p, Secures phase p → ∃ x, c.items[p]? = some x ∧ (t,phase.mode v) ∈ σ'.sync x) :
    Refines v s value σ' (c.setPhase t phase) where
  geometry := geo
  distinct := ref.distinct
  first := ref.first
  size := ref.size
  two := ref.two
  order := ref.order.trans order.symm
  outcome := ref.outcome.trans outcome.symm
  ticket := by
    intro u i lo hi job here
    rw [ticket]
    by_cases same : u = t
    · subst same
      rw [setPhase_self] at here
      exact own i lo hi job here
    · rw [setPhase_other _ _ same] at here
      exact ref.ticket here
  fits := by
    intro u
    rw [next,pcs]
    by_cases same : u = t
    · subst same
      rw [setPhase_self,Function.update_self]
      exact fit
    · rw [setPhase_other _ _ same,Function.update_of_ne same]
      exact ref.fits u
  links := by
    intro p x here clean
    rw [next]
    refine ref.links p x here fun u => ?_
    have cleanU := clean u
    rw [pcs] at cleanU
    by_cases same : u = t
    · subst same
      rw [Function.update_self] at cleanU
      intro member
      exact cleanU (unfinished x member)
    · rwa [Function.update_of_ne same] at cleanU
  held := by
    intro x u m member
    by_cases same : u = t
    · subst same
      rw [setPhase_self]
      exact held x m member
    · rw [setPhase_other _ _ same]
      exact ref.held ((others u x m same).mp member)
  secured := by
    intro u p secures
    by_cases same : u = t
    · subst same
      rw [setPhase_self] at secures ⊢
      exact secured p secures
    · rw [setPhase_other _ _ same] at secures ⊢
      obtain ⟨x,here,member⟩ := ref.secured secures
      exact ⟨x,here,(others u x _ same).mpr member⟩

/-- The relation does not read the counters and the running flag. -/
theorem Refines.counters (ref : Refines v s value σ c) {iterations : Searcher → Nat} {pairs : Searcher → Nat}
    {swaps : Swapper → Nat} {isRunning : Bool} :
    Refines v s value
      { σ with iterations := iterations, pairs := pairs, swaps := swaps, isRunning := isRunning } c :=
  ⟨ref.geometry,ref.distinct,ref.first,ref.size,ref.two,ref.order,ref.outcome,ref.ticket,ref.fits,ref.links,ref.held,
    ref.secured⟩

theorem setPhase_same {t : Nat} {phase : Phase} (same : c.phase t = phase) : c.setPhase t phase = c := by
  subst same
  simp [Convoy.setPhase]

/-- A thread goes on to another program point with the same window. -/
theorem Refines.stay (ref : Refines v s value σ c) {t : Nat} {pc : Pc} {phase : Phase} (here : c.phase t = phase)
    (fit : Fits v value c.items σ.next pc phase) (unfinished : ∀ x ∈ dirty (σ.pc t), x ∈ dirty pc) :
    Refines v s value (σ.goto t pc) c := by
  have same := setPhase_same here
  have moved : Refines v s value (σ.goto t pc) (c.setPhase t phase) := by
    refine ref.update rfl rfl rfl rfl rfl (fun _ _ _ _ => .rfl)
      (by rw [same]; exact ref.geometry) fit unfinished ?_ ?_ ?_
    · intro i lo hi job inside
      exact ref.ticket (here.trans inside)
    · intro x m member
      rw [← here]
      exact ref.held member
    · intro p secures
      rw [← here] at secures ⊢
      exact ref.secured secures
  rwa [same] at moved

/-- A thread that waits for the node at the front of its window is granted its
    lock. -/
theorem Refines.grant (ref : Refines v s value σ c) {σ' : State} {t i lo hi x : Nat} {job : Job} {pc : Pc}
    (here : c.phase t = .inside i lo hi job) (ahead : c.items[hi]? = some x)
    (reaches : job.Reaches lo hi) (granted : σ.lock t x (job.mode v) = some σ')
    (fit : Fits v value c.items σ.next pc (.inside i lo (hi+1) job)) (unfinished : ∀ y ∈ dirty (σ.pc t), y ∈ dirty pc) :
    ∃ c', Advances v value (some t) c c' ∧ Refines v s value (σ'.goto t pc) c' := by
  unfold State.lock at granted
  split at granted
  · rename_i compatible
    cases granted
    have more : hi < c.items.length := (List.getElem?_eq_some_iff.mp ahead).1
    have free := free_of_grant ref here ahead compatible
    have move : Move v value c (c.setPhase t (.inside i lo (hi+1) job)) := .extend here more reaches free
    have active : ∀ p, Secures (.inside i lo (hi+1) job) p → p = hi ∨ Secures (.inside i lo hi job) p := by
      intro p secures
      cases job with
      | done mode outcome => exact reaches.elim
      | search kind n => simp only [Secures] at secures ⊢; omega
      | swap kind k => simp only [Secures] at secures ⊢; omega
    refine ⟨_,advances_of_move move rfl rfl,ref.update rfl rfl rfl rfl rfl ?_ (geometry_move ref.geometry move) fit unfinished ?_ ?_ ?_⟩
    · intro u y m other
      by_cases same : y = x
      · subst same
        simp [State.goto,other]
      · simp [State.goto,same]
    · intro i' lo' hi' job' same
      cases same
      exact ref.ticket here
    · intro y m member
      by_cases same : y = x
      · subst same
        simp only [State.goto,Function.update_self,List.mem_cons] at member
        rcases member with new | old
        · cases new
          have bounds := ref.geometry.window here
          exact ⟨hi,ahead,⟨bounds.1,Nat.lt_succ_self _⟩,rfl⟩
        · obtain ⟨p,atP,holds,mode⟩ := ref.held old
          rw [here] at holds mode
          exact ⟨p,atP,⟨holds.1,Nat.lt_succ_of_lt holds.2⟩,mode⟩
      · simp only [State.goto,Function.update_of_ne same] at member
        obtain ⟨p,atP,holds,mode⟩ := ref.held member
        rw [here] at holds mode
        exact ⟨p,atP,⟨holds.1,Nat.lt_succ_of_lt holds.2⟩,mode⟩
    · intro p secures
      rcases active p secures with isFront | before
      · subst isFront
        exact ⟨x,ahead,by simp [State.goto,Phase.mode]⟩
      · rw [← here] at before
        obtain ⟨y,atY,member⟩ := ref.secured before
        rw [here] at member
        refine ⟨y,atY,?_⟩
        by_cases same : y = x
        · subst same; simp [State.goto,Phase.mode]
        · simpa [State.goto,same,Phase.mode] using member
  · cases granted

/-- A thread releases the lock of a node that is outside its new window. -/
theorem Refines.release (ref : Refines v s value σ c) {t i lo hi lo' hi' x : Nat} {job job' : Job} {pc : Pc}
    (here : c.phase t = .inside i lo hi job) (geo : Geometry v (c.setPhase t (.inside i lo' hi' job')))
    (mode : job'.mode v = job.mode v) (fit : Fits v value c.items σ.next pc (.inside i lo' hi' job'))
    (unfinished : ∀ y ∈ dirty (σ.pc t), y ∈ dirty pc)
    (keeps : ∀ p y, lo ≤ p → p < hi → c.items[p]? = some y → y ≠ x → lo' ≤ p ∧ p < hi')
    (secured : ∀ p, Secures (.inside i lo' hi' job') p → Secures (.inside i lo hi job) p ∧ c.items[p]? ≠ some x) :
    Refines v s value ((σ.unlock t x).goto t pc) (c.setPhase t (.inside i lo' hi' job')) := by
  refine ref.update rfl rfl rfl rfl rfl ?_ geo fit unfinished ?_ ?_ ?_
  · intro u y m other
    by_cases same : y = x
    · subst same
      simp [State.goto,State.unlock,other]
    · simp [State.goto,State.unlock,same]
  · intro i' l h jb same
    cases same
    exact ref.ticket here
  · intro y m member
    have different : y ≠ x := by
      intro same
      subst same
      simp [State.goto,State.unlock] at member
    simp only [State.goto,State.unlock,Function.update_of_ne different] at member
    obtain ⟨p,atP,holds,isMode⟩ := ref.held member
    rw [here] at holds isMode
    exact ⟨p,atP,keeps p y holds.1 holds.2 atP different,isMode.trans mode.symm⟩
  · intro p secures
    obtain ⟨before,other⟩ := secured p secures
    rw [← here] at before
    obtain ⟨y,atY,member⟩ := ref.secured before
    have different : y ≠ x := fun same => other (same ▸ atY)
    rw [here] at member
    refine ⟨y,atY,?_⟩
    simp only [State.goto,State.unlock,Function.update_of_ne different,Phase.mode,mode]
    exact member

/-- A thread releases the node at the rear of its window. -/
theorem Refines.releaseRear (ref : Refines v s value σ c) {t i p hi x : Nat} {job job' : Job} {pc : Pc}
    (here : c.phase t = .inside i p hi job) (working : ∀ mode outcome, job ≠ .done mode outcome)
    (atX : c.items[p]? = some x) (move : Move v value c (c.setPhase t (.inside i (p+1) hi job')))
    (mode : job'.mode v = job.mode v) (fit : Fits v value c.items σ.next pc (.inside i (p+1) hi job'))
    (unfinished : ∀ y ∈ dirty (σ.pc t), y ∈ dirty pc) :
    Refines v s value ((σ.unlock t x).goto t pc) (c.setPhase t (.inside i (p+1) hi job')) := by
  refine ref.release here (geometry_move ref.geometry move) mode fit unfinished ?_ ?_
  · intro q y low high atY other
    have : q ≠ p := by
      rintro rfl
      exact other (Option.some.inj (atY.symm.trans atX))
    omega
  · intro q secures
    have inside : p + 1 ≤ q ∧ q < hi := by
      cases job' with
      | done mode outcome => exact ⟨Nat.le_of_eq secures.1.symm,secures.1 ▸ secures.2⟩
      | search kind n => exact secures
      | swap kind k => exact secures
    refine ⟨?_,fun atQ => ?_⟩
    · cases job with
      | done m outcome => exact absurd rfl (working m outcome)
      | search kind n => exact ⟨by omega,inside.2⟩
      | swap kind k => exact ⟨by omega,inside.2⟩
    · have := position_unique ref.distinct atX atQ
      omega

/-- The operation of a thread is done, and its window is still locked. -/
theorem Refines.settle (ref : Refines v s value σ c) {t i lo hi : Nat} {job : Job} {mode : Mode} {outcome : Outcome}
    {pc : Pc} (here : c.phase t = .inside i lo hi job) (working : ∀ m outcome, job ≠ .done m outcome)
    (move : Move v value c (c.setPhase t (.inside i lo hi (.done mode outcome)))) (same_mode : mode = job.mode v)
    (fit : Fits v value c.items σ.next pc (.inside i lo hi (.done mode outcome)))
    (unfinished : ∀ y ∈ dirty (σ.pc t), y ∈ dirty pc) :
    Refines v s value (σ.goto t pc) (c.setPhase t (.inside i lo hi (.done mode outcome))) := by
  subst same_mode
  refine ref.update rfl rfl rfl rfl rfl (fun _ _ _ _ => .rfl) (geometry_move ref.geometry move) fit unfinished ?_ ?_ ?_
  · intro i' l h jb same
    cases same
    exact ref.ticket here
  · intro x m member
    obtain ⟨p,atX,holds,isMode⟩ := ref.held member
    rw [here] at holds isMode
    exact ⟨p,atX,holds,isMode⟩
  · rintro p ⟨rfl,more⟩
    have before : Secures (c.phase t) p := by
      rw [here]
      cases job with
      | done m outcome => exact absurd rfl (working m outcome)
      | search kind n => exact ⟨Nat.le_refl _,more⟩
      | swap kind k => exact ⟨Nat.le_refl _,more⟩
    obtain ⟨x,atX,member⟩ := ref.secured before
    rw [here] at member
    exact ⟨x,atX,member⟩

/-- A thread that has locked the first node reads the second one from it. -/
theorem Refines.second (ref : Refines v s value σ c) {t i : Nat} {job : Job} (here : c.phase t = .inside i 0 1 job)
    (clean : dirty (σ.pc t) = []) : ∃ a, c.items[1]? = some a ∧ σ.next s.first = some a := by
  have inside : 1 < c.items.length := by
    have := ref.two
    rw [ref.size]
    omega
  have read : σ.next s.first = c.items[1]? :=
    next_of_holds ref ref.first (by rw [here]; exact ⟨Nat.le_refl _,Nat.one_pos⟩) (by simp [clean])
  exact ⟨_,List.getElem?_eq_getElem inside,read.trans (List.getElem?_eq_getElem inside)⟩

/-- A thread locks the first node and enters the list. -/
theorem Refines.enter (ref : Refines v s value σ c) {σ' : State} {t : Nat} {op : Op} {pc : Pc}
    (asked : c.phase t = .waiting op) (granted : σ.lock t s.first ((Job.ofOp op).mode v) = some σ')
    (fit : Fits v value c.items σ.next pc (.inside c.order.length 0 1 (.ofOp op)))
    (clean : dirty (σ.pc t) = []) :
    ∃ c', Advances v value (some t) c c' ∧ Refines v s value ((σ'.enter t op).goto t pc) c' := by
  unfold State.lock at granted
  split at granted
  · rename_i compatible
    cases granted
    have move : Move v value c
        { c.setPhase t (.inside c.order.length 0 1 (.ofOp op)) with order := c.order ++ [(t,op)] } :=
      .enter asked (free_of_grant_first ref compatible)
    refine ⟨_,advances_of_move move rfl rfl,?_⟩
    have lockable : ∀ p, Secures (.inside c.order.length 0 1 (.ofOp op)) p → p = 0 := by
      intro p secures
      cases op <;> simp only [Job.ofOp,Secures] at secures <;> omega
    -- The thread held nothing before.
    have nothing : ∀ x m, (t,m) ∉ σ.sync x := by
      intro x m member
      obtain ⟨p,_,holds,_⟩ := ref.held member
      rw [asked] at holds
      exact holds
    constructor
    case geometry => exact geometry_move ref.geometry move
    case distinct => exact ref.distinct
    case first => exact ref.first
    case size => exact ref.size
    case two => exact ref.two
    case order => simp [State.goto,State.enter,ref.order]
    case outcome => exact ref.outcome
    case ticket =>
      intro u i lo hi job there
      by_cases same : u = t
      · subst same
        simp only [setPhase_self] at there
        cases there
        simp [State.goto,State.enter,ref.order]
      · simp only [setPhase_other _ _ same] at there
        simpa [State.goto,State.enter,same] using ref.ticket there
    case fits =>
      intro u
      by_cases same : u = t
      · subst same
        simpa [State.goto,State.enter,setPhase_self] using fit
      · simpa [State.goto,State.enter,setPhase_other _ _ same,same] using ref.fits u
    case links =>
      intro p x here cleanAll
      refine ref.links p x here fun u => ?_
      have cleanU := cleanAll u
      by_cases same : u = t
      · subst same; simp [clean]
      · simpa [State.goto,State.enter,same] using cleanU
    case held =>
      intro x u m member
      by_cases same : u = t
      · subst same
        simp only [setPhase_self]
        by_cases isFirst : x = s.first
        · subst isFirst
          simp only [State.goto,State.enter,Function.update_self,List.mem_cons] at member
          rcases member with new | old
          · cases new
            exact ⟨0,ref.first,⟨Nat.le_refl _,Nat.zero_lt_one⟩,rfl⟩
          · exact absurd old (nothing _ _)
        · simp only [State.goto,State.enter,Function.update_of_ne isFirst] at member
          exact absurd member (nothing _ _)
      · simp only [setPhase_other _ _ same]
        apply ref.held (x := x)
        by_cases isFirst : x = s.first
        · subst isFirst
          simpa [State.goto,State.enter,same] using member
        · simpa [State.goto,State.enter,isFirst] using member
    case secured =>
      intro u p secures
      by_cases same : u = t
      · subst same
        simp only [setPhase_self] at secures ⊢
        have := lockable p secures
        subst this
        exact ⟨s.first,ref.first,by simp [State.goto,State.enter,Phase.mode]⟩
      · simp only [setPhase_other _ _ same] at secures ⊢
        obtain ⟨x,here,member⟩ := ref.secured secures
        refine ⟨x,here,?_⟩
        by_cases isFirst : x = s.first
        · subst isFirst; simpa [State.goto,State.enter] using .inr member
        · simpa [State.goto,State.enter,isFirst] using member
  · cases granted

/-- A thread whose operation is done leaves the list without any lock. -/
theorem Refines.finish (ref : Refines v s value σ c) {σ1 : State} {t i lo hi : Nat} {mode : Mode} {outcome : Outcome}
    (here : c.phase t = .inside i lo hi (.done mode outcome)) (clean : dirty (σ.pc t) = [])
    (pcs : σ1.pc = σ.pc) (next : σ1.next = σ.next) (order : σ1.order = σ.order) (outcomes : σ1.outcome = σ.outcome)
    (ticket : σ1.ticket = σ.ticket) (others : ∀ u x m, u ≠ t → ((u,m) ∈ σ1.sync x ↔ (u,m) ∈ σ.sync x))
    (free : ∀ x m, (t,m) ∉ σ1.sync x) :
    ∃ c', Advances v value (some t) c c' ∧ Refines v s value (σ1.leave t outcome) c' := by
  have move : Move v value c { c.setPhase t .idle with outcome := Function.update c.outcome i (some outcome) } :=
    .finish here
  refine ⟨_,advances_of_move move rfl rfl,?_⟩
  have left : Refines v s value (σ1.goto t .idle) (c.setPhase t .idle) := by
    have geo := geometry_move ref.geometry move
    refine ref.update (by rw [← pcs]; rfl) next order outcomes ticket others
      ⟨geo.nonempty,geo.ticket,geo.window,geo.reach,geo.fits,geo.apart⟩ .idle (by simp [clean])
      (fun _ _ _ _ same => by cases same) ?_ (fun _ secures => secures.elim)
    intro x m member
    exact absurd member (free x m)
  refine ⟨geometry_move ref.geometry move,left.distinct,left.first,left.size,left.two,left.order,?_,left.ticket,
    left.fits,left.links,left.held,left.secured⟩
  simp only [State.leave,State.goto,ref.outcome,outcomes,ticket,ref.ticket here]

/-- `Fits` reads the next fields of the nodes being relinked only. -/
theorem Fits.of_next {items : List Nat} {next : Nat → Option Nat} {pc : Pc} {phase : Phase}
    (fit : Fits v value items next pc phase) (next' : Nat → Option Nat) (same : ∀ x ∈ dirty pc, next' x = next x) :
    Fits v value items next' pc phase := by
  cases fit
  case loadRight atPrev atCur atNext accepted linked =>
    exact .loadRight atPrev atCur atNext accepted ((same _ (by simp [dirty])).trans linked)
  case storeLeft atPrev atCur atNext accepted linked =>
    exact .storeLeft atPrev atCur atNext accepted ((same _ (by simp [dirty])).trans linked)
  case storeRight atPrev atCur atNext accepted linked relinked =>
    exact .storeRight atPrev atCur atNext accepted ((same _ (by simp [dirty])).trans linked)
      ((same _ (by simp [dirty])).trans relinked)
  all_goals constructor <;> assumption

/-- `Fits` reads the list in the thread's window and at the position before it. -/
theorem Fits.of_items {items items' : List Nat} {next : Nat → Option Nat} {pc : Pc} {phase : Phase}
    (fit : Fits v value items next pc phase) (size : items'.length = items.length)
    (same : ∀ i lo hi job p, phase = .inside i lo hi job → lo ≤ p → p ≤ hi → items'[p]? = items[p]?) :
    Fits v value items' next pc phase := by
  cases fit
  case storeLeft k i prev cur nxt atPrev atCur atNext accepted linked =>
    have ahead := same _ _ _ _ (k+3) rfl (by omega) (by omega)
    rw [← ahead]
    exact .storeLeft ((same _ _ _ _ _ rfl (by omega) (by omega)).trans atPrev)
      ((same _ _ _ _ _ rfl (by omega) (by omega)).trans atCur) ((same _ _ _ _ _ rfl (by omega) (by omega)).trans atNext)
      accepted linked
  case storeRight k i prev cur nxt atPrev atCur atNext accepted linked relinked =>
    have ahead := same _ _ _ _ (k+3) rfl (by omega) (by omega)
    exact .storeRight ((same _ _ _ _ _ rfl (by omega) (by omega)).trans atPrev)
      ((same _ _ _ _ _ rfl (by omega) (by omega)).trans atCur) ((same _ _ _ _ _ rfl (by omega) (by omega)).trans atNext)
      accepted linked (relinked.trans ahead.symm)
  all_goals
    constructor <;> first
      | assumption
      | omega
      | (refine (same _ _ _ _ _ rfl ?_ ?_).trans (by assumption) <;> omega)

/-- A swap relinks a node of its window. -/
theorem Refines.relink (ref : Refines v s value σ c) {t p x : Nat} {link : Option Nat} {pc : Pc}
    (here : c.items[p]? = some x) (holds : (c.phase t).Holds p)
    (fit : Fits v value c.items (Function.update σ.next x link) pc (c.phase t)) (marked : x ∈ dirty pc)
    (unfinished : ∀ y ∈ dirty (σ.pc t), y ∈ dirty pc) : Refines v s value ((σ.store x link).goto t pc) c := by
  refine ⟨ref.geometry,ref.distinct,ref.first,ref.size,ref.two,ref.order,ref.outcome,ref.ticket,?_,?_,
    ref.held,ref.secured⟩
  · intro u
    by_cases same : u = t
    · subst same
      simpa [State.goto,State.store] using fit
    · have kept := (ref.fits u).of_next (Function.update σ.next x link) fun y member => by
        refine Function.update_of_ne ?_ _ _
        intro isX
        subst isX
        exact clean_of_holds ref here holds same member
      simpa [State.goto,State.store,same] using kept
  · intro q y atY clean
    have notX : y ≠ x := by
      intro isX
      subst isX
      have := clean t
      simp only [State.goto,Function.update_self] at this
      exact this marked
    simp only [State.goto,State.store,Function.update_of_ne notX]
    refine ref.links q y atY fun u => ?_
    have cleanU := clean u
    by_cases same : u = t
    · subst same
      simp only [State.goto,Function.update_self] at cleanU
      intro member
      exact cleanU (unfinished y member)
    · simpa [State.goto,State.store,same] using cleanU

/-! ### The last write of a swap -/

/-- A swap is about to make its last write: the node before the pair and the first
    node of the pair are relinked. -/
structure Exchanging (σ : State) (c : Convoy) (t k i prev cur nxt : Nat) (kind : Swapper) : Prop where
  at_pc : σ.pc t = .swap kind k (.swapNodes prev cur nxt .storeRight)
  here : c.phase t = .inside i k (k+3) (.swap kind k)
  atPrev : c.items[k]? = some prev
  atCur : c.items[k+1]? = some cur
  atNext : c.items[k+2]? = some nxt
  linked : σ.next prev = some nxt
  relinked : σ.next cur = c.items[k+3]?

section Exchange
variable {t k i prev cur nxt : Nat} {kind : Swapper}

/-- The convoy after the last write. -/
def exchanged (c : Convoy) (t k i : Nat) : Convoy :=
  { c.setPhase t (.inside i k (k+3) (.done .exclusive (.swapped true))) with items := Adjacent.exchange (k+1) c.items }

theorem Exchanging.left (ex : Exchanging σ c t k i prev cur nxt kind) :
    (Adjacent.exchange (k+1) c.items)[k+1]? = some nxt :=
  (exchange_left (List.getElem?_eq_some_iff.mp ex.atNext).1).trans ex.atNext

theorem Exchanging.right (ex : Exchanging σ c t k i prev cur nxt kind) :
    (Adjacent.exchange (k+1) c.items)[k+2]? = some cur :=
  (exchange_right (List.getElem?_eq_some_iff.mp ex.atNext).1).trans ex.atCur

theorem Exchanging.mine (ex : Exchanging σ c t k i prev cur nxt kind) {p : Nat} (low : k ≤ p) (high : p < k+3) :
    (c.phase t).Holds p := by
  rw [ex.here]
  exact ⟨low,high⟩

/-- The windows of the other threads do not contain the exchanged positions. -/
theorem Exchanging.away (ex : Exchanging σ c t k i prev cur nxt kind) (ref : Refines v s value σ c) {u p : Nat}
    (different : u ≠ t) (theirs : (c.phase u).Holds p) : ¬ (k ≤ p ∧ p < k+3) := by
  intro both
  refine apart_of_conflict ref.geometry different (ex.mine both.1 both.2) theirs (.inl ?_)
  rw [ex.here]
  rfl

/-- What another thread has in its window, and the node behind it, stay. -/
theorem Exchanging.others_fit (ex : Exchanging σ c t k i prev cur nxt kind) (ref : Refines v s value σ c) {u : Nat}
    (different : u ≠ t) :
    Fits v value (Adjacent.exchange (k+1) c.items) (Function.update σ.next nxt (some cur)) (σ.pc u) (c.phase u) := by
  refine ((ref.fits u).of_next _ fun y member => ?_).of_items (exchange_length _ _) ?_
  · refine Function.update_of_ne ?_ _ _
    rintro rfl
    exact clean_of_holds ref ex.atNext (ex.mine (by omega) (by omega)) different member
  · intro j lo hi job p there low high
    have awayU : ∀ {q}, lo ≤ q ∧ q < hi → ¬ (k ≤ q ∧ q < k+3) := by
      intro q holds
      apply ex.away ref different
      rw [there]
      exact holds
    have bounds := ref.geometry.window there
    have within := ref.geometry.window ex.here
    rcases Nat.lt_or_ge lo hi with some | none
    · have hiAway := awayU ⟨by omega,Nat.sub_one_lt_of_lt some⟩
      have loAway := awayU ⟨Nat.le_refl _,some⟩
      refine exchange_other c.items (fun isOne => ?_) (fun isTwo => ?_)
      · exact awayU (q := k+1) ⟨by omega,by omega⟩ ⟨by omega,by omega⟩
      · exact awayU (q := k+2) ⟨by omega,by omega⟩ ⟨by omega,by omega⟩
    · have := bounds.2.2.2 (by omega)
      exact exchange_other c.items (by omega) (by omega)

/-- The chain follows the exchanged list. -/
theorem Exchanging.links (ex : Exchanging σ c t k i prev cur nxt kind) (ref : Refines v s value σ c) {p x : Nat}
    (atX : (Adjacent.exchange (k+1) c.items)[p]? = some x) (clean : ∀ u, u ≠ t → x ∉ dirty (σ.pc u)) :
    Function.update σ.next nxt (some cur) x = (Adjacent.exchange (k+1) c.items)[p+1]? := by
  have other : ∀ q, q ≠ k+1 → q ≠ k+2 → (Adjacent.exchange (k+1) c.items)[q]? = c.items[q]? :=
    fun _ one two => exchange_other c.items one two
  by_cases isPrev : p = k
  · subst isPrev
    rw [other p (by omega) (by omega),ex.atPrev] at atX
    cases atX
    rw [Function.update_of_ne (node_ne ref.distinct ex.atPrev ex.atNext (by omega)),ex.left]
    exact ex.linked
  by_cases isNext : p = k+1
  · subst isNext
    rw [ex.left] at atX
    cases atX
    rw [Function.update_self,ex.right]
  by_cases isCur : p = k+2
  · subst isCur
    rw [ex.right] at atX
    cases atX
    rw [Function.update_of_ne (node_ne ref.distinct ex.atCur ex.atNext (by omega)),other (k+3) (by omega) (by omega)]
    exact ex.relinked
  rw [other p isNext isCur] at atX
  rw [Function.update_of_ne (node_ne ref.distinct atX ex.atNext isCur),other (p+1) (by omega) (by omega)]
  refine ref.links p x atX fun u => ?_
  by_cases same : u = t
  · subst same
    rw [ex.at_pc]
    simp [dirty,node_ne ref.distinct atX ex.atPrev isPrev,node_ne ref.distinct atX ex.atCur isNext]
  · exact clean u same

/-- A locked node is still in the window of the thread that locked it. -/
theorem Exchanging.held (ex : Exchanging σ c t k i prev cur nxt kind) (ref : Refines v s value σ c) {x u : Nat}
    {m : Mode} (member : (u,m) ∈ σ.sync x) :
    ∃ p, (exchanged c t k i).items[p]? = some x ∧ ((exchanged c t k i).phase u).Holds p ∧
      m = ((exchanged c t k i).phase u).mode v := by
  obtain ⟨p,atX,holds,mode⟩ := ref.held member
  by_cases same : u = t
  · subst same
    rw [ex.here] at holds mode
    have bounds : k ≤ p ∧ p < k+3 := holds
    simp only [exchanged,setPhase_self]
    by_cases isNext : p = k+1
    · subst isNext
      rw [ex.atCur] at atX
      cases atX
      exact ⟨k+2,ex.right,⟨by omega,by omega⟩,mode⟩
    by_cases isCur : p = k+2
    · subst isCur
      rw [ex.atNext] at atX
      cases atX
      exact ⟨k+1,ex.left,⟨by omega,by omega⟩,mode⟩
    exact ⟨p,(exchange_other c.items isNext isCur).trans atX,bounds,mode⟩
  · simp only [exchanged,setPhase_other _ _ same]
    have := ex.away ref same holds
    exact ⟨p,(exchange_other c.items (by omega) (by omega)).trans atX,holds,mode⟩

theorem Exchanging.secured (ex : Exchanging σ c t k i prev cur nxt kind) (ref : Refines v s value σ c) {u p : Nat}
    (secures : Secures ((exchanged c t k i).phase u) p) :
    ∃ x, (exchanged c t k i).items[p]? = some x ∧ (u,((exchanged c t k i).phase u).mode v) ∈ σ.sync x := by
  by_cases same : u = t
  · subst same
    simp only [exchanged,setPhase_self] at secures ⊢
    obtain ⟨isRear,_⟩ := secures
    subst isRear
    have before : Secures (c.phase u) p := by rw [ex.here]; exact ⟨by omega,by omega⟩
    obtain ⟨x,atX,member⟩ := ref.secured before
    rw [ex.here] at member
    exact ⟨x,(exchange_other c.items (by omega) (by omega)).trans atX,member⟩
  · simp only [exchanged,setPhase_other _ _ same] at secures ⊢
    obtain ⟨x,atX,member⟩ := ref.secured secures
    have holds : (c.phase u).Holds p := by
      obtain ⟨q,atX',holds,_⟩ := ref.held member
      rwa [position_unique ref.distinct atX atX']
    have := ex.away ref same holds
    exact ⟨x,(exchange_other c.items (by omega) (by omega)).trans atX,member⟩

/-- The last write of a swap makes the chain follow the exchanged list. -/
theorem Refines.exchange (ref : Refines v s value σ c) (ex : Exchanging σ c t k i prev cur nxt kind)
    (accepted : swapTest value kind cur nxt = true) :
    Refines v s value ((σ.store nxt (some cur)).goto t (.swap kind k (.addSwap prev cur nxt))) (exchanged c t k i) where
  geometry := geometry_move ref.geometry (.swap ex.here ex.atCur ex.atNext accepted)
  distinct := (exchange_perm _ _).nodup_iff.mpr ref.distinct
  first := (exchange_other c.items (by omega) (by omega)).trans ref.first
  size := (exchange_length _ _).trans ref.size
  two := ref.two
  order := ref.order
  outcome := ref.outcome
  ticket := by
    intro u j lo hi job there
    by_cases same : u = t
    · subst same
      simp only [exchanged,setPhase_self] at there
      cases there
      exact ref.ticket ex.here
    · simp only [exchanged,setPhase_other _ _ same] at there
      exact ref.ticket there
  fits := by
    intro u
    by_cases same : u = t
    · subst same
      simp only [exchanged,State.goto,State.store,Function.update_self,setPhase_self]
      exact .addSwap ((exchange_other c.items (by omega) (by omega)).trans ex.atPrev)
        (node_ne ref.distinct ex.atCur ex.atPrev (by omega)) (node_ne ref.distinct ex.atNext ex.atPrev (by omega))
    · simp only [exchanged,State.goto,State.store,Function.update_of_ne same,setPhase_other _ _ same]
      exact ex.others_fit ref same
  links := by
    intro p x atX clean
    refine ex.links ref atX fun u same => ?_
    simpa [State.goto,State.store,same] using clean u
  held := ex.held ref
  secured := ex.secured ref

end Exchange

/-! ### Every step is a move -/

theorem fits_walk {items : List Nat} {next : Nat → Option Nat} {kind : Swapper} {k i j prev cur : Nat} (before : j ≤ k)
    (atPrev : items[j]? = some prev) (atCur : items[j+1]? = some cur) :
    Fits v value items next (.swap kind k (walk k prev cur j)) (.inside i j (j+2) (.swap kind k)) := by
  unfold walk
  split
  · rename_i more
    exact .readStep atPrev atCur more
  · rename_i last
    have : j = k := by omega
    subst this
    exact .readNext atPrev atCur

/-- The list has a node at every position up to the number of nodes. -/
theorem Refines.node_at (ref : Refines v s value σ c) {p : Nat} (inside : p ≤ s.size) : ∃ x, c.items[p]? = some x := by
  have : p < c.items.length := by rw [ref.size]; omega
  exact ⟨_,List.getElem?_eq_getElem this⟩

theorem search_refines (ref : Refines v s value σ c) {σ' : State} {t : Nat} {kind : Searcher} {pc : SearchPc}
    (at_pc : σ.pc t = .search kind pc) (taken : searchPairs v s value kind t σ pc = some σ') :
    ∃ c', Advances v value (some t) c c' ∧ Refines v s value σ' c' := by
  have fit := ref.fits t
  have clean : dirty (σ.pc t) = [] := by rw [at_pc]; rfl
  have nothingDirty : ∀ (pc' : Pc), ∀ x ∈ dirty (σ.pc t), x ∈ dirty pc' := by simp [clean]
  rw [at_pc] at fit
  generalize here : c.phase t = phase at fit
  cases fit with
  | searchAsk =>
    obtain ⟨σ1,granted,rfl⟩ := Option.map_eq_some_iff.mp taken
    exact ref.enter here granted .readFirst clean
  | @readFirst _ i =>
    obtain ⟨a,second,read⟩ := ref.second here clean
    simp only [searchPairs,read] at taken
    cases taken
    exact ⟨c,advances_refl _,ref.stay here (.lockA second) (nothingDirty _)⟩
  | @lockA _ i a ahead =>
    obtain ⟨σ1,granted,rfl⟩ := Option.map_eq_some_iff.mp taken
    exact ref.grant here ahead rfl granted (.unlockFirst ahead) (nothingDirty _)
  | @unlockFirst _ i a second =>
    cases taken
    have move : Move v value c (c.setPhase t (.inside i 1 2 (.search kind 0))) := .leaveHead here
    exact ⟨_,advances_of_move move rfl rfl,ref.releaseRear here (by simp) ref.first move rfl (.readB (Nat.le_refl _) second)
      (nothingDirty _)⟩
  | @readB _ i p a n positive atA =>
    have read := next_of_holds ref atA (by rw [here]; exact ⟨Nat.le_refl _,by omega⟩) (by simp [clean])
    cases ahead : c.items[p+1]? with
    | none =>
      simp only [searchPairs,read,ahead] at taken
      cases taken
      have last : c.items.length = p+1 := by
        have := List.getElem?_eq_none_iff.mp ahead
        have := (List.getElem?_eq_some_iff.mp atA).1
        omega
      exact ⟨c,advances_refl _,ref.stay here (.unlockLast positive atA last) (nothingDirty _)⟩
    | some b =>
      simp only [searchPairs,read,ahead] at taken
      cases taken
      exact ⟨c,advances_refl _,ref.stay here (.lockB positive atA ahead) (nothingDirty _)⟩
  | @unlockLast _ i p a n positive atA last =>
    have move : Move v value c (c.setPhase t (.inside i (p+1) (p+1) (.done v.searchMode (.pairs n)))) :=
      .reachEnd here positive last
    simp only [searchPairs] at taken
    split at taken
    · cases taken
      exact ⟨_,advances_of_move move rfl rfl,ref.releaseRear here (by simp) atA move rfl (.addIteration last) (nothingDirty _)⟩
    · cases taken
      exact ⟨_,advances_of_move move rfl rfl,ref.releaseRear here (by simp) atA move rfl (.addPairs last) (nothingDirty _)⟩
  | @lockB _ i p a b n positive atA ahead =>
    obtain ⟨σ1,granted,rfl⟩ := Option.map_eq_some_iff.mp taken
    exact ref.grant here ahead rfl granted (.unlockA positive atA ahead) (nothingDirty _)
  | @unlockA _ i p a b n positive atA atB =>
    cases taken
    have move : Move v value c (c.setPhase t (.inside i (p+1) (p+2)
        (.search kind (if searchTest value kind a b then n+1 else n)))) := .count here positive atA atB
    exact ⟨_,advances_of_move move rfl rfl,ref.releaseRear here (by simp) atA move rfl (.readB (by omega) atB) (nothingDirty _)⟩
  | @addPairs _ i p n beyond =>
    cases taken
    exact ⟨c,advances_refl _,Refines.stay ref.counters here (.addIteration beyond) (nothingDirty _)⟩
  | @addIteration _ i p n beyond =>
    cases taken
    refine ref.finish here clean rfl rfl rfl rfl rfl (fun _ _ _ _ => .rfl) ?_
    intro x m member
    obtain ⟨q,_,holds,_⟩ := ref.held member
    rw [here] at holds
    have : p ≤ q ∧ q < p := holds
    omega

/-- A thread whose operation is done releases a lock, but not that of the rear of
    its window. -/
theorem Refines.unwind (ref : Refines v s value σ c) {t i k prev x : Nat} {decision : Bool} {pc : Pc}
    (here : c.phase t = .inside i k (k+3) (.done .exclusive (.swapped decision))) (atPrev : c.items[k]? = some prev)
    (other : x ≠ prev) (clean : dirty (σ.pc t) = [])
    (fit : Fits v value c.items σ.next pc (.inside i k (k+3) (.done .exclusive (.swapped decision)))) :
    Refines v s value ((σ.unlock t x).goto t pc) c := by
  have same := setPhase_same here
  have moved : Refines v s value ((σ.unlock t x).goto t pc)
      (c.setPhase t (.inside i k (k+3) (.done .exclusive (.swapped decision)))) := by
    refine ref.release here (by rw [same]; exact ref.geometry) rfl fit (by simp [clean]) ?_ ?_
    · intro p y low high _ _
      exact ⟨low,high⟩
    · intro p secures
      refine ⟨secures,fun isX => other ?_⟩
      rw [secures.1] at isX
      exact Option.some.inj (isX.symm.trans atPrev)
  rwa [same] at moved

theorem swapNodes_refines (ref : Refines v s value σ c) {σ' : State} {t prev cur nxt k : Nat} {kind : Swapper}
    {pc : NodesPc} (at_pc : σ.pc t = .swap kind k (.swapNodes prev cur nxt pc))
    (taken : swapPairs s value kind k t σ (.swapNodes prev cur nxt pc) = some σ') :
    ∃ c', Advances v value (some t) c c' ∧ Refines v s value σ' c' := by
  have fit := ref.fits t
  rw [at_pc] at fit
  generalize here : c.phase t = phase at fit
  cases fit with
  | @storePrev _ _ i _ _ _ atPrev atCur atNext accepted =>
    cases taken
    have holds : (c.phase t).Holds k := by rw [here]; exact ⟨Nat.le_refl _,by omega⟩
    refine ⟨c,advances_refl _,ref.relink atPrev holds ?_ (by simp [dirty]) (by simp [at_pc,dirty])⟩
    rw [here]
    exact .loadRight atPrev atCur atNext accepted (Function.update_self ..)
  | @loadRight _ _ i _ _ _ atPrev atCur atNext accepted linked =>
    cases taken
    have notNext : nxt ≠ prev := node_ne ref.distinct atNext atPrev (by omega)
    have read : σ.next nxt = c.items[k+3]? :=
      next_of_holds ref atNext (by rw [here]; exact ⟨by omega,by omega⟩) (by simp [at_pc,dirty,notNext])
    refine ⟨c,advances_refl _,ref.stay here ?_ (by simp [at_pc,dirty])⟩
    rw [read]
    exact .storeLeft atPrev atCur atNext accepted linked
  | @storeLeft _ _ i _ _ _ atPrev atCur atNext accepted linked =>
    cases taken
    have notCur : prev ≠ cur := node_ne ref.distinct atPrev atCur (by omega)
    have holds : (c.phase t).Holds (k+1) := by rw [here]; exact ⟨by omega,by omega⟩
    refine ⟨c,advances_refl _,ref.relink atCur holds ?_ (by simp [dirty]) (by simp [at_pc,dirty])⟩
    rw [here]
    exact .storeRight atPrev atCur atNext accepted ((Function.update_of_ne notCur _ _).trans linked)
      (Function.update_self ..)
  | @storeRight _ _ i _ _ _ atPrev atCur atNext accepted linked relinked =>
    cases taken
    refine ⟨_,⟨.single (.swap here atCur atNext accepted),fun u other => ?_,.inr ⟨t,i,k,k+3,rfl,?_⟩⟩,
      ref.exchange ⟨at_pc,here,atPrev,atCur,atNext,linked,relinked⟩ accepted⟩
    · exact setPhase_other _ _ fun same => other (congrArg some same.symm)
    · exact setPhase_self ..

theorem swap_refines (ref : Refines v s value σ c) (locks : LocalLocks s σ) {σ' : State} {t k : Nat} {kind : Swapper}
    {pc : SwapPc} (at_pc : σ.pc t = .swap kind k pc) (taken : swapPairs s value kind k t σ pc = some σ') :
    ∃ c', Advances v value (some t) c c' ∧ Refines v s value σ' c' := by
  by_cases swapping : ∃ prev cur nxt npc, pc = .swapNodes prev cur nxt npc
  · obtain ⟨prev,cur,nxt,npc,rfl⟩ := swapping
    exact swapNodes_refines ref at_pc taken
  have fit := ref.fits t
  have clean : dirty (σ.pc t) = [] := by
    rw [at_pc]
    cases pc <;> first | rfl | exact absurd ⟨_,_,_,_,rfl⟩ swapping
  have nothingDirty : ∀ (pc' : Pc), ∀ x ∈ dirty (σ.pc t), x ∈ dirty pc' := by simp [clean]
  rw [at_pc] at fit
  generalize here : c.phase t = phase at fit
  cases fit with
  | swapAsk =>
    obtain ⟨σ1,granted,rfl⟩ := Option.map_eq_some_iff.mp taken
    exact ref.enter here granted .readCur clean
  | @readCur _ _ i =>
    obtain ⟨a,second,read⟩ := ref.second here clean
    simp only [swapPairs,read] at taken
    cases taken
    exact ⟨c,advances_refl _,ref.stay here (.lockCur second) (nothingDirty _)⟩
  | @lockCur _ _ i cur ahead =>
    obtain ⟨σ1,granted,rfl⟩ := Option.map_eq_some_iff.mp taken
    exact ref.grant here ahead (by simp [Job.Reaches]) granted (fits_walk (Nat.zero_le _) ref.first ahead)
      (nothingDirty _)
  | @readStep _ _ i j prev cur atPrev atCur before =>
    have read := next_of_holds ref atCur (by rw [here]; exact ⟨by omega,by omega⟩) (by simp [clean])
    -- The walk ends before the last node.
    have limits := ref.geometry.reach here
    obtain ⟨nxt,ahead⟩ := ref.node_at (p := j+2) (by have := ref.size; omega)
    rw [ahead] at read
    simp only [swapPairs,read] at taken
    cases taken
    exact ⟨c,advances_refl _,ref.stay here (.lockStep atPrev atCur ahead before) (nothingDirty _)⟩
  | @lockStep _ _ i j prev cur nxt atPrev atCur ahead before =>
    obtain ⟨σ1,granted,rfl⟩ := Option.map_eq_some_iff.mp taken
    exact ref.grant here ahead (by simp only [Job.Reaches]; omega) granted (.unlockStep atPrev atCur ahead before)
      (nothingDirty _)
  | @unlockStep _ _ i j prev cur nxt atPrev atCur atNext before =>
    cases taken
    have move : Move v value c (c.setPhase t (.inside i (j+1) (j+3) (.swap kind k))) := .walk here before
    exact ⟨_,advances_of_move move rfl rfl,ref.releaseRear here (by simp) atPrev move rfl (fits_walk before atCur atNext)
      (nothingDirty _)⟩
  | @readNext _ _ i prev cur atPrev atCur =>
    have read := next_of_holds ref atCur (by rw [here]; exact ⟨by omega,by omega⟩) (by simp [clean])
    have limits := ref.geometry.reach here
    obtain ⟨nxt,ahead⟩ := ref.node_at (p := k+2) (by have := ref.size; omega)
    rw [ahead] at read
    simp only [swapPairs,read] at taken
    cases taken
    exact ⟨c,advances_refl _,ref.stay here (.lockNext atPrev atCur ahead) (nothingDirty _)⟩
  | @lockNext _ _ i prev cur nxt atPrev atCur ahead =>
    obtain ⟨σ1,granted,rfl⟩ := Option.map_eq_some_iff.mp taken
    exact ref.grant here ahead (by simp only [Job.Reaches]; omega) granted (.compare atPrev atCur ahead)
      (nothingDirty _)
  | @compare _ _ i prev cur nxt atPrev atCur atNext =>
    have notCur : cur ≠ prev := node_ne ref.distinct atCur atPrev (by omega)
    have notNext : nxt ≠ prev := node_ne ref.distinct atNext atPrev (by omega)
    simp only [swapPairs] at taken
    split at taken
    · rename_i accepted
      cases taken
      exact ⟨c,advances_refl _,ref.stay here (.storePrev atPrev atCur atNext accepted) (nothingDirty _)⟩
    · rename_i refused
      cases taken
      have move : Move v value c (c.setPhase t (.inside i k (k+3) (.done .exclusive (.swapped false)))) :=
        .keep here atCur atNext (Bool.eq_false_iff.mpr refused)
      exact ⟨_,advances_of_move move rfl rfl,ref.settle here (by simp) move rfl (.unlockNext atPrev notCur notNext) (nothingDirty _)⟩
  | @addSwap _ _ i prev cur nxt atPrev notCur notNext =>
    cases taken
    exact ⟨c,advances_refl _,Refines.stay ref.counters here (.unlockNext atPrev notCur notNext) (nothingDirty _)⟩
  | @unlockNext _ _ i prev cur nxt decision atPrev notCur notNext =>
    cases taken
    exact ⟨c,advances_refl _,ref.unwind here atPrev notNext clean (.unlockCur atPrev notCur)⟩
  | @unlockCur _ _ i prev cur decision atPrev notCur =>
    cases taken
    exact ⟨c,advances_refl _,ref.unwind here atPrev notCur clean (.unlockPrev atPrev)⟩
  | @unlockPrev _ _ i prev decision atPrev =>
    cases taken
    refine ref.finish here clean rfl rfl rfl rfl rfl ?_ ?_
    · intro u x m other
      by_cases same : x = prev
      · subst same; simp [State.unlock,other]
      · simp [State.unlock,same]
    · intro x m member
      by_cases same : x = prev
      · subst same; simp [State.unlock] at member
      · simp only [State.unlock,Function.update_of_ne same] at member
        have := locks _ _ _ member
        rw [at_pc] at this
        exact same (List.mem_singleton.mp this)
  | _ => exact absurd ⟨_,_,_,_,rfl⟩ swapping

/-- The thread that takes the step. -/
def actor : Act → Option Nat
  | .search t _ | .swap t _ _ | .step t => some t
  | .stop => none

/-- Every step of a list program is matched by moves of the convoy. -/
theorem advances_step (ref : Refines v s value σ c) (locks : LocalLocks s σ) {σ' : State} {a : Act}
    (taken : step v s value σ a = some σ') : ∃ c', Advances v value (actor a) c c' ∧ Refines v s value σ' c' := by
  have asks : ∀ t op pc, σ.pc t = .idle → Fits v value c.items σ.next pc (.waiting op) →
      (∀ kind k, op = .swap kind k → k+3 ≤ c.items.length) →
        ∃ c', Advances v value (some t) c c' ∧ Refines v s value (σ.goto t pc) c' := by
    intro t op pc top fit fits
    have fitT := ref.fits t
    rw [top] at fitT
    generalize here : c.phase t = phase at fitT
    cases fitT
    have move : Move v value c (c.setPhase t (.waiting op)) := .ask here fits
    refine ⟨_,advances_of_move move rfl rfl,ref.update rfl rfl rfl rfl rfl (fun _ _ _ _ => .rfl)
      (geometry_move ref.geometry move) fit (by simp [top,dirty]) (fun _ _ _ _ same => by cases same) ?_
      (fun _ secures => secures.elim)⟩
    intro x m member
    obtain ⟨p,_,holds,_⟩ := ref.held member
    rw [here] at holds
    exact holds.elim
  cases step_cases taken with
  | search t kind _ top => exact asks t _ _ top .searchAsk (fun _ _ same => by cases same)
  | swap t kind randR running top =>
    apply asks t _ _ top .swapAsk
    intro kind' k same
    cases same
    have two := running.2
    have inside := Nat.mod_lt randR (show 0 < s.size - 1 by omega)
    rw [ref.size]
    omega
  | searching here taken => exact search_refines ref here taken
  | swapping here taken => exact swap_refines ref locks here taken
  | stop => exact ⟨c,advances_refl _,ref.counters⟩

theorem refines_step (ref : Refines v s value σ c) (locks : LocalLocks s σ) {σ' : State} {a : Act}
    (taken : step v s value σ a = some σ') :
    ∃ c', Relation.ReflTransGen (Move v value) c c' ∧ Refines v s value σ' c' :=
  (advances_step ref locks taken).imp fun _ => And.imp_left Advances.moved

/-- The program before its first step stands for the convoy before its first
    move. -/
theorem start_refines {h : Heap} {nodes : List Nat} (holds : Holds s h nodes) (two : 2 ≤ s.size) :
    Refines v s value (start h) (initial (s.first :: nodes)) where
  geometry := geometry_initial (by simp)
  distinct := holds.distinct
  first := rfl
  size := by simp [initial,holds.size]
  two := two
  order := rfl
  outcome := rfl
  ticket here := by simp [initial] at here
  fits _ := .idle
  links p x here _ := Chains.chain_positions holds.chain p x here
  held member := by simp [start] at member
  secured secures := secures.elim

/-- What is known in every reachable state of a list program: it stands for a
    convoy that has moved there from the initial list, whose completion is the
    serial execution of the operations so far. -/
structure Stands (v : Variant) (s : Storage) (value : Nat → List Char) (nodes : List Nat) (σ : State) (c : Convoy) :
    Prop where
  refines : Refines v s value σ c
  locks : LocalLocks s σ
  serial : Serial value (s.first :: nodes) c
  rearranged : c.items.Perm (s.first :: nodes)

theorem Stands.advance {nodes : List Nat} {a : Act} {σ' : State} {c' : Convoy} (stands : Stands v s value nodes σ c)
    (taken : step v s value σ a = some σ') (moved : Relation.ReflTransGen (Move v value) c c')
    (refines : Refines v s value σ' c') : Stands v s value nodes σ' c' := by
  have kept := Transition.moves_invariant
    (P := fun x => Geometry v x ∧ Serial value (s.first :: nodes) x ∧ x.items.Perm (s.first :: nodes))
    (fun x y holds move => ⟨geometry_move holds.1 move,serial_move holds.2.1 holds.1 move,
      (items_move move).1.trans holds.2.2⟩)
    moved ⟨stands.refines.geometry,stands.serial,stands.rearranged⟩
  exact ⟨refines,step_locks stands.locks taken,kept.2.1,kept.2.2⟩

theorem stands_step {nodes : List Nat} {a : Act} {σ' : State} (stands : Stands v s value nodes σ c)
    (taken : step v s value σ a = some σ') : ∃ c', Stands v s value nodes σ' c' := by
  obtain ⟨c',moved,refines⟩ := refines_step stands.refines stands.locks taken
  exact ⟨c',stands.advance taken moved refines⟩

/-- Every state that a list program reaches stands for a convoy. -/
theorem run_stands {h : Heap} {nodes : List Nat} (holds : Holds s h nodes) (two : 2 ≤ s.size) {acts : List Act}
    {σ' : State} (ran : Transition.run (step v s value) (start h) acts = some σ') :
    ∃ c, Stands v s value nodes σ' c :=
  Transition.run_invariant (P := fun σ => ∃ c, Stands v s value nodes σ c)
    (fun _ _ _ ⟨_,stands⟩ taken => stands_step stands taken) ran
    ⟨_,start_refines holds two,start_locks s h,serial_initial value _,.refl _⟩

end Os5Sem.ListRefine

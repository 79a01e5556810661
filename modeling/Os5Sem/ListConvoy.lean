import Os5Sem.Adjacent
import Os5Sem.Serial
import Os5Sem.ListProgram

/-!
What the list programs are for, and why their locking achieves it. The operations
have a serial meaning on the list of nodes (`serialOp`). A convoy is the abstract
machine of operations that travel down one list, each holding the locks of a
window of neighbouring positions: a window is entered at the head of the list and
moves only to positions that no conflicting operation holds, so that conflicting
operations never overtake each other (`Geometry.apart`). Every run of a convoy has the
effect and the outcomes of the serial execution in the order of entry
(`convoy_serial`).
-/
namespace Os5Sem.ListConvoy
open Os5Sem.Adjacent Os5Sem.Serial Os5Sem.ListProgram

/-! ### The serial meaning of the operations -/

/-- The comparator of a searching thread on two nodes. -/
def searchTest (value : Nat → List Char) (kind : Searcher) (x y : Nat) : Bool :=
  kind.cmp (value x).length (value y).length

/-- The comparator of a swapping thread on two nodes. -/
def swapTest (value : Nat → List Char) (kind : Swapper) (x y : Nat) : Bool :=
  kind.cmp (value x).length (value y).length

/-- An operation on the list of nodes behind the first one: a search counts the
    neighbouring pairs on which its comparator holds, a swap exchanges the nodes
    at its index and behind it if its comparator holds on them. -/
def serialOp (value : Nat → List Char) : Op → List Nat → List Nat × Outcome
  | .search kind, nodes => (nodes,.pairs (countPairs (searchTest value kind) nodes))
  | .swap kind k, nodes =>
    if holdsAt (swapTest value kind) k nodes then (exchange k nodes,.swapped true) else (nodes,.swapped false)

/-- The operations one at a time: the list they leave and their outcomes. -/
def serially (value : Nat → List Char) (ops : List Op) (nodes : List Nat) : List Nat × List Outcome :=
  completeAll (ops.map (serialOp value)) nodes

/-! ### Convoys -/

/-- What an operation inside the list still has to do. -/
inductive Job
  | search (kind : Searcher) (cyclePairs : Nat)
  | swap (kind : Swapper) (leftIndex : Nat)
  | done (mode : Mode) (outcome : Outcome)

def Job.ofOp : Op → Job
  | .search kind => .search kind 0
  | .swap kind k => .swap kind k

def Job.mode (v : Variant) : Job → Mode
  | .search _ _ => v.searchMode
  | .swap _ _ => .exclusive
  | .done mode _ => mode

/-- The effect of the rest of a job on the whole list, whose first node is at
    position 0, when the rear of its window is at `lo`. -/
def Job.rest (value : Nat → List Char) (lo : Nat) : Job → List Nat → List Nat × Option Outcome
  | .search kind cyclePairs, l =>
    (l,some (.pairs (cyclePairs + countPairs (searchTest value kind) (l.drop (max lo 1)))))
  | .swap kind k, l =>
    if holdsAt (swapTest value kind) (k+1) l then (exchange (k+1) l,some (.swapped true))
    else (l,some (.swapped false))
  | .done _ outcome, l => (l,some outcome)

/-- A thread: outside, waiting at the head of the list, or inside with the number
    of its operation and the window `lo ≤ p < hi` of positions it holds. An
    operation that is done keeps its window until it leaves, whatever locks it
    has released by then. -/
inductive Phase
  | idle
  | waiting (op : Op)
  | inside (ticket lo hi : Nat) (job : Job)

def Phase.Holds : Phase → Nat → Prop
  | .inside _ lo hi _, p => lo ≤ p ∧ p < hi
  | _, _ => False

def Phase.mode (v : Variant) : Phase → Mode
  | .inside _ _ _ job => job.mode v
  | _ => .shared

/-- The list, the threads, the operations in the order in which they entered and
    the outcomes of those that are over. -/
structure Convoy where
  items : List Nat
  phase : Nat → Phase
  order : List (Nat × Op)
  outcome : Nat → Option Outcome

def Convoy.setPhase (c : Convoy) (t : Nat) (phase : Phase) : Convoy :=
  { c with phase := Function.update c.phase t phase }

/-- Holds of two modes exclude each other. -/
def Conflict (m m' : Mode) : Prop := m = .exclusive ∨ m' = .exclusive

/-- No conflicting operation holds the position. -/
def Convoy.Free (v : Variant) (c : Convoy) (mode : Mode) (p : Nat) : Prop :=
  ∀ u, (c.phase u).Holds p → ¬ Conflict mode ((c.phase u).mode v)

/-- How far a job's window may still grow. -/
def Job.Reaches (lo hi : Nat) : Job → Prop
  | .search _ _ => hi = lo+1
  | .swap _ k => hi < k+3
  | .done _ _ => False

inductive Move (v : Variant) (value : Nat → List Char) : Convoy → Convoy → Prop
  | ask {c : Convoy} {t : Nat} {op : Op} (top : c.phase t = .idle)
      (fits : ∀ kind k, op = .swap kind k → k+3 ≤ c.items.length) :
      Move v value c (c.setPhase t (.waiting op))
  | enter {c : Convoy} {t : Nat} {op : Op} (asked : c.phase t = .waiting op)
      (free : c.Free v ((Job.ofOp op).mode v) 0) :
      Move v value c { c.setPhase t (.inside c.order.length 0 1 (.ofOp op)) with order := c.order ++ [(t,op)] }
  | extend {c : Convoy} {t i lo hi : Nat} {job : Job} (here : c.phase t = .inside i lo hi job)
      (more : hi < c.items.length) (reaches : job.Reaches lo hi) (free : c.Free v (job.mode v) hi) :
      Move v value c (c.setPhase t (.inside i lo (hi+1) job))
  | leaveHead {c : Convoy} {t i n : Nat} {kind : Searcher} (here : c.phase t = .inside i 0 2 (.search kind n)) :
      Move v value c (c.setPhase t (.inside i 1 2 (.search kind n)))
  | count {c : Convoy} {t i lo n x y : Nat} {kind : Searcher}
      (here : c.phase t = .inside i lo (lo+2) (.search kind n)) (positive : 1 ≤ lo)
      (left : c.items[lo]? = some x) (right : c.items[lo+1]? = some y) :
      Move v value c (c.setPhase t
        (.inside i (lo+1) (lo+2) (.search kind (if searchTest value kind x y then n+1 else n))))
  | reachEnd {c : Convoy} {t i lo n : Nat} {kind : Searcher}
      (here : c.phase t = .inside i lo (lo+1) (.search kind n)) (positive : 1 ≤ lo)
      (last : c.items.length = lo+1) :
      Move v value c (c.setPhase t (.inside i (lo+1) (lo+1) (.done v.searchMode (.pairs n))))
  | walk {c : Convoy} {t i lo k : Nat} {kind : Swapper}
      (here : c.phase t = .inside i lo (lo+3) (.swap kind k)) (before : lo < k) :
      Move v value c (c.setPhase t (.inside i (lo+1) (lo+3) (.swap kind k)))
  | keep {c : Convoy} {t i k x y : Nat} {kind : Swapper} (here : c.phase t = .inside i k (k+3) (.swap kind k))
      (left : c.items[k+1]? = some x) (right : c.items[k+2]? = some y) (refused : swapTest value kind x y = false) :
      Move v value c (c.setPhase t (.inside i k (k+3) (.done .exclusive (.swapped false))))
  | swap {c : Convoy} {t i k x y : Nat} {kind : Swapper} (here : c.phase t = .inside i k (k+3) (.swap kind k))
      (left : c.items[k+1]? = some x) (right : c.items[k+2]? = some y) (accepted : swapTest value kind x y = true) :
      Move v value c { c.setPhase t (.inside i k (k+3) (.done .exclusive (.swapped true))) with
        items := exchange (k+1) c.items }
  | finish {c : Convoy} {t i lo hi : Nat} {mode : Mode} {outcome : Outcome}
      (here : c.phase t = .inside i lo hi (.done mode outcome)) :
      Move v value c { c.setPhase t .idle with outcome := Function.update c.outcome i (some outcome) }

/-- The convoy before its first move. -/
def initial (items : List Nat) : Convoy := ⟨items,fun _ => .idle,[],fun _ => none⟩

/-! ### No overtaking -/

/-- Where the windows of a convoy can be. Conflicting operations stay in the order
    in which they entered: the window of the later one ends before that of the
    earlier one begins. -/
structure Geometry (v : Variant) (c : Convoy) : Prop where
  nonempty : 1 ≤ c.items.length
  ticket : ∀ {t i lo hi job}, c.phase t = .inside i lo hi job → ∃ op, c.order[i]? = some (t,op)
  window : ∀ {t i lo hi job}, c.phase t = .inside i lo hi job →
    lo ≤ hi ∧ 1 ≤ hi ∧ hi ≤ c.items.length ∧ (lo = hi → hi = c.items.length)
  reach : ∀ {t i lo hi kind k}, c.phase t = .inside i lo hi (.swap kind k) →
    lo ≤ k ∧ hi ≤ k+3 ∧ k+3 ≤ c.items.length
  fits : ∀ {t kind k}, c.phase t = .waiting (.swap kind k) → k+3 ≤ c.items.length
  apart : ∀ {t u i j lo hi lo' hi' job job'}, c.phase t = .inside i lo hi job → c.phase u = .inside j lo' hi' job' →
    i < j → Conflict (job.mode v) (job'.mode v) → hi' ≤ lo

theorem Conflict.symm {m m' : Mode} (conflict : Conflict m m') : Conflict m' m := Or.symm conflict

@[simp] theorem setPhase_items (c : Convoy) (t : Nat) (phase : Phase) : (c.setPhase t phase).items = c.items := rfl

theorem setPhase_self (c : Convoy) (t : Nat) (phase : Phase) : (c.setPhase t phase).phase t = phase := by
  simp [Convoy.setPhase]

theorem setPhase_other (c : Convoy) {t u : Nat} (phase : Phase) (other : u ≠ t) :
    (c.setPhase t phase).phase u = c.phase u := by
  simp [Convoy.setPhase,Function.update_of_ne other]

variable {v : Variant} {value : Nat → List Char} {c : Convoy}

theorem geometry_initial {items : List Nat} (nonempty : 1 ≤ items.length) : Geometry v (initial items) where
  nonempty := nonempty
  ticket here := by simp [initial] at here
  window here := by simp [initial] at here
  reach here := by simp [initial] at here
  fits here := by simp [initial] at here
  apart here := by simp [initial] at here

/-- Operations with the same number are the same. -/
theorem Geometry.same_thread (geo : Geometry v c) {t u i lo hi lo' hi' : Nat} {job job' : Job}
    (here : c.phase t = .inside i lo hi job) (there : c.phase u = .inside i lo' hi' job') : t = u := by
  obtain ⟨_,atT⟩ := geo.ticket here
  obtain ⟨_,atU⟩ := geo.ticket there
  rw [atT] at atU
  cases atU
  rfl

/-- The geometry does not depend on which nodes are at the positions. -/
theorem Geometry.of_items (geo : Geometry v c) {items : List Nat} (size : items.length = c.items.length) :
    Geometry v { c with items := items } where
  nonempty := size ▸ geo.nonempty
  ticket here := geo.ticket here
  window here := by
    have := geo.window here
    simp only [size]
    exact this
  reach here := by
    have := geo.reach here
    simp only [size]
    exact this
  fits here := by
    have := geo.fits here
    simp only [size]
    exact this
  apart here there := geo.apart here there

/-- A window moves forward: its rear freely, its front by one position that no
    conflicting operation holds. -/
theorem Geometry.slide (geo : Geometry v c) {t i lo hi lo' hi' : Nat} {job job' : Job}
    (here : c.phase t = .inside i lo hi job) (mode : job'.mode v = job.mode v) (forward : lo ≤ lo')
    (window : lo' ≤ hi' ∧ 1 ≤ hi' ∧ hi' ≤ c.items.length ∧ (lo' = hi' → hi' = c.items.length))
    (reach : ∀ kind k, job' = .swap kind k → lo' ≤ k ∧ hi' ≤ k+3 ∧ k+3 ≤ c.items.length)
    (front : hi' ≤ hi ∨ hi' = hi+1 ∧ hi < c.items.length ∧ c.Free v (job.mode v) hi) :
    Geometry v (c.setPhase t (.inside i lo' hi' job')) where
  nonempty := geo.nonempty
  ticket := by
    intro u j l h jb there
    by_cases same : u = t
    · subst same
      rw [setPhase_self] at there
      cases there
      exact geo.ticket here
    · rw [setPhase_other _ _ same] at there
      exact geo.ticket there
  window := by
    intro u j l h jb there
    by_cases same : u = t
    · subst same
      rw [setPhase_self] at there
      cases there
      exact window
    · rw [setPhase_other _ _ same] at there
      exact geo.window there
  reach := by
    intro u j l h kind k there
    by_cases same : u = t
    · subst same
      rw [setPhase_self] at there
      cases there
      exact reach kind k rfl
    · rw [setPhase_other _ _ same] at there
      exact geo.reach there
  fits := by
    intro u kind k there
    by_cases same : u = t
    · subst same
      rw [setPhase_self] at there
      cases there
    · rw [setPhase_other _ _ same] at there
      exact geo.fits there
  apart := by
    intro u w j j' l h l' h' jb jb' earlier later before conflict
    by_cases first : u = t
    · subst first
      rw [setPhase_self] at earlier
      cases earlier
      have other : w ≠ u := by
        intro same
        subst same
        rw [setPhase_self] at later
        cases later
        exact absurd before (Nat.lt_irrefl _)
      rw [setPhase_other _ _ other] at later
      exact Nat.le_trans (geo.apart here later before (mode ▸ conflict)) forward
    · rw [setPhase_other _ _ first] at earlier
      by_cases second : w = t
      · subst second
        rw [setPhase_self] at later
        cases later
        rw [mode] at conflict
        have behind := geo.apart earlier here before conflict
        rcases front with kept | ⟨grown,inside,free⟩
        · omega
        · -- The position just before the earlier window is not part of it.
          have notHeld : ¬ (l ≤ hi ∧ hi < h) := by
            intro held
            refine free u ?_ ?_
            · rw [earlier]; exact held
            · rw [earlier]; exact conflict.symm
          have bounds := geo.window earlier
          omega
      · rw [setPhase_other _ _ second] at later
        exact geo.apart earlier later before conflict

/-- A thread outside the list changes its phase without entering it. -/
theorem Geometry.outside (geo : Geometry v c) {t : Nat} {phase : Phase}
    (outside : ∀ i lo hi job, phase ≠ .inside i lo hi job)
    (fits : ∀ kind k, phase = .waiting (.swap kind k) → k+3 ≤ c.items.length) : Geometry v (c.setPhase t phase) where
  nonempty := geo.nonempty
  ticket := by
    intro u j l h jb there
    by_cases same : u = t
    · subst same; rw [setPhase_self] at there; exact absurd there (outside _ _ _ _)
    · rw [setPhase_other _ _ same] at there; exact geo.ticket there
  window := by
    intro u j l h jb there
    by_cases same : u = t
    · subst same; rw [setPhase_self] at there; exact absurd there (outside _ _ _ _)
    · rw [setPhase_other _ _ same] at there; exact geo.window there
  reach := by
    intro u j l h kind k there
    by_cases same : u = t
    · subst same; rw [setPhase_self] at there; exact absurd there (outside _ _ _ _)
    · rw [setPhase_other _ _ same] at there; exact geo.reach there
  fits := by
    intro u kind k there
    by_cases same : u = t
    · subst same; rw [setPhase_self] at there; exact fits kind k there
    · rw [setPhase_other _ _ same] at there; exact geo.fits there
  apart := by
    intro u w j j' l h l' h' jb jb' earlier later
    by_cases first : u = t
    · subst first; rw [setPhase_self] at earlier; exact absurd earlier (outside _ _ _ _)
    · by_cases second : w = t
      · subst second; rw [setPhase_self] at later; exact absurd later (outside _ _ _ _)
      · rw [setPhase_other _ _ first] at earlier
        rw [setPhase_other _ _ second] at later
        exact geo.apart earlier later

/-- An operation enters at the head of the list, behind all conflicting ones. -/
theorem Geometry.enter (geo : Geometry v c) {t : Nat} {op : Op} (asked : c.phase t = .waiting op)
    (free : c.Free v ((Job.ofOp op).mode v) 0) :
    Geometry v { c.setPhase t (.inside c.order.length 0 1 (.ofOp op)) with order := c.order ++ [(t,op)] } where
  nonempty := geo.nonempty
  ticket := by
    intro u j l h jb there
    by_cases same : u = t
    · subst same
      simp only [setPhase_self] at there
      cases there
      exact ⟨op,by simp⟩
    · simp only [setPhase_other _ _ same] at there
      obtain ⟨op',at'⟩ := geo.ticket there
      have inside := (List.getElem?_eq_some_iff.mp at').1
      exact ⟨op',by rw [List.getElem?_append_left inside]; exact at'⟩
  window := by
    intro u j l h jb there
    by_cases same : u = t
    · subst same
      simp only [setPhase_self] at there
      cases there
      have := geo.nonempty
      exact ⟨by omega,by omega,this,by omega⟩
    · simp only [setPhase_other _ _ same] at there
      exact geo.window there
  reach := by
    intro u j l h kind k there
    by_cases same : u = t
    · subst same
      simp only [setPhase_self] at there
      cases op with
      | search kind' => cases there
      | swap kind' k' =>
        cases there
        exact ⟨by omega,by omega,geo.fits asked⟩
    · simp only [setPhase_other _ _ same] at there
      exact geo.reach there
  fits := by
    intro u kind k there
    by_cases same : u = t
    · subst same; simp only [setPhase_self] at there; cases there
    · simp only [setPhase_other _ _ same] at there; exact geo.fits there
  apart := by
    intro u w j j' l h l' h' jb jb' earlier later before conflict
    by_cases first : u = t
    · -- The new operation has the largest number.
      subst first
      simp only [setPhase_self] at earlier
      cases earlier
      by_cases second : w = u
      · subst second; simp only [setPhase_self] at later; cases later; exact absurd before (Nat.lt_irrefl _)
      · simp only [setPhase_other _ _ second] at later
        obtain ⟨_,at'⟩ := geo.ticket later
        have inside := (List.getElem?_eq_some_iff.mp at').1
        omega
    · simp only [setPhase_other _ _ first] at earlier
      by_cases second : w = t
      · subst second
        simp only [setPhase_self] at later
        cases later
        have notHeld : ¬ (l ≤ 0 ∧ 0 < h) := by
          intro held
          refine free u ?_ ?_
          · rw [earlier]; exact held
          · rw [earlier]; exact conflict.symm
        have bounds := geo.window earlier
        omega
      · simp only [setPhase_other _ _ second] at later
        exact geo.apart earlier later before conflict

theorem geometry_move {c' : Convoy} (geo : Geometry v c) (move : Move v value c c') : Geometry v c' := by
  cases move with
  | ask top fits =>
    apply geo.outside (fun _ _ _ _ => by simp)
    intro kind k same
    cases same
    exact fits kind k rfl
  | enter asked free => exact geo.enter asked free
  | @extend t i lo hi job here more reaches free =>
    have bounds := geo.window here
    refine geo.slide here rfl (Nat.le_refl _) ⟨by omega,by omega,by omega,by omega⟩ ?_ (.inr ⟨rfl,more,free⟩)
    intro kind k same
    subst same
    have limits := geo.reach here
    have : hi < k+3 := reaches
    exact ⟨limits.1,by omega,limits.2.2⟩
  | leaveHead here =>
    have bounds := geo.window here
    exact geo.slide here rfl (by omega) ⟨by omega,by omega,by omega,by omega⟩ (fun _ _ same => by cases same)
      (.inl (Nat.le_refl _))
  | count here positive left right =>
    have bounds := geo.window here
    exact geo.slide here rfl (by omega) ⟨by omega,by omega,by omega,by omega⟩ (fun _ _ same => by cases same)
      (.inl (Nat.le_refl _))
  | reachEnd here positive last =>
    exact geo.slide here rfl (by omega) ⟨by omega,by omega,by omega,by omega⟩ (fun _ _ same => by cases same)
      (.inl (Nat.le_refl _))
  | walk here before =>
    have bounds := geo.window here
    have limits := geo.reach here
    refine geo.slide here rfl (by omega) ⟨by omega,by omega,by omega,by omega⟩ ?_ (.inl (Nat.le_refl _))
    intro kind k same
    cases same
    exact ⟨by omega,limits.2⟩
  | keep here left right refused =>
    have bounds := geo.window here
    exact geo.slide here rfl (Nat.le_refl _) bounds (fun _ _ same => by cases same) (.inl (Nat.le_refl _))
  | @swap t i k x y kind here left right accepted =>
    have bounds := geo.window here
    have moved : Geometry v (c.setPhase t (.inside i k (k+3) (.done .exclusive (.swapped true)))) :=
      geo.slide here rfl (Nat.le_refl _) bounds (fun _ _ same => by cases same) (.inl (Nat.le_refl _))
    exact moved.of_items (exchange_length _ _)
  | @finish t i lo hi mode outcome here =>
    have kept : Geometry v (c.setPhase t .idle) :=
      geo.outside (fun _ _ _ _ => by simp) (fun _ _ same => by cases same)
    exact ⟨kept.nonempty,kept.ticket,kept.window,kept.reach,kept.fits,kept.apart⟩

/-! ### Serializability -/

/-- What the operation with the given number still has to do, if the thread in
    this phase is inside it. -/
def Phase.restOf (value : Nat → List Char) (i : Nat) : Phase → Option (List Nat → List Nat × Option Outcome)
  | .inside j lo _ job => if j = i then some (job.rest value lo) else none
  | _ => none

/-- What the operation with the given number still has to do: nothing when it is
    over, and then its outcome is known. -/
def Convoy.rest (value : Nat → List Char) (c : Convoy) (i : Nat) : List Nat → List Nat × Option Outcome :=
  match c.order[i]? with
  | some (t,_) => ((c.phase t).restOf value i).getD fun l => (l,c.outcome i)
  | none => fun l => (l,c.outcome i)

def Convoy.rests (value : Nat → List Char) (c : Convoy) : List (List Nat → List Nat × Option Outcome) :=
  (List.range c.order.length).map (c.rest value)

/-- Completing the operations inside the list, in the order of their entry, gives
    the serial execution of all operations so far. -/
def Serial (value : Nat → List Char) (items : List Nat) (c : Convoy) : Prop :=
  completeAll (c.rests value) c.items = completeAll (c.order.map fun entry => (Job.ofOp entry.2).rest value 0) items

theorem rest_inside (geo : Geometry v c) {t i lo hi : Nat} {job : Job} (here : c.phase t = .inside i lo hi job) :
    c.rest value i = job.rest value lo := by
  obtain ⟨op,at'⟩ := geo.ticket here
  simp [Convoy.rest,at',here,Phase.restOf]

/-- What an operation has to do depends on its own thread only. -/
theorem rest_congr {c' : Convoy} {j : Nat} (order : c'.order[j]? = c.order[j]?) (outcome : c'.outcome j = c.outcome j)
    (phase : ∀ t, (c'.phase t).restOf value j = (c.phase t).restOf value j) : c'.rest value j = c.rest value j := by
  simp only [Convoy.rest,order,outcome,phase]

theorem restOf_setPhase {t j : Nat} {phase : Phase} (same : phase.restOf value j = (c.phase t).restOf value j) :
    ∀ u, ((c.setPhase t phase).phase u).restOf value j = (c.phase u).restOf value j := by
  intro u
  by_cases isT : u = t
  · subst isT; rw [setPhase_self,same]
  · rw [setPhase_other _ _ isT]

theorem restOf_other {i j lo hi : Nat} {job : Job} (other : j ≠ i) :
    (Phase.inside i lo hi job).restOf value j = none := by
  simp [Phase.restOf,other.symm]

/-- An operation whose window begins at `lo` touches nothing before `lo`. -/
theorem job_beyond {p lo : Nat} {job : Job} (behind : p ≤ lo) (reach : ∀ kind k, job = .swap kind k → lo ≤ k) :
    Beyond p (job.rest value lo) := by
  cases job with
  | search kind n =>
    refine ⟨fun back => (back,some (.pairs (n + countPairs (searchTest value kind) (back.drop (max lo 1 - p))))),
      fun _ => rfl,?_⟩
    intro front back size
    have : front.length ≤ max lo 1 := by omega
    simp only [Job.rest,List.drop_append,List.drop_eq_nil_of_le this,List.nil_append,size]
  | swap kind k =>
    have atK : lo ≤ k := reach kind k rfl
    refine ⟨fun back => if holdsAt (swapTest value kind) (k+1-p) back then
      (exchange (k+1-p) back,some (.swapped true)) else (back,some (.swapped false)),?_,?_⟩
    · intro back; dsimp only; split <;> simp
    · intro front back size
      have beyond : front.length ≤ k+1 := by omega
      simp only [Job.rest,holdsAt_append_right beyond,exchange_append_right beyond,size]
      split <;> rfl
  | done mode outcome => exact ⟨fun back => (back,some outcome),fun _ => rfl,fun _ _ _ => rfl⟩

theorem over_beyond (p : Nat) (outcome : Option Outcome) : Beyond p fun l : List Nat => (l,outcome) :=
  ⟨fun back => (back,outcome),fun _ => rfl,fun _ _ _ => rfl⟩

/-- An earlier operation is over or still inside. -/
theorem rest_cases (value : Nat → List Char) (c : Convoy) (j : Nat) :
    c.rest value j = (fun l => (l,c.outcome j)) ∨
      ∃ u lo hi job, c.phase u = .inside j lo hi job ∧ c.rest value j = job.rest value lo := by
  unfold Convoy.rest
  cases c.order[j]? with
  | none => exact .inl rfl
  | some entry =>
    obtain ⟨u,op⟩ := entry
    cases phase : c.phase u with
    | idle => exact .inl (by simp [Phase.restOf,phase])
    | waiting op => exact .inl (by simp [Phase.restOf,phase])
    | inside i lo hi job =>
      by_cases same : i = j
      · subst same
        exact .inr ⟨u,lo,hi,job,phase,by simp [Phase.restOf,phase]⟩
      · exact .inl (by simp [Phase.restOf,phase,same])

/-- Operations that entered before an exclusive one lie beyond its window. -/
theorem earlier_beyond (geo : Geometry v c) {t i lo hi j : Nat} {job : Job} (here : c.phase t = .inside i lo hi job)
    (exclusive : job.mode v = .exclusive) (before : j < i) : Beyond hi (c.rest value j) := by
  rcases rest_cases value c j with ended | ⟨u,l,h,jb,there,inside⟩
  · rw [ended]; exact over_beyond hi _
  · rw [inside]
    exact job_beyond (geo.apart there here before (.inr exclusive)) (fun kind k same => (geo.reach (same ▸ there)).1)

/-- Operations that entered before another one change nothing in its window. -/
theorem earlier_keeps (geo : Geometry v c) {t i lo hi j : Nat} {job : Job} (here : c.phase t = .inside i lo hi job)
    (before : j < i) : Keeps hi (c.rest value j) := by
  rcases rest_cases value c j with ended | ⟨u,l,h,jb,there,inside⟩
  · rw [ended]; exact (over_beyond hi _).keeps
  · rw [inside]
    cases jb with
    | search kind n => intro front back _; exact ⟨back,rfl,rfl⟩
    | done mode outcome => intro front back _; exact ⟨back,rfl,rfl⟩
    | swap kind k =>
      exact (job_beyond (geo.apart there here before (.inl rfl))
        (fun kind k same => (geo.reach (same ▸ there)).1)).keeps

theorem range_split {n i : Nat} (inside : i < n) : ∃ post, List.range n = List.range i ++ i :: post ∧
    ∀ j ∈ post, i < j := by
  obtain ⟨m,rfl⟩ : ∃ m, n = i+1+m := ⟨n-(i+1),by omega⟩
  refine ⟨(List.range m).map (i+1+·),?_,?_⟩
  · rw [List.range_add,List.range_succ,List.append_assoc]; rfl
  · intro j member
    obtain ⟨k,_,rfl⟩ := List.mem_map.mp member
    omega

/-- A move of the operation with number `i` leaves what the others have to do. -/
theorem rests_split (value : Nat → List Char) (c' : Convoy) {i : Nat} (inside : i < c.order.length)
    (order : c'.order.length = c.order.length)
    (others : ∀ j, j ≠ i → c'.rest value j = c.rest value j) :
    ∃ pre post, (∀ r ∈ pre, ∃ j, j < i ∧ r = c.rest value j) ∧ c.rests value = pre ++ c.rest value i :: post ∧
      c'.rests value = pre ++ c'.rest value i :: post := by
  obtain ⟨later,split,after⟩ := range_split inside
  refine ⟨(List.range i).map (c.rest value),later.map (c.rest value),?_,?_,?_⟩
  · intro r member
    obtain ⟨j,below,rfl⟩ := List.mem_map.mp member
    exact ⟨j,List.mem_range.mp below,rfl⟩
  · simp only [Convoy.rests,split,List.map_append,List.map_cons]
  · have before : (List.range i).map (c'.rest value) = (List.range i).map (c.rest value) :=
      List.map_congr_left fun j member => others j (Nat.ne_of_lt (List.mem_range.mp member))
    have behind : later.map (c'.rest value) = later.map (c.rest value) :=
      List.map_congr_left fun j member => others j (Nat.ne_of_gt (after j member))
    simp only [Convoy.rests,order,split,List.map_append,List.map_cons,before,behind]

/-- A move that changes neither the list nor what any operation has to do. -/
theorem Serial.same {items : List Nat} (serial : Serial value items c) {c' : Convoy} (order : c'.order = c.order)
    (list : c'.items = c.items) (rest : ∀ j, c'.rest value j = c.rest value j) : Serial value items c' := by
  have rests : c'.rests value = c.rests value := by
    simp only [Convoy.rests,order]
    exact List.map_congr_left fun j _ => rest j
  unfold Serial at serial ⊢
  rw [rests,list,order]
  exact serial

theorem ticket_inside (geo : Geometry v c) {t i lo hi : Nat} {job : Job} (here : c.phase t = .inside i lo hi job) :
    i < c.order.length := by
  obtain ⟨op,at'⟩ := geo.ticket here
  exact (List.getElem?_eq_some_iff.mp at').1

/-- A new phase inside the list changes only what its own operation has to do. -/
theorem rest_setPhase {t i lo hi lo' hi' j : Nat} {job job' : Job} (here : c.phase t = .inside i lo hi job)
    (other : j ≠ i) : (c.setPhase t (.inside i lo' hi' job')).rest value j = c.rest value j :=
  rest_congr rfl rfl (restOf_setPhase (by rw [here,restOf_other other,restOf_other other]))

theorem Serial.slide {items : List Nat} (serial : Serial value items c) {t i lo hi lo' hi' : Nat} {job job' : Job}
    (here : c.phase t = .inside i lo hi job) (same : job'.rest value lo' = job.rest value lo) :
    Serial value items (c.setPhase t (.inside i lo' hi' job')) := by
  refine serial.same rfl rfl fun j => ?_
  by_cases own : j = i
  · subst own
    exact rest_congr rfl rfl (restOf_setPhase (by simp [here,Phase.restOf,same]))
  · exact rest_setPhase here own

/-- An operation advances past what its window holds. -/
theorem Serial.advance {items : List Nat} (serial : Serial value items c) (geo : Geometry v c)
    {t i lo hi lo' hi' : Nat} {job job' : Job} (here : c.phase t = .inside i lo hi job)
    (geo' : Geometry v (c.setPhase t (.inside i lo' hi' job')))
    (agree : ∀ l : List Nat, l.length = c.items.length → (∀ p, p < hi → l[p]? = c.items[p]?) →
      job.rest value lo l = job'.rest value lo' l) :
    Serial value items (c.setPhase t (.inside i lo' hi' job')) := by
  obtain ⟨pre,post,earlier,before,after⟩ :=
    rests_split value (c.setPhase t (.inside i lo' hi' job')) (ticket_inside geo here) rfl
      (fun j other => rest_setPhase here other)
  have moved : (c.setPhase t (.inside i lo' hi' job')).rest value i = job'.rest value lo' :=
    rest_inside geo' (setPhase_self _ _ _)
  rw [rest_inside geo here] at before
  rw [moved] at after
  have inside := (geo.window here).2.2.1
  have split : c.items = c.items.take hi ++ c.items.drop hi := (List.take_append_drop hi c.items).symm
  have size : (c.items.take hi).length = hi := by rw [List.length_take]; omega
  have keeps : ∀ r ∈ pre, Keeps hi r := by
    intro r member
    obtain ⟨j,below,rfl⟩ := earlier r member
    exact earlier_keeps geo here below
  unfold Serial at serial ⊢
  show completeAll ((c.setPhase t (.inside i lo' hi' job')).rests value) c.items = _
  rw [after]
  rw [before,split,completeAll_advance size keeps,← split] at serial
  · exact serial
  · intro back' long
    refine agree _ ?_ ?_
    · rw [List.length_append,long,size,List.length_drop]; omega
    · intro p below
      rw [List.getElem?_append_left (by omega),List.getElem?_take_of_lt below]

/-- An exchange commutes with everything that earlier operations still have to
    do, since they lie beyond its window. -/
theorem Serial.swap {items : List Nat} (serial : Serial value items c) (geo : Geometry v c) {t i k x y : Nat}
    {kind : Swapper} (here : c.phase t = .inside i k (k+3) (.swap kind k)) (left : c.items[k+1]? = some x)
    (right : c.items[k+2]? = some y) (accepted : swapTest value kind x y = true) :
    Serial value items { c.setPhase t (.inside i k (k+3) (.done .exclusive (.swapped true))) with
      items := exchange (k+1) c.items } := by
  obtain ⟨pre,post,earlier,before,after⟩ :=
    rests_split value (c.setPhase t (.inside i k (k+3) (.done .exclusive (.swapped true)))) (ticket_inside geo here) rfl
      (fun j other => rest_setPhase here other)
  have geo' : Geometry v (c.setPhase t (.inside i k (k+3) (.done .exclusive (.swapped true)))) :=
    geo.slide here rfl (Nat.le_refl _) (geo.window here) (fun _ _ same => by cases same) (.inl (Nat.le_refl _))
  rw [rest_inside geo here] at before
  rw [rest_inside geo' (setPhase_self _ _ _)] at after
  have inside := (geo.window here).2.2.1
  have split : c.items = c.items.take (k+3) ++ c.items.drop (k+3) := (List.take_append_drop (k+3) c.items).symm
  have size : (c.items.take (k+3)).length = k+3 := by rw [List.length_take]; omega
  have beyond : ∀ r ∈ pre, Beyond (k+3) r := by
    intro r member
    obtain ⟨j,below,rfl⟩ := earlier r member
    exact earlier_beyond geo here rfl below
  have agree : ∀ back', (Job.swap kind k).rest value k (c.items.take (k+3) ++ back') =
      (Job.done .exclusive (.swapped true)).rest value k (exchange (k+1) (c.items.take (k+3)) ++ back') := by
    intro back'
    have holds : holdsAt (swapTest value kind) (k+1) (c.items.take (k+3) ++ back') = true := by
      rw [holdsAt_of_getElem (x := x) (y := y)]
      · exact accepted
      · rw [List.getElem?_append_left (by omega),List.getElem?_take_of_lt (by omega),left]
      · rw [List.getElem?_append_left (by omega),List.getElem?_take_of_lt (by omega),right]
    simp only [Job.rest,holds,if_true]
    rw [exchange_append_left (by omega)]
  unfold Serial at serial ⊢
  show completeAll ((c.setPhase t (.inside i k (k+3) (.done .exclusive (.swapped true)))).rests value)
    (exchange (k+1) c.items) = _
  have moved : exchange (k+1) c.items = exchange (k+1) (c.items.take (k+3)) ++ c.items.drop (k+3) := by
    rw [← exchange_append_left (by omega),← split]
  rw [after,moved,← completeAll_commute size (by rw [exchange_length,size]) beyond agree,← split,← before]
  exact serial

/-- A new operation has everything to do, after all others. -/
theorem Serial.enter {items : List Nat} (serial : Serial value items c) {t : Nat} {op : Op}
    (asked : c.phase t = .waiting op) :
    Serial value items { c.setPhase t (.inside c.order.length 0 1 (.ofOp op)) with order := c.order ++ [(t,op)] } := by
  have old : ∀ j, j < c.order.length →
      Convoy.rest value { c.setPhase t (.inside c.order.length 0 1 (.ofOp op)) with order := c.order ++ [(t,op)] } j =
        c.rest value j := by
    intro j below
    refine rest_congr ?_ rfl ?_
    · exact List.getElem?_append_left below
    · apply restOf_setPhase
      rw [restOf_other (Nat.ne_of_lt below),asked]
      rfl
  have new :
      Convoy.rest value { c.setPhase t (.inside c.order.length 0 1 (.ofOp op)) with order := c.order ++ [(t,op)] }
        c.order.length = (Job.ofOp op).rest value 0 := by
    simp [Convoy.rest,setPhase_self,Phase.restOf]
  unfold Serial at serial ⊢
  have rests : Convoy.rests value
      { c.setPhase t (.inside c.order.length 0 1 (.ofOp op)) with order := c.order ++ [(t,op)] } =
        c.rests value ++ [(Job.ofOp op).rest value 0] := by
    simp only [Convoy.rests,List.length_append,List.length_singleton,List.range_succ,List.map_append,
      List.map_singleton,new]
    congr 1
    exact List.map_congr_left fun j member => old j (List.mem_range.mp member)
  rw [rests,List.map_append,completeAll_append,completeAll_append]
  show _ = _
  rw [show ({ c.setPhase t (.inside c.order.length 0 1 (.ofOp op)) with order := c.order ++ [(t,op)] } : Convoy).items =
    c.items from rfl,serial]
  rfl

/-- An operation that is over leaves its outcome. -/
theorem Serial.finish {items : List Nat} (serial : Serial value items c) (geo : Geometry v c) {t i lo hi : Nat}
    {mode : Mode} {outcome : Outcome} (here : c.phase t = .inside i lo hi (.done mode outcome)) :
    Serial value items { c.setPhase t .idle with outcome := Function.update c.outcome i (some outcome) } := by
  refine serial.same rfl rfl fun j => ?_
  by_cases own : j = i
  · subst own
    rw [rest_inside geo here]
    obtain ⟨op,at'⟩ := geo.ticket here
    have atC : (c.setPhase t .idle).order[j]? = some (t,op) := at'
    simp [Convoy.rest,atC,setPhase_self,Phase.restOf]
    rfl
  · refine rest_congr rfl ?_ ?_
    · exact Function.update_of_ne own _ _
    · apply restOf_setPhase
      rw [here,restOf_other own]
      rfl

theorem serial_move {c' : Convoy} {items : List Nat} (serial : Serial value items c) (geo : Geometry v c)
    (move : Move v value c c') : Serial value items c' := by
  have geo' := geometry_move geo move
  cases move with
  | @ask t op top fits =>
    refine serial.same rfl rfl fun j => rest_congr rfl rfl (restOf_setPhase ?_)
    rw [top]
    rfl
  | enter asked free => exact serial.enter asked
  | extend here more reaches free => exact serial.slide here rfl
  | leaveHead here => exact serial.slide here rfl
  | @count t i lo n x y kind here positive left right =>
    apply serial.advance geo here geo'
    intro l long same
    have inside := geo.window here
    have leftL : l[lo]? = some x := by rw [same lo (by omega),left]
    have rightL : l[lo+1]? = some y := by rw [same (lo+1) (by omega),right]
    have atLo : max lo 1 = lo := by omega
    have atNext : max (lo+1) 1 = lo+1 := by omega
    simp only [Job.rest,atLo,atNext,countPairs_drop _ leftL rightL]
    split <;> simp [Nat.add_assoc]
  | @reachEnd t i lo n kind here positive last =>
    apply serial.advance geo here geo'
    intro l long _
    have atLo : max lo 1 = lo := by omega
    simp only [Job.rest,atLo]
    rw [countPairs_last _ (by omega)]
    rfl
  | walk here before => exact serial.slide here rfl
  | @keep t i k x y kind here left right refused =>
    apply serial.advance geo here geo'
    intro l long same
    have leftL : l[k+1]? = some x := by rw [same (k+1) (by omega),left]
    have rightL : l[k+1+1]? = some y := by rw [same (k+2) (by omega),right]
    simp [Job.rest,holdsAt_of_getElem leftL rightL,refused]
  | swap here left right accepted => exact serial.swap geo here left right accepted
  | finish here => exact serial.finish geo here

theorem serial_initial (value : Nat → List Char) (items : List Nat) : Serial value items (initial items) := rfl

/-- The list stays a rearrangement of the first one, with the same head. -/
theorem items_move {c' : Convoy} (move : Move v value c c') :
    c'.items.Perm c.items ∧ c'.items[0]? = c.items[0]? := by
  cases move with
  | swap here left right accepted => exact ⟨exchange_perm _ _,exchange_other _ (by omega) (by omega)⟩
  | _ => exact ⟨.refl _,rfl⟩

/-! ### The completed run against the serial meaning -/

/-- An operation that has everything to do acts on the nodes behind the head as
    its serial meaning says. -/
theorem job_start (value : Nat → List Char) (op : Op) (head : Nat) (nodes : List Nat) :
    (Job.ofOp op).rest value 0 (head :: nodes) =
      (head :: (serialOp value op nodes).1,some (serialOp value op nodes).2) := by
  cases op with
  | search kind => simp [Job.ofOp,Job.rest,serialOp]
  | swap kind k =>
    have shifted : holdsAt (swapTest value kind) (k+1) (head :: nodes) = holdsAt (swapTest value kind) k nodes := by
      simp [holdsAt]
    simp only [Job.ofOp,Job.rest,serialOp,shifted,exchange_succ]
    split <;> rfl

theorem starts_serially (value : Nat → List Char) (ops : List (Nat × Op)) (head : Nat) (nodes : List Nat) :
    completeAll (ops.map fun entry => (Job.ofOp entry.2).rest value 0) (head :: nodes) =
      (head :: (serially value (ops.map Prod.snd) nodes).1,
        (serially value (ops.map Prod.snd) nodes).2.map some) := by
  induction ops generalizing nodes with
  | nil => rfl
  | cons entry later ih =>
    simp only [List.map_cons,completeAll,job_start,ih]
    rfl

/-- An operation whose outcome is settled has the outcome of the serial execution. -/
theorem convoy_outcome {head : Nat} {nodes : List Nat} (serial : Serial value (head :: nodes) c) {j : Nat}
    {outcome : Option Outcome} (entered : j < c.order.length) (settled : ∀ l, (c.rest value j l).2 = outcome) :
    (serially value (c.order.map Prod.snd) nodes).2[j]? = outcome := by
  have here : (c.rests value)[j]? = some (c.rest value j) := by simp [Convoy.rests,entered]
  have result := completeAll_result here settled c.items
  rw [serial,starts_serially,List.getElem?_map,Option.map_eq_some_iff] at result
  obtain ⟨o,at',rfl⟩ := result
  exact at'

/-- While no operation is going to change the list, it is the one that the serial
    execution leaves. -/
theorem convoy_items {head : Nat} {nodes : List Nat} (serial : Serial value (head :: nodes) c)
    (still : ∀ j, (c.rest value j c.items).1 = c.items) :
    c.items = head :: (serially value (c.order.map Prod.snd) nodes).1 := by
  have left : (completeAll (c.rests value) c.items).1 = c.items := by
    refine completeAll_still fun rest member => ?_
    obtain ⟨j,_,rfl⟩ := List.mem_map.mp member
    exact still j
  rw [← left,serial,starts_serially]

/-- Once no operation is inside, the list and the outcomes are those of the
    serial execution in the order of entry. -/
theorem convoy_serial {head : Nat} {nodes : List Nat} (serial : Serial value (head :: nodes) c)
    (quiet : ∀ t, c.phase t = .idle) :
    c.items = head :: (serially value (c.order.map Prod.snd) nodes).1 ∧
      (List.range c.order.length).map c.outcome = (serially value (c.order.map Prod.snd) nodes).2.map some := by
  have ended : ∀ j, c.rest value j = fun l => (l,c.outcome j) := by
    intro j
    rcases rest_cases value c j with ended | ⟨u,lo,hi,job,there,_⟩
    · exact ended
    · rw [quiet u] at there; cases there
  have completed : ∀ (js : List Nat) (l : List Nat),
      completeAll (js.map (c.rest value)) l = (l,js.map c.outcome) := by
    intro js
    induction js with
    | nil => intro l; rfl
    | cons j js ih => intro l; simp only [List.map_cons,completeAll,ended,ih]
  unfold Serial at serial
  rw [Convoy.rests,completed,starts_serially] at serial
  exact ⟨congrArg Prod.fst serial,congrArg Prod.snd serial⟩

end Os5Sem.ListConvoy

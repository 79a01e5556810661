import Mathlib.Algebra.BigOperators.Group.Finset.Piecewise
import Os5Sem.ListLedger
import Os5Sem.ListSafety

/-!
How much the threads of the list programs work. Whatever the others do meanwhile,
an iteration of `search_pairs` and a call of `swap_pairs` take a number of own
steps that depends on the length of the list, the index and the outcome only
(`exact_work`), and once `stop` has been called the threads come to an end
(`stop_ends`).
-/
namespace Os5Sem.ListWork
open Os5Sem.Chains Os5Sem.ListStorage Os5Sem.ListProgram Os5Sem.ListLocks Os5Sem.ListConvoy Os5Sem.ListRefine
open Os5Sem.ListOrder Os5Sem.ListSerializable Os5Sem.SwapCounters Os5Sem.ListLedger Os5Sem.ListSafety

/-! ### What an operation costs -/

/-- The own steps of an operation with the given outcome, on a list of `n` nodes. -/
def cost (n : Nat) : Op → Outcome → Nat
  | .search _,.pairs m => if m = 0 then 3*n+4 else 3*n+5
  | .swap _ k,.swapped decision => if decision then 3*k+14 else 3*k+9
  | _,_ => 0

/-- The steps that a search has taken, when the rear of its window is at `lo`. -/
def searchSpent (lo : Nat) : SearchPc → Nat
  | .lockFirst | .unlockSingle | .countSingle => 0
  | .readFirst => 1
  | .lockA _ => 2
  | .unlockFirst _ => 3
  | .readB _ _ => 3*lo+1
  | .lockB _ _ _ | .unlockLast _ _ => 3*lo+2
  | .unlockA _ _ _ => 3*lo+3
  | .addPairs _ => 3*lo
  | .addIteration m => if m = 0 then 3*lo else 3*lo+1

def nodesSpent : NodesPc → Nat
  | .storePrev => 0
  | .loadRight => 1
  | .storeLeft _ => 2
  | .storeRight => 3

/-- The steps that a swap at index `k` has taken. -/
def swapSpent (k : Nat) : SwapPc → Nat
  | .lockPrev | .unlockNoCur | .unlockNoNextCur _ _ | .unlockNoNextPrev _ => 0
  | .readCur => 1
  | .lockCur _ => 2
  | .readStep _ _ i => 3*i+3
  | .lockStep _ _ _ i => 3*i+4
  | .unlockStep _ _ _ i => 3*i+5
  | .readNext _ _ => 3*k+3
  | .lockNext _ _ _ => 3*k+4
  | .compare _ _ _ => 3*k+5
  | .swapNodes _ _ _ pc => 3*k+6 + nodesSpent pc
  | .addSwap _ _ _ => 3*k+10
  | .unlockNext _ _ _ decision => if decision then 3*k+11 else 3*k+6
  | .unlockCur _ _ decision => if decision then 3*k+12 else 3*k+7
  | .unlockPrev _ decision => if decision then 3*k+13 else 3*k+8

def spent (lo : Nat) : Pc → Nat
  | .idle => 0
  | .search _ pc => searchSpent lo pc
  | .swap _ k pc => swapSpent k pc

/-- The rear of an operation's window. -/
def rear : Phase → Nat
  | .inside _ lo _ _ => lo
  | _ => 0

theorem spent_outside {pc : Pc} {lo : Nat} (outside : opOf pc = none) : spent lo pc = 0 := by
  cases pc with
  | idle => rfl
  | search kind pc => cases pc <;> first | rfl | cases outside
  | swap kind k pc => cases pc <;> first | rfl | cases outside

variable {v : Variant} {s : Storage} {value : Nat → List Char} {nodes : List Nat} {σ σ' : State} {c c' : Convoy}

/-- A step of the thread is paid for: it is still inside its operation, for which it
    has taken one step more, or it has left it with the last step that it costs. -/
abbrev Paid (s : Storage) (σ σ' : State) (c c' : Convoy) (t : Nat) : Prop :=
  Earns (fun _ => cost s.size) (fun u => spent (rear (c.phase u)) (σ.pc u))
    (fun u => spent (rear (c'.phase u)) (σ'.pc u)) σ σ' t 0 1

/-- A search leaves the list as it is. -/
theorem items_of_search {t : Nat} {kind : Searcher} {pc : SearchPc} (advances : Advances v value (some t) c c')
    (fit : Fits v value c'.items σ'.next (.search kind pc) (c'.phase t)) : c'.items = c.items := by
  rcases advances.items with same | ⟨u,i,lo,hi,who,swapped⟩
  · exact same
  · cases who
    generalize c'.phase t = phase at fit swapped
    cases fit <;> simp at swapped

/-- A search adds no pairs when it has found none. -/
def AddsPairs (σ : State) : Prop := ∀ t kind, σ.pc t ≠ .search kind (.addPairs 0)

theorem search_paid {t : Nat} {kind : Searcher} {pc : SearchPc} (ref : Refines v s value σ c)
    (ref' : Refines v s value σ' c') (advances : Advances v value (some t) c c') (adds : AddsPairs σ)
    (here : σ.pc t = .search kind pc) (taken : searchPairs v s value kind t σ pc = some σ') : Paid s σ σ' c c' t := by
  have fit := ref.fits t
  have fit' := ref'.fits t
  have size := ref.size
  rw [here] at fit
  have paid : ∀ {pc' : SearchPc}, σ'.pc t = .search kind pc' → pc' ≠ .lockFirst →
      searchSpent (rear (c'.phase t)) pc' = searchSpent (rear (c.phase t)) pc + 1 → Paid s σ σ' c c' t := by
    intro pc' goes other more
    refine .inside ?_ (by simp only [goes,here,spent]; omega)
    rw [goes]
    cases pc' <;> first | exact absurd rfl other | simp [opOf]
  -- The search does not change the list, on which its node tells where it is.
  have still : ∀ {pc' : SearchPc}, σ'.pc t = .search kind pc' → c'.items = c.items := by
    intro pc' goes
    rw [goes] at fit'
    exact items_of_search advances fit'
  have at_node : ∀ {pc' : SearchPc} {p p' x : Nat}, σ'.pc t = .search kind pc' → c.items[p]? = some x →
      c'.items[p']? = some x → p' = p := by
    intro pc' p p' x goes before after
    rw [still goes] at after
    exact position_unique ref.distinct after before
  generalize before : c.phase t = phase at fit
  cases fit with
  | searchAsk =>
    obtain ⟨σ1,granted,rfl⟩ := Option.map_eq_some_iff.mp taken
    exact paid goto_self (by simp) rfl
  | readFirst =>
    simp only [searchPairs] at taken
    split at taken <;> cases taken
    · rw [goto_self] at fit'
      cases fit'
    · exact paid goto_self (by simp) rfl
  | lockA ahead =>
    obtain ⟨σ1,granted,rfl⟩ := Option.map_eq_some_iff.mp taken
    exact paid goto_self (by simp) rfl
  | unlockFirst second =>
    cases taken
    refine paid goto_self (by simp) ?_
    rw [goto_self] at fit'
    generalize after : c'.phase t = phase at fit'
    cases fit' with
    | readB positive node =>
      obtain rfl := at_node goto_self second node
      rfl
  | readB positive node =>
    simp only [searchPairs] at taken
    split at taken <;> cases taken <;> refine paid goto_self (by simp) ?_ <;> rw [goto_self] at fit' <;>
      generalize after : c'.phase t = phase at fit'
    · cases fit' with
      | unlockLast _ node' _ =>
        obtain rfl := at_node goto_self node node'
        rw [before]
        rfl
    · cases fit' with
      | lockB _ node' _ =>
        obtain rfl := at_node goto_self node node'
        rw [before]
        rfl
  | unlockLast positive node last =>
    simp only [searchPairs] at taken
    split at taken <;> rename_i found <;> cases taken <;> have same := still goto_self <;>
      refine paid goto_self (by simp) ?_ <;> rw [goto_self] at fit' <;> generalize after : c'.phase t = phase at fit'
    · cases fit' with
      | addIteration beyond =>
        rw [same] at beyond
        simp only [searchSpent,rear,before,if_pos found]
        omega
    · cases fit' with
      | addPairs beyond =>
        rw [same] at beyond
        simp only [searchSpent,rear,before]
        omega
  | lockB positive node ahead =>
    obtain ⟨σ1,granted,rfl⟩ := Option.map_eq_some_iff.mp taken
    refine paid goto_self (by simp) ?_
    rw [goto_self] at fit'
    generalize after : c'.phase t = phase at fit'
    cases fit' with
    | unlockA _ node' _ =>
      obtain rfl := at_node goto_self node node'
      rw [before]
      rfl
  | unlockA positive node ahead =>
    cases taken
    refine paid goto_self (by simp) ?_
    rw [goto_self] at fit'
    generalize after : c'.phase t = phase at fit'
    cases fit' with
    | readB _ node' =>
      obtain rfl := at_node goto_self ahead node'
      simp only [searchSpent,rear,before]
      omega
  | @addPairs _ _ _ n beyond =>
    have found : n ≠ 0 := fun none => adds t kind (none ▸ here)
    cases taken
    have same := still goto_self
    refine paid goto_self (by simp) ?_
    rw [goto_self] at fit'
    generalize after : c'.phase t = phase at fit'
    cases fit' with
    | addIteration beyond' =>
      rw [same] at beyond'
      simp only [searchSpent,rear,before,if_neg found]
      omega
  | @addIteration _ _ _ n beyond =>
    cases taken
    refine .leaves (.search kind) (.pairs n) (by rw [here]; rfl) ?_ ?_ ?_
    · simp [State.leave,State.goto]
    · exact Function.update_self ..
    · simp only [here,cost,spent,searchSpent,rear,before]
      split <;> omega

/-- The walk of a swap has three steps for each node. -/
theorem walk_spent {k prev cur i : Nat} (before : i ≤ k) : swapSpent k (walk k prev cur i) = 3*i+3 := by
  unfold walk
  split
  · rfl
  · have : i = k := by omega
    simp [swapSpent,this]

theorem swap_paid {t k : Nat} {kind : Swapper} {pc : SwapPc} (ref : Refines v s value σ c)
    (ref' : Refines v s value σ' c') (here : σ.pc t = .swap kind k pc)
    (taken : swapPairs s value kind k t σ pc = some σ') : Paid s σ σ' c c' t := by
  have fit := ref.fits t
  have fit' := ref'.fits t
  rw [here] at fit
  have paid : ∀ {pc' : SwapPc}, σ'.pc t = .swap kind k pc' → pc' ≠ .lockPrev →
      swapSpent k pc' = swapSpent k pc + 1 → Paid s σ σ' c c' t := by
    intro pc' goes other more
    refine .inside ?_ (by simp only [goes,here,spent]; omega)
    rw [goes]
    cases pc' <;> first | exact absurd rfl other | simp [opOf]
  have walked : ∀ prev cur i, walk k prev cur i ≠ .lockPrev := by
    intro prev cur i
    unfold walk
    split <;> simp
  generalize before : c.phase t = phase at fit
  cases fit with
  | swapAsk =>
    obtain ⟨σ1,granted,rfl⟩ := Option.map_eq_some_iff.mp taken
    exact paid goto_self (by simp) rfl
  | readCur =>
    simp only [swapPairs] at taken
    split at taken <;> cases taken
    · rw [goto_self] at fit'
      cases fit'
    · exact paid goto_self (by simp) rfl
  | lockCur ahead =>
    obtain ⟨σ1,granted,rfl⟩ := Option.map_eq_some_iff.mp taken
    exact paid goto_self (walked _ _ _) (walk_spent (Nat.zero_le _))
  | @readStep _ _ _ _ _ cur _ atCur before' =>
    -- The walk ends before the last node, which has a successor.
    have successor := expects_successor (t := t) (x := cur) ref (by rw [here]; rfl)
    simp only [swapPairs] at taken
    split at taken <;> rename_i read <;> cases taken
    · rw [read] at successor
      cases successor
    · exact paid goto_self (by simp) rfl
  | lockStep =>
    obtain ⟨σ1,granted,rfl⟩ := Option.map_eq_some_iff.mp taken
    exact paid goto_self (by simp) rfl
  | unlockStep atPrev atCur atNext before' =>
    cases taken
    refine paid goto_self (walked _ _ _) ?_
    rw [walk_spent before']
    rfl
  | readNext =>
    simp only [swapPairs] at taken
    split at taken <;> cases taken
    · rw [goto_self] at fit'
      cases fit'
    · exact paid goto_self (by simp) rfl
  | lockNext =>
    obtain ⟨σ1,granted,rfl⟩ := Option.map_eq_some_iff.mp taken
    exact paid goto_self (by simp) rfl
  | compare =>
    simp only [swapPairs] at taken
    split at taken <;> cases taken <;> exact paid goto_self (by simp) rfl
  | storePrev => cases taken; exact paid goto_self (by simp) rfl
  | loadRight => cases taken; exact paid goto_self (by simp) rfl
  | storeLeft => cases taken; exact paid goto_self (by simp) rfl
  | storeRight => cases taken; exact paid goto_self (by simp) rfl
  | addSwap => cases taken; exact paid goto_self (by simp) rfl
  | @unlockNext _ _ _ _ _ _ decision =>
    cases taken
    exact paid goto_self (by simp) (by cases decision <;> rfl)
  | @unlockCur _ _ _ _ _ decision =>
    cases taken
    exact paid goto_self (by simp) (by cases decision <;> rfl)
  | @unlockPrev _ _ _ _ decision =>
    cases taken
    refine .leaves (.swap kind k) (.swapped decision) (by rw [here]; rfl) ?_ ?_ ?_
    · simp [State.leave,State.goto]
    · exact Function.update_self ..
    · cases decision <;> simp [here,cost,spent,swapSpent] <;> omega

/-! ### Runs -/

theorem searchPairs_adds {t : Nat} {kind : Searcher} {pc : SearchPc}
    (taken : searchPairs v s value kind t σ pc = some σ') (kind' : Searcher) :
    σ'.pc t ≠ .search kind' (.addPairs 0) := by
  have other : ∀ {pc' : Pc}, σ'.pc t = pc' → pc' ≠ .search kind' (.addPairs 0) →
      σ'.pc t ≠ .search kind' (.addPairs 0) := by
    intro pc' is differs
    rwa [is]
  cases pc <;> simp only [searchPairs] at taken
  case lockFirst => exact other (lock_own taken fun _ => goto_self) (by simp)
  case lockA => exact other (lock_own taken fun _ => goto_self) (by simp)
  case lockB => exact other (lock_own taken fun _ => goto_self) (by simp)
  case unlockLast a n =>
    split at taken <;> rename_i found <;> cases taken
    · exact other goto_self (by simp)
    · exact other goto_self (by simp [found])
  all_goals
    try split at taken
    all_goals cases taken
    all_goals exact other goto_self (by simp)

theorem swapPairs_adds {t k : Nat} {kind : Swapper} {pc : SwapPc} (taken : swapPairs s value kind k t σ pc = some σ')
    (kind' : Searcher) : σ'.pc t ≠ .search kind' (.addPairs 0) := by
  have other : ∀ {pc' : Pc}, σ'.pc t = pc' → pc' ≠ .search kind' (.addPairs 0) →
      σ'.pc t ≠ .search kind' (.addPairs 0) := by
    intro pc' is differs
    rwa [is]
  cases pc <;> simp only [swapPairs] at taken
  case lockPrev => exact other (lock_own taken fun _ => goto_self) (by simp)
  case lockCur => exact other (lock_own taken fun _ => goto_self) (by simp)
  case lockStep => exact other (lock_own taken fun _ => goto_self) (by simp)
  case lockNext => exact other (lock_own taken fun _ => goto_self) (by simp)
  case swapNodes prev cur next pc => cases pc <;> cases taken <;> exact other goto_self (by simp)
  all_goals
    try split at taken
    all_goals cases taken
    all_goals exact other goto_self (by simp)

theorem adds_step {a : Act} (adds : AddsPairs σ) (taken : step v s value σ a = some σ') : AddsPairs σ' := by
  intro t kind
  by_cases mine : actor a = some t
  · cases step_cases taken with
    | search u kind' _ top => cases mine; rw [goto_self]; simp
    | swap u kind' randR _ top => cases mine; rw [goto_self]; simp
    | searching here taken => cases mine; exact searchPairs_adds taken kind
    | swapping here taken => cases mine; exact swapPairs_adds taken kind
    | stop => cases mine
  · rw [step_others mine taken]
    exact adds t kind

/-- What the operations of one thread have cost. -/
def costs (w n : Nat) (t : Nat) (op : Op) (result : Outcome) : Nat := if t = w then cost n op result else 0

/-- What the thread has taken for its current operation. -/
def pays (w : Nat) (σ : State) (c : Convoy) (t : Nat) : Nat := if t = w then spent (rear (c.phase t)) (σ.pc t) else 0

/-- The own steps of a thread, as the ledger has them. -/
def work (w n : Nat) (σ : State) (c : Convoy) : Nat := total (costs w n) (pays w σ c) σ

/-- What is known in every reachable state about the ledger. -/
structure Accounted (v : Variant) (s : Storage) (value : Nat → List Char) (nodes : List Nat) (σ : State) (c : Convoy) :
    Prop where
  stands : Stands v s value nodes σ c
  tallied : Tallied σ
  pending : Pending σ
  adds : AddsPairs σ

theorem paid_step {t : Nat} (ref : Refines v s value σ c) (ref' : Refines v s value σ' c')
    (advances : Advances v value (some t) c c') (adds : AddsPairs σ) (taken : step v s value σ (.step t) = some σ') :
    Paid s σ σ' c c' t := by
  generalize isStep : Act.step t = a at taken
  cases step_cases taken with
  | searching here taken => cases isStep; exact search_paid ref ref' advances adds here taken
  | swapping here taken => cases isStep; exact swap_paid ref ref' here taken
  | _ => cases isStep

theorem work_step {a : Act} (accounted : Accounted v s value nodes σ c) (taken : step v s value σ a = some σ') :
    ∃ c', Accounted v s value nodes σ' c' ∧
      ∀ w, work w s.size σ' c' = work w s.size σ c + if a = .step w then 1 else 0 := by
  obtain ⟨stands,tallied,pending,adds⟩ := accounted
  obtain ⟨c',advances,refines⟩ := advances_step stands.refines stands.locks taken
  refine ⟨c',⟨stands.advance taken advances.moved refines,tallied_step tallied taken,pending_step pending taken,
    adds_step adds taken⟩,fun w => ?_⟩
  cases who : actor a with
  | none =>
    cases a <;> cases who
    cases taken
    have same : pays w { σ with isRunning := false } c' = pays w σ c := by
      funext u
      rw [pays,pays,advances.others u (by simp [actor])]
    rw [work,same]
    rfl
  | some t =>
    have away : ∀ u, u ≠ t → actor a ≠ some u := by
      intro u other
      rw [who]
      exact fun same => other (Option.some.inj same).symm
    have others : ∀ u, u ≠ t → pays w σ' c' u = pays w σ c u := by
      intro u other
      rw [pays,pays,advances.others u (away u other),step_others (away u other) taken]
    have outside : ∀ {σ : State} {c : Convoy}, opOf (σ.pc t) = none → pays w σ c t = 0 := by
      intro σ c is
      rw [pays,spent_outside is,ite_self]
    have earns : Earns (costs w s.size) (pays w σ c) (pays w σ' c') σ σ' t 0 (if a = .step w then 1 else 0) := by
      by_cases isStep : a = .step t
      · subst isStep
        have paid := paid_step stands.refines refines advances adds taken
        by_cases isW : t = w
        · subst isW
          rw [if_pos rfl]
          cases paid with
          | outside before after same => exact .outside before after same
          | inside after more => exact .inside after (by simpa [pays] using more)
          | leaves op result here top ended last =>
            exact .leaves op result here top ended (by simpa [pays,costs] using last)
        · rw [if_neg fun same => isW (by cases same; rfl)]
          cases paid with
          | outside before after _ => exact .outside before after rfl
          | inside after _ => exact .inside after (by simp [pays,isW])
          | leaves op result here top ended _ => exact .leaves op result here top ended (by simp [pays,costs,isW])
      · obtain ⟨before,after⟩ := begins_outside who isStep taken
        refine .outside before after (if_neg fun is => isStep ?_)
        rw [is] at who
        rw [is,Option.some.inj who]
    have balance := total_earns tallied pending (entry_step who taken) others outside outside earns
    rw [work,work]
    omega

theorem work_run {acts : List Act} (ran : Transition.run (step v s value) σ acts = some σ')
    (accounted : Accounted v s value nodes σ c) :
    ∃ c', Accounted v s value nodes σ' c' ∧ ∀ w, work w s.size σ' c' = work w s.size σ c + acts.count (.step w) := by
  induction acts generalizing σ c with
  | nil => cases ran; exact ⟨c,accounted,fun w => by simp⟩
  | cons a acts ih =>
    obtain ⟨mid,taken,ran⟩ := Transition.run_cons.mp ran
    obtain ⟨c1,accounted1,one⟩ := work_step accounted taken
    obtain ⟨c2,accounted2,later⟩ := ih ran accounted1
    refine ⟨c2,accounted2,fun w => ?_⟩
    rw [later w,one w,List.count_cons]
    simp only [beq_iff_eq]
    omega

theorem start_accounted {h : Heap} (holds : Holds s h nodes) (two : 2 ≤ s.size) :
    Accounted v s value nodes (start h) (initial (s.first :: nodes)) where
  stands := ⟨start_refines holds two,start_locks s h,serial_initial value _,.refl _⟩
  tallied := start_tallied h
  pending := start_pending h
  adds _ _ is := by cases is

/-- What the operations of a thread that are over have cost together. -/
def finished (w n : Nat) (σ : State) : Nat := total (costs w n) (fun _ => 0) σ

/-- What an operation has taken is always less than `3n+8`: no operation costs more. -/
theorem spent_bound (ref : Refines v s value σ c) (t : Nat) : spent (rear (c.phase t)) (σ.pc t) < 3*s.size+8 := by
  have fit := ref.fits t
  have limit : ∀ {i lo hi job}, c.phase t = .inside i lo hi job → hi ≤ s.size+1 := by
    intro i lo hi job here
    rw [← ref.size]
    exact (ref.geometry.window here).2.2.1
  generalize σ.pc t = pc at fit ⊢
  generalize c.phase t = phase at fit limit ⊢
  cases fit <;> simp only [spent,searchSpent,swapSpent,nodesSpent,rear] <;> try omega
  all_goals
    have inside := limit rfl
    try split
    all_goals omega

/-- What a thread may still take. -/
def budget (s : Storage) (σ : State) (c : Convoy) (t : Nat) : Nat :=
  if σ.pc t = .idle then 0 else 3*s.size+8 - spent (rear (c.phase t)) (σ.pc t)

theorem lock_running {t x : Nat} {mode : Mode} {f : State → State} (taken : (σ.lock t x mode).map f = some σ')
    (keeps : ∀ σ : State, (f σ).isRunning = σ.isRunning) : σ'.isRunning = σ.isRunning := by
  obtain ⟨σ1,granted,rfl⟩ := Option.map_eq_some_iff.mp taken
  unfold State.lock at granted
  split at granted <;> cases granted
  exact keeps _

theorem searchPairs_running {t : Nat} {kind : Searcher} {pc : SearchPc}
    (taken : searchPairs v s value kind t σ pc = some σ') : σ'.isRunning = σ.isRunning := by
  cases pc <;> simp only [searchPairs] at taken
  case lockFirst => exact lock_running taken fun _ => rfl
  case lockA => exact lock_running taken fun _ => rfl
  case lockB => exact lock_running taken fun _ => rfl
  all_goals
    try split at taken
    all_goals cases taken
    all_goals rfl

theorem swapPairs_running {t k : Nat} {kind : Swapper} {pc : SwapPc}
    (taken : swapPairs s value kind k t σ pc = some σ') : σ'.isRunning = σ.isRunning := by
  cases pc <;> simp only [swapPairs] at taken
  case lockPrev => exact lock_running taken fun _ => rfl
  case lockCur => exact lock_running taken fun _ => rfl
  case lockStep => exact lock_running taken fun _ => rfl
  case lockNext => exact lock_running taken fun _ => rfl
  case swapNodes prev cur next pc => cases pc <;> cases taken <;> rfl
  all_goals
    try split at taken
    all_goals cases taken
    all_goals rfl

/-- After `stop` no operation begins, and every step uses up a part of a budget. -/
theorem budget_step {a : Act} (ref : Refines v s value σ c) (ref' : Refines v s value σ' c')
    (advances : Advances v value (actor a) c c') (adds : AddsPairs σ) (stopped : σ.isRunning = false)
    (taken : step v s value σ a = some σ') :
    σ'.isRunning = false ∧ ∀ t, budget s σ' c' t + (if a = .step t then 1 else 0) ≤ budget s σ c t := by
  have others : ∀ t, actor a ≠ some t → budget s σ' c' t = budget s σ c t := by
    intro t other
    rw [budget,budget,advances.others t other,step_others other taken]
  have goes : ∀ t, a = .step t → σ'.isRunning = σ.isRunning →
      σ'.isRunning = false ∧ ∀ u, budget s σ' c' u + (if a = .step u then 1 else 0) ≤ budget s σ c u := by
    rintro t rfl still
    refine ⟨still.trans stopped,fun u => ?_⟩
    by_cases isT : u = t
    · subst isT
      have left := spent_bound ref u
      have left' := spent_bound ref' u
      rw [if_pos rfl]
      rcases paid_step ref ref' advances adds taken with ⟨_,_,more⟩ | ⟨inside,more⟩ | ⟨_,_,here,top,_⟩
      · cases more
      · have active : σ.pc u ≠ .idle := by
          intro top
          rw [step,top] at taken
          cases taken
        have active' : σ'.pc u ≠ .idle := fun top => inside (by rw [top]; rfl)
        rw [budget,budget,if_neg active,if_neg active']
        omega
      · have active : σ.pc u ≠ .idle := by
          intro none
          rw [none] at here
          cases here
        rw [budget,budget,if_neg active,if_pos top]
        omega
    · have isNot : Act.step t ≠ .step u := fun same => isT (by cases same; rfl)
      rw [if_neg isNot,others u fun same => isT (Option.some.inj same).symm]
      exact Nat.le_refl _
  cases step_cases taken with
  | search t kind running _ => cases stopped.symm.trans running.1
  | swap t kind randR running _ => cases stopped.symm.trans running.1
  | searching here taken => exact goes _ rfl (searchPairs_running taken)
  | swapping here taken => exact goes _ rfl (swapPairs_running taken)
  | stop =>
    refine ⟨rfl,fun t => ?_⟩
    rw [others t (by simp [actor])]
    simp

/-- A step of a thread, and not the beginning of an operation. -/
def isStep : Act → Bool
  | .step _ => true
  | _ => false

/-- The steps of a run that are taken by the threads of a set. -/
theorem steps_of_threads {threads : Finset Nat} {acts : List Act} (only : ∀ t, .step t ∈ acts → t ∈ threads) :
    acts.countP isStep = ∑ t ∈ threads, acts.count (.step t) := by
  induction acts with
  | nil => simp
  | cons a acts ih =>
    have rest := ih fun t member => only t (List.mem_cons_of_mem _ member)
    simp only [List.countP_cons,List.count_cons,Finset.sum_add_distrib,rest,beq_iff_eq]
    congr 1
    cases a with
    | step u =>
      have member := only u List.mem_cons_self
      simp only [isStep,Act.step.injEq]
      rw [Finset.sum_ite_eq,if_pos member,if_pos trivial]
    | _ => simp [isStep]

theorem budget_run {acts : List Act} (ran : Transition.run (step v s value) σ acts = some σ')
    (accounted : Accounted v s value nodes σ c) (stopped : σ.isRunning = false) :
    (∃ c', Accounted v s value nodes σ' c') ∧ σ'.isRunning = false ∧
      ∀ t, acts.count (.step t) ≤ budget s σ c t := by
  induction acts generalizing σ c with
  | nil => cases ran; exact ⟨⟨c,accounted⟩,stopped,fun t => by simp⟩
  | cons a acts ih =>
    obtain ⟨mid,taken,ran⟩ := Transition.run_cons.mp ran
    obtain ⟨c1,advances,refines⟩ := advances_step accounted.stands.refines accounted.stands.locks taken
    obtain ⟨still,pays⟩ := budget_step accounted.stands.refines refines advances accounted.adds stopped taken
    have accounted1 : Accounted v s value nodes mid c1 := ⟨accounted.stands.advance taken advances.moved refines,
      tallied_step accounted.tallied taken,pending_step accounted.pending taken,adds_step accounted.adds taken⟩
    obtain ⟨known,ended,later⟩ := ih ran accounted1 still
    refine ⟨known,ended,fun t => ?_⟩
    have one := pays t
    have rest := later t
    rw [List.count_cons]
    simp only [beq_iff_eq]
    omega

/-- The threads that take part in a run. -/
def threads (acts : List Act) : Finset Nat := (acts.filterMap actor).toFinset

theorem idle_of_absent {acts : List Act} (ran : Transition.run (step v s value) σ acts = some σ') {t : Nat}
    (absent : t ∉ threads acts) (top : σ.pc t = .idle) : σ'.pc t = .idle := by
  induction acts generalizing σ with
  | nil => cases ran; exact top
  | cons a acts ih =>
    obtain ⟨mid,taken,ran⟩ := Transition.run_cons.mp ran
    simp only [threads,List.mem_toFinset,List.mem_filterMap,not_exists,not_and] at absent ih
    refine ih ran (fun b member => absent b (List.mem_cons_of_mem _ member)) ?_
    rw [step_others (absent a List.mem_cons_self) taken]
    exact top

/-- What the end of the program looks like. -/
structure Ended (s : Storage) (nodes : List Nat) (σ : State) : Prop where
  outside : ∀ t, σ.pc t = .idle
  unlocked : ∀ x, σ.sync x = []
  intact : Intact s nodes σ

/-- After `stop` the program ends: whatever the schedule, a thread takes less than
    `3n+8` further steps, and there is one that can go on until all are outside of
    their operations, with every lock released. -/
theorem stop_ends {v : Variant} {n : Int} (two : 2 ≤ n) {succeeds : Nat → Bool} {rand : Nat → Nat} {s : Storage}
    {h : Heap}
    (built : storageInit n succeeds rand = (some s,h)) {acts more : List Act} {σ σ' : State}
    (ran : Transition.run (step v s h.value) (start h) acts = some σ) (stopped : σ.isRunning = false)
    (ran' : Transition.run (step v s h.value) σ more = some σ') :
    (∀ t, more.count (.step t) ≤ 3*n.toNat+8) ∧
      more.countP isStep ≤ (threads acts).card * (3*n.toNat+8) ∧
      ((∃ t σ'', step v s h.value σ' (.step t) = some σ'') ∨ ∃ nodes, Holds s h nodes ∧ Ended s nodes σ') := by
  obtain ⟨size,nodes,holds⟩ := storageInit_holds built
  obtain ⟨c,accounted,_⟩ := work_run ran (start_accounted (v := v) holds (by omega))
  obtain ⟨⟨c',accounted'⟩,_,spends⟩ := budget_run ran' accounted stopped
  have each : ∀ t, more.count (.step t) ≤ 3*n.toNat+8 := by
    intro t
    have within := spends t
    unfold budget at within
    split at within <;> omega
  -- A thread that had no operation when `stop` was called takes no step any more.
  have only : ∀ t, .step t ∈ more → t ∈ threads acts := by
    intro t member
    by_contra absent
    have none := spends t
    rw [budget,if_pos (idle_of_absent ran absent rfl)] at none
    have some := List.count_pos_iff.mpr member
    omega
  refine ⟨each,?_,?_⟩
  · rw [steps_of_threads only]
    exact Finset.sum_le_card_nsmul _ _ _ fun t _ => each t
  · by_cases active : ∃ t, σ'.pc t ≠ .idle
    · obtain ⟨t,active⟩ := active
      exact .inl (progress accounted'.stands.refines active)
    · push Not at active
      refine .inr ⟨nodes,holds,⟨active,fun x => ?_,intact_of_stands accounted'.stands⟩⟩
      refine List.eq_nil_iff_forall_not_mem.mpr fun holder member => ?_
      have kept := accounted'.stands.locks holder.1 x holder.2 member
      rw [active] at kept
      exact List.not_mem_nil kept

/-- `stop` is called while the swap waits for a node that the search has locked. -/
theorem stop_ends_pair :
    (∀ t, (pairSchedule.drop 8).count (.step t) ≤ 3*(2 : Int).toNat+8) ∧
      (pairSchedule.drop 8).countP isStep ≤
        (threads (pairSchedule.take 8 ++ [.stop])).card * (3*(2 : Int).toNat+8) ∧
      ((∃ t σ'', step .mutex pairStorage pairHeap.value
          (pairAfter .mutex (pairSchedule.take 8 ++ .stop :: pairSchedule.drop 8)) (.step t) = some σ'') ∨
        ∃ nodes, Holds pairStorage pairHeap nodes ∧
          Ended pairStorage nodes (pairAfter .mutex (pairSchedule.take 8 ++ .stop :: pairSchedule.drop 8))) :=
  stop_ends (n := 2) (by decide) (rfl : storageInit 2 (fun _ => true) pairRand = _)
    (rfl : Transition.run _ _ (pairSchedule.take 8 ++ [.stop]) = _) rfl (rfl : Transition.run _ _ _ = _)

end Os5Sem.ListWork

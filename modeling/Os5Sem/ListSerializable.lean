import Os5Sem.ListOrder

/-!
The list programs are serializable: once no thread is inside an operation, the
list and the outcomes of all operations are those of executing the operations
one at a time, in the order in which they locked the first node. These are the
operations that have been started, each thread's in the order in which it started
them.
-/
namespace Os5Sem.ListSerializable
open Os5Sem.Chains Os5Sem.ListStorage Os5Sem.ListProgram Os5Sem.ListConvoy Os5Sem.ListRefine Os5Sem.ListOrder

/-- A state whose list and outcomes are those of a serial execution of the
    operations in the order of their first lock. -/
def Serialized (s : Storage) (h : Heap) (σ : State) : Prop :=
  ∃ nodes final outcomes, Holds s h nodes ∧ serially h.value (σ.order.map Prod.snd) nodes = (final,outcomes) ∧
    Chain σ.next (some s.first) (s.first :: final) ∧
    (List.range σ.order.length).map σ.outcome = outcomes.map some

/-- While no swap is relinking nodes, the next fields form the list of the convoy. -/
theorem chain_of_clean {v : Variant} {s : Storage} {value : Nat → List Char} {σ : State} {c : Convoy}
    (ref : Refines v s value σ c) (clean : ∀ t, dirty (σ.pc t) = []) : Chain σ.next (some s.first) c.items := by
  have chain : Chain σ.next c.items[0]? c.items := chain_of_positions fun p x here =>
    ref.links p x here fun t => by simp [clean t]
  rwa [ref.first] at chain

theorem serialized (v : Variant) {n : Int} (two : 2 ≤ n) {succeeds : Nat → Bool} {rand : Nat → Nat} {s : Storage}
    {h : Heap} (built : storageInit n succeeds rand = (some s,h)) {acts : List Act} {σ : State}
    (ran : Transition.run (step v s h.value) (start h) acts = some σ) (quiet : ∀ t, σ.pc t = .idle) :
    Serialized s h σ := by
  obtain ⟨size,nodes,holds⟩ := storageInit_holds built
  obtain ⟨c,stands⟩ := run_stands holds (by omega) ran
  have top : ∀ t, c.phase t = .idle := by
    intro t
    have fit := stands.refines.fits t
    rw [quiet t] at fit
    generalize c.phase t = phase at fit
    cases fit
    rfl
  have chain := chain_of_clean stands.refines fun t => by rw [quiet t]; rfl
  obtain ⟨items,outcomes⟩ := convoy_serial stands.serial top
  rw [items] at chain
  rw [stands.refines.order] at chain outcomes
  rw [stands.refines.outcome] at outcomes
  exact ⟨nodes,_,_,holds,rfl,chain,outcomes⟩

/-- The programs with mutexes and with spinlocks, where every lock is exclusive,
    are serializable. -/
theorem exclusive_serializable {v : Variant} (_exclusive : v = .mutex ∨ v = .spinlock) {n : Int} (two : 2 ≤ n)
    {succeeds : Nat → Bool} {rand : Nat → Nat} {s : Storage} {h : Heap}
    (built : storageInit n succeeds rand = (some s,h)) {acts : List Act} {σ : State}
    (ran : Transition.run (step v s h.value) (start h) acts = some σ) (quiet : ∀ t, σ.pc t = .idle) :
    Serialized s h σ ∧ ∀ t, ofThread t σ.order = ofThread t (started s acts) :=
  ⟨serialized v two built ran quiet,quiet_order ran quiet⟩

/-- The program with read-write locks is serializable, although its searchers
    hold nodes together and overtake each other. -/
theorem rwlock_serializable {n : Int} (two : 2 ≤ n) {succeeds : Nat → Bool} {rand : Nat → Nat} {s : Storage} {h : Heap}
    (built : storageInit n succeeds rand = (some s,h)) {acts : List Act} {σ : State}
    (ran : Transition.run (step .rwlock s h.value) (start h) acts = some σ) (quiet : ∀ t, σ.pc t = .idle) :
    Serialized s h σ ∧ ∀ t, ofThread t σ.order = ofThread t (started s acts) :=
  ⟨serialized .rwlock two built ran quiet,quiet_order ran quiet⟩

/-! ### A run -/

/-- A storage with two nodes, whose strings have two characters and one. -/
def pairRand : Nat → Nat
  | 0 => 1
  | _ => 0

def pairStorage : Storage := ⟨0,1,2⟩

def pairHeap : Heap := (storageInit 2 (fun _ => true) pairRand).2

/-- Thread 0 swaps the two nodes while thread 1 searches ahead of it. -/
def pairSchedule : List Act :=
  [.search 1 .desc,.swap 0 .asc 0,.step 1,.step 1,.step 1,.step 1,.step 0,.step 0,.step 1,.step 1,.step 1,.step 0,
    .step 1,.step 1,.step 1,.step 1,.step 0,.step 0,.step 0,.step 0,.step 0,.step 0,.step 0,.step 0,.step 0,.step 0,
    .step 0]

def pairAfter (v : Variant) (acts : List Act) : State :=
  (Transition.run (step v pairStorage pairHeap.value) (start pairHeap) acts).getD (start pairHeap)

theorem exclusive_serializable_pair : Serialized pairStorage pairHeap (pairAfter .mutex pairSchedule) ∧
    ∀ t, ofThread t (pairAfter .mutex pairSchedule).order = ofThread t (started pairStorage pairSchedule) :=
  exclusive_serializable (.inl rfl) (n := 2) (by decide) (rfl : storageInit 2 (fun _ => true) pairRand = _)
    (rfl : Transition.run _ _ pairSchedule = _) fun
    | 0 => rfl
    | 1 => rfl
    | _+2 => rfl

/-- Two searches and a swap: the second search overtakes the first one at the
    first node behind the sentinel, where the swap waits for the first one. -/
def sharedSchedule : List Act :=
  [.search 1 .desc,.search 2 .desc,.swap 0 .asc 0,.step 1,.step 1,.step 1,.step 1,.step 2,.step 2,.step 2,.step 2,
    .step 2,.step 2,.step 2,.step 2,.step 2,.step 0,.step 0,.step 1,.step 1,.step 1,.step 0,.step 2,.step 2,.step 1,
    .step 1,.step 1,.step 1,.step 0,.step 0,.step 0,.step 0,.step 0,.step 0,.step 0,.step 0,.step 0,.step 0,.step 0]

theorem rwlock_serializable_pair : Serialized pairStorage pairHeap (pairAfter .rwlock sharedSchedule) ∧
    ∀ t, ofThread t (pairAfter .rwlock sharedSchedule).order = ofThread t (started pairStorage sharedSchedule) :=
  rwlock_serializable (n := 2) (by decide) (rfl : storageInit 2 (fun _ => true) pairRand = _)
    (rfl : Transition.run _ _ sharedSchedule = _) fun
    | 0 => rfl
    | 1 => rfl
    | 2 => rfl
    | _+3 => rfl

end Os5Sem.ListSerializable

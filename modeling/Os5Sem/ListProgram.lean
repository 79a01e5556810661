import Os5Sem.ListStorage
import Os5Sem.Transition

/-!
The searching and swapping threads of `main.c` in the folders `mutex`, `rwlock`
and `spinlock`, as a machine whose steps are the single lock, unlock, read and
write steps of the threads. The three programs differ only in the lock that a
node carries: in the variant with read-write locks the searchers take it shared,
everywhere else it is taken exclusively.
-/
namespace Os5Sem.ListProgram
open Os5Sem.ListStorage

inductive Variant
  | mutex
  | rwlock
  | spinlock
deriving DecidableEq

/-- How a thread holds a lock. -/
inductive Mode
  | shared
  | exclusive
deriving DecidableEq

/-- How `search_pairs` takes its locks; `swap_pairs` takes them exclusively in
    every variant. -/
def Variant.searchMode : Variant → Mode
  | .rwlock => .shared
  | _ => .exclusive

/-- The searching threads: `pair_searcher_asc`, `pair_searcher_desc` and
    `pair_searcher_equal`. -/
inductive Searcher
  | asc
  | desc
  | equal
deriving DecidableEq

/-- The swapping threads: `swapper_asc`, `swapper_desc` and `swapper_not_eql`. -/
inductive Swapper
  | asc
  | desc
  | notEqual
deriving DecidableEq

def cmpAsc (len1 len2 : Nat) : Bool := len1 < len2
def cmpDesc (len1 len2 : Nat) : Bool := len1 > len2
def cmpEqual (len1 len2 : Nat) : Bool := len1 == len2

def swapAscFunc (len1 len2 : Nat) : Bool := len1 > len2
def swapDescFunc (len1 len2 : Nat) : Bool := len1 < len2
def swapNotEqualFunc (len1 len2 : Nat) : Bool := len1 != len2

/-- The comparator that a searching thread passes to `search_pairs`. -/
def Searcher.cmp : Searcher → Nat → Nat → Bool
  | .asc => cmpAsc
  | .desc => cmpDesc
  | .equal => cmpEqual

/-- The comparator that a swapping thread passes to `swap_pairs`. -/
def Swapper.cmp : Swapper → Nat → Nat → Bool
  | .asc => swapAscFunc
  | .desc => swapDescFunc
  | .notEqual => swapNotEqualFunc

/-- One iteration of `search_pairs` or one call of `swap_pairs`. -/
inductive Op
  | search (kind : Searcher)
  | swap (kind : Swapper) (leftIndex : Nat)
deriving DecidableEq

/-- What an operation finds: `cycle_pairs`, or whether the pair was swapped. -/
inductive Outcome
  | pairs (cyclePairs : Nat)
  | swapped (decision : Bool)
deriving DecidableEq

/-! ### Program points -/

/-- The next step of an iteration of `search_pairs`, with its local variables. -/
inductive SearchPc
  | lockFirst
  | readFirst
  -- the branch for a storage with one node
  | unlockSingle
  | countSingle
  | lockA (a : Nat)
  | unlockFirst (a : Nat)
  | readB (a cyclePairs : Nat)
  | unlockLast (a cyclePairs : Nat)
  | lockB (a b cyclePairs : Nat)
  | unlockA (a b cyclePairs : Nat)
  | addPairs (cyclePairs : Nat)
  | addIteration (cyclePairs : Nat)
deriving DecidableEq

/-- The next step of `swap_nodes`; `storeLeft` holds what `node_right->next` was
    read to be. -/
inductive NodesPc
  | storePrev
  | loadRight
  | storeLeft (rightNext : Option Nat)
  | storeRight
deriving DecidableEq

/-- The next step of `swap_pairs`, with its local variables. The source does not
    store the decision: it is kept here for the outcome. -/
inductive SwapPc
  | lockPrev
  | readCur
  -- the exit for `cur == NULL`
  | unlockNoCur
  | lockCur (cur : Nat)
  | readStep (prev cur i : Nat)
  | lockStep (prev cur next i : Nat)
  | unlockStep (prev cur next i : Nat)
  | readNext (prev cur : Nat)
  -- the exit for `next == NULL`
  | unlockNoNextCur (prev cur : Nat)
  | unlockNoNextPrev (prev : Nat)
  | lockNext (prev cur next : Nat)
  | compare (prev cur next : Nat)
  | swapNodes (prev cur next : Nat) (pc : NodesPc)
  | addSwap (prev cur next : Nat)
  | unlockNext (prev cur next : Nat) (decision : Bool)
  | unlockCur (prev cur : Nat) (decision : Bool)
  | unlockPrev (prev : Nat) (decision : Bool)
deriving DecidableEq

/-- Where a thread is: at the top of its loop, or inside an operation. -/
inductive Pc
  | idle
  | search (kind : Searcher) (pc : SearchPc)
  | swap (kind : Swapper) (leftIndex : Nat) (pc : SwapPc)
deriving DecidableEq

/-! ### States -/

/-- The shared memory and the threads. `sync` lists the holders of a node's
    lock. The last three fields only record the run: the operations in the order
    in which they locked the first node, the place of a thread's current
    operation in that order, and the outcomes of the operations that are over. -/
structure State where
  next : Nat → Option Nat
  sync : Nat → List (Nat × Mode)
  iterations : Searcher → Nat
  pairs : Searcher → Nat
  swaps : Swapper → Nat
  isRunning : Bool
  pc : Nat → Pc
  order : List (Nat × Op)
  ticket : Nat → Nat
  outcome : Nat → Option Outcome

/-- The threads before their first step, on a list in the given heap. -/
def start (h : Heap) : State where
  next := h.next
  sync _ := []
  iterations _ := 0
  pairs _ := 0
  swaps _ := 0
  isRunning := true
  pc _ := .idle
  order := []
  ticket _ := 0
  outcome _ := none

/-- A request is granted when it is compatible with every current holder. -/
def grantable (mode : Mode) (holders : List (Nat × Mode)) : Bool :=
  holders.all fun holder => mode == .shared && holder.2 == .shared

namespace State

def goto (σ : State) (t : Nat) (pc : Pc) : State := { σ with pc := Function.update σ.pc t pc }

def lock (σ : State) (t x : Nat) (mode : Mode) : Option State :=
  if grantable mode (σ.sync x) then
    some { σ with sync := Function.update σ.sync x ((t,mode) :: σ.sync x) }
  else none

def unlock (σ : State) (t x : Nat) : State :=
  { σ with sync := Function.update σ.sync x ((σ.sync x).filter fun holder => holder.1 != t) }

def store (σ : State) (x : Nat) (p : Option Nat) : State := { σ with next := Function.update σ.next x p }

def addIterations (σ : State) (kind : Searcher) : State :=
  { σ with iterations := Function.update σ.iterations kind (σ.iterations kind + 1) }

def addPairs (σ : State) (kind : Searcher) (n : Nat) : State :=
  { σ with pairs := Function.update σ.pairs kind (σ.pairs kind + n) }

def addSwap (σ : State) (kind : Swapper) : State :=
  { σ with swaps := Function.update σ.swaps kind (σ.swaps kind + 1) }

/-- Records that the thread's operation has locked the first node. -/
def enter (σ : State) (t : Nat) (op : Op) : State :=
  { σ with order := σ.order ++ [(t,op)], ticket := Function.update σ.ticket t σ.order.length }

/-- The end of the thread's operation. -/
def leave (σ : State) (t : Nat) (outcome : Outcome) : State :=
  { σ.goto t .idle with outcome := Function.update σ.outcome (σ.ticket t) (some outcome) }

end State

/-! ### Steps -/

/-- A step of an iteration of `search_pairs` in thread `t`. The strings of the
    nodes never change, so that the comparison is one step with the unlock that
    follows it. -/
def searchPairs (v : Variant) (s : Storage) (value : Nat → List Char) (kind : Searcher) (t : Nat) (σ : State) :
    SearchPc → Option State
  | .lockFirst =>
    (σ.lock t s.first v.searchMode).map fun σ => (σ.enter t (.search kind)).goto t (.search kind .readFirst)
  | .readFirst =>
    match σ.next s.first with
    | none => some (σ.goto t (.search kind .unlockSingle))
    | some a => some (σ.goto t (.search kind (.lockA a)))
  | .unlockSingle => some ((σ.unlock t s.first).goto t (.search kind .countSingle))
  | .countSingle => some ((σ.addIterations kind).leave t (.pairs 0))
  | .lockA a => (σ.lock t a v.searchMode).map fun σ => σ.goto t (.search kind (.unlockFirst a))
  | .unlockFirst a => some ((σ.unlock t s.first).goto t (.search kind (.readB a 0)))
  | .readB a cyclePairs =>
    match σ.next a with
    | none => some (σ.goto t (.search kind (.unlockLast a cyclePairs)))
    | some b => some (σ.goto t (.search kind (.lockB a b cyclePairs)))
  | .unlockLast a cyclePairs =>
    if cyclePairs = 0 then some ((σ.unlock t a).goto t (.search kind (.addIteration cyclePairs)))
    else some ((σ.unlock t a).goto t (.search kind (.addPairs cyclePairs)))
  | .lockB a b cyclePairs =>
    (σ.lock t b v.searchMode).map fun σ => σ.goto t (.search kind (.unlockA a b cyclePairs))
  | .unlockA a b cyclePairs =>
    let counted := if kind.cmp (value a).length (value b).length then cyclePairs+1 else cyclePairs
    some ((σ.unlock t a).goto t (.search kind (.readB b counted)))
  | .addPairs cyclePairs =>
    some ((σ.addPairs kind cyclePairs).goto t (.search kind (.addIteration cyclePairs)))
  | .addIteration cyclePairs => some ((σ.addIterations kind).leave t (.pairs cyclePairs))

/-- A step of `swap_nodes`: the state after it and the next step, if any. -/
def swapNodes (σ : State) (prev nodeLeft nodeRight : Nat) : NodesPc → State × Option NodesPc
  | .storePrev => (σ.store prev (some nodeRight),some .loadRight)
  | .loadRight => (σ,some (.storeLeft (σ.next nodeRight)))
  | .storeLeft rightNext => (σ.store nodeLeft rightNext,some .storeRight)
  | .storeRight => (σ.store nodeRight (some nodeLeft),none)

/-- The loop test of `swap_pairs`: another step of the walk, or its end. -/
def walk (leftIndex prev cur i : Nat) : SwapPc :=
  if i < leftIndex then .readStep prev cur i else .readNext prev cur

/-- A step of `swap_pairs` in thread `t`. -/
def swapPairs (s : Storage) (value : Nat → List Char) (kind : Swapper) (leftIndex t : Nat) (σ : State) :
    SwapPc → Option State
  | .lockPrev =>
    (σ.lock t s.first .exclusive).map fun σ =>
      (σ.enter t (.swap kind leftIndex)).goto t (.swap kind leftIndex .readCur)
  | .readCur =>
    match σ.next s.first with
    | none => some (σ.goto t (.swap kind leftIndex .unlockNoCur))
    | some cur => some (σ.goto t (.swap kind leftIndex (.lockCur cur)))
  | .unlockNoCur => some ((σ.unlock t s.first).leave t (.swapped false))
  | .lockCur cur =>
    (σ.lock t cur .exclusive).map fun σ => σ.goto t (.swap kind leftIndex (walk leftIndex s.first cur 0))
  | .readStep prev cur i =>
    match σ.next cur with
    | none => some (σ.goto t (.swap kind leftIndex (.readNext prev cur)))
    | some next => some (σ.goto t (.swap kind leftIndex (.lockStep prev cur next i)))
  | .lockStep prev cur next i =>
    (σ.lock t next .exclusive).map fun σ => σ.goto t (.swap kind leftIndex (.unlockStep prev cur next i))
  | .unlockStep prev cur next i =>
    some ((σ.unlock t prev).goto t (.swap kind leftIndex (walk leftIndex cur next (i+1))))
  | .readNext prev cur =>
    match σ.next cur with
    | none => some (σ.goto t (.swap kind leftIndex (.unlockNoNextCur prev cur)))
    | some next => some (σ.goto t (.swap kind leftIndex (.lockNext prev cur next)))
  | .unlockNoNextCur prev cur => some ((σ.unlock t cur).goto t (.swap kind leftIndex (.unlockNoNextPrev prev)))
  | .unlockNoNextPrev prev => some ((σ.unlock t prev).leave t (.swapped false))
  | .lockNext prev cur next =>
    (σ.lock t next .exclusive).map fun σ => σ.goto t (.swap kind leftIndex (.compare prev cur next))
  | .compare prev cur next =>
    if kind.cmp (value cur).length (value next).length then
      some (σ.goto t (.swap kind leftIndex (.swapNodes prev cur next .storePrev)))
    else some (σ.goto t (.swap kind leftIndex (.unlockNext prev cur next false)))
  | .swapNodes prev cur next pc =>
    match swapNodes σ prev cur next pc with
    | (σ,some pc) => some (σ.goto t (.swap kind leftIndex (.swapNodes prev cur next pc)))
    | (σ,none) => some (σ.goto t (.swap kind leftIndex (.addSwap prev cur next)))
  | .addSwap prev cur next =>
    some ((σ.addSwap kind).goto t (.swap kind leftIndex (.unlockNext prev cur next true)))
  | .unlockNext prev cur next decision =>
    some ((σ.unlock t next).goto t (.swap kind leftIndex (.unlockCur prev cur decision)))
  | .unlockCur prev cur decision =>
    some ((σ.unlock t cur).goto t (.swap kind leftIndex (.unlockPrev prev decision)))
  | .unlockPrev prev decision => some ((σ.unlock t prev).leave t (.swapped decision))

/-- What can happen: a thread at the top of its loop starts an operation (`randR`
    is the result of `rand_r`), a thread inside one takes its next step, or `stop`
    is called. -/
inductive Act
  | search (t : Nat) (kind : Searcher)
  | swap (t : Nat) (kind : Swapper) (randR : Nat)
  | step (t : Nat)
  | stop
deriving DecidableEq

def step (v : Variant) (s : Storage) (value : Nat → List Char) (σ : State) : Act → Option State
  | .search t kind =>
    if σ.isRunning = true ∧ 2 ≤ s.size ∧ σ.pc t = .idle then some (σ.goto t (.search kind .lockFirst)) else none
  | .swap t kind randR =>
    if σ.isRunning = true ∧ 2 ≤ s.size ∧ σ.pc t = .idle then
      some (σ.goto t (.swap kind (randR % (s.size - 1)) .lockPrev))
    else none
  | .step t =>
    match σ.pc t with
    | .idle => none
    | .search kind pc => searchPairs v s value kind t σ pc
    | .swap kind leftIndex pc => swapPairs s value kind leftIndex t σ pc
  | .stop => some { σ with isRunning := false }

end Os5Sem.ListProgram

import Os5Sem.ReapQueue
import Mathlib.Data.Finset.Card

/-!
The invariant of the reap queue. Between its locked sections the queue is a chain
from `head` to `tail`; inside of them it differs from one in what the holder of
the lock has not written yet (`Shape`). The nodes of the queue, of the reaper's
batch and those that callers have not linked yet are different (`Nodes`), and
the counter is the number of linked nodes that the reaper has not subtracted,
less the callers that have linked a node and not counted it (`Accounts`).
-/
namespace Os5Sem.ReapInvariant
open Os5Sem.Chains Os5Sem.ReapQueue

/-! ### What a program point tells -/

/-- Inside the section under the spinlock. -/
def Locks : EnqueuePc → Prop
  | .loadTail _ | .storeHead _ | .storeFirstTail _ | .loadOldTail _ | .link _ _ | .storeTail _ | .spinUnlock => True
  | _ => False

def ReaperLocks : ReaperPc → Prop
  | .loadHead | .storeHead _ | .storeTail _ | .spinUnlock _ => True
  | _ => False

/-- The node that a call has allocated and not linked yet. -/
def owned : EnqueuePc → Option Nat
  | .fill _ x | .spinLock x | .loadTail x | .storeHead x | .loadOldTail x | .link x _ => some x
  | _ => none

/-- The owned node, once its fields are set. -/
def filled : EnqueuePc → Option Nat
  | .spinLock x | .loadTail x | .storeHead x | .loadOldTail x | .link x _ => some x
  | _ => none

/-- The call has linked its node and not counted it yet. -/
def Uncounted : EnqueuePc → Prop
  | .storeFirstTail _ | .storeTail _ | .spinUnlock | .fetchAdd => True
  | _ => False

/-- How many nodes of its batch the reaper has dealt with and not subtracted. -/
def processed : ReaperPc → Nat
  | .readNext _ n | .readThread _ _ n | .visit _ _ _ n | .freeNode _ _ n | .fetchSub n => n
  | _ => 0

/-- The thread that a call has not written to its node yet. -/
def calling : EnqueuePc → Option Nat
  | .malloc t | .fill t _ => some t
  | _ => none

/-- The thread that the reaper is about to visit. -/
def visiting : ReaperPc → Option Nat
  | .visit t _ _ _ => some t
  | _ => none

/-- What the holder of the lock knows of the tail. -/
def TailAt (tail : Option Nat) (queue : List Nat) : EnqueuePc → Prop
  | .loadTail _ | .spinUnlock => tail = queue.getLast?
  | .storeHead _ => queue = []
  | .loadOldTail _ => tail = queue.getLast? ∧ queue ≠ []
  | .storeFirstTail x | .storeTail x | .link _ x => queue.getLast? = some x
  | _ => True

def ReaperTailAt (head tail : Option Nat) (queue : List Nat) : ReaperPc → Prop
  | .loadHead | .spinUnlock _ => tail = queue.getLast?
  | .storeHead x => head = some x
  | .storeTail _ => queue = []
  | _ => True

/-- The batch that the reaper still has to free, as its local variables point to it. -/
def BatchAt (next : Nat → Option Nat) (batch : List Nat) : ReaperPc → Prop
  | .storeTail x | .spinUnlock (some x) | .readNext x _ => Chain next (some x) batch
  | .readThread x p _ | .visit _ x p _ | .freeNode x p _ => ∃ rest, batch = x :: rest ∧ Chain next p rest
  | _ => batch = []

/-- The queue after a step of a call: its node is linked by two of the steps. -/
def linking (pc : EnqueuePc) (queue : List Nat) : List Nat :=
  match pc with
  | .storeHead x | .link x _ => queue ++ [x]
  | _ => queue

/-- Queue and batch after a step of the reaper: it takes the whole queue, and
    frees the nodes one by one. -/
def taking (pc : ReaperPc) (queue batch : List Nat) : List Nat × List Nat :=
  match pc with
  | .storeHead _ => ([],queue)
  | .freeNode _ _ _ => (queue,batch.tail)
  | _ => (queue,batch)

variable {Proc : Type} {σ σ' : State Proc} {queue batch : List Nat}

/-! ### The parts of the invariant -/

/-- At most one process is inside a locked section, and the lock is taken if and
    only if there is one. -/
structure Exclusive (σ : State Proc) : Prop where
  enqueuers : ∀ p q, Locks (σ.enqueuer p) → Locks (σ.enqueuer q) → p = q
  reaper : ReaperLocks σ.reaper → ∀ p, ¬ Locks (σ.enqueuer p)
  taken : ∀ p, Locks (σ.enqueuer p) → σ.lock = true
  takenReaper : ReaperLocks σ.reaper → σ.lock = true
  holder : σ.lock = true → ReaperLocks σ.reaper ∨ ∃ p, Locks (σ.enqueuer p)

/-- The nodes of the batch, of the queue and those not linked yet are different,
    and all of them are allocated. -/
structure Nodes (σ : State Proc) (queue batch : List Nat) : Prop where
  distinct : (batch ++ queue).Nodup
  linkedLive : ∀ x ∈ batch ++ queue, σ.live x = true
  ownedLive : ∀ p x, owned (σ.enqueuer p) = some x → σ.live x = true
  unlinked : ∀ p x, owned (σ.enqueuer p) = some x → x ∉ batch ++ queue
  unique : ∀ p q x, owned (σ.enqueuer p) = some x → owned (σ.enqueuer q) = some x → p = q

/-- Which chain the queue is, and how far the holder of the lock has got with it. -/
structure Shape (σ : State Proc) (queue batch : List Nat) : Prop where
  chain : Chain σ.next σ.head queue
  batch : BatchAt σ.next batch σ.reaper
  settled : σ.lock = false → σ.tail = queue.getLast?
  enqueuers : ∀ p, TailAt σ.tail queue (σ.enqueuer p)
  reaper : ReaperTailAt σ.head σ.tail queue σ.reaper
  ends : ∀ p x, filled (σ.enqueuer p) = some x → σ.next x = none

/-- The counter against the linked nodes, and why the reaper does not sleep while
    the counter is positive: the caller that made it so is about to wake it. -/
structure Accounts (σ : State Proc) (queue batch : List Nat) : Prop where
  balance : ∃ uncounted : Finset Proc, (∀ p, p ∈ uncounted ↔ Uncounted (σ.enqueuer p)) ∧
    σ.count + uncounted.card = queue.length + batch.length + processed σ.reaper
  awake : σ.reaper = .asleep → σ.count = 0 ∨ ∃ p, σ.enqueuer p = .futexWake

/-- `reap_enqueue` was called for every thread on its way to the reaper. -/
structure Carries (σ : State Proc) (queue batch : List Nat) : Prop where
  called : ∀ p t, calling (σ.enqueuer p) = some t → 1 ≤ σ.entered t
  prepared : ∀ p x, filled (σ.enqueuer p) = some x → 1 ≤ σ.entered (σ.node x).thread
  linked : ∀ x ∈ batch ++ queue, 1 ≤ σ.entered (σ.node x).thread
  visited : ∀ t, visiting σ.reaper = some t → 1 ≤ σ.entered t

/-- The invariant, with the nodes of the queue and of the batch. -/
structure Invariant (σ : State Proc) (queue batch : List Nat) : Prop where
  exclusive : Exclusive σ
  nodes : Nodes σ queue batch
  shape : Shape σ queue batch
  accounts : Accounts σ queue batch
  carries : Carries σ queue batch

theorem start_invariant : Invariant (start Proc) [] [] where
  exclusive := ⟨nofun,nofun,nofun,nofun,nofun⟩
  nodes := ⟨.nil,nofun,nofun,nofun,nofun⟩
  shape := ⟨rfl,rfl,fun _ => rfl,fun _ => trivial,trivial,nofun⟩
  accounts := ⟨⟨∅,fun _ => by simp [start,Uncounted],rfl⟩,nofun⟩
  carries := ⟨nofun,nofun,nofun,nofun⟩

/-! ### Steps of the reaper -/

theorem tailAt_outside {tail : Option Nat} {pc : EnqueuePc} (outside : ¬ Locks pc) : TailAt tail queue pc := by
  cases pc <;> first | trivial | exact absurd trivial outside

theorem batchAt_congr {next next' : Nat → Option Nat} {pc : ReaperPc} (same : ∀ x ∈ batch, next' x = next x)
    (at_pc : BatchAt next batch pc) : BatchAt next' batch pc := by
  have behind : ∀ x p, (∃ rest, batch = x :: rest ∧ Chain next p rest) → ∃ rest, batch = x :: rest ∧
    Chain next' p rest := by
    rintro x p ⟨rest,rfl,chain⟩
    exact ⟨rest,rfl,chain_congr (fun y member => same y (List.mem_cons_of_mem _ member)) chain⟩
  cases pc with
  | storeTail x => exact chain_congr same at_pc
  | spinUnlock list =>
    cases list with
    | none => exact at_pc
    | some x => exact chain_congr same at_pc
  | readNext x n => exact chain_congr same at_pc
  | readThread x p n => exact behind x p at_pc
  | visit t x p n => exact behind x p at_pc
  | freeNode x p n => exact behind x p at_pc
  | _ => exact at_pc

/-- What a step of the reaper does to the lock. -/
theorem reaperMain_lock {env : Env} (done : reaperMain σ env = some σ') :
    σ'.enqueuer = σ.enqueuer ∧ ((ReaperLocks σ'.reaper ↔ ReaperLocks σ.reaper) ∧ σ'.lock = σ.lock ∨
      σ.lock = false ∧ σ'.lock = true ∧ ReaperLocks σ'.reaper ∨ ReaperLocks σ.reaper ∧ ¬ ReaperLocks σ'.reaper ∧
        σ'.lock = false) := by
  cases here : σ.reaper with
  | spinLock =>
    simp only [reaperMain,here] at done
    split at done
    · cases done
      exact ⟨rfl,.inl ⟨by rw [here],rfl⟩⟩
    · rename_i free
      cases done
      exact ⟨rfl,.inr (.inl ⟨by simpa using (not_or.mp free).1,rfl,trivial⟩)⟩
  | spinUnlock list =>
    cases list <;> simp only [reaperMain,here] at done <;> cases done <;>
      exact ⟨rfl,.inr (.inr ⟨trivial,id,rfl⟩)⟩
  | _ =>
    simp only [reaperMain,here] at done
    try split at done
    all_goals cases done
    all_goals exact ⟨rfl,.inl ⟨.rfl,rfl⟩⟩

/-- What a step of the reaper does to the nodes: nothing, it takes the queue as its
    batch, or it frees the first node of the batch. -/
theorem reaperMain_nodes (queue : List Nat) {env : Env} (at_pc : BatchAt σ.next batch σ.reaper)
    (done : reaperMain σ env = some σ') :
    σ'.enqueuer = σ.enqueuer ∧
      (σ'.live = σ.live ∧ taking σ.reaper queue batch = (queue,batch) ∨
        σ'.live = σ.live ∧ batch = [] ∧ taking σ.reaper queue batch = ([],queue) ∨
        ∃ x rest, batch = x :: rest ∧ σ'.live = Function.update σ.live x false ∧
          taking σ.reaper queue batch = (queue,rest)) := by
  cases here : σ.reaper with
  | storeHead x =>
    rw [here] at at_pc
    simp only [reaperMain,here] at done
    cases done
    exact ⟨rfl,.inr (.inl ⟨rfl,at_pc,rfl⟩)⟩
  | freeNode x next n =>
    rw [here] at at_pc
    obtain ⟨rest,rfl,_⟩ := at_pc
    simp only [reaperMain,here] at done
    split at done <;> cases done <;> exact ⟨rfl,.inr (.inr ⟨x,rest,rfl,rfl,rfl⟩)⟩
  | fetchSub n =>
    simp only [reaperMain,here] at done
    cases done
    split <;> exact ⟨rfl,.inl ⟨rfl,rfl⟩⟩
  | spinUnlock list =>
    cases list <;> simp only [reaperMain,here] at done <;> cases done <;> exact ⟨rfl,.inl ⟨rfl,rfl⟩⟩
  | _ =>
    simp only [reaperMain,here] at done
    try split at done
    all_goals cases done
    all_goals exact ⟨rfl,.inl ⟨rfl,rfl⟩⟩

theorem Nodes.reap {env : Env} (nodes : Nodes σ queue batch) (shape : Shape σ queue batch)
    (done : reaperMain σ env = some σ') :
    Nodes σ' (taking σ.reaper queue batch).1 (taking σ.reaper queue batch).2 := by
  obtain ⟨pcs,effect⟩ := reaperMain_nodes queue shape.batch done
  rcases effect with ⟨live,same⟩ | ⟨live,rfl,taken⟩ | ⟨x,rest,rfl,live,freed⟩
  · rw [same]
    exact ⟨nodes.distinct,live ▸ nodes.linkedLive,by rw [pcs,live]; exact nodes.ownedLive,
      by rw [pcs]; exact nodes.unlinked,by rw [pcs]; exact nodes.unique⟩
  · have both : queue ++ [] = [] ++ queue := by simp
    rw [taken]
    exact ⟨both ▸ nodes.distinct,by rw [live,both]; exact nodes.linkedLive,by rw [pcs,live]; exact nodes.ownedLive,
      by rw [pcs,both]; exact nodes.unlinked,by rw [pcs]; exact nodes.unique⟩
  · have apart := List.nodup_cons.mp nodes.distinct
    rw [freed]
    refine ⟨apart.2,fun y member => ?_,fun p y has => ?_,?_,by rw [pcs]; exact nodes.unique⟩
    · rw [live,Function.update_of_ne fun same : y = x => apart.1 (same ▸ member)]
      exact nodes.linkedLive y (List.mem_cons_of_mem _ member)
    · rw [pcs] at has
      rw [live,Function.update_of_ne fun same : y = x => nodes.unlinked p y has (same ▸ List.mem_cons_self)]
      exact nodes.ownedLive p y has
    · rw [pcs]
      intro p y has member
      exact nodes.unlinked p y has (List.mem_cons_of_mem _ member)

theorem Shape.reap {env : Env} (shape : Shape σ queue batch) (ex : Exclusive σ)
    (done : reaperMain σ env = some σ') :
    Shape σ' (taking σ.reaper queue batch).1 (taking σ.reaper queue batch).2 := by
  have at_pc := shape.batch
  have fits := shape.reaper
  cases here : σ.reaper with
  | spinLock =>
    rw [here] at at_pc
    simp only [reaperMain,here] at done
    split at done
    · cases done
      exact shape
    · rename_i free
      cases done
      have unlocked : σ.lock = false := by simpa using (not_or.mp free).1
      exact ⟨shape.chain,at_pc,fun _ => shape.settled unlocked,shape.enqueuers,shape.settled unlocked,shape.ends⟩
  | loadHead =>
    rw [here] at at_pc fits
    simp only [reaperMain,here] at done
    split at done
    · cases done
      exact ⟨shape.chain,at_pc,shape.settled,shape.enqueuers,fits,shape.ends⟩
    · rename_i x first
      cases done
      exact ⟨shape.chain,at_pc,shape.settled,shape.enqueuers,first,shape.ends⟩
  | storeHead x =>
    rw [here] at fits
    have first : σ.head = some x := fits
    simp only [reaperMain,here] at done
    cases done
    have inside : ReaperLocks σ.reaper := by rw [here]; trivial
    refine ⟨rfl,?_,fun free => ?_,fun p => tailAt_outside (ex.reaper inside p),rfl,shape.ends⟩
    · have whole := shape.chain
      rw [first] at whole
      exact whole
    · have locked := ex.takenReaper inside
      exact absurd (locked.symm.trans free) (by simp)
  | storeTail x =>
    rw [here] at at_pc fits
    have empty : queue = [] := fits
    simp only [reaperMain,here] at done
    cases done
    have inside : ReaperLocks σ.reaper := by rw [here]; trivial
    subst empty
    exact ⟨shape.chain,at_pc,fun _ => rfl,fun p => tailAt_outside (ex.reaper inside p),rfl,shape.ends⟩
  | spinUnlock list =>
    rw [here] at at_pc fits
    have inside : ReaperLocks σ.reaper := by rw [here]; trivial
    cases list <;> simp only [reaperMain,here] at done <;> cases done <;>
      exact ⟨shape.chain,at_pc,fun _ => fits,fun p => tailAt_outside (ex.reaper inside p),trivial,shape.ends⟩
  | readNext x n =>
    rw [here] at at_pc
    simp only [reaperMain,here] at done
    cases done
    refine ⟨shape.chain,?_,shape.settled,shape.enqueuers,trivial,shape.ends⟩
    cases batch with
    | nil => cases at_pc
    | cons y rest =>
      have first : x = y := Option.some.inj at_pc.1
      subst first
      exact ⟨rest,rfl,at_pc.2⟩
  | freeNode x next n =>
    rw [here] at at_pc
    obtain ⟨rest,rfl,chain⟩ := at_pc
    simp only [reaperMain,here] at done
    split at done
    · cases done
      refine ⟨shape.chain,?_,shape.settled,shape.enqueuers,trivial,shape.ends⟩
      cases rest with
      | nil => rfl
      | cons y more => exact absurd chain.1 (by simp)
    · cases done
      exact ⟨shape.chain,chain,shape.settled,shape.enqueuers,trivial,shape.ends⟩
  | fetchSub n =>
    rw [here] at at_pc
    simp only [reaperMain,here] at done
    cases done
    split <;> exact ⟨shape.chain,at_pc,shape.settled,shape.enqueuers,trivial,shape.ends⟩
  | _ =>
    rw [here] at at_pc
    simp only [reaperMain,here] at done
    try split at done
    all_goals cases done
    all_goals exact ⟨shape.chain,at_pc,shape.settled,shape.enqueuers,trivial,shape.ends⟩

/-- The reaper subtracts as many nodes as it has taken out of its batch. -/
theorem reaperMain_counts (queue : List Nat) {env : Env} (at_pc : BatchAt σ.next batch σ.reaper)
    (done : reaperMain σ env = some σ') :
    σ'.enqueuer = σ.enqueuer ∧
      σ'.count - ((taking σ.reaper queue batch).1.length +
        (taking σ.reaper queue batch).2.length + processed σ'.reaper) =
        σ.count - (queue.length + batch.length + processed σ.reaper) := by
  cases here : σ.reaper with
  | storeHead x =>
    rw [here] at at_pc
    have empty : batch = [] := at_pc
    simp only [reaperMain,here] at done
    cases done
    subst empty
    exact ⟨rfl,by simp [taking,processed,State.reaperAt]⟩
  | freeNode x next n =>
    rw [here] at at_pc
    obtain ⟨rest,rfl,_⟩ := at_pc
    simp only [reaperMain,here] at done
    split at done <;> cases done <;> refine ⟨rfl,?_⟩ <;> simp [taking,processed,State.reaperAt] <;> omega
  | fetchSub n =>
    simp only [reaperMain,here] at done
    cases done
    split <;> refine ⟨rfl,?_⟩ <;> simp [taking,processed,State.reaperAt] <;> omega
  | spinUnlock list =>
    cases list <;> simp only [reaperMain,here] at done <;> cases done <;> exact ⟨rfl,rfl⟩
  | spinLock =>
    simp only [reaperMain,here] at done
    split at done <;> cases done
    · exact ⟨rfl,by rw [here]; rfl⟩
    · exact ⟨rfl,rfl⟩
  | _ =>
    simp only [reaperMain,here] at done
    try split at done
    all_goals cases done
    all_goals exact ⟨rfl,rfl⟩

/-- The reaper falls asleep only on a counter that is zero. -/
theorem reaperMain_sleep {env : Env} (done : reaperMain σ env = some σ') (asleep : σ'.reaper = .asleep) :
    σ'.count = 0 := by
  cases here : σ.reaper with
  | futexWait =>
    simp only [reaperMain,here] at done
    split at done <;> cases done
    · assumption
    · cases asleep
  | spinUnlock list => cases list <;> simp only [reaperMain,here] at done <;> cases done <;> cases asleep
  | spinLock =>
    simp only [reaperMain,here] at done
    split at done <;> cases done
    · rw [here] at asleep; cases asleep
    · cases asleep
  | _ =>
    simp only [reaperMain,here] at done
    try split at done
    all_goals cases done
    all_goals cases asleep

theorem Accounts.reap {env : Env} (accounts : Accounts σ queue batch) (shape : Shape σ queue batch)
    (done : reaperMain σ env = some σ') :
    Accounts σ' (taking σ.reaper queue batch).1 (taking σ.reaper queue batch).2 where
  balance := by
    obtain ⟨pcs,kept⟩ := reaperMain_counts queue shape.batch done
    obtain ⟨uncounted,members,balance⟩ := accounts.balance
    exact ⟨uncounted,by rw [pcs]; exact members,by omega⟩
  awake asleep := .inl (reaperMain_sleep done asleep)

/-- What no step of the reaper changes. -/
theorem reaperMain_frame {env : Env} (done : reaperMain σ env = some σ') :
    σ'.enqueuer = σ.enqueuer ∧ σ'.node = σ.node ∧ σ'.entered = σ.entered := by
  cases here : σ.reaper with
  | spinUnlock list => cases list <;> simp only [reaperMain,here] at done <;> cases done <;> exact ⟨rfl,rfl,rfl⟩
  | fetchSub n =>
    simp only [reaperMain,here] at done
    cases done
    split <;> exact ⟨rfl,rfl,rfl⟩
  | _ =>
    simp only [reaperMain,here] at done
    try split at done
    all_goals cases done
    all_goals exact ⟨rfl,rfl,rfl⟩

/-- A thread that the reaper is about to visit is that of a node in its batch. -/
theorem reaperMain_threads (queue : List Nat) {env : Env} (at_pc : BatchAt σ.next batch σ.reaper)
    (done : reaperMain σ env = some σ') :
    (∀ x ∈ (taking σ.reaper queue batch).2 ++ (taking σ.reaper queue batch).1, x ∈ batch ++ queue) ∧
      ∀ t, visiting σ'.reaper = some t → ∃ x ∈ batch, (σ.node x).thread = t := by
  cases here : σ.reaper with
  | storeHead x =>
    simp only [reaperMain,here] at done
    cases done
    exact ⟨fun y member => by simpa [taking] using .inr (List.append_nil queue ▸ member),nofun⟩
  | readThread x next n =>
    rw [here] at at_pc
    obtain ⟨rest,rfl,_⟩ := at_pc
    simp only [reaperMain,here] at done
    cases done
    exact ⟨fun _ => id,fun t visits => ⟨x,List.mem_cons_self,Option.some.inj visits⟩⟩
  | freeNode x next n =>
    rw [here] at at_pc
    obtain ⟨rest,rfl,_⟩ := at_pc
    simp only [reaperMain,here] at done
    split at done <;> cases done <;> exact ⟨fun _ => List.mem_cons_of_mem _,nofun⟩
  | fetchSub n =>
    simp only [reaperMain,here] at done
    cases done
    split <;> exact ⟨fun _ => id,nofun⟩
  | spinUnlock list =>
    cases list <;> simp only [reaperMain,here] at done <;> cases done <;> exact ⟨fun _ => id,nofun⟩
  | spinLock =>
    simp only [reaperMain,here] at done
    split at done <;> cases done
    · exact ⟨fun _ => id,fun _ visits => by rw [here] at visits; cases visits⟩
    · exact ⟨fun _ => id,nofun⟩
  | _ =>
    simp only [reaperMain,here] at done
    try split at done
    all_goals cases done
    all_goals exact ⟨fun _ => id,nofun⟩

theorem Carries.reap {env : Env} (carries : Carries σ queue batch) (shape : Shape σ queue batch)
    (done : reaperMain σ env = some σ') :
    Carries σ' (taking σ.reaper queue batch).1 (taking σ.reaper queue batch).2 := by
  obtain ⟨pcs,node,entered⟩ := reaperMain_frame done
  obtain ⟨members,visits⟩ := reaperMain_threads queue shape.batch done
  refine ⟨by rw [pcs,entered]; exact carries.called,by rw [pcs,entered,node]; exact carries.prepared,?_,?_⟩
  · rw [entered,node]
    intro x member
    exact carries.linked x (members x member)
  · intro t visit
    obtain ⟨x,inBatch,isT⟩ := visits t visit
    rw [entered,← isT]
    exact carries.linked x (List.mem_append_left _ inBatch)

/-! ### Steps of the calls -/

/-- A wake changes at most the reaper's program point, from asleep to awake. -/
theorem futexWake_cases (σ : State Proc) :
    σ.futexWake = σ ∨ σ.reaper = .asleep ∧ σ.futexWake = σ.reaperAt .loadCount := by
  unfold State.futexWake
  split
  · exact .inr ⟨‹_›,rfl⟩
  · exact .inl rfl

theorem futexWake_awake (σ : State Proc) : σ.futexWake.reaper ≠ .asleep := by
  unfold State.futexWake
  split
  · intro asleep
    cases asleep
  · exact ‹_›

theorem Shape.wake (shape : Shape σ queue batch) : Shape σ.futexWake queue batch := by
  rcases futexWake_cases σ with same | ⟨asleep,woken⟩
  · rw [same]
    exact shape
  · have empty := shape.batch
    rw [asleep] at empty
    rw [woken]
    exact ⟨shape.chain,empty,shape.settled,shape.enqueuers,trivial,shape.ends⟩

theorem next_setNode (σ : State Proc) (x : Nat) (node : ReapNode) :
    (σ.setNode x node).next = Function.update σ.next x node.next := by
  funext y
  by_cases same : y = x
  · subst same; simp [State.next,State.setNode]
  · simp [State.next,State.setNode,same]

theorem owned_of_filled {pc : EnqueuePc} {x : Nat} (has : filled pc = some x) : owned pc = some x := by
  cases pc <;> first | exact has | cases has

theorem reaperTailAt_outside {head tail : Option Nat} {pc : ReaperPc} (outside : ¬ ReaperLocks pc) :
    ReaperTailAt head tail queue pc := by
  cases pc <;> first | trivial | exact absurd trivial outside

variable [DecidableEq Proc]

/-- What a step of a call does to the lock. -/
theorem reapEnqueue_lock {p : Proc} {env : Env} (done : reapEnqueue σ p env = some σ') :
    ∃ pc, σ'.enqueuer = Function.update σ.enqueuer p pc ∧ (ReaperLocks σ'.reaper ↔ ReaperLocks σ.reaper) ∧
      ((Locks pc ↔ Locks (σ.enqueuer p)) ∧ σ'.lock = σ.lock ∨
        σ.lock = false ∧ σ'.lock = true ∧ Locks pc ∨ Locks (σ.enqueuer p) ∧ ¬ Locks pc ∧ σ'.lock = false) := by
  cases here : σ.enqueuer p with
  | idle => simp [reapEnqueue,here] at done
  | spinLock x =>
    simp only [reapEnqueue,here] at done
    split at done
    · cases done
      exact ⟨.spinLock x,by rw [← here]; simp,.rfl,.inl ⟨.rfl,rfl⟩⟩
    · rename_i free
      cases done
      exact ⟨_,rfl,.rfl,.inr (.inl ⟨by simpa using (not_or.mp free).1,rfl,trivial⟩)⟩
  | spinUnlock =>
    simp only [reapEnqueue,here] at done
    cases done
    exact ⟨_,rfl,.rfl,.inr (.inr ⟨trivial,id,rfl⟩)⟩
  | futexWake =>
    simp only [reapEnqueue,here] at done
    cases done
    rcases futexWake_cases σ with same | ⟨asleep,woken⟩
    · rw [same]
      exact ⟨_,rfl,.rfl,.inl ⟨.rfl,rfl⟩⟩
    · rw [woken]
      exact ⟨_,rfl,by simp [State.goto,State.reaperAt,asleep,ReaperLocks],.inl ⟨.rfl,rfl⟩⟩
  | _ =>
    simp only [reapEnqueue,here] at done
    try split at done
    all_goals try split at done
    all_goals cases done
    all_goals exact ⟨_,rfl,.rfl,.inl ⟨.rfl,rfl⟩⟩

/-- What a step of a call does to the nodes: it keeps its own, links it, or
    allocates one. -/
theorem reapEnqueue_nodes (queue : List Nat) {p : Proc} {env : Env} (done : reapEnqueue σ p env = some σ') :
    ∃ pc, σ'.enqueuer = Function.update σ.enqueuer p pc ∧
      (owned pc = owned (σ.enqueuer p) ∧ σ'.live = σ.live ∧ linking (σ.enqueuer p) queue = queue ∨
        owned pc = none ∧ σ'.live = σ.live ∧
          (∃ x, owned (σ.enqueuer p) = some x ∧ linking (σ.enqueuer p) queue = queue ++ [x]) ∨
        linking (σ.enqueuer p) queue = queue ∧
          ∃ x, owned pc = some x ∧ σ.live x = false ∧ σ'.live = Function.update σ.live x true) := by
  cases here : σ.enqueuer p with
  | idle => simp [reapEnqueue,here] at done
  | malloc t =>
    simp only [reapEnqueue,here] at done
    split at done
    · cases done
      exact ⟨_,rfl,.inl ⟨rfl,rfl,rfl⟩⟩
    · split at done
      · cases done
      · rename_i x _ free
        cases done
        exact ⟨_,rfl,.inr (.inr ⟨rfl,x,rfl,by simpa using free,rfl⟩)⟩
  | spinLock x =>
    simp only [reapEnqueue,here] at done
    split at done <;> cases done
    · exact ⟨.spinLock x,by rw [← here]; simp,.inl ⟨rfl,rfl,rfl⟩⟩
    · exact ⟨_,rfl,.inl ⟨rfl,rfl,rfl⟩⟩
  | storeHead x =>
    simp only [reapEnqueue,here] at done
    cases done
    exact ⟨_,rfl,.inr (.inl ⟨rfl,rfl,x,rfl,rfl⟩)⟩
  | link x oldTail =>
    simp only [reapEnqueue,here] at done
    cases done
    exact ⟨_,rfl,.inr (.inl ⟨rfl,rfl,x,rfl,rfl⟩)⟩
  | futexWake =>
    simp only [reapEnqueue,here] at done
    cases done
    rcases futexWake_cases σ with same | ⟨_,woken⟩
    · rw [same]; exact ⟨_,rfl,.inl ⟨rfl,rfl,rfl⟩⟩
    · rw [woken]; exact ⟨_,rfl,.inl ⟨rfl,rfl,rfl⟩⟩
  | _ =>
    simp only [reapEnqueue,here] at done
    try split at done
    all_goals cases done
    all_goals exact ⟨_,rfl,.inl ⟨rfl,rfl,rfl⟩⟩

theorem Nodes.enqueue {p : Proc} {env : Env} (nodes : Nodes σ queue batch) (done : reapEnqueue σ p env = some σ') :
    Nodes σ' (linking (σ.enqueuer p) queue) batch := by
  obtain ⟨pc,pcs,effect⟩ := reapEnqueue_nodes queue done
  have own : σ'.enqueuer p = pc := by rw [pcs,Function.update_self]
  have other : ∀ q, q ≠ p → σ'.enqueuer q = σ.enqueuer q := fun q different => by
    rw [pcs,Function.update_of_ne different]
  rcases effect with ⟨kept,live,same⟩ | ⟨none,live,x,was,linked⟩ | ⟨same,x,new,free,live⟩
  · have owns : ∀ q, owned (σ'.enqueuer q) = owned (σ.enqueuer q) := by
      intro q
      by_cases isP : q = p
      · rw [isP,own,kept]
      · rw [other q isP]
    rw [same]
    exact ⟨nodes.distinct,live ▸ nodes.linkedLive,fun q y has => live ▸ nodes.ownedLive q y (owns q ▸ has),
      fun q y has => nodes.unlinked q y (owns q ▸ has),fun q r y one two =>
        nodes.unique q r y (owns q ▸ one) (owns r ▸ two)⟩
  · have owns : ∀ q y, owned (σ'.enqueuer q) = some y → q ≠ p ∧ owned (σ.enqueuer q) = some y := by
      intro q y has
      by_cases isP : q = p
      · rw [isP,own,none] at has; cases has
      · exact ⟨isP,other q isP ▸ has⟩
    have fresh := nodes.unlinked p x was
    rw [linked]
    refine ⟨?_,?_,fun q y has => live ▸ nodes.ownedLive q y (owns q y has).2,?_,
      fun q r y one two => nodes.unique q r y (owns q y one).2 (owns r y two).2⟩
    · rw [← List.append_assoc]
      exact List.nodup_append.mpr ⟨nodes.distinct,by simp,fun y inside z isX same => fresh (by
        rw [List.mem_singleton] at isX
        rwa [same,isX] at inside)⟩
    · intro y member
      rw [← List.append_assoc,List.mem_append,List.mem_singleton] at member
      rw [live]
      rcases member with before | isX
      · exact nodes.linkedLive y before
      · exact isX ▸ nodes.ownedLive p x was
    · intro q y has member
      rw [← List.append_assoc,List.mem_append,List.mem_singleton] at member
      rcases member with before | isX
      · exact nodes.unlinked q y (owns q y has).2 before
      · exact (owns q y has).1 (nodes.unique q p x (isX ▸ (owns q y has).2) was)
  · have notX : ∀ y, σ.live y = true → y ≠ x := by
      intro y alive same
      rw [same,free] at alive
      cases alive
    have kept : ∀ y, σ.live y = true → σ'.live y = true := by
      intro y alive
      rw [live,Function.update_of_ne (notX y alive),alive]
    have owns : ∀ q y, owned (σ'.enqueuer q) = some y → q = p ∧ y = x ∨ owned (σ.enqueuer q) = some y := by
      intro q y has
      by_cases isP : q = p
      · rw [isP,own,new] at has; cases has; exact .inl ⟨isP,rfl⟩
      · exact .inr (other q isP ▸ has)
    rw [same]
    refine ⟨nodes.distinct,fun y member => kept y (nodes.linkedLive y member),?_,?_,?_⟩
    · intro q y has
      rcases owns q y has with ⟨_,isX⟩ | before
      · rw [live,isX,Function.update_self]
      · exact kept y (nodes.ownedLive q y before)
    · intro q y has member
      rcases owns q y has with ⟨_,isX⟩ | before
      · exact notX y (nodes.linkedLive y member) isX
      · exact nodes.unlinked q y before member
    · intro q r y one two
      rcases owns q y one with ⟨isP,isX⟩ | before <;> rcases owns r y two with ⟨isP',isX'⟩ | before'
      · rw [isP,isP']
      · exact absurd isX (notX y (nodes.ownedLive r y before'))
      · exact absurd isX' (notX y (nodes.ownedLive q y before))
      · exact nodes.unique q r y before before'

/-- A step of a call that changes neither the chain nor its ends. -/
theorem Shape.quiet (shape : Shape σ queue batch) {p : Proc} {pc : EnqueuePc}
    (pcs : σ'.enqueuer = Function.update σ.enqueuer p pc) (next : σ'.next = σ.next) (head : σ'.head = σ.head)
    (tail : σ'.tail = σ.tail) (reaper : σ'.reaper = σ.reaper)
    (settled : σ'.lock = false → σ.tail = queue.getLast?) (own : TailAt σ.tail queue pc)
    (fill : ∀ x, filled pc = some x → σ.next x = none) : Shape σ' queue batch where
  chain := by rw [next,head]; exact shape.chain
  batch := by rw [next,reaper]; exact shape.batch
  settled := by rw [tail]; exact settled
  enqueuers q := by
    rw [pcs,tail]
    by_cases isP : q = p
    · rw [isP,Function.update_self]; exact own
    · rw [Function.update_of_ne isP]; exact shape.enqueuers q
  reaper := by rw [head,tail,reaper]; exact shape.reaper
  ends q x has := by
    rw [pcs] at has
    rw [next]
    by_cases isP : q = p
    · rw [isP,Function.update_self] at has; exact fill x has
    · rw [Function.update_of_ne isP] at has; exact shape.ends q x has

/-- A step of the call that holds the lock. -/
theorem Shape.locked (shape : Shape σ queue batch) (ex : Exclusive σ) {p : Proc} {pc : EnqueuePc} {queue' : List Nat}
    (inside : Locks (σ.enqueuer p)) (pcs : σ'.enqueuer = Function.update σ.enqueuer p pc)
    (reaper : σ'.reaper = σ.reaper) (lock : σ'.lock = σ.lock) (chain : Chain σ'.next σ'.head queue')
    (batchNext : ∀ x ∈ batch, σ'.next x = σ.next x) (own : TailAt σ'.tail queue' pc) (empty : filled pc = none)
    (kept : ∀ q x, q ≠ p → filled (σ.enqueuer q) = some x → σ'.next x = σ.next x) : Shape σ' queue' batch where
  chain := chain
  batch := by rw [reaper]; exact batchAt_congr batchNext shape.batch
  settled free := by
    rw [lock,ex.taken p inside] at free
    cases free
  enqueuers q := by
    rw [pcs]
    by_cases isP : q = p
    · rw [isP,Function.update_self]; exact own
    · rw [Function.update_of_ne isP]; exact tailAt_outside fun other => isP (ex.enqueuers q p other inside)
  reaper := by rw [reaper]; exact reaperTailAt_outside fun other => ex.reaper other p inside
  ends q x has := by
    rw [pcs] at has
    by_cases isP : q = p
    · rw [isP,Function.update_self,empty] at has; cases has
    · rw [Function.update_of_ne isP] at has
      rw [kept q x isP has]
      exact shape.ends q x has

/-- A call sets the fields of its node, which nobody else has. -/
theorem Shape.fill (shape : Shape σ queue batch) (nodes : Nodes σ queue batch) {p : Proc} {t x : Nat}
    (here : σ.enqueuer p = .fill t x) : Shape ((σ.setNode x ⟨t,none⟩).goto p (.spinLock x)) queue batch := by
  have mine : owned (σ.enqueuer p) = some x := by rw [here]; rfl
  have apart := nodes.unlinked p x mine
  have next : ((σ.setNode x ⟨t,none⟩).goto p (.spinLock x)).next = Function.update σ.next x none :=
    next_setNode σ x ⟨t,none⟩
  refine ⟨?_,?_,shape.settled,fun q => ?_,shape.reaper,fun q y has => ?_⟩
  · rw [next]
    refine chain_congr (fun y member => Function.update_of_ne (fun same => apart ?_) _ _) shape.chain
    exact List.mem_append_right _ (same ▸ member)
  · rw [next]
    refine batchAt_congr (fun y member => Function.update_of_ne (fun same => apart ?_) _ _) shape.batch
    exact List.mem_append_left _ (same ▸ member)
  · by_cases isP : q = p
    · simp [State.goto,isP,TailAt]
    · simpa [State.goto,State.setNode,isP] using shape.enqueuers q
  · rw [next]
    by_cases isX : y = x
    · rw [isX,Function.update_self]
    · rw [Function.update_of_ne isX]
      by_cases isP : q = p
      · simp only [State.goto,isP,Function.update_self] at has
        exact absurd (Option.some.inj has).symm isX
      · simp only [State.goto,State.setNode,Function.update_of_ne isP] at has
        exact shape.ends q y has

/-- The last node of the queue is linked to the node of a call. -/
theorem Shape.link (shape : Shape σ queue batch) (nodes : Nodes σ queue batch) (ex : Exclusive σ) {p : Proc}
    {x oldTail : Nat} (here : σ.enqueuer p = .link x oldTail) :
    Shape ((σ.setNext oldTail (some x)).goto p (.storeTail x)) (queue ++ [x]) batch := by
  have fits := shape.enqueuers p
  rw [here] at fits
  have last : queue.getLast? = some oldTail := fits
  obtain ⟨front,rfl⟩ := List.getLast?_eq_some_iff.mp last
  have mine : owned (σ.enqueuer p) = some x := by rw [here]; rfl
  have apart := nodes.unlinked p x mine
  have next : ((σ.setNext oldTail (some x)).goto p (.storeTail x)).next = Function.update σ.next oldTail (some x) :=
    next_setNode σ oldTail _
  have oldLinked : oldTail ∈ front ++ [oldTail] := List.mem_append_right _ (List.mem_singleton_self _)
  refine shape.locked ex (by rw [here]; trivial) rfl rfl rfl ?_ ?_ ?_ rfl ?_
  · rw [next,List.append_assoc]
    exact chain_link shape.chain (nodes.distinct.sublist (List.sublist_append_right ..))
      (fun member => apart (List.mem_append_right _ member)) (shape.ends p x (by rw [here]; rfl))
  · intro y member
    rw [next]
    refine Function.update_of_ne (fun same => ?_) _ _
    exact (List.nodup_append.mp nodes.distinct).2.2 y member oldTail oldLinked same
  · simp [TailAt]
  · intro q y isP has
    rw [next]
    refine Function.update_of_ne (fun same => ?_) _ _
    exact nodes.unlinked q y (owned_of_filled has) (List.mem_append_right _ (same ▸ oldLinked))

theorem Shape.enqueue {p : Proc} {env : Env} (shape : Shape σ queue batch) (nodes : Nodes σ queue batch)
    (ex : Exclusive σ) (done : reapEnqueue σ p env = some σ') : Shape σ' (linking (σ.enqueuer p) queue) batch := by
  have fits := shape.enqueuers p
  cases here : σ.enqueuer p with
  | idle => simp [reapEnqueue,here] at done
  | malloc t =>
    simp only [reapEnqueue,here] at done
    split at done
    · cases done
      exact shape.quiet rfl rfl rfl rfl rfl shape.settled trivial nofun
    · split at done
      · cases done
      · cases done
        exact shape.quiet rfl rfl rfl rfl rfl shape.settled trivial nofun
  | fill t x =>
    simp only [reapEnqueue,here] at done
    cases done
    exact shape.fill nodes here
  | spinLock x =>
    simp only [reapEnqueue,here] at done
    split at done
    · cases done
      exact shape
    · rename_i free
      cases done
      have unlocked : σ.lock = false := by simpa using (not_or.mp free).1
      exact shape.quiet rfl rfl rfl rfl rfl (fun _ => shape.settled unlocked) (shape.settled unlocked)
        (fun y has => shape.ends p y (by rw [here]; exact has))
  | loadTail x =>
    rw [here] at fits
    have tail : σ.tail = queue.getLast? := fits
    simp only [reapEnqueue,here] at done
    have mine := fun y has => shape.ends p y (by rw [here]; exact has)
    split at done
    · rename_i none
      cases done
      refine shape.quiet rfl rfl rfl rfl rfl shape.settled ?_ mine
      rw [tail] at none
      exact List.getLast?_eq_none_iff.mp none
    · rename_i last some
      cases done
      refine shape.quiet rfl rfl rfl rfl rfl shape.settled ⟨tail,?_⟩ mine
      intro empty
      rw [tail,empty] at some
      cases some
  | storeHead x =>
    rw [here] at fits
    have empty : queue = [] := fits
    simp only [reapEnqueue,here] at done
    cases done
    have ends : σ.next x = none := shape.ends p x (by rw [here]; rfl)
    subst empty
    exact shape.locked ex (by rw [here]; trivial) rfl rfl rfl ⟨rfl,ends⟩ (fun _ _ => rfl) rfl rfl (fun _ _ _ _ => rfl)
  | storeFirstTail x =>
    rw [here] at fits
    have last : queue.getLast? = some x := fits
    simp only [reapEnqueue,here] at done
    cases done
    exact shape.locked ex (by rw [here]; trivial) rfl rfl rfl shape.chain (fun _ _ => rfl) last.symm rfl
      (fun _ _ _ _ => rfl)
  | loadOldTail x =>
    rw [here] at fits
    simp only [reapEnqueue,here] at done
    split at done
    · cases done
    · rename_i oldTail some
      cases done
      exact shape.quiet rfl rfl rfl rfl rfl shape.settled (fits.1.symm.trans some)
        (fun y has => shape.ends p y (by rw [here]; exact has))
  | link x oldTail =>
    simp only [reapEnqueue,here] at done
    cases done
    exact shape.link nodes ex here
  | storeTail x =>
    rw [here] at fits
    have last : queue.getLast? = some x := fits
    simp only [reapEnqueue,here] at done
    cases done
    exact shape.locked ex (by rw [here]; trivial) rfl rfl rfl shape.chain (fun _ _ => rfl) last.symm rfl
      (fun _ _ _ _ => rfl)
  | spinUnlock =>
    rw [here] at fits
    simp only [reapEnqueue,here] at done
    cases done
    exact shape.quiet rfl rfl rfl rfl rfl (fun _ => fits) trivial nofun
  | fetchAdd =>
    simp only [reapEnqueue,here] at done
    split at done <;> cases done <;>
      exact shape.quiet rfl rfl rfl rfl rfl shape.settled trivial nofun
  | futexWake =>
    simp only [reapEnqueue,here] at done
    cases done
    exact shape.wake.quiet rfl rfl rfl rfl rfl shape.wake.settled trivial nofun

/-- What a step of a call does to the counter. -/
theorem reapEnqueue_counts (queue : List Nat) {p : Proc} {env : Env} (done : reapEnqueue σ p env = some σ') :
    ∃ pc, σ'.enqueuer = Function.update σ.enqueuer p pc ∧ processed σ'.reaper = processed σ.reaper ∧
      ((Uncounted pc ↔ Uncounted (σ.enqueuer p)) ∧ σ'.count = σ.count ∧
          (linking (σ.enqueuer p) queue).length = queue.length ∨
        ¬ Uncounted (σ.enqueuer p) ∧ Uncounted pc ∧ σ'.count = σ.count ∧
          (linking (σ.enqueuer p) queue).length = queue.length+1 ∨
        Uncounted (σ.enqueuer p) ∧ ¬ Uncounted pc ∧ σ'.count = σ.count+1 ∧
          (linking (σ.enqueuer p) queue).length = queue.length) := by
  cases here : σ.enqueuer p with
  | idle => simp [reapEnqueue,here] at done
  | malloc t =>
    simp only [reapEnqueue,here] at done
    split at done
    · cases done
      exact ⟨_,rfl,rfl,.inl ⟨.rfl,rfl,rfl⟩⟩
    · split at done <;> cases done
      exact ⟨_,rfl,rfl,.inl ⟨.rfl,rfl,rfl⟩⟩
  | spinLock x =>
    simp only [reapEnqueue,here] at done
    split at done <;> cases done
    · exact ⟨.spinLock x,by rw [← here]; simp,rfl,.inl ⟨.rfl,rfl,rfl⟩⟩
    · exact ⟨_,rfl,rfl,.inl ⟨.rfl,rfl,rfl⟩⟩
  | storeHead x =>
    simp only [reapEnqueue,here] at done
    cases done
    exact ⟨_,rfl,rfl,.inr (.inl ⟨id,trivial,rfl,by simp [linking]⟩)⟩
  | link x oldTail =>
    simp only [reapEnqueue,here] at done
    cases done
    exact ⟨_,rfl,rfl,.inr (.inl ⟨id,trivial,rfl,by simp [linking]⟩)⟩
  | fetchAdd =>
    simp only [reapEnqueue,here] at done
    split at done <;> cases done <;> exact ⟨_,rfl,rfl,.inr (.inr ⟨trivial,id,rfl,rfl⟩)⟩
  | futexWake =>
    simp only [reapEnqueue,here] at done
    cases done
    rcases futexWake_cases σ with same | ⟨asleep,woken⟩
    · rw [same]; exact ⟨_,rfl,rfl,.inl ⟨.rfl,rfl,rfl⟩⟩
    · rw [woken]; exact ⟨_,rfl,by rw [asleep]; rfl,.inl ⟨.rfl,rfl,rfl⟩⟩
  | _ =>
    simp only [reapEnqueue,here] at done
    try split at done
    all_goals cases done
    all_goals exact ⟨_,rfl,rfl,.inl ⟨.rfl,rfl,rfl⟩⟩

/-- A step of a call leaves a sleeping reaper asleep only if it is not the wake,
    and counts from zero only on the way to the wake. -/
theorem reapEnqueue_sleep {p : Proc} {env : Env} (done : reapEnqueue σ p env = some σ') (asleep : σ'.reaper = .asleep) :
    σ.reaper = .asleep ∧ σ.enqueuer p ≠ .futexWake ∧
      (σ'.count = σ.count ∨ σ.count ≠ 0 ∨ σ'.enqueuer p = .futexWake) := by
  cases here : σ.enqueuer p with
  | idle => simp [reapEnqueue,here] at done
  | fetchAdd =>
    simp only [reapEnqueue,here] at done
    split at done <;> cases done
    · exact ⟨asleep,by simp,.inr (.inr (Function.update_self ..))⟩
    · rename_i positive
      exact ⟨asleep,by simp,.inr (.inl positive)⟩
  | futexWake =>
    simp only [reapEnqueue,here] at done
    cases done
    exact absurd asleep (futexWake_awake σ)
  | _ =>
    simp only [reapEnqueue,here] at done
    try split at done
    all_goals try split at done
    all_goals cases done
    all_goals exact ⟨asleep,by simp,.inl rfl⟩

theorem Accounts.enqueue {p : Proc} {env : Env} (accounts : Accounts σ queue batch)
    (done : reapEnqueue σ p env = some σ') :
    Accounts σ' (linking (σ.enqueuer p) queue) batch where
  balance := by
    obtain ⟨pc,pcs,dealt,effect⟩ := reapEnqueue_counts queue done
    obtain ⟨uncounted,members,balance⟩ := accounts.balance
    have own : σ'.enqueuer p = pc := by rw [pcs,Function.update_self]
    have other : ∀ q, q ≠ p → σ'.enqueuer q = σ.enqueuer q := fun q different => by
      rw [pcs,Function.update_of_ne different]
    rw [dealt]
    rcases effect with ⟨same,count,size⟩ | ⟨was,is,count,size⟩ | ⟨was,is,count,size⟩
    · refine ⟨uncounted,fun q => ?_,by rw [count,size]; exact balance⟩
      by_cases isP : q = p
      · rw [isP,own,same,members]
      · rw [other q isP,members]
    · have new : p ∉ uncounted := fun member => was ((members p).mp member)
      refine ⟨insert p uncounted,fun q => ?_,?_⟩
      · rw [Finset.mem_insert]
        by_cases isP : q = p
        · simp [isP,own,is]
        · simp [isP,other q isP,members]
      · rw [Finset.card_insert_of_notMem new,count,size]
        push_cast
        omega
    · have old : p ∈ uncounted := (members p).mpr was
      refine ⟨uncounted.erase p,fun q => ?_,?_⟩
      · rw [Finset.mem_erase]
        by_cases isP : q = p
        · simp [isP,own,is]
        · simp [isP,other q isP,members]
      · have positive := Finset.card_pos.mpr ⟨p,old⟩
        rw [Finset.card_erase_of_mem old,count,size]
        omega
  awake asleep := by
    obtain ⟨slept,notWake,counted⟩ := reapEnqueue_sleep done asleep
    obtain ⟨pc,pcs,_⟩ := reapEnqueue_counts queue done
    have waking : (∃ q, σ.enqueuer q = .futexWake) → ∃ q, σ'.enqueuer q = .futexWake := by
      rintro ⟨q,wakes⟩
      refine ⟨q,?_⟩
      rw [pcs,Function.update_of_ne,wakes]
      intro isP
      exact notWake (isP ▸ wakes)
    rcases counted with same | nonzero | wakes
    · rcases accounts.awake slept with zero | wakes
      · exact .inl (same.trans zero)
      · exact .inr (waking wakes)
    · exact .inr (waking ((accounts.awake slept).resolve_left nonzero))
    · exact .inr ⟨p,wakes⟩

/-- What a step of a call does to the threads that are on their way. -/
theorem reapEnqueue_threads (queue : List Nat) {p : Proc} {env : Env} (done : reapEnqueue σ p env = some σ') :
    ∃ pc, σ'.enqueuer = Function.update σ.enqueuer p pc ∧ σ'.entered = σ.entered ∧
      (∀ t, visiting σ'.reaper = some t → visiting σ.reaper = some t) ∧
      (∀ t, calling pc = some t → calling (σ.enqueuer p) = some t) ∧
      (∀ x ∈ linking (σ.enqueuer p) queue, x ∈ queue ∨ filled (σ.enqueuer p) = some x) ∧
      ((∀ x, (σ'.node x).thread = (σ.node x).thread) ∧
          (∀ x, filled pc = some x → filled (σ.enqueuer p) = some x) ∨
        ∃ t x, calling (σ.enqueuer p) = some t ∧ owned (σ.enqueuer p) = some x ∧ filled pc = some x ∧
          (σ'.node x).thread = t ∧ ∀ y, y ≠ x → (σ'.node y).thread = (σ.node y).thread) := by
  cases here : σ.enqueuer p with
  | idle => simp [reapEnqueue,here] at done
  | malloc t =>
    simp only [reapEnqueue,here] at done
    split at done
    · cases done
      exact ⟨_,rfl,rfl,fun _ => id,nofun,fun _ => .inl,.inl ⟨fun _ => rfl,nofun⟩⟩
    · split at done <;> cases done
      exact ⟨_,rfl,rfl,fun _ => id,fun _ => id,fun _ => .inl,.inl ⟨fun _ => rfl,nofun⟩⟩
  | fill t x =>
    simp only [reapEnqueue,here] at done
    cases done
    exact ⟨_,rfl,rfl,fun _ => id,nofun,fun _ => .inl,.inr ⟨t,x,rfl,rfl,rfl,
      by simp [State.goto,State.setNode],fun y other => by simp [State.goto,State.setNode,other]⟩⟩
  | spinLock x =>
    simp only [reapEnqueue,here] at done
    split at done <;> cases done
    · exact ⟨.spinLock x,by rw [← here]; simp,rfl,fun _ => id,fun _ => id,fun _ => .inl,
        .inl ⟨fun _ => rfl,fun _ => id⟩⟩
    · exact ⟨_,rfl,rfl,fun _ => id,nofun,fun _ => .inl,.inl ⟨fun _ => rfl,fun _ => id⟩⟩
  | storeHead x =>
    simp only [reapEnqueue,here] at done
    cases done
    exact ⟨_,rfl,rfl,fun _ => id,nofun,fun y member => by simpa [linking,filled,eq_comm] using member,
      .inl ⟨fun _ => rfl,nofun⟩⟩
  | link x oldTail =>
    simp only [reapEnqueue,here] at done
    cases done
    refine ⟨_,rfl,rfl,fun _ => id,nofun,fun y member => by simpa [linking,filled,eq_comm] using member,
      .inl ⟨fun y => ?_,nofun⟩⟩
    by_cases isOld : y = oldTail
    · subst isOld; simp [State.goto,State.setNext,State.setNode]
    · simp [State.goto,State.setNext,State.setNode,isOld]
  | futexWake =>
    simp only [reapEnqueue,here] at done
    cases done
    rcases futexWake_cases σ with same | ⟨_,woken⟩
    · rw [same]
      exact ⟨_,rfl,rfl,fun _ => id,nofun,fun _ => .inl,.inl ⟨fun _ => rfl,nofun⟩⟩
    · rw [woken]
      exact ⟨_,rfl,rfl,nofun,nofun,fun _ => .inl,
        .inl ⟨fun _ => rfl,nofun⟩⟩
  | _ =>
    simp only [reapEnqueue,here] at done
    try split at done
    all_goals cases done
    all_goals
      exact ⟨_,rfl,rfl,fun _ => id,nofun,fun _ => .inl,
        .inl ⟨fun _ => rfl,fun _ => id⟩⟩

theorem Carries.enqueue {p : Proc} {env : Env} (carries : Carries σ queue batch) (nodes : Nodes σ queue batch)
    (done : reapEnqueue σ p env = some σ') : Carries σ' (linking (σ.enqueuer p) queue) batch := by
  obtain ⟨pc,pcs,entered,visits,calls,members,effect⟩ := reapEnqueue_threads queue done
  have own : σ'.enqueuer p = pc := by rw [pcs,Function.update_self]
  have other : ∀ q, q ≠ p → σ'.enqueuer q = σ.enqueuer q := fun q different => by
    rw [pcs,Function.update_of_ne different]
  have inside : ∀ x ∈ batch ++ linking (σ.enqueuer p) queue, x ∈ batch ++ queue ∨ filled (σ.enqueuer p) = some x := by
    intro x member
    rcases List.mem_append.mp member with before | after
    · exact .inl (List.mem_append_left _ before)
    · exact (members x after).imp_left (List.mem_append_right _)
  refine ⟨fun q t is => ?_,fun q x is => ?_,fun x member => ?_,fun t is => entered ▸ carries.visited t (visits t is)⟩
  · rw [entered]
    by_cases isP : q = p
    · rw [isP,own] at is; exact carries.called p t (calls t is)
    · rw [other q isP] at is; exact carries.called q t is
  · rw [entered]
    rcases effect with ⟨same,fills⟩ | ⟨t,y,call,owns,fills,isT,same⟩
    · rw [same]
      by_cases isP : q = p
      · rw [isP,own] at is; exact carries.prepared p x (fills x is)
      · rw [other q isP] at is; exact carries.prepared q x is
    · by_cases isP : q = p
      · rw [isP,own,fills] at is
        cases is
        rw [isT]
        exact carries.called p t call
      · rw [other q isP] at is
        rw [same x fun isY => isP (nodes.unique q p y (isY ▸ owned_of_filled is) owns)]
        exact carries.prepared q x is
  · rw [entered]
    have before := inside x member
    have linked : 1 ≤ σ.entered (σ.node x).thread := before.elim (carries.linked x) (carries.prepared p x)
    rcases effect with ⟨same,_⟩ | ⟨t,y,call,owns,_,isT,same⟩
    · rw [same]; exact linked
    · by_cases isY : x = y
      · rw [isY,isT]; exact carries.called p t call
      · rw [same x isY]; exact linked

/-! ### Every step -/

theorem exclusive_step {a : Act Proc} (ex : Exclusive σ) (done : step σ a = some σ') : Exclusive σ' := by
  cases a with
  | enter p t =>
    simp only [step] at done
    split at done <;> cases done
    rename_i top
    have same : ∀ q, Locks ((σ.enter p t).enqueuer q) ↔ Locks (σ.enqueuer q) := by
      intro q
      by_cases own : q = p
      · subst own; simp [State.enter,State.goto,top,Locks]
      · simp [State.enter,State.goto,own]
    exact ⟨fun q r one other => ex.enqueuers q r ((same q).mp one) ((same r).mp other),
      fun inside q one => ex.reaper inside q ((same q).mp one),fun q one => ex.taken q ((same q).mp one),
      ex.takenReaper,fun taken => (ex.holder taken).imp_right fun ⟨q,one⟩ => ⟨q,(same q).mpr one⟩⟩
  | enqueue p env =>
    obtain ⟨pc,pcs,reaper,effect⟩ := reapEnqueue_lock done
    have own : σ'.enqueuer p = pc := by rw [pcs,Function.update_self]
    have other : ∀ q, q ≠ p → σ'.enqueuer q = σ.enqueuer q := fun q different => by
      rw [pcs,Function.update_of_ne different]
    rcases effect with ⟨same,lock⟩ | ⟨free,lock,holds⟩ | ⟨was,out,lock⟩
    · have kept : ∀ q, Locks (σ'.enqueuer q) ↔ Locks (σ.enqueuer q) := by
        intro q
        by_cases isP : q = p
        · rw [isP,own,same]
        · rw [other q isP]
      exact ⟨fun q r one two => ex.enqueuers q r ((kept q).mp one) ((kept r).mp two),
        fun inside q one => ex.reaper (reaper.mp inside) q ((kept q).mp one),
        fun q one => lock ▸ ex.taken q ((kept q).mp one),fun inside => lock ▸ ex.takenReaper (reaper.mp inside),
        fun taken => (ex.holder (lock ▸ taken)).imp reaper.mpr fun ⟨q,one⟩ => ⟨q,(kept q).mpr one⟩⟩
    · -- The lock was free, so that no other process is inside.
      have onlyP : ∀ q, Locks (σ'.enqueuer q) → q = p := by
        intro q one
        by_contra isP
        rw [other q isP] at one
        exact absurd (ex.taken q one) (by simp [free])
      have reaperOut : ¬ ReaperLocks σ'.reaper := fun inside =>
        absurd (ex.takenReaper (reaper.mp inside)) (by simp [free])
      exact ⟨fun q r one two => (onlyP q one).trans (onlyP r two).symm,fun inside => absurd inside reaperOut,
        fun _ _ => lock,fun _ => lock,fun _ => .inr ⟨p,own ▸ holds⟩⟩
    · have none : ∀ q, ¬ Locks (σ'.enqueuer q) := by
        intro q one
        by_cases isP : q = p
        · rw [isP,own] at one; exact out one
        · rw [other q isP] at one; exact isP (ex.enqueuers q p one was)
      have reaperOut : ¬ ReaperLocks σ'.reaper := fun inside => ex.reaper (reaper.mp inside) p was
      exact ⟨fun q _ one => absurd one (none q),fun inside => absurd inside reaperOut,fun q one => absurd one (none q),
        fun inside => absurd inside reaperOut,fun taken => absurd (lock.symm.trans taken) (by simp)⟩
  | reap env =>
    obtain ⟨pcs,effect⟩ := reaperMain_lock done
    rcases effect with ⟨same,lock⟩ | ⟨free,lock,holds⟩ | ⟨was,out,lock⟩
    · exact ⟨by rw [pcs]; exact ex.enqueuers,by rw [pcs]; exact fun inside => ex.reaper (same.mp inside),
        by rw [pcs,lock]; exact ex.taken,fun inside => lock ▸ ex.takenReaper (same.mp inside),
        by rw [pcs,lock,same]; exact ex.holder⟩
    · have none : ∀ q, ¬ Locks (σ'.enqueuer q) := by
        intro q one
        rw [pcs] at one
        exact absurd (ex.taken q one) (by simp [free])
      exact ⟨fun q _ one => absurd one (none q),fun _ => none,fun _ _ => lock,fun _ => lock,fun _ => .inl holds⟩
    · have none : ∀ q, ¬ Locks (σ'.enqueuer q) := by rw [pcs]; exact ex.reaper was
      exact ⟨fun q _ one => absurd one (none q),fun inside => absurd inside out,fun q one => absurd one (none q),
        fun inside => absurd inside out,fun taken => absurd (lock.symm.trans taken) (by simp)⟩

theorem Invariant.enter (inv : Invariant σ queue batch) {p : Proc} (t : Nat) (top : σ.enqueuer p = .idle)
    (exclusive : Exclusive (σ.enter p t)) : Invariant (σ.enter p t) queue batch where
  exclusive := exclusive
  nodes := by
    have owns : ∀ q, owned ((σ.enter p t).enqueuer q) = owned (σ.enqueuer q) := by
      intro q
      by_cases isP : q = p
      · subst isP; simp [State.enter,State.goto,top,owned]
      · simp [State.enter,State.goto,isP]
    exact ⟨inv.nodes.distinct,inv.nodes.linkedLive,fun q x has => inv.nodes.ownedLive q x (owns q ▸ has),
      fun q x has => inv.nodes.unlinked q x (owns q ▸ has),
      fun q r x one two => inv.nodes.unique q r x (owns q ▸ one) (owns r ▸ two)⟩
  shape := inv.shape.quiet rfl rfl rfl rfl rfl inv.shape.settled trivial nofun
  accounts := by
    obtain ⟨uncounted,members,balance⟩ := inv.accounts.balance
    refine ⟨⟨uncounted,fun q => ?_,balance⟩,fun asleep => ?_⟩
    · rw [members]
      by_cases isP : q = p
      · subst isP; simp [State.enter,State.goto,top,Uncounted]
      · simp [State.enter,State.goto,isP]
    · rcases inv.accounts.awake asleep with zero | ⟨q,wakes⟩
      · exact .inl zero
      · have isNotP : q ≠ p := by
          intro isP
          rw [isP,top] at wakes
          cases wakes
        exact .inr ⟨q,by simpa [State.enter,State.goto,isNotP] using wakes⟩
  carries := by
    have more : ∀ u, σ.entered u ≤ (σ.enter p t).entered u := by
      intro u
      by_cases isT : u = t
      · subst isT; simp [State.enter]
      · simp [State.enter,isT]
    refine ⟨fun q u is => ?_,fun q x is => ?_,fun x member => ?_,fun u is => ?_⟩
    · by_cases isP : q = p
      · subst isP
        simp only [State.enter,State.goto,Function.update_self,calling,Option.some.injEq] at is
        simp [State.enter,is]
      · simp only [State.enter,State.goto,Function.update_of_ne isP] at is
        exact (inv.carries.called q u is).trans (more u)
    · by_cases isP : q = p
      · subst isP; simp [State.enter,State.goto,filled] at is
      · simp only [State.enter,State.goto,Function.update_of_ne isP] at is
        exact (inv.carries.prepared q x is).trans (more _)
    · exact (inv.carries.linked x member).trans (more _)
    · exact (inv.carries.visited u is).trans (more u)

/-- Queue and batch after a step. -/
def moving (σ : State Proc) (queue batch : List Nat) : Act Proc → List Nat × List Nat
  | .enter _ _ => (queue,batch)
  | .enqueue p _ => (linking (σ.enqueuer p) queue,batch)
  | .reap _ => taking σ.reaper queue batch

theorem Invariant.step {a : Act Proc} (inv : Invariant σ queue batch) (done : step σ a = some σ') :
    Invariant σ' (moving σ queue batch a).1 (moving σ queue batch a).2 := by
  have exclusive := exclusive_step inv.exclusive done
  cases a with
  | enter p t =>
    simp only [ReapQueue.step] at done
    split at done <;> cases done
    exact inv.enter t ‹_› exclusive
  | enqueue p env =>
    exact ⟨exclusive,inv.nodes.enqueue done,inv.shape.enqueue inv.nodes inv.exclusive done,
      inv.accounts.enqueue done,inv.carries.enqueue inv.nodes done⟩
  | reap env =>
    exact ⟨exclusive,inv.nodes.reap inv.shape done,inv.shape.reap inv.exclusive done,
      inv.accounts.reap inv.shape done,inv.carries.reap inv.shape done⟩

theorem invariant_step {a : Act Proc} (inv : Invariant σ queue batch) (done : step σ a = some σ') :
    ∃ queue' batch', Invariant σ' queue' batch' :=
  ⟨_,_,inv.step done⟩

theorem run_invariant {acts : List (Act Proc)} (ran : Transition.run step (start Proc) acts = some σ) :
    ∃ queue batch, Invariant σ queue batch :=
  Transition.run_invariant (P := fun σ => ∃ queue batch, Invariant σ queue batch)
    (fun _ _ _ ⟨_,_,inv⟩ done => invariant_step inv done) ran ⟨[],[],start_invariant⟩

end Os5Sem.ReapInvariant

import Os5Sem.Chains
import Mathlib.Data.List.Nodup
import Mathlib.Data.List.Perm.Subperm

/-!
The list of `list.c`: nodes and storages in a heap, `storage_init`,
`storage_destroy` and the random strings of the nodes. The three variants of the
program differ only in the type of a node's lock, which belongs to the state of
the running program (`Os5Sem.ListProgram`). `malloc` may fail at any call; the
address of a block is the number of the call that returned it, and the blocks
returned and those freed are recorded.
-/
namespace Os5Sem.ListStorage
open Os5Sem.Chains

/-- `struct _Node` without its lock. The value is the string up to its
    terminating zero. -/
structure Node where
  value : List Char
  next : Option Nat

/-- `struct _Storage`, with the address of its own block. Once built, `first` is
    never the null pointer. -/
structure Storage where
  self : Nat
  first : Nat
  size : Nat

/-- The heap: what the nodes hold, the number of `malloc` calls, the blocks they
    returned and the blocks given to `free`, in order. -/
structure Heap where
  node : Nat → Node
  calls : Nat
  malloced : List Nat
  freed : List Nat

def Heap.empty : Heap := ⟨fun _ => ⟨[],none⟩,0,[],[]⟩

def Heap.next (h : Heap) (x : Nat) : Option Nat := (h.node x).next
def Heap.value (h : Heap) (x : Nat) : List Char := (h.node x).value

def Heap.setNode (h : Heap) (x : Nat) (node : Node) : Heap := { h with node := Function.update h.node x node }
def Heap.setNext (h : Heap) (x : Nat) (p : Option Nat) : Heap := h.setNode x { h.node x with next := p }
def Heap.free (h : Heap) (x : Nat) : Heap := { h with freed := h.freed ++ [x] }

/-- `malloc`, which succeeds at the calls that `succeeds` tells. -/
def malloc (succeeds : Nat → Bool) (h : Heap) : Option Nat × Heap :=
  if succeeds h.calls then
    (some h.calls,{ h with calls := h.calls+1, malloced := h.malloced ++ [h.calls] })
  else (none,{ h with calls := h.calls+1 })

/-- The size of a pointer: both `sizeof` in `generate_gandom_string` have a
    pointer as their operand. -/
def sizeofPointer : Nat := 8

def charset : List Char := "0123456789abcdefghijklmnopqrstuvwxyzABCDEFGHIJKLMNOPQRSTUVWXYZ".toList

/-- The string that `generate_gandom_string` leaves and the number of `rand`
    results used up; `rand i` is the `i`-th result. -/
def generateGandomString (rand : Nat → Nat) (used : Nat) : List Char × Nat :=
  let charsetSize := sizeofPointer - 1
  let maxSize := sizeofPointer - 1
  let strLen := rand used % maxSize + 1
  ((List.range strLen).map fun i => charset.getD (rand (used+1+i) % charsetSize) '0',used+1+strLen)

/-- The loop of `storage_destroy`; `fuel` bounds the number of nodes. -/
def destroyNodes : Nat → Option Nat → Heap → Heap
  | fuel+1, some x, h => destroyNodes fuel (h.next x) (h.free x)
  | _, _, h => h

def storageDestroy (s : Storage) (h : Heap) : Heap :=
  (destroyNodes h.calls (some s.first) h).free s.self

/-- The loop of `storage_init`: `left` nodes are still to be made, `prev` is the
    last one made. -/
def initNodes (succeeds : Nat → Bool) (rand : Nat → Nat) (s : Storage) :
    Nat → Nat → Nat → Heap → Option Storage × Heap
  | 0, _, _, h => (some s,h)
  | left+1, prev, used, h =>
    match malloc succeeds h with
    | (none,h) => (none,storageDestroy s h)
    | (some cur,h) =>
      let text := generateGandomString rand used
      initNodes succeeds rand s left cur text.2 ((h.setNode cur ⟨text.1,none⟩).setNext prev (some cur))

/-- `storage_init`: the storage, if it was built, and the heap it leaves. -/
def storageInit (n : Int) (succeeds : Nat → Bool) (rand : Nat → Nat) : Option Storage × Heap :=
  if n ≤ 0 then (none,.empty)
  else
    match malloc succeeds .empty with
    | (none,h) => (none,h)
    | (some self,h) =>
      match malloc succeeds h with
      -- The storage's own block is not freed here.
      | (none,h) => (none,h)
      | (some first,h) =>
        initNodes succeeds rand ⟨self,first,n.toNat⟩ n.toNat first 0 (h.setNode first ⟨[],none⟩)

/-! ### What a built storage holds -/

/-- The storage holds the sentinel and then the given nodes. -/
structure Holds (s : Storage) (h : Heap) (nodes : List Nat) : Prop where
  chain : Chain h.next (some s.first) (s.first :: nodes)
  distinct : (s.first :: nodes).Nodup
  size : nodes.length = s.size

theorem malloc_some {succeeds : Nat → Bool} {h h' : Heap} {x : Nat} (done : malloc succeeds h = (some x,h')) :
    succeeds h.calls = true ∧ x = h.calls ∧ h' = { h with calls := h.calls+1, malloced := h.malloced ++ [h.calls] } :=
      by
  unfold malloc at done
  split at done
  · cases done; exact ⟨‹_›,rfl,rfl⟩
  · cases done

theorem malloc_none {succeeds : Nat → Bool} {h h' : Heap} (done : malloc succeeds h = (none,h')) :
    succeeds h.calls = false ∧ h' = { h with calls := h.calls+1 } := by
  unfold malloc at done
  split at done
  · cases done
  · cases done; exact ⟨eq_false_of_ne_true ‹_›,rfl⟩

theorem next_setNode (h : Heap) (x : Nat) (node : Node) :
    (h.setNode x node).next = Function.update h.next x node.next := by
  funext y
  by_cases same : y = x
  · subst same; simp [Heap.next,Heap.setNode]
  · simp [Heap.next,Heap.setNode,same]

theorem next_setNext (h : Heap) (x : Nat) (p : Option Nat) :
    (h.setNext x p).next = Function.update h.next x p := next_setNode h x _

/-- A storage under construction: its own block, the sentinel and the nodes made so
    far are the blocks allocated, and none has been freed. -/
structure Built (s : Storage) (h : Heap) (made : List Nat) : Prop where
  chain : Chain h.next (some s.first) (s.first :: made)
  distinct : (s.self :: s.first :: made).Nodup
  malloced : h.malloced = s.self :: s.first :: made
  freed : h.freed = []
  below : ∀ x ∈ h.malloced, x < h.calls

variable {succeeds : Nat → Bool} {rand : Nat → Nat} {s : Storage} {h : Heap} {made : List Nat}

/-- A new node is linked behind the last one. -/
theorem Built.extend (built : Built s h made) {front : List Nat} {prev cur : Nat} {h1 : Heap}
    (ends : s.first :: made = front ++ [prev]) (allocated : malloc succeeds h = (some cur,h1)) (value : List Char) :
    Built s ((h1.setNode cur ⟨value,none⟩).setNext prev (some cur)) (made ++ [cur]) := by
  obtain ⟨_,rfl,rfl⟩ := malloc_some allocated
  have fresh : h.calls ∉ s.self :: s.first :: made := fun member =>
    absurd (built.below _ (built.malloced ▸ member)) (Nat.lt_irrefl _)
  have distinct := built.distinct
  rw [List.nodup_cons,ends] at distinct
  have whole : s.self :: s.first :: (made ++ [h.calls]) = (s.self :: s.first :: made) ++ [h.calls] := by simp
  constructor
  case chain =>
    rw [next_setNext,next_setNode,← List.cons_append,ends,List.append_assoc]
    exact chain_snoc (ends ▸ built.chain) distinct.2 fun member => fresh (List.mem_cons_of_mem _ (ends ▸ member))
  case distinct =>
    rw [whole]
    exact List.Nodup.append built.distinct (List.nodup_singleton _) (List.disjoint_singleton.mpr fresh)
  case malloced =>
    rw [whole,← built.malloced]
    rfl
  case freed => exact built.freed
  case below =>
    intro x member
    show x < h.calls+1
    rcases List.mem_append.mp member with old | new
    · exact Nat.lt_succ_of_lt (built.below x old)
    · rw [List.mem_singleton.mp new]
      exact Nat.lt_succ_self _

/-! ### Release -/

/-- Every block that was allocated has been freed once. -/
def Released (h : Heap) : Prop := h.freed.Perm h.malloced ∧ h.malloced.Nodup

/-- The loop of `storage_destroy` frees the nodes of the chain. -/
theorem destroyNodes_chain {fuel : Nat} {p : Option Nat} {l : List Nat} (chain : Chain h.next p l)
    (enough : l.length ≤ fuel) : destroyNodes fuel p h = { h with freed := h.freed ++ l } := by
  induction l generalizing fuel p h with
  | nil =>
    rw [show p = none from chain]
    cases fuel <;> simp [destroyNodes]
  | cons x rest ih =>
    obtain ⟨rfl,chain⟩ := chain
    cases fuel with
    | zero => cases enough
    | succ fuel =>
      have freed : Chain (h.free x).next (h.next x) rest := chain
      rw [destroyNodes,ih freed (Nat.le_of_succ_le_succ enough)]
      simp [Heap.free]

theorem storageDestroy_chain {nodes : List Nat} (chain : Chain h.next (some s.first) (s.first :: nodes))
    (enough : nodes.length < h.calls) :
    storageDestroy s h = { h with freed := h.freed ++ s.first :: nodes ++ [s.self] } := by
  rw [storageDestroy,destroyNodes_chain chain enough]
  rfl

/-- Distinct numbers below a bound. -/
theorem Built.length_lt (built : Built s h made) : made.length < h.calls := by
  have blocks := (List.Nodup.subperm built.distinct fun x member =>
    List.mem_range.mpr (built.below x (built.malloced ▸ member))).length_le
  simp only [List.length_cons,List.length_range] at blocks
  omega

/-- What is under construction is released by `storage_destroy`. -/
theorem Built.destroy (built : Built s h made) {h' : Heap} (same : h'.next = h.next) (calls : h.calls ≤ h'.calls)
    (malloced : h'.malloced = h.malloced) (freed : h'.freed = h.freed) : Released (storageDestroy s h') := by
  rw [storageDestroy_chain (same ▸ built.chain) (Nat.lt_of_lt_of_le built.length_lt calls)]
  refine ⟨?_,?_⟩
  · show (h'.freed ++ s.first :: made ++ [s.self]).Perm h'.malloced
    rw [freed,malloced,built.freed,built.malloced]
    exact List.perm_append_singleton s.self (s.first :: made)
  · show h'.malloced.Nodup
    rw [malloced,built.malloced]
    exact built.distinct

/-! ### The loop of `storage_init` -/

/-- The loop makes the nodes still to be made, or releases everything when one of
    its allocations fails. -/
theorem initNodes_outcome (rand : Nat → Nat) (left used : Nat) {prev : Nat} {front : List Nat} (built : Built s h made)
    (ends : s.first :: made = front ++ [prev]) :
    (∃ h' more, initNodes succeeds rand s left prev used h = (some s,h') ∧ Built s h' (made ++ more) ∧
      more.length = left ∧ ∀ i, h.calls ≤ i → i < h.calls+left → succeeds i = true) ∨
    ∃ h', initNodes succeeds rand s left prev used h = (none,h') ∧ Released h' ∧
      ∃ i, h.calls ≤ i ∧ i < h.calls+left ∧ succeeds i = false := by
  induction left generalizing used prev h made front with
  | zero => exact .inl ⟨h,[],rfl,by simpa using built,rfl,fun i from_ below => by omega⟩
  | succ left ih =>
    unfold initNodes
    split
    · rename_i h1 allocated
      obtain ⟨fails,rfl⟩ := malloc_none allocated
      exact .inr ⟨_,rfl,built.destroy rfl (Nat.le_succ _) rfl rfl,h.calls,Nat.le_refl _,by omega,fails⟩
    · rename_i cur h1 allocated
      obtain ⟨succeeded,_,is⟩ := malloc_some allocated
      have calls : h1.calls = h.calls+1 := by rw [is]
      have further : ∀ i, i < h.calls+(left+1) ↔ i < h1.calls+left := fun i => by omega
      have extended : s.first :: (made ++ [cur]) = (front ++ [prev]) ++ [cur] := by rw [← List.cons_append,ends]
      rcases ih _ (built.extend ends allocated _) extended with
        ⟨h',more,done,whole,size,all⟩ | ⟨h',done,released,i,after,below,fails⟩
      · refine .inl ⟨h',cur :: more,done,by simpa using whole,by rw [List.length_cons,size],fun i after below => ?_⟩
        rcases Nat.eq_or_lt_of_le after with isFirst | later
        · exact isFirst ▸ succeeded
        · exact all i (show h1.calls ≤ i by omega) ((further i).mp below)
      · have later : h1.calls ≤ i := after
        exact .inr ⟨h',done,released,i,by omega,(further i).mpr below,fails⟩

/-- The sentinel of a new storage. -/
theorem built_first {n : Int} {self first : Nat} {h1 h2 : Heap} (storage : malloc succeeds .empty = (some self,h1))
    (sentinel : malloc succeeds h1 = (some first,h2)) :
    Built ⟨self,first,n.toNat⟩ (h2.setNode first ⟨[],none⟩) [] := by
  obtain ⟨_,rfl,rfl⟩ := malloc_some storage
  obtain ⟨_,rfl,rfl⟩ := malloc_some sentinel
  constructor
  case chain =>
    rw [next_setNode]
    exact ⟨rfl,by simp [Chain]⟩
  case distinct => simp [Heap.empty]
  case malloced => rfl
  case freed => rfl
  case below => simp [Heap.empty,Heap.setNode]

/-- `storage_init` makes the storage, or returns the null pointer, when one of its
    allocations fails. Then everything has been released, except when that of the
    sentinel failed. -/
theorem storageInit_outcome {n : Int} (positive : 1 ≤ n) :
    (∃ s h nodes, storageInit n succeeds rand = (some s,h) ∧ Built s h nodes ∧ (s.size : Int) = n ∧
      nodes.length = s.size ∧ ∀ i < n.toNat+2, succeeds i = true) ∨
    ∃ h, storageInit n succeeds rand = (none,h) ∧ (Released h ↔ ¬ (succeeds 0 = true ∧ succeeds 1 = false)) ∧
      ∃ i < n.toNat+2, succeeds i = false := by
  rw [storageInit,if_neg (by omega)]
  split
  · rename_i h1 storage
    obtain ⟨fails,rfl⟩ := malloc_none storage
    refine .inr ⟨_,rfl,iff_of_true ⟨.refl _,List.nodup_nil⟩ fun both => ?_,0,by omega,fails⟩
    exact absurd (both.1.symm.trans fails) (by simp)
  · rename_i self h1 storage
    obtain ⟨first_call,_,is⟩ := malloc_some storage
    have second : h1.calls = 1 := by rw [is]; rfl
    split
    · rename_i h2 sentinel
      obtain ⟨fails,rfl⟩ := malloc_none sentinel
      rw [second] at fails
      refine .inr ⟨_,rfl,iff_of_false (fun released => ?_) (not_not_intro ⟨first_call,fails⟩),1,by omega,fails⟩
      have freed := released.1.length_eq
      rw [is] at freed
      cases freed
    · rename_i first h2 sentinel
      obtain ⟨second_call,_,is'⟩ := malloc_some sentinel
      rw [second] at second_call
      have calls : h2.calls = 2 := by rw [is',second]
      have built : Built ⟨self,first,n.toNat⟩ (h2.setNode first ⟨[],none⟩) [] := built_first storage sentinel
      rcases initNodes_outcome rand n.toNat 0 built (List.nil_append [first]).symm with
        ⟨h',more,done,whole,size,all⟩ | ⟨h',done,released,i,after,below,fails⟩
      · refine .inl ⟨_,h',more,done,whole,Int.toNat_of_nonneg (by omega),size,fun i below => ?_⟩
        rcases i with _ | _ | i
        · exact first_call
        · exact second_call
        · exact all _ (show h2.calls ≤ i+2 by omega) (show i+2 < h2.calls + n.toNat by omega)
      · refine .inr ⟨h',done,iff_of_true released fun both => ?_,i,?_,fails⟩
        · exact absurd (second_call.symm.trans both.2) (by simp)
        · have : i < h2.calls + n.toNat := below
          omega

theorem Built.holds (built : Built s h made) (size : made.length = s.size) : Holds s h made :=
  ⟨built.chain,(List.nodup_cons.mp built.distinct).2,size⟩

/-- A storage that `storage_init` returns holds the sentinel and `n` nodes. -/
theorem storageInit_holds {n : Int} (done : storageInit n succeeds rand = (some s,h)) :
    (s.size : Int) = n ∧ ∃ nodes, Holds s h nodes := by
  by_cases positive : 1 ≤ n
  · rcases @storageInit_outcome succeeds rand n positive with ⟨s',h',nodes,done',built,size,length,_⟩ | ⟨_,none,_⟩
    · cases done.symm.trans done'
      exact ⟨size,nodes,built.holds length⟩
    · cases done.symm.trans none
  · rw [storageInit,if_pos (by omega)] at done
    cases done

end Os5Sem.ListStorage

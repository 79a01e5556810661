import Os5Sem.ListSafety

/-!
Storages that are made completely or not at all, and that `storage_destroy` takes
apart again, in whatever order the swaps have left their nodes. `storage_init`
keeps to it except when the allocation of the sentinel is the first one to fail:
then the block of the storage is lost (`all_or_nothing_iff`).
-/
namespace Os5Sem.StorageRelease
open Os5Sem.Chains Os5Sem.ListStorage Os5Sem.ListProgram Os5Sem.ListSafety

variable {succeeds : Nat → Bool} {rand : Nat → Nat} {s : Storage} {h h' : Heap} {nodes : List Nat}

/-- The storage holds its nodes in another order, and no block has been allocated
    or freed. -/
structure Reordered (s : Storage) (nodes : List Nat) (h h' : Heap) : Prop where
  holds : ∃ final, final.Perm nodes ∧ Holds s h' final
  calls : h'.calls = h.calls
  malloced : h'.malloced = h.malloced
  freed : h'.freed = h.freed

/-- The heap with the next fields that the threads of the program have left. -/
def relinked (h : Heap) (next : Nat → Option Nat) : Heap := { h with node := fun x => ⟨h.value x,next x⟩ }

/-- In each of the three programs the swaps only reorder the nodes. -/
theorem reordered_of_run {v : Variant} {n : Int} (two : 2 ≤ n) (built : storageInit n succeeds rand = (some s,h))
    {acts : List Act} {σ : State} (ran : Transition.run (step v s h.value) (start h) acts = some σ)
    (settled : ∀ t, ¬ Relinking (σ.pc t)) : ∃ nodes, Holds s h nodes ∧ Reordered s nodes h (relinked h σ.next) := by
  obtain ⟨nodes,holds,_,intact⟩ := list_intact two built ran
  obtain ⟨final,perm,distinct,chain⟩ := intact.list settled
  exact ⟨nodes,holds,⟨final,perm,chain,distinct,perm.length_eq.trans holds.size⟩,rfl,rfl,rfl⟩

/-- `storage_destroy` frees the sentinel, the nodes and the storage, once each. -/
theorem destroy_reordered (built : Built s h nodes) (reordered : Reordered s nodes h h') :
    (storageDestroy s h').freed.Perm (s.self :: s.first :: nodes) := by
  obtain ⟨⟨final,perm,holds⟩,calls,_,freed⟩ := reordered
  have enough : final.length < h'.calls := by
    rw [perm.length_eq,calls]
    exact built.length_lt
  rw [storageDestroy_chain holds.chain enough]
  show (h'.freed ++ s.first :: final ++ [s.self]).Perm _
  rw [freed,built.freed]
  exact (List.perm_append_singleton s.self (s.first :: final)).trans ((perm.cons s.first).cons s.self)

/-- When no allocation fails, the storage is made with the sentinel and `n` nodes
    behind it, and in whatever order they are, `storage_destroy` frees all of it
    once; when one fails, what has been allocated is freed once. -/
structure AllOrNothing (n : Int) (succeeds : Nat → Bool) (rand : Nat → Nat) : Prop where
  all : (∀ i < n.toNat+2, succeeds i = true) → ∃ s h nodes, storageInit n succeeds rand = (some s,h) ∧
    (s.size : Int) = n ∧ Holds s h nodes ∧ (s.self :: s.first :: nodes).Nodup ∧
      ∀ h', Reordered s nodes h h' → (storageDestroy s h').freed.Perm (s.self :: s.first :: nodes)
  nothing : (∃ i < n.toNat+2, succeeds i = false) → ∃ h, storageInit n succeeds rand = (none,h) ∧ Released h

/-- `storage_init` is all or nothing unless its second allocation is the first one
    to fail. -/
theorem all_or_nothing_iff {n : Int} (positive : 1 ≤ n) :
    AllOrNothing n succeeds rand ↔ ¬ (succeeds 0 = true ∧ succeeds 1 = false) := by
  rcases @storageInit_outcome succeeds rand n positive with
    ⟨s,h,nodes,done,built,size,length,succeeded⟩ | ⟨h,done,released,i,below,fails⟩
  · refine iff_of_true ⟨fun _ => ?_,fun ⟨i,below,fails⟩ => ?_⟩ fun ⟨_,fails⟩ => ?_
    · exact ⟨s,h,nodes,done,size,built.holds length,built.distinct,fun h' reordered =>
        destroy_reordered built reordered⟩
    · rw [succeeded i below] at fails
      cases fails
    · rw [succeeded 1 (by omega)] at fails
      cases fails
  · rw [← released]
    constructor
    · rintro ⟨_,nothing⟩
      obtain ⟨h',done',released'⟩ := nothing ⟨i,below,fails⟩
      cases done.symm.trans done'
      exact released'
    · refine fun released' => ⟨fun succeeded => ?_,fun _ => ⟨h,done,released'⟩⟩
      rw [succeeded i below] at fails
      cases fails

/-- The allocation of the sentinel fails. -/
def sentinelFails : Nat → Bool := fun i => i ≠ 1

/-- The block of the storage stays allocated. -/
theorem storage_lost :
    (storageInit 1 sentinelFails fun _ => 0).2.malloced = [0] ∧ (storageInit 1 sentinelFails fun _ => 0).2.freed = [] ∧
      ¬ AllOrNothing 1 sentinelFails fun _ => 0 := by
  refine ⟨rfl,rfl,fun holds => ?_⟩
  obtain ⟨h,done,freed,_⟩ := holds.nothing ⟨1,by decide,rfl⟩
  cases (Prod.mk.inj done).2
  exact absurd freed.length_eq (by decide)

/-- The allocation of the third node fails. -/
def thirdNodeFails : Nat → Bool := fun i => i ≠ 4

theorem all_or_nothing_iff_thirdNode : AllOrNothing 3 thirdNodeFails fun _ => 0 :=
  (all_or_nothing_iff (by decide)).mpr (by decide)

end Os5Sem.StorageRelease

import Mathlib.Logic.Function.Basic

/-!
Tables that give out numbers for resources: descriptors for sockets, addresses for
blocks. A number that has been released may be given out again. When every party's
numbers are known (`held`), a table that agrees with them keeps doing so, and the
counts of what was taken and released tell for every resource whether it is held.
-/
namespace Os5Sem.Handles
universe u

variable {R : Type u}

/-- What each number stands for. The last two fields only record how often a
    resource has been given a number and how often its number has been released. -/
structure Table (R : Type u) where
  owner : Nat → Option R
  taken : R → Nat
  released : R → Nat

def Table.empty : Table R := ⟨fun _ => none,fun _ => 0,fun _ => 0⟩

/-- The numbers that are given out are those that are held, each for the resource
    that it is held for, and a resource has been taken as often as it has been
    released, and once more while it is held. -/
structure Balanced (table : Table R) (held : R → Option Nat) : Prop where
  owner : ∀ n r, table.owner n = some r ↔ held r = some n
  count : ∀ r, table.taken r = table.released r + if (held r).isSome then 1 else 0

theorem balanced_empty : Balanced Table.empty fun _ : R => none := ⟨fun _ _ => ⟨nofun,nofun⟩,fun _ => rfl⟩

variable {table : Table R} {held : R → Option Nat} {n : Nat} {r : R}

theorem Balanced.congr (balanced : Balanced table held) {held' : R → Option Nat} (same : ∀ r, held' r = held r) :
    Balanced table held' := by
  obtain rfl : held' = held := funext same
  exact balanced

/-- No number is held for two resources. -/
theorem Balanced.unique (balanced : Balanced table held) {q : R} (one : held r = some n) (two : held q = some n) :
    r = q := Option.some.inj (((balanced.owner n r).mpr one).symm.trans ((balanced.owner n q).mpr two))

variable [DecidableEq R]

def Table.take (table : Table R) (n : Nat) (r : R) : Table R :=
  { table with owner := Function.update table.owner n (some r), taken :=
      Function.update table.taken r (table.taken r + 1) }

/-- The number that is released for the resource stands for nothing any more,
    whatever it stood for. -/
def Table.release (table : Table R) (n : Nat) (r : R) : Table R :=
  { table with owner := Function.update table.owner n none, released :=
      Function.update table.released r (table.released r + 1) }

/-- What is held for one resource stays the same. -/
theorem Balanced.keep (balanced : Balanced table held) {now : Option Nat} (still : now = held r) :
    Balanced table (Function.update held r now) := by
  rw [still,Function.update_eq_self]
  exact balanced

/-- A number that is not given out is taken for a resource that has none. -/
theorem Balanced.take (balanced : Balanced table held) (free : table.owner n = none) (none : held r = none) :
    Balanced (table.take n r) (Function.update held r (some n)) := by
  refine ⟨fun m q => ?_,fun q => ?_⟩
  · by_cases isN : m = n
    · subst isN
      by_cases isR : q = r
      · subst isR; simp [Table.take]
      · have other : held q ≠ some m := fun is => by rw [← balanced.owner,free] at is; cases is
        simp [Table.take,isR,Ne.symm isR,other]
    · by_cases isR : q = r
      · subst isR
        have other : table.owner m ≠ some q := fun is => by rw [balanced.owner,none] at is; cases is
        simp [Table.take,isN,Ne.symm isN,other]
      · simp [Table.take,isN,isR,balanced.owner]
  · by_cases isR : q = r
    · subst isR
      have before := balanced.count q
      rw [none] at before
      simp [Table.take,before]
    · simp [Table.take,isR,balanced.count]

/-- The holder of a number releases it. -/
theorem Balanced.release (balanced : Balanced table held) (mine : held r = some n) :
    Balanced (table.release n r) (Function.update held r none) := by
  refine ⟨fun m q => ?_,fun q => ?_⟩
  · by_cases isN : m = n
    · subst isN
      by_cases isR : q = r
      · subst isR; simp [Table.release]
      · have other : held q ≠ some m := fun is => isR (balanced.unique is mine)
        simp [Table.release,isR,other]
    · by_cases isR : q = r
      · subst isR
        have other : table.owner m ≠ some q := fun is => by
          rw [balanced.owner,mine] at is
          exact isN (Option.some.inj is).symm
        simp [Table.release,isN,other]
      · simp [Table.release,isN,isR,balanced.owner]
  · by_cases isR : q = r
    · subst isR
      have before := balanced.count q
      rw [mine] at before
      simp [Table.release,before]
    · simp [Table.release,isR,balanced.count]

end Os5Sem.Handles

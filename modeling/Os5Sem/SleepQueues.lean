import Mathlib.Data.List.Nodup
import Mathlib.Logic.Function.Basic

/-!
Queues of sleepers at addresses, as a futex keeps them. Who sleeps is told by the
parties themselves (`bed`), and the queues list the same sleepers, each once
(`Listed`). Parties go to sleep and are woken one at a time.
-/
namespace Os5Sem.SleepQueues
universe u v

variable {Address : Type u} {Party : Type v}

/-- The sleepers at each address, in the order of their coming, and where each
    party sleeps, if it does. -/
structure Beds (Address : Type u) (Party : Type v) where
  sleepers : Address → List Party
  bed : Party → Option Address

namespace Beds

variable {q : Beds Address Party} {a : Address} {p : Party}

/-- The queues list the parties that sleep, each once. -/
structure Listed (q : Beds Address Party) : Prop where
  mem : ∀ a p, p ∈ q.sleepers a ↔ q.bed p = some a
  nodup : ∀ a, (q.sleepers a).Nodup

theorem listed_empty : Listed (⟨fun _ => [],fun _ => none⟩ : Beds Address Party) :=
  ⟨fun _ _ => ⟨nofun,nofun⟩,fun _ => List.nodup_nil⟩

theorem Listed.nobody (listed : q.Listed) : q.sleepers a = [] ↔ ∀ p, q.bed p ≠ some a := by
  rw [List.eq_nil_iff_forall_not_mem]
  exact forall_congr' fun p => not_congr (listed.mem a p)

variable [DecidableEq Address] [DecidableEq Party]

def sleep (q : Beds Address Party) (p : Party) (a : Address) : Beds Address Party where
  sleepers := Function.update q.sleepers a (q.sleepers a ++ [p])
  bed := Function.update q.bed p (some a)

/-- A party that does not sleep is not affected. -/
def wake (q : Beds Address Party) (p : Party) : Beds Address Party :=
  match q.bed p with
  | none => q
  | some a => ⟨Function.update q.sleepers a ((q.sleepers a).erase p),Function.update q.bed p none⟩

theorem wake_asleep (asleep : q.bed p = some a) :
    q.wake p = ⟨Function.update q.sleepers a ((q.sleepers a).erase p),Function.update q.bed p none⟩ := by
  rw [wake,asleep]

theorem wake_awake (awake : q.bed p = none) : q.wake p = q := by
  rw [wake,awake]

/-- Nobody falls asleep when another is woken. -/
theorem bed_of_wake {r : Party} (asleep : (q.wake p).bed r = some a) : q.bed r = some a := by
  cases bed : q.bed p with
  | none => rwa [wake_awake bed] at asleep
  | some b =>
    rw [wake_asleep bed] at asleep
    by_cases isP : r = p
    · simp [isP] at asleep
    · simpa [isP] using asleep

/-- A party that does not sleep goes to sleep. -/
theorem Listed.sleep (listed : q.Listed) (awake : q.bed p = none) (a : Address) : (q.sleep p a).Listed := by
  have unlisted : ∀ b, p ∉ q.sleepers b := fun b member => by
    rw [listed.mem,awake] at member
    cases member
  constructor
  case mem =>
    intro b r
    by_cases isA : b = a <;> by_cases isP : r = p
    · simp [Beds.sleep,isA,isP]
    · simp [Beds.sleep,isA,isP,listed.mem]
    · simp [Beds.sleep,isA,Ne.symm isA,isP,unlisted]
    · simp [Beds.sleep,isA,isP,listed.mem]
  case nodup =>
    intro b
    by_cases isA : b = a
    · subst isA
      simpa [Beds.sleep] using (listed.nodup b).append (List.nodup_singleton p)
        (List.disjoint_singleton.mpr (unlisted b))
    · simpa [Beds.sleep,isA] using listed.nodup b

theorem Listed.wake (listed : q.Listed) (p : Party) : (q.wake p).Listed := by
  cases bed : q.bed p with
  | none => rwa [wake_awake bed]
  | some a =>
    rw [wake_asleep bed]
    constructor
    case mem =>
      intro b r
      by_cases isA : b = a <;> by_cases isP : r = p
      · subst isA isP
        simp [(listed.nodup b).not_mem_erase]
      · simp [isA,isP,listed.mem,List.mem_erase_of_ne isP]
      · simp [isA,Ne.symm isA,isP,listed.mem,bed]
      · simp [isA,isP,listed.mem]
    case nodup =>
      intro b
      by_cases isA : b = a
      · subst isA
        simpa using (listed.nodup b).erase p
      · simpa [isA] using listed.nodup b

end Beds
end Os5Sem.SleepQueues

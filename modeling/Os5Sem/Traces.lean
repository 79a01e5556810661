import Mathlib.Data.List.Basic

/-!
Computations that tell their accesses: each comes with its result and with the
accesses that it has made, in order. What all accesses of a computation meet is
proved part by part (`Within`).
-/
namespace Os5Sem.Traces
universe u v

/-- A result, and the accesses made on the way to it. -/
structure Traced (A : Type u) (α : Type v) where
  accesses : List A
  result : α

variable {A : Type u} {α β : Type v}

instance : Monad (Traced A) where
  pure a := ⟨[],a⟩
  bind x f := ⟨x.accesses ++ (f x.result).accesses,(f x.result).result⟩

@[simp] theorem result_pure (a : α) : (pure a : Traced A α).result = a := rfl

@[simp] theorem result_bind (x : Traced A α) (f : α → Traced A β) : (x >>= f).result = (f x.result).result := rfl

namespace Traced

variable {P : A → Prop}

/-- Every access meets the condition. -/
def Within (P : A → Prop) (x : Traced A α) : Prop := ∀ a ∈ x.accesses, P a

theorem within_pure (a : α) : (pure a : Traced A α).Within P := nofun

theorem Within.mono {Q : A → Prop} {x : Traced A α} (within : x.Within P) (weaker : ∀ a, P a → Q a) : x.Within Q :=
  fun a member => weaker a (within a member)

theorem Within.bind {x : Traced A α} {f : α → Traced A β} (first : x.Within P) (second : (f x.result).Within P) :
    (x >>= f).Within P := by
  intro a member
  rcases List.mem_append.mp member with before | after
  · exact first a before
  · exact second a after

/-- The second part, at the result of the first one. -/
theorem Within.bind_of_result {x : Traced A α} {f : α → Traced A β} {a : α} (first : x.Within P) (is : x.result = a)
    (second : (f a).Within P) : (x >>= f).Within P :=
  first.bind (is ▸ second)

end Traced
end Os5Sem.Traces

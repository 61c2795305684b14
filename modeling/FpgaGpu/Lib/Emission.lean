import Mathlib.Tactic.Common

/-!
# Computations that push items

A computation changes a state, pushes items at the end of a list, and may have no defined behaviour.
-/

/-- A computation over states `σ` that pushes items `ω`. -/
def Emission (σ ω α : Type) : Type := σ → Option (α × List ω × σ)

namespace Emission

variable {σ ω ω' α β : Type}

instance : Monad (Emission σ ω) where
  pure a := fun s => some (a, [], s)
  bind x f := fun s => do
    let (a, out, s) ← x s
    let (b, out', s) ← f a s
    return (b, out ++ out', s)

/-- Pushes an item. -/
def push (item : ω) : Emission σ ω Unit := fun s => some ((), [item], s)

/-- No defined behaviour. -/
def undefined : Emission σ ω α := fun _ => none

/-- Replaces the items that are pushed. -/
def mapItems (g : ω → ω') (x : Emission σ ω α) : Emission σ ω' α := fun s => do
  let (a, out, s) ← x s
  return (a, out.map g, s)

lemma pure_eq_some {a b : α} {s s' : σ} {out : List ω} :
    (pure a : Emission σ ω α) s = some (b, out, s') ↔ a = b ∧ out = [] ∧ s = s' := by
  show some (a, [], s) = some (b, out, s') ↔ _
  simp [eq_comm]

lemma push_eq_some {item : ω} {s s' : σ} {u : Unit} {out : List ω} :
    (push item : Emission σ ω Unit) s = some (u, out, s') ↔ out = [item] ∧ s = s' := by
  simp [push, eq_comm]

/-- A sequence runs when its two parts do. -/
lemma bind_eq_some {x : Emission σ ω α} {f : α → Emission σ ω β} {s s' : σ} {b : β}
    {out : List ω} :
    (x >>= f) s = some (b, out, s') ↔ ∃ a out₁ s₁ out₂, x s = some (a, out₁, s₁) ∧
      f a s₁ = some (b, out₂, s') ∧ out = out₁ ++ out₂ := by
  show (do
    let (a, out, s) ← x s
    let (b, out', s) ← f a s
    return (b, out ++ out', s)) = some (b, out, s') ↔ _
  simp only [Option.bind_eq_bind, Option.bind_eq_some_iff, Prod.exists, Option.pure_def,
    Option.some.injEq, Prod.mk.injEq]
  constructor
  · rintro ⟨a, out₁, s₁, hx, _, out₂, _, hf, rfl, rfl, rfl⟩
    exact ⟨a, out₁, s₁, out₂, hx, hf, rfl⟩
  · rintro ⟨a, out₁, s₁, out₂, hx, hf, rfl⟩
    exact ⟨a, out₁, s₁, hx, b, out₂, s', hf, rfl, rfl, rfl⟩

/-- Nothing undoes undefined behaviour. -/
lemma bind_undefined (x : Emission σ ω α) :
    (x >>= fun _ => (undefined : Emission σ ω β)) = undefined := by
  funext s
  show (do
    let (a, out, s) ← x s
    let (b, out', s) ← (undefined : Emission σ ω β) s
    return (b, out ++ out', s)) = none
  cases x s <;> rfl

lemma mapItems_eq_some {g : ω → ω'} {x : Emission σ ω α} {s s' : σ} {a : α} {out : List ω'} :
    mapItems g x s = some (a, out, s') ↔ ∃ items, x s = some (a, items, s') ∧
      out = items.map g := by
  simp only [mapItems, Option.bind_eq_bind, Option.bind_eq_some_iff, Prod.exists, Option.pure_def,
    Option.some.injEq, Prod.mk.injEq]
  constructor
  · rintro ⟨a, items, s₁, hx, rfl, rfl, rfl⟩
    exact ⟨items, hx, rfl⟩
  · rintro ⟨items, hx, rfl⟩
    exact ⟨a, items, s', hx, rfl, rfl, rfl⟩

end Emission

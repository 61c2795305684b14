import Mathlib.Logic.Relation
import Mathlib.Tactic.Common

/-!
# Dominance and post-dominance

Paths of a directed graph that avoid a vertex, and what the vertices that every path must pass have
to do with each other.
-/

namespace Graph

open Relation

variable {V : Type} {E : V → V → Prop} {exit : V → Prop}

/-- A path from `a` to `b` that does not come to `v` after its start. -/
def Avoids (E : V → V → Prop) (v : V) : V → V → Prop := ReflTransGen fun x y => E x y ∧ y ≠ v

/-- Every path from the entry to `b` passes `a`. -/
def Dominates (E : V → V → Prop) (entry a b : V) : Prop := a = entry ∨ ¬ Avoids E a entry b

/-- Every path from `b` to an exit passes `v`. -/
def PostDominates (E : V → V → Prop) (exit : V → Prop) (v b : V) : Prop :=
  v = b ∨ ∀ e, exit e → ¬ Avoids E v b e

/-- The first vertex that every path from `b` to an exit has to pass after `b`. -/
structure ImmediatePostDominator (E : V → V → Prop) (exit : V → Prop) (b j : V) : Prop where
  ne : j ≠ b
  postDominates : PostDominates E exit j b
  nearest : ∀ k, k ≠ b → PostDominates E exit k b → PostDominates E exit k j

lemma Avoids.refl {v a : V} : Avoids E v a a := ReflTransGen.refl

lemma Avoids.trans {v a b c : V} (ab : Avoids E v a b) (bc : Avoids E v b c) : Avoids E v a c :=
  ReflTransGen.trans ab bc

lemma Avoids.tail {v a b c : V} (ab : Avoids E v a b) (edge : E b c) (ne : c ≠ v) :
    Avoids E v a c :=
  ReflTransGen.tail ab ⟨edge, ne⟩

/-- A path that starts off `v` ends off `v`. -/
lemma Avoids.ne {v a b : V} (h : Avoids E v a b) (ne : a ≠ v) : b ≠ v := by
  cases h with
  | refl => exact ne
  | tail _ last => exact last.2

/-- A set that the edges off `v` stay in holds what is reached off `v`. -/
lemma Avoids.mem_of_closed {S : V → Prop} {v a b : V} (path : Avoids E v a b) (start : S a)
    (closed : ∀ x y, S x → E x y → y ≠ v → S y) : S b := by
  induction path with
  | refl => exact start
  | tail _ last ih => exact closed _ _ ih last.1 last.2

/-- A vertex that post-dominates `a` post-dominates what is reached before it. -/
lemma PostDominates.of_avoids {v a b : V} (h : PostDominates E exit v a) (ne : a ≠ v)
    (path : Avoids E v a b) : PostDominates E exit v b := by
  obtain eq | h := h
  · exact absurd eq.symm ne
  · exact .inr fun e he rest => h e he (path.trans rest)

/-- An exit is not reached before a post-dominator. -/
lemma PostDominates.not_exit {v a e : V} (h : PostDominates E exit v a) (ne : a ≠ v) (he : exit e) :
    ¬ Avoids E v a e := by
  obtain eq | h := h
  · exact absurd eq.symm ne
  · exact h e he

/-- A path to `e` visits neither of two vertices, or from the last visit on it avoids the other. -/
lemma exists_avoids {a b x e : V} (path : ReflTransGen E x e) :
    ReflTransGen (fun x y => E x y ∧ y ≠ a ∧ y ≠ b) x e ∨ Avoids E b a e ∨ Avoids E a b e := by
  induction path using ReflTransGen.head_induction_on with
  | refl => exact .inl .refl
  | @head x y edge _ ih =>
    obtain both | one := ih
    · by_cases ha : y = a
      · subst ha
        exact .inr (.inl (ReflTransGen.mono (fun _ _ h => ⟨h.1, h.2.2⟩) _ _ both))
      · by_cases hb : y = b
        · subst hb
          exact .inr (.inr (ReflTransGen.mono (fun _ _ h => ⟨h.1, h.2.1⟩) _ _ both))
        · exact .inl (.head ⟨edge, ha, hb⟩ both)
    · exact .inr one

/-- Two vertices that post-dominate each other are the same, if one of them reaches an exit. -/
lemma PostDominates.antisymm {a b e : V} (ab : PostDominates E exit a b)
    (ba : PostDominates E exit b a) (he : exit e) (path : ReflTransGen E a e) : a = b := by
  by_contra ne
  obtain both | one | other := exists_avoids (a := a) (b := b) path
  · exact ba.not_exit ne he (ReflTransGen.mono (fun _ _ h => ⟨h.1, h.2.2⟩) _ _ both)
  · exact ba.not_exit ne he one
  · exact ab.not_exit (Ne.symm ne) he other

/-- Regions are left from the inside out: the region of an inner vertex `b`, which lies in that of
`a`, cannot be left open by an edge to the vertex `r` that closes the region of `a`. -/
theorem ImmediatePostDominator.closes {a b q r j e : V} (outer : ImmediatePostDominator E exit a r)
    (inner : ImmediatePostDominator E exit b j) (nested : Avoids E r a b) (inside : Avoids E j b q)
    (edge : E q r) (he : exit e) (path : ReflTransGen E r e) : j = r := by
  by_contra ne
  have off : b ≠ r := nested.ne (Ne.symm outer.ne)
  have rj : PostDominates E exit r j :=
    inner.nearest r (Ne.symm off) (outer.postDominates.of_avoids (Ne.symm outer.ne) nested)
  have jr : PostDominates E exit j r :=
    inner.postDominates.of_avoids (Ne.symm inner.ne) (inside.tail edge (Ne.symm ne))
  exact ne (rj.antisymm jr he path).symm

end Graph

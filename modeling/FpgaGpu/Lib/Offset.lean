import Mathlib.Algebra.BigOperators.Group.List.Basic
import Mathlib.Algebra.GroupWithZero.Nat
import Mathlib.Order.Monotone.Basic
import Mathlib.Tactic.Common

/-!
# Positions in a concatenation

Where the parts of a concatenation start, from their lengths alone.
-/

namespace Offset

/-- Where the part `n` starts. -/
def start (lengths : List Nat) (n : Nat) : Nat := (lengths.take n).sum

lemma start_succ {lengths : List Nat} {n l : Nat} (h : lengths[n]? = some l) :
    start lengths (n + 1) = start lengths n + l := by
  simp [start, List.take_add_one, h]

lemma start_le_succ (lengths : List Nat) (n : Nat) : start lengths n ≤ start lengths (n + 1) := by
  cases h : lengths[n]? with
  | none => simp [start, List.take_add_one, h]
  | some l =>
    rw [start_succ h]
    exact Nat.le_add_right _ _

/-- Parts start one after the other. -/
lemma start_mono (lengths : List Nat) : Monotone (start lengths) :=
  monotone_nat_of_le_succ (start_le_succ lengths)

variable {α : Type} {L : List (List α)} {l : List α} {a : α} {n m k : Nat}

/-- An item of a part stands behind the parts before it. -/
lemma getElem?_flatten (hl : L[n]? = some l) (ha : l[m]? = some a) :
    L.flatten[start (L.map List.length) n + m]? = some a := by
  obtain ⟨lt, rfl⟩ := List.getElem?_eq_some_iff.mp hl
  obtain ⟨inside, -⟩ := List.getElem?_eq_some_iff.mp ha
  rw [start, ← List.getElem?_drop, ← List.map_take, List.map_take, List.drop_sum_flatten,
    List.drop_eq_getElem_cons lt, List.flatten_cons, List.getElem?_append_left inside, ha]

/-- Every item of a concatenation stands in a part. -/
lemma exists_part (h : L.flatten[k]? = some a) : ∃ n l m, L[n]? = some l ∧ l[m]? = some a ∧
    k = start (L.map List.length) n + m := by
  induction L generalizing k with
  | nil => simp at h
  | cons first rest ih =>
    rw [List.flatten_cons] at h
    obtain lt | ge := Nat.lt_or_ge k first.length
    · rw [List.getElem?_append_left lt] at h
      exact ⟨0, first, k, rfl, h, (Nat.zero_add k).symm⟩
    · rw [List.getElem?_append_right ge] at h
      obtain ⟨n, l, m, hl, ha, e⟩ := ih h
      refine ⟨n + 1, l, m, hl, ha, ?_⟩
      have behind : start ((first :: rest).map List.length) (n + 1) =
          first.length + start (rest.map List.length) n := by
        simp [start]
      omega

end Offset

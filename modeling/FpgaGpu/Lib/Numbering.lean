import Mathlib.Data.Finset.Card
import Mathlib.Data.List.TakeWhile

/-!
# Numbers by first occurrence

Elements of a list are numbered from one on, in the order of their first occurrences.
-/

namespace Numbering

variable {α : Type} [DecidableEq α]

/-- How many different elements a list has. -/
def count (xs : List α) : Nat := xs.toFinset.card

/-- One more than the number of different elements before the first occurrence. -/
def number (xs : List α) (x : α) : Nat := count (xs.takeWhile (· ≠ x)) + 1

variable {xs ys : List α} {x y : α}

lemma count_append_of_mem (h : x ∈ xs) : count (xs ++ [x]) = count xs := by
  unfold count
  congr 1
  ext y
  simp only [List.mem_toFinset, List.mem_append, List.mem_singleton, or_iff_left_iff_imp]
  rintro rfl
  exact h

lemma count_append_of_not_mem (h : x ∉ xs) : count (xs ++ [x]) = count xs + 1 := by
  have insert : (xs ++ [x]).toFinset = insert x xs.toFinset := by
    ext y
    simp
  rw [count, insert, Finset.card_insert_of_notMem (by simpa using h), count]

/-- An element keeps its number. -/
lemma number_append_of_mem (h : x ∈ xs) : number (xs ++ ys) x = number xs x := by
  have stop : (xs.takeWhile (· ≠ x)).length ≠ xs.length := by
    intro same
    have all := (List.takeWhile_prefix (· ≠ x)).eq_of_length same
    have ne := List.mem_takeWhile_imp (all.symm ▸ h : x ∈ xs.takeWhile (· ≠ x))
    simp at ne
  rw [number, List.takeWhile_append, if_neg stop, number]

/-- A new element gets the next number. -/
lemma number_append_self (h : x ∉ xs) : number (xs ++ [x]) x = count xs + 1 := by
  have all : xs.takeWhile (· ≠ x) = xs :=
    List.takeWhile_eq_self_iff.mpr fun y mem => by
      simp only [ne_eq, decide_not, Bool.not_eq_true', decide_eq_false_iff_not]
      rintro rfl
      exact h mem
  rw [number, List.takeWhile_append, if_pos (by rw [all]), List.takeWhile_cons_of_neg (by simp),
    List.append_nil]

lemma number_le (h : x ∈ xs) : number xs x ≤ count xs := by
  have sub : (xs.takeWhile (· ≠ x)).toFinset ⊆ xs.toFinset.erase x := by
    intro y mem
    rw [List.mem_toFinset] at mem
    have ne : y ≠ x := by simpa using List.mem_takeWhile_imp mem
    exact Finset.mem_erase.mpr ⟨ne, List.mem_toFinset.mpr (List.takeWhile_subset _ mem)⟩
  have le := Finset.card_le_card sub
  rw [Finset.card_erase_of_mem (List.mem_toFinset.mpr h)] at le
  have pos : 0 < xs.toFinset.card := Finset.card_pos.mpr ⟨x, List.mem_toFinset.mpr h⟩
  unfold number count
  omega

/-- Different elements have different numbers. -/
theorem number_inj (hx : x ∈ xs) (hy : y ∈ xs) (same : number xs x = number xs y) : x = y := by
  induction xs using List.reverseRecOn with
  | nil => cases hx
  | append_singleton xs z ih =>
    by_cases oldx : x ∈ xs <;> by_cases oldy : y ∈ xs
    · rw [number_append_of_mem oldx, number_append_of_mem oldy] at same
      exact ih oldx oldy same
    · obtain rfl : y = z := by simpa [oldy] using hy
      rw [number_append_of_mem oldx, number_append_self oldy] at same
      have := number_le oldx
      omega
    · obtain rfl : x = z := by simpa [oldx] using hx
      rw [number_append_of_mem oldy, number_append_self oldx] at same
      have := number_le oldy
      omega
    · obtain rfl : x = z := by simpa [oldx] using hx
      exact (by simpa [oldy] using hy : y = x).symm

end Numbering

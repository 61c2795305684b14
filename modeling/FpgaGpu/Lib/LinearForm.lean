import Mathlib.Algebra.BigOperators.Ring.Finset

/-!
# Linear forms

Sums of variables with coefficients, as lists in which a variable can occur more than once. Two of
them take the same values exactly if their constants and their coefficients agree.
-/

namespace LinearForm

variable {α R : Type*} [CommRing R]

/-- The sum of the variables times their coefficients. -/
def eval (value : α → R) : List (α × R) → R
  | [] => 0
  | (a, r) :: terms => value a * r + eval value terms

/-- Only the values of the variables matter. -/
lemma eval_congr {value value' : α → R} {terms : List (α × R)}
    (same : ∀ t ∈ terms, value t.1 = value' t.1) : eval value terms = eval value' terms := by
  induction terms with
  | nil => rfl
  | cons t terms ih =>
    obtain ⟨here, same⟩ := List.forall_mem_cons.mp same
    rw [eval, eval, here, ih same]

lemma eval_zero (terms : List (α × R)) : eval (fun _ => 0) terms = 0 := by
  induction terms with
  | nil => rfl
  | cons t terms ih => simp [eval, ih]

variable [DecidableEq α]

/-- The coefficient of a variable, from all of its terms. -/
def coefficient (a : α) : List (α × R) → R
  | [] => 0
  | (b, r) :: terms => (if b = a then r else 0) + coefficient a terms

/-- A sum over variables that include those of the terms. -/
lemma eval_eq_sum {S : Finset α} {terms : List (α × R)} (sub : ∀ t ∈ terms, t.1 ∈ S)
    (value : α → R) :
    eval value terms = ∑ a ∈ S, value a * coefficient a terms := by
  induction terms with
  | nil => simp [eval, coefficient]
  | cons t terms ih =>
    obtain ⟨mem, sub⟩ := List.forall_mem_cons.mp sub
    simp only [eval, coefficient, mul_add, Finset.sum_add_distrib, mul_ite, mul_zero]
    rw [ih sub, Finset.sum_ite_eq, if_pos mem]

/-- A variable that is one, where all others are zero, gives its coefficient. -/
lemma eval_single (a : α) (terms : List (α × R)) :
    eval (fun b => if b = a then 1 else 0) terms = coefficient a terms := by
  induction terms with
  | nil => rfl
  | cons t terms ih => simp [eval, coefficient, ih]

/-- Forms with the same constants and coefficients, and only these, have the same values. -/
theorem eval_eq_iff {c c' : R} {terms terms' : List (α × R)} :
    (∀ value : α → R, c + eval value terms = c' + eval value terms') ↔
      c = c' ∧ ∀ a, coefficient a terms = coefficient a terms' := by
  constructor
  · intro same
    have constants : c = c' := by simpa [eval_zero] using same fun _ => 0
    refine ⟨constants, fun a => ?_⟩
    have single := same fun b => if b = a then 1 else 0
    rwa [eval_single, eval_single, constants, add_right_inj] at single
  · rintro ⟨rfl, same⟩ value
    let S := ((terms ++ terms').map Prod.fst).toFinset
    have mem : ∀ t ∈ terms ++ terms', t.1 ∈ S := fun t ht =>
      List.mem_toFinset.mpr (List.mem_map_of_mem ht)
    rw [eval_eq_sum fun t ht => mem t (List.mem_append_left _ ht),
      eval_eq_sum fun t ht => mem t (List.mem_append_right _ ht)]
    exact congrArg (c + ·) (Finset.sum_congr rfl fun a _ => by rw [same])

end LinearForm

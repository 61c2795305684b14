import Mathlib.Data.Nat.Digits.Defs
import Mathlib.Tactic.IntervalCases
import Mathlib.Tactic.Ring

/-!
# Positional numerals

Reading a numeral in a base up to 36 digit by digit, and its inverse on the numerals that
`Nat.toDigits` prints in a base up to 16.
-/

namespace Numeral

/-- The value of a digit character: `0`-`9`, then the letters of either case. -/
def digitValue (c : Char) : Option Nat :=
  if '0' ≤ c ∧ c ≤ '9' then some (c.toNat - '0'.toNat)
  else if 'a' ≤ c ∧ c ≤ 'z' then some (c.toNat - 'a'.toNat + 10)
  else if 'A' ≤ c ∧ c ≤ 'Z' then some (c.toNat - 'A'.toNat + 10)
  else none

/-- The character is a digit of the base. -/
def isDigitOf (base : Nat) (c : Char) : Bool :=
  match digitValue c with
  | some d => d < base
  | none => false

/-- The value of a string of digits. -/
def valueOf (base : Nat) (s : List Char) : Nat :=
  s.foldl (fun n c => n * base + (digitValue c).getD 0) 0

/-- The value of a digit that is printed. -/
lemma digitValue_digitChar {d : Nat} (h : d < 16) : digitValue (Nat.digitChar d) = some d := by
  interval_cases d <;> decide

/-- The value of a digit that is printed and capitalised. -/
lemma digitValue_toUpper_digitChar {d : Nat} (h : d < 16) :
    digitValue (Nat.digitChar d).toUpper = some d := by
  interval_cases d <;> decide

/-- Only the digit zero is printed as `0`. -/
lemma digitChar_eq_zero {d : Nat} (h : d < 16) (e : Nat.digitChar d = '0') : d = 0 := by
  have := digitValue_digitChar h
  rw [e] at this
  exact (Option.some.inj (this.symm.trans (by decide : digitValue '0' = some 0)))

@[simp] lemma valueOf_nil (base : Nat) : valueOf base [] = 0 := rfl

/-- The last digit comes off the end. -/
lemma valueOf_concat (base : Nat) (s : List Char) (c : Char) :
    valueOf base (s ++ [c]) = valueOf base s * base + (digitValue c).getD 0 := by
  simp [valueOf]

/-- Leading zeros do not count. -/
lemma valueOf_zeros (base k : Nat) (s : List Char) :
    valueOf base (List.replicate k '0' ++ s) = valueOf base s := by
  induction k with
  | zero => simp
  | succ k ih =>
    rw [List.replicate_succ, List.cons_append, valueOf, List.foldl_cons]
    have z : 0 * base + (digitValue '0').getD 0 = 0 := by
      simp [show digitValue '0' = some 0 by decide]
    rw [z]
    exact ih

section Print
variable {base : Nat} (hb : 1 < base) (hb' : base ≤ 16)
include hb hb'

/-- Every printed digit, changed by `f`, is a digit of the base if `f` keeps digit values. -/
lemma isDigitOf_of_mem_toDigits {f : Char → Char}
    (hf : ∀ d < 16, digitValue (f (Nat.digitChar d)) = some d) (n : Nat) :
    ∀ c ∈ (Nat.toDigits base n).map f, isDigitOf base c := by
  induction n using Nat.strong_induction_on with
  | _ n ih =>
    rw [Nat.toDigits_eq_if hb]
    split
    · next h => simp [isDigitOf, hf n (by omega), h]
    · next h =>
      intro c hc
      rw [List.map_append, List.mem_append] at hc
      obtain hc | hc := hc
      · exact ih (n / base) (Nat.div_lt_self (by omega) hb) c hc
      · have lt : n % base < base := Nat.mod_lt _ (by omega)
        simp only [List.map_cons, List.map_nil, List.mem_singleton] at hc
        simp [hc, isDigitOf, hf (n % base) (by omega), lt]

/-- Reading a printed numeral gives the number back. -/
lemma valueOf_toDigits {f : Char → Char}
    (hf : ∀ d < 16, digitValue (f (Nat.digitChar d)) = some d) (n : Nat) :
    valueOf base ((Nat.toDigits base n).map f) = n := by
  induction n using Nat.strong_induction_on with
  | _ n ih =>
    rw [Nat.toDigits_eq_if hb]
    split
    · next h => simp [valueOf, hf n (by omega)]
    · next h =>
      have lt : n % base < base := Nat.mod_lt _ (by omega)
      rw [List.map_append, List.map_cons, List.map_nil, valueOf_concat,
        ih (n / base) (Nat.div_lt_self (by omega) hb), hf _ (by omega)]
      exact Nat.div_add_mod' n base

/-- A printed number other than zero does not start with `0`. -/
lemma head_toDigits_ne_zero {n : Nat} (hn : n ≠ 0) :
    ∃ c s, Nat.toDigits base n = c :: s ∧ c ≠ '0' := by
  induction n using Nat.strong_induction_on with
  | _ n ih =>
    rw [Nat.toDigits_eq_if hb]
    split
    · next h => exact ⟨_, [], rfl, fun e => hn (digitChar_eq_zero (by omega) e)⟩
    · next h =>
      have pos : n / base ≠ 0 := (Nat.div_pos (by omega) (by omega)).ne'
      obtain ⟨c, s, e, ne⟩ := ih (n / base) (Nat.div_lt_self (by omega) hb) pos
      exact ⟨c, s ++ [Nat.digitChar (n % base)], by rw [e]; rfl, ne⟩

end Print

end Numeral

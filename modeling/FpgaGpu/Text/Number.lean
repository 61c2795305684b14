import FpgaGpu.Lib.Numeral
import FpgaGpu.Text.Scan

/-!
# Numbers in text

The numeric conversions the tools use: `std::stoi` and `std::stoul` (over `strtol` and `strtoul`),
`operator<<` and `std::to_string` on integers, and the eight hexadecimal digits of a word written
with `std::uppercase << std::hex << std::setfill('0') << std::setw(8)`.
-/

namespace FpgaGpu

open Numeral

/-- The optional sign of a number: whether it is a minus, and its length. -/
def readSign : Text → Bool × Nat × Text
  | '-' :: s => (true, 1, s)
  | '+' :: s => (false, 1, s)
  | s => (false, 0, s)

/-- The base that a numeral is read in, with the length of its `0x` prefix. Base 0 takes the base
from the prefix; the prefix counts only if a hexadecimal digit follows it. -/
def readBase (base : Nat) : Text → Nat × Nat × Text
  | '0' :: x :: d :: s =>
    if (base = 0 ∨ base = 16) ∧ (x = 'x' ∨ x = 'X') ∧ isDigitOf 16 d then (16, 2, d :: s)
    else if base = 0 then (8, 0, '0' :: x :: d :: s) else (base, 0, '0' :: x :: d :: s)
  | '0' :: s => if base = 0 then (8, 0, '0' :: s) else (base, 0, '0' :: s)
  | s => if base = 0 then (10, 0, s) else (base, 0, s)

/-- `strtol`/`strtoul` before any range check: the sign, the magnitude and the number of characters
consumed; `none` when there is no number to read. -/
def strtol (base : Nat) (s : Text) : Option (Bool × Nat × Nat) :=
  let white := s.takeWhile isspace
  let (neg, signLen, s) := readSign (s.dropWhile isspace)
  let (base, prefixLen, s) := readBase base s
  let digits := s.takeWhile (isDigitOf base)
  if digits = [] then none
  else some (neg, valueOf base digits, white.length + signLen + prefixLen + digits.length)

/-- The exceptions `std::stoi` throws. -/
inductive StoiError where
  | invalidArgument | outOfRange
  deriving DecidableEq, Repr

/-- `std::stoi(s, &consumed, base)`: the value and the number of characters consumed. -/
def stoi (base : Nat) (s : Text) : Except StoiError (BitVec 32 × Nat) :=
  match strtol base s with
  | none => .error .invalidArgument
  | some (neg, n, consumed) =>
    let v : Int := if neg then -n else n
    if -2147483648 ≤ v ∧ v < 2147483648 then .ok (BitVec.ofInt 32 v, consumed)
    else .error .outOfRange

/-- `std::stoul(s, nullptr, base)` with a 64-bit `unsigned long`. -/
def stoul (base : Nat) (s : Text) : Except StoiError (BitVec 64) :=
  match strtol base s with
  | none => .error .invalidArgument
  | some (neg, n, _) =>
    if n < 2 ^ 64 then .ok (if neg then -BitVec.ofNat 64 n else BitVec.ofNat 64 n)
    else .error .outOfRange

/-- `os << n` for an unsigned `n`. -/
def decimalNat (n : Nat) : Text := Nat.toDigits 10 n

/-- `os << z` and `std::to_string(z)`. -/
def decimal (z : Int) : Text :=
  if z < 0 then '-' :: decimalNat z.natAbs else decimalNat z.natAbs

/-- Eight upper-case hexadecimal digits. -/
def hex8 (word : Word) : Text := (upper (Nat.toDigits 16 word.toNat)).leftpad 8 '0'

/-! ## Operands -/

/-- `"R" << (int)r`. -/
def regText (r : RegField) : Text := 'R' :: decimalNat r.toNat

/-- A mnemonic with its comma-separated operands. -/
def lineText (mnemonic : String) (operands : List Text) : Text :=
  mnemonic.toList ++ ' ' :: (", ".toList).intercalate operands

/-- A register in brackets. -/
def addressText (r : RegField) : Text := '[' :: regText r ++ [']']

/-! ## Reading back what is written -/

lemma decimalNat_ne_nil (n : Nat) : decimalNat n ≠ [] := Nat.toDigits_ne_nil

/-- Printing changes no digit value. -/
private lemma digitValue_id_digitChar : ∀ d < 16, digitValue (id (Nat.digitChar d)) = some d :=
  fun _ hd => digitValue_digitChar hd

/-- Decimal numerals consist of decimal digits. -/
lemma isDigitOf_decimalNat {n : Nat} {c : Char} (h : c ∈ decimalNat n) : isDigitOf 10 c = true :=
  isDigitOf_of_mem_toDigits (by decide) (by decide) digitValue_id_digitChar n c
    (by rwa [List.map_id])

/-- The value of a decimal numeral. -/
lemma valueOf_decimalNat (n : Nat) : valueOf 10 (decimalNat n) = n := by
  have : valueOf 10 _ = n := valueOf_toDigits (by decide) (by decide) digitValue_id_digitChar n
  rwa [List.map_id] at this

/-- A digit differs from every character that is not one. -/
lemma ne_of_isDigitOf {base : Nat} {c d : Char} (h : isDigitOf base c = true)
    (hd : isDigitOf base d = false) : c ≠ d := by
  rintro rfl
  rw [h] at hd
  cases hd

/-- White space is not a digit. -/
lemma isspace_of_isDigitOf {base : Nat} {c : Char} (h : isDigitOf base c = true) :
    isspace c = false := by
  have no : ∀ d, digitValue d = none → c ≠ d := fun d hd =>
    ne_of_isDigitOf h (by rw [isDigitOf, hd])
  simp [isspace, no ' ' (by decide), no '\t' (by decide), no '\n' (by decide),
    no '\x0b' (by decide), no '\x0c' (by decide), no '\r' (by decide)]

/-- A decimal digit is neither blank nor a separator nor one of the marks of the syntax. -/
lemma isDigitOf_ten {c : Char} (h : isDigitOf 10 c = true) :
    isspace c = false ∧ isSeparator c = false ∧ c ≠ '-' ∧ c ≠ '+' ∧ c ≠ ';' ∧
      c ≠ ':' ∧ c ≠ '\n' := by
  have sp := isspace_of_isDigitOf h
  have no : ∀ d, isDigitOf 10 d = false → c ≠ d := fun d hd => ne_of_isDigitOf h hd
  refine ⟨sp, ?_, no _ (by decide), no _ (by decide), no _ (by decide), no _ (by decide),
    no _ (by decide)⟩
  simp [isSeparator, sp, no ',' (by decide)]

/-- Without a sign there is none to skip. -/
lemma readSign_cons {c : Char} (minus : c ≠ '-') (plus : c ≠ '+') (s : Text) :
    readSign (c :: s) = (false, 0, c :: s) := by
  unfold readSign
  split
  · next h => exact absurd (List.cons.inj h).1 minus
  · next h => exact absurd (List.cons.inj h).1 plus
  · rfl

/-- Digits have no sign in front. -/
lemma readSign_of_isDigitOf {base : Nat} {c : Char} (h : isDigitOf base c = true) (s : Text) :
    readSign (c :: s) = (false, 0, c :: s) := by
  have no : ∀ d, digitValue d = none → c ≠ d := fun d hd =>
    ne_of_isDigitOf h (by rw [isDigitOf, hd])
  exact readSign_cons (no '-' (by decide)) (no '+' (by decide)) s

/-- A text whose first character is neither skipped nor taken is no number. -/
lemma stoi_cons_invalid {c : Char} (space : isspace c = false) (minus : c ≠ '-') (plus : c ≠ '+')
    (digit : isDigitOf 10 c = false) (s : Text) : stoi 0 (c :: s) = .error .invalidArgument := by
  have zero : c ≠ '0' := by
    rintro rfl
    cases digit
  have base : readBase 0 (c :: s) = (10, 0, c :: s) := by
    unfold readBase
    split
    · next e => exact absurd (List.cons.inj e).1 zero
    · next e => exact absurd (List.cons.inj e).1 zero
    · simp
  simp [stoi, strtol, space, readSign_cons minus plus, base, digit]

/-- A decimal numeral has no sign and no white space in front. -/
lemma readSign_decimalNat (n : Nat) :
    (decimalNat n).takeWhile isspace = [] ∧ (decimalNat n).dropWhile isspace = decimalNat n ∧
    readSign (decimalNat n) = (false, 0, decimalNat n) := by
  cases e : decimalNat n with
  | nil => exact absurd e (decimalNat_ne_nil n)
  | cons c s =>
    have digit : isDigitOf 10 c = true := isDigitOf_decimalNat (e ▸ List.mem_cons_self)
    have space := isspace_of_isDigitOf digit
    exact ⟨by simp [space], by simp [space], readSign_of_isDigitOf digit s⟩

/-- A decimal numeral is read in base ten, also where the base is taken from its prefix: only the
number zero starts with the octal prefix, and it has the same value in base eight. -/
lemma strtol_digits (n : Nat) {base : Nat} (hb : base = 0 ∨ base = 10) :
    ∃ b, readBase base (decimalNat n) = (b, 0, decimalNat n) ∧
      (decimalNat n).takeWhile (isDigitOf b) = decimalNat n ∧ valueOf b (decimalNat n) = n := by
  have ten : (decimalNat n).takeWhile (isDigitOf 10) = decimalNat n :=
    List.takeWhile_eq_self_iff.mpr fun c hc => isDigitOf_decimalNat hc
  by_cases hn : n = 0
  · subst hn
    obtain rfl | rfl := hb
    · exact ⟨8, rfl, by decide, by decide⟩
    · exact ⟨10, rfl, by decide, by decide⟩
  · obtain ⟨c, s, e, ne⟩ := head_toDigits_ne_zero (show 1 < 10 by decide) (by decide) hn
    have e : decimalNat n = c :: s := e
    refine ⟨10, ?_, ten, valueOf_decimalNat n⟩
    rw [e]
    unfold readBase
    split
    · next h => cases h; exact absurd rfl ne
    · next h => cases h; exact absurd rfl ne
    · obtain rfl | rfl := hb <;> simp

/-- `strtol` reads a decimal numeral to its end. -/
lemma strtol_decimalNat (n : Nat) {base : Nat} (hb : base = 0 ∨ base = 10) :
    strtol base (decimalNat n) = some (false, n, (decimalNat n).length) := by
  obtain ⟨take, drop, sign⟩ := readSign_decimalNat n
  obtain ⟨b, rb, all, val⟩ := strtol_digits n hb
  simp [strtol, take, drop, sign, rb, all, val, decimalNat_ne_nil]

/-- `strtol` reads a signed decimal numeral to its end. -/
lemma strtol_decimal (z : Int) {base : Nat} (hb : base = 0 ∨ base = 10) :
    strtol base (decimal z) = some (decide (z < 0), z.natAbs, (decimal z).length) := by
  unfold decimal
  split
  · next h =>
    obtain ⟨b, rb, all, val⟩ := strtol_digits z.natAbs hb
    simp [strtol, isspace, readSign, rb, all, val, decimalNat_ne_nil, h, Nat.add_comm]
  · next h => simp [strtol_decimalNat _ hb, h]

/-- `std::stoi` reads back every 32-bit integer that was printed. -/
theorem stoi_decimal (x : BitVec 32) {base : Nat} (hb : base = 0 ∨ base = 10) :
    stoi base (decimal x.toInt) = .ok (x, (decimal x.toInt).length) := by
  have lo := BitVec.le_toInt x
  have hi := BitVec.toInt_lt (x := x)
  have v : (if decide (x.toInt < 0) = true then -(x.toInt.natAbs : Int) else x.toInt.natAbs) =
      x.toInt := by
    split
    · next h => simp only [decide_eq_true_eq] at h; omega
    · next h => simp only [decide_eq_true_eq] at h; omega
  simp only [stoi, strtol_decimal _ hb, v]
  rw [if_pos (by simpa using And.intro lo hi), BitVec.ofInt_toInt]

/-- The characters of a printed integer. -/
lemma mem_decimal {z : Int} {c : Char} (h : c ∈ decimal z) : c = '-' ∨ isDigitOf 10 c = true := by
  unfold decimal at h
  split at h
  · exact (List.mem_cons.mp h).imp_right isDigitOf_decimalNat
  · exact .inr (isDigitOf_decimalNat h)

/-- The decimal digits come before the letters. -/
lemma le_nine_of_isDigitOf {c : Char} (h : isDigitOf 10 c = true) : c ≤ '9' := by
  unfold isDigitOf digitValue at h
  split at h
  · next d e =>
    split at e
    · next hc => exact hc.2
    · split at e
      · cases e; simp at h
      · split at e
        · cases e; simp at h
        · cases e
  · cases h

/-- A decimal digit is no letter. -/
lemma isAlpha_of_isDigitOf {c : Char} (h : isDigitOf 10 c = true) : c.isAlpha = false := by
  have nine : c.val ≤ '9'.val := le_nine_of_isDigitOf h
  have upper : ¬ 65 ≤ c.val := fun le => absurd (UInt32.le_trans le nine) (by decide)
  have lower : ¬ 97 ≤ c.val := fun le => absurd (UInt32.le_trans le nine) (by decide)
  change (decide (65 ≤ c.val ∧ c.val ≤ 90) ||
    (decide (97 ≤ c.val) && decide (c.val ≤ 122))) = false
  simp [upper, lower]

/-- A decimal digit has no case. -/
lemma toUpper_of_isDigitOf {c : Char} (h : isDigitOf 10 c = true) : c.toUpper = c := by
  have nine : c.val ≤ '9'.val := le_nine_of_isDigitOf h
  refine dif_neg ?_
  rintro ⟨lo, -⟩
  exact absurd (UInt32.le_trans lo nine) (by decide)

/-- A printed integer has no letters. -/
lemma upper_decimal (z : Int) : upper (decimal z) = decimal z := by
  rw [upper]
  nth_rewrite 2 [← List.map_id (decimal z)]
  apply List.map_congr_left
  intro c hc
  obtain rfl | hc := mem_decimal hc
  · decide
  · exact toUpper_of_isDigitOf hc

/-- A printed integer is not empty. -/
lemma decimal_ne_nil (z : Int) : decimal z ≠ [] := by
  unfold decimal
  split
  · simp
  · exact decimalNat_ne_nil _

/-! ## Hexadecimal words -/

/-- Capitalising changes no digit value. -/
private lemma digitValue_upper_digitChar :
    ∀ d < 16, digitValue (Char.toUpper (Nat.digitChar d)) = some d :=
  fun _ hd => digitValue_toUpper_digitChar hd

/-- `hex8` pads the digits with zeros. -/
lemma hex8_eq (word : Word) : ∃ k, hex8 word =
    List.replicate k '0' ++ (Nat.toDigits 16 word.toNat).map Char.toUpper :=
  ⟨_, by rw [hex8, List.leftpad, upper]⟩

/-- The characters of a printed word are hexadecimal digits. -/
lemma isDigitOf_hex8 {word : Word} {c : Char} (h : c ∈ hex8 word) : isDigitOf 16 c = true := by
  obtain ⟨k, e⟩ := hex8_eq word
  rw [e, List.mem_append] at h
  obtain h | h := h
  · rw [List.eq_of_mem_replicate h]; decide
  · exact isDigitOf_of_mem_toDigits (by decide) (by decide) digitValue_upper_digitChar _ c h

/-- `hex8` is read back in base 16. -/
theorem stoul_hex8 (word : Word) : stoul 16 (hex8 word) = .ok (word.setWidth 64) := by
  obtain ⟨k, e⟩ := hex8_eq word
  have digit : ∀ c ∈ hex8 word, isDigitOf 16 c = true := fun c hc => isDigitOf_hex8 hc
  have val : valueOf 16 (hex8 word) = word.toNat := by
    rw [e, valueOf_zeros]
    exact valueOf_toDigits (by decide) (by decide) digitValue_upper_digitChar _
  have ne : hex8 word ≠ [] := by simp [e, Nat.toDigits_ne_nil]
  have all : (hex8 word).takeWhile (isDigitOf 16) = hex8 word :=
    List.takeWhile_eq_self_iff.mpr digit
  have read : strtol 16 (hex8 word) = some (false, word.toNat, (hex8 word).length) := by
    -- a digit is not the x of a prefix
    generalize hex8 word = s at *
    obtain ⟨c, t, rfl⟩ := List.exists_cons_of_ne_nil ne
    have hc := digit c List.mem_cons_self
    have base : readBase 16 (c :: t) = (16, 0, c :: t) := by
      unfold readBase
      split
      · next x d u h =>
        cases h
        have hx := digit x (by simp)
        have nx : ¬ (x = 'x' ∨ x = 'X') := by
          rintro (rfl | rfl) <;> exact absurd hx (by decide)
        simp [nx]
      · next h => cases h; simp
      · simp
    simp [strtol, isspace_of_isDigitOf hc, readSign_of_isDigitOf hc, base, all, val]
  have lt : word.toNat < 2 ^ 64 := by omega
  simp only [stoul, read, if_pos lt, Bool.false_eq_true, if_false, BitVec.ofNat_toNat]

end FpgaGpu

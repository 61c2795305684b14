import FpgaGpu.Asm.Operands

/-!
# Well-formed lines

What an instruction should look like, and which lines the parser takes that do not look like it.
Only `SSY` counts its operands and compares what was consumed of its number with the length of it;
the other mnemonics overlook operands that they do not need, and what follows a number.
-/

namespace FpgaGpu

open Numeral

/-! ## Operands -/

/-- `R` or `r` with the number of a register. -/
def IsRegister (t : Text) : Prop :=
  ∃ c digits, t = c :: digits ∧ (c = 'R' ∨ c = 'r') ∧ digits ≠ [] ∧
    (∀ d ∈ digits, isDigitOf 10 d = true) ∧ valueOf 10 digits < numPhysicalRegs

/-- A number, consumed to its end. -/
def IsNumber (t : Text) : Prop := ∃ value, stoi 0 t = .ok (value, t.length)

/-- A number with something behind it. -/
def HasTail (t : Text) : Prop :=
  ∃ value consumed, stoi 0 t = .ok (value, consumed) ∧ consumed ≠ t.length

/-- The letters of a condition. -/
def IsConditionLetter (c : Char) : Prop := c = 'N' ∨ c = 'Z' ∨ c = 'P'

/-- The names of system registers. -/
def IsSysRegName (t : Text) : Prop :=
  t = "SR_TID.X".toList ∨ t = "SR_TID.Y".toList ∨ t = "SR_BID.X".toList ∨ t = "SR_BID.Y".toList

/-- An operand as it should look like. -/
def Operand.WellFormed : Operand → Text → Prop
  | .register, t => IsRegister t
  | .address, t => ∃ r, t = '[' :: r ++ [']'] ∧ IsRegister r
  | .literal, t => IsNumber t
  | .sysReg, t => IsSysRegName (upper t) ∨ IsNumber t
  | .condition, t => t ≠ [] ∧ ∀ c ∈ upper t, IsConditionLetter c
  -- what is no number is a label
  | .target, t => ¬ HasTail t
  | .offset, t => ¬ HasTail t

/-- What the conversion of an operand overlooks. -/
def Operand.Overlooks : Operand → Text → Prop
  -- a sign before the number, or anything behind it
  | .register, t => ∃ c ∈ t.tail, isDigitOf 10 c = false
  -- the same, or brackets in other places
  | .address, t => ¬ ∃ r, t = '[' :: r ++ [']'] ∧ ∀ c ∈ r.tail, isDigitOf 10 c = true
  | .literal, t => HasTail t
  | .sysReg, t => HasTail t
  | .condition, t => ∃ c ∈ upper t, ¬ IsConditionLetter c
  | .target, t => HasTail t
  | .offset, _ => False

/-- A known mnemonic with its operands. -/
def WellFormed (rawLine : Text) : Prop :=
  ∃ mnemonic operands form, lineTokens rawLine = mnemonic :: operands ∧
    operandForm (upper mnemonic) = some form ∧ operands.length = form.length ∧
    ∀ p ∈ form.zip operands, p.1.WellFormed p.2

/-! ## Numbers -/

/-- A text of decimal digits is read to its end. -/
lemma strtol_ten {s : Text} (ne : s ≠ []) (digits : ∀ c ∈ s, isDigitOf 10 c = true) :
    strtol 10 s = some (false, valueOf 10 s, s.length) := by
  have all : s.takeWhile (isDigitOf 10) = s := List.takeWhile_eq_self_iff.mpr digits
  have base : readBase 10 s = (10, 0, s) := by
    unfold readBase
    split <;> simp
  obtain ⟨c, s, rfl⟩ := List.exists_cons_of_ne_nil ne
  have digit := digits c List.mem_cons_self
  simp [strtol, isspace_of_isDigitOf digit, readSign_of_isDigitOf digit, base, all]

/-- A register is what it should be if all behind its letter are digits. -/
lemma isRegister_of_parseRegister {t : Text} {r : RegField} (read : parseRegister t = .ok r)
    (digits : ∀ c ∈ t.tail, isDigitOf 10 c = true) : IsRegister t := by
  cases t with
  | nil => cases read
  | cons c s =>
    rw [parseRegister] at read
    split_ifs at read with letter
    obtain ⟨⟨num, consumed⟩, conv, read⟩ := Outcome.bind_eq_ok.mp read
    have ne : s ≠ [] := by
      rintro rfl
      cases conv
    rw [stoi, strtol_ten ne digits] at conv
    simp only [Bool.false_eq_true, if_false] at conv
    by_cases range : -2147483648 ≤ (valueOf 10 s : Int) ∧ (valueOf 10 s : Int) < 2147483648
    case neg => rw [if_neg range] at conv; cases conv
    rw [if_pos range, Outcome.ofExcept, Outcome.ok.injEq, Prod.mk.injEq] at conv
    have value : num.toInt = valueOf 10 s := by
      rw [← conv.1, BitVec.toInt_ofInt, Int.bmod_eq_of_le] <;> push_cast <;> omega
    simp only [value] at read
    split_ifs at read with small
    refine ⟨c, s, rfl, Decidable.or_iff_not_not_and_not.mpr letter, ne, digits, ?_⟩
    simp only [numPhysicalRegs] at small ⊢
    omega

/-- The outer brackets are erased. -/
lemma parseAddress_brackets (r : Text) : parseAddress ('[' :: r ++ [']']) = parseAddress r := by
  rw [parseAddress, parseAddress, List.cons_append, List.filter_cons_of_neg (by decide),
    List.filter_append, List.filter_append]
  simp

/-- A register in brackets. -/
lemma isRegister_of_parseAddress {r : Text} {rs1 : RegField} (read : parseAddress r = .ok rs1)
    (digits : ∀ c ∈ r.tail, isDigitOf 10 c = true) : IsRegister r := by
  cases r with
  | nil => cases read
  | cons c s =>
    have opening : s.filter (· ≠ '[') = s := by
      refine List.filter_eq_self.mpr fun d hd => ?_
      simpa using ne_of_isDigitOf (digits d hd) (show isDigitOf 10 '[' = false by decide)
    have closing : s.filter (· ≠ ']') = s := by
      refine List.filter_eq_self.mpr fun d hd => ?_
      simpa using ne_of_isDigitOf (digits d hd) (show isDigitOf 10 ']' = false by decide)
    by_cases bracket : c = '[' ∨ c = ']'
    · -- behind a second bracket there is no letter
      have inner : parseAddress (c :: s) = parseRegister s := by
        obtain rfl | rfl := bracket
        · rw [parseAddress, List.filter_cons_of_neg (by decide), opening, closing]
        · rw [parseAddress, List.filter_cons_of_pos (by decide), opening,
            List.filter_cons_of_neg (by decide), closing]
      rw [inner] at read
      cases s with
      | nil => cases read
      | cons d s =>
        have digit := digits d List.mem_cons_self
        have upper := ne_of_isDigitOf digit (show isDigitOf 10 'R' = false by decide)
        have lower := ne_of_isDigitOf digit (show isDigitOf 10 'r' = false by decide)
        rw [parseRegister, if_pos ⟨upper, lower⟩] at read
        cases read
    · rw [not_or] at bracket
      rw [parseAddress, List.filter_cons_of_pos (by simpa using bracket.1), opening,
        List.filter_cons_of_pos (by simpa using bracket.2), closing] at read
      exact isRegister_of_parseRegister read digits

/-- A number that converts and has nothing behind it. -/
lemma isNumber_of_conversion {t : Text} {value : BitVec 32} {consumed : Nat}
    (h : Outcome.ofExcept (stoi 0 t) = .ok (value, consumed)) (bare : ¬ HasTail t) :
    IsNumber t := by
  cases conv : stoi 0 t with
  | error e =>
    rw [conv] at h
    cases h
  | ok p =>
    obtain ⟨value', consumed'⟩ := p
    have eq : consumed' = t.length := by
      by_contra ne
      exact bare ⟨value', consumed', conv, ne⟩
    exact ⟨value', eq ▸ conv⟩

lemma IsNumber.not_hasTail {t : Text} (h : IsNumber t) : ¬ HasTail t := by
  rintro ⟨value, consumed, e, ne⟩
  obtain ⟨value', e'⟩ := h
  rw [e'] at e
  exact ne (Prod.mk.inj (Except.ok.inj e)).2.symm

/-- A text that starts with an `S` is no number. -/
lemma stoi_of_toUpper {c : Char} (h : c.toUpper = 'S') (s : Text) :
    stoi 0 (c :: s) = .error .invalidArgument := by
  have no : ∀ d : Char, d.toUpper ≠ 'S' → c ≠ d := by
    rintro d hd rfl
    exact hd h
  have space : isspace c = false := by
    simp [isspace, no ' ' (by decide), no '\t' (by decide), no '\n' (by decide),
      no '\x0b' (by decide), no '\x0c' (by decide), no '\r' (by decide)]
  have digit : isDigitOf 10 c = false := by
    by_contra digit
    rw [Bool.not_eq_false] at digit
    rw [toUpper_of_isDigitOf digit] at h
    subst h
    exact absurd digit (by decide)
  exact stoi_cons_invalid space (no '-' (by decide)) (no '+' (by decide)) digit s

/-- The names of system registers are no numbers. -/
lemma IsSysRegName.not_hasTail {t : Text} (h : IsSysRegName (upper t)) : ¬ HasTail t := by
  have head : (upper t).head? = some 'S' := by
    obtain e | e | e | e := h <;> rw [e] <;> rfl
  cases t with
  | nil => cases head
  | cons c s =>
    rintro ⟨value, consumed, e, -⟩
    rw [stoi_of_toUpper (Option.some.inj head) s] at e
    cases e

/-! ## Operands that are read -/

/-- An operand that converts is what it should be if nothing in it was overlooked. -/
lemma Operand.WellFormed.of_read {kind : Operand} {t : Text} (ne : t ≠ [])
    (read : kind.read t = .ok ()) (seen : ¬ kind.Overlooks t) : kind.WellFormed t := by
  cases kind with
  | register =>
    obtain ⟨r, parsed⟩ := status_eq_ok.mp read
    exact isRegister_of_parseRegister parsed (by simpa [Overlooks] using seen)
  | address =>
    obtain ⟨r, parsed⟩ := status_eq_ok.mp read
    obtain ⟨inner, rfl, digits⟩ := not_not.mp seen
    rw [parseAddress_brackets] at parsed
    exact ⟨inner, rfl, isRegister_of_parseAddress parsed digits⟩
  | literal =>
    obtain ⟨⟨value, consumed⟩, conv⟩ := status_eq_ok.mp read
    exact isNumber_of_conversion conv seen
  | sysReg =>
    obtain ⟨imm, parsed⟩ := status_eq_ok.mp read
    by_cases name : IsSysRegName (upper t)
    · exact .inl name
    · obtain ⟨h₁, h₂, h₃, h₄⟩ : _ ∧ _ ∧ _ ∧ _ := by simpa only [IsSysRegName, not_or] using name
      rw [parseSysReg, if_neg h₁, if_neg h₂, if_neg h₃, if_neg h₄] at parsed
      obtain ⟨⟨value, consumed⟩, conv, -⟩ := Outcome.bind_eq_ok.mp parsed
      exact .inr (isNumber_of_conversion conv seen)
  | condition =>
    refine ⟨ne, fun c hc => ?_⟩
    by_contra other
    exact seen ⟨c, hc, other⟩
  | target => exact seen
  | offset =>
    rintro ⟨value, consumed, e, ne⟩
    simp [Operand.read, e, ne] at read

/-- Nothing is overlooked in an operand that is what it should be. -/
lemma Operand.WellFormed.not_overlooks {kind : Operand} {t : Text} (h : kind.WellFormed t) :
    ¬ kind.Overlooks t := by
  cases kind with
  | register =>
    obtain ⟨c, digits, rfl, -, -, all, -⟩ := h
    simpa [Overlooks] using all
  | address =>
    obtain ⟨r, rfl, c, digits, rfl, -, -, all, -⟩ := h
    exact not_not.mpr ⟨_, rfl, all⟩
  | literal => exact IsNumber.not_hasTail h
  | sysReg => exact h.elim IsSysRegName.not_hasTail IsNumber.not_hasTail
  | condition =>
    rintro ⟨c, hc, other⟩
    exact other (h.2 c hc)
  | target => exact h
  | offset => exact id

/-! ## Lines -/

section Lines

variable {rawLine mnemonic : Text} {operands : List Text}
  (tokens : lineTokens rawLine = mnemonic :: operands)
include tokens

lemma wellFormed_iff : WellFormed rawLine ↔ ∃ form, operandForm (upper mnemonic) = some form ∧
    operands.length = form.length ∧ ∀ p ∈ form.zip operands, p.1.WellFormed p.2 := by
  simp [WellFormed, tokens]

lemma not_short {form : List Operand} (known : operandForm (upper mnemonic) = some form)
    (enough : form.length ≤ operands.length) : ¬ Short rawLine := by
  rintro ⟨mnemonic', operands', form', tokens', known', short⟩
  obtain ⟨rfl, rfl⟩ := List.cons.inj (tokens.symm.trans tokens')
  obtain rfl := Option.some.inj (known.symm.trans known')
  exact absurd short (Nat.not_lt.mpr enough)

/-- A line with enough operands is accepted only if it is well formed, just when it is refused for
an operand it needs or there is nothing that the parser overlooks: no operand too many, and nothing
in the ones it needs. -/
theorem parseLine_wellFormed_iff (enough : ¬ Short rawLine) (st : Parse) :
    ((∃ st', parseLine rawLine st = .ok st') → WellFormed rawLine) ↔
      ∀ form, operandForm (upper mnemonic) = some form → Convert form operands →
        (upper mnemonic ≠ "SSY".toList → operands.length = form.length) ∧
          ∀ p ∈ form.zip operands, ¬ p.1.Overlooks p.2 := by
  rw [(parseLine_cases rawLine st).2, readsThrough_iff tokens, wellFormed_iff tokens]
  constructor
  · intro sound form known convert
    have long : form.length ≤ operands.length := by
      by_contra short
      exact enough ⟨mnemonic, operands, form, tokens, known, Nat.lt_of_not_le short⟩
    by_cases extra : upper mnemonic = "SSY".toList → operands.length = 1
    · obtain ⟨form', known', count, all⟩ := sound ⟨form, known, long, extra, convert⟩
      obtain rfl := Option.some.inj (known.symm.trans known')
      exact ⟨fun _ => count, fun p hp => (all p hp).not_overlooks⟩
    · -- the conversion of an offset overlooks nothing
      obtain ⟨ssy, -⟩ := Classical.not_imp.mp extra
      rw [ssy] at known
      obtain rfl : [.offset] = form := Option.some.inj known
      refine ⟨fun ne => absurd ssy ne, fun p hp => ?_⟩
      rw [List.mem_singleton.mp (List.of_mem_zip hp).1]
      exact id
  · rintro careful ⟨form, known, -, counted, convert⟩
    obtain ⟨count, seen⟩ := careful form known convert
    refine ⟨form, known, ?_, fun p hp => ?_⟩
    · by_cases ssy : upper mnemonic = "SSY".toList
      · rw [ssy] at known
        obtain rfl : [.offset] = form := Option.some.inj known
        exact counted ssy
      · exact count ssy
    · have token : p.2 ∈ lineTokens rawLine := by
        rw [tokens]
        exact List.mem_cons_of_mem _ (List.of_mem_zip hp).2
      exact .of_read (ne_nil_of_mem_splitFrom token) (convert p hp) (seen p hp)

end Lines

/-- A load as it should look like. -/
theorem parseLine_wellFormed_load : WellFormed "next: ldr R07, [r31] ; data".toList := by
  have tokens : lineTokens "next: ldr R07, [r31] ; data".toList =
    "ldr".toList :: ["R07".toList, "[r31]".toList] := by decide
  have load : operandForm (upper "ldr".toList) = some [.register, .address] := by decide
  refine (parseLine_wellFormed_iff tokens (not_short tokens load (by decide)) .empty).mpr
    (fun form known _ => ?_) ⟨_, rfl⟩
  obtain rfl := Option.some.inj (load.symm.trans known)
  refine ⟨fun _ => rfl, fun p hp => ?_⟩
  obtain rfl | rfl : p = (.register, "R07".toList) ∨ p = (.address, "[r31]".toList) := by
    simpa using hp
  · have digits : "R07".toList.tail.all (isDigitOf 10) = true := by decide
    rintro ⟨c, hc, other⟩
    cases (List.all_eq_true.mp digits c hc).symm.trans other
  · have digits : "r31".toList.tail.all (isDigitOf 10) = true := by decide
    exact not_not.mpr ⟨"r31".toList, rfl, List.all_eq_true.mp digits⟩

/-- A number with letters behind it is refused as the offset of `SSY` and taken as a literal. -/
theorem parseLine_malformed : ¬ ∀ (rawLine mnemonic : Text) (operands : List Text) (st : Parse),
    lineTokens rawLine = mnemonic :: operands → ¬ Short rawLine →
    (∃ st', parseLine rawLine st = .ok st') → WellFormed rawLine := by
  intro h
  have tokens : lineTokens "ADDI R1, R2, 12garbage".toList =
    "ADDI".toList :: ["R1".toList, "R2".toList, "12garbage".toList] := by decide
  have addi : operandForm (upper "ADDI".toList) = some [.register, .register, .literal] := by decide
  have accepted := h _ _ _ .empty tokens (not_short tokens addi (by decide)) ⟨_, rfl⟩
  obtain ⟨form, known, -, all⟩ := (wellFormed_iff tokens).mp accepted
  obtain rfl := Option.some.inj (addi.symm.trans known)
  obtain ⟨value, e⟩ : IsNumber "12garbage".toList :=
    all (.literal, _) (.tail _ (.tail _ (.head _)))
  have prefixed : stoi 0 "12garbage".toList = .ok (12, 2) := by decide
  rw [prefixed] at e
  cases e

end FpgaGpu

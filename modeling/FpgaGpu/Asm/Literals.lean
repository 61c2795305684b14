import FpgaGpu.Asm.Targets

/-!
# Numbers in instructions

A number that is written as an operand is read as a 32-bit integer and then cut to the field of its
instruction. No mnemonic compares it with the range of the field, so the field holds the number
exactly if it is in that range.
-/

namespace FpgaGpu

open Numeral

/-! ## Literals -/

/-- A number without a sign: decimal, octal behind `0`, or hexadecimal behind `0x`. -/
inductive IsMagnitude : Text → Nat → Prop
  | decimal {c : Char} {s : Text} (nonzero : c ≠ '0')
      (digits : ∀ d ∈ c :: s, isDigitOf 10 d = true) :
    IsMagnitude (c :: s) (valueOf 10 (c :: s))
  | octal {s : Text} (digits : ∀ d ∈ s, isDigitOf 8 d = true) : IsMagnitude ('0' :: s) (valueOf 8 s)
  | hexadecimal {x : Char} {s : Text} (marked : x = 'x' ∨ x = 'X') (ne : s ≠ [])
    (digits : ∀ d ∈ s, isDigitOf 16 d = true) : IsMagnitude ('0' :: x :: s) (valueOf 16 s)

/-- An integer literal with its value. -/
inductive IsLiteral : Text → Int → Prop
  | bare {s : Text} {n : Nat} (magnitude : IsMagnitude s n) : IsLiteral s n
  | plus {s : Text} {n : Nat} (magnitude : IsMagnitude s n) : IsLiteral ('+' :: s) n
  | minus {s : Text} {n : Nat} (magnitude : IsMagnitude s n) : IsLiteral ('-' :: s) (-n)

/-- The range of `int`. -/
def FitsInt (v : Int) : Prop := -2147483648 ≤ v ∧ v < 2147483648

instance (v : Int) : Decidable (FitsInt v) := by
  unfold FitsInt
  infer_instance

section Conversion

variable {s t : Text} {n : Nat} {v : Int}

/-- A number starts with a digit. -/
lemma IsMagnitude.head (h : IsMagnitude s n) : ∃ c r, s = c :: r ∧ isDigitOf 10 c = true := by
  cases h with
  | decimal nonzero digits => exact ⟨_, _, rfl, digits _ List.mem_cons_self⟩
  | octal digits => exact ⟨_, _, rfl, by decide⟩
  | hexadecimal marked ne digits => exact ⟨_, _, rfl, by decide⟩

/-- The base of a number is that of its prefix, and all behind the prefix are digits of it. -/
lemma IsMagnitude.readBase (h : IsMagnitude s n) : ∃ base skipped digits,
    FpgaGpu.readBase 0 s = (base, skipped, digits) ∧ digits ≠ [] ∧
      digits.takeWhile (isDigitOf base) = digits ∧ valueOf base digits = n ∧
      skipped + digits.length = s.length := by
  cases h with
  | @decimal c s nonzero digits =>
    refine ⟨10, 0, c :: s, ?_, nofun, List.takeWhile_eq_self_iff.mpr digits, rfl, Nat.zero_add _⟩
    unfold FpgaGpu.readBase
    split
    · next e => exact absurd (List.cons.inj e).1 nonzero
    · next e => exact absurd (List.cons.inj e).1 nonzero
    · rfl
  | @octal s digits =>
    have all : ∀ d ∈ '0' :: s, isDigitOf 8 d = true :=
      List.forall_mem_cons.mpr ⟨by decide, digits⟩
    refine ⟨8, 0, '0' :: s, ?_, nofun, List.takeWhile_eq_self_iff.mpr all, valueOf_zeros 8 1 s,
      Nat.zero_add _⟩
    unfold FpgaGpu.readBase
    split
    · next x d r e =>
      obtain rfl := (List.cons.inj e).2
      -- no octal digit marks a hexadecimal number
      have digit := digits x List.mem_cons_self
      have unmarked : ¬ (x = 'x' ∨ x = 'X') := by
        rintro (rfl | rfl) <;> exact absurd digit (by decide)
      simp [unmarked]
    · next r e =>
      obtain rfl := (List.cons.inj e).2
      rfl
    · next no => exact absurd rfl (no _)
  | @hexadecimal x s marked ne digits =>
    obtain ⟨d, r, rfl⟩ := List.exists_cons_of_ne_nil ne
    refine ⟨16, 2, d :: r, ?_, nofun, List.takeWhile_eq_self_iff.mpr digits, rfl, ?_⟩
    · simp [FpgaGpu.readBase, marked, digits d List.mem_cons_self]
    · simp only [List.length_cons]
      omega

/-- A literal is consumed to its end. -/
lemma IsLiteral.strtol (h : IsLiteral t v) :
    ∃ neg n, FpgaGpu.strtol 0 t = some (neg, n, t.length) ∧ v = if neg then -(n : Int) else n := by
  have bare : ∀ {s : Text} {n : Nat}, IsMagnitude s n →
      s.takeWhile isspace = [] ∧ s.dropWhile isspace = s ∧ readSign s = (false, 0, s) := by
    intro s n magnitude
    obtain ⟨c, r, rfl, digit⟩ := magnitude.head
    have space := isspace_of_isDigitOf digit
    exact ⟨by simp [space], by simp [space], readSign_of_isDigitOf digit r⟩
  cases h with
  | @bare s n magnitude =>
    obtain ⟨base, skipped, digits, read, ne, all, value, length⟩ := magnitude.readBase
    obtain ⟨take, drop, sign⟩ := bare magnitude
    refine ⟨false, n, ?_, rfl⟩
    simp [FpgaGpu.strtol, take, drop, sign, read, ne, all, value, length]
  | @plus s n magnitude =>
    obtain ⟨base, skipped, digits, read, ne, all, value, length⟩ := magnitude.readBase
    refine ⟨false, n, ?_, rfl⟩
    have space : isspace '+' = false := by decide
    simp [FpgaGpu.strtol, space, readSign, read, ne, all, value, ← length]
    omega
  | @minus s n magnitude =>
    obtain ⟨base, skipped, digits, read, ne, all, value, length⟩ := magnitude.readBase
    refine ⟨true, n, ?_, rfl⟩
    have space : isspace '-' = false := by decide
    simp [FpgaGpu.strtol, space, readSign, read, ne, all, value, ← length]
    omega

/-- A literal converts if it is in the range of `int`. -/
lemma IsLiteral.stoi (h : IsLiteral t v) : FpgaGpu.stoi 0 t =
    if FitsInt v then .ok (BitVec.ofInt 32 v, t.length) else .error .outOfRange := by
  obtain ⟨neg, n, read, rfl⟩ := h.strtol
  simp only [FpgaGpu.stoi, read]
  rfl

end Conversion

/-! ## Operands -/

/-- The opcode and the operand of a mnemonic that takes a number. -/
def literalOperand (mnemonic : Text) (operands : List Text) : Option (Opcode × Text) :=
  if mnemonic = "ADDI".toList then operands[2]?.map (Prod.mk .addi)
  else if mnemonic = "S2R".toList then operands[1]?.map (Prod.mk .s2r)
  else if mnemonic = "BR".toList then operands[1]?.map (Prod.mk .br)
  else if mnemonic = "SSY".toList then operands[0]?.map (Prod.mk .ssy)
  else none

/-- The opcode and the number of a line. -/
def lineLiteral (rawLine : Text) : Option (Opcode × Text) :=
  match lineTokens rawLine with
  | [] => none
  | mnemonic :: operands => literalOperand (upper mnemonic) operands

/-- The immediate field of a word, sign-extended. -/
def immediate (op : Opcode) (word : Word) : Word :=
  if op.usesImm14 then imm14Field word else imm19Field word

/-- The signed range of the immediate field. -/
def Opcode.InRange (op : Opcode) (v : Int) : Prop :=
  if op.usesImm14 then -8192 ≤ v ∧ v < 8192 else -262144 ≤ v ∧ v < 262144

/-- A kind of operand that may be a number. -/
def Operand.isNumber : Operand → Bool
  | .literal | .sysReg | .target | .offset => true
  | .register | .address | .condition => false

/-- There are as many operands as are read, and those that are no number convert. -/
def OthersConvert (rawLine : Text) : Prop :=
  ∀ mnemonic operands, lineTokens rawLine = mnemonic :: operands →
    ∃ form, operandForm (upper mnemonic) = some form ∧ form.length ≤ operands.length ∧
      (upper mnemonic = "SSY".toList → operands.length = 1) ∧
      ∀ p ∈ form.zip operands, p.1.isNumber = false → p.1.read p.2 = .ok ()

/-- The mnemonics that take a number. -/
inductive TakesLiteral : Text → List Text → Opcode → Text → Prop
  | addi (rd rs1 t : Text) (rest : List Text) :
    TakesLiteral "ADDI".toList (rd :: rs1 :: t :: rest) .addi t
  | s2r (rd t : Text) (rest : List Text) : TakesLiteral "S2R".toList (rd :: t :: rest) .s2r t
  | br (cond t : Text) (rest : List Text) : TakesLiteral "BR".toList (cond :: t :: rest) .br t
  | ssy (t : Text) (rest : List Text) : TakesLiteral "SSY".toList (t :: rest) .ssy t

section Lines

variable {mnemonic t rawLine : Text} {operands : List Text} {op : Opcode} {v : Int}

lemma takesLiteral_of_literalOperand (h : literalOperand mnemonic operands = some (op, t)) :
    TakesLiteral mnemonic operands op t := by
  unfold literalOperand at h
  split_ifs at h with addi s2r br ssy
  · subst addi
    obtain _ | ⟨rd, _ | ⟨rs1, _ | ⟨t', rest⟩⟩⟩ := operands <;> cases h
    exact .addi ..
  · subst s2r
    obtain _ | ⟨rd, _ | ⟨t', rest⟩⟩ := operands <;> cases h
    exact .s2r ..
  · subst br
    obtain _ | ⟨cond, _ | ⟨t', rest⟩⟩ := operands <;> cases h
    exact .br ..
  · subst ssy
    obtain _ | ⟨t', rest⟩ := operands <;> cases h
    exact .ssy ..

/-- A literal is not the name of a system register. -/
lemma IsLiteral.parseSysReg (literal : IsLiteral t v) : FpgaGpu.parseSysReg t =
    (Outcome.ofExcept (FpgaGpu.stoi 0 t) >>= fun p => pure (p.1 &&& 0x3FFF)) := by
  have unnamed : ¬ IsSysRegName (upper t) := by
    intro name
    have converts := literal.stoi
    have head : (upper t).head? = some 'S' := by
      obtain e | e | e | e := name <;> rw [e] <;> rfl
    cases t with
    | nil => cases head
    | cons c s =>
      rw [stoi_of_toUpper (Option.some.inj head) s] at converts
      split_ifs at converts
      cases converts
  obtain ⟨h₁, h₂, h₃, h₄⟩ : _ ∧ _ ∧ _ ∧ _ := by simpa only [IsSysRegName, not_or] using unnamed
  rw [FpgaGpu.parseSysReg, if_neg h₁, if_neg h₂, if_neg h₃, if_neg h₄]

/-- The kinds of operands that read a literal as a number: all but a target need it to be an
`int`. -/
lemma IsLiteral.read (literal : IsLiteral t v) :
    (Operand.literal.read t = .ok () ↔ FitsInt v) ∧ (Operand.sysReg.read t = .ok () ↔ FitsInt v) ∧
      (Operand.offset.read t = .ok () ↔ FitsInt v) := by
  simp only [Operand.read, literal.parseSysReg, literal.stoi]
  split_ifs with fits <;> simp [fits, Outcome.ofExcept]

/-- A line with a literal is read through if the other operands convert and the number is an `int`;
a branch takes any number. -/
lemma readsThrough_literal (takes : lineLiteral rawLine = some (op, t)) (literal : IsLiteral t v) :
    ReadsThrough rawLine ↔ OthersConvert rawLine ∧ (op = .br ∨ FitsInt v) := by
  unfold lineLiteral at takes
  cases tokens : lineTokens rawLine with
  | nil =>
    rw [tokens] at takes
    cases takes
  | cons mnemonic operands =>
    simp only [tokens] at takes
    obtain ⟨literal', sysReg, offset⟩ := literal.read
    have others : OthersConvert rawLine ↔ ∃ form, operandForm (upper mnemonic) = some form ∧
        form.length ≤ operands.length ∧ (upper mnemonic = "SSY".toList → operands.length = 1) ∧
        ∀ p ∈ form.zip operands, p.1.isNumber = false → p.1.read p.2 = .ok () := by
      simp [OthersConvert, tokens]
    rw [readsThrough_iff tokens, others]
    generalize upper mnemonic = m at takes
    cases takesLiteral_of_literalOperand takes with
    | addi rd rs1 t rest =>
      have form : operandForm "ADDI".toList = some [.register, .register, .literal] := by decide
      rw [form]
      simp only [Option.some.injEq, exists_eq_left', Convert, List.zip_cons_cons, List.zip_nil_left,
        List.forall_mem_cons]
      simp [Operand.isNumber, literal', and_assoc]
    | s2r rd t rest =>
      have form : operandForm "S2R".toList = some [.register, .sysReg] := by decide
      rw [form]
      simp only [Option.some.injEq, exists_eq_left', Convert, List.zip_cons_cons, List.zip_nil_left,
        List.forall_mem_cons]
      simp [Operand.isNumber, sysReg]
    | br cond t rest =>
      have form : operandForm "BR".toList = some [.condition, .target] := by decide
      rw [form]
      simp only [Option.some.injEq, exists_eq_left', Convert, List.zip_cons_cons, List.zip_nil_left,
        List.forall_mem_cons]
      simp [Operand.isNumber, Operand.read]
    | ssy t rest =>
      have form : operandForm "SSY".toList = some [.offset] := by decide
      rw [form]
      simp only [Option.some.injEq, exists_eq_left', Convert, List.zip_cons_cons, List.zip_nil_left,
        List.forall_mem_cons]
      simp [Operand.isNumber, offset]

/-! ## Words -/

lemma fitsInt_of_inRange (h : op.InRange v) : FitsInt v := by
  unfold Opcode.InRange at h
  unfold FitsInt
  split_ifs at h <;> omega

lemma toInt_ofInt_of_fitsInt (h : FitsInt v) : (BitVec.ofInt 32 v).toInt = v := by
  unfold FitsInt at h
  rw [BitVec.toInt_ofInt]
  exact Int.bmod_eq_of_le (by omega) (by omega)

/-- A literal that the parser cuts to 14 bits is read back from the field if it is in the range. -/
lemma immediate_of_cut {mi : MachineInstruction} (is : mi.op = op) (use : op.usesImm14)
    (range : op.InRange v) (imm : mi.imm = BitVec.ofInt 32 v &&& 0x3FFF) :
    (immediate op (encode mi)).toInt = v := by
  subst is
  have value := toInt_ofInt_of_fitsInt (fitsInt_of_inRange range)
  rw [Opcode.InRange, if_pos use] at range
  have low : mi.imm.setWidth 14 = (BitVec.ofInt 32 v).setWidth 14 := by
    rw [imm, BitVec.setWidth_and]
    exact BitVec.and_allOnes
  have whole : ((BitVec.ofInt 32 v).setWidth 14).signExtend 32 = BitVec.ofInt 32 v :=
    signExtend_setWidth (n := 13) (by decide) (by rw [value]; omega)
  rw [immediate, if_pos use, imm14Field_eq, encode_setWidth14 use, low, whole, value]

/-- A literal that is only cut by the encoding. -/
lemma immediate_of_whole {mi : MachineInstruction} (is : mi.op = op) (use : op.usesImm19)
    (other : ¬ op.usesImm14) (range : op.InRange v) (imm : mi.imm = BitVec.ofInt 32 v) :
    (immediate op (encode mi)).toInt = v := by
  subst is
  have value := toInt_ofInt_of_fitsInt (fitsInt_of_inRange range)
  rw [Opcode.InRange, if_neg other] at range
  rw [immediate, if_neg other, imm19Field_encode use (by rw [imm, value]; exact range), imm, value]

/-- The instruction of a literal that is in the range of the field. -/
lemma parseInstruction_literal {first : Text} {mi : MachineInstruction}
    (takes : TakesLiteral mnemonic operands op t) (literal : IsLiteral t v) (range : op.InRange v)
    (h : parseInstruction mnemonic (first :: operands) = .ok mi) :
    mi.labelTarget = [] ∧ (immediate op (encode mi)).toInt = v := by
  have converts := literal.stoi
  rw [if_pos (fitsInt_of_inRange range)] at converts
  cases takes with
  | addi rd rs1 t rest =>
    have h : parseAddi (first :: rd :: rs1 :: t :: rest) = .ok mi := h
    obtain ⟨_, -, h⟩ := Outcome.bind_eq_ok.mp h
    obtain ⟨_, -, h⟩ := Outcome.bind_eq_ok.mp h
    obtain ⟨_, -, h⟩ := Outcome.bind_eq_ok.mp h
    obtain ⟨_, -, h⟩ := Outcome.bind_eq_ok.mp h
    obtain ⟨_, ⟨⟩, h⟩ := Outcome.bind_eq_ok.mp h
    rw [converts] at h
    cases h
    exact ⟨rfl, immediate_of_cut rfl rfl range rfl⟩
  | s2r rd t rest =>
    have h : parseS2r (first :: rd :: t :: rest) = .ok mi := h
    obtain ⟨_, -, h⟩ := Outcome.bind_eq_ok.mp h
    obtain ⟨_, -, h⟩ := Outcome.bind_eq_ok.mp h
    obtain ⟨_, ⟨⟩, h⟩ := Outcome.bind_eq_ok.mp h
    rw [literal.parseSysReg, converts] at h
    cases h
    exact ⟨rfl, immediate_of_cut rfl rfl range rfl⟩
  | br cond t rest =>
    have h : parseBr (first :: cond :: t :: rest) = .ok mi := h
    obtain ⟨_, -, h⟩ := Outcome.bind_eq_ok.mp h
    obtain ⟨_, ⟨⟩, h⟩ := Outcome.bind_eq_ok.mp h
    simp only [converts] at h
    cases h
    exact ⟨rfl, immediate_of_whole rfl rfl (by decide) range rfl⟩
  | ssy t rest =>
    have h : parseSsy (first :: t :: rest) = .ok mi := h
    unfold parseSsy at h
    split_ifs at h
    obtain ⟨_, ⟨⟩, h⟩ := Outcome.bind_eq_ok.mp h
    simp only [converts] at h
    split_ifs at h
    cases h
    exact ⟨rfl, immediate_of_whole rfl rfl (by decide) range rfl⟩

/-- The word of a line with a literal that is in the range of the field. -/
lemma assemble_literal {source : Text} {pre post : List Text} {words : List Word}
    (h : assemble source = .ok words) (lines : getlines source = pre ++ rawLine :: post)
    (takes : lineLiteral rawLine = some (op, t)) (literal : IsLiteral t v) (range : op.InRange v) :
    ∃ word, words[(pre.map lineSize).sum]? = some word ∧ (immediate op word).toInt = v := by
  have reads := (assemble_accepts_iff.mp ⟨words, h⟩).1 rawLine (by simp [lines])
  obtain ⟨mis, code⟩ := lineCode_eq_ok_iff.mpr reads
  have code' := code
  unfold lineLiteral at takes
  unfold lineCode at code'
  cases tokens : lineTokens rawLine with
  | nil =>
    rw [tokens] at takes
    cases takes
  | cons mnemonic operands =>
    simp only [tokens] at takes code'
    obtain ⟨mi, parsed, code'⟩ := Outcome.bind_eq_ok.mp code'
    cases code'
    obtain ⟨bare, value⟩ :=
      parseInstruction_literal (takesLiteral_of_literalOperand takes) literal range parsed
    obtain ⟨mi', resolved, word⟩ := assemble_line h lines code
    have untargeted : mi.hasTarget = false := by simp [Instruction.hasTarget, bare]
    rw [resolveTarget, untargeted] at resolved
    cases resolved
    exact ⟨_, word, value⟩

end Lines

/-! ## Sources -/

/-- The immediate field at `k` is the number `v`, and a number out of range is refused. -/
structure LiteralKept (source : Text) (k : Nat) (op : Opcode) (v : Int) : Prop where
  field : ∀ words, assemble source = .ok words →
    ∃ word, words[k]? = some word ∧ (immediate op word).toInt = v
  refused : ¬ op.InRange v → ∀ words, assemble source ≠ .ok words

/-- Nothing in a source is refused, but for the number of one of its lines. -/
structure OthersAccepted (source : Text) (pre : List Text) (rawLine : Text)
    (post : List Text) : Prop where
  readsThrough : ∀ l ∈ pre ++ post, ReadsThrough l
  defined : ∀ l ∈ pre ++ post, ∀ L, lineTarget l = some L → L ∈ labelsOf source
  operands : OthersConvert rawLine

section Sources

variable {source rawLine t : Text} {pre post : List Text} {op : Opcode} {v : Int}

/-- A number that is no `int` is the label of a branch. -/
lemma lineTarget_literal (takes : lineLiteral rawLine = some (op, t)) (literal : IsLiteral t v)
    (int : op = .br ∨ FitsInt v) {L : Text} :
    lineTarget rawLine = some L ↔ ¬ FitsInt v ∧ L = t := by
  unfold lineLiteral at takes
  unfold lineTarget
  have label : asLabel t = if FitsInt v then none else some t := by
    rw [asLabel, literal.stoi]
    split_ifs <;> rfl
  cases tokens : lineTokens rawLine with
  | nil =>
    rw [tokens] at takes
    cases takes
  | cons mnemonic operands =>
    simp only [tokens] at takes ⊢
    generalize upper mnemonic = m at takes ⊢
    cases takesLiteral_of_literalOperand takes with
    | addi | s2r =>
      have fits : FitsInt v := int.resolve_left (by decide)
      simp [targetOperand, fits]
    | br cond t rest =>
      have target : targetOperand "BR".toList (cond :: t :: rest) = some t := rfl
      rw [target, Option.bind_some, label]
      split_ifs with fits <;> simp [fits, eq_comm]
    | ssy t rest =>
      have fits : FitsInt v := int.resolve_left (by decide)
      have target : targetOperand "SSY".toList (t :: rest) = some t := rfl
      rw [target, Option.bind_some, label, if_pos fits]
      simp [fits]

/-- A source is accepted if the rest is and the number is an `int`, or a branch finds it as a
label. -/
lemma accepts_literal_iff (lines : getlines source = pre ++ rawLine :: post)
    (takes : lineLiteral rawLine = some (op, t)) (literal : IsLiteral t v) :
    (∃ words, assemble source = .ok words) ↔ OthersAccepted source pre rawLine post ∧
      (FitsInt v ∨ op = .br ∧ t ∈ labelsOf source) := by
  rw [assemble_accepts_iff, lines, forall_mem_split, forall_mem_split,
    readsThrough_literal takes literal]
  constructor
  · rintro ⟨⟨reads, operands, int⟩, defined, target⟩
    refine ⟨⟨reads, defined, operands⟩, ?_⟩
    by_cases fits : FitsInt v
    · exact .inl fits
    · exact .inr ⟨int.resolve_right fits,
        target t ((lineTarget_literal takes literal int).mpr ⟨fits, rfl⟩)⟩
  · rintro ⟨⟨reads, defined, operands⟩, read⟩
    have int : op = .br ∨ FitsInt v := read.elim .inr fun h => .inl h.1
    refine ⟨⟨reads, operands, int⟩, defined, fun L refers => ?_⟩
    obtain ⟨large, rfl⟩ := (lineTarget_literal takes literal int).mp refers
    exact (read.resolve_left large).2

/-- A number is kept just when it is in the range of its field or refused: because it is no `int`
and no label of a branch either, or because something else is. -/
theorem assemble_literalKept_iff (lines : getlines source = pre ++ rawLine :: post)
    (takes : lineLiteral rawLine = some (op, t)) (literal : IsLiteral t v) :
    LiteralKept source (pre.map lineSize).sum op v ↔ (OthersAccepted source pre rawLine post →
      (FitsInt v ∨ op = .br ∧ t ∈ labelsOf source) → op.InRange v) := by
  have accepts := accepts_literal_iff lines takes literal
  constructor
  · intro kept others read
    by_contra large
    obtain ⟨words, h⟩ := accepts.mpr ⟨others, read⟩
    exact kept.refused large words h
  · intro small
    have range : ∀ words, assemble source = .ok words → op.InRange v := fun words h =>
      have accepted := accepts.mp ⟨words, h⟩
      small accepted.1 accepted.2
    exact
      { field := fun words h => assemble_literal h lines takes literal (range words h)
        refused := fun large words h => large (range words h) }

end Sources

/-- The least number of 14 bits. -/
theorem assemble_literalKept_least :
    LiteralKept "EXIT\nlast: s2r r7, -0X2000 ; all".toList 1 .s2r (-8192) := by
  have lines : getlines "EXIT\nlast: s2r r7, -0X2000 ; all".toList =
    ["EXIT".toList] ++ "last: s2r r7, -0X2000 ; all".toList :: [] := by decide
  have takes : lineLiteral "last: s2r r7, -0X2000 ; all".toList =
      some (.s2r, "-0X2000".toList) := by
    decide
  have digits : "2000".toList.all (isDigitOf 16) = true := by decide
  have literal : IsLiteral "-0X2000".toList (-8192) :=
    .minus (.hexadecimal (s := "2000".toList) (.inr rfl) (by decide) (List.all_eq_true.mp digits))
  refine (assemble_literalKept_iff lines takes literal).mpr fun _ _ => ?_
  exact ⟨by decide, by decide⟩

/-- A number just above the range is taken for the least one. -/
theorem assemble_wraps :
    ¬ ∀ (source rawLine t : Text) (pre post : List Text) (op : Opcode) (v : Int),
    getlines source = pre ++ rawLine :: post → lineLiteral rawLine = some (op, t) → IsLiteral t v →
    LiteralKept source (pre.map lineSize).sum op v := by
  intro h
  have digits : "8192".toList.all (isDigitOf 10) = true := by decide
  have literal : IsLiteral "8192".toList 8192 :=
    .bare (.decimal (c := '8') (s := "192".toList) (by decide) (List.all_eq_true.mp digits))
  have kept := h "ADDI R1, R2, 8192".toList "ADDI R1, R2, 8192".toList
    "8192".toList [] [] .addi 8192 (by decide) (by decide) literal
  obtain ⟨word, here, value⟩ := kept.field [0x8108A000] (by decide)
  obtain rfl := Option.some.inj here
  exact absurd value (by decide)

end FpgaGpu

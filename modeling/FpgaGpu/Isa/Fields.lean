import FpgaGpu.Isa.Decode

/-!
# Fields of instruction words

An opcode uses some of the overlapping fields of a word. Encoding puts what it uses there and leaves
the other bits zero, so nothing that the instruction uses is lost.
-/

namespace FpgaGpu

/-- The bits of the fields that an opcode uses. -/
def Opcode.UsesBit (op : Opcode) (i : Nat) : Prop :=
  (24 ≤ i ∧ i < 32) ∨ (op.usesRd ∧ 19 ≤ i ∧ i < 24) ∨ (op.usesRs1 ∧ 14 ≤ i ∧ i < 19) ∨
    (op.usesRs2 ∧ 9 ≤ i ∧ i < 14) ∨ (op.usesImm14 ∧ i < 14) ∨ (op.usesImm19 ∧ i < 19) ∨
    (op.usesCond ∧ 19 ≤ i ∧ i < 22)

/-- The fields of a word are what the opcode of an instruction uses of it. -/
structure Instruction.ReadBack (mi : MachineInstruction) (word : Word) : Prop where
  op : Opcode.ofVal? (opField word) = some mi.op
  rd : mi.op.usesRd → rdField word = mi.rd
  rs1 : mi.op.usesRs1 → rs1Field word = mi.rs1
  rs2 : mi.op.usesRs2 → rs2Field word = mi.rs2
  imm14 : mi.op.usesImm14 → imm14Field word = mi.imm
  imm19 : mi.op.usesImm19 → imm19Field word = mi.imm
  cond : mi.op.usesCond → condField word = mi.cond

/-- Two instructions have the same opcode and agree on what it uses. -/
structure Instruction.AgreesWith (mi mi' : MachineInstruction) : Prop where
  op : mi.op = mi'.op
  rd : mi.op.usesRd → mi.rd = mi'.rd
  rs1 : mi.op.usesRs1 → mi.rs1 = mi'.rs1
  rs2 : mi.op.usesRs2 → mi.rs2 = mi'.rs2
  imm14 : mi.op.usesImm14 → mi.imm = mi'.imm
  imm19 : mi.op.usesImm19 → mi.imm = mi'.imm
  cond : mi.op.usesCond → mi.cond = mi'.cond

section Bits

variable {i : Nat}

/-- A shifted byte has no bits below. -/
lemma bits_opcode {v : BitVec 8} (h : ((v.setWidth 32 : Word) <<< 24).getLsbD i = true) :
    24 ≤ i ∧ i < 32 := by
  have lt := BitVec.lt_of_getLsbD h
  simp only [BitVec.getLsbD_shiftLeft, Bool.and_eq_true, Bool.not_eq_true',
    decide_eq_false_iff_not] at h
  exact ⟨by omega, lt⟩

/-- A masked field has the bits below its width. -/
lemma bits_mask (n : Nat) {w : Word} (h : (w &&& lowMask n).getLsbD i = true) : i < n := by
  rw [getLsbD_and_lowMask, Bool.and_eq_true, decide_eq_true_eq] at h
  exact h.2

/-- A masked field stands where it is shifted to. -/
lemma bits_field (n s : Nat) {w : Word} (h : ((w &&& lowMask n) <<< s).getLsbD i = true) :
    s ≤ i ∧ i < s + n := by
  simp only [BitVec.getLsbD_shiftLeft, Bool.and_eq_true, Bool.not_eq_true',
    decide_eq_false_iff_not] at h
  have lt := bits_mask n h.2
  omega

end Bits

/-- An encoded instruction has no bits outside its fields. -/
lemma usesBit_of_encode {mi : MachineInstruction} {i : Nat} (h : (encode mi).getLsbD i = true) :
    mi.op.UsesBit i := by
  have m5 : (0x1F : Word) = lowMask 5 := rfl
  have m3 : (0x7 : Word) = lowMask 3 := rfl
  have m14 : (0x3FFF : Word) = lowMask 14 := rfl
  have m19 : (0x7FFFF : Word) = lowMask 19 := rfl
  obtain ⟨op, rd, rs1, rs2, imm, cond, l, c⟩ := mi
  cases op with
  | add | sub | mul =>
    simp only [encode, m5, BitVec.getLsbD_or, Bool.or_eq_true] at h
    obtain ((h | h) | h) | h := h
    · exact .inl (bits_opcode h)
    · exact .inr (.inl ⟨rfl, bits_field 5 19 h⟩)
    · exact .inr (.inr (.inl ⟨rfl, bits_field 5 14 h⟩))
    · exact .inr (.inr (.inr (.inl ⟨rfl, bits_field 5 9 h⟩)))
  | cmp | str =>
    simp only [encode, m5, BitVec.getLsbD_or, Bool.or_eq_true] at h
    obtain (h | h) | h := h
    · exact .inl (bits_opcode h)
    · exact .inr (.inr (.inl ⟨rfl, bits_field 5 14 h⟩))
    · exact .inr (.inr (.inr (.inl ⟨rfl, bits_field 5 9 h⟩)))
  | addi =>
    simp only [encode, m5, m14, BitVec.getLsbD_or, Bool.or_eq_true] at h
    obtain ((h | h) | h) | h := h
    · exact .inl (bits_opcode h)
    · exact .inr (.inl ⟨rfl, bits_field 5 19 h⟩)
    · exact .inr (.inr (.inl ⟨rfl, bits_field 5 14 h⟩))
    · exact .inr (.inr (.inr (.inr (.inl ⟨rfl, bits_mask 14 h⟩))))
  | ldr =>
    simp only [encode, m5, BitVec.getLsbD_or, Bool.or_eq_true] at h
    obtain (h | h) | h := h
    · exact .inl (bits_opcode h)
    · exact .inr (.inl ⟨rfl, bits_field 5 19 h⟩)
    · exact .inr (.inr (.inl ⟨rfl, bits_field 5 14 h⟩))
  | s2r =>
    simp only [encode, m5, m14, BitVec.getLsbD_or, Bool.or_eq_true] at h
    obtain (h | h) | h := h
    · exact .inl (bits_opcode h)
    · exact .inr (.inl ⟨rfl, bits_field 5 19 h⟩)
    · exact .inr (.inr (.inr (.inr (.inl ⟨rfl, bits_mask 14 h⟩))))
  | br =>
    simp only [encode, m3, m19, BitVec.getLsbD_or, Bool.or_eq_true] at h
    obtain (h | h) | h := h
    · exact .inl (bits_opcode h)
    · exact .inr (.inr (.inr (.inr (.inr (.inr ⟨rfl, bits_field 3 19 h⟩)))))
    · exact .inr (.inr (.inr (.inr (.inr (.inl ⟨rfl, bits_mask 19 h⟩)))))
  | ssy =>
    simp only [encode, m19, BitVec.getLsbD_or, Bool.or_eq_true] at h
    obtain h | h := h
    · exact .inl (bits_opcode h)
    · exact .inr (.inr (.inr (.inr (.inr (.inl ⟨rfl, bits_mask 19 h⟩)))))
  | sync | exit => exact .inl (bits_opcode h)

/-- The fields of an encoded instruction. -/
lemma readBack_encode {mi : MachineInstruction} (fits : mi.Fits) : mi.ReadBack (encode mi) where
  op := by rw [opField_encode, Opcode.ofVal?_val]
  rd h := by rw [rdField_encode h, and_reg_mask fits.rd]
  rs1 h := by rw [rs1Field_encode h, and_reg_mask fits.rs1]
  rs2 h := by rw [rs2Field_encode h, and_reg_mask fits.rs2]
  imm14 h := imm14Field_encode h (fits.imm14 h)
  imm19 h := imm19Field_encode h (fits.imm19 h)
  cond h := by rw [condField_encode h, and_cond_mask fits.cond]

/-- A word holds nothing but what the opcode uses. -/
lemma encode_congr {mi mi' : MachineInstruction} (agree : mi.AgreesWith mi') :
    encode mi = encode mi' := by
  obtain ⟨op, rd, rs1, rs2, imm, cond, l, c⟩ := mi
  obtain ⟨op', rd', rs1', rs2', imm', cond', l', c'⟩ := mi'
  obtain ⟨rfl, hd, h1, h2, h14, h19, hc⟩ := agree
  cases op with
  | add | sub | mul =>
    obtain rfl := hd rfl
    obtain rfl := h1 rfl
    obtain rfl := h2 rfl
    rfl
  | cmp | str =>
    obtain rfl := h1 rfl
    obtain rfl := h2 rfl
    rfl
  | addi =>
    obtain rfl := hd rfl
    obtain rfl := h1 rfl
    obtain rfl := h14 rfl
    rfl
  | ldr =>
    obtain rfl := hd rfl
    obtain rfl := h1 rfl
    rfl
  | s2r =>
    obtain rfl := hd rfl
    obtain rfl := h14 rfl
    rfl
  | br =>
    obtain rfl := hc rfl
    obtain rfl := h19 rfl
    rfl
  | ssy =>
    obtain rfl := h19 rfl
    rfl
  | sync | exit => rfl

/-- What two instructions have in common can be read from a word that is read back as both. -/
lemma Instruction.ReadBack.agree {mi mi' : MachineInstruction} {word : Word}
    (read : mi.ReadBack word) (read' : mi'.ReadBack word) : mi.AgreesWith mi' := by
  have op : mi.op = mi'.op := Option.some.inj (read.op.symm.trans read'.op)
  exact
    { op := op
      rd := fun h => (read.rd h).symm.trans (read'.rd (op ▸ h))
      rs1 := fun h => (read.rs1 h).symm.trans (read'.rs1 (op ▸ h))
      rs2 := fun h => (read.rs2 h).symm.trans (read'.rs2 (op ▸ h))
      imm14 := fun h => (read.imm14 h).symm.trans (read'.imm14 (op ▸ h))
      imm19 := fun h => (read.imm19 h).symm.trans (read'.imm19 (op ▸ h))
      cond := fun h => (read.cond h).symm.trans (read'.cond (op ▸ h)) }

/-- Encoding loses nothing that an instruction uses: its fields are read back, the other bits are
zero, and two instructions have the same word just when they agree on what they use. -/
theorem encode_lossless {mi : MachineInstruction} (fits : mi.Fits) :
    mi.ReadBack (encode mi) ∧ (∀ i, ¬ mi.op.UsesBit i → (encode mi).getLsbD i = false) ∧
      ∀ mi', mi'.Fits → (encode mi = encode mi' ↔ mi.AgreesWith mi') := by
  have read := readBack_encode fits
  refine ⟨read, fun i unused => ?_, fun mi' fits' => ⟨fun same => ?_, encode_congr⟩⟩
  · by_contra set
    exact unused (usesBit_of_encode (Bool.not_eq_false _ ▸ set))
  · exact read.agree (same ▸ readBack_encode fits')

/-- A branch backwards as far as it goes. -/
def farBranch : MachineInstruction :=
  { MachineInstruction.ofOp .br with cond := BranchCond.NE, imm := -262144 }

/-- The condition and the offset of a branch are there, and its registers are not. -/
theorem encode_lossless_branch : condField (encode farBranch) = BranchCond.NE ∧
    imm19Field (encode farBranch) = -262144 ∧ (encode farBranch).getLsbD 22 = false ∧
    encode farBranch = encode { farBranch with rd := 31 } := by
  have fits : farBranch.Fits :=
    ⟨by decide, by decide, by decide, by decide, fun h => absurd h (by decide), fun _ => by decide⟩
  have fits' : Instruction.Fits { farBranch with rd := 31 } :=
    ⟨by decide, by decide, by decide, by decide, fun h => absurd h (by decide), fun _ => by decide⟩
  obtain ⟨read, zero, same⟩ := encode_lossless fits
  refine ⟨read.cond rfl, read.imm19 rfl, zero 22 ?_, (same _ fits').mpr ?_⟩
  · unfold Opcode.UsesBit
    decide
  · exact ⟨rfl, fun h => absurd h (by decide), fun _ => rfl, fun _ => rfl, fun _ => rfl,
      fun _ => rfl, fun _ => rfl⟩

end FpgaGpu

import FpgaGpu.Isa.Instruction
import Mathlib.Tactic.IntervalCases
import Mathlib.Tactic.Ring

/-!
# Instruction words read back

The fields of a machine word as `Assembler::disassemble` extracts them and as the hardware reads
them (`include/FpgaGpu.h`, `enum class Format`), with the theorem that decoding an encoded
instruction gives back every field its opcode uses.
-/

namespace FpgaGpu

/-- `(word >> 24) & 0xFF`. -/
def opField (word : Word) : BitVec 8 := ((word >>> 24) &&& 0xFF).setWidth 8

/-- `(word >> 19) & 0x1F`. -/
def rdField (word : Word) : RegField := ((word >>> 19) &&& 0x1F).setWidth 8

/-- `(word >> 14) & 0x1F`. -/
def rs1Field (word : Word) : RegField := ((word >>> 14) &&& 0x1F).setWidth 8

/-- `(word >> 9) & 0x1F`. -/
def rs2Field (word : Word) : RegField := ((word >>> 9) &&& 0x1F).setWidth 8

/-- `(word >> 19) & 0x7`. -/
def condField (word : Word) : BitVec 8 := ((word >>> 19) &&& 0x7).setWidth 8

/-- The low 14 bits, sign-extended. -/
def imm14Field (word : Word) : BitVec 32 :=
  let imm14 := word &&& 0x3FFF
  if imm14 &&& 0x2000 ≠ 0 then imm14 ||| ~~~0x3FFF else imm14

/-- The low 19 bits, sign-extended. -/
def imm19Field (word : Word) : BitVec 32 :=
  let imm19 := word &&& 0x7FFFF
  if imm19 &&& 0x40000 ≠ 0 then imm19 ||| ~~~0x7FFFF else imm19

namespace Opcode

/-- The opcode writes a destination register. -/
def usesRd : Opcode → Bool
  | .add | .sub | .mul | .addi | .ldr | .s2r => true
  | _ => false

/-- The opcode reads `rs1`. -/
def usesRs1 : Opcode → Bool
  | .add | .sub | .mul | .cmp | .addi | .ldr | .str => true
  | _ => false

/-- The opcode reads `rs2`. -/
def usesRs2 : Opcode → Bool
  | .add | .sub | .mul | .cmp | .str => true
  | _ => false

/-- The opcode carries a 14-bit immediate. -/
def usesImm14 : Opcode → Bool
  | .addi | .s2r => true
  | _ => false

/-- The opcode carries a 19-bit PC-relative offset. -/
def usesImm19 : Opcode → Bool
  | .br | .ssy => true
  | _ => false

/-- The opcode carries a branch condition. -/
def usesCond : Opcode → Bool
  | .br => true
  | _ => false

end Opcode

/-- The instruction the hardware reads from a word; `none` for an unassigned opcode. -/
def decode (word : Word) : Option MachineInstruction :=
  (Opcode.ofVal? (opField word)).map fun op =>
    { op := op
      rd := if op.usesRd then rdField word else 0
      rs1 := if op.usesRs1 then rs1Field word else 0
      rs2 := if op.usesRs2 then rs2Field word else 0
      imm :=
        if op.usesImm14 then imm14Field word
        else if op.usesImm19 then imm19Field word else 0
      cond := if op.usesCond then condField word else BranchCond.ALWAYS
      labelTarget := []
      comment := [] }

/-- An instruction cut down to what its opcode uses. -/
def Instruction.used (mi : MachineInstruction) : MachineInstruction where
  op := mi.op
  rd := if mi.op.usesRd then mi.rd else 0
  rs1 := if mi.op.usesRs1 then mi.rs1 else 0
  rs2 := if mi.op.usesRs2 then mi.rs2 else 0
  imm := if mi.op.usesImm14 || mi.op.usesImm19 then mi.imm else 0
  cond := if mi.op.usesCond then mi.cond else BranchCond.ALWAYS
  labelTarget := []
  comment := []

/-- Every field of the instruction fits the bits its format gives it. -/
structure Instruction.Fits (mi : MachineInstruction) : Prop where
  rd : mi.rd.toNat < 32
  rs1 : mi.rs1.toNat < 32
  rs2 : mi.rs2.toNat < 32
  cond : mi.cond.toNat < 8
  imm14 : mi.op.usesImm14 → -8192 ≤ mi.imm.toInt ∧ mi.imm.toInt < 8192
  imm19 : mi.op.usesImm19 → -262144 ≤ mi.imm.toInt ∧ mi.imm.toInt < 262144

/-- The low five bits of a register field below 32 are the field. -/
lemma and_reg_mask {r : RegField} (h : r.toNat < 32) : r &&& 0x1F = r := by
  apply BitVec.eq_of_toNat_eq
  have e : r.toNat &&& 31 = r.toNat % 32 := Nat.and_two_pow_sub_one_eq_mod _ 5
  simp [BitVec.toNat_and, e, Nat.mod_eq_of_lt h]

/-- The low three bits of a condition below 8 are the condition. -/
lemma and_cond_mask {c : BitVec 8} (h : c.toNat < 8) : c &&& 0x7 = c := by
  apply BitVec.eq_of_toNat_eq
  have e : c.toNat &&& 7 = c.toNat % 8 := Nat.and_two_pow_sub_one_eq_mod _ 3
  simp [BitVec.toNat_and, e, Nat.mod_eq_of_lt h]

/-- The opcode byte of an encoded instruction. -/
@[simp] lemma opField_encode (mi : MachineInstruction) : opField (encode mi) = mi.op.val := by
  obtain ⟨op, rd, rs1, rs2, imm, cond, l, c⟩ := mi
  cases op <;> ext i hi <;> simp [opField, encode, Opcode.val] <;> interval_cases i <;> simp

/-- The destination of an encoded instruction. -/
lemma rdField_encode {mi : MachineInstruction} (h : mi.op.usesRd) :
    rdField (encode mi) = mi.rd &&& 0x1F := by
  obtain ⟨op, rd, rs1, rs2, imm, cond, l, c⟩ := mi
  cases op <;> simp [Opcode.usesRd] at h <;> ext i hi <;>
    simp [rdField, encode, Opcode.val] <;> interval_cases i <;> simp

/-- The first source of an encoded instruction. -/
lemma rs1Field_encode {mi : MachineInstruction} (h : mi.op.usesRs1) :
    rs1Field (encode mi) = mi.rs1 &&& 0x1F := by
  obtain ⟨op, rd, rs1, rs2, imm, cond, l, c⟩ := mi
  cases op <;> simp [Opcode.usesRs1] at h <;> ext i hi <;>
    simp [rs1Field, encode, Opcode.val] <;> interval_cases i <;> simp

/-- The second source of an encoded instruction. -/
lemma rs2Field_encode {mi : MachineInstruction} (h : mi.op.usesRs2) :
    rs2Field (encode mi) = mi.rs2 &&& 0x1F := by
  obtain ⟨op, rd, rs1, rs2, imm, cond, l, c⟩ := mi
  cases op <;> simp [Opcode.usesRs2] at h <;> ext i hi <;>
    simp [rs2Field, encode, Opcode.val] <;> interval_cases i <;> simp

/-- The condition of an encoded branch. -/
lemma condField_encode {mi : MachineInstruction} (h : mi.op.usesCond) :
    condField (encode mi) = mi.cond &&& 0x7 := by
  obtain ⟨op, rd, rs1, rs2, imm, cond, l, c⟩ := mi
  cases op <;> simp [Opcode.usesCond] at h
  ext i hi
  simp [condField, encode, Opcode.val]
  interval_cases i <;> simp

/-- The word with its `n` low bits set. -/
def lowMask (n : Nat) : Word := (BitVec.allOnes n).setWidth 32

/-- Masking keeps the bits below `n`. -/
@[simp] lemma getLsbD_and_lowMask (n i : Nat) (w : Word) :
    (w &&& lowMask n).getLsbD i = (w.getLsbD i && decide (i < n)) := by
  by_cases h : i < 32
  · simp [lowMask, h]
  · simp [BitVec.getLsbD_of_ge w i (by omega)]

/-- Testing the top bit of a masked field and or-ing the complement of the mask sign-extends it. -/
lemma signField_eq {n : Nat} (hn : n < 32) (w : Word) :
    (if (w &&& lowMask (n + 1)) &&& BitVec.twoPow 32 n ≠ 0 then
      (w &&& lowMask (n + 1)) ||| ~~~lowMask (n + 1) else w &&& lowMask (n + 1)) =
    (w.setWidth (n + 1)).signExtend 32 := by
  have bit : (w &&& lowMask (n + 1)) &&& BitVec.twoPow 32 n ≠ 0 ↔ w.getLsbD n = true := by
    have nz : BitVec.twoPow 32 n ≠ 0#32 := by
      intro e
      have := congrArg (BitVec.getLsbD · n) e
      simp [hn] at this
    rw [BitVec.and_twoPow, getLsbD_and_lowMask]
    cases h : w.getLsbD n <;> simp [nz]
  apply BitVec.eq_of_getLsbD_eq
  intro i hi
  simp only [bit, BitVec.getLsbD_signExtend, BitVec.msb_setWidth, BitVec.getLsbD_setWidth]
  by_cases h : w.getLsbD n <;> by_cases hin : i < n + 1 <;> simp [h, hi, hin, lowMask]

/-- The 14-bit immediate is the sign extension of the low 14 bits. -/
lemma imm14Field_eq (w : Word) : imm14Field w = (w.setWidth 14).signExtend 32 := by
  rw [← signField_eq (by decide)]
  rfl

/-- The 19-bit immediate is the sign extension of the low 19 bits. -/
lemma imm19Field_eq (w : Word) : imm19Field w = (w.setWidth 19).signExtend 32 := by
  rw [← signField_eq (by decide)]
  rfl

/-- A word in the signed range of `n + 1` bits is the sign extension of its low bits. -/
lemma signExtend_setWidth {n : Nat} {x : Word} (hn : n < 32)
    (h : -(2 ^ n : Int) ≤ x.toInt ∧ x.toInt < 2 ^ n) :
    (x.setWidth (n + 1)).signExtend 32 = x := by
  apply BitVec.eq_of_toInt_eq
  rw [BitVec.toInt_signExtend_of_le (by omega), BitVec.toInt_setWidth]
  have pow : (2 : Int) ^ 32 = 2 ^ (n + 1) * 2 ^ (31 - n) := by
    rw [← pow_add]; congr 1; omega
  have nat : ∃ k : Int, (x.toNat : Int) = x.toInt + 2 ^ (n + 1) * k := by
    rw [BitVec.toInt_eq_toNat_cond]
    split
    · exact ⟨0, by ring⟩
    · refine ⟨2 ^ (31 - n), ?_⟩
      rw [← pow]; push_cast; ring
  obtain ⟨k, e⟩ := nat
  have cast : (2 : Int) ^ (n + 1) = ((2 ^ (n + 1) : Nat) : Int) := by push_cast; rfl
  rw [e, cast, Int.add_mul_bmod_self_left]
  apply Int.bmod_eq_of_le <;> rw [Nat.pow_succ] <;> push_cast <;> omega

/-- The low 14 bits of an encoded instruction are those of its immediate. -/
lemma encode_setWidth14 {mi : MachineInstruction} (h : mi.op.usesImm14) :
    (encode mi).setWidth 14 = mi.imm.setWidth 14 := by
  have mask : (0x3FFF : Word) = lowMask 14 := rfl
  obtain ⟨op, rd, rs1, rs2, imm, cond, l, c⟩ := mi
  apply BitVec.eq_of_getLsbD_eq
  intro i hi
  have h19 : i < 19 := by omega
  have h24 : i < 24 := by omega
  have h32 : i < 32 := by omega
  cases op <;> simp only [Opcode.usesImm14, Bool.false_eq_true] at h <;>
    simp only [encode, mask, BitVec.getLsbD_setWidth, BitVec.getLsbD_or, BitVec.getLsbD_shiftLeft,
      getLsbD_and_lowMask] <;>
    simp [hi, h19, h24, h32]

/-- The low 19 bits of an encoded instruction are those of its immediate. -/
lemma encode_setWidth19 {mi : MachineInstruction} (h : mi.op.usesImm19) :
    (encode mi).setWidth 19 = mi.imm.setWidth 19 := by
  have mask : (0x7FFFF : Word) = lowMask 19 := rfl
  obtain ⟨op, rd, rs1, rs2, imm, cond, l, c⟩ := mi
  apply BitVec.eq_of_getLsbD_eq
  intro i hi
  have h24 : i < 24 := by omega
  have h32 : i < 32 := by omega
  cases op <;> simp only [Opcode.usesImm19, Bool.false_eq_true] at h <;>
    simp only [encode, mask, BitVec.getLsbD_setWidth, BitVec.getLsbD_or, BitVec.getLsbD_shiftLeft,
      getLsbD_and_lowMask] <;>
    simp [hi, h24, h32]

/-- The offset of a word, from the program counters. -/
lemma toInt_imm19Field_pcOffset {mi : MachineInstruction} (use : mi.op.usesImm19) {p pc : Nat}
    (offset : mi.imm = pcOffset p pc) :
    (imm19Field (encode mi)).toInt = ((p : Int) - pc).bmod (2 ^ 19) := by
  have cut : (pcOffset p pc).setWidth 19 = BitVec.ofNat 19 p - BitVec.ofNat 19 pc := by
    rw [pcOffset, BitVec.sub_eq_add_neg, BitVec.setWidth_add _ _ (by decide),
      BitVec.setWidth_neg_of_le (by decide), ← BitVec.sub_eq_add_neg,
      BitVec.setWidth_ofNat_of_le (by decide), BitVec.setWidth_ofNat_of_le (by decide)]
  rw [imm19Field_eq, encode_setWidth19 use, BitVec.toInt_signExtend_of_le (by decide), offset, cut,
    BitVec.toInt_sub, BitVec.toInt_ofNat', BitVec.toInt_ofNat',
      Int.bmod_sub_bmod, Int.sub_bmod_bmod]

/-- The offset of a word is the distance of program counters that are near enough. -/
lemma toInt_imm19Field_near {mi : MachineInstruction} (use : mi.op.usesImm19) {p pc : Nat}
    (offset : mi.imm = pcOffset p pc) (back : pc ≤ p + 262144) (ahead : p < pc + 262144) :
    (imm19Field (encode mi)).toInt = (p : Int) - pc := by
  rw [toInt_imm19Field_pcOffset use offset]
  exact Int.bmod_eq_of_le (by omega) (by omega)

/-- The 14-bit immediate of an encoded instruction, when it is in range. -/
lemma imm14Field_encode {mi : MachineInstruction} (h : mi.op.usesImm14)
    (r : -8192 ≤ mi.imm.toInt ∧ mi.imm.toInt < 8192) : imm14Field (encode mi) = mi.imm := by
  rw [imm14Field_eq, encode_setWidth14 h]
  exact signExtend_setWidth (n := 13) (by decide) (by simpa using r)

/-- The 19-bit immediate of an encoded instruction, when it is in range. -/
lemma imm19Field_encode {mi : MachineInstruction} (h : mi.op.usesImm19)
    (r : -262144 ≤ mi.imm.toInt ∧ mi.imm.toInt < 262144) : imm19Field (encode mi) = mi.imm := by
  rw [imm19Field_eq, encode_setWidth19 h]
  exact signExtend_setWidth (n := 18) (by decide) (by simpa using r)

/-- Decoding inverts encoding on every field the opcode uses. -/
theorem decode_encode {mi : MachineInstruction} (fits : mi.Fits) :
    decode (encode mi) = some mi.used := by
  obtain ⟨frd, frs1, frs2, fcond, f14, f19⟩ := fits
  simp only [decode, opField_encode, Opcode.ofVal?_val, Option.map_some, Instruction.used,
    Option.some.injEq, Instruction.mk.injEq, true_and, and_true]
  refine ⟨?_, ?_, ?_, ?_, ?_⟩
  · split
    · next h => rw [rdField_encode h, and_reg_mask frd]
    · rfl
  · split
    · next h => rw [rs1Field_encode h, and_reg_mask frs1]
    · rfl
  · split
    · next h => rw [rs2Field_encode h, and_reg_mask frs2]
    · rfl
  · by_cases h14 : mi.op.usesImm14
    · simp [h14, imm14Field_encode h14 (f14 h14)]
    · by_cases h19 : mi.op.usesImm19
      · simp [h14, h19, imm19Field_encode h19 (f19 h19)]
      · simp [h14, h19]
  · split
    · next h => rw [condField_encode h, and_cond_mask fcond]
    · rfl

end FpgaGpu

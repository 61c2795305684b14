import FpgaGpu.Asm.Files
import FpgaGpu.Asm.Reading

/-!
# Disassembling and assembling again

Writing machine words as a hexadecimal file, disassembling that file and assembling the result gives
back the words, as long as no branch has the condition `NEVER`: the disassembler writes that
condition as a word with an `N` in it, which the parser reads as the condition `N`.
-/

namespace FpgaGpu

/-- Lines that spell instructions are parsed to them, in order. -/
lemma parseLines_spells {lines : List (Text × MachineInstruction)}
    (h : ∀ p ∈ lines, Spells p.1 p.2) (st : Parse) :
    parseLines (lines.map Prod.fst) st =
      .ok { st with instructions := st.instructions ++ lines.map Prod.snd } := by
  induction lines generalizing st with
  | nil => simp [parseLines]
  | cons p lines ih =>
    obtain ⟨hp, h⟩ := List.forall_mem_cons.mp h
    have line := parseLine_body (show ∀ c ∈ ([] : Text), _ by simp) hp.plain
      hp.trimmed hp.ne .none st
    simp only [List.nil_append, List.append_nil] at line
    simp [parseLines, line, hp.tokens, ih h, Parse.push]

/-- Without targets, pass 2 only encodes. -/
lemma resolveLabels_of_not_hasTarget {labels : Text → Option Nat} {mis : List MachineInstruction}
    (h : ∀ mi ∈ mis, mi.hasTarget = false) (pc : Nat) :
    resolveLabels labels pc mis = .ok (mis.map encode) := by
  induction mis generalizing pc with
  | nil => rfl
  | cons mi mis ih =>
    obtain ⟨hm, h⟩ := List.forall_mem_cons.mp h
    simp [resolveLabels, hm, ih h]

/-- The condition that the parser reads from the letters the disassembler writes. -/
def rereadCond (cond : BitVec 8) : BitVec 8 := if cond = 0 then BranchCond.N else cond

/-- The letters of a condition, read back. -/
lemma parseCondition_condText {cond : BitVec 8} (h : cond.toNat < 8) :
    Printed (condText cond) ∧ parseCondition (condText cond) = rereadCond cond := by
  obtain ⟨k, hk, rfl⟩ : ∃ k < 8, cond = BitVec.ofNat 8 k := ⟨_, h, by simp⟩
  interval_cases k <;> exact ⟨.of_all (by decide) (by decide), by decide⟩

/-- The number of a system register that is printed by name. -/
lemma sysRegName?_imm14 {imm : BitVec 32} {name : Text}
    (h : sysRegName? (imm.setWidth 16) = some name) :
    (imm.setWidth 16).setWidth 32 = imm &&& 0x3FFF := by
  have small : (imm.setWidth 16).toNat < 4 := by
    unfold sysRegName? at h
    split at h
    · next e => simp [e]
    · split at h
      · next e => simp [e]
      · split at h
        · next e => simp [e]
        · split at h
          · next e => simp [e]
          · cases h
  have mask : imm.toNat &&& 16383 = imm.toNat % 16384 := Nat.and_two_pow_sub_one_eq_mod _ 14
  apply BitVec.eq_of_toNat_eq
  simp only [BitVec.toNat_setWidth, BitVec.toNat_and] at small ⊢
  rw [show (0x3FFF : Word).toNat = 16383 by rfl, mask]
  omega

/-- The instruction that the assembler reads from the disassembly of `mi`. -/
def reread (mi : MachineInstruction) : MachineInstruction where
  op := mi.op
  rd := if mi.op.usesRd then mi.rd else 0
  rs1 := if mi.op.usesRs1 then mi.rs1 else 0
  rs2 := if mi.op.usesRs2 then mi.rs2 else 0
  imm := if mi.op.usesImm14 then mi.imm &&& 0x3FFF else if mi.op.usesImm19 then mi.imm else 0
  cond := if mi.op.usesCond then rereadCond mi.cond else BranchCond.ALWAYS
  labelTarget := []
  comment := []

/-- The disassembly of an encoded instruction is read as that instruction, up to `NEVER`. -/
lemma spells_disassemble {mi : MachineInstruction} (fits : mi.Fits) :
    Spells (disassemble (encode mi)) (reread mi) := by
  have hrd : mi.op.usesRd → rdField (encode mi) = mi.rd := fun h => by
    rw [rdField_encode h, and_reg_mask fits.rd]
  have hrs1 : mi.op.usesRs1 → rs1Field (encode mi) = mi.rs1 := fun h => by
    rw [rs1Field_encode h, and_reg_mask fits.rs1]
  have hrs2 : mi.op.usesRs2 → rs2Field (encode mi) = mi.rs2 := fun h => by
    rw [rs2Field_encode h, and_reg_mask fits.rs2]
  have hcond : mi.op.usesCond → condField (encode mi) = mi.cond := fun h => by
    rw [condField_encode h, and_cond_mask fits.cond]
  have h14 : mi.op.usesImm14 → imm14Field (encode mi) = mi.imm := fun h =>
    imm14Field_encode h (fits.imm14 h)
  have h19 : mi.op.usesImm19 → imm19Field (encode mi) = mi.imm := fun h =>
    imm19Field_encode h (fits.imm19 h)
  -- the fields that the opcode has no use for are not printed
  unfold disassemble reread
  rw [opField_encode, Opcode.ofVal?_val]
  obtain ⟨frd, frs1, frs2, fcond, -, -⟩ := fits
  cases e : mi.op with
  | add | sub | mul =>
    rw [e] at hrd hrs1 hrs2
    simp only [hrd rfl, hrs1 rfl, hrs2 rfl]
    exact spells_rType frd frs1 frs2 (by simp)
  | cmp =>
    rw [e] at hrs1 hrs2
    simp only [hrs1 rfl, hrs2 rfl]
    exact spells_cmp frs1 frs2
  | addi =>
    rw [e] at hrd hrs1 h14
    simp only [hrd rfl, hrs1 rfl, h14 rfl]
    exact spells_addi frd frs1 mi.imm
  | ldr =>
    rw [e] at hrd hrs1
    simp only [hrd rfl, hrs1 rfl]
    exact spells_ldr frd frs1
  | str =>
    rw [e] at hrs1 hrs2
    simp only [hrs1 rfl, hrs2 rfl]
    exact spells_str frs1 frs2
  | s2r =>
    rw [e] at hrd h14
    simp only [hrd rfl, h14 rfl]
    cases n : sysRegName? (mi.imm.setWidth 16) with
    | none => exact spells_s2r frd (printed_decimal _) (parseSysReg_decimal _)
    | some name =>
      obtain ⟨printed, read⟩ := sysRegName?_eq_some n
      rw [sysRegName?_imm14 n] at read
      exact spells_s2r frd printed read
  | br =>
    rw [e] at hcond h19
    obtain ⟨printed, read⟩ := parseCondition_condText fcond
    simp only [hcond rfl, h19 rfl]
    have := spells_br_offset printed mi.imm
    rw [read] at this
    exact this
  | sync => exact spells_bare (by simp)
  | ssy =>
    rw [e] at h19
    simp only [h19 rfl]
    exact spells_ssy_offset mi.imm
  | exit => exact spells_bare (by simp)

/-- Assembling the disassembly of a written file gives the words of the reread instructions. -/
lemma assemble_disassembleMode {mis : List MachineInstruction} (fits : ∀ mi ∈ mis, mi.Fits) :
    assemble (disassembleMode (writeHex (mis.map encode))) =
      .ok (mis.map fun mi => encode (reread mi)) := by
  have spells : ∀ p ∈ mis.map (fun mi => (disassemble (encode mi), reread mi)),
      Spells p.1 p.2 := by
    intro p hp
    obtain ⟨mi, hmi, rfl⟩ := List.mem_map.mp hp
    exact spells_disassemble (fits mi hmi)
  have lines : getlines (disassembleMode (writeHex (mis.map encode))) =
      (mis.map (fun mi => (disassemble (encode mi), reread mi))).map Prod.fst := by
    rw [disassembleMode_writeHex, getlines_flatMap]
    · simp
    · intro l hl
      simp only [List.map_map, List.mem_map] at hl
      obtain ⟨mi, hmi, rfl⟩ := hl
      exact (spells_disassemble (fits mi hmi)).line
  have targets : ∀ mi ∈ mis.map reread, mi.hasTarget = false := by
    intro mi hmi
    obtain ⟨mi, -, rfl⟩ := List.mem_map.mp hmi
    simp [Instruction.hasTarget, reread]
  rw [assemble, lines, parseLines_spells spells]
  simp only [Outcome.ok_bind, Parse.empty, List.nil_append, List.map_map]
  rw [show Prod.snd ∘ (fun mi => (disassemble (encode mi), reread mi)) = reread from rfl,
    resolveLabels_of_not_hasTarget targets]
  simp

/-- Rereading an instruction keeps its word unless it is a branch with condition `NEVER`. -/
lemma encode_reread {mi : MachineInstruction} (fits : mi.Fits) :
    encode (reread mi) = encode mi ↔ (mi.op = .br → mi.cond ≠ BranchCond.NEVER) := by
  constructor
  · intro h hop never
    have used : (reread mi).op.usesCond := by simp [reread, hop, Opcode.usesCond]
    have used' : mi.op.usesCond := by simp [hop, Opcode.usesCond]
    have := congrArg condField h
    rw [condField_encode used, condField_encode used'] at this
    simp only [reread, used', if_true, never] at this
    exact absurd this (by decide)
  · intro h
    have cond : mi.op.usesCond → rereadCond mi.cond = mi.cond := by
      intro u
      have hop : mi.op = .br := by cases e : mi.op <;> simp [e, Opcode.usesCond] at u ⊢
      exact if_neg (h hop)
    obtain ⟨op, rd, rs1, rs2, imm, cond, l, c⟩ := mi
    cases op <;> simp_all [encode, reread, Opcode.usesRd, Opcode.usesRs1, Opcode.usesRs2,
      Opcode.usesImm14, Opcode.usesImm19, Opcode.usesCond, BitVec.and_assoc]

/-- Disassembling a written file and assembling the text gives the words back exactly when no branch
has the condition `NEVER`. -/
theorem assemble_disassemble_eq_iff {mis : List MachineInstruction} (fits : ∀ mi ∈ mis, mi.Fits) :
    assemble (disassembleMode (writeHex (mis.map encode))) = .ok (mis.map encode) ↔
      ∀ mi ∈ mis, mi.op = .br → mi.cond ≠ BranchCond.NEVER := by
  rw [assemble_disassembleMode fits, Outcome.ok.injEq, List.map_inj_left]
  exact forall₂_congr fun mi hmi => encode_reread (fits mi hmi)

/-- A branch on `P` that comes back. -/
theorem assemble_disassemble_branch :
    assemble (disassembleMode (writeHex
      ([{ MachineInstruction.ofOp .br with cond := BranchCond.P, imm := 5 }].map encode))) =
    .ok ([{ MachineInstruction.ofOp .br with cond := BranchCond.P, imm := 5 }].map encode) :=
  (assemble_disassemble_eq_iff (by
    intro mi hmi
    obtain rfl := List.mem_singleton.mp hmi
    exact ⟨by decide, by decide, by decide, by decide, by decide, by decide⟩)).mpr (by decide)

/-- A branch with condition `NEVER` comes back with the condition `N`. -/
theorem assemble_disassemble_never :
    ¬ ∀ mis : List MachineInstruction, (∀ mi ∈ mis, mi.Fits) →
      assemble (disassembleMode (writeHex (mis.map encode))) = .ok (mis.map encode) := by
  intro h
  have fits : ∀ mi ∈ [{ MachineInstruction.ofOp .br with cond := BranchCond.NEVER }], mi.Fits := by
    intro mi hmi
    obtain rfl := List.mem_singleton.mp hmi
    exact ⟨by decide, by decide, by decide, by decide, by decide, by decide⟩
  exact absurd (h _ fits) (by decide)

end FpgaGpu

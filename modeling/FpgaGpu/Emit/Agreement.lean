import FpgaGpu.Asm.RoundTrip
import FpgaGpu.Emit.Emitter

/-!
# The two output paths agree

Assembling the text that `emitAssembly` writes gives the words that `emitHex` and `emitBinary`
write. The parser reads each printed instruction back up to the fields its opcode does not use, and
pass 1 of the assembler records for each label what the first pass of `resolveBranchOffsets`
records.
-/

namespace FpgaGpu

open Numeral

/-- A block name: `[A-Za-z_.][A-Za-z0-9_.]*`. -/
def isBlockName : Text → Bool
  | [] => false
  | c :: s => (c.isAlpha || c == '_' || c == '.') &&
      s.all fun d => d.isAlphanum || d == '_' || d == '.'

/-- What the emitter may be given for its assembly to be read back. -/
structure Assemblable (blocks : List BasicBlockCode) : Prop where
  name : ∀ bb ∈ blocks, isBlockName bb.name
  rd : ∀ mi ∈ layout blocks, mi.rd.toNat < 32
  rs1 : ∀ mi ∈ layout blocks, mi.rs1.toNat < 32
  rs2 : ∀ mi ∈ layout blocks, mi.rs2.toNat < 32
  cond : ∀ mi ∈ layout blocks, mi.op = .br → 0 < mi.cond.toNat ∧ mi.cond.toNat < 8
  sysReg : ∀ mi ∈ layout blocks, mi.op = .s2r → mi.imm.toNat < 4
  comment : ∀ mi ∈ layout blocks, '\n' ∉ mi.comment
  target : ∀ mi ∈ layout blocks, mi.hasTarget → ∃ bb ∈ blocks, bb.name = mi.labelTarget

/-! ## Names -/

/-- A block name is printed as one operand. -/
lemma printed_blockName {name : Text} (h : isBlockName name) : Printed name := by
  have char : ∀ c : Char, (c.isAlphanum || c == '_' || c == '.') = true →
      isSeparator c = false ∧ c ≠ ';' ∧ c ≠ ':' ∧ c ≠ '\n' := by
    intro c hc
    have no : ∀ d : Char, (d.isAlphanum || d == '_' || d == '.') = false → c ≠ d := by
      rintro d hd rfl
      rw [hc] at hd
      cases hd
    refine ⟨?_, no _ (by decide), no _ (by decide), no _ (by decide)⟩
    simp [isSeparator, isspace, no ',' (by decide), no ' ' (by decide), no '\t' (by decide),
      no '\n' (by decide), no '\x0b' (by decide), no '\x0c' (by decide), no '\r' (by decide)]
  cases name with
  | nil => cases h
  | cons c s =>
    simp only [isBlockName, Bool.and_eq_true, List.all_eq_true] at h
    apply Printed.of_forall (by simp)
    intro d hd
    obtain rfl | hd := List.mem_cons.mp hd
    · apply char
      simp only [Char.isAlphanum, Bool.or_eq_true] at h ⊢
      obtain (alpha | score) | dot := h.1
      · exact .inl (.inl (.inl alpha))
      · exact .inl (.inr score)
      · exact .inr dot
    · exact char d (h.2 d hd)

/-- A block name is no number. -/
lemma stoi_blockName {name : Text} (h : isBlockName name) :
    stoi 0 name = .error .invalidArgument := by
  cases name with
  | nil => cases h
  | cons c s =>
    simp only [isBlockName, Bool.and_eq_true] at h
    -- the first character is none that the number reader skips or takes
    have no : ∀ d : Char, (d.isAlpha || d == '_' || d == '.') = false → c ≠ d := by
      rintro d hd rfl
      rw [h.1] at hd
      cases hd
    have digit : isDigitOf 10 c = false := by
      by_contra hd
      rw [Bool.not_eq_false] at hd
      have := h.1
      simp only [isAlpha_of_isDigitOf hd, Bool.false_or, Bool.or_eq_true, beq_iff_eq] at this
      rcases this with rfl | rfl <;> exact absurd hd (by decide)
    have space : isspace c = false := by
      simp [isspace, no ' ' (by decide), no '\t' (by decide), no '\n' (by decide),
        no '\x0b' (by decide), no '\x0c' (by decide), no '\r' (by decide)]
    exact stoi_cons_invalid space (no '-' (by decide)) (no '+' (by decide)) digit s

/-! ## Instructions -/

/-- The instruction that the assembler reads from the printed text of `mi`. -/
def reassembled (mi : MachineInstruction) : MachineInstruction where
  op := mi.op
  rd := if mi.op.usesRd then mi.rd else 0
  rs1 := if mi.op.usesRs1 then mi.rs1 else 0
  rs2 := if mi.op.usesRs2 then mi.rs2 else 0
  imm :=
    if mi.op = .addi then mi.imm &&& 0x3FFF
    else if mi.op = .s2r then mi.imm
    else if mi.op.usesImm19 && mi.labelTarget = [] then mi.imm else 0
  cond := if mi.op.usesCond then mi.cond else BranchCond.ALWAYS
  labelTarget := if mi.op.usesImm19 then mi.labelTarget else []
  comment := []

/-- The letters of a condition, read back. -/
lemma parseCondition_condToString {cond : BitVec 8} (h : 0 < cond.toNat ∧ cond.toNat < 8) :
    Printed (condToString cond) ∧ parseCondition (condToString cond) = cond := by
  obtain ⟨k, ⟨pos, lt⟩, rfl⟩ : ∃ k, (0 < k ∧ k < 8) ∧ cond = BitVec.ofNat 8 k :=
    ⟨_, h, by simp⟩
  interval_cases k <;> exact ⟨.of_all (by decide) (by decide), by decide⟩

/-- The name of a system register, read back. -/
lemma parseSysReg_sysRegToString {imm : BitVec 32} (h : imm.toNat < 4) :
    Printed (sysRegToString (imm.setWidth 16)) ∧
      parseSysReg (sysRegToString (imm.setWidth 16)) = .ok imm := by
  obtain ⟨k, lt, rfl⟩ : ∃ k < 4, imm = BitVec.ofNat 32 k := ⟨_, h, by simp⟩
  interval_cases k <;> exact ⟨.of_all (by decide) (by decide), by decide⟩

/-- What one instruction needs for its text to be read back. -/
structure Readable (mi : MachineInstruction) : Prop where
  rd : mi.rd.toNat < 32
  rs1 : mi.rs1.toNat < 32
  rs2 : mi.rs2.toNat < 32
  cond : mi.op = .br → 0 < mi.cond.toNat ∧ mi.cond.toNat < 8
  sysReg : mi.op = .s2r → mi.imm.toNat < 4
  comment : '\n' ∉ mi.comment
  target : mi.op.usesImm19 → mi.labelTarget ≠ [] → isBlockName mi.labelTarget

/-- The instructions of assemblable blocks are readable. -/
lemma Assemblable.readable {blocks : List BasicBlockCode} (h : Assemblable blocks) :
    ∀ mi ∈ layout blocks, Readable mi := by
  intro mi hmi
  refine ⟨h.rd mi hmi, h.rs1 mi hmi, h.rs2 mi hmi, h.cond mi hmi, h.sysReg mi hmi, h.comment mi hmi,
    fun use ne => ?_⟩
  have target : mi.hasTarget := by
    cases e : mi.op <;> simp [e, Opcode.usesImm19] at use <;> simp [Instruction.hasTarget, e, ne]
  obtain ⟨bb, hbb, e⟩ := h.target mi hmi target
  exact e ▸ h.name bb hbb

/-- The text of a readable instruction is read as that instruction. -/
lemma spells_instructionText {mi : MachineInstruction} (h : Readable mi) :
    Spells (instructionText mi) (reassembled mi) := by
  obtain ⟨hrd, hrs1, hrs2, hcond, hsys, -, htarget⟩ := h
  unfold instructionText reassembled
  cases e : mi.op with
  | add => exact spells_rType hrd hrs1 hrs2 (by simp)
  | sub => exact spells_rType hrd hrs1 hrs2 (by simp)
  | mul => exact spells_rType hrd hrs1 hrs2 (by simp)
  | cmp => exact spells_cmp hrs1 hrs2
  | addi => exact spells_addi hrd hrs1 mi.imm
  | ldr => exact spells_ldr hrd hrs1
  | str => exact spells_str hrs1 hrs2
  | s2r =>
    obtain ⟨printed, read⟩ := parseSysReg_sysRegToString (hsys e)
    exact spells_s2r hrd printed read
  | br =>
    obtain ⟨printed, read⟩ := parseCondition_condToString (hcond e)
    rw [e] at htarget
    by_cases l : mi.labelTarget = []
    · have := spells_br_offset printed mi.imm
      simpa [targetText, l, read, Opcode.usesRd, Opcode.usesRs1, Opcode.usesRs2, Opcode.usesImm19,
        Opcode.usesCond, Instruction.ofOp] using this
    · have name := htarget rfl l
      have := spells_br_label printed (printed_blockName name) (stoi_blockName name)
      simpa [targetText, l, read, Opcode.usesRd, Opcode.usesRs1, Opcode.usesRs2, Opcode.usesImm19,
        Opcode.usesCond, Instruction.ofOp] using this
  | sync => exact spells_bare (by simp)
  | ssy =>
    rw [e] at htarget
    by_cases l : mi.labelTarget = []
    · have := spells_ssy_offset mi.imm
      simpa [targetText, l, Opcode.usesRd, Opcode.usesRs1, Opcode.usesRs2, Opcode.usesImm19,
        Opcode.usesCond, Instruction.ofOp] using this
    · have name := htarget rfl l
      have := spells_ssy_label (printed_blockName name) (stoi_blockName name)
      simpa [targetText, l, Opcode.usesRd, Opcode.usesRs1, Opcode.usesRs2, Opcode.usesImm19,
        Opcode.usesCond, Instruction.ofOp] using this
  | exit => exact spells_bare (by simp)

/-- A printed line is parsed as its instruction. -/
lemma parseLine_instructionLine {mi : MachineInstruction} (h : Readable mi) (st : Parse) :
    parseLine (instructionLine mi) st = .ok (st.push (reassembled mi)) := by
  have spells := spells_instructionText h
  have trailer : Trailer (if mi.comment = [] then [] else " ; ".toList ++ mi.comment) := by
    split
    · exact .none
    · exact .comment (b := [' ']) (' ' :: mi.comment) (by simp [isBlank])
  rw [instructionLine, parseLine_body (List.all_eq_true.mp (by decide)) spells.plain spells.trimmed
    spells.ne trailer, spells.tokens]

/-- A printed line contains no newline. -/
lemma line_instructionLine {mi : MachineInstruction} (h : Readable mi) :
    '\n' ∉ instructionLine mi := by
  have text := (spells_instructionText h).line
  have comment := h.comment
  rw [instructionLine]
  split <;> simp [text, comment]

/-! ## Pass 1 -/

/-- Parsing the lines of instructions appends them. -/
lemma parseLines_instructionLines {mis : List MachineInstruction} (h : ∀ mi ∈ mis, Readable mi)
    (rest : List Text) (st : Parse) :
    parseLines (mis.map instructionLine ++ rest) st =
      parseLines rest { st with instructions := st.instructions ++ mis.map reassembled } := by
  induction mis generalizing st with
  | nil => simp
  | cons mi mis ih =>
    obtain ⟨hm, h⟩ := List.forall_mem_cons.mp h
    simp [parseLines, parseLine_instructionLine hm, ih h, Parse.push]

/-- Parsing the lines of blocks records the same labels as the emitter does. -/
lemma parseLines_blockLines {blocks : List BasicBlockCode}
    (name : ∀ bb ∈ blocks, isBlockName bb.name) (h : ∀ mi ∈ layout blocks, Readable mi)
    (st : Parse) :
    parseLines (blocks.flatMap blockLines) st =
      .ok { instructions := st.instructions ++ (layout blocks).map reassembled
            labels := recordPCs st.instructions.length st.labels blocks } := by
  induction blocks generalizing st with
  | nil => simp [parseLines, recordPCs]
  | cons bb blocks ih =>
    obtain ⟨hn, name⟩ := List.forall_mem_cons.mp name
    rw [layout_cons, List.forall_mem_append] at h
    have printed := printed_blockName hn
    have head : ∀ c ∈ bb.name.head?, isBlank c = false := fun c hc =>
      printed.solid.blank c (List.mem_of_head? hc)
    have last : ∀ c ∈ bb.name.getLast?, isBlank c = false := fun c hc =>
      printed.solid.blank c (List.mem_of_getLast? hc)
    rw [List.flatMap_cons, blockLines, List.cons_append, parseLines,
      parseLine_label printed.plain (trim_eq_self head last) head, Outcome.ok_bind,
      parseLines_instructionLines h.1, ih name h.2]
    simp [Parse.define, recordPCs]

/-! ## Pass 2 -/

/-- Masking an immediate again changes nothing. -/
lemma and_mask_idem (x mask : BitVec 32) : x &&& mask &&& mask = x &&& mask := by
  rw [BitVec.and_assoc, BitVec.and_self]

/-- The fields that are lost on the way through the text are not encoded. -/
lemma encode_reassembled {mi : MachineInstruction} (h : mi.hasTarget = false) :
    encode (reassembled mi) = encode mi := by
  obtain ⟨op, rd, rs1, rs2, imm, cond, l, c⟩ := mi
  cases op <;> simp [Instruction.hasTarget] at h <;>
    simp [encode, reassembled, Opcode.usesRd, Opcode.usesRs1, Opcode.usesRs2, Opcode.usesImm19,
      Opcode.usesCond, h, and_mask_idem]

/-- Nor are they in a branch that got an offset. -/
lemma encode_reassembled_imm {mi : MachineInstruction} (h : mi.hasTarget = true) (off : BitVec 32) :
    encode { reassembled mi with imm := off } = encode { mi with imm := off } := by
  obtain ⟨op, rd, rs1, rs2, imm, cond, l, c⟩ := mi
  cases op <;> simp [Instruction.hasTarget] at h <;>
    simp [encode, reassembled, Opcode.usesCond]

/-- A label survives the way through the text where it is used. -/
lemma hasTarget_reassembled (mi : MachineInstruction) :
    (reassembled mi).hasTarget = mi.hasTarget := by
  obtain ⟨op, rd, rs1, rs2, imm, cond, l, c⟩ := mi
  cases op <;> simp [Instruction.hasTarget, reassembled, Opcode.usesImm19]

/-- The label itself. -/
lemma labelTarget_reassembled {mi : MachineInstruction} (h : mi.hasTarget = true) :
    (reassembled mi).labelTarget = mi.labelTarget := by
  obtain ⟨op, rd, rs1, rs2, imm, cond, l, c⟩ := mi
  cases op <;> simp [Instruction.hasTarget] at h <;> simp [reassembled, Opcode.usesImm19]

/-- Pass 2 encodes what `resolveAt` resolves. -/
lemma resolveLabels_reassembled {labels : Text → Option Nat} {mis : List MachineInstruction}
    (known : ∀ mi ∈ mis, mi.hasTarget → (labels mi.labelTarget).isSome) (pc : Nat) :
    resolveLabels labels pc (mis.map reassembled) =
      .ok (mis.mapIdx fun i mi => encode (resolveAt labels (pc + i) mi)) := by
  induction mis generalizing pc with
  | nil => rfl
  | cons mi mis ih =>
    obtain ⟨hm, known⟩ := List.forall_mem_cons.mp known
    have shift : (fun i mi => encode (resolveAt labels (pc + (i + 1)) mi)) =
        fun i mi => encode (resolveAt labels (pc + 1 + i) mi) := by
      funext i mi
      rw [Nat.add_comm i 1, Nat.add_assoc]
    rw [List.map_cons, resolveLabels, ih known, List.mapIdx_cons, shift]
    cases target : mi.hasTarget with
    | false =>
      simp [hasTarget_reassembled, target, encode_reassembled target, resolveAt]
    | true =>
      obtain ⟨t, e⟩ := Option.isSome_iff_exists.mp (hm target)
      have e' : labels (reassembled mi).labelTarget = some t := by
        rw [labelTarget_reassembled target, e]
      simp [hasTarget_reassembled, target, e, e', resolveAt, encode_reassembled_imm target]

/-! ## The two paths -/

/-- A line of a block contains no newline. -/
lemma line_blockLines {blocks : List BasicBlockCode} (h : Assemblable blocks) :
    ∀ l ∈ blocks.flatMap blockLines, '\n' ∉ l := by
  intro l hl
  obtain ⟨bb, hbb, hl⟩ := List.mem_flatMap.mp hl
  rcases List.mem_cons.mp hl with rfl | hl
  · simpa using (printed_blockName (h.name bb hbb)).line
  · obtain ⟨mi, hmi, rfl⟩ := List.mem_map.mp hl
    exact line_instructionLine (h.readable mi (List.mem_flatMap.mpr ⟨bb, hbb, hmi⟩))

/-- Every label that is used is recorded. -/
lemma blockToPC_isSome {blocks : List BasicBlockCode} {name : Text}
    (h : ∃ bb ∈ blocks, bb.name = name) : (blockToPC blocks name).isSome := by
  obtain ⟨before, bb, after, rfl, rfl, last⟩ := exists_last_block h
  simp [blockToPC_last last]

/-- Assembling the emitted assembly succeeds with the words that the other two formats write. -/
theorem assemble_emitAssembly {blocks : List BasicBlockCode} (h : Assemblable blocks) :
    assemble (emitAssembly blocks) = .ok ((resolveBranchOffsets blocks).map encode) ∧
      emitHex blocks = writeHex ((resolveBranchOffsets blocks).map encode) ∧
      emitBinary blocks = writeBinary ((resolveBranchOffsets blocks).map encode) := by
  refine ⟨?_, rfl, rfl⟩
  have lines : getlines (emitAssembly blocks) = blocks.flatMap blockLines := by
    rw [emitAssembly, ← List.flatMap_assoc, getlines_flatMap (line_blockLines h)]
  have known : ∀ mi ∈ layout blocks, mi.hasTarget → (blockToPC blocks mi.labelTarget).isSome :=
    fun mi hmi target => blockToPC_isSome (h.target mi hmi target)
  rw [assemble, lines, parseLines_blockLines h.name h.readable, Outcome.ok_bind]
  have words := resolveLabels_reassembled known 0
  simp only [Nat.zero_add] at words
  rw [resolveBranchOffsets, List.mapIdx_eq_zipIdx_map, List.map_map]
  simpa [Parse.empty, blockToPC, List.mapIdx_eq_zipIdx_map, Function.comp_def] using words

/-- Blocks with a branch forward to an empty block, a branch back and a name that occurs twice. -/
def loopBlocks : List BasicBlockCode :=
  [{ name := "entry".toList
     instructions :=
       [{ MachineInstruction.ofOp .addi with rd := 1, imm := -70000, comment := "i: 0;".toList },
        { MachineInstruction.ofOp .ssy with labelTarget := "done".toList }] },
   { name := "bb.1".toList
     instructions :=
       [{ MachineInstruction.ofOp .s2r with rd := 31, imm := 3 },
        { MachineInstruction.ofOp .br with cond := BranchCond.LT, labelTarget := "done".toList },
        { MachineInstruction.ofOp .br with labelTarget := "bb.1".toList }] },
   { name := "done".toList, instructions := [] },
   { name := "bb.1".toList, instructions := [MachineInstruction.ofOp .exit] }]

/-- The blocks of a loop are assembled to their words. -/
theorem assemble_emitAssembly_loop : assemble (emitAssembly loopBlocks) =
    .ok [0x8108_2E90, 0xE100_0004, 0xB0F8_0003, 0xC020_0002, 0xC038_0001, 0xFF00_0000] := by
  have assemblable : Assemblable loopBlocks := by
    constructor <;> decide
  rw [(assemble_emitAssembly assemblable).1]
  decide

end FpgaGpu

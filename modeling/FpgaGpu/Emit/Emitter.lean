import FpgaGpu.Asm.Files

/-!
# Code emitter

Model of `src/FpgaGpuEmitter.cpp`: the resolution of branch labels over the laid-out blocks and the
three output formats.
-/

namespace FpgaGpu

/-- `BasicBlockCode` over registers of type `Reg`. -/
structure BlockCode (Reg : Type) where
  name : Text
  instructions : List (Instruction Reg)
  deriving DecidableEq, Repr

/-- The code of a basic block. -/
abbrev BasicBlockCode := BlockCode RegField

/-- The instructions of a list of blocks in layout order. -/
def layout {Reg : Type} (blocks : List (BlockCode Reg)) : List (Instruction Reg) :=
  blocks.flatMap BlockCode.instructions

/-- First pass: records the PC of each block label, a later block over an earlier one. -/
def recordPCs (pc : Nat) (blockToPC : Text → Option Nat) :
    List BasicBlockCode → Text → Option Nat
  | [] => blockToPC
  | bb :: blocks =>
    recordPCs (pc + bb.instructions.length) (Function.update blockToPC bb.name (some pc)) blocks

/-- `blockToPC` after the first pass. -/
def blockToPC (blocks : List BasicBlockCode) : Text → Option Nat :=
  recordPCs 0 (fun _ => none) blocks

/-- Second pass at one instruction: the relative offset of a label that was recorded. -/
def resolveAt (blockToPC : Text → Option Nat) (currentPC : Nat) (mi : MachineInstruction) :
    MachineInstruction :=
  if mi.hasTarget then
    match blockToPC mi.labelTarget with
    | some target => { mi with imm := pcOffset target currentPC }
    | none => mi
  else mi

/-- Resolves branch labels and computes relative PC offsets. -/
def resolveBranchOffsets (blocks : List BasicBlockCode) : List MachineInstruction :=
  (layout blocks).mapIdx (resolveAt (blockToPC blocks))

/-- The letters of a branch condition. -/
def condToString (cond : BitVec 8) : Text :=
  if cond = BranchCond.EQ then "Z".toList
  else if cond = BranchCond.NE then "NP".toList
  else if cond = BranchCond.LT then "N".toList
  else if cond = BranchCond.LE then "NZ".toList
  else if cond = BranchCond.GT then "P".toList
  else if cond = BranchCond.GE then "ZP".toList
  else "NZP".toList

/-- The name of a system register. -/
def sysRegToString (sr : BitVec 16) : Text := (sysRegName? sr).getD "SR_TID.X".toList

/-- The target operand of a branch: its label, or else its offset. -/
def targetText (mi : MachineInstruction) : Text :=
  if mi.labelTarget = [] then decimal mi.imm.toInt else mi.labelTarget

/-- The mnemonic and operands of an instruction. -/
def instructionText (mi : MachineInstruction) : Text :=
  match mi.op with
  | .add => lineText "ADD" [regText mi.rd, regText mi.rs1, regText mi.rs2]
  | .sub => lineText "SUB" [regText mi.rd, regText mi.rs1, regText mi.rs2]
  | .mul => lineText "MUL" [regText mi.rd, regText mi.rs1, regText mi.rs2]
  | .cmp => lineText "CMP" [regText mi.rs1, regText mi.rs2]
  | .addi => lineText "ADDI" [regText mi.rd, regText mi.rs1, decimal mi.imm.toInt]
  | .ldr => lineText "LDR" [regText mi.rd, addressText mi.rs1]
  | .str => lineText "STR" [regText mi.rs2, addressText mi.rs1]
  | .s2r => lineText "S2R" [regText mi.rd, sysRegToString (mi.imm.setWidth 16)]
  | .br => lineText "BR" [condToString mi.cond, targetText mi]
  | .sync => "SYNC".toList
  | .ssy => lineText "SSY" [targetText mi]
  | .exit => "EXIT".toList

/-- The line of an instruction, without its newline. -/
def instructionLine (mi : MachineInstruction) : Text :=
  "    ".toList ++ instructionText mi ++
    (if mi.comment = [] then [] else " ; ".toList ++ mi.comment)

/-- The lines of a block: its label and its instructions. -/
def blockLines (bb : BasicBlockCode) : List Text :=
  (bb.name ++ [':']) :: bb.instructions.map instructionLine

/-- Emits human-readable assembly. -/
def emitAssembly (blocks : List BasicBlockCode) : Text :=
  blocks.flatMap fun bb => (blockLines bb).flatMap (· ++ ['\n'])

/-- The words of a list of blocks. -/
def emitWords (blocks : List BasicBlockCode) : List Word :=
  (resolveBranchOffsets blocks).map encode

/-- Emits hexadecimal machine code. -/
def emitHex (blocks : List BasicBlockCode) : Text := writeHex (emitWords blocks)

/-- Emits raw binary. -/
def emitBinary (blocks : List BasicBlockCode) : List (BitVec 8) := writeBinary (emitWords blocks)

/-! ## Layout -/

@[simp] lemma layout_nil {Reg : Type} : layout ([] : List (BlockCode Reg)) = [] := rfl

@[simp] lemma layout_cons {Reg : Type} (bb : BlockCode Reg) (blocks : List (BlockCode Reg)) :
    layout (bb :: blocks) = bb.instructions ++ layout blocks := by simp [layout]

@[simp] lemma layout_append {Reg : Type} (blocks blocks' : List (BlockCode Reg)) :
    layout (blocks ++ blocks') = layout blocks ++ layout blocks' := by simp [layout]

/-- The layout up to and including a block. -/
lemma layout_take_succ {blocks : List BasicBlockCode} {i bb} (h : blocks[i]? = some bb) :
    layout (blocks.take (i + 1)) = layout (blocks.take i) ++ bb.instructions := by
  simp [List.take_add_one, h]

/-- The layout is cut by a block. -/
lemma layout_split {blocks : List BasicBlockCode} {i bb} (h : blocks[i]? = some bb) :
    layout blocks =
      layout (blocks.take i) ++ bb.instructions ++ layout (blocks.drop (i + 1)) := by
  rw [← layout_take_succ h, ← layout_append, List.take_append_drop]

/-- The instructions of a block stand behind those of the blocks before it. -/
lemma getElem?_layout {blocks : List BasicBlockCode} {i k bb mi} (hbb : blocks[i]? = some bb)
    (hmi : bb.instructions[k]? = some mi) :
    (layout blocks)[(layout (blocks.take i)).length + k]? = some mi := by
  obtain ⟨lt, rfl⟩ := List.getElem?_eq_some_iff.mp hmi
  rw [layout_split hbb, List.append_assoc, List.getElem?_append_right (by omega),
    Nat.add_sub_cancel_left, List.getElem?_append_left lt, hmi]

/-- A label that no block carries keeps its entry. -/
lemma recordPCs_of_not_mem {blocks : List BasicBlockCode} {name : Text}
    (h : ∀ bb ∈ blocks, bb.name ≠ name) (pc : Nat) (m : Text → Option Nat) :
    recordPCs pc m blocks name = m name := by
  induction blocks generalizing pc m with
  | nil => rfl
  | cons bb blocks ih =>
    obtain ⟨hb, h⟩ := List.forall_mem_cons.mp h
    rw [recordPCs, ih h, Function.update_of_ne (Ne.symm hb)]

/-- A label points at its last block. -/
lemma recordPCs_last {before after : List BasicBlockCode} {bb : BasicBlockCode}
    (h : ∀ bb' ∈ after, bb'.name ≠ bb.name) (pc : Nat) (m : Text → Option Nat) :
    recordPCs pc m (before ++ bb :: after) bb.name = some (pc + (layout before).length) := by
  induction before generalizing pc m with
  | nil => simp [recordPCs, recordPCs_of_not_mem h]
  | cons b before ih =>
    rw [List.cons_append, recordPCs, ih, layout_cons, List.length_append, Nat.add_assoc]

/-- The last block of a name. -/
lemma exists_last_block {Reg : Type} {blocks : List (BlockCode Reg)} {name : Text}
    (h : ∃ bb ∈ blocks, bb.name = name) : ∃ before bb after, blocks = before ++ bb :: after ∧
      bb.name = name ∧ ∀ bb' ∈ after, bb'.name ≠ name := by
  induction blocks with
  | nil => simp at h
  | cons b blocks ih =>
    by_cases later : ∃ bb ∈ blocks, bb.name = name
    · obtain ⟨before, bb, after, rfl, e, last⟩ := ih later
      exact ⟨b :: before, bb, after, rfl, e, last⟩
    · push Not at later
      obtain ⟨bb, hbb, e⟩ := h
      obtain rfl | hbb := List.mem_cons.mp hbb
      · exact ⟨[], bb, blocks, rfl, e, later⟩
      · exact absurd e (later bb hbb)

/-- The label of the last block of its name is recorded at the start of that block. -/
lemma blockToPC_last {before after : List BasicBlockCode} {bb : BasicBlockCode}
    (h : ∀ bb' ∈ after, bb'.name ≠ bb.name) :
    blockToPC (before ++ bb :: after) bb.name = some (layout before).length := by
  rw [blockToPC, recordPCs_last h, Nat.zero_add]

@[simp] lemma resolveAt_op (m : Text → Option Nat) (pc : Nat) (mi : MachineInstruction) :
    (resolveAt m pc mi).op = mi.op := by
  unfold resolveAt
  split
  · split <;> rfl
  · rfl

lemma resolveAt_cond (m : Text → Option Nat) (pc : Nat) (mi : MachineInstruction) :
    (resolveAt m pc mi).cond = mi.cond := by
  unfold resolveAt
  split
  · split <;> rfl
  · rfl

@[simp] lemma length_resolveBranchOffsets (blocks : List BasicBlockCode) :
    (resolveBranchOffsets blocks).length = (layout blocks).length := by
  simp [resolveBranchOffsets]

/-! ## Outputs -/

/-- A hexadecimal and a binary file are read back as the same words. -/
structure SameProgram (hex : Text) (binary : List (BitVec 8)) (code : List Word) : Prop where
  hex : readHex hex = code.map some
  binary : readBinary binary = some code

lemma sameProgram_written (code : List Word) :
    SameProgram (writeHex code) (writeBinary code) code :=
  ⟨readHex_writeHex code, readBinary_writeBinary code⟩

/-- Both outputs carry the words: for any list of words, for what the emitter writes for blocks, and
for what assembling a file writes. -/
theorem outputs_sameProgram :
    (∀ code, SameProgram (writeHex code) (writeBinary code) code) ∧
    (∀ blocks, SameProgram (emitHex blocks) (emitBinary blocks) (emitWords blocks)) ∧
    ∀ file, (assembleMode file >>= fun hex => pure (readHex hex)) =
        (assemble file >>= fun code => pure (code.map some)) ∧
      (assembleModeBinary file >>= fun binary => pure (readBinary binary)) =
        (assemble file >>= fun code => pure (some code)) := by
  refine ⟨sameProgram_written, fun blocks => sameProgram_written (emitWords blocks), fun file => ?_⟩
  unfold assembleMode assembleModeBinary
  cases assemble file with
  | ok code =>
    obtain ⟨hex, binary⟩ := sameProgram_written code
    simp [hex, binary]
  | rejected => exact ⟨rfl, rfl⟩
  | undefined => exact ⟨rfl, rfl⟩

end FpgaGpu

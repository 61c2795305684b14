import FpgaGpu.Isa.Decode
import FpgaGpu.Lib.Machine
import Mathlib.Logic.Function.Basic

/-!
# Running machine code

One thread of a warp, as `include/FpgaGpu.h` and the README describe it: 32-bit registers of which
R0 reads as zero, wrapping arithmetic, word loads and stores, condition flags from the last result
that sets them, and PC-relative branches. `SSY` and `SYNC` move a thread to the next instruction.
The memory system, the system registers and which operations set the flags are parameters.
-/

namespace FpgaGpu

/-- What the rest of the hardware does. -/
structure Hardware where
  Mem : Type
  load : Mem → Word → Word
  store : Mem → Word → Word → Mem
  sysReg : BitVec 32 → Word
  setsFlags : Opcode → Bool

/-- Memory that a run only shows stores to. -/
def Hardware.plain : Hardware where
  Mem := Unit
  load _ _ := 0
  store m _ _ := m
  sysReg _ := 0
  setsFlags _ := false

/-- The element at a program counter. -/
def fetch {α : Type} (code : List α) (pc : Int) : Option α :=
  if 0 ≤ pc then code[pc.toNat]? else none

lemma fetch_natCast {α : Type} (code : List α) (pc : Nat) :
    fetch code (pc : Int) = code[pc]? := by
  simp [fetch]

lemma exists_of_fetch {α : Type} {code : List α} {pc : Int} {a : α} (h : fetch code pc = some a) :
    ∃ i : Nat, pc = i ∧ code[i]? = some a := by
  unfold fetch at h
  split at h
  · next le => exact ⟨pc.toNat, (Int.toNat_of_nonneg le).symm, h⟩
  · cases h

/-- The NZP flags of a result. -/
def nzp (result : Word) : BitVec 8 :=
  if result = 0 then BranchCond.Z else if result.msb then BranchCond.N else BranchCond.P

/-- `NZP & cond`. -/
def takes (cond : BitVec 8) (result : Word) : Bool := nzp result &&& cond ≠ 0

/-- A branch on `ALWAYS` is taken. -/
@[simp] lemma takes_always (result : Word) : takes BranchCond.ALWAYS result = true := by
  unfold takes nzp
  split
  · decide
  · split <;> decide

/-- What a run shows of a step. -/
inductive Event where
  | branch (taken : Bool)
  | store (addr value : Word)
  | exit
  deriving DecidableEq, Repr

/-- The state of a thread; the program counter is `none` after `EXIT`. -/
structure Thread (hw : Hardware) (Reg : Type) where
  pc : Option Int
  regs : Reg → Word
  mem : hw.Mem
  flags : Word

section Step

variable {hw : Hardware} {Reg : Type} [Zero Reg] [DecidableEq Reg]

/-- R0 reads as zero. -/
def Thread.read (s : Thread hw Reg) (r : Reg) : Word := if r = 0 then 0 else s.regs r

/-- What an instruction computes: the value of its destination, or what it compares. -/
def result (s : Thread hw Reg) (mi : Instruction Reg) : Word :=
  match mi.op with
  | .add => s.read mi.rs1 + s.read mi.rs2
  | .sub | .cmp => s.read mi.rs1 - s.read mi.rs2
  | .mul => s.read mi.rs1 * s.read mi.rs2
  | .addi => s.read mi.rs1 + mi.imm
  | .ldr => hw.load s.mem (s.read mi.rs1)
  | .s2r => hw.sysReg mi.imm
  | .str | .br | .sync | .ssy | .exit => 0

/-- Where an instruction goes when the flags are those of `flags`. -/
def nextPc (mi : Instruction Reg) (pc : Int) (flags : Word) : Option Int :=
  match mi.op with
  | .br => some (if takes mi.cond flags then pc + mi.imm.toInt else pc + 1)
  | .exit => none
  | _ => some (pc + 1)

/-- What an instruction shows. -/
def shows (s : Thread hw Reg) (mi : Instruction Reg) : Option Event :=
  match mi.op with
  | .br => some (.branch (takes mi.cond s.flags))
  | .str => some (.store (s.read mi.rs1) (s.read mi.rs2))
  | .exit => some .exit
  | _ => none

/-- Executes an instruction. -/
def execute (s : Thread hw Reg) (pc : Int) (mi : Instruction Reg) : Thread hw Reg where
  pc := nextPc mi pc s.flags
  regs := if mi.op.usesRd then Function.update s.regs mi.rd (result s mi) else s.regs
  mem := if mi.op = .str then hw.store s.mem (s.read mi.rs1) (s.read mi.rs2) else s.mem
  flags := if mi.op = .cmp || hw.setsFlags mi.op then result s mi else s.flags

/-- Executes the next instruction of a program. -/
def threadStep (program : Int → Option (Instruction Reg)) (s : Thread hw Reg) :
    Option (Option Event × Thread hw Reg) := do
  let pc ← s.pc
  let mi ← program pc
  return (shows s mi, execute s pc mi)

/-- The registers that an instruction reads. -/
def Instruction.reads (mi : Instruction Reg) : List Reg :=
  (if mi.op.usesRs1 then [mi.rs1] else []) ++ (if mi.op.usesRs2 then [mi.rs2] else [])

/-- The register that an instruction writes. -/
def Instruction.writes (mi : Instruction Reg) : Option Reg :=
  if mi.op.usesRd then some mi.rd else none

/-- The step at an instruction. -/
lemma threadStep_eq {program : Int → Option (Instruction Reg)} {s : Thread hw Reg} {pc mi}
    (at_pc : s.pc = some pc) (e : program pc = some mi) :
    threadStep program s = some (shows s mi, execute s pc mi) := by
  simp [threadStep, at_pc, e]

/-- Off the program there is no step. -/
lemma threadStep_none {program : Int → Option (Instruction Reg)} {s : Thread hw Reg}
    (h : ∀ pc, s.pc = some pc → program pc = none) : threadStep program s = none := by
  cases e : s.pc with
  | none => simp [threadStep, e]
  | some pc => simp [threadStep, e, h pc e]

end Step

/-! ## Renaming registers -/

section Renaming

variable {Reg Reg' : Type}

@[simp] lemma nextPc_mapRegs (φ : Reg → Reg') (mi : Instruction Reg) (pc : Int) (flags : Word) :
    nextPc (mi.mapRegs φ) pc flags = nextPc mi pc flags := rfl

lemma reads_mapRegs (φ : Reg → Reg') (mi : Instruction Reg) :
    (mi.mapRegs φ).reads = mi.reads.map φ := by
  unfold Instruction.reads Instruction.mapRegs
  dsimp only
  split <;> split <;> rfl

lemma writes_mapRegs (φ : Reg → Reg') (mi : Instruction Reg) :
    (mi.mapRegs φ).writes = mi.writes.map φ := by
  unfold Instruction.writes Instruction.mapRegs
  dsimp only
  split <;> rfl

end Renaming

/-! ## Words -/

/-- The program that the hardware decodes from words. -/
def wordProgram (words : List Word) (pc : Int) : Option MachineInstruction :=
  (fetch words pc).bind decode

/-- An instruction reads only what its opcode uses. -/
lemma execute_used {hw : Hardware} (s : Thread hw RegField) (pc : Int) (mi : MachineInstruction) :
    execute s pc mi.used = execute s pc mi := by
  unfold execute result nextPc Instruction.used
  cases mi.op <;> rfl

lemma shows_used {hw : Hardware} (s : Thread hw RegField) (mi : MachineInstruction) :
    shows s mi.used = shows s mi := by
  unfold shows Instruction.used
  cases mi.op <;> rfl

/-- An encoded instruction that fits its fields does what the instruction does. -/
lemma threadStep_wordProgram_at {hw : Hardware} {code : List MachineInstruction}
    {s : Thread hw RegField} (fits : ∀ pc mi, s.pc = some pc → fetch code pc = some mi → mi.Fits) :
    threadStep (wordProgram (code.map encode)) s = threadStep (fetch code) s := by
  cases at_pc : s.pc with
  | none => simp [threadStep, at_pc]
  | some pc =>
    have decoded : wordProgram (code.map encode) pc = (fetch code pc).map Instruction.used := by
      have fits := fits pc
      unfold wordProgram fetch at *
      split
      · next nonneg =>
        rw [List.getElem?_map]
        cases e : code[pc.toNat]? with
        | none => rfl
        | some mi => exact decode_encode (fits mi at_pc (by rw [if_pos nonneg, e]))
      · rfl
    cases e : fetch code pc with
    | none => simp [threadStep, at_pc, decoded, e]
    | some mi => simp [threadStep, at_pc, decoded, e, execute_used, shows_used]

/-- Encoded instructions that fit their fields do what the instructions do. -/
lemma threadStep_wordProgram {hw : Hardware} {code : List MachineInstruction}
    (fits : ∀ mi ∈ code, mi.Fits) :
    (threadStep (wordProgram (code.map encode)) : Thread hw RegField → _) = threadStep
      (fetch code) :=
  funext fun _ => threadStep_wordProgram_at fun pc mi _ e => by
    obtain ⟨i, -, e⟩ := exists_of_fetch e
    exact fits mi (List.mem_of_getElem? e)

end FpgaGpu

import Mathlib.Data.BitVec
import Mathlib.Tactic.Common

/-!
# Instructions

Model of `include/FpgaGpu.h`: the opcodes, the system registers, the branch condition codes, the
internal machine instruction and its 32-bit encoding.

The header's `MachineInstruction` carries 8-bit register fields. The instruction selector computes
with virtual registers and narrows them when it fills these fields, so the structure is generic in
its register type: `MachineInstruction` is the instance at 8-bit fields and `narrow` is the
implicit conversion of the assignments `mi.rd = reg`.
-/

namespace FpgaGpu

/-- The content of a `std::string`. -/
abbrev Text := List Char

/-- A 32-bit hardware word. -/
abbrev Word := BitVec 32

/-- A register field of a machine instruction (`uint8_t`). -/
abbrev RegField := BitVec 8

/-- `NUM_PHYSICAL_REGS`. -/
def numPhysicalRegs : Nat := 32

/-- Hardware instruction opcodes. -/
inductive Opcode where
  | add | sub | mul | cmp | addi | ldr | str | s2r | br | sync | ssy | exit
  deriving DecidableEq, Repr

/-- The 8-bit value of an opcode. -/
def Opcode.val : Opcode → BitVec 8
  | .add => 0x01
  | .sub => 0x02
  | .mul => 0x03
  | .cmp => 0x04
  | .addi => 0x81
  | .ldr => 0xA0
  | .str => 0xA1
  | .s2r => 0xB0
  | .br => 0xC0
  | .sync => 0xE0
  | .ssy => 0xE1
  | .exit => 0xFF

/-- `static_cast<Opcode>` of a byte; `none` where no enumerator has that value. -/
def Opcode.ofVal? (v : BitVec 8) : Option Opcode :=
  [Opcode.add, .sub, .mul, .cmp, .addi, .ldr, .str, .s2r, .br, .sync, .ssy, .exit].find?
    (fun op => op.val == v)

/-- Distinct opcodes have distinct values, so the value determines the opcode. -/
@[simp] lemma Opcode.ofVal?_val (op : Opcode) : Opcode.ofVal? op.val = some op := by
  cases op <;> rfl

/-- System registers of the `S2R` instruction. -/
inductive SysReg where
  | tidX | tidY | bidX | bidY
  deriving DecidableEq, Repr

/-- The number of a system register. -/
def SysReg.val : SysReg → BitVec 32
  | .tidX => 0
  | .tidY => 1
  | .bidX => 2
  | .bidY => 3

namespace BranchCond

/-- Branch condition codes, the 3-bit NZP mask. -/
def NEVER : BitVec 8 := 0x0
def P : BitVec 8 := 0x1
def Z : BitVec 8 := 0x2
def ZP : BitVec 8 := 0x3
def N : BitVec 8 := 0x4
def NP : BitVec 8 := 0x5
def NZ : BitVec 8 := 0x6
def ALWAYS : BitVec 8 := 0x7

def EQ : BitVec 8 := Z
def NE : BitVec 8 := NP
def LT : BitVec 8 := N
def LE : BitVec 8 := NZ
def GT : BitVec 8 := P
def GE : BitVec 8 := ZP

end BranchCond

/-- The fields of a machine instruction over registers of type `Reg`. -/
structure Instruction (Reg : Type) where
  op : Opcode
  rd : Reg
  rs1 : Reg
  rs2 : Reg
  imm : BitVec 32
  cond : BitVec 8
  labelTarget : Text
  comment : Text
  deriving DecidableEq, Repr

/-- A machine instruction with the member initialisers of the header. -/
def Instruction.ofOp {Reg : Type} [Zero Reg] (op : Opcode) : Instruction Reg where
  op := op
  rd := 0
  rs1 := 0
  rs2 := 0
  imm := 0
  cond := BranchCond.ALWAYS
  labelTarget := []
  comment := []

/-- Internal machine instruction representation. -/
abbrev MachineInstruction := Instruction RegField

/-- `Instruction.ofOp` over register fields. -/
abbrev MachineInstruction.ofOp (op : Opcode) : MachineInstruction := Instruction.ofOp op

/-- A branch or reconvergence instruction that names a label. -/
def Instruction.hasTarget {Reg : Type} (mi : Instruction Reg) : Bool :=
  (mi.op = .br || mi.op = .ssy) && mi.labelTarget ≠ []

/-- `static_cast<int32_t>(target) - static_cast<int32_t>(pc)`. -/
def pcOffset (target pc : Nat) : BitVec 32 := BitVec.ofNat 32 target - BitVec.ofNat 32 pc

/-- Replaces every register of an instruction. -/
def Instruction.mapRegs {Reg Reg' : Type} (f : Reg → Reg') (mi : Instruction Reg) :
    Instruction Reg' where
  op := mi.op
  rd := f mi.rd
  rs1 := f mi.rs1
  rs2 := f mi.rs2
  imm := mi.imm
  cond := mi.cond
  labelTarget := mi.labelTarget
  comment := mi.comment

@[simp] lemma mapRegs_op {Reg Reg' : Type} (φ : Reg → Reg') (mi : Instruction Reg) :
    (mi.mapRegs φ).op = mi.op := rfl

/-- Encodes an instruction into the 32-bit hardware machine word. -/
def encode (mi : MachineInstruction) : Word :=
  let opcodeVal : Word := mi.op.val.setWidth 32
  match mi.op with
  | .add | .sub | .mul =>
    (opcodeVal <<< 24) |||
      ((mi.rd.setWidth 32 &&& 0x1F) <<< 19) |||
      ((mi.rs1.setWidth 32 &&& 0x1F) <<< 14) |||
      ((mi.rs2.setWidth 32 &&& 0x1F) <<< 9)
  | .cmp =>
    (opcodeVal <<< 24) |||
      ((mi.rs1.setWidth 32 &&& 0x1F) <<< 14) |||
      ((mi.rs2.setWidth 32 &&& 0x1F) <<< 9)
  | .str =>
    -- STR rs2(data), [rs1(addr)]
    (opcodeVal <<< 24) |||
      ((mi.rs1.setWidth 32 &&& 0x1F) <<< 14) |||
      ((mi.rs2.setWidth 32 &&& 0x1F) <<< 9)
  | .addi =>
    (opcodeVal <<< 24) |||
      ((mi.rd.setWidth 32 &&& 0x1F) <<< 19) |||
      ((mi.rs1.setWidth 32 &&& 0x1F) <<< 14) |||
      (mi.imm &&& 0x3FFF)
  | .ldr =>
    -- LDR rd, [rs1]
    (opcodeVal <<< 24) |||
      ((mi.rd.setWidth 32 &&& 0x1F) <<< 19) |||
      ((mi.rs1.setWidth 32 &&& 0x1F) <<< 14)
  | .s2r =>
    (opcodeVal <<< 24) |||
      ((mi.rd.setWidth 32 &&& 0x1F) <<< 19) |||
      (mi.imm &&& 0x3FFF)
  | .br =>
    (opcodeVal <<< 24) |||
      ((mi.cond.setWidth 32 &&& 0x7) <<< 19) |||
      (mi.imm &&& 0x7FFFF)
  | .ssy =>
    (opcodeVal <<< 24) |||
      (mi.imm &&& 0x7FFFF)
  | .sync | .exit => opcodeVal <<< 24

end FpgaGpu

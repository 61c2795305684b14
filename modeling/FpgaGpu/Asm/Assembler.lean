import FpgaGpu.Isa.Decode
import FpgaGpu.Text.Number
import Mathlib.Logic.Function.Basic

/-!
# Assembler and disassembler

Model of `src/FpgaGpuAssembler.cpp`. The messages that go to `std::cerr` are left out: an exception
and a `return false` are both the outcome `rejected`. `tokens[i]` on a `std::vector` is not checked,
so reading a token that is not there is an outcome of its own, `undefined`.
-/

namespace FpgaGpu

/-- How a piece of the assembler ends. -/
inductive Outcome (α : Type) where
  | ok (a : α)
  | rejected
  | undefined
  deriving DecidableEq, Repr

namespace Outcome

/-- Runs the continuation on a result. -/
def bind {α β : Type} : Outcome α → (α → Outcome β) → Outcome β
  | .ok a, f => f a
  | .rejected, _ => .rejected
  | .undefined, _ => .undefined

instance : Monad Outcome where
  pure := .ok
  bind := Outcome.bind

@[simp] lemma ok_bind {α β : Type} (a : α) (f : α → Outcome β) : (Outcome.ok a >>= f) = f a := rfl

@[simp] lemma rejected_bind {α β : Type} (f : α → Outcome β) :
    ((Outcome.rejected : Outcome α) >>= f) = .rejected := rfl

@[simp] lemma undefined_bind {α β : Type} (f : α → Outcome β) :
    ((Outcome.undefined : Outcome α) >>= f) = .undefined := rfl

@[simp] lemma pure_eq {α : Type} (a : α) : (pure a : Outcome α) = .ok a := rfl

/-- A sequence succeeds when both parts do. -/
lemma bind_eq_ok {α β : Type} {x : Outcome α} {f : α → Outcome β} {b : β} :
    (x >>= f) = .ok b ↔ ∃ a, x = .ok a ∧ f a = .ok b := by
  cases x <;> simp

end Outcome

/-- The result of a call that throws instead of returning an error. -/
def Outcome.ofExcept {ε α : Type} : Except ε α → Outcome α
  | .ok a => .ok a
  | .error _ => .rejected

/-- `tokens[i]`. -/
def token (tokens : List Text) (i : Nat) : Outcome Text :=
  match tokens[i]? with
  | some t => .ok t
  | none => .undefined

/-- A register operand. -/
def parseRegister : Text → Outcome RegField
  | [] => .rejected
  | c :: digits =>
    if c ≠ 'R' ∧ c ≠ 'r' then .rejected
    else do
      let (num, _) ← Outcome.ofExcept (stoi 10 digits)
      if num.toInt < 0 ∨ num.toInt ≥ numPhysicalRegs then .rejected
      else .ok (num.setWidth 8)

/-- The condition letters of a branch, found anywhere in the operand. -/
def parseCondition (condStr : Text) : BitVec 8 :=
  let letters := upper condStr
  (if 'N' ∈ letters then BranchCond.N else 0) |||
    (if 'Z' ∈ letters then BranchCond.Z else 0) |||
    (if 'P' ∈ letters then BranchCond.P else 0)

/-- The address operand of a load or store, with its brackets erased. -/
def parseAddress (ptrStr : Text) : Outcome RegField :=
  parseRegister ((ptrStr.filter (· ≠ '[')).filter (· ≠ ']'))

/-- `ADD`, `SUB` and `MUL`: three registers. -/
def parseRType (op : Opcode) (tokens : List Text) : Outcome MachineInstruction := do
  let rd ← parseRegister (← token tokens 1)
  let rs1 ← parseRegister (← token tokens 2)
  let rs2 ← parseRegister (← token tokens 3)
  return { MachineInstruction.ofOp op with rd := rd, rs1 := rs1, rs2 := rs2 }

/-- `CMP`: two registers. -/
def parseCmp (tokens : List Text) : Outcome MachineInstruction := do
  let rs1 ← parseRegister (← token tokens 1)
  let rs2 ← parseRegister (← token tokens 2)
  return { MachineInstruction.ofOp .cmp with rs1 := rs1, rs2 := rs2 }

/-- `ADDI`: two registers and a literal, cut to 14 bits. -/
def parseAddi (tokens : List Text) : Outcome MachineInstruction := do
  let rd ← parseRegister (← token tokens 1)
  let rs1 ← parseRegister (← token tokens 2)
  let (imm, _) ← Outcome.ofExcept (stoi 0 (← token tokens 3))
  return { MachineInstruction.ofOp .addi with rd := rd, rs1 := rs1, imm := imm &&& 0x3FFF }

/-- `LDR`: the destination, then the address. -/
def parseLdr (tokens : List Text) : Outcome MachineInstruction := do
  let rd ← parseRegister (← token tokens 1)
  let rs1 ← parseAddress (← token tokens 2)
  return { MachineInstruction.ofOp .ldr with rd := rd, rs1 := rs1 }

/-- `STR`: the data, then the address. -/
def parseStr (tokens : List Text) : Outcome MachineInstruction := do
  let rs2 ← parseRegister (← token tokens 1)
  let rs1 ← parseAddress (← token tokens 2)
  return { MachineInstruction.ofOp .str with rs1 := rs1, rs2 := rs2 }

/-- The system register operand: a name, or else a literal cut to 14 bits. -/
def parseSysReg (srStr : Text) : Outcome (BitVec 32) :=
  if upper srStr = "SR_TID.X".toList then .ok SysReg.tidX.val
  else if upper srStr = "SR_TID.Y".toList then .ok SysReg.tidY.val
  else if upper srStr = "SR_BID.X".toList then .ok SysReg.bidX.val
  else if upper srStr = "SR_BID.Y".toList then .ok SysReg.bidY.val
  else do
    let (imm, _) ← Outcome.ofExcept (stoi 0 srStr)
    return imm &&& 0x3FFF

/-- `S2R`: the destination, then the system register. -/
def parseS2r (tokens : List Text) : Outcome MachineInstruction := do
  let rd ← parseRegister (← token tokens 1)
  let imm ← parseSysReg (← token tokens 2)
  return { MachineInstruction.ofOp .s2r with rd := rd, imm := imm }

/-- `BR`: the condition, then an offset or, where that does not convert, a label. -/
def parseBr (tokens : List Text) : Outcome MachineInstruction := do
  let cond := parseCondition (← token tokens 1)
  let target ← token tokens 2
  match stoi 0 target with
  | .ok (imm, _) => return { MachineInstruction.ofOp .br with cond := cond, imm := imm }
  | .error _ => return { MachineInstruction.ofOp .br with cond := cond, labelTarget := target }

/-- `SSY`: one offset, consumed to its end, or a label. -/
def parseSsy (tokens : List Text) : Outcome MachineInstruction := do
  if tokens.length ≠ 2 then .rejected
  else
    let target ← token tokens 1
    match stoi 0 target with
    | .ok (imm, consumed) =>
      if consumed ≠ target.length then .rejected
      else return { MachineInstruction.ofOp .ssy with imm := imm }
    | .error .invalidArgument => return { MachineInstruction.ofOp .ssy with labelTarget := target }
    | .error .outOfRange => .rejected

/-- The operands of each mnemonic. -/
def parseInstruction (mnemonic : Text) (tokens : List Text) : Outcome MachineInstruction :=
  if mnemonic = "ADD".toList then parseRType .add tokens
  else if mnemonic = "SUB".toList then parseRType .sub tokens
  else if mnemonic = "MUL".toList then parseRType .mul tokens
  else if mnemonic = "CMP".toList then parseCmp tokens
  else if mnemonic = "ADDI".toList then parseAddi tokens
  else if mnemonic = "LDR".toList then parseLdr tokens
  else if mnemonic = "STR".toList then parseStr tokens
  else if mnemonic = "S2R".toList then parseS2r tokens
  else if mnemonic = "BR".toList then parseBr tokens
  else if mnemonic = "SYNC".toList then return MachineInstruction.ofOp .sync
  else if mnemonic = "SSY".toList then parseSsy tokens
  else if mnemonic = "EXIT".toList then return MachineInstruction.ofOp .exit
  else .rejected

/-- What pass 1 collects: the instructions, and where each label points. -/
structure Parse where
  instructions : List MachineInstruction
  labels : Text → Option Nat

/-- The state before the first line. -/
def Parse.empty : Parse where
  instructions := []
  labels := fun _ => none

/-- Appends an instruction. -/
def Parse.push (st : Parse) (mi : MachineInstruction) : Parse :=
  { st with instructions := st.instructions ++ [mi] }

/-- Defines a label at the next instruction. -/
def Parse.define (st : Parse) (labelName : Text) : Parse :=
  { st with labels := Function.update st.labels labelName (some st.instructions.length) }

/-- The part of `parseLine` after the label. -/
def parseTokens (line : Text) (st : Parse) : Outcome Parse :=
  match split line with
  | [] => .ok st
  | mnemonic :: operands => do
    let mi ← parseInstruction (upper mnemonic) (mnemonic :: operands)
    return st.push mi

/-- Parses one line. -/
def parseLine (rawLine : Text) (st : Parse) : Outcome Parse :=
  let line := trim (before ';' rawLine)
  if line = [] then .ok st
  else if ':' ∈ line then
    let st := st.define (trim (before ':' line))
    let line := trim (after ':' line)
    if line = [] then .ok st else parseTokens line st
  else parseTokens line st

/-- Pass 1: parses the lines in order. -/
def parseLines : List Text → Parse → Outcome Parse
  | [], st => .ok st
  | line :: lines, st => do
    let st ← parseLine line st
    parseLines lines st

/-- Pass 2: resolves the labels relative to each instruction and encodes. -/
def resolveLabels (labels : Text → Option Nat) (pc : Nat) :
    List MachineInstruction → Outcome (List Word)
  | [] => .ok []
  | mi :: rest => do
    let mi ←
      if mi.hasTarget then
        match labels mi.labelTarget with
        | some target => .ok { mi with imm := pcOffset target pc }
        | none => .rejected
      else .ok mi
    let words ← resolveLabels labels (pc + 1) rest
    return encode mi :: words

/-- Assembles a source text into machine words. -/
def assemble (source : Text) : Outcome (List Word) := do
  let st ← parseLines (getlines source) Parse.empty
  resolveLabels st.labels 0 st.instructions

/-! ## Disassembler -/

/-- The name of a system register, by the 16-bit number it is switched on; `none` for the others. -/
def sysRegName? (sr : BitVec 16) : Option Text :=
  if sr = 0 then some "SR_TID.X".toList
  else if sr = 1 then some "SR_TID.Y".toList
  else if sr = 2 then some "SR_BID.X".toList
  else if sr = 3 then some "SR_BID.Y".toList
  else none

/-- The condition letters the disassembler writes. -/
def condText (cond : BitVec 8) : Text :=
  (if cond &&& BranchCond.N ≠ 0 then ['N'] else []) ++
    (if cond &&& BranchCond.Z ≠ 0 then ['Z'] else []) ++
    (if cond &&& BranchCond.P ≠ 0 then ['P'] else []) ++
    (if cond = 0 then "NEVER".toList else [])

/-- Disassembles a machine word. -/
def disassemble (word : Word) : Text :=
  let rd := rdField word
  let rs1 := rs1Field word
  let rs2 := rs2Field word
  let imm14 := imm14Field word
  let imm19 := imm19Field word
  match Opcode.ofVal? (opField word) with
  | some .add => lineText "ADD" [regText rd, regText rs1, regText rs2]
  | some .sub => lineText "SUB" [regText rd, regText rs1, regText rs2]
  | some .mul => lineText "MUL" [regText rd, regText rs1, regText rs2]
  | some .cmp => lineText "CMP" [regText rs1, regText rs2]
  | some .addi => lineText "ADDI" [regText rd, regText rs1, decimal imm14.toInt]
  | some .ldr => lineText "LDR" [regText rd, addressText rs1]
  | some .str => lineText "STR" [regText rs2, addressText rs1]
  | some .s2r =>
    lineText "S2R" [regText rd, (sysRegName? (imm14.setWidth 16)).getD (decimal imm14.toInt)]
  | some .br => lineText "BR" [condText (condField word), decimal imm19.toInt]
  | some .sync => "SYNC".toList
  | some .ssy => lineText "SSY" [decimal imm19.toInt]
  | some .exit => "EXIT".toList
  | none => ".word 0x".toList ++ hex8 word

end FpgaGpu

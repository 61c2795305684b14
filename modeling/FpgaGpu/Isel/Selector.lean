import FpgaGpu.Emit.Emitter
import FpgaGpu.Ir.Syntax
import FpgaGpu.Lib.Emission

/-!
# Instruction selector

Model of `src/FpgaGpuISel.cpp`. The selector computes with virtual registers, which count without
bound, and narrows them to 8 bits where it fills the register fields of an instruction; here the
fields are narrowed at the end. What the source leaves undefined (a missing call argument, a shift
of `1` by 32 or more) has no result. Each instruction also records what it was emitted for.
-/

namespace FpgaGpu

open Llvm (Value)
open Emission (push mapItems undefined)

/-- What the selector asks the data layout. -/
structure DataLayout where
  /-- `DL.getTypeAllocSize`. -/
  typeAllocSize : Llvm.Ty → BitVec 64
  /-- `GEP->accumulateConstantOffset`. -/
  accumulateConstantOffset : Llvm.Ty → List Value → Option (BitVec 64)

/-- A data layout in which every type has four bytes. -/
def words : DataLayout where
  typeAllocSize := fun _ => 4
  accumulateConstantOffset := fun _ _ => none

/-- The registers given out. -/
structure Selector where
  nextVReg : Nat
  valueToVReg : Value → Option Nat

/-- A new selector. -/
def Selector.start : Selector where
  nextVReg := 1
  valueToVReg := fun _ => none

/-- A handler of the selector. -/
abbrev Sel := Emission Selector (Instruction Nat)

/-- `MachineInstruction mi; mi.op = op;`. -/
abbrev newInstruction (op : Opcode) : Instruction Nat := Instruction.ofOp op

/-- `CI->isZero()` for a `ConstantInt`. -/
def isZero : Value → Bool
  | .constantInt _ bits => bits = 0
  | _ => false

/-- `nextVReg++`. -/
def allocateVReg {ω : Type} : Emission Selector ω Nat := fun st =>
  some (st.nextVReg, [], { st with nextVReg := st.nextVReg + 1 })

/-- The register of a value, a new one if it has none. -/
def getOrCreateVReg {ω : Type} (val : Value) : Emission Selector ω Nat := fun st =>
  if isZero val then some (0, [], st)
  else
    match st.valueToVReg val with
    | some reg => some (reg, [], st)
    | none =>
      some (st.nextVReg, [],
        { nextVReg := st.nextVReg + 1
          valueToVReg := Function.update st.valueToVReg val (some st.nextVReg) })

/-- The instruction that loads a constant. -/
def loadConstant {w : Nat} (reg : Nat) (bits : BitVec w) : Instruction Nat :=
  { newInstruction .addi with
    rd := reg
    imm := (bits.signExtend 64).setWidth 32
    comment := "const ".toList ++ decimal (bits.signExtend 64).toInt }

/-- The register of a value, loaded first if it is a constant without one. -/
def getOrMaterializeVReg (val : Value) : Sel Nat := fun st =>
  match val with
  | .constantInt w bits =>
    if bits = 0 then some (0, [], st)
    else
      match st.valueToVReg (.constantInt w bits) with
      | some reg => some (reg, [], st)
      | none =>
        some (st.nextVReg, [loadConstant st.nextVReg bits],
          { nextVReg := st.nextVReg + 1
            valueToVReg :=
              Function.update st.valueToVReg (.constantInt w bits) (some st.nextVReg) })
  | val => getOrCreateVReg val st

/-- The constant operand that the add-immediate form takes. -/
def addImmediate? : Value → Option (BitVec 64)
  | .constantInt _ bits =>
    let val := bits.signExtend 64
    if -2048 ≤ val.toInt ∧ val.toInt ≤ 2047 then some val else none
  | _ => none

/-- `getZExtValue` of a shift amount. -/
def shiftAmount? : Value → Option (BitVec 64)
  | .constantInt _ bits => some (bits.setWidth 64)
  | _ => none

/-- A register-register operation with materialised operands. -/
def selectRegReg (op : Opcode) (comment : String) (rd : Nat) (op0 op1 : Value) : Sel Unit := do
  let rs1 ← getOrMaterializeVReg op0
  let rs2 ← getOrMaterializeVReg op1
  push { newInstruction op with rd := rd, rs1 := rs1, rs2 := rs2, comment := comment.toList }

/-- `selectBinaryOp`. -/
def selectBinaryOp (self : Value) (opcode : Llvm.BinaryOpcode) (op0 op1 : Value) : Sel Unit := do
  let rd ← getOrCreateVReg self
  match opcode with
  | .add =>
    match addImmediate? op1 with
    | some val => do
      let rs1 ← getOrCreateVReg op0
      push { newInstruction .addi with
        rd := rd, rs1 := rs1, imm := val.setWidth 32, comment := "add immediate".toList }
    | none => selectRegReg .add "add" rd op0 op1
  | .sub => selectRegReg .sub "sub" rd op0 op1
  | .mul => selectRegReg .mul "mul" rd op0 op1
  | .shl =>
    match shiftAmount? op1 with
    | some shift =>
      if shift = 0 then do
        let rs1 ← getOrMaterializeVReg op0
        push { newInstruction .addi with
          rd := rd, rs1 := rs1, imm := 0, comment := "shl 0 (mov)".toList }
      else if shift = 1 then do
        let src ← getOrMaterializeVReg op0
        push { newInstruction .add with
          rd := rd, rs1 := src, rs2 := src, comment := "shl 1 (add x, x)".toList }
      else if shift.toNat < 32 then do
        let scale : BitVec 32 := 1 <<< shift.toNat
        let scaleReg ← allocateVReg
        push { newInstruction .addi with
          rd := scaleReg, imm := scale, comment := "shl constant factor".toList }
        let rs1 ← getOrMaterializeVReg op0
        push { newInstruction .mul with
          rd := rd, rs1 := rs1, rs2 := scaleReg, comment := "shl via mul".toList }
      else undefined
    | none => selectRegReg .mul "shl fallback mul" rd op0 op1
  | .other _ => selectRegReg .add "" rd op0 op1

/-- `selectCmp`. -/
def selectCmp (op0 op1 : Value) : Sel Unit := do
  let rs1 ← getOrMaterializeVReg op0
  let rs2 ← getOrMaterializeVReg op1
  push { newInstruction .cmp with rs1 := rs1, rs2 := rs2, comment := "cmp".toList }

/-- `selectLoad`. -/
def selectLoad (self ptr : Value) : Sel Unit := do
  let rd ← getOrCreateVReg self
  let rs1 ← getOrCreateVReg ptr
  push { newInstruction .ldr with rd := rd, rs1 := rs1, comment := "ldr".toList }

/-- `selectStore`. -/
def selectStore (value ptr : Value) : Sel Unit := do
  let val ← getOrMaterializeVReg value
  let ptr ← getOrCreateVReg ptr
  push { newInstruction .str with rs1 := ptr, rs2 := val, comment := "str".toList }

/-- The cast case of `selectInstruction`: a register move. -/
def selectCast (self operand : Value) : Sel Unit := do
  let src ← getOrCreateVReg operand
  let dst ← getOrCreateVReg self
  push { newInstruction .addi with rd := dst, rs1 := src, comment := "cast/move".toList }

/-- `CI->isa<ConstantInt>()`. -/
def isConstantInt : Value → Bool
  | .constantInt .. => true
  | _ => false

/-- The constant byte offset of a `getelementptr`. -/
def constantOffset? (dl : DataLayout) (sourceElement : Llvm.Ty) (indices : List Value) :
    Option (BitVec 64) :=
  if indices.all isConstantInt then dl.accumulateConstantOffset sourceElement indices else none

/-- The `getelementptr` case of `selectInstruction`: base plus the last index times the element
size. -/
def selectGEP (dl : DataLayout) (self : Value) (sourceElement : Llvm.Ty) (ptr : Value)
    (indices : List Value) : Sel Unit := do
  let baseReg ← getOrCreateVReg ptr
  let dstReg ← getOrCreateVReg self
  match constantOffset? dl sourceElement indices with
  | some offset =>
    push { newInstruction .addi with
      rd := dstReg, rs1 := baseReg, imm := offset.setWidth 32
      comment := "gep constant offset".toList }
  | none =>
    let elemSize := dl.typeAllocSize sourceElement
    let idxReg ← getOrMaterializeVReg (indices.getLast?.getD ptr)
    if elemSize > 1 then do
      let byteOffsetReg ← allocateVReg
      let elemSizeReg ← allocateVReg
      push { newInstruction .addi with
        rd := elemSizeReg, imm := elemSize.setWidth 32, comment := "elem size".toList }
      push { newInstruction .mul with
        rd := byteOffsetReg, rs1 := idxReg, rs2 := elemSizeReg
        comment := "scale index by elem size".toList }
      push { newInstruction .add with
        rd := dstReg, rs1 := baseReg, rs2 := byteOffsetReg, comment := "gep dynamic offset".toList }
    else
      push { newInstruction .add with
        rd := dstReg, rs1 := baseReg, rs2 := idxReg, comment := "gep dynamic offset".toList }

/-- A read of a system register into the register of a value. -/
def selectS2R (self : Value) (imm : BitVec 32) (comment : String) : Sel Unit := do
  let rd ← getOrCreateVReg self
  push { newInstruction .s2r with rd := rd, imm := imm, comment := comment.toList }

/-- The system register that an assembly text names, `TID.X` where it names none. -/
def asmSysReg (asm : Text) : BitVec 32 :=
  if contains asm "tid.x".toList then SysReg.tidX.val
  else if contains asm "tid.y".toList then SysReg.tidY.val
  else if contains asm "bid.x".toList then SysReg.bidX.val
  else if contains asm "bid.y".toList then SysReg.bidY.val
  else 0

/-- The text after the first space. -/
def asmLabel (asm : Text) : Text := if ' ' ∈ asm then after ' ' asm else []

/-- The instructions that an assembly text stands for. -/
inductive AsmForm where
  | s2r | sync | ssy | exit | ldr | str | unknown
  deriving DecidableEq, Repr

/-- The first mnemonic that is found in a lower-case text, in the order of the tests. -/
def asmForm (asm : Text) : AsmForm :=
  if contains asm "s2r".toList then .s2r
  else if contains asm "sync".toList then .sync
  else if contains asm "ssy".toList then .ssy
  else if contains asm "exit".toList then .exit
  else if contains asm "ldr".toList then .ldr
  else if contains asm "str".toList then .str
  else .unknown

/-- `selectCall` for inline assembly. -/
def selectAsm (self : Value) (asmString : Text) (args : List Value) : Sel Unit :=
  let asm := lower asmString
  match asmForm asm, args with
  | .s2r, _ => selectS2R self (asmSysReg asm) "s2r inline asm"
  | .sync, _ => push { newInstruction .sync with comment := "sync inline asm".toList }
  | .ssy, _ =>
    push { newInstruction .ssy with
      labelTarget := asmLabel asm, comment := "ssy inline asm".toList }
  | .exit, _ => push { newInstruction .exit with comment := "exit inline asm".toList }
  | .ldr, addr :: _ => do
    let rd ← getOrCreateVReg self
    let rs1 ← getOrCreateVReg addr
    push { newInstruction .ldr with rd := rd, rs1 := rs1, comment := "ldr inline asm".toList }
  | .str, data :: addr :: _ => do
    let rs2 ← getOrMaterializeVReg data
    let rs1 ← getOrCreateVReg addr
    push { newInstruction .str with rs1 := rs1, rs2 := rs2, comment := "str inline asm".toList }
  | .ldr, _ | .str, _ => undefined
  | .unknown, _ => pure ()

/-- The dimension that a work-item function is asked for, 0 where it is not a constant. -/
def dimension : List Value → BitVec 32
  | .constantInt _ bits :: _ => (bits.setWidth 64).setWidth 32
  | _ => 0

/-- `get_global_id`. -/
def selectGlobalId (self : Value) (dim : BitVec 32) : Sel Unit := do
  let vTid ← allocateVReg
  let vBid ← allocateVReg
  let vBid2 ← allocateVReg
  let vDst ← getOrCreateVReg self
  push { newInstruction .s2r with
    rd := vTid, imm := (if dim = 0 then SysReg.tidX else .tidY).val
    comment := (if dim = 0 then "s2r TID.X" else "s2r TID.Y").toList }
  push { newInstruction .s2r with
    rd := vBid, imm := (if dim = 0 then SysReg.bidX else .bidY).val
    comment := (if dim = 0 then "s2r BID.X" else "s2r BID.Y").toList }
  if dim = 0 then do
    push { newInstruction .add with
      rd := vBid2, rs1 := vBid, rs2 := vBid, comment := "bid * 2".toList }
    push { newInstruction .add with
      rd := vDst, rs1 := vBid2, rs2 := vTid, comment := "global_id = bid*2 + tid".toList }
  else
    push { newInstruction .add with
      rd := vDst, rs1 := vBid, rs2 := vTid, comment := "global_id = bid + tid".toList }

/-- `name == exact || name.contains(part)`. -/
def calls (name : Text) (exact part : String) : Bool :=
  name = exact.toList || contains name part.toList

/-- The runtime functions. -/
inductive RuntimeForm where
  | s2r (sr : SysReg)
  | sync (comment : String)
  | exit
  | globalId
  | unknown
  deriving DecidableEq, Repr

/-- The first runtime function that a name stands for, in the order of the tests. -/
def runtimeForm (name : Text) (dim : BitVec 32) : RuntimeForm :=
  if calls name "get_thread_id_x" "tid_x" then .s2r .tidX
  else if calls name "get_thread_id_y" "tid_y" then .s2r .tidY
  else if calls name "get_block_id_x" "bid_x" then .s2r .bidX
  else if calls name "get_block_id_y" "bid_y" then .s2r .bidY
  else if calls name "syncthreads" "sync" then .sync "sync"
  else if calls name "gpu_exit" "exit" then .exit
  else if calls name "get_global_id" "global_id" then .globalId
  else if calls name "get_local_id" "local_id" then .s2r (if dim = 0 then .tidX else .tidY)
  else if calls name "get_group_id" "group_id" then .s2r (if dim = 0 then .bidX else .bidY)
  else if calls name "barrier" "barrier" then .sync "sync barrier"
  else .unknown

/-- The comment on a read of a system register. -/
def s2rComment : SysReg → String
  | .tidX => "s2r TID.X"
  | .tidY => "s2r TID.Y"
  | .bidX => "s2r BID.X"
  | .bidY => "s2r BID.Y"

/-- `selectCall` for a runtime function. -/
def selectRuntime (self : Value) (name : Text) (args : List Value) : Sel Unit :=
  match runtimeForm name (dimension args) with
  | .s2r sr => selectS2R self sr.val (s2rComment sr)
  | .sync comment => push { newInstruction .sync with comment := comment.toList }
  | .exit => push { newInstruction .exit with comment := "exit".toList }
  | .globalId => selectGlobalId self (dimension args)
  | .unknown => pure ()

/-- `selectCall`. -/
def selectCall (self : Value) (callee : Llvm.Callee) (args : List Value) : Sel Unit :=
  match callee with
  | .inlineAsm asmString => selectAsm self asmString args
  | .function name => selectRuntime self name args
  | .indirect _ => pure ()

/-- Whether every user of an instruction is a conditional branch. -/
def branchOnly (f : Llvm.Function) (id : Nat) : Bool :=
  f.blocks.all fun bb =>
    bb.body.all (fun i => .instruction id ∉ i.operation.operands) &&
      (bb.terminator.isCondBr || .instruction id ∉ bb.terminator.operands)

/-- `selectInstruction` for the instructions that do not end a block. -/
def selectInstruction (dl : DataLayout) (f : Llvm.Function) (i : Llvm.Instruction) : Sel Unit :=
  let self : Value := .instruction i.id
  match i.operation with
  | .binary opcode op0 op1 => selectBinaryOp self opcode op0 op1
  | .icmp _ op0 op1 => if branchOnly f i.id then pure () else selectCmp op0 op1
  | .load _ ptr => selectLoad self ptr
  | .store _ value ptr => selectStore value ptr
  | .call callee args => selectCall self callee args
  | .alloca _ => do
    let _ ← getOrCreateVReg self
  | .cast src => selectCast self src
  | .getelementptr sourceElement ptr indices => selectGEP dl self sourceElement ptr indices
  | .phi _ | .select .. | .other _ => pure ()

/-- The condition code of a predicate; signed and unsigned ones are not told apart. -/
def branchCond : Llvm.Predicate → BitVec 8
  | .eq => BranchCond.EQ
  | .ne => BranchCond.NE
  | .slt | .ult => BranchCond.LT
  | .sle | .ule => BranchCond.LE
  | .sgt | .ugt => BranchCond.GT
  | .sge | .uge => BranchCond.GE

/-- `dyn_cast<ICmpInst>`. -/
def icmp? (f : Llvm.Function) : Value → Option (Llvm.Predicate × Value × Value)
  | .instruction id =>
    match (f.blocks.flatMap Llvm.BasicBlock.body).find? (·.id = id) with
    | some { operation := .icmp predicate op0 op1, .. } => some (predicate, op0, op1)
    | _ => none
  | _ => none

/-- What an instruction is emitted for. -/
inductive Origin where
  | argument (index : Nat)
  | instruction (id : Nat)
  | terminator
  -- the edge of a terminator to a block
  | edge (dest : Nat)
  deriving DecidableEq, Repr

/-- An instruction over virtual registers, with what it is emitted for. -/
structure Emitted where
  origin : Origin
  mi : Instruction Nat
  deriving DecidableEq, Repr

/-- The name of a block, `bb.` and its index if it has none. -/
def blockNames (f : Llvm.Function) (b : Nat) : Text :=
  if f.blockName b = [] then "bb.".toList ++ decimalNat b else f.blockName b

/-- A branch to a block. -/
def branchTo (f : Llvm.Function) (cond : BitVec 8) (dest : Nat) (comment : String) : Emitted where
  origin := .edge dest
  mi := { newInstruction .br with
    cond := cond, labelTarget := blockNames f dest, comment := comment.toList }

/-- Compares the operands of the condition, if it is a comparison, and gives the condition code. -/
def selectCondition (f : Llvm.Function) (condVal : Value) : Emission Selector Emitted (BitVec 8) :=
  match icmp? f condVal with
  | some (predicate, op0, op1) => do
    mapItems (Emitted.mk .terminator) (selectCmp op0 op1)
    pure (branchCond predicate)
  | none => pure BranchCond.NE

/-- `selectBranch` for a conditional branch. -/
def selectCondBranch (f : Llvm.Function) (condVal : Value) (ifTrue ifFalse : Nat) :
    Emission Selector Emitted Unit := do
  let cond ← selectCondition f condVal
  push (branchTo f cond ifTrue "branch taken")
  push (branchTo f BranchCond.ALWAYS ifFalse "branch fallthrough/else")

/-- `selectInstruction` for the instructions that end a block. -/
def selectTerminator (f : Llvm.Function) : Llvm.Terminator → Emission Selector Emitted Unit
  | .br dest => push (branchTo f BranchCond.ALWAYS dest "unconditional branch")
  | .condBr condVal ifTrue ifFalse => selectCondBranch f condVal ifTrue ifFalse
  | .ret _ =>
    push { origin := .terminator
           mi := { newInstruction .exit with comment := "return -> EXIT".toList } }
  | .switch .. | .unreachable | .other .. => pure ()

/-- The instructions of a block that do not end it. -/
def selectBody (dl : DataLayout) (f : Llvm.Function) :
    List Llvm.Instruction → Emission Selector Emitted Unit
  | [] => pure ()
  | i :: body => do
    mapItems (Emitted.mk (.instruction i.id)) (selectInstruction dl f i)
    selectBody dl f body

/-- `selectBasicBlock`. -/
def selectBasicBlock (dl : DataLayout) (f : Llvm.Function) (bb : Llvm.BasicBlock) :
    Emission Selector Emitted Unit := do
  selectBody dl f bb.body
  selectTerminator f bb.terminator

/-- Loads the kernel argument `argIdx` from the kernel argument memory. -/
def loadArgument (argIdx : Nat) (arg : Llvm.Argument) : Sel Unit := do
  let argReg ← getOrCreateVReg (.argument argIdx)
  let addrReg ← allocateVReg
  push { newInstruction .addi with
    rd := addrReg, imm := BitVec.ofNat 32 (argIdx * 8)
    comment := "kernarg offset for arg ".toList ++ decimalNat argIdx }
  push { newInstruction .ldr with
    rd := argReg, rs1 := addrReg, comment := "load kernarg ".toList ++ arg.name }

/-- The prologue, from the argument `argIdx` on. -/
def prologue (argIdx : Nat) : List Llvm.Argument → Emission Selector Emitted Unit
  | [] => pure ()
  | arg :: args => do
    mapItems (Emitted.mk (.argument argIdx)) (loadArgument argIdx arg)
    prologue (argIdx + 1) args

/-- The code of the block `b`. -/
def selectBlock (dl : DataLayout) (f : Llvm.Function) (b : Nat) (bb : Llvm.BasicBlock) :
    Emission Selector Emitted Unit := do
  if b = 0 then prologue 0 f.args
  selectBasicBlock dl f bb

/-- A selected block before its registers are narrowed. -/
structure SelectedBlock where
  name : Text
  items : List Emitted

/-- The code of the blocks from the block `b` on. -/
def selectBlocks (dl : DataLayout) (f : Llvm.Function) (b : Nat) (st : Selector) :
    List Llvm.BasicBlock → Option (List SelectedBlock × Selector)
  | [] => some ([], st)
  | bb :: bbs => do
    let ((), items, st) ← selectBlock dl f b bb st
    let (code, st) ← selectBlocks dl f (b + 1) st bbs
    return ({ name := blockNames f b, items := items } :: code, st)

/-- The selected blocks and the registers of the values. -/
def selectFunction (dl : DataLayout) (f : Llvm.Function) :
    Option (List SelectedBlock × Selector) :=
  selectBlocks dl f 0 Selector.start f.blocks

/-- The conversion of `mi.rd = reg` from a virtual register to a register field. -/
def narrow (reg : Nat) : RegField := BitVec.ofNat 8 reg

/-- The code of a selected block. -/
def SelectedBlock.code (sb : SelectedBlock) : BasicBlockCode where
  name := sb.name
  instructions := sb.items.map fun e => e.mi.mapRegs narrow

/-- `selectInstructions`. -/
def selectInstructions (dl : DataLayout) (f : Llvm.Function) : Option (List BasicBlockCode) := do
  let (code, _) ← selectFunction dl f
  return code.map SelectedBlock.code

end FpgaGpu

import FpgaGpu.Isa.Semantics
import FpgaGpu.Isel.Selector

/-!
# What the handlers of the selector do

Every handler is a fixed sequence of steps: it asks for the registers of its result and of its
operands, takes fresh registers, and pushes instructions over the registers it has. What the
selector does is proved of these steps, once for each kind of step.
-/

namespace FpgaGpu

open Llvm (Value)
open Emission (push undefined)

/-- One step of a handler. The instruction of `emit` names a register by its position among those
the handler has, from 1 on; the position 0 is R0. -/
inductive PlanStep where
  | result
  | use (val : Value) (materialize : Bool)
  | fresh
  | emit (mi : Instruction Nat)

/-- The register of an operand. -/
def lookup (val : Value) (materialize : Bool) : Sel Nat :=
  if materialize then getOrMaterializeVReg val else getOrCreateVReg val

/-- The register at a position. -/
def regAt (regs : List Nat) : Nat → Nat
  | 0 => 0
  | k + 1 => regs.getD k 0

/-- Takes the steps of a handler for the value `self` that has the registers `regs`. -/
def runSteps (self : Value) (regs : List Nat) : List PlanStep → Sel Unit
  | [] => pure ()
  | .result :: steps => do
    let r ← getOrCreateVReg self
    runSteps self (regs ++ [r]) steps
  | .use val materialize :: steps => do
    let r ← lookup val materialize
    runSteps self (regs ++ [r]) steps
  | .fresh :: steps => do
    let r ← allocateVReg
    runSteps self (regs ++ [r]) steps
  | .emit mi :: steps => do
    push (mi.mapRegs (regAt regs))
    runSteps self regs steps

/-- What a register was obtained for. -/
inductive Slot where
  | result | use | fresh
  deriving DecidableEq

/-- The slot at a position. -/
def slotAt (slots : List Slot) : Nat → Option Slot
  | 0 => none
  | k + 1 => slots[k]?

lemma mem_of_slotAt {slots : List Slot} {s : Slot} {k : Nat} (h : slotAt slots k = some s) :
    s ∈ slots := by
  cases k with
  | zero => cases h
  | succ k => exact List.mem_of_getElem? h

/-- An instruction reads R0, operands and fresh registers, writes the result or a fresh register,
and does not branch. -/
def emits (slots : List Slot) (mi : Instruction Nat) : Bool :=
  mi.reads.all (fun k => k = 0 || slotAt slots k = some .use || slotAt slots k = some .fresh) &&
    mi.writes.all (fun k => slotAt slots k = some .result || slotAt slots k = some .fresh) &&
    mi.op ≠ .br

/-- Every instruction of the steps is as `emits` says. -/
def wellFormed (slots : List Slot) : List PlanStep → Bool
  | [] => true
  | .result :: steps => wellFormed (slots ++ [.result]) steps
  | .use .. :: steps => wellFormed (slots ++ [.use]) steps
  | .fresh :: steps => wellFormed (slots ++ [.fresh]) steps
  | .emit mi :: steps => emits slots mi && wellFormed slots steps

/-- Some instruction of the steps writes the result. -/
def writesResult (slots : List Slot) : List PlanStep → Bool
  | [] => false
  | .result :: steps => writesResult (slots ++ [.result]) steps
  | .use .. :: steps => writesResult (slots ++ [.use]) steps
  | .fresh :: steps => writesResult (slots ++ [.fresh]) steps
  | .emit mi :: steps =>
    mi.writes.any (fun k => slotAt slots k = some .result) || writesResult slots steps

/-- The positions that the instructions of the steps read. -/
def positionsRead : List PlanStep → List Nat
  | [] => []
  | .emit mi :: steps => mi.reads ++ positionsRead steps
  | _ :: steps => positionsRead steps

/-- Every operand, the first of them at the position `n + 1`, is read by an instruction after it. -/
def readsUses (n : Nat) : List PlanStep → Bool
  | [] => true
  | .emit _ :: steps => readsUses n steps
  | .use .. :: steps => (positionsRead steps).contains (n + 1) && readsUses (n + 1) steps
  | .result :: steps | .fresh :: steps => readsUses (n + 1) steps

/-- The operands that the steps ask for, in order, and whether a constant is loaded. -/
def stepUses : List PlanStep → List (Value × Bool)
  | [] => []
  | .use val materialize :: steps => (val, materialize) :: stepUses steps
  | _ :: steps => stepUses steps

/-- Some instruction of the steps is `EXIT`. -/
def stepsExit : List PlanStep → Bool
  | [] => false
  | .emit mi :: steps => mi.op = .exit || stepsExit steps
  | _ :: steps => stepsExit steps

/-! ## The operands of each instruction -/

/-- The operands that the selector asks for when it lowers an instruction, in order, and whether it
loads a constant that has no register. -/
def uses (dl : DataLayout) (f : Llvm.Function) (i : Llvm.Instruction) : List (Value × Bool) :=
  match i.operation with
  | .binary .add op0 op1 =>
    if (addImmediate? op1).isSome then [(op0, false)] else [(op0, true), (op1, true)]
  | .binary .shl op0 op1 =>
    if (shiftAmount? op1).isSome then [(op0, true)] else [(op0, true), (op1, true)]
  | .binary _ op0 op1 => [(op0, true), (op1, true)]
  | .icmp _ op0 op1 => if branchOnly f i.id then [] else [(op0, true), (op1, true)]
  | .load _ ptr => [(ptr, false)]
  | .store _ value ptr => [(value, true), (ptr, false)]
  | .call (.inlineAsm asmString) args =>
    match asmForm (lower asmString), args with
    | .ldr, addr :: _ => [(addr, false)]
    | .str, data :: addr :: _ => [(data, true), (addr, false)]
    | _, _ => []
  | .cast src => [(src, false)]
  | .getelementptr sourceElement ptr indices =>
    if (constantOffset? dl sourceElement indices).isSome then [(ptr, false)]
    else [(ptr, false), (indices.getLast?.getD ptr, true)]
  | _ => []

/-- Whether the lowered instruction writes the register of its result. -/
def produces : Llvm.Operation → Bool
  | .binary .. | .load .. | .cast _ | .getelementptr .. => true
  | .call (.inlineAsm asmString) _ =>
    match asmForm (lower asmString) with
    | .s2r | .ldr => true
    | _ => false
  | .call (.function name) args =>
    match runtimeForm name (dimension args) with
    | .s2r _ | .globalId => true
    | _ => false
  | _ => false

/-- Whether the lowered instruction is `EXIT`. -/
def exits : Llvm.Operation → Bool
  | .call (.inlineAsm asmString) _ => asmForm (lower asmString) = .exit
  | .call (.function name) args => runtimeForm name (dimension args) = .exit
  | _ => false

/-- Steps that do what a handler is to do. -/
structure Lowers (us : List (Value × Bool)) (produces exits : Bool)
    (steps : List PlanStep) : Prop where
  uses : stepUses steps = us
  wellFormed : wellFormed [] steps = true
  writes : writesResult [] steps = produces
  reads : readsUses 0 steps = true
  exits : stepsExit steps = exits

/-! ## The steps of each handler -/

/-- A register-register operation. -/
def regRegSteps (op : Opcode) (comment : String) (op0 op1 : Value) : List PlanStep :=
  [.result, .use op0 true, .use op1 true,
    .emit { newInstruction op with rd := 1, rs1 := 2, rs2 := 3, comment := comment.toList }]

/-- The add-immediate form. -/
def addImmediateSteps (op0 : Value) (val : BitVec 64) : List PlanStep :=
  [.result, .use op0 false, .emit { newInstruction .addi with
    rd := 1, rs1 := 2, imm := val.setWidth 32, comment := "add immediate".toList }]

/-- A shift by a constant below 32. -/
def shiftSteps (op0 : Value) (shift : BitVec 64) : List PlanStep :=
  if shift = 0 then
    [.result, .use op0 true, .emit { newInstruction .addi with
      rd := 1, rs1 := 2, imm := 0, comment := "shl 0 (mov)".toList }]
  else if shift = 1 then
    [.result, .use op0 true, .emit { newInstruction .add with
      rd := 1, rs1 := 2, rs2 := 2, comment := "shl 1 (add x, x)".toList }]
  else
    [.result, .fresh, .emit { newInstruction .addi with
        rd := 2, imm := (1 : BitVec 32) <<< shift.toNat, comment := "shl constant factor".toList },
      .use op0 true, .emit { newInstruction .mul with
        rd := 1, rs1 := 3, rs2 := 2, comment := "shl via mul".toList }]

/-- A `getelementptr` with a constant byte offset. -/
def offsetSteps (ptr : Value) (offset : BitVec 64) : List PlanStep :=
  [.use ptr false, .result, .emit { newInstruction .addi with
    rd := 2, rs1 := 1, imm := offset.setWidth 32, comment := "gep constant offset".toList }]

/-- A `getelementptr` with an index in a register. -/
def indexSteps (ptr index : Value) (elemSize : BitVec 64) : List PlanStep :=
  [.use ptr false, .result, .use index true] ++
    if elemSize > 1 then
      [.fresh, .fresh,
        .emit { newInstruction .addi with
          rd := 5, imm := elemSize.setWidth 32, comment := "elem size".toList },
        .emit { newInstruction .mul with
          rd := 4, rs1 := 3, rs2 := 5, comment := "scale index by elem size".toList },
        .emit { newInstruction .add with
          rd := 2, rs1 := 1, rs2 := 4, comment := "gep dynamic offset".toList }]
    else
      [.emit { newInstruction .add with
        rd := 2, rs1 := 1, rs2 := 3, comment := "gep dynamic offset".toList }]

/-- A load. -/
def loadSteps (ptr : Value) : List PlanStep :=
  [.result, .use ptr false,
    .emit { newInstruction .ldr with rd := 1, rs1 := 2, comment := "ldr".toList }]

/-- A store. -/
def storeSteps (value ptr : Value) : List PlanStep :=
  [.use value true, .use ptr false,
    .emit { newInstruction .str with rs1 := 2, rs2 := 1, comment := "str".toList }]

/-- A kernel argument. -/
def argumentSteps (argIdx : Nat) (arg : Llvm.Argument) : List PlanStep :=
  [.result, .fresh, .emit { newInstruction .addi with
      rd := 2, imm := BitVec.ofNat 32 (argIdx * 8)
      comment := "kernarg offset for arg ".toList ++ decimalNat argIdx },
    .emit { newInstruction .ldr with
      rd := 1, rs1 := 2, comment := "load kernarg ".toList ++ arg.name }]

section Forms

variable {self op0 op1 : Value}

lemma selectBinaryOp_add (e : addImmediate? op1 = none) :
    selectBinaryOp self .add op0 op1 = runSteps self [] (regRegSteps .add "add" op0 op1) := by
  unfold selectBinaryOp
  simp only [e]
  rfl

lemma selectBinaryOp_addImmediate {val : BitVec 64} (e : addImmediate? op1 = some val) :
    selectBinaryOp self .add op0 op1 = runSteps self [] (addImmediateSteps op0 val) := by
  unfold selectBinaryOp
  simp only [e]
  rfl

lemma selectBinaryOp_shift {shift : BitVec 64} (e : shiftAmount? op1 = some shift)
    (small : shift.toNat < 32) :
    selectBinaryOp self .shl op0 op1 = runSteps self [] (shiftSteps op0 shift) := by
  unfold selectBinaryOp shiftSteps
  simp only [e]
  by_cases zero : shift = 0
  · simp only [zero, if_true]
    rfl
  by_cases one : shift = 1
  · simp only [one]
    rfl
  · simp only [zero, one, small, if_true, if_false]
    rfl

/-- A shift that C++ does not define. -/
lemma selectBinaryOp_shift_undefined {shift : BitVec 64} (e : shiftAmount? op1 = some shift)
    (large : ¬ shift.toNat < 32) : selectBinaryOp self .shl op0 op1 = undefined := by
  have zero : shift ≠ 0 := by
    rintro rfl
    exact large (by decide)
  have one : shift ≠ 1 := by
    rintro rfl
    exact large (by decide)
  unfold selectBinaryOp
  simp only [e, zero, one, large, if_false]
  exact Emission.bind_undefined _

lemma selectGEP_offset {dl : DataLayout} {sourceElement : Llvm.Ty} {ptr : Value}
    {indices : List Value} {offset : BitVec 64}
    (e : constantOffset? dl sourceElement indices = some offset) :
    selectGEP dl self sourceElement ptr indices = runSteps self [] (offsetSteps ptr offset) := by
  unfold selectGEP
  simp only [e]
  rfl

lemma selectGEP_index {dl : DataLayout} {sourceElement : Llvm.Ty} {ptr : Value}
    {indices : List Value} (e : constantOffset? dl sourceElement indices = none) :
    selectGEP dl self sourceElement ptr indices =
      runSteps self [] (indexSteps ptr (indices.getLast?.getD ptr)
        (dl.typeAllocSize sourceElement)) := by
  unfold selectGEP indexSteps
  simp only [e]
  by_cases large : dl.typeAllocSize sourceElement > 1
  · simp only [large, if_true]
    rfl
  · simp only [large, if_false]
    rfl

end Forms

/-! ## The steps of an instruction -/

/-- A read of a system register. -/
def s2rSteps (imm : BitVec 32) (comment : String) : List PlanStep :=
  [.result, .emit { newInstruction .s2r with rd := 1, imm := imm, comment := comment.toList }]

/-- An instruction without operands. -/
def plainSteps (op : Opcode) (comment : String) : List PlanStep :=
  [.emit { newInstruction op with comment := comment.toList }]

/-- A comparison. -/
def cmpSteps (op0 op1 : Value) : List PlanStep :=
  [.use op0 true, .use op1 true,
    .emit { newInstruction .cmp with rs1 := 1, rs2 := 2, comment := "cmp".toList }]

/-- A cast. -/
def castSteps (src : Value) : List PlanStep :=
  [.use src false, .result,
    .emit { newInstruction .addi with rd := 2, rs1 := 1, comment := "cast/move".toList }]

/-- A binary operator. -/
def binarySteps (opcode : Llvm.BinaryOpcode) (op0 op1 : Value) : List PlanStep :=
  match opcode with
  | .add =>
    match addImmediate? op1 with
    | some val => addImmediateSteps op0 val
    | none => regRegSteps .add "add" op0 op1
  | .sub => regRegSteps .sub "sub" op0 op1
  | .mul => regRegSteps .mul "mul" op0 op1
  | .shl =>
    match shiftAmount? op1 with
    | some shift => shiftSteps op0 shift
    | none => regRegSteps .mul "shl fallback mul" op0 op1
  | .other _ => regRegSteps .add "" op0 op1

/-- A `getelementptr`. -/
def gepSteps (dl : DataLayout) (sourceElement : Llvm.Ty) (ptr : Value) (indices : List Value) :
    List PlanStep :=
  match constantOffset? dl sourceElement indices with
  | some offset => offsetSteps ptr offset
  | none => indexSteps ptr (indices.getLast?.getD ptr) (dl.typeAllocSize sourceElement)

/-- An inline assembly text. -/
def asmSteps (asmString : Text) (args : List Value) : List PlanStep :=
  match asmForm (lower asmString), args with
  | .s2r, _ => s2rSteps (asmSysReg (lower asmString)) "s2r inline asm"
  | .sync, _ => plainSteps .sync "sync inline asm"
  | .ssy, _ =>
    [.emit { newInstruction .ssy with
      labelTarget := asmLabel (lower asmString), comment := "ssy inline asm".toList }]
  | .exit, _ => plainSteps .exit "exit inline asm"
  | .ldr, addr :: _ =>
    [.result, .use addr false,
      .emit { newInstruction .ldr with rd := 1, rs1 := 2, comment := "ldr inline asm".toList }]
  | .str, data :: addr :: _ =>
    [.use data true, .use addr false,
      .emit { newInstruction .str with rs1 := 2, rs2 := 1, comment := "str inline asm".toList }]
  | .ldr, _ | .str, _ | .unknown, _ => []

/-- `get_global_id`. -/
def globalIdSteps (dim : BitVec 32) : List PlanStep :=
  [.fresh, .fresh, .fresh, .result] ++
    if dim = 0 then
      [.emit { newInstruction .s2r with
          rd := 1, imm := SysReg.tidX.val, comment := "s2r TID.X".toList },
        .emit { newInstruction .s2r with
          rd := 2, imm := SysReg.bidX.val, comment := "s2r BID.X".toList },
        .emit { newInstruction .add with
          rd := 3, rs1 := 2, rs2 := 2, comment := "bid * 2".toList },
        .emit { newInstruction .add with
          rd := 4, rs1 := 3, rs2 := 1, comment := "global_id = bid*2 + tid".toList }]
    else
      [.emit { newInstruction .s2r with
          rd := 1, imm := SysReg.tidY.val, comment := "s2r TID.Y".toList },
        .emit { newInstruction .s2r with
          rd := 2, imm := SysReg.bidY.val, comment := "s2r BID.Y".toList },
        .emit { newInstruction .add with
          rd := 4, rs1 := 2, rs2 := 1, comment := "global_id = bid + tid".toList }]

/-- A runtime function. -/
def runtimeSteps (name : Text) (args : List Value) : List PlanStep :=
  match runtimeForm name (dimension args) with
  | .s2r sr => s2rSteps sr.val (s2rComment sr)
  | .sync comment => plainSteps .sync comment
  | .exit => plainSteps .exit "exit"
  | .globalId => globalIdSteps (dimension args)
  | .unknown => []

/-- An instruction that does not end its block. -/
def instructionSteps (dl : DataLayout) (f : Llvm.Function) (i : Llvm.Instruction) : List PlanStep :=
  match i.operation with
  | .binary opcode op0 op1 => binarySteps opcode op0 op1
  | .icmp _ op0 op1 => if branchOnly f i.id then [] else cmpSteps op0 op1
  | .load _ ptr => loadSteps ptr
  | .store _ value ptr => storeSteps value ptr
  | .call (.inlineAsm asmString) args => asmSteps asmString args
  | .call (.function name) args => runtimeSteps name args
  | .call (.indirect _) _ => []
  | .alloca _ => [.result]
  | .cast src => castSteps src
  | .getelementptr sourceElement ptr indices => gepSteps dl sourceElement ptr indices
  | .phi _ | .select .. | .other _ => []

/-- A handler without a result, or with these steps, which lower what it should. -/
def PlannedBy (self : Value) (us : List (Value × Bool)) (produces exits : Bool)
    (steps : List PlanStep) (x : Sel Unit) : Prop :=
  x = undefined ∨ (x = runSteps self [] steps ∧ Lowers us produces exits steps)

lemma lowers_regReg {op : Opcode} (h : op = .add ∨ op = .sub ∨ op = .mul) (comment : String)
    (op0 op1 : Value) :
    Lowers [(op0, true), (op1, true)] true false (regRegSteps op comment op0 op1) := by
  obtain rfl | rfl | rfl := h <;> exact ⟨rfl, rfl, rfl, rfl, rfl⟩

lemma lowers_shift (op0 : Value) (shift : BitVec 64) :
    Lowers [(op0, true)] true false (shiftSteps op0 shift) := by
  unfold shiftSteps
  split
  · exact ⟨rfl, rfl, rfl, rfl, rfl⟩
  · split <;> exact ⟨rfl, rfl, rfl, rfl, rfl⟩

lemma lowers_index (ptr index : Value) (elemSize : BitVec 64) :
    Lowers [(ptr, false), (index, true)] true false (indexSteps ptr index elemSize) := by
  unfold indexSteps
  split <;> exact ⟨rfl, rfl, rfl, rfl, rfl⟩

lemma lowers_globalId (dim : BitVec 32) : Lowers [] true false (globalIdSteps dim) := by
  unfold globalIdSteps
  split <;> exact ⟨rfl, rfl, rfl, rfl, rfl⟩

/-- A handler that pushes nothing. -/
lemma planned_nothing (self : Value) : PlannedBy self [] false false [] (pure ()) :=
  .inr ⟨rfl, rfl, rfl, rfl, rfl, rfl⟩

lemma selectBinaryOp_planned (self op0 op1 : Value) (opcode : Llvm.BinaryOpcode) (id : Nat)
    (dl : DataLayout) (f : Llvm.Function) :
    PlannedBy self (uses dl f ⟨id, .binary opcode op0 op1⟩) true false (binarySteps opcode op0 op1)
      (selectBinaryOp self opcode op0 op1) := by
  unfold binarySteps uses
  cases opcode with
  | add =>
    dsimp only
    cases e : addImmediate? op1 with
    | none => exact .inr ⟨selectBinaryOp_add e, lowers_regReg (.inl rfl) ..⟩
    | some val => exact .inr ⟨selectBinaryOp_addImmediate e, rfl, rfl, rfl, rfl, rfl⟩
  | sub => exact .inr ⟨rfl, lowers_regReg (.inr (.inl rfl)) "sub" op0 op1⟩
  | mul => exact .inr ⟨rfl, lowers_regReg (.inr (.inr rfl)) "mul" op0 op1⟩
  | other => exact .inr ⟨rfl, lowers_regReg (.inl rfl) "" op0 op1⟩
  | shl =>
    dsimp only
    cases e : shiftAmount? op1 with
    | none =>
      unfold selectBinaryOp
      simp only [e]
      exact .inr ⟨rfl, lowers_regReg (.inr (.inr rfl)) "shl fallback mul" op0 op1⟩
    | some shift =>
      by_cases small : shift.toNat < 32
      · exact .inr ⟨selectBinaryOp_shift e small, lowers_shift ..⟩
      · exact .inl (selectBinaryOp_shift_undefined e small)

lemma selectS2R_planned (self : Value) (imm : BitVec 32) (comment : String) :
    PlannedBy self [] true false (s2rSteps imm comment) (selectS2R self imm comment) :=
  .inr ⟨rfl, rfl, rfl, rfl, rfl, rfl⟩

lemma selectGEP_planned (self ptr : Value) (sourceElement : Llvm.Ty)
    (indices : List Value) (id : Nat) (dl : DataLayout) (f : Llvm.Function) :
    PlannedBy self (uses dl f ⟨id, .getelementptr sourceElement ptr indices⟩) true false
      (gepSteps dl sourceElement ptr indices) (selectGEP dl self sourceElement ptr indices) := by
  unfold gepSteps uses
  dsimp only
  cases e : constantOffset? dl sourceElement indices with
  | some offset => exact .inr ⟨selectGEP_offset e, rfl, rfl, rfl, rfl, rfl⟩
  | none => exact .inr ⟨selectGEP_index e, lowers_index ..⟩

lemma selectAsm_planned (self : Value) (asmString : Text) (args : List Value) (id : Nat)
    (dl : DataLayout) (f : Llvm.Function) :
    PlannedBy self (uses dl f ⟨id, .call (.inlineAsm asmString) args⟩)
      (produces (.call (.inlineAsm asmString) args)) (exits (.call (.inlineAsm asmString) args))
      (asmSteps asmString args) (selectAsm self asmString args) := by
  unfold selectAsm uses produces exits asmSteps
  dsimp only
  cases asmForm (lower asmString) with
  | s2r => exact selectS2R_planned ..
  | sync | ssy | exit => exact .inr ⟨rfl, rfl, rfl, rfl, rfl, rfl⟩
  | ldr =>
    match args with
    | [] => exact .inl rfl
    | addr :: _ => exact .inr ⟨rfl, rfl, rfl, rfl, rfl, rfl⟩
  | str =>
    match args with
    | [] | [_] => exact .inl rfl
    | data :: addr :: _ => exact .inr ⟨rfl, rfl, rfl, rfl, rfl, rfl⟩
  | unknown => exact planned_nothing self

lemma selectGlobalId_planned (self : Value) (dim : BitVec 32) :
    PlannedBy self [] true false (globalIdSteps dim) (selectGlobalId self dim) := by
  refine .inr ⟨?_, lowers_globalId dim⟩
  unfold selectGlobalId globalIdSteps
  by_cases zero : dim = 0
  · simp only [zero, if_true]
    rfl
  · simp only [zero, if_false]
    rfl

lemma selectRuntime_planned (self : Value) (name : Text) (args : List Value) :
    PlannedBy self [] (produces (.call (.function name) args)) (exits (.call (.function name) args))
      (runtimeSteps name args) (selectRuntime self name args) := by
  unfold selectRuntime produces exits runtimeSteps
  dsimp only
  cases runtimeForm name (dimension args) with
  | s2r sr => exact selectS2R_planned ..
  | sync comment => exact .inr ⟨rfl, rfl, rfl, rfl, rfl, rfl⟩
  | exit => exact .inr ⟨rfl, rfl, rfl, rfl, rfl, rfl⟩
  | globalId => exact selectGlobalId_planned ..
  | unknown => exact planned_nothing self

/-- Every handler follows its steps. -/
theorem selectInstruction_plannedBy (dl : DataLayout) (f : Llvm.Function) (i : Llvm.Instruction) :
    PlannedBy (.instruction i.id) (uses dl f i) (produces i.operation) (exits i.operation)
      (instructionSteps dl f i) (selectInstruction dl f i) := by
  obtain ⟨id, operation⟩ := i
  cases operation with
  | binary opcode op0 op1 => exact selectBinaryOp_planned ..
  | icmp predicate op0 op1 =>
    unfold selectInstruction uses instructionSteps
    dsimp only
    split
    · exact planned_nothing _
    · exact .inr ⟨rfl, rfl, rfl, rfl, rfl, rfl⟩
  | call callee args =>
    cases callee with
    | inlineAsm asmString => exact selectAsm_planned ..
    | function name => exact selectRuntime_planned ..
    | indirect operand => exact planned_nothing _
  | getelementptr sourceElement ptr indices => exact selectGEP_planned ..
  | load | store | alloca | cast => exact .inr ⟨rfl, rfl, rfl, rfl, rfl, rfl⟩
  | phi | select | other => exact planned_nothing _

/-- An instruction that is selected runs its steps. -/
lemma selectInstruction_lowers {dl : DataLayout} {f : Llvm.Function} {i : Llvm.Instruction}
    {st : Selector} {r : Unit × List (Instruction Nat) × Selector}
    (h : selectInstruction dl f i st = some r) :
    runSteps (.instruction i.id) [] (instructionSteps dl f i) st = some r ∧
      Lowers (uses dl f i) (produces i.operation) (exits i.operation)
        (instructionSteps dl f i) := by
  obtain none | ⟨e, lowers⟩ := selectInstruction_plannedBy dl f i
  · rw [none] at h
    cases h
  · exact ⟨e ▸ h, lowers⟩

end FpgaGpu

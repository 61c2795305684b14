import FpgaGpu.Ir.Semantics
import FpgaGpu.Isel.Evaluation

/-!
# Kernels without branches

The functions of one block whose instructions the selector lowers to arithmetic, loads and stores,
and what the code that it selects for them computes.
-/

namespace FpgaGpu

open Llvm (Value)

/-! ## Kernels -/

/-- `accumulateConstantOffset` for one constant index: the sign-extended index times the element
size. -/
def DataLayout.Lawful (dl : DataLayout) : Prop :=
  ∀ (ty : Llvm.Ty) (w : Nat) (bits : BitVec w),
    dl.accumulateConstantOffset ty [.constantInt w bits] =
      some (bits.signExtend 64 * dl.typeAllocSize ty)

/-- One of `n` arguments, or an instruction before. -/
def IsOperand (n : Nat) (defined : List Nat) : Value → Prop
  | .argument index => index < n
  | .instruction id => id ∈ defined
  | _ => False

/-- A `ConstantInt` in the range of an immediate. -/
def SmallConstant : Value → Prop
  | .constantInt _ bits => -8192 ≤ bits.toInt ∧ bits.toInt ≤ 8191
  | _ => False

/-- An operand of type `i32`. -/
def IsWord (n : Nat) (defined : List Nat) (v : Value) : Prop :=
  IsOperand n defined v ∨ (∃ bits : BitVec 32, v = .constantInt 32 bits) ∧ SmallConstant v

/-- The instructions of a kernel, after the instructions `defined` that have a result. -/
inductive KernelOperation (dl : DataLayout) (n : Nat) (defined : List Nat) : Llvm.Operation → Prop
  | arithmetic {opcode op0 op1} (op : opcode = .add ∨ opcode = .sub ∨ opcode = .mul)
    (word0 : IsWord n defined op0) (word1 : IsWord n defined op1)
    (notBoth : ¬ (isConstantInt op0 = true ∧ isConstantInt op1 = true)) :
    KernelOperation dl n defined (.binary opcode op0 op1)
  | shl {op0} {bits : BitVec 32} (operand : IsOperand n defined op0) (small : bits.toNat ≤ 12) :
    KernelOperation dl n defined (.binary .shl op0 (.constantInt 32 bits))
  | offset {sourceElement ptr w} {bits : BitVec w} (operand : IsOperand n defined ptr)
    (index : SmallConstant (.constantInt w bits))
    (offset : -8192 ≤ (bits.signExtend 64 * dl.typeAllocSize sourceElement).toInt ∧
      (bits.signExtend 64 * dl.typeAllocSize sourceElement).toInt ≤ 8191) :
    KernelOperation dl n defined (.getelementptr sourceElement ptr [.constantInt w bits])
  | index {sourceElement ptr index} (operand : IsOperand n defined ptr)
    (word : IsOperand n defined index)
    (size : 1 ≤ (dl.typeAllocSize sourceElement).toNat ∧
      (dl.typeAllocSize sourceElement).toNat ≤ 8191) :
    KernelOperation dl n defined (.getelementptr sourceElement ptr [index])
  | load {ptr} (operand : IsOperand n defined ptr) :
    KernelOperation dl n defined (.load (.int 32) ptr)
  | store {value ptr} (word : IsWord n defined value) (operand : IsOperand n defined ptr) :
    KernelOperation dl n defined (.store (.int 32) value ptr)

/-- The results after an instruction. -/
def definedAfter (i : Llvm.Instruction) (defined : List Nat) : List Nat :=
  if produces i.operation then i.id :: defined else defined

/-- The instructions of a kernel in order. -/
inductive KernelBody (dl : DataLayout) (n : Nat) : List Nat → List Llvm.Instruction → Prop
  | nil {defined} : KernelBody dl n defined []
  | cons {defined i body} (operation : KernelOperation dl n defined i.operation)
      (new : i.id ∉ defined)
    (rest : KernelBody dl n (definedAfter i defined) body) : KernelBody dl n defined (i :: body)

/-- A kernel: one block of such instructions that returns. -/
def Kernel (dl : DataLayout) (f : Llvm.Function) : Prop :=
  ∃ bb value, f.blocks = [bb] ∧ bb.terminator = .ret value ∧ KernelBody dl f.args.length [] bb.body

/-! ## Values -/

section Values

variable {hw : Hardware}

/-- The word that stands for a value. -/
def Llvm.State.word (s : Llvm.State hw) : Value → Word
  | .constantInt _ bits => (bits.signExtend 64).setWidth 32
  | .argument index => s.args index
  | .instruction id => (s.results id).getD 0
  | .other _ => 0

lemma constantsValued_word (s : Llvm.State hw) : ConstantsValued s.word := fun _ _ => rfl

/-- The operands that a kernel may use have values. -/
def Llvm.State.Known (s : Llvm.State hw) (defined : List Nat) : Prop :=
  ∀ id ∈ defined, ∃ x, s.results id = some x

lemma IsOperand.value {s : Llvm.State hw} {n : Nat} {defined : List Nat} {v : Value}
    (h : IsOperand n defined v) (known : s.Known defined) : s.value v = some (s.word v) := by
  cases v with
  | argument => rfl
  | instruction id =>
    obtain ⟨x, e⟩ := known id h
    simp [Llvm.State.value, Llvm.State.word, e]
  | constantInt | other => cases h

lemma IsOperand.index {s : Llvm.State hw} {n : Nat} {defined : List Nat} {v : Value}
    (h : IsOperand n defined v) (known : s.Known defined) :
    s.index v = some ((s.word v).signExtend 64) := by
  have value := h.value known
  cases v with
  | argument | instruction => simp [Llvm.State.index, value]
  | constantInt | other => cases h

lemma IsWord.value {s : Llvm.State hw} {n : Nat} {defined : List Nat} {v : Value}
    (h : IsWord n defined v) (known : s.Known defined) : s.value v = some (s.word v) := by
  obtain operand | ⟨⟨bits, rfl⟩, -⟩ := h
  · exact operand.value known
  · simp [Llvm.State.value, Llvm.State.word, setWidth_signExtend]

end Values

/-! ## What the steps compute -/

/-- A thread without values. -/
def Thread.blank {hw : Hardware} (mem : hw.Mem) : Thread hw Nat where
  pc := none
  regs := fun _ => 0
  mem := mem
  flags := 0

/-- The steps use `us`, leave the memory `mem'`, and the result `x`, if there is one. -/
structure Yields {hw : Hardware} (value : Value → Word) (mem : hw.Mem) (us : List (Value × Bool))
    (steps : List PlanStep) (mem' : hw.Mem) (x : Option Word) : Prop where
  uses : stepUses steps = us
  wellFormed : wellFormed [] steps = true
  initialised : initialised [] [] steps = true
  stores : (evaluate value 0 (.blank mem) steps).mem = mem'
  result : ∀ y, x = some y → ∃ k, slotAt (stepSlots steps) k = some .result ∧
    (definedBy 0 [] steps).contains k = true ∧ (evaluate value 0 (.blank mem) steps).read k = y
  silent : x = none → (stepSlots steps).contains .result = false

section Steps

variable {hw : Hardware} (value : Value → Word) (mem : hw.Mem)

/-- Steps with a result at the position `k`. -/
lemma Yields.of_result {value : Value → Word} {mem mem' : hw.Mem} {us : List (Value × Bool)}
    {steps : List PlanStep} {y : Word} (k : Nat) (uses : stepUses steps = us)
    (wf : FpgaGpu.wellFormed [] steps = true) (init : FpgaGpu.initialised [] [] steps = true)
    (stores : (evaluate value 0 (.blank mem) steps).mem = mem')
    (slot : slotAt (stepSlots steps) k = some .result)
    (defined : (definedBy 0 [] steps).contains k = true)
    (read : (evaluate value 0 (.blank mem) steps).read k = y) :
    Yields value mem us steps mem' (some y) := by
  refine ⟨uses, wf, init, stores, fun y' e => ?_, nofun⟩
  obtain rfl := Option.some.inj e
  exact ⟨k, slot, defined, read⟩

lemma yields_add (comment : String) (op0 op1 : Value) :
    Yields value mem [(op0, true), (op1, true)] (regRegSteps .add comment op0 op1) mem
      (some (value op0 + value op1)) :=
  .of_result 1 rfl rfl rfl rfl rfl rfl rfl

lemma yields_sub (comment : String) (op0 op1 : Value) :
    Yields value mem [(op0, true), (op1, true)] (regRegSteps .sub comment op0 op1) mem
      (some (value op0 - value op1)) :=
  .of_result 1 rfl rfl rfl rfl rfl rfl rfl

lemma yields_mul (comment : String) (op0 op1 : Value) :
    Yields value mem [(op0, true), (op1, true)] (regRegSteps .mul comment op0 op1) mem
      (some (value op0 * value op1)) :=
  .of_result 1 rfl rfl rfl rfl rfl rfl rfl

lemma yields_addImmediate (op0 : Value) (val : BitVec 64) :
    Yields value mem [(op0, false)] (addImmediateSteps op0 val) mem
      (some (value op0 + val.setWidth 32)) :=
  .of_result 1 rfl rfl rfl rfl rfl rfl rfl

lemma yields_shift (op0 : Value) (shift : BitVec 64) :
    Yields value mem [(op0, true)] (shiftSteps op0 shift) mem
      (some (value op0 <<< shift.toNat)) := by
  unfold shiftSteps
  split
  · next zero =>
    subst zero
    refine .of_result 1 rfl rfl rfl rfl rfl rfl ?_
    show value op0 + 0 = value op0 <<< 0
    simp
  · split
    · next one =>
      subst one
      refine .of_result 1 rfl rfl rfl rfl rfl rfl ?_
      show value op0 + value op0 = value op0 <<< 1
      rw [BitVec.shiftLeft_eq_mul_twoPow, ← BitVec.mul_two]
      rfl
    · refine .of_result 1 rfl rfl rfl rfl rfl rfl ?_
      show value op0 * (0#32 + 1#32 <<< shift.toNat) = value op0 <<< shift.toNat
      rw [BitVec.zero_add, BitVec.shiftLeft_eq_mul_twoPow (value op0),
        BitVec.shiftLeft_eq_mul_twoPow 1#32, BitVec.one_mul]

lemma yields_offset (ptr : Value) (offset : BitVec 64) :
    Yields value mem [(ptr, false)] (offsetSteps ptr offset) mem
      (some (value ptr + offset.setWidth 32)) :=
  .of_result 2 rfl rfl rfl rfl rfl rfl rfl

lemma yields_index (ptr index : Value) {elemSize : BitVec 64} (pos : 1 ≤ elemSize.toNat) :
    Yields value mem [(ptr, false), (index, true)] (indexSteps ptr index elemSize) mem
      (some (value ptr + value index * elemSize.setWidth 32)) := by
  unfold indexSteps
  split
  · refine .of_result 2 rfl rfl rfl rfl rfl rfl ?_
    show value ptr + value index * (0#32 + elemSize.setWidth 32) = _
    rw [BitVec.zero_add]
  · next small =>
    have one : elemSize = 1 := by
      apply BitVec.eq_of_toNat_eq
      rw [gt_iff_lt, BitVec.lt_def] at small
      change ¬ 1 < elemSize.toNat at small
      show elemSize.toNat = 1
      omega
    refine .of_result 2 rfl rfl rfl rfl rfl rfl ?_
    show value ptr + value index = _
    rw [one]
    simp

lemma yields_load (ptr : Value) :
    Yields value mem [(ptr, false)] (loadSteps ptr) mem (some (hw.load mem (value ptr))) :=
  .of_result 1 rfl rfl rfl rfl rfl rfl rfl

lemma yields_store (val ptr : Value) :
    Yields value mem [(val, true), (ptr, false)] (storeSteps val ptr)
      (hw.store mem (value ptr) (value val)) none :=
  ⟨rfl, rfl, rfl, rfl, nofun, fun _ => rfl⟩

lemma yields_argument (argIdx : Nat) (arg : Llvm.Argument) :
    Yields value mem [] (argumentSteps argIdx arg) mem
      (some (hw.load mem (BitVec.ofNat 32 (argIdx * 8)))) := by
  refine .of_result 1 rfl rfl rfl rfl rfl rfl ?_
  show hw.load mem (0#32 + BitVec.ofNat 32 (argIdx * 8)) = _
  rw [BitVec.zero_add]

end Steps

/-! ## Immediates -/

lemma toInt_setWidth_small {x : BitVec 64} (h : -8192 ≤ x.toInt ∧ x.toInt ≤ 8191) :
    (x.setWidth 32).toInt = x.toInt := by
  rw [BitVec.toInt_setWidth]
  rw [BitVec.toInt_eq_toNat_bmod] at h ⊢
  rw [Int.bmod_def] at *
  rw [Int.bmod_def] at *
  split at h <;> omega

lemma toInt_signExtend_small {w : Nat} {x : BitVec w} (h : -8192 ≤ x.toInt ∧ x.toInt ≤ 8191) :
    (x.signExtend 64).toInt = x.toInt := by
  obtain le | lt := Nat.le_total w 64
  · exact BitVec.toInt_signExtend_of_le le
  · rw [BitVec.toInt_signExtend, Nat.min_eq_left lt]
    exact Int.bmod_eq_of_le (by omega) (by omega)

/-- An instruction without control flow whose immediate fits its field. -/
structure Instruction.Simple {Reg : Type} (mi : Instruction Reg) : Prop where
  op : mi.op ≠ .br ∧ mi.op ≠ .ssy ∧ mi.op ≠ .exit
  cond : mi.cond = BranchCond.ALWAYS
  imm : mi.op.usesImm14 → -8192 ≤ mi.imm.toInt ∧ mi.imm.toInt < 8192

lemma Instruction.Simple.mapRegs {Reg Reg' : Type} (φ : Reg → Reg') {mi : Instruction Reg}
    (h : mi.Simple) : (mi.mapRegs φ).Simple := ⟨h.op, h.cond, h.imm⟩

/-- An instruction without immediate. -/
lemma simple_of_no_imm {Reg : Type} {mi : Instruction Reg}
    (op : mi.op ≠ .br ∧ mi.op ≠ .ssy ∧ mi.op ≠ .exit) (cond : mi.cond = BranchCond.ALWAYS)
    (none : mi.op.usesImm14 = false) : mi.Simple :=
  ⟨op, cond, fun h => by rw [none] at h; cases h⟩

lemma simple_addi {mi : Instruction Nat} {x : BitVec 64} (op : mi.op = .addi)
    (cond : mi.cond = BranchCond.ALWAYS) (imm : mi.imm = x.setWidth 32)
    (small : -8192 ≤ x.toInt ∧ x.toInt ≤ 8191) : mi.Simple := by
  refine ⟨by simp [op], cond, fun _ => ?_⟩
  rw [imm, toInt_setWidth_small small]
  omega

lemma simple_loadConstant {w : Nat} {bits : BitVec w} (small : SmallConstant (.constantInt w bits))
    (r : Nat) : (loadConstant r bits).Simple := by
  refine simple_addi rfl rfl rfl ?_
  rw [toInt_signExtend_small small]
  exact small

/-! ## What an instruction of a kernel is lowered to -/

/-- The state after an instruction that leaves the memory `mem` and the result `x`. -/
def Llvm.State.leave {hw : Hardware} (s : Llvm.State hw) (id : Nat) (mem : hw.Mem) :
    Option Word → Llvm.State hw
  | some x => { s with mem := mem }.define id x
  | none => { s with mem := mem }

/-- An operand that was computed before, or a constant that is loaded. -/
def Usable (n : Nat) (defined : List Nat) (u : Value × Bool) : Prop :=
  IsOperand n defined u.1 ∨ (isConstantInt u.1 = true ∧ SmallConstant u.1 ∧ u.2 = true)

lemma IsWord.usable {n : Nat} {defined : List Nat} {v : Value} (h : IsWord n defined v) :
    Usable n defined (v, true) := by
  obtain operand | ⟨⟨bits, rfl⟩, small⟩ := h
  · exact .inl operand
  · exact .inr ⟨rfl, small, rfl⟩

/-- Steps that lower the instruction `i`, which leaves the memory `mem'` and the result `x`. -/
structure Lowered {hw : Hardware} (dl : DataLayout) (f : Llvm.Function)
    (n : Nat) (defined : List Nat) (ir : Llvm.State hw) (i : Llvm.Instruction)
    (us : List (Value × Bool)) (steps : List PlanStep) (mem' : hw.Mem)
    (x : Option Word) : Prop where
  select : selectInstruction dl f i = runSteps (.instruction i.id) [] steps
  yields : Yields ir.word ir.mem us steps mem' x
  execute : Llvm.execute dl.typeAllocSize ir i = some (ir.leave i.id mem' x)
  produces : produces i.operation = x.isSome
  usable : ∀ u ∈ us, Usable n defined u
  simple : ∀ mi, .emit mi ∈ steps → mi.Simple

section Lowering

variable {hw : Hardware} {dl : DataLayout} {n : Nat} {defined : List Nat} {ir : Llvm.State hw}

lemma addImmediate?_eq_some {v : Value} {val : BitVec 64} (h : addImmediate? v = some val) :
    (∃ w, ∃ bits : BitVec w, v = .constantInt w bits ∧ val = bits.signExtend 64) ∧
      -2048 ≤ val.toInt ∧ val.toInt ≤ 2047 := by
  cases v with
  | constantInt w bits =>
    simp only [addImmediate?, Option.ite_none_right_eq_some, Option.some.injEq] at h
    obtain ⟨range, rfl⟩ := h
    exact ⟨⟨w, bits, rfl, rfl⟩, range⟩
  | argument | instruction | other => cases h

lemma simple_regReg {op : Opcode} (h : op = .add ∨ op = .sub ∨ op = .mul) {comment : String}
    {op0 op1 : Value} (mi : Instruction Nat) (mem : .emit mi ∈ regRegSteps op comment op0 op1) :
    mi.Simple := by
  simp only [regRegSteps, List.mem_cons, reduceCtorEq, PlanStep.emit.injEq, List.not_mem_nil,
    or_false, false_or] at mem
  obtain rfl := mem
  obtain rfl | rfl | rfl := h <;> exact simple_of_no_imm ⟨nofun, nofun, nofun⟩ rfl rfl

lemma simple_shift {op0 : Value} {shift : BitVec 64} (small : shift.toNat ≤ 12)
    (mi : Instruction Nat) (mem : .emit mi ∈ shiftSteps op0 shift) : mi.Simple := by
  have factor : ∀ k ≤ 12, -8192 ≤ (1#32 <<< k).toInt ∧ (1#32 <<< k).toInt < 8192 := by decide
  unfold shiftSteps at mem
  split at mem
  · obtain rfl : mi = _ := by simpa using mem
    exact ⟨by decide, rfl, fun _ => by decide⟩
  · split at mem
    · obtain rfl : mi = _ := by simpa using mem
      exact simple_of_no_imm ⟨nofun, nofun, nofun⟩ rfl rfl
    · simp only [List.mem_cons, reduceCtorEq, PlanStep.emit.injEq, List.not_mem_nil, or_false,
        false_or] at mem
      obtain rfl | rfl := mem
      · exact ⟨⟨nofun, nofun, nofun⟩, rfl, fun _ => factor _ small⟩
      · exact simple_of_no_imm ⟨nofun, nofun, nofun⟩ rfl rfl

lemma simple_index {ptr index : Value} {elemSize : BitVec 64} (small : elemSize.toNat ≤ 8191)
    (mi : Instruction Nat) (mem : .emit mi ∈ indexSteps ptr index elemSize) : mi.Simple := by
  have range : -8192 ≤ elemSize.toInt ∧ elemSize.toInt ≤ 8191 := by
    rw [BitVec.toInt_eq_toNat_cond]
    split <;> omega
  unfold indexSteps at mem
  split at mem <;> simp only [List.cons_append, List.nil_append, List.mem_cons, reduceCtorEq,
    PlanStep.emit.injEq, List.not_mem_nil, or_false, false_or] at mem
  · obtain rfl | rfl | rfl := mem
    · exact simple_addi rfl rfl rfl range
    · exact simple_of_no_imm ⟨nofun, nofun, nofun⟩ rfl rfl
    · exact simple_of_no_imm ⟨nofun, nofun, nofun⟩ rfl rfl
  · obtain rfl := mem
    exact simple_of_no_imm ⟨nofun, nofun, nofun⟩ rfl rfl

section Operations

variable {id : Nat}

/-- Addition, subtraction and multiplication. -/
lemma lowered_arithmetic {opcode : Llvm.BinaryOpcode} {op0 op1 : Value}
    (op : opcode = .add ∨ opcode = .sub ∨ opcode = .mul) (word0 : IsWord n defined op0)
    (word1 : IsWord n defined op1)
    (notBoth : ¬ (isConstantInt op0 = true ∧ isConstantInt op1 = true)) (known : ir.Known defined)
    (f : Llvm.Function) :
    ∃ steps mem' x, Lowered dl f n defined ir ⟨id, .binary opcode op0 op1⟩
      (uses dl f ⟨id, .binary opcode op0 op1⟩) steps mem' x := by
  have value0 := word0.value known
  have value1 := word1.value known
  have usable : ∀ u ∈ [(op0, true), (op1, true)], Usable n defined u := by
    simp only [List.forall_mem_cons, List.not_mem_nil, false_implies, implies_true, and_true]
    exact ⟨word0.usable, word1.usable⟩
  obtain rfl | rfl | rfl := op
  · cases e : addImmediate? op1 with
    | none =>
      rw [show uses dl f ⟨id, .binary .add op0 op1⟩ = [(op0, true), (op1, true)] by simp [uses, e]]
      refine ⟨_, _, _, selectBinaryOp_add e, yields_add .., ?_, rfl, usable,
        simple_regReg (.inl rfl)⟩
      simp only [Llvm.execute, value0, value1]
      rfl
    | some val =>
      obtain ⟨⟨w, bits, rfl, rfl⟩, range⟩ := addImmediate?_eq_some e
      have operand : IsOperand n defined op0 := by
        obtain operand | ⟨⟨bits, rfl⟩, -⟩ := word0
        · exact operand
        · exact absurd ⟨rfl, rfl⟩ notBoth
      rw [show uses dl f ⟨id, .binary .add op0 (.constantInt w bits)⟩ =
        [(op0, false)] by simp [uses, e]]
      refine ⟨_, _, _, selectBinaryOp_addImmediate e, yields_addImmediate .., ?_, rfl,
        List.forall_mem_singleton.mpr (.inl operand), fun mi mem => ?_⟩
      · simp only [Llvm.execute, value0, value1]
        rfl
      · obtain rfl : mi = _ := by simpa [addImmediateSteps] using mem
        exact simple_addi rfl rfl rfl (by omega)
  · refine ⟨regRegSteps .sub "sub" op0 op1, _, _, rfl, yields_sub .., ?_, rfl, usable,
      simple_regReg (.inr (.inl rfl))⟩
    simp only [Llvm.execute, value0, value1]
    rfl
  · refine ⟨regRegSteps .mul "mul" op0 op1, _, _, rfl, yields_mul .., ?_, rfl, usable,
      simple_regReg (.inr (.inr rfl))⟩
    simp only [Llvm.execute, value0, value1]
    rfl

/-- A shift by a small constant. -/
lemma lowered_shl {op0 : Value} {bits : BitVec 32} (operand : IsOperand n defined op0)
    (small : bits.toNat ≤ 12) (known : ir.Known defined) (f : Llvm.Function) :
    ∃ steps mem' x, Lowered dl f n defined ir ⟨id, .binary .shl op0 (.constantInt 32 bits)⟩
      (uses dl f ⟨id, .binary .shl op0 (.constantInt 32 bits)⟩) steps mem' x := by
  have same : (bits.setWidth 64).toNat = bits.toNat := by
    rw [BitVec.toNat_setWidth]
    omega
  have amount : shiftAmount? (.constantInt 32 bits) = some (bits.setWidth 64) := rfl
  rw [show uses dl f ⟨id, .binary .shl op0 (.constantInt 32 bits)⟩ =
    [(op0, true)] by simp [uses, amount]]
  refine ⟨_, _, _, selectBinaryOp_shift amount (by omega), yields_shift .., ?_, rfl,
    List.forall_mem_singleton.mpr (.inl operand), simple_shift (by omega)⟩
  have lt : bits.toNat < 32 := by omega
  have value1 : ir.value (.constantInt 32 bits) = some bits := by simp [Llvm.State.value]
  simp only [Llvm.execute, operand.value known, value1, Llvm.BinaryOpcode.apply,
    Option.bind_eq_bind, Option.bind_some, lt, if_true, same]
  rfl

/-- An address with a constant index. -/
lemma lowered_offset {sourceElement : Llvm.Ty} {ptr : Value} {w : Nat} {bits : BitVec w}
    (lawful : dl.Lawful) (operand : IsOperand n defined ptr)
    (offset : -8192 ≤ (bits.signExtend 64 * dl.typeAllocSize sourceElement).toInt ∧
      (bits.signExtend 64 * dl.typeAllocSize sourceElement).toInt ≤ 8191)
    (known : ir.Known defined) (f : Llvm.Function) :
    ∃ steps mem' x, Lowered dl f n defined ir ⟨id,
      .getelementptr sourceElement ptr [.constantInt w bits]⟩
      (uses dl f ⟨id, .getelementptr sourceElement ptr [.constantInt w bits]⟩) steps mem' x := by
  have constant : constantOffset? dl sourceElement [.constantInt w bits] =
      some (bits.signExtend 64 * dl.typeAllocSize sourceElement) := lawful ..
  rw [show uses dl f ⟨id,
      .getelementptr sourceElement ptr [.constantInt w bits]⟩ = [(ptr, false)] by
    simp [uses, constant]]
  refine ⟨_, _, _, selectGEP_offset constant, yields_offset .., ?_, rfl,
    List.forall_mem_singleton.mpr (.inl operand), fun mi mem => ?_⟩
  · simp only [Llvm.execute, operand.value known, Llvm.State.index]
    rfl
  · obtain rfl : mi = _ := by simpa [offsetSteps] using mem
    exact simple_addi rfl rfl rfl offset

/-- An address with a variable index. -/
lemma lowered_index {sourceElement : Llvm.Ty} {ptr index : Value}
    (operand : IsOperand n defined ptr) (word : IsOperand n defined index)
    (size : 1 ≤ (dl.typeAllocSize sourceElement).toNat ∧
      (dl.typeAllocSize sourceElement).toNat ≤ 8191) (known : ir.Known defined)
        (f : Llvm.Function) :
    ∃ steps mem' x, Lowered dl f n defined ir ⟨id, .getelementptr sourceElement ptr [index]⟩
      (uses dl f ⟨id, .getelementptr sourceElement ptr [index]⟩) steps mem' x := by
  have dynamic : constantOffset? dl sourceElement [index] = none := by
    cases index with
    | argument | instruction => rfl
    | constantInt | other => cases word
  rw [show uses dl f ⟨id, .getelementptr sourceElement ptr [index]⟩ =
      [(ptr, false), (index, true)] by
    simp [uses, dynamic]]
  refine ⟨_, _, _, selectGEP_index dynamic, yields_index _ _ _ _ size.1, ?_, rfl, ?_,
    simple_index size.2⟩
  · have scaled : ((ir.word index).signExtend 64 * dl.typeAllocSize sourceElement).setWidth 32 =
        ir.word index * (dl.typeAllocSize sourceElement).setWidth 32 := by
      rw [BitVec.setWidth_mul _ _ (by decide), setWidth_signExtend, BitVec.ofInt_toInt]
    simp only [Llvm.execute, operand.value known, word.index known, Option.bind_eq_bind,
      Option.bind_some, scaled]
    rfl
  · simp only [List.forall_mem_cons, List.not_mem_nil, false_implies, implies_true, and_true]
    exact ⟨.inl operand, .inl word⟩

lemma lowered_load {ptr : Value} (operand : IsOperand n defined ptr) (known : ir.Known defined)
    (f : Llvm.Function) :
    ∃ steps mem' x, Lowered dl f n defined ir ⟨id, .load (.int 32) ptr⟩
      (uses dl f ⟨id, .load (.int 32) ptr⟩) steps mem' x := by
  refine ⟨loadSteps ptr, _, _, rfl, yields_load .., ?_, rfl,
    List.forall_mem_singleton.mpr (.inl operand), fun mi mem => ?_⟩
  · simp only [Llvm.execute, operand.value known]
    rfl
  · obtain rfl : mi = _ := by simpa [loadSteps] using mem
    exact simple_of_no_imm ⟨nofun, nofun, nofun⟩ rfl rfl

lemma lowered_store {val ptr : Value} (word : IsWord n defined val)
    (operand : IsOperand n defined ptr) (known : ir.Known defined) (f : Llvm.Function) :
    ∃ steps mem' x, Lowered dl f n defined ir ⟨id, .store (.int 32) val ptr⟩
      (uses dl f ⟨id, .store (.int 32) val ptr⟩) steps mem' x := by
  rw [show uses dl f ⟨id, .store (.int 32) val ptr⟩ = [(val, true), (ptr, false)] from rfl]
  refine ⟨storeSteps val ptr, _, _, rfl, yields_store .., ?_, rfl, ?_, fun mi mem => ?_⟩
  · simp only [Llvm.execute, word.value known, operand.value known]
    rfl
  · simp only [List.forall_mem_cons, List.not_mem_nil, false_implies, implies_true, and_true]
    exact ⟨word.usable, .inl operand⟩
  · obtain rfl : mi = _ := by simpa [storeSteps] using mem
    exact simple_of_no_imm ⟨nofun, nofun, nofun⟩ rfl rfl

end Operations

/-- Every instruction of a kernel. -/
theorem KernelOperation.lowered {i : Llvm.Instruction} (lawful : dl.Lawful)
    (operation : KernelOperation dl n defined i.operation) (known : ir.Known defined)
    (f : Llvm.Function) :
    ∃ steps mem' x, Lowered dl f n defined ir i (uses dl f i) steps mem' x := by
  obtain ⟨id, operation'⟩ := i
  cases operation with
  | arithmetic op word0 word1 notBoth => exact lowered_arithmetic op word0 word1 notBoth known f
  | shl operand small => exact lowered_shl operand small known f
  | offset operand _ offset => exact lowered_offset lawful operand offset known f
  | index operand word size => exact lowered_index operand word size known f
  | load operand => exact lowered_load operand known f
  | store word operand => exact lowered_store word operand known f

end Lowering

end FpgaGpu

import FpgaGpu.Ir.Syntax
import FpgaGpu.Isa.Semantics

/-!
# Running LLVM code without branches

What LLVM's reference says of the integer instructions over `i32`, of `getelementptr` with one
index, and of loads and stores of `i32`, for functions of one block. A pointer is the 32-bit address
that the hardware uses, and the memory is that of the hardware. An instruction outside this part of
LLVM, and one without a defined result, has no execution.
-/

namespace FpgaGpu.Llvm

/-- The values and the memory of a run. -/
structure State (hw : Hardware) where
  mem : hw.Mem
  args : Nat → Word
  results : Nat → Option Word

section Execution

variable {hw : Hardware}

/-- The value of an `i32` or pointer operand. -/
def State.value (s : State hw) : Value → Option Word
  | .constantInt width bits => if width = 32 then some (bits.setWidth 32) else none
  | .argument index => some (s.args index)
  | .instruction id => s.results id
  | .other _ => none

/-- The value of an index, sign-extended to the width of offsets. -/
def State.index (s : State hw) : Value → Option (BitVec 64)
  | .constantInt _ bits => some (bits.signExtend 64)
  | v => (s.value v).map (BitVec.signExtend 64)

/-- The result of a binary operator. -/
def BinaryOpcode.apply : BinaryOpcode → Word → Word → Option Word
  | .add, x, y => some (x + y)
  | .sub, x, y => some (x - y)
  | .mul, x, y => some (x * y)
  | .shl, x, y => if y.toNat < 32 then some (x <<< y.toNat) else none
  | .other _, _, _ => none

/-- The integer opcodes of `llvm::BinaryOperator`. Their flags (`disjoint`, `exact`, `nsw`, `nuw`)
are left out. -/
inductive IntegerOpcode where
  | add | sub | mul | udiv | sdiv | urem | srem | shl | lshr | ashr | and | or | xor
  deriving DecidableEq, Repr

/-- The opcode by its number. -/
def IntegerOpcode.toBinary : IntegerOpcode → BinaryOpcode
  | .add => .add
  | .sub => .sub
  | .mul => .mul
  | .shl => .shl
  | .udiv => .other 19
  | .sdiv => .other 20
  | .urem => .other 22
  | .srem => .other 23
  | .lshr => .other 26
  | .ashr => .other 27
  | .and => .other 28
  | .or => .other 29
  | .xor => .other 30

/-- The result of an integer operator, where LLVM defines one. -/
def IntegerOpcode.apply : IntegerOpcode → Word → Word → Option Word
  | .add, x, y => BinaryOpcode.add.apply x y
  | .sub, x, y => BinaryOpcode.sub.apply x y
  | .mul, x, y => BinaryOpcode.mul.apply x y
  | .shl, x, y => BinaryOpcode.shl.apply x y
  | .udiv, x, y => if y = 0 then none else some (x / y)
  | .urem, x, y => if y = 0 then none else some (x % y)
  -- the quotient of the least number and -1 overflows
  | .sdiv, x, y => if y = 0 ∨ (x = BitVec.intMin 32 ∧ y = -1) then none else some (x.sdiv y)
  | .srem, x, y => if y = 0 ∨ (x = BitVec.intMin 32 ∧ y = -1) then none else some (x.srem y)
  | .lshr, x, y => if y.toNat < 32 then some (x >>> y.toNat) else none
  | .ashr, x, y => if y.toNat < 32 then some (x.sshiftRight y.toNat) else none
  | .and, x, y => some (x &&& y)
  | .or, x, y => some (x ||| y)
  | .xor, x, y => some (x ^^^ y)

/-- What a predicate says of two words. -/
def Predicate.holds : Predicate → Word → Word → Bool
  | .eq, x, y => x = y
  | .ne, x, y => x ≠ y
  | .ugt, x, y => y.ult x
  | .uge, x, y => y.ule x
  | .ult, x, y => x.ult y
  | .ule, x, y => x.ule y
  | .sgt, x, y => y.slt x
  | .sge, x, y => y.sle x
  | .slt, x, y => x.slt y
  | .sle, x, y => x.sle y

/-- The result of an instruction. -/
def State.define (s : State hw) (id : Nat) (x : Word) : State hw :=
  { s with results := Function.update s.results id (some x) }

/-- Executes an instruction; `typeAllocSize` gives the sizes of types. -/
def execute (typeAllocSize : Ty → BitVec 64) (s : State hw) (i : Instruction) : Option (State hw) :=
  match i.operation with
  | .binary opcode op0 op1 => do
    let x ← s.value op0
    let y ← s.value op1
    let z ← opcode.apply x y
    return s.define i.id z
  | .getelementptr sourceElement ptr [index] => do
    let base ← s.value ptr
    let n ← s.index index
    return s.define i.id (base + (n * typeAllocSize sourceElement).setWidth 32)
  | .load (.int 32) ptr => do
    let addr ← s.value ptr
    return s.define i.id (hw.load s.mem addr)
  | .store (.int 32) value ptr => do
    let x ← s.value value
    let addr ← s.value ptr
    return { s with mem := hw.store s.mem addr x }
  | _ => none

/-- Executes the instructions of a block. -/
def executeBody (typeAllocSize : Ty → BitVec 64) (s : State hw) :
    List Instruction → Option (State hw)
  | [] => some s
  | i :: body => do
    let s ← execute typeAllocSize s i
    executeBody typeAllocSize s body

/-- Runs a function of one block that returns: the memory that it leaves. -/
def Function.run (typeAllocSize : Ty → BitVec 64) (f : Function)
    (args : Nat → Word) (mem : hw.Mem) :
    Option hw.Mem :=
  match f.blocks with
  | [{ terminator := .ret _, body := body, .. }] => do
    let s ← executeBody typeAllocSize ⟨mem, args, fun _ => none⟩ body
    return s.mem
  | _ => none

@[simp] lemma State.value_define_self (s : State hw) (id : Nat) (x : Word) :
    (s.define id x).value (.instruction id) = some x := Function.update_self ..

end Execution

end FpgaGpu.Llvm

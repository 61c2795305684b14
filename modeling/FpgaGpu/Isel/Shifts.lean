import FpgaGpu.Ir.Semantics
import FpgaGpu.Isel.Operands
import FpgaGpu.Lib.TwoPower
import Mathlib.Algebra.Order.Ring.Abs

/-!
# Shifts to the left

A shift by a constant multiplies by a power of two that the code loads as an immediate, so it is
exact as long as the power fits the field. A shift by a register multiplies by the shift amount
itself.
-/

namespace FpgaGpu

open Llvm (Value)
open Emission (bind_eq_some push_eq_some)

/-! ## Products and shifts -/

section Products

variable {x y : Word} {s : Nat}

end Products

/-! ## The code of a shift -/

/-- What the operand of a shift is multiplied by. -/
def factor (g : Word → Word) (op1 : Value) (y : Word) : Word :=
  match shiftAmount? op1 with
  | some shift => if shift = 0 then 1 else if shift = 1 then 2 else g (1 <<< shift.toNat)
  | none => y

section Code

variable {g : Word → Word} {op0 op1 : Value} {st st' : Selector} {rd : Nat}
  {out : List (Instruction Nat)}

end Code

/-! ## Exact shifts -/

/-- An operand of type `i32`. -/
def IsI32 : Value → Prop
  | .constantInt w _ => w = 32
  | _ => True

section Exact

variable {value : Value → Word} {op0 op1 : Value} {st : Selector}

lemma ConstantsValued.word (constants : ConstantsValued value) (bits : BitVec 32) :
    value (.constantInt 32 bits) = bits := by
  rw [constants]
  exact (setWidth_signExtend bits).trans (BitVec.ofInt_toInt)

end Exact

end FpgaGpu

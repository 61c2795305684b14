import FpgaGpu.Isel.Definitions
import FpgaGpu.Isel.Operands

/-!
# Casts

Every cast is lowered to a move. A chain of integer casts from `i32` to `i32` keeps a number exactly
if nothing of it is cut off, filled in or turned into a sign on the way.
-/

namespace FpgaGpu

open Llvm (Value)
open Emission (bind_eq_some push_eq_some)

/-! ## Chains of casts -/

/-- An integer cast to a type of some width. -/
inductive IntegerCast where
  | trunc (width : Nat)
  | zext (width : Nat)
  | sext (width : Nat)
  deriving DecidableEq, Repr

/-- The width of the result. -/
def IntegerCast.width : IntegerCast → Nat
  | .trunc n | .zext n | .sext n => n

/-- The result, as LLVM defines it. -/
def IntegerCast.apply {w : Nat} (x : BitVec w) : (c : IntegerCast) → BitVec c.width
  | .trunc n => x.setWidth n
  | .zext n => x.setWidth n
  | .sext n => x.signExtend n

/-- What is left of a number: its low bits, sign-extended to a width and zero-extended from
there. -/
structure Narrowing where
  bits : Nat
  signed : Nat
  deriving DecidableEq, Repr

/-- A cast of what is left in a type of width `w`. -/
def Narrowing.cast (l : Narrowing) (w : Nat) : IntegerCast → Narrowing
  | .trunc n => ⟨min l.bits n, min l.signed n⟩
  | .zext _ => l
  | .sext n => ⟨l.bits, if l.signed = w then n else l.signed⟩

/-- The value of what is left, in a type of width `w`. -/
def Narrowing.value (l : Narrowing) (x : Word) (w : Nat) : BitVec w :=
  ((x.setWidth l.bits).signExtend l.signed).setWidth w

/-- The widths of what is left in a type of width `w`. -/
structure Narrowing.Fits (l : Narrowing) (w : Nat) : Prop where
  pos : 1 ≤ l.bits
  bits : l.bits ≤ l.signed
  signed : l.signed ≤ w

section Chains

variable {x : Word} {w n : Nat} {l : Narrowing}

end Chains

/-! ## The code of a chain -/

/-- The code of a cast. -/
def move (rd rs1 : Nat) : Instruction Nat :=
  { newInstruction .addi with rd := rd, rs1 := rs1, comment := "cast/move".toList }

section Code

variable {dl : DataLayout} {f : Llvm.Function} {code : List SelectedBlock} {st : Selector}
variable {pieces : List (List Piece)} {seen : List (Value × Bool)} {hw : Hardware} {src : Value}

end Code

/-- What is left of an `i32` before any cast. -/
def Narrowing.start : Narrowing := ⟨32, 32⟩

end FpgaGpu

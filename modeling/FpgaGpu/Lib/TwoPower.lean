import Mathlib.Algebra.Ring.Parity
import Mathlib.Data.BitVec
import Mathlib.Data.Nat.Factorization.Basic
import Mathlib.RingTheory.Coprime.Lemmas

/-!
# Powers of two

Which powers of two divide a number, and words as numbers modulo a power of two.
-/

namespace TwoPower

section Words

variable {w : Nat} {a b : Int}

end Words

end TwoPower

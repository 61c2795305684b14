import Mathlib.Data.BitVec

/-!
# Memory of bytes

A byte at every address, addresses that wrap around, and numbers that stand in memory with their low
byte first.
-/

namespace ByteMemory

/-- The byte at each address. -/
abbrev Memory (w : Nat) := BitVec w → BitVec 8

section Bytes

variable {w n n' : Nat}

/-- The byte `k` of a number, from the low end. -/
def byte (x : BitVec n) (k : Nat) : BitVec 8 := x.extractLsb' (8 * k) 8

/-- `n` bytes are written from an address on. -/
def write (m : Memory w) (addr : BitVec w) (n : Nat) (bytes : Nat → BitVec 8) : Memory w := fun a =>
  if (a - addr).toNat < n then bytes (a - addr).toNat else m a

/-- The number in the `n` bytes from an address on. -/
def read (m : Memory w) (addr : BitVec w) : (n : Nat) → BitVec (8 * n)
  | 0 => 0
  | n + 1 => (m (addr + BitVec.ofNat w n) ++ read m addr n).cast (by omega)

variable {m : Memory w} {addr : BitVec w} {bytes bytes' : Nat → BitVec 8}

lemma getLsbD_byte {x : BitVec n} {k i : Nat} (lt : i < 8) :
    (byte x k).getLsbD i = x.getLsbD (8 * k + i) := by
  simp [byte, lt]

lemma getLsbD_read {i : Nat} (lt : i < 8 * n) :
    (read m addr n).getLsbD i = (m (addr + BitVec.ofNat w (i / 8))).getLsbD (i % 8) := by
  induction n with
  | zero => omega
  | succ n ih =>
    rw [read, BitVec.getLsbD_cast, BitVec.getLsbD_append]
    by_cases low : i < 8 * n
    · rw [if_pos low, ih low]
    · have last : i / 8 = n := by omega
      have rest : i % 8 = i - 8 * n := by omega
      rw [if_neg low, last, rest]

/-- Each byte that is read stands at its own address. -/
lemma byte_read {k : Nat} (lt : k < n) : byte (read m addr n) k = m (addr + BitVec.ofNat w k) := by
  apply BitVec.eq_of_getLsbD_eq
  intro i hi
  have quotient : (8 * k + i) / 8 = k := by omega
  have remainder : (8 * k + i) % 8 = i := by omega
  rw [getLsbD_byte hi, getLsbD_read (by omega), quotient, remainder]

/-- The byte `k` of what is written. -/
lemma write_offset {k : Nat} (lt : k < n) (le : k < 2 ^ w) :
    write m addr n bytes (addr + BitVec.ofNat w k) = bytes k := by
  have offset : (addr + BitVec.ofNat w k - addr).toNat = k := by
    rw [BitVec.add_comm, BitVec.add_sub_cancel, BitVec.toNat_ofNat, Nat.mod_eq_of_lt le]
  rw [write, offset, if_pos lt]

/-- Bytes behind those that are written stay. -/
lemma write_behind {k : Nat} (ge : n ≤ k) (le : k < 2 ^ w) :
    write m addr n bytes (addr + BitVec.ofNat w k) = m (addr + BitVec.ofNat w k) := by
  have offset : (addr + BitVec.ofNat w k - addr).toNat = k := by
    rw [BitVec.add_comm, BitVec.add_sub_cancel, BitVec.toNat_ofNat, Nat.mod_eq_of_lt le]
  rw [write, offset, if_neg (by omega)]

lemma write_congr (same : ∀ k < n, bytes k = bytes' k) :
    write m addr n bytes = write m addr n bytes' := by
  funext a
  unfold write
  split
  · next lt => exact same _ lt
  · rfl

/-- What was written is read back. -/
lemma read_write {x : BitVec (8 * n)} (le : n ≤ 2 ^ w) :
    read (write m addr n (byte x)) addr n = x := by
  apply BitVec.eq_of_getLsbD_eq
  intro i hi
  have lt : i / 8 < n := by omega
  have split : 8 * (i / 8) + i % 8 = i := Nat.div_add_mod i 8
  rw [getLsbD_read hi, write_offset lt (by omega), getLsbD_byte (by omega), split]

/-- A longer write changes a byte more in some memory. -/
lemma exists_write_ne (lt : n < n') (le : n < 2 ^ w) (addr : BitVec w)
    (bytes bytes' : Nat → BitVec 8) :
    ∃ m : Memory w, write m addr n' bytes' ≠ write m addr n bytes := by
  refine ⟨fun _ => bytes' n + 1, fun same => ?_⟩
  have at_n := congrFun same (addr + BitVec.ofNat w n)
  rw [write_offset lt le, write_behind le_rfl le] at at_n
  simp at at_n

end Bytes

end ByteMemory

import FpgaGpu.Isel.Evaluation
import FpgaGpu.Isel.Paths

/-!
# The registers of operands

An operand is in its register before the code of an instruction, or that code loads it first. The
immediates go through a function, as those of encoded instructions do.
-/

namespace FpgaGpu

open Llvm (Value)

/-! ## Immediates -/

/-- Replaces the immediate of an instruction that has one of 14 bits. -/
def Instruction.mapImm {Reg : Type} (g : Word → Word) (mi : Instruction Reg) : Instruction Reg :=
  { mi with imm := if mi.op.usesImm14 then g mi.imm else mi.imm }

/-- The low 14 bits, sign-extended. -/
def cut14 (x : Word) : Word := (x.setWidth 14).signExtend 32

/-- An instruction with the immediate that the hardware reads from its word. -/
def Instruction.asEncoded (mi : Instruction Nat) : Instruction Nat :=
  mi.mapImm fun _ => imm14Field (encode (mi.mapRegs narrow))

lemma asEncoded_eq (mi : Instruction Nat) : mi.asEncoded = mi.mapImm cut14 := by
  unfold Instruction.asEncoded Instruction.mapImm
  congr 1
  split
  · next uses => rw [imm14Field_eq,
      encode_setWidth14 (show (mi.mapRegs narrow).op.usesImm14 from uses)]; rfl
  · rfl

/-- The code of an instruction loads the operand itself: it is a constant without a register
before. -/
def Loaded (st : Selector) (v : Value) : Prop :=
  isConstantInt v = true ∧ isZero v = false ∧ st.valueToVReg v = none

instance (st : Selector) (v : Value) : Decidable (Loaded st v) := by
  unfold Loaded
  infer_instance

/-- The registers of the operands hold them, save those that the code loads. -/
def Holding {hw : Hardware} (value : Value → Word) (st st' : Selector) (vs : List Value)
    (s : Thread hw Nat) : Prop :=
  ∀ v ∈ vs, ¬ Loaded st v → ∀ r, st'.regOf v = some r → s.read r = value v

/-- Every value but the constants is one word. -/
def valued (x : Word) : Value → Word
  | .constantInt _ bits => (bits.signExtend 64).setWidth 32
  | _ => x

lemma constantsValued_valued (x : Word) : ConstantsValued (valued x) := by
  intro w bits
  rfl

/-- Executes code whose immediates go through a function. -/
def executeThrough {hw : Hardware} (g : Word → Word) (s : Thread hw Nat)
    (code : List (Instruction Nat)) : Thread hw Nat :=
  executeAll s (code.map (Instruction.mapImm g))

section Loads

variable {hw : Hardware} {g : Word → Word} {value : Value → Word}
  {st st' : Selector} {v : Value} {r : Nat}
variable {out : List (Instruction Nat)} {s : Thread hw Nat}

@[simp] lemma executeThrough_nil : executeThrough g s [] = s := rfl

lemma executeThrough_append (code code' : List (Instruction Nat)) :
    executeThrough g s (code ++ code') = executeThrough g (executeThrough g s code) code' := by
  unfold executeThrough
  rw [List.map_append, executeAll_append]

lemma executeAll_asEncoded (code : List (Instruction Nat)) :
    executeAll s (code.map Instruction.asEncoded) = executeThrough cut14 s code := by
  rw [executeThrough, funext asEncoded_eq]

lemma executeThrough_id (code : List (Instruction Nat)) :
    executeThrough id s code = executeAll s code := by
  have same : (Instruction.mapImm id : Instruction Nat → Instruction Nat) = id := by
    funext mi
    unfold Instruction.mapImm
    split <;> rfl
  rw [executeThrough, same, List.map_id]

/-- What an instruction with a destination leaves in the registers. -/
lemma regs_executeThrough {mi : Instruction Nat} (writes : mi.op.usesRd = true) :
    (executeThrough g s [mi]).regs = Function.update s.regs mi.rd (result s (mi.mapImm g)) :=
  if_pos writes

/-- The load of a constant adds it to the hardware zero. -/
lemma regs_loadConstant (rd : Nat) {w : Nat} (bits : BitVec w) :
    (executeThrough g s [loadConstant rd bits]).regs =
      Function.update s.regs rd (0 + g ((bits.signExtend 64).setWidth 32)) :=
  regs_executeThrough (show (loadConstant rd bits).op.usesRd = true from rfl)

/-- The last instruction of code leaves its result in its destination. -/
lemma read_executeThrough_last {mi : Instruction Nat} (writes : mi.op.usesRd = true)
    (pos : 1 ≤ mi.rd) (code : List (Instruction Nat)) :
    (executeThrough g s (code ++ [mi])).read mi.rd = result (executeThrough g s code)
    (mi.mapImm g) := by
  rw [executeThrough_append, read_of_pos pos, regs_executeThrough writes, Function.update_self]

/-- Registers of results do not change what is loaded. -/
lemma loaded_congr {self : Value} (inst : isConstantInt self = false)
    (h : getOrCreateVReg self st = some (r, out, st')) : Loaded st' v ↔ Loaded st v := by
  unfold Loaded
  refine and_congr_right fun constant => and_congr_right fun _ => ?_
  obtain ⟨-, ⟨-, -, rfl⟩ | ⟨-, -, rfl⟩ | ⟨-, -, -, rfl⟩⟩ := getOrCreateVReg_cases h
  · rfl
  · rfl
  · have ne : v ≠ self := by
      rintro rfl
      rw [inst] at constant
      cases constant
    rw [Selector.assign_of_ne ne]

lemma not_loaded_of_register (register : isConstantInt v = false) : ¬ Loaded st v :=
  fun h => Bool.false_ne_true (register.symm.trans h.1)

/-- A register that stands for no value is not that of an operand. -/
lemma Selector.Temp.ne_regOf {q : Nat} (temp : st.Temp q) (e : st.regOf v = some r) : r ≠ q := by
  rintro rfl
  unfold Selector.regOf at e
  split at e
  · have pos := temp.1
    obtain rfl := Option.some.inj e
    omega
  · exact temp.2.2 v e

/-- A lookup only writes the register of an operand that it loads. -/
lemma regs_lookup (h : lookup v true st = some (r, out, st')) {q : Nat} (ne : Loaded st v → q ≠ r) :
    (executeThrough g s out).regs q = s.regs q := by
  obtain ⟨-, -, rfl, -⟩ | ⟨-, -, rfl, -⟩ | ⟨nonzero, e, rfl, rfl, -⟩ := lookup_cases h
  · rfl
  · rfl
  · cases v with
    | constantInt w bits =>
      have regs : (executeThrough g s (loads true st.nextVReg (.constantInt w bits))).regs =
          Function.update s.regs st.nextVReg (0 + g ((bits.signExtend 64).setWidth 32)) :=
        regs_loadConstant st.nextVReg bits
      rw [regs, Function.update_of_ne (ne ⟨rfl, nonzero, e⟩)]
    | argument | instruction | other => rfl

/-- After a lookup the register holds the operand, or what it was loaded as. -/
lemma read_lookup (valid : st.Valid) (constants : ConstantsValued value)
    (h : lookup v true st = some (r, out, st')) (held : ¬ Loaded st v → s.read r = value v) :
    (executeThrough g s out).read r = if Loaded st v then g (value v) else value v := by
  by_cases loaded : Loaded st v
  · obtain ⟨constant, nonzero, none⟩ := loaded
    obtain ⟨zero, -⟩ | ⟨-, e, -⟩ | ⟨-, -, rfl, rfl, -⟩ := lookup_cases h
    · exact absurd (nonzero.symm.trans zero) nofun
    · exact absurd (none.symm.trans e) nofun
    cases v with
    | constantInt w bits =>
      have regs : (executeThrough g s (loads true st.nextVReg (.constantInt w bits))).regs =
          Function.update s.regs st.nextVReg (0 + g ((bits.signExtend 64).setWidth 32)) :=
        regs_loadConstant st.nextVReg bits
      rw [if_pos ⟨constant, nonzero, none⟩, constants, read_of_pos valid.pos,
        regs, Function.update_self]
      exact BitVec.zero_add _
    | argument | instruction | other => cases constant
  · rw [if_neg loaded, ← held loaded]
    unfold Thread.read
    rw [regs_lookup h fun h => absurd h loaded]

/-- A lookup does not write the register that a value that is no constant has in the end. -/
lemma read_lookup_of_register {u : Value} {q : Nat} {last : Selector} (valid : st.Valid)
    (h : lookup v true st = some (r, out, st')) (grows : Grows st' last) (valid' : last.Valid)
    (register : isConstantInt u = false) (e : last.regOf u = some q) :
    (executeThrough g s out).read q = s.read q := by
  obtain ⟨-, -, reg⟩ := lookup_valid valid h
  have ne : Loaded st v → q ≠ r := by
    rintro ⟨constant, nonzero, -⟩ rfl
    have zero : isZero u = false := by
      cases u with
      | constantInt => cases register
      | argument | instruction | other => rfl
    have e₁ : last.valueToVReg v = some q := by
      simpa [Selector.regOf, nonzero] using grows.regOf reg
    have e₂ : last.valueToVReg u = some q := by simpa [Selector.regOf, zero] using e
    rw [valid'.inj e₁ e₂, register] at constant
    cases constant
  unfold Thread.read
  rw [regs_lookup h ne]

/-- Some thread holds the values in their registers. -/
lemma exists_thread (valid : st.Valid) (constants : ConstantsValued value) (mem : hw.Mem) :
    ∃ s : Thread hw Nat, ∀ v r, st.regOf v = some r → s.read r = value v := by
  classical
  let regs : Nat → Word := fun r =>
    if h : ∃ v, st.valueToVReg v = some r then value h.choose else 0
  refine ⟨⟨none, regs, mem, 0⟩, fun v r e => ?_⟩
  unfold Selector.regOf at e
  split at e
  · next zero =>
    obtain rfl := Option.some.inj e
    exact ((constants.new st).of_isZero valid zero).symm
  · have ex : ∃ v, st.valueToVReg v = some r := ⟨v, e⟩
    rw [read_of_pos (valid.range e).1]
    show regs r = value v
    rw [show regs r = value ex.choose from dif_pos ex, valid.inj ex.choose_spec e]

end Loads

end FpgaGpu

import FpgaGpu.Ir.Semantics
import FpgaGpu.Isel.Paths

/-!
# Integer operators on registers

An operator whose operands are in registers is lowered to one instruction. The operators that the
selector does not know become additions.
-/

namespace FpgaGpu

open Llvm (Value IntegerOpcode)
open Emission (bind_eq_some push_eq_some)

/-- The machine operation that an operator is lowered to, and its comment. -/
def operatorForm : IntegerOpcode → Opcode × String
  | .add => (.add, "add")
  | .sub => (.sub, "sub")
  | .mul => (.mul, "mul")
  | .shl => (.mul, "shl fallback mul")
  | .udiv | .sdiv | .urem | .srem | .lshr | .ashr | .and | .or | .xor => (.add, "")

/-- The one instruction of an operator. -/
def operatorInstruction (opcode : IntegerOpcode) (rd rs1 rs2 : Nat) : Instruction Nat :=
  { newInstruction (operatorForm opcode).1 with
    rd := rd, rs1 := rs1, rs2 := rs2, comment := (operatorForm opcode).2.toList }

section Operators

variable {opcode : IntegerOpcode} {op0 op1 : Value} {id : Nat} {st st' : Selector}
variable {out : List (Instruction Nat)}

/-- Operands in registers leave the register-register form. -/
lemma selectBinaryOp_register (self : Value) (register : isConstantInt op1 = false) :
    selectBinaryOp self opcode.toBinary op0 op1 = (getOrCreateVReg self >>= fun rd =>
      selectRegReg (operatorForm opcode).1 (operatorForm opcode).2 rd op0 op1) := by
  cases op1 with
  | constantInt => cases register
  | argument | instruction | other => cases opcode <;> rfl

/-- The register of a value that is no constant is read without loading it. -/
lemma getOrMaterializeVReg_register {v : Value} (register : isConstantInt v = false) :
    getOrMaterializeVReg v = getOrCreateVReg v := by
  cases v with
  | constantInt => cases register
  | argument | instruction | other => rfl

/-- An operator of registers is one instruction over the registers of its result and operands. -/
lemma selectBinaryOp_eq_some (valid : st.Valid) (register0 : isConstantInt op0 = false)
    (register1 : isConstantInt op1 = false)
    (h : selectBinaryOp (.instruction id) opcode.toBinary op0 op1 st = some ((), out, st')) :
    ∃ rd rs1 rs2, out = [operatorInstruction opcode rd rs1 rs2] ∧ 1 ≤ rd ∧
      st'.regOf (.instruction id) = some rd ∧ st'.regOf op0 = some rs1 ∧
        st'.regOf op1 = some rs2 := by
  rw [selectBinaryOp_register _ register1] at h
  obtain ⟨rd, out₁, st₁, rest₁, first, h₁, rfl⟩ := bind_eq_some.mp h
  obtain ⟨rs1, out₂, st₂, rest₂, second, h₂, rfl⟩ := bind_eq_some.mp h₁
  obtain ⟨rs2, out₃, st₃, rest₃, third, last, rfl⟩ := bind_eq_some.mp h₂
  obtain ⟨rfl, rfl⟩ := push_eq_some.mp last
  rw [getOrMaterializeVReg_register register0] at second
  rw [getOrMaterializeVReg_register register1] at third
  obtain ⟨rfl, valid₁, -, reg₁, pos⟩ := getOrCreateVReg_result valid first
  obtain ⟨rfl, valid₂, grows₂, reg₂⟩ := getOrCreateVReg_valid valid₁ second
  obtain ⟨rfl, -, grows₃, reg₃⟩ := getOrCreateVReg_valid valid₂ third
  exact ⟨rd, rs1, rs2, rfl, pos, (grows₂.trans grows₃).regOf reg₁, grows₃.regOf reg₂, reg₃⟩

end Operators

/-- The instruction leaves LLVM's result, where there is one. -/
def ComputesOperator (opcode : IntegerOpcode) (mi : Instruction Nat) : Prop :=
  ∀ (hw : Hardware) (s : Thread hw Nat) (z : Word),
    opcode.apply (s.read mi.rs1) (s.read mi.rs2) = some z → (execute s 0 mi).read mi.rd = z

/-- Both operands are one. -/
def ones : Thread Hardware.plain Nat where
  pc := none
  regs := fun _ => 1
  mem := ()
  flags := 0

/-- What the selected instruction computes. -/
lemma read_operatorInstruction {hw : Hardware} {opcode : IntegerOpcode} {rd rs1 rs2 : Nat}
    (s : Thread hw Nat) (pos : 1 ≤ rd) :
    (execute s 0 (operatorInstruction opcode rd rs1 rs2)).read rd =
      result s (operatorInstruction opcode rd rs1 rs2) := by
  have writes : (operatorInstruction opcode rd rs1 rs2).op.usesRd = true := by
    cases opcode <;> rfl
  have regs : (execute s 0 (operatorInstruction opcode rd rs1 rs2)).regs =
      Function.update s.regs rd (result s (operatorInstruction opcode rd rs1 rs2)) := if_pos writes
  rw [Thread.read, if_neg (by omega), regs, Function.update_self]

/-- The selected instruction computes the operator exactly if it is one of three. -/
lemma computesOperator_iff {opcode : IntegerOpcode} (notShl : opcode ≠ .shl) {rd rs1 rs2 : Nat}
    (pos : 1 ≤ rd) (pos1 : 1 ≤ rs1) (pos2 : 1 ≤ rs2) :
    ComputesOperator opcode (operatorInstruction opcode rd rs1 rs2) ↔
      opcode = .add ∨ opcode = .sub ∨ opcode = .mul := by
  constructor
  · intro computes
    have read1 : ones.read rs1 = 1 := if_neg (by omega)
    have read2 : ones.read rs2 = 1 := if_neg (by omega)
    have at_ones : ∀ z, opcode.apply 1 1 = some z →
        result ones (operatorInstruction opcode rd rs1 rs2) = z := by
      intro z e
      rw [← read_operatorInstruction ones pos]
      exact computes _ ones z (by rw [operatorInstruction, read1, read2, e])
    have sum : ∀ z, operatorForm opcode = (.add, "") → opcode.apply 1 1 = some z → 2 = z := by
      intro z form e
      rw [← at_ones z e]
      simp only [result, operatorInstruction, form, Instruction.ofOp, read1, read2]
      decide
    cases opcode with
    | add | sub | mul => simp
    | shl => exact absurd rfl notShl
    | udiv | sdiv | urem | srem | lshr | ashr | and | or | xor =>
      exact absurd (sum _ rfl rfl) (by decide)
  · rintro (rfl | rfl | rfl) hw s z e <;> rw [operatorInstruction] at e ⊢ <;>
      exact (read_operatorInstruction s pos).trans (Option.some.inj e)

/-- An operator on registers other than a shift to the left is lowered to one instruction, which
computes it exactly if it is an addition, a subtraction or a multiplication. The flags of an
operator (`disjoint`, `exact`, `nsw`, `nuw`) are no part of the model, as the selector does not read
them. -/
theorem selectFunction_computes_iff {dl : DataLayout} {f : Llvm.Function}
    {code : List SelectedBlock} {st : Selector} (h : selectFunction dl f = some (code, st))
    {b : Nat} {bb : Llvm.BasicBlock} {sb : SelectedBlock} (block : f.blocks[b]? = some bb)
    (selectedBlock : code[b]? = some sb) {i : Llvm.Instruction} (mem : i ∈ bb.body)
    {opcode : IntegerOpcode} {op0 op1 : Value}
    (binary : i.operation = .binary opcode.toBinary op0 op1) (notShl : opcode ≠ .shl)
    (register0 : isConstantInt op0 = false) (register1 : isConstantInt op1 = false) :
    ∃ before items after mi, Selecting dl f before (.inst i :: items) ∧
      selectInstruction dl f i before = some ((), [mi], after) ∧
      ⟨.instruction i.id, mi⟩ ∈ sb.items ∧ st.regOf (.instruction i.id) = some mi.rd ∧
      st.regOf op0 = some mi.rs1 ∧ st.regOf op1 = some mi.rs2 ∧
      (ComputesOperator opcode mi ↔ opcode = .add ∨ opcode = .sub ∨ opcode = .mul) := by
  obtain ⟨pieces, seen, chain, selected⟩ := selectFunction_pieces h
  obtain ⟨before, out, after, st₀, items, st₁, split, selecting, grows, select⟩ :=
    selected.select_instruction chain block selectedBlock mem
  have select' : selectBinaryOp (.instruction i.id) opcode.toBinary op0 op1 st₀ =
      some ((), out, st₁) := by
    rw [← select, selectInstruction, binary]
  obtain ⟨rd, rs1, rs2, rfl, pos, reg, reg1, reg2⟩ :=
    selectBinaryOp_eq_some selecting.valid register0 register1 select'
  have positive : ∀ {v r}, isConstantInt v = false → st.regOf v = some r → 1 ≤ r := by
    intro v r register e
    cases v with
    | constantInt => cases register
    | argument | instruction | other => exact (selected.valid.range e).1
  refine ⟨st₀, items, st₁, _, selecting, select, ?_, grows.regOf reg,
    grows.regOf reg1, grows.regOf reg2,
    computesOperator_iff notShl pos (positive register0 (grows.regOf reg1))
      (positive register1 (grows.regOf reg2))⟩
  rw [split]
  simp

/-- Joins the bits of its arguments. -/
def joinsBits : Llvm.Function where
  args := [{ name := "x".toList, ty := .int 32 }, { name := "y".toList, ty := .int 32 }]
  blocks :=
    [{ name := "entry".toList
       body := [⟨0, .binary IntegerOpcode.or.toBinary (.argument 0) (.argument 1)⟩]
       terminator := .ret (some (.instruction 0)) }]

/-- Its selected code. -/
def joinsBitsCode : List SelectedBlock × Selector :=
  (selectFunction words joinsBits).getD ([], .start)

/-- Adds its arguments. -/
def addsWords : Llvm.Function where
  args := [{ name := "x".toList, ty := .int 32 }, { name := "y".toList, ty := .int 32 }]
  blocks :=
    [{ name := "entry".toList
       body := [⟨0, .binary IntegerOpcode.add.toBinary (.argument 0) (.argument 1)⟩]
       terminator := .ret (some (.instruction 0)) }]

/-- Its selected code. -/
def addsWordsCode : List SelectedBlock × Selector :=
  (selectFunction words addsWords).getD ([], .start)

/-- The operator decides whether the code of `or` computes it. The code of `add` does. -/
theorem selectFunction_computes_or :
    (∃ sb before items after mi, joinsBitsCode.1[0]? = some sb ∧
      Selecting words joinsBits before
        (.inst ⟨0, .binary IntegerOpcode.or.toBinary (.argument 0) (.argument 1)⟩ :: items) ∧
      selectInstruction words joinsBits
        ⟨0, .binary IntegerOpcode.or.toBinary (.argument 0) (.argument 1)⟩ before =
          some ((), [mi], after) ∧
      ⟨.instruction 0, mi⟩ ∈ sb.items ∧ joinsBitsCode.2.regOf (.instruction 0) = some mi.rd ∧
      joinsBitsCode.2.regOf (.argument 0) = some mi.rs1 ∧
      joinsBitsCode.2.regOf (.argument 1) = some mi.rs2 ∧
      (ComputesOperator .or mi ↔
        IntegerOpcode.or = .add ∨ IntegerOpcode.or = .sub ∨ IntegerOpcode.or = .mul)) ∧
    ∃ sb before items after mi, addsWordsCode.1[0]? = some sb ∧
      Selecting words addsWords before
        (.inst ⟨0, .binary IntegerOpcode.add.toBinary (.argument 0) (.argument 1)⟩ :: items) ∧
      selectInstruction words addsWords
        ⟨0, .binary IntegerOpcode.add.toBinary (.argument 0) (.argument 1)⟩ before =
          some ((), [mi], after) ∧
      ⟨.instruction 0, mi⟩ ∈ sb.items ∧ addsWordsCode.2.regOf (.instruction 0) = some mi.rd ∧
      addsWordsCode.2.regOf (.argument 0) = some mi.rs1 ∧
      addsWordsCode.2.regOf (.argument 1) = some mi.rs2 ∧ ComputesOperator .add mi := by
  constructor
  · have select : selectFunction words joinsBits = some joinsBitsCode := rfl
    obtain ⟨before, items, after, mi, selecting, lowered, mem, reg, reg₁, reg₂, computes⟩ :=
      selectFunction_computes_iff select (b := 0) rfl rfl List.mem_cons_self rfl nofun rfl rfl
    exact ⟨_, before, items, after, mi, rfl, selecting, lowered, mem, reg, reg₁, reg₂, computes⟩
  · have select : selectFunction words addsWords = some addsWordsCode := rfl
    obtain ⟨before, items, after, mi, selecting, lowered, mem, reg, reg₁, reg₂, computes⟩ :=
      selectFunction_computes_iff select (b := 0) rfl rfl List.mem_cons_self rfl nofun rfl rfl
    exact ⟨_, before, items, after, mi, rfl, selecting, lowered, mem, reg, reg₁, reg₂,
      computes.mpr (.inl rfl)⟩

/-- One or one is one, but the selected code adds them. -/
theorem selectFunction_miscomputes : ∃ sb e, joinsBitsCode.1[0]? = some sb ∧ sb.items[4]? = some e ∧
    e.origin = .instruction 0 ∧
    joinsBitsCode.2.valueToVReg (.instruction 0) = some e.mi.rd ∧
    joinsBitsCode.2.valueToVReg (.argument 0) = some e.mi.rs1 ∧
    joinsBitsCode.2.valueToVReg (.argument 1) = some e.mi.rs2 ∧
    IntegerOpcode.or.apply (ones.read e.mi.rs1) (ones.read e.mi.rs2) = some 1 ∧
    (execute ones 0 e.mi).read e.mi.rd = 2 :=
  ⟨_, _, rfl, rfl, rfl, rfl, rfl, rfl, by decide, by decide⟩

end FpgaGpu

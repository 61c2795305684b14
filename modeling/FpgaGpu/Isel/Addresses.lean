import FpgaGpu.Isel.Operands
import FpgaGpu.Lib.LinearForm

/-!
# Addresses

LLVM adds up the indices of a `getelementptr` times the strides of the types that they step over.
The selected code scales the last index alone, by the size of the source element type. Both are
linear forms of the indices.
-/

namespace FpgaGpu

open Llvm (Value)
open Emission (bind_eq_some push_eq_some)

/-! ## Layouts -/

/-- How a type is composed, as far as `getelementptr` steps into it. -/
inductive Composition where
  | scalar
  -- an array or a vector
  | sequence (element : Llvm.Ty)
  -- the fields with their offsets in the layout
  | struct (fields : List (Llvm.Ty × BitVec 64))

/-- What an index adds to an address. -/
inductive AddressStep where
  | index (index : Value) (stride : BitVec 64)
  | field (offset : BitVec 64)

/-- The steps of indices into a type. -/
def stepsInto (dl : DataLayout) (composition : Llvm.Ty → Composition) :
    Llvm.Ty → List Value → Option (List AddressStep)
  | _, [] => some []
  | ty, index :: indices =>
    match composition ty, index with
    | .scalar, _ => none
    | .sequence element, index => do
      let steps ← stepsInto dl composition element indices
      return .index index (dl.typeAllocSize element) :: steps
    | .struct fields, .constantInt _ bits => do
      let (ty, offset) ← fields[bits.toNat]?
      let steps ← stepsInto dl composition ty indices
      return .field offset :: steps
    | .struct _, _ => none

/-- The steps of a `getelementptr`. The first index steps over the source element type. -/
def addressSteps (dl : DataLayout) (composition : Llvm.Ty → Composition) (sourceElement : Llvm.Ty) :
    List Value → Option (List AddressStep)
  | [] => none
  | index :: indices => do
    let steps ← stepsInto dl composition sourceElement indices
    return .index index (dl.typeAllocSize sourceElement) :: steps

/-- The offset that LLVM adds to the pointer, for indices that are sign-extended to 64 bits. -/
def offset (index : Value → BitVec 64) : List AddressStep → BitVec 64
  | [] => 0
  | .index i stride :: steps => index i * stride + offset index steps
  | .field off :: steps => off + offset index steps

/-- The constant part of an offset, modulo 2^32. -/
def constantPart : List AddressStep → Word
  | [] => 0
  | .index (.constantInt _ bits) stride :: steps =>
    (bits.signExtend 64).setWidth 32 * stride.setWidth 32 + constantPart steps
  | .index _ _ :: steps => constantPart steps
  | .field off :: steps => off.setWidth 32 + constantPart steps

/-- The indices that are no constants, with their strides modulo 2^32. -/
def scaledIndices : List AddressStep → List (Value × Word)
  | [] => []
  | .index (.constantInt _ _) _ :: steps => scaledIndices steps
  | .index i stride :: steps => (i, stride.setWidth 32) :: scaledIndices steps
  | .field _ :: steps => scaledIndices steps

/-- What the code adds: the last index, times the size of the source element type or 1 if that is
less. -/
def selectedSteps (elemSize : BitVec 64) (last : Value) : List AddressStep :=
  [.index last (if elemSize > 1 then elemSize else 1)]

/-- The constant parts are the same modulo 2^32, and so are the sums of the strides of each
index. -/
def StridesMatch (steps steps' : List AddressStep) : Prop :=
  constantPart steps = constantPart steps' ∧ ∀ v,
    LinearForm.coefficient v (scaledIndices steps) = LinearForm.coefficient v (scaledIndices steps')

/-- The index of a constant is its number. -/
def ConstantsIndexed (index : Value → BitVec 64) : Prop :=
  ∀ w (bits : BitVec w), index (.constantInt w bits) = bits.signExtend 64

/-- What registers hold of indices. -/
def low (index : Value → BitVec 64) (v : Value) : Word := (index v).setWidth 32

section Offsets

variable {index : Value → BitVec 64}

lemma ConstantsIndexed.valued (constants : ConstantsIndexed index) :
    ConstantsValued (low index) := by
  intro w bits
  rw [low, constants]

/-- An offset as a linear form of the indices. -/
lemma setWidth_offset (constants : ConstantsIndexed index) (steps : List AddressStep) :
    (offset index steps).setWidth 32 =
      constantPart steps + LinearForm.eval (low index) (scaledIndices steps) := by
  induction steps with
  | nil => rfl
  | cons step steps ih =>
    cases step with
    | field off =>
      rw [offset, BitVec.setWidth_add _ _ (by decide), ih, constantPart, scaledIndices, add_assoc]
    | index i stride =>
      rw [offset, BitVec.setWidth_add _ _ (by decide), BitVec.setWidth_mul _ _ (by decide), ih]
      cases i with
      | constantInt w bits =>
        rw [constants, constantPart, scaledIndices, add_assoc]
      | argument | instruction | other => exact add_left_comm ..

/-- No constant is among the scaled indices. -/
lemma not_constant_of_mem_scaledIndices {steps : List AddressStep} {t : Value × Word}
    (mem : t ∈ scaledIndices steps) : isConstantInt t.1 = false := by
  induction steps with
  | nil => cases mem
  | cons step steps ih =>
    cases step with
    | field off => exact ih mem
    | index i stride =>
      cases i with
      | constantInt => exact ih mem
      | argument | instruction | other =>
        obtain rfl | mem := List.mem_cons.mp mem
        · rfl
        · exact ih mem

/-- Indices may have any words but for the constants. -/
lemma exists_index (value : Value → Word) :
    ∃ index, ConstantsIndexed index ∧ ∀ v, isConstantInt v = false → low index v = value v := by
  have choice : ∀ v, ∃ x : BitVec 64, (∀ w bits, v = .constantInt w bits → x = bits.signExtend 64) ∧
      (isConstantInt v = false → x.setWidth 32 = value v) := by
    intro v
    by_cases constant : ∃ w bits, v = .constantInt w bits
    · obtain ⟨w, bits, rfl⟩ := constant
      refine ⟨bits.signExtend 64, fun w' bits' e => ?_, fun register => by cases register⟩
      cases e
      rfl
    · refine ⟨(value v).signExtend 64, fun w bits e => absurd ⟨w, bits, e⟩ constant, fun _ => ?_⟩
      exact (setWidth_signExtend _).trans BitVec.ofInt_toInt
  choose index constant register using choice
  exact ⟨index, fun w bits => constant _ w bits rfl, register⟩

/-- Offsets agree for all indices exactly if the strides match. -/
lemma offset_eq_iff {steps steps' : List AddressStep} :
    (∀ index, ConstantsIndexed index →
        (offset index steps).setWidth 32 = (offset index steps').setWidth 32) ↔
          StridesMatch steps steps' := by
  rw [StridesMatch, ← LinearForm.eval_eq_iff]
  constructor
  · intro same value
    obtain ⟨index, constants, words⟩ := exists_index value
    have congr : ∀ steps, LinearForm.eval (low index) (scaledIndices steps) =
        LinearForm.eval value (scaledIndices steps) := fun steps =>
      LinearForm.eval_congr fun t mem => words t.1 (not_constant_of_mem_scaledIndices mem)
    have eq := same index constants
    rwa [setWidth_offset constants, setWidth_offset constants, congr, congr] at eq
  · intro same index constants
    rw [setWidth_offset constants, setWidth_offset constants, same]

end Offsets

/-! ## The code of an address -/

section Code

variable {dl : DataLayout} {value : Value → Word} {ptr last : Value} {n : Nat} {st st' : Selector}
variable {baseReg dstReg : Nat} {elemSize : BitVec 64} {out : List (Instruction Nat)}

/-- The end of the code of an address. -/
def scaleAndAdd (elemSize : BitVec 64) (baseReg dstReg idxReg : Nat) : Sel Unit :=
  if elemSize > 1 then do
    let byteOffsetReg ← allocateVReg
    let elemSizeReg ← allocateVReg
    Emission.push { newInstruction .addi with
      rd := elemSizeReg, imm := elemSize.setWidth 32, comment := "elem size".toList }
    Emission.push { newInstruction .mul with
      rd := byteOffsetReg, rs1 := idxReg, rs2 := elemSizeReg
      comment := "scale index by elem size".toList }
    Emission.push { newInstruction .add with
      rd := dstReg, rs1 := baseReg, rs2 := byteOffsetReg, comment := "gep dynamic offset".toList }
  else
    Emission.push { newInstruction .add with
      rd := dstReg, rs1 := baseReg, rs2 := idxReg, comment := "gep dynamic offset".toList }

lemma selectGEP_scaleAndAdd {self : Value} {sourceElement : Llvm.Ty} {indices : List Value}
    (none : constantOffset? dl sourceElement indices = none) :
    selectGEP dl self sourceElement ptr indices = (do
      let baseReg ← getOrCreateVReg ptr
      let dstReg ← getOrCreateVReg self
      let idxReg ← getOrMaterializeVReg (indices.getLast?.getD ptr)
      scaleAndAdd (dl.typeAllocSize sourceElement) baseReg dstReg idxReg) := by
  unfold selectGEP
  rw [none]
  rfl

/-- The index is scaled and added to the base. -/
lemma scaleAndAdd_read {idxReg : Nat} (valid : st.Valid) (pos : 1 ≤ dstReg) {u v : Value}
    (base : st.regOf u = some baseReg) (idx : st.regOf v = some idxReg)
    (h : scaleAndAdd elemSize baseReg dstReg idxReg st = some ((), out, st')) :
    Grows st st' ∧ ∀ {hw : Hardware} (s : Thread hw Nat), (executeThrough id s out).read dstReg =
      s.read baseReg + s.read idxReg * (if elemSize > 1 then elemSize else 1).setWidth 32 := by
  unfold scaleAndAdd at h
  split at h
  · next large =>
    obtain ⟨byteOffsetReg, out₁, st₁, rest₁, first, h₁, rfl⟩ := bind_eq_some.mp h
    obtain ⟨elemSizeReg, out₂, st₂, rest₂, second, h₂, rfl⟩ := bind_eq_some.mp h₁
    obtain ⟨_, out₃, st₃, rest₃, push₁, h₃, rfl⟩ := bind_eq_some.mp h₂
    obtain ⟨_, out₄, st₄, rest₄, push₂, push₃, rfl⟩ := bind_eq_some.mp h₃
    obtain ⟨rfl, rfl⟩ := push_eq_some.mp push₁
    obtain ⟨rfl, rfl⟩ := push_eq_some.mp push₂
    obtain ⟨rfl, rfl⟩ := push_eq_some.mp push₃
    obtain ⟨rfl, valid₁, grows₁, temp₁, -⟩ := allocateVReg_valid valid first
    obtain ⟨rfl, -, grows₂, temp₂, -⟩ := allocateVReg_valid valid₁ second
    have grows := grows₁.trans grows₂
    have base₁ : baseReg ≠ byteOffsetReg := (grows₂.temp temp₁).ne_regOf (grows.regOf base)
    have base₂ : baseReg ≠ elemSizeReg := temp₂.ne_regOf (grows.regOf base)
    have idx₂ : idxReg ≠ elemSizeReg := temp₂.ne_regOf (grows.regOf idx)
    refine ⟨grows, fun {hw} s => ?_⟩
    rw [if_pos large, List.nil_append, List.nil_append, ← List.append_assoc,
      read_executeThrough_last rfl pos, executeThrough_append]
    -- the size, the product and the sum
    generalize loaded : executeThrough id s [_] = s₁
    have regs₁ : s₁.regs = Function.update s.regs elemSizeReg (0 + elemSize.setWidth 32) :=
      loaded ▸ regs_executeThrough rfl
    generalize scaled : executeThrough id s₁ [_] = s₂
    have regs₂ : s₂.regs =
        Function.update s₁.regs byteOffsetReg (s₁.read idxReg * s₁.read elemSizeReg) :=
      scaled ▸ regs_executeThrough rfl
    have size : s₁.read elemSizeReg = elemSize.setWidth 32 := by
      rw [read_of_pos temp₂.1, regs₁, Function.update_self]
      exact BitVec.zero_add _
    have index : s₁.read idxReg = s.read idxReg := by
      unfold Thread.read
      rw [regs₁, Function.update_of_ne idx₂]
    have product : s₂.read byteOffsetReg = s.read idxReg * elemSize.setWidth 32 := by
      rw [read_of_pos temp₁.1, regs₂, Function.update_self, index, size]
    have kept : s₂.read baseReg = s.read baseReg := by
      unfold Thread.read
      rw [regs₂, Function.update_of_ne base₁, regs₁, Function.update_of_ne base₂]
    rw [← product, ← kept]
    rfl
  · next small =>
    obtain ⟨rfl, rfl⟩ := push_eq_some.mp h
    refine ⟨.refl _, fun {hw} s => ?_⟩
    rw [if_neg small]
    refine (read_executeThrough_last rfl pos []).trans ?_
    exact congrArg (s.read baseReg + ·) (BitVec.mul_one _).symm

/-- The code of an address leaves the base and the scaled last index. -/
lemma selectGEP_read {sourceElement : Llvm.Ty} {indices : List Value} (valid : st.Valid)
    (pointer : isConstantInt ptr = false) (none : constantOffset? dl sourceElement indices = none)
    (e : indices.getLast?.getD ptr = last)
    (h : selectGEP dl (.instruction n) sourceElement ptr indices st = some ((), out, st')) :
    ∃ rd, st'.regOf (.instruction n) = some rd ∧
      ∀ {hw : Hardware} {value : Value → Word} {s : Thread hw Nat}, ConstantsValued value →
        Holding value st st' [ptr, last] s → (executeThrough id s out).read rd = value ptr +
          value last * (if dl.typeAllocSize sourceElement > 1 then dl.typeAllocSize sourceElement
            else 1).setWidth 32 := by
  rw [selectGEP_scaleAndAdd none, e] at h
  obtain ⟨baseReg, out₁, st₁, rest₁, first, h₁, rfl⟩ := bind_eq_some.mp h
  obtain ⟨rd, out₂, st₂, rest₂, second, h₂, rfl⟩ := bind_eq_some.mp h₁
  obtain ⟨idxReg, out₃, st₃, rest₃, third, h₃, rfl⟩ := bind_eq_some.mp h₂
  have third : lookup last true st₂ = _ := third
  have loaded : Loaded st₂ last ↔ Loaded st last :=
    (loaded_congr rfl second).trans (loaded_congr pointer first)
  obtain ⟨rfl, valid₁, grows₁, reg₁⟩ := getOrCreateVReg_valid valid first
  obtain ⟨rfl, valid₂, grows₂, reg₂, pos⟩ := getOrCreateVReg_result valid₁ second
  obtain ⟨valid₃, grows₃, reg₃⟩ := lookup_valid valid₂ third
  have base : st₃.regOf ptr = some baseReg := (grows₂.trans grows₃).regOf reg₁
  obtain ⟨grows, read⟩ := scaleAndAdd_read valid₃ pos base reg₃ h₃
  refine ⟨rd, (grows₃.trans grows).regOf reg₂, fun {hw value s} constants held => ?_⟩
  have index := read_lookup (g := id) valid₂ constants third fun kept =>
    held last (by simp) (fun h => kept (loaded.mpr h)) _ (grows.regOf reg₃)
  rw [id, ite_self] at index
  rw [List.nil_append, List.nil_append, executeThrough_append, read, index,
    read_lookup_of_register valid₂ third (.refl _) valid₃ pointer base,
    held ptr (by simp) (not_loaded_of_register pointer) _ (grows.regOf base)]

end Code

/-- A `getelementptr` that has an index that is no constant is lowered to code that computes its
address exactly if the strides of its indices match those that the code takes. -/
theorem selectFunction_addresses_iff {dl : DataLayout} {composition : Llvm.Ty → Composition}
    {f : Llvm.Function} {code : List SelectedBlock} {st : Selector}
    (h : selectFunction dl f = some (code, st)) {b : Nat} {bb : Llvm.BasicBlock}
    {sb : SelectedBlock} (block : f.blocks[b]? = some bb) (selectedBlock : code[b]? = some sb)
    {i : Llvm.Instruction} (mem : i ∈ bb.body) {sourceElement : Llvm.Ty} {ptr : Value}
    {indices : List Value} (gep : i.operation = .getelementptr sourceElement ptr indices)
    (pointer : isConstantInt ptr = false) (varying : indices.all isConstantInt = false)
    {steps : List AddressStep}
    (typed : addressSteps dl composition sourceElement indices = some steps) :
    ∃ before out after st₀ items st₁ rd last,
      sb.items = before ++ out.map (Emitted.mk (.instruction i.id)) ++ after ∧
      Selecting dl f st₀ (.inst i :: items) ∧
      selectInstruction dl f i st₀ = some ((), out, st₁) ∧
      st.regOf (.instruction i.id) = some rd ∧ indices.getLast? = some last ∧
      ((∀ index, ConstantsIndexed index → ∀ (hw : Hardware) (s : Thread hw Nat),
          Holding (low index) st₀ st [ptr, last] s →
          (executeAll s out).read rd = low index ptr + (offset index steps).setWidth 32) ↔
        StridesMatch steps (selectedSteps (dl.typeAllocSize sourceElement) last)) := by
  obtain ⟨pieces, seen, chain, selected⟩ := selectFunction_pieces h
  obtain ⟨before, out, after, st₀, items, st₁, split, selecting, grows, select⟩ :=
    selected.select_instruction chain block selectedBlock mem
  have select' : selectGEP dl (.instruction i.id) sourceElement ptr indices st₀ =
      some ((), out, st₁) := by
    rw [← select, selectInstruction, gep]
  obtain ⟨last, e⟩ : ∃ last, indices.getLast? = some last := by
    cases indices with
    | nil => cases typed
    | cons v indices => exact ⟨_, List.getLast?_cons⟩
  have none : constantOffset? dl sourceElement indices = none := if_neg (by simp [varying])
  obtain ⟨rd, reg, read⟩ := selectGEP_read selecting.valid pointer none (by rw [e]) select'
  refine ⟨before, out, after, st₀, items, st₁, rd, last, split, selecting, select,
    grows.regOf reg, e, ?_⟩
  rw [← offset_eq_iff]
  have leaves : ∀ {index}, ConstantsIndexed index → ∀ {hw : Hardware} {s : Thread hw Nat},
      Holding (low index) st₀ st [ptr, last] s → (executeAll s out).read rd = low index ptr +
        (offset index (selectedSteps (dl.typeAllocSize sourceElement) last)).setWidth 32 := by
    intro index constants hw s held
    rw [← executeThrough_id, read constants.valued fun v mem kept r e =>
      held v mem kept r (grows.regOf e)]
    congr 1
    exact (BitVec.setWidth_mul _ _ (by decide)).symm.trans (congrArg _ (BitVec.add_zero _).symm)
  constructor
  · intro computes index constants
    obtain ⟨s, holds⟩ : ∃ s : Thread Hardware.plain Nat, ∀ v r, st.regOf v = some r →
        s.read r = _ := exists_thread selected.valid constants.valued ()
    have held : Holding (low index) st₀ st [ptr, last] s := fun v _ _ r e => holds v r e
    exact add_left_cancel ((computes index constants _ s held).symm.trans (leaves constants held))
  · intro same index constants hw s held
    rw [leaves constants held, same index constants]

/-- A layout with an array of ten words. -/
def tenWords : DataLayout where
  typeAllocSize := fun ty => if ty = .other 0 then 40 else 4
  accumulateConstantOffset := fun _ _ => none

/-- The array is composed of words. -/
def arrayOfWords (ty : Llvm.Ty) : Composition :=
  if ty = .other 0 then .sequence (.int 32) else .scalar

/-- The address of an element of an array. -/
def addresses : Llvm.Function where
  args := [{ name := "p".toList, ty := .ptr }, { name := "i".toList, ty := .int 32 }]
  blocks :=
    [{ name := "entry".toList
       body := [⟨0, .getelementptr (.other 0) (.argument 0) [.constantInt 32 0, .argument 1]⟩]
       terminator := .ret none }]

/-- Its selected code. -/
def addressesCode : List SelectedBlock × Selector :=
  (selectFunction tenWords addresses).getD ([], .start)

/-- The steps of the address. -/
def elementSteps : List AddressStep := [.index (.constantInt 32 0) 40, .index (.argument 1) 4]

/-- The address of a word. -/
def addressesWord : Llvm.Function where
  args := [{ name := "p".toList, ty := .ptr }, { name := "i".toList, ty := .int 32 }]
  blocks :=
    [{ name := "entry".toList
       body := [⟨0, .getelementptr (.int 32) (.argument 0) [.argument 1]⟩]
       terminator := .ret none }]

/-- Its selected code. -/
def addressesWordCode : List SelectedBlock × Selector :=
  (selectFunction tenWords addressesWord).getD ([], .start)

/-- For an element of an array the strides decide. For a single index they match, so the code leaves
the address. -/
theorem selectFunction_addresses_element :
    (∃ sb before out after st₀ items st₁ rd, addressesCode.1[0]? = some sb ∧
      sb.items = before ++ out.map (Emitted.mk (.instruction 0)) ++ after ∧
      Selecting tenWords addresses st₀ (.inst ⟨0, .getelementptr (.other 0) (.argument 0)
        [.constantInt 32 0, .argument 1]⟩ :: items) ∧
      selectInstruction tenWords addresses ⟨0, .getelementptr (.other 0) (.argument 0)
        [.constantInt 32 0, .argument 1]⟩ st₀ = some ((), out, st₁) ∧
      addressesCode.2.regOf (.instruction 0) = some rd ∧
      ((∀ index, ConstantsIndexed index → ∀ (hw : Hardware) (s : Thread hw Nat),
          Holding (low index) st₀ addressesCode.2 [.argument 0, .argument 1] s →
          (executeAll s out).read rd =
            low index (.argument 0) + (offset index elementSteps).setWidth 32) ↔
        StridesMatch elementSteps (selectedSteps 40 (.argument 1)))) ∧
    ∃ sb before out after st₀ items st₁ rd, addressesWordCode.1[0]? = some sb ∧
      sb.items = before ++ out.map (Emitted.mk (.instruction 0)) ++ after ∧
      Selecting tenWords addressesWord st₀
        (.inst ⟨0, .getelementptr (.int 32) (.argument 0) [.argument 1]⟩ :: items) ∧
      selectInstruction tenWords addressesWord
        ⟨0, .getelementptr (.int 32) (.argument 0) [.argument 1]⟩ st₀ = some ((), out, st₁) ∧
      addressesWordCode.2.regOf (.instruction 0) = some rd ∧
      ∀ index, ConstantsIndexed index → ∀ (hw : Hardware) (s : Thread hw Nat),
        Holding (low index) st₀ addressesWordCode.2 [.argument 0, .argument 1] s →
        (executeAll s out).read rd =
          low index (.argument 0) + (offset index [.index (.argument 1) 4]).setWidth 32 := by
  constructor
  · have select : selectFunction tenWords addresses = some addressesCode := rfl
    have typed : addressSteps tenWords arrayOfWords (.other 0) [.constantInt 32 0, .argument 1] =
      some elementSteps := rfl
    obtain ⟨before, out, after, st₀, items, st₁, rd, last, split, selecting,
        lowered, reg, e, computes⟩ :=
      selectFunction_addresses_iff select (b := 0) rfl rfl List.mem_cons_self rfl rfl rfl typed
    obtain rfl := Option.some.inj e
    exact ⟨_, before, out, after, st₀, items, st₁, rd, rfl, split, selecting,
      lowered, reg, computes⟩
  · have select : selectFunction tenWords addressesWord = some addressesWordCode := rfl
    have typed : addressSteps tenWords arrayOfWords (.int 32) [.argument 1] =
      some [.index (.argument 1) 4] := rfl
    obtain ⟨before, out, after, st₀, items, st₁, rd, last, split, selecting,
        lowered, reg, e, computes⟩ :=
      selectFunction_addresses_iff select (b := 0) rfl rfl List.mem_cons_self rfl rfl rfl typed
    obtain rfl := Option.some.inj e
    have matching : StridesMatch [.index (.argument 1) 4] (selectedSteps 4 (.argument 1)) :=
      ⟨rfl, fun _ => rfl⟩
    exact ⟨_, before, out, after, st₀, items, st₁, rd, rfl, split, selecting, lowered, reg,
      computes.mpr matching⟩

/-- The registers hold the pointer 0 and the index 1. -/
def secondElement : Thread Hardware.plain Nat where
  pc := none
  regs := fun r => if r = 3 then 1 else 0
  mem := ()
  flags := 0

/-- The second element is 4 bytes behind the first one, but the code adds 40. -/
theorem selectFunction_misaddresses : ∃ (sb : SelectedBlock) (out : List (Instruction Nat)),
    addressesCode.1[0]? = some sb ∧
    (sb.items.drop 4).take 3 = out.map (Emitted.mk (.instruction 0)) ∧
    addressesCode.2.valueToVReg (.argument 0) = some 1 ∧
    addressesCode.2.valueToVReg (.argument 1) = some 3 ∧
    addressesCode.2.valueToVReg (.instruction 0) = some 5 ∧
    secondElement.read 1 = 0 ∧ secondElement.read 3 = 1 ∧
    (executeAll secondElement out).read 5 = 40 ∧
    ∀ index, ConstantsIndexed index → index (.argument 1) = 1 → offset index elementSteps = 4 := by
  refine ⟨_, ((addressesCode.1[0]?.map SelectedBlock.items).getD []).drop
    4 |>.take 3 |>.map Emitted.mi, rfl, rfl, rfl, rfl, rfl, rfl, rfl, rfl,
    fun index constants one => ?_⟩
  rw [elementSteps, offset, offset, offset, constants, one]
  rfl

end FpgaGpu

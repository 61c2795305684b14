import FpgaGpu.Isel.Shifts

/-!
# Work-item functions

`runtime/device_intrinsics.h` computes the ids of a thread from its system registers and a
dimension. The selector emits the same computation, but for dimension 0 wherever the dimension is no
constant.
-/

namespace FpgaGpu

open Llvm (Value)
open Emission (bind_eq_some push_eq_some)

/-! ## The device header -/

section Header

variable (sr : SysReg → Word) (dim : Word)

/-- `get_local_id`. -/
def getLocalId : Word := if dim = 0 then sr .tidX else sr .tidY

/-- `get_group_id`. -/
def getGroupId : Word := if dim = 0 then sr .bidX else sr .bidY

/-- `get_global_id`. -/
def getGlobalId : Word :=
  if dim = 0 then (sr .bidX + sr .bidX) + sr .tidX else sr .bidY + sr .tidY

end Header

/-- The functions of the header that take a dimension. -/
inductive WorkItem where
  | globalId | localId | groupId
  deriving DecidableEq, Repr

namespace WorkItem

/-- The name that a call gives. -/
def name : WorkItem → Text
  | .globalId => "get_global_id".toList
  | .localId => "get_local_id".toList
  | .groupId => "get_group_id".toList

/-- What the header computes. -/
def compute : WorkItem → (SysReg → Word) → Word → Word
  | .globalId => getGlobalId
  | .localId => getLocalId
  | .groupId => getGroupId

/-- The system registers give the same id in all dimensions. -/
def Uniform (fn : WorkItem) (sr : SysReg → Word) : Prop :=
  match fn with
  | .globalId => sr .bidX + sr .bidX + sr .tidX = sr .bidY + sr .tidY
  | .localId => sr .tidX = sr .tidY
  | .groupId => sr .bidX = sr .bidY

/-- Another dimension has another id, unless all have the same. -/
lemma compute_zero_eq_iff (fn : WorkItem) (sr : SysReg → Word) {dim : Word} :
    fn.compute sr 0 = fn.compute sr dim ↔ dim = 0 ∨ fn.Uniform sr := by
  by_cases zero : dim = 0
  · subst zero
    exact ⟨fun _ => .inl rfl, fun _ => rfl⟩
  · rw [or_iff_right zero]
    cases fn with
    | globalId =>
      have second : getGlobalId sr dim = sr .bidY + sr .tidY := if_neg zero
      rw [compute, second]
      rfl
    | localId =>
      have second : getLocalId sr dim = sr .tidY := if_neg zero
      rw [compute, second]
      rfl
    | groupId =>
      have second : getGroupId sr dim = sr .bidY := if_neg zero
      rw [compute, second]
      rfl

end WorkItem

/-! ## The code of a call -/

/-- The system registers as the hardware numbers them. -/
def Hardware.ids (hw : Hardware) (sr : SysReg) : Word := hw.sysReg sr.val

section Code

variable {g : Word → Word} {st st' : Selector} {out : List (Instruction Nat)} {id : Nat}

/-- The code leaves the id of a dimension in the register of the call. -/
def LeavesId (fn : WorkItem) (g : Word → Word) (dim : Word) (st' : Selector) (id : Nat)
    (out : List (Instruction Nat)) : Prop :=
  ∃ rd, st'.regOf (.instruction id) = some rd ∧ ∀ {hw : Hardware} (s : Thread hw Nat),
    (executeThrough g s out).read rd = fn.compute hw.ids dim

/-- A read of a system register. -/
lemma selectS2R_leaves {sr : SysReg} {comment : String} (kept : ∀ sr : SysReg, g sr.val = sr.val)
    (valid : st.Valid) (h : selectS2R (.instruction id) sr.val comment st = some ((), out, st')) :
    ∃ rd, st'.regOf (.instruction id) = some rd ∧ ∀ {hw : Hardware} (s : Thread hw Nat),
      (executeThrough g s out).read rd = hw.ids sr := by
  obtain ⟨rd, out₁, st₁, rest, first, last, rfl⟩ := bind_eq_some.mp h
  obtain ⟨rfl, rfl⟩ := push_eq_some.mp last
  obtain ⟨-, -, -, reg, pos⟩ := getOrCreateVReg_result valid first
  refine ⟨rd, reg, fun {hw} s => ?_⟩
  rw [read_executeThrough_last rfl pos]
  show hw.sysReg (g sr.val) = hw.sysReg sr.val
  rw [kept]

/-- The reads of the system registers of a dimension. -/
def readIds (dim : Word) (tid bid : Nat) : List (Instruction Nat) :=
  [{ newInstruction .s2r with
      rd := tid, imm := (if dim = 0 then SysReg.tidX else .tidY).val
      comment := (if dim = 0 then "s2r TID.X" else "s2r TID.Y").toList },
    { newInstruction .s2r with
      rd := bid, imm := (if dim = 0 then SysReg.bidX else .bidY).val
      comment := (if dim = 0 then "s2r BID.X" else "s2r BID.Y").toList }]

lemma read_readIds {hw : Hardware} (dim : Word) {tid bid : Nat}
    (kept : ∀ sr : SysReg, g sr.val = sr.val) (pos : 1 ≤ tid) (lt : tid < bid) (s : Thread hw Nat) :
    (executeThrough g s (readIds dim tid bid)).read tid =
      hw.ids (if dim = 0 then .tidX else .tidY) ∧
      (executeThrough g s (readIds dim tid bid)).read bid =
        hw.ids (if dim = 0 then .bidX else .bidY) := by
  have regs : (executeThrough g s (readIds dim tid bid)).regs =
      Function.update (Function.update s.regs tid
        (hw.sysReg (g (if dim = 0 then SysReg.tidX else .tidY).val)))
        bid (hw.sysReg (g (if dim = 0 then SysReg.bidX else .bidY).val)) := rfl
  rw [read_of_pos pos, read_of_pos (by omega), regs, Function.update_self,
    Function.update_of_ne lt.ne, Function.update_self, kept, kept]
  exact ⟨rfl, rfl⟩

/-- The sums behind the reads. -/
def sumIds (dim : Word) (tid bid bid2 rd : Nat) : List (Instruction Nat) :=
  if dim = 0 then
    [{ newInstruction .add with rd := bid2, rs1 := bid, rs2 := bid, comment := "bid * 2".toList },
      { newInstruction .add with
        rd := rd, rs1 := bid2, rs2 := tid, comment := "global_id = bid*2 + tid".toList }]
  else
    [{ newInstruction .add with
        rd := rd, rs1 := bid, rs2 := tid, comment := "global_id = bid + tid".toList }]

/-- The code of `get_global_id` uses three registers of its own, given out one after the other. -/
lemma selectGlobalId_eq_some {dim : Word} (valid : st.Valid)
    (h : selectGlobalId (.instruction id) dim st = some ((), out, st')) :
    ∃ tid bid bid2 rd, 1 ≤ tid ∧ tid < bid ∧ bid < bid2 ∧ 1 ≤ rd ∧
      st'.regOf (.instruction id) = some rd ∧
      out = readIds dim tid bid ++ sumIds dim tid bid bid2 rd := by
  obtain ⟨tid, out₁, st₁, rest₁, first, h₁, rfl⟩ := bind_eq_some.mp h
  obtain ⟨bid, out₂, st₂, rest₂, second, h₂, rfl⟩ := bind_eq_some.mp h₁
  obtain ⟨bid2, out₃, st₃, rest₃, third, h₃, rfl⟩ := bind_eq_some.mp h₂
  obtain ⟨rd, out₄, st₄, rest₄, dst, h₄, rfl⟩ := bind_eq_some.mp h₃
  obtain ⟨_, out₅, st₅, rest₅, push₁, h₅, rfl⟩ := bind_eq_some.mp h₄
  obtain ⟨_, out₆, st₆, rest₆, push₂, h₆, rfl⟩ := bind_eq_some.mp h₅
  obtain ⟨rfl, rfl⟩ := push_eq_some.mp push₁
  obtain ⟨rfl, rfl⟩ := push_eq_some.mp push₂
  obtain ⟨rfl, valid₁, -, temp₁, -⟩ := allocateVReg_valid valid first
  obtain ⟨rfl, valid₂, -, temp₂, -⟩ := allocateVReg_valid valid₁ second
  obtain ⟨rfl, valid₃, -, -, -⟩ := allocateVReg_valid valid₂ third
  obtain ⟨rfl, -, -, reg, pos⟩ := getOrCreateVReg_result valid₃ dst
  have lt₁ : tid < bid := by
    obtain rfl : st₁.nextVReg = bid := congrArg Prod.fst (Option.some.inj second)
    exact temp₁.2.1
  have lt₂ : bid < bid2 := by
    obtain rfl : st₂.nextVReg = bid2 := congrArg Prod.fst (Option.some.inj third)
    exact temp₂.2.1
  refine ⟨tid, bid, bid2, rd, temp₁.1, lt₁, lt₂, pos, ?_⟩
  by_cases zero : dim = 0
  · rw [if_pos zero] at h₆
    rw [show sumIds dim tid bid bid2 rd = _ from if_pos zero]
    obtain ⟨_, out₇, st₇, rest₇, push₃, last, rfl⟩ := bind_eq_some.mp h₆
    obtain ⟨rfl, rfl⟩ := push_eq_some.mp push₃
    obtain ⟨rfl, rfl⟩ := push_eq_some.mp last
    exact ⟨reg, rfl⟩
  · rw [if_neg zero] at h₆
    rw [show sumIds dim tid bid bid2 rd = _ from if_neg zero]
    obtain ⟨rfl, rfl⟩ := push_eq_some.mp h₆
    exact ⟨reg, rfl⟩

/-- The sums of what was read. -/
lemma read_sumIds {hw : Hardware} {dim : Word} {tid bid bid2 rd : Nat}
    (pos : 1 ≤ tid) (lt₁ : tid < bid) (lt₂ : bid < bid2) (pos' : 1 ≤ rd) (s : Thread hw Nat) :
    (executeThrough g s (sumIds dim tid bid bid2 rd)).read rd =
      if dim = 0 then (s.read bid + s.read bid) + s.read tid else s.read bid + s.read tid := by
  unfold sumIds
  by_cases zero : dim = 0
  · rw [if_pos zero, if_pos zero]
    let twice : Instruction Nat :=
      { newInstruction .add with rd := bid2, rs1 := bid, rs2 := bid, comment := "bid * 2".toList }
    have regs : (executeThrough g s [twice]).regs =
        Function.update s.regs bid2 (s.read bid + s.read bid) := regs_executeThrough rfl
    have readTwice : (executeThrough g s [twice]).read bid2 = s.read bid + s.read bid := by
      rw [read_of_pos (by omega), regs, Function.update_self]
    have same : (executeThrough g s [twice]).read tid = s.read tid := by
      rw [read_of_pos pos, read_of_pos pos, regs, Function.update_of_ne (by omega)]
    show (executeThrough g s ([twice] ++ [_])).read rd = _
    rw [read_executeThrough_last rfl pos', ← readTwice, ← same]
    rfl
  · rw [if_neg zero, if_neg zero]
    show (executeThrough g s ([] ++ [_])).read rd = _
    rw [read_executeThrough_last rfl pos']
    rfl

/-- The code of `get_global_id`. -/
lemma selectGlobalId_leaves {dim : Word} (kept : ∀ sr : SysReg, g sr.val = sr.val)
    (valid : st.Valid) (h : selectGlobalId (.instruction id) dim st = some ((), out, st')) :
    LeavesId .globalId g dim st' id out := by
  obtain ⟨tid, bid, bid2, rd, pos, lt₁, lt₂, pos', reg, rfl⟩ := selectGlobalId_eq_some valid h
  refine ⟨rd, reg, fun {hw} s => ?_⟩
  obtain ⟨readTid, readBid⟩ := read_readIds dim kept pos lt₁ s
  rw [executeThrough_append, read_sumIds pos lt₁ lt₂ pos', readTid, readBid]
  show _ = getGlobalId hw.ids dim
  unfold getGlobalId
  split <;> rfl

/-- The code of a call leaves the id of the dimension that the selector sees. -/
lemma selectRuntime_leaves (fn : WorkItem) {args : List Value}
    (kept : ∀ sr : SysReg, g sr.val = sr.val) (valid : st.Valid)
    (h : selectRuntime (.instruction id) fn.name args st = some ((), out, st')) :
    LeavesId fn g (dimension args) st' id out := by
  cases fn with
  | globalId =>
    have form : runtimeForm WorkItem.globalId.name (dimension args) = .globalId := rfl
    rw [selectRuntime, form] at h
    exact selectGlobalId_leaves kept valid h
  | localId =>
    have form : runtimeForm WorkItem.localId.name (dimension args) =
      .s2r (if dimension args = 0 then .tidX else .tidY) := rfl
    rw [selectRuntime, form] at h
    obtain ⟨rd, reg, leaves⟩ := selectS2R_leaves kept valid h
    exact ⟨rd, reg, fun s => (leaves s).trans (apply_ite ..)⟩
  | groupId =>
    have form : runtimeForm WorkItem.groupId.name (dimension args) =
      .s2r (if dimension args = 0 then .bidX else .bidY) := rfl
    rw [selectRuntime, form] at h
    obtain ⟨rd, reg, leaves⟩ := selectS2R_leaves kept valid h
    exact ⟨rd, reg, fun s => (leaves s).trans (apply_ite ..)⟩

end Code

/-- The selector sees the dimension only where it is a constant. -/
lemma dimension_eq {value : Value → Word} {dim : Value} (constants : ConstantsValued value)
    (i32 : IsI32 dim) : dimension [dim] = if isConstantInt dim = true then value dim else 0 := by
  cases dim with
  | constantInt w bits =>
    obtain rfl : w = 32 := i32
    show (bits.setWidth 64).setWidth 32 = value (.constantInt 32 bits)
    rw [constants.word, BitVec.setWidth_setWidth_of_le bits (by decide), BitVec.setWidth_eq]
  | argument | instruction | other => rfl

/-- The code of a call of a work-item function computes what the header does exactly if the
dimension is a constant, or is 0 when the call is executed, or does not matter. -/
theorem selectFunction_workItems_iff {dl : DataLayout} {f : Llvm.Function}
    {code : List SelectedBlock} {st : Selector} (h : selectFunction dl f = some (code, st))
    {b : Nat} {bb : Llvm.BasicBlock} {sb : SelectedBlock} (block : f.blocks[b]? = some bb)
    (selectedBlock : code[b]? = some sb) {i : Llvm.Instruction} (mem : i ∈ bb.body)
    {fn : WorkItem} {dim : Value} (call : i.operation = .call (.function fn.name) [dim])
    (i32 : IsI32 dim) :
    ∃ before out after st₀ items st₁ rd,
      sb.items = before ++ out.map (Emitted.mk (.instruction i.id)) ++ after ∧
      Selecting dl f st₀ (.inst i :: items) ∧
      selectInstruction dl f i st₀ = some ((), out, st₁) ∧
      st.regOf (.instruction i.id) = some rd ∧
      ∀ (value : Value → Word) (hw : Hardware) (s : Thread hw Nat), ConstantsValued value →
        ((executeAll s (out.map Instruction.asEncoded)).read rd = fn.compute hw.ids (value dim) ↔
          isConstantInt dim = true ∨ value dim = 0 ∨ fn.Uniform hw.ids) := by
  obtain ⟨pieces, seen, chain, selected⟩ := selectFunction_pieces h
  obtain ⟨before, out, after, st₀, items, st₁, split, selecting, grows, select⟩ :=
    selected.select_instruction chain block selectedBlock mem
  have select' : selectRuntime (.instruction i.id) fn.name [dim] st₀ = some ((), out, st₁) := by
    rw [← select, selectInstruction, call]
    rfl
  have kept : ∀ sr : SysReg, cut14 sr.val = sr.val := by
    intro sr
    cases sr <;> rfl
  obtain ⟨rd, reg, leaves⟩ := selectRuntime_leaves (g := cut14) fn kept selecting.valid select'
  refine ⟨before, out, after, st₀, items, st₁, rd, split, selecting, select, grows.regOf reg,
    fun value hw s constants => ?_⟩
  rw [executeAll_asEncoded, leaves, dimension_eq constants i32]
  by_cases constant : isConstantInt dim = true
  · rw [if_pos constant]
    exact ⟨fun _ => .inl constant, fun _ => rfl⟩
  · rw [if_neg constant, or_iff_right constant]
    exact fn.compute_zero_eq_iff hw.ids

/-- Asks for its local id in the dimension of its argument. -/
def asksLocalId : Llvm.Function where
  args := [{ name := "n".toList, ty := .int 32 }]
  blocks :=
    [{ name := "entry".toList, body := [⟨0, .call (.function "get_local_id".toList) [.argument 0]⟩]
       terminator := .ret none }]

/-- Its selected code. -/
def asksLocalIdCode : List SelectedBlock × Selector :=
  (selectFunction words asksLocalId).getD ([], .start)

/-- Every system register holds its number. -/
def Hardware.numbered : Hardware where
  Mem := Unit
  load _ _ := 0
  store m _ _ := m
  sysReg n := n
  setsFlags _ := false

/-- A thread whose registers all hold 1. -/
def onesThread : Thread Hardware.numbered Nat where
  pc := none
  regs := fun _ => 1
  mem := ()
  flags := 0

/-- The id that is asked for is right in dimension 0, and in dimension 1 only where the ids
agree. -/
theorem selectFunction_workItems_local : ∃ sb before out after st₀ items st₁ rd,
    asksLocalIdCode.1[0]? = some sb ∧
    sb.items = before ++ out.map (Emitted.mk (.instruction 0)) ++ after ∧
    Selecting words asksLocalId st₀
      (.inst ⟨0, .call (.function "get_local_id".toList) [.argument 0]⟩ :: items) ∧
    selectInstruction words asksLocalId
      ⟨0, .call (.function "get_local_id".toList) [.argument 0]⟩ st₀ = some ((), out, st₁) ∧
    asksLocalIdCode.2.regOf (.instruction 0) = some rd ∧
    ((executeAll onesThread (out.map Instruction.asEncoded)).read rd =
        WorkItem.localId.compute Hardware.numbered.ids 1 ↔
      False ∨ (1 : Word) = 0 ∨ WorkItem.localId.Uniform Hardware.numbered.ids) ∧
    (executeAll onesThread (out.map Instruction.asEncoded)).read rd =
      WorkItem.localId.compute Hardware.numbered.ids 0 := by
  have select : selectFunction words asksLocalId = some asksLocalIdCode := rfl
  obtain ⟨before, out, after, st₀, items, st₁, rd, split, selecting, lowered, reg, computes⟩ :=
    selectFunction_workItems_iff select (b := 0) rfl rfl List.mem_cons_self
      (show _ = Llvm.Operation.call (.function WorkItem.localId.name)
        [.argument 0] from rfl) trivial
  have same := computes _ .numbered onesThread (constantsValued_valued 1)
  rw [show (isConstantInt (.argument 0) = true) = False from eq_false nofun] at same
  exact ⟨_, before, out, after, st₀, items, st₁, rd, rfl, split, selecting, lowered, reg, same,
    (computes _ .numbered onesThread (constantsValued_valued 0)).mpr (.inr (.inl rfl))⟩

/-- In dimension 1 the local id is `TID.Y`, but the code reads `TID.X`. -/
theorem selectFunction_misses_dimension : ∃ (sb : SelectedBlock) (mi : Instruction Nat),
    asksLocalIdCode.1[0]? = some sb ∧ (sb.items.drop 2).take 1 = [⟨.instruction 0, mi⟩] ∧
    asksLocalIdCode.2.valueToVReg (.argument 0) = some 1 ∧
    asksLocalIdCode.2.valueToVReg (.instruction 0) = some 3 ∧ onesThread.read 1 = 1 ∧
    (executeAll onesThread [mi.asEncoded]).read 3 = 0 ∧ getLocalId Hardware.numbered.ids 1 = 1 :=
  ⟨_, _, rfl, rfl, rfl, rfl, rfl, rfl, rfl⟩

end FpgaGpu

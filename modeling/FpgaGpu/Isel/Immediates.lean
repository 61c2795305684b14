import FpgaGpu.Isel.Contents

/-!
# The immediates of the selected code

Each `ADDI` stands for a number of the function: a constant that is loaded or added, an offset, a
size, a scale factor, the place of an argument, or zero for a move. The field of the immediate has
14 bits, but the selector gives it numbers of any size.
-/

namespace FpgaGpu

open Llvm (Value)
open Emission (bind_eq_some pure_eq_some push_eq_some mapItems_eq_some)

/-! ## The numbers of a function -/

/-- The number of a constant. -/
def Llvm.Value.number : Value → Int
  | .constantInt _ bits => bits.toInt
  | _ => 0

/-- What an immediate may stand for: an operand, if it is a constant that is loaded for its first
use, or a number. -/
inductive Source where
  | operand (val : Value) (materialize : Bool)
  | number (c : Int)

/-- The sources of a shift to the left. -/
def shiftSources (op0 : Value) (shift : Nat) : List Source :=
  match shift with
  | 0 => [.operand op0 true, .number 0]
  | 1 => [.operand op0 true]
  | shift => [.number (2 ^ shift), .operand op0 true]

/-- The sources of the immediates of an instruction, in order. -/
def instructionSources (dl : DataLayout) (f : Llvm.Function) (i : Llvm.Instruction) : List Source :=
  match i.operation with
  | .binary .add op0 op1 =>
    if (addImmediate? op1).isSome then [.operand op0 false, .number op1.number]
    else [.operand op0 true, .operand op1 true]
  | .binary .shl op0 op1 =>
    match shiftAmount? op1 with
    | some shift => shiftSources op0 shift.toNat
    | none => [.operand op0 true, .operand op1 true]
  | .cast src => [.operand src false, .number 0]
  | .getelementptr sourceElement ptr indices =>
    match constantOffset? dl sourceElement indices with
    | some offset => [.operand ptr false, .number offset.toInt]
    | none =>
      [.operand ptr false, .operand (indices.getLast?.getD ptr) true] ++
        if (dl.typeAllocSize sourceElement).toNat > 1 then
          [.number (dl.typeAllocSize sourceElement).toNat]
        else []
  | _ => (uses dl f i).map fun u => .operand u.1 u.2

/-- The sources of the immediates of an item. -/
def sources (dl : DataLayout) (f : Llvm.Function) : Item → List Source
  | .argument argIdx _ => [.number (8 * argIdx)]
  | .inst i => instructionSources dl f i
  | .term t => (terminatorUses f t).map fun u => .operand u.1 u.2

/-- The operands of sources. -/
def Source.operands : List Source → List Value
  | [] => []
  | .operand val _ :: rest => val :: operands rest
  | .number _ :: rest => operands rest

/-- The numbers that immediates stand for, after the uses of the values `seen`. -/
def numbers (seen : List Value) : List Source → List Int
  | [] => []
  | .operand val materialize :: rest =>
    if materialize ∧ isConstantInt val ∧ ¬ isZero val ∧ val ∉ seen then
      val.number :: numbers (val :: seen) rest
    else numbers (val :: seen) rest
  | .number c :: rest => c :: numbers seen rest

/-- The numbers that the immediates of a function stand for, in layout order. -/
def immediateNumbers (dl : DataLayout) (f : Llvm.Function) : List Int :=
  numbers [] ((functionItems f).flatten.flatMap (sources dl f))

/-- The immediates are numbers modulo 2^32, and the field holds those from -8192 to 8191. -/
def Encodable (c : Int) : Prop := -8192 ≤ c.bmod (2 ^ 32) ∧ c.bmod (2 ^ 32) ≤ 8191

/-- The immediate that the hardware reads from the word of an instruction is the number. -/
def Encodes (mi : MachineInstruction) (c : Int) : Prop := imm14Field (encode mi) = BitVec.ofInt 32 c

/-! ## Fields -/

/-- The field gives back the immediate exactly if it is in the range of the field. -/
lemma encodes_iff {mi : MachineInstruction} (addi : mi.op = .addi) {c : Int}
    (imm : mi.imm = BitVec.ofInt 32 c) : Encodes mi c ↔ Encodable c := by
  have uses : mi.op.usesImm14 = true := by rw [addi]; rfl
  have value : mi.imm.toInt = c.bmod (2 ^ 32) := by rw [imm, BitVec.toInt_ofInt]
  unfold Encodes Encodable
  rw [← imm, ← value]
  constructor
  · intro same
    rw [imm14Field_eq, encode_setWidth14 uses] at same
    have narrow : mi.imm.toInt = (mi.imm.setWidth 14).toInt := by
      rw [← BitVec.toInt_signExtend_of_le (by decide : 14 ≤ 32), same]
    have := (mi.imm.setWidth 14).le_toInt
    have := (mi.imm.setWidth 14).toInt_lt
    omega
  · intro range
    exact imm14Field_encode uses (by omega)

/-! ## What a handler emits -/

/-- The immediates of steps stand for sources. -/
inductive Stands : List PlanStep → List Source → Prop
  | nil : Stands [] []
  | result {steps ss} (rest : Stands steps ss) : Stands (.result :: steps) ss
  | fresh {steps ss} (rest : Stands steps ss) : Stands (.fresh :: steps) ss
  | use {steps ss val materialize} (rest : Stands steps ss) :
    Stands (.use val materialize :: steps) (.operand val materialize :: ss)
  | addi {steps ss mi c} (op : mi.op = .addi) (imm : mi.imm = BitVec.ofInt 32 c)
    (rest : Stands steps ss) : Stands (.emit mi :: steps) (.number c :: ss)
  | emit {steps ss mi} (op : mi.op ≠ .addi) (rest : Stands steps ss) : Stands (.emit mi :: steps) ss

lemma stands_regReg (op : Opcode) (h : op ≠ .addi) (comment : String) (op0 op1 : Value) :
    Stands (regRegSteps op comment op0 op1) [.operand op0 true, .operand op1 true] :=
  .result (.use (.use (.emit h .nil)))

lemma setWidth_eq_ofInt (x : BitVec 64) : x.setWidth 32 = BitVec.ofInt 32 x.toInt :=
  (BitVec.signExtend_eq_setWidth_of_le x (by decide)).symm

lemma stands_shift (op0 : Value) {shift : BitVec 64} (small : shift.toNat < 32) :
    Stands (shiftSteps op0 shift) (shiftSources op0 shift.toNat) := by
  unfold shiftSteps
  by_cases zero : shift = 0
  · rw [if_pos zero, zero]
    exact .result (.use (.addi rfl rfl .nil))
  by_cases one : shift = 1
  · rw [if_neg zero, if_pos one, one]
    exact .result (.use (.emit nofun .nil))
  rw [if_neg zero, if_neg one]
  obtain ⟨k, e⟩ : ∃ k, shift.toNat = k + 2 := by
    have ne0 : shift.toNat ≠ 0 := fun e => zero (BitVec.eq_of_toNat_eq e)
    have ne1 : shift.toNat ≠ 1 := fun e => one (BitVec.eq_of_toNat_eq e)
    exact ⟨shift.toNat - 2, by omega⟩
  rw [e]
  refine .result (.fresh (.addi rfl ?_ (.use (.emit nofun .nil))))
  have pow : (2 : Int) ^ (k + 2) = ((2 ^ (k + 2) : Nat) : Int) := by push_cast; rfl
  show 1#32 <<< (k + 2) = BitVec.ofInt 32 (2 ^ (k + 2))
  rw [pow, BitVec.ofInt_natCast, ← BitVec.twoPow_eq]
  apply BitVec.eq_of_toNat_eq
  rw [BitVec.toNat_twoPow, BitVec.toNat_ofNat]

lemma stands_index (ptr index : Value) (elemSize : BitVec 64) :
    Stands (indexSteps ptr index elemSize) ([.operand ptr false, .operand index true] ++
      if elemSize.toNat > 1 then [.number elemSize.toNat] else []) := by
  unfold indexSteps
  have same : elemSize > 1 ↔ elemSize.toNat > 1 := BitVec.lt_def
  by_cases large : elemSize.toNat > 1
  · rw [if_pos large, if_pos (same.mpr large)]
    refine .use (.result (.use (.fresh (.fresh (.addi rfl ?_ (.emit nofun (.emit nofun .nil)))))))
    exact (BitVec.ofInt_natCast ..).symm
  · rw [if_neg large, if_neg (fun h => large (same.mp h))]
    exact .use (.result (.use (.emit nofun .nil)))

lemma stands_argument (argIdx : Nat) (arg : Llvm.Argument) :
    Stands (argumentSteps argIdx arg) [.number (8 * argIdx)] := by
  refine .result (.fresh (.addi rfl ?_ (.emit nofun .nil)))
  rw [Int.mul_comm]
  exact (BitVec.ofInt_natCast ..).symm

lemma addImmediate?_number {v : Value} {val : BitVec 64} (h : addImmediate? v = some val) :
    val.setWidth 32 = BitVec.ofInt 32 v.number := by
  cases v with
  | constantInt w bits =>
    simp only [addImmediate?, Option.ite_none_right_eq_some, Option.some.injEq] at h
    obtain ⟨-, rfl⟩ := h
    exact setWidth_signExtend bits
  | argument | instruction | other => cases h

lemma stands_binary {opcode : Llvm.BinaryOpcode} {op0 op1 : Value} {id : Nat} {dl : DataLayout}
    {f : Llvm.Function} {st : Selector} {r : Unit × List (Instruction Nat) × Selector}
    (h : selectBinaryOp (.instruction id) opcode op0 op1 st = some r) :
    Stands (binarySteps opcode op0 op1) (instructionSources dl f ⟨id, .binary opcode op0 op1⟩) := by
  unfold binarySteps instructionSources
  cases opcode with
  | add =>
    dsimp only
    cases e : addImmediate? op1 with
    | none => exact stands_regReg .add nofun ..
    | some val => exact .result (.use (.addi rfl (addImmediate?_number e) .nil))
  | shl =>
    dsimp only
    cases e : shiftAmount? op1 with
    | none => exact stands_regReg .mul nofun ..
    | some shift =>
      by_cases small : shift.toNat < 32
      · exact stands_shift op0 small
      · rw [selectBinaryOp_shift_undefined e small] at h
        cases h
  | sub => exact stands_regReg .sub nofun ..
  | mul => exact stands_regReg .mul nofun ..
  | other => exact stands_regReg .add nofun ..

lemma stands_asm {id : Nat} {dl : DataLayout} {f : Llvm.Function} (asmString : Text)
    (args : List Value) :
    Stands (asmSteps asmString args)
      (instructionSources dl f ⟨id, .call (.inlineAsm asmString) args⟩) := by
  unfold asmSteps instructionSources uses
  dsimp only
  cases asmForm (lower asmString) with
  | s2r => exact .result (.emit nofun .nil)
  | sync | ssy | exit => exact .emit nofun .nil
  | ldr =>
    match args with
    | [] => exact .nil
    | addr :: _ => exact .result (.use (.emit nofun .nil))
  | str =>
    match args with
    | [] | [_] => exact .nil
    | data :: addr :: _ => exact .use (.use (.emit nofun .nil))
  | unknown => exact .nil

lemma stands_runtime {id : Nat} {dl : DataLayout} {f : Llvm.Function} (name : Text)
    (args : List Value) :
    Stands (runtimeSteps name args)
      (instructionSources dl f ⟨id, .call (.function name) args⟩) := by
  unfold runtimeSteps instructionSources uses
  cases runtimeForm name (dimension args) with
  | s2r => exact .result (.emit nofun .nil)
  | sync | exit => exact .emit nofun .nil
  | globalId =>
    show Stands (globalIdSteps _) []
    unfold globalIdSteps
    split
    · exact .fresh (.fresh
        (.fresh (.result (.emit nofun (.emit nofun (.emit nofun (.emit nofun .nil)))))))
    · exact .fresh (.fresh (.fresh (.result (.emit nofun (.emit nofun (.emit nofun .nil))))))
  | unknown => exact .nil

/-- The steps of an instruction. -/
lemma stands_instruction {dl : DataLayout} {f : Llvm.Function}
    {i : Llvm.Instruction} {st : Selector} {r : Unit × List (Instruction Nat) × Selector}
    (h : selectInstruction dl f i st = some r) :
    Stands (instructionSteps dl f i) (instructionSources dl f i) := by
  obtain ⟨id, operation⟩ := i
  cases operation with
  | binary opcode op0 op1 => exact stands_binary h
  | icmp predicate op0 op1 =>
    unfold instructionSteps instructionSources uses
    dsimp only
    split
    · exact .nil
    · exact .use (.use (.emit nofun .nil))
  | call callee args =>
    cases callee with
    | inlineAsm asmString => exact stands_asm asmString args
    | function name => exact stands_runtime name args
    | indirect operand => exact .nil
  | getelementptr sourceElement ptr indices =>
    unfold instructionSteps instructionSources gepSteps
    dsimp only
    cases constantOffset? dl sourceElement indices with
    | some offset => exact .use (.result (.addi rfl (setWidth_eq_ofInt offset) .nil))
    | none => exact stands_index ..
  | load ty ptr => exact .result (.use (.emit nofun .nil))
  | store ty value ptr => exact .use (.use (.emit nofun .nil))
  | alloca arraySize => exact .result .nil
  | cast src => exact .use (.result (.addi rfl rfl .nil))
  | phi | select | other => exact .nil

/-! ## Selection -/

/-- The immediates of code are the numbers, in order. -/
def Carries (code : List (Instruction Nat)) (cs : List Int) : Prop :=
  List.Forall₂ (fun mi c => mi.imm = BitVec.ofInt 32 c) (code.filter (·.op = .addi)) cs

lemma Carries.nil : Carries [] [] := List.Forall₂.nil

lemma Carries.append {code code' : List (Instruction Nat)} {cs cs' : List Int} (h : Carries code cs)
    (h' : Carries code' cs') : Carries (code ++ code') (cs ++ cs') := by
  unfold Carries
  rw [List.filter_append]
  exact List.rel_append h h'

/-- Code without immediates. -/
lemma Carries.of_none {code : List (Instruction Nat)} (h : ∀ mi ∈ code, mi.op ≠ .addi) :
    Carries code [] := by
  unfold Carries
  rw [List.filter_eq_nil_iff.mpr (by simpa using h)]
  exact .nil

lemma Carries.single {mi : Instruction Nat} {c : Int} (op : mi.op = .addi)
    (imm : mi.imm = BitVec.ofInt 32 c) : Carries [mi] [c] := by
  unfold Carries
  rw [List.filter_cons_of_pos (by simpa using op)]
  exact .cons imm .nil

lemma numbers_append (seen : List Value) (ss ss' : List Source) :
    numbers seen (ss ++ ss') =
      numbers seen ss ++ numbers ((Source.operands ss).reverse ++ seen) ss' := by
  induction ss generalizing seen with
  | nil => rfl
  | cons s ss ih =>
    cases s with
    | number c => simp [numbers, Source.operands, ih]
    | operand val materialize =>
      simp only [List.cons_append, numbers, Source.operands, List.reverse_cons,
        List.append_assoc, ih]
      split <;> rfl

section Run

variable {own : Value} {st st' : Selector} {seen : List Value} {regs : List Nat}
variable {out : List (Instruction Nat)}

/-- An operand is loaded if it is a constant that was not seen. -/
lemma lookup_carries {v : Value} {materialize : Bool} {r : Nat} (known : Seen st seen)
    (h : lookup v materialize st = some (r, out, st')) (ss : List Source) :
    ∃ cs, numbers seen (.operand v materialize :: ss) = cs ++ numbers (v :: seen) ss ∧
      Carries out cs ∧ Seen st' (v :: seen) := by
  obtain ⟨known', rfl⟩ := known.lookup h
  rw [numbers]
  by_cases loaded : materialize = true ∧ isConstantInt v = true ∧ ¬ isZero v = true ∧ v ∉ seen
  · refine ⟨[v.number], if_pos loaded, ?_, known'⟩
    obtain ⟨rfl, constant, nonzero, new⟩ := loaded
    rw [if_pos ⟨by simpa using nonzero, new⟩]
    cases v with
    | constantInt w bits => exact .single rfl (setWidth_signExtend bits)
    | argument | instruction | other => cases constant
  · refine ⟨[], if_neg loaded, ?_, known'⟩
    split
    · next new =>
      cases v with
      | constantInt w bits =>
        cases materialize with
        | false => exact .nil
        | true => exact absurd ⟨rfl, rfl, by simp [new.1], new.2⟩ loaded
      | argument | instruction | other => exact .nil
    · exact .nil

/-- The steps of a handler. -/
lemma runSteps_carries {steps : List PlanStep} {ss : List Source} (stands : Stands steps ss)
    (inst : isConstantInt own = false) (known : Seen st seen)
    (h : runSteps own regs steps st = some ((), out, st')) :
    Carries out (numbers seen ss) ∧ Seen st' ((Source.operands ss).reverse ++ seen) := by
  induction stands generalizing st regs seen out with
  | nil =>
    obtain ⟨-, rfl, rfl⟩ := pure_eq_some.mp h
    exact ⟨.nil, known⟩
  | result rest ih =>
    obtain ⟨r, out₁, st₁, out₂, first, last, rfl⟩ := bind_eq_some.mp h
    obtain ⟨known₁, rfl⟩ := known.result inst first
    exact ih known₁ last
  | fresh rest ih =>
    obtain ⟨r, out₁, st₁, out₂, first, last, rfl⟩ := bind_eq_some.mp h
    simp only [allocateVReg, Option.some.injEq, Prod.mk.injEq] at first
    obtain ⟨-, rfl, rfl⟩ := first
    refine ih ?_ last
    exact known
  | @use steps ss val materialize rest ih =>
    obtain ⟨r, out₁, st₁, out₂, first, last, rfl⟩ := bind_eq_some.mp h
    obtain ⟨cs, e, carries, known₁⟩ := lookup_carries known first ss
    obtain ⟨carries', known'⟩ := ih known₁ last
    rw [e, Source.operands, List.reverse_cons, List.append_assoc]
    exact ⟨carries.append carries', known'⟩
  | @addi steps ss mi c op imm rest ih =>
    obtain ⟨_, out₁, st₁, out₂, first, last, rfl⟩ := bind_eq_some.mp h
    obtain ⟨rfl, rfl⟩ := push_eq_some.mp first
    obtain ⟨carries, known'⟩ := ih known last
    have here : Carries [mi.mapRegs (regAt regs)] [c] := .single op imm
    exact ⟨here.append carries, known'⟩
  | @emit steps ss mi op rest ih =>
    obtain ⟨_, out₁, st₁, out₂, first, last, rfl⟩ := bind_eq_some.mp h
    obtain ⟨rfl, rfl⟩ := push_eq_some.mp first
    obtain ⟨carries, known'⟩ := ih known last
    have here : Carries [mi.mapRegs (regAt regs)] [] := .of_none (List.forall_mem_singleton.mpr op)
    exact ⟨here.append carries, known'⟩

end Run

/-! ## Functions -/

section Functions

variable {dl : DataLayout} {f : Llvm.Function} {st st' : Selector} {seen : List Value}

/-- The steps of an item. -/
lemma stands_item {item : Item} {code : List Emitted}
    (h : selectItem dl f item st = some ((), code, st')) :
    Stands (item.steps dl f) (sources dl f item) := by
  cases item with
  | argument argIdx arg => exact stands_argument argIdx arg
  | inst i =>
    obtain ⟨out, select, -⟩ := mapItems_eq_some.mp h
    exact stands_instruction select
  | term t =>
    cases t with
    | condBr condVal ifTrue ifFalse =>
      show Stands (conditionSteps f condVal)
        ((conditionUses f condVal).map fun u => .operand u.1 u.2)
      unfold conditionSteps conditionUses
      cases icmp? f condVal with
      | none => exact .nil
      | some compared => exact .use (.use (.emit nofun .nil))
    | br | ret | switch | unreachable | other => exact .nil

/-- An item. -/
lemma selectItem_carries {item : Item} {code : List Emitted} (known : Seen st seen)
    (h : selectItem dl f item st = some ((), code, st')) :
    Carries (code.map Emitted.mi) (numbers seen (sources dl f item)) ∧
      Seen st' ((Source.operands (sources dl f item)).reverse ++ seen) := by
  obtain ⟨out, stepped⟩ := selectItem_stepped h
  obtain ⟨carries, known'⟩ :=
    runSteps_carries (stands_item h) item.isConstantInt_own known stepped.run
  have plain : ∀ mi ∈ (item.tail f).map Emitted.mi, mi.op ≠ .addi := by
    intro mi mem
    obtain ⟨e, he, rfl⟩ := List.mem_map.mp mem
    obtain br | exit := (Item.mem_tail he).1
    · simp [br]
    · simp [exit]
  rw [stepped.code, List.map_append, map_mi_mk, ← List.append_nil (numbers seen _)]
  exact ⟨carries.append (.of_none plain), known'⟩

/-- The pieces of a function. -/
lemma PieceChain.carries {uses uses' : List (Value × Bool)} {ps : List Piece}
    (h : PieceChain dl f uses st ps uses' st') (known : Seen st seen) :
    Carries ((ps.flatMap Piece.code).map Emitted.mi)
      (numbers seen ((ps.map Piece.item).flatMap (sources dl f))) := by
  induction h generalizing seen with
  | nil => exact .nil
  | cons select rest ih =>
    obtain ⟨carries, known'⟩ := selectItem_carries known select
    rw [List.map_cons, List.flatMap_cons, List.flatMap_cons, List.map_append, numbers_append]
    exact carries.append (ih known')

end Functions

/-- Every immediate is the number it stands for, modulo 2^32. -/
lemma selectInstructions_carries {dl : DataLayout} {f : Llvm.Function}
    {blocks : List BasicBlockCode} (h : selectInstructions dl f = some blocks) :
    List.Forall₂ (fun mi c => mi.imm = BitVec.ofInt 32 c) ((layout blocks).filter (·.op = .addi))
      (immediateNumbers dl f) := by
  simp only [selectInstructions, Option.bind_eq_bind, Option.bind_eq_some_iff, Prod.exists,
    Option.pure_def, Option.some.injEq] at h
  obtain ⟨code, st, select, rfl⟩ := h
  obtain ⟨pieces, uses, chain, selected⟩ := selectFunction_pieces select
  have start : Seen Selector.start [] := fun c _ _ => by simp [Selector.start]
  have carries := chain.carries start
  have emitted : layout (code.map SelectedBlock.code) =
      ((pieces.flatten.flatMap Piece.code).map Emitted.mi).map (Instruction.mapRegs narrow) := by
    rw [← selected.flatMap_items]
    simp [layout, SelectedBlock.code, List.flatMap_map, List.map_flatMap, Function.comp_def]
  rw [selected.flatten_items] at carries
  rw [emitted, List.filter_map]
  exact List.forall₂_map_left_iff.mpr carries

/-- The hardware reads back every immediate exactly if every number fits the field. -/
theorem selectInstructions_encodes_iff {dl : DataLayout} {f : Llvm.Function}
    {blocks : List BasicBlockCode} (h : selectInstructions dl f = some blocks) :
    List.Forall₂ Encodes ((layout blocks).filter (·.op = .addi)) (immediateNumbers dl f) ↔
      ∀ c ∈ immediateNumbers dl f, Encodable c := by
  have carries := selectInstructions_carries h
  have addi : ∀ mi ∈ (layout blocks).filter (·.op = .addi), mi.op = .addi := fun mi mem => by
    simpa using (List.mem_filter.mp mem).2
  generalize (layout blocks).filter (·.op = .addi) = code at carries addi ⊢
  generalize immediateNumbers dl f = cs at carries ⊢
  induction carries with
  | nil => simp
  | @cons mi c code cs imm rest ih =>
    obtain ⟨here, addi⟩ := List.forall_mem_cons.mp addi
    rw [List.forall₂_cons, List.forall_mem_cons, encodes_iff here imm]
    exact and_congr_right' (ih addi)

/-- Adds a number that needs more than 14 bits. -/
def addsLarge : Llvm.Function where
  args := [{ name := "x".toList, ty := .int 32 }]
  blocks :=
    [{ name := "entry".toList
       body := [⟨0, .binary .add (.argument 0) (.constantInt 32 100000)⟩]
       terminator := .ret (some (.instruction 0)) }]

/-- Adds a number that the field holds. -/
def addsSmall : Llvm.Function where
  args := [{ name := "x".toList, ty := .int 32 }]
  blocks :=
    [{ name := "entry".toList
       body := [⟨0, .binary .add (.argument 0) (.constantInt 32 (-5))⟩]
       terminator := .ret (some (.instruction 0)) }]

/-- The numbers of a function decide, and those that the field holds are read back. -/
theorem selectInstructions_encodes_large :
    (∃ blocks, selectInstructions words addsLarge = some blocks ∧
      (List.Forall₂ Encodes ((layout blocks).filter (·.op = .addi))
        (immediateNumbers words addsLarge) ↔
        ∀ c ∈ immediateNumbers words addsLarge, Encodable c)) ∧
    ∃ blocks, selectInstructions words addsSmall = some blocks ∧
      immediateNumbers words addsSmall = [0, -5] ∧
      List.Forall₂ Encodes ((layout blocks).filter (·.op = .addi)) [0, -5] := by
  refine ⟨⟨_, rfl, selectInstructions_encodes_iff rfl⟩, ?_⟩
  have numbers : immediateNumbers words addsSmall = [0, -5] := by decide
  have encodable : ∀ c ∈ immediateNumbers words addsSmall, Encodable c := by
    rw [numbers]
    unfold Encodable
    decide
  exact ⟨_, rfl, numbers, numbers ▸ (selectInstructions_encodes_iff rfl).mpr encodable⟩

/-- The hardware reads 1696 for 100000. -/
theorem selectInstructions_misencodes : ∃ blocks, selectInstructions words addsLarge = some blocks ∧
    immediateNumbers words addsLarge = [0, 100000] ∧
    ((layout blocks).filter (·.op = .addi)).map (fun mi => imm14Field (encode mi)) = [0, 1696] :=
  ⟨_, rfl, by decide, by decide⟩

end FpgaGpu

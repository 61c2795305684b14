import FpgaGpu.Isel.Handlers
import FpgaGpu.Lib.Walk

/-!
# The pieces of the selected code

The selector lowers a function item by item: its arguments, then the instructions of each block in
layout order. The code of a block is the concatenation of the pieces of its items.
-/

namespace FpgaGpu

open Llvm (Value Terminator)
open Emission (push mapItems bind_eq_some pure_eq_some push_eq_some mapItems_eq_some)

/-- What is emitted for an item are instructions. -/
lemma map_mi_mk (origin : Origin) (out : List (Instruction Nat)) :
    (out.map (Emitted.mk origin)).map Emitted.mi = out := by
  simp [Function.comp_def]

/-- What the selector lowers one at a time. -/
inductive Item where
  | argument (argIdx : Nat) (arg : Llvm.Argument)
  | inst (i : Llvm.Instruction)
  | term (t : Terminator)

/-- The arguments from `argIdx` on. -/
def argumentItems (argIdx : Nat) : List Llvm.Argument → List Item
  | [] => []
  | arg :: args => .argument argIdx arg :: argumentItems (argIdx + 1) args

/-- The items of a block. -/
def itemsOf (f : Llvm.Function) (b : Nat) (bb : Llvm.BasicBlock) : List Item :=
  (if b = 0 then argumentItems 0 f.args else []) ++ (bb.body.map .inst ++ [.term bb.terminator])

/-- The items of a function. -/
def functionItems (f : Llvm.Function) : List (List Item) := f.blocks.mapIdx (itemsOf f)

/-- The uses of the condition of a branch. -/
def conditionUses (f : Llvm.Function) (condVal : Value) : List (Value × Bool) :=
  match icmp? f condVal with
  | some (_, op0, op1) => [(op0, true), (op1, true)]
  | none => []

/-- The uses of a terminator. -/
def terminatorUses (f : Llvm.Function) : Terminator → List (Value × Bool)
  | .condBr condVal _ _ => conditionUses f condVal
  | _ => []

/-- The uses of an item. -/
def usesOf (dl : DataLayout) (f : Llvm.Function) : Item → List (Value × Bool)
  | .argument .. => []
  | .inst i => uses dl f i
  | .term t => terminatorUses f t

/-- Lowers an item. -/
def selectItem (dl : DataLayout) (f : Llvm.Function) : Item → Emission Selector Emitted Unit
  | .argument argIdx arg => mapItems (Emitted.mk (.argument argIdx)) (loadArgument argIdx arg)
  | .inst i => mapItems (Emitted.mk (.instruction i.id)) (selectInstruction dl f i)
  | .term t => selectTerminator f t

/-! ## Items as steps -/

/-- The steps that compare for a conditional branch. -/
def conditionSteps (f : Llvm.Function) (condVal : Value) : List PlanStep :=
  match icmp? f condVal with
  | some (_, op0, op1) => cmpSteps op0 op1
  | none => []

/-- The condition code of a conditional branch. -/
def conditionCode (f : Llvm.Function) (condVal : Value) : BitVec 8 :=
  match icmp? f condVal with
  | some (predicate, _, _) => branchCond predicate
  | none => BranchCond.NE

/-- The steps of a terminator. -/
def terminatorSteps (f : Llvm.Function) : Terminator → List PlanStep
  | .condBr condVal _ _ => conditionSteps f condVal
  | _ => []

/-- What a terminator pushes after its steps. -/
def terminatorTail (f : Llvm.Function) : Terminator → List Emitted
  | .br dest => [branchTo f BranchCond.ALWAYS dest "unconditional branch"]
  | .condBr condVal ifTrue ifFalse =>
    [branchTo f (conditionCode f condVal) ifTrue "branch taken",
      branchTo f BranchCond.ALWAYS ifFalse "branch fallthrough/else"]
  | .ret _ =>
    [{ origin := .terminator
       mi := { newInstruction .exit with comment := "return -> EXIT".toList } }]
  | .switch .. | .unreachable | .other .. => []

/-- The value that an item is the handler of. -/
def Item.own : Item → Value
  | .argument argIdx _ => .argument argIdx
  | .inst i => .instruction i.id
  | .term _ => .other 0

/-- What the steps of an item are emitted for. -/
def Item.origin : Item → Origin
  | .argument argIdx _ => .argument argIdx
  | .inst i => .instruction i.id
  | .term _ => .terminator

/-- The steps of an item. -/
def Item.steps (dl : DataLayout) (f : Llvm.Function) : Item → List PlanStep
  | .argument argIdx arg => argumentSteps argIdx arg
  | .inst i => instructionSteps dl f i
  | .term t => terminatorSteps f t

/-- What an item pushes after its steps. -/
def Item.tail (f : Llvm.Function) : Item → List Emitted
  | .term t => terminatorTail f t
  | _ => []

/-- The code of an item is that of its steps, which use what the item uses, and its tail. -/
structure Stepped (dl : DataLayout) (f : Llvm.Function) (item : Item) (st : Selector)
    (code : List Emitted) (st' : Selector) (out : List (Instruction Nat)) : Prop where
  run : runSteps item.own [] (item.steps dl f) st = some ((), out, st')
  code : code = out.map (Emitted.mk item.origin) ++ item.tail f
  uses : stepUses (item.steps dl f) = usesOf dl f item
  wellFormed : wellFormed [] (item.steps dl f) = true
  reads : readsUses 0 (item.steps dl f) = true

lemma selectCondition_stepped {f : Llvm.Function} {condVal : Value} {st st' : Selector}
    {cond : BitVec 8} {code : List Emitted}
    (h : selectCondition f condVal st = some (cond, code, st')) :
    cond = conditionCode f condVal ∧ ∃ out, code = out.map (Emitted.mk .terminator) ∧
      runSteps (.other 0) [] (conditionSteps f condVal) st = some ((), out, st') := by
  unfold conditionCode conditionSteps
  unfold selectCondition at h
  cases found : icmp? f condVal with
  | none =>
    rw [found] at h
    obtain ⟨rfl, rfl, rfl⟩ := pure_eq_some.mp h
    exact ⟨rfl, [], rfl, rfl⟩
  | some compared =>
    obtain ⟨predicate, op0, op1⟩ := compared
    rw [found] at h
    obtain ⟨_, out₁, st₁, out₂, first, rest, rfl⟩ := bind_eq_some.mp h
    obtain ⟨out, compare, rfl⟩ := mapItems_eq_some.mp first
    obtain ⟨rfl, rfl, rfl⟩ := pure_eq_some.mp rest
    exact ⟨rfl, out, List.append_nil _, compare⟩

/-- The steps of a condition use and read its operands. -/
lemma conditionSteps_spec (f : Llvm.Function) (condVal : Value) :
    stepUses (conditionSteps f condVal) = conditionUses f condVal ∧
      wellFormed [] (conditionSteps f condVal) = true ∧
      readsUses 0 (conditionSteps f condVal) = true := by
  unfold conditionSteps conditionUses
  cases icmp? f condVal <;> exact ⟨rfl, rfl, rfl⟩

/-- Every item is lowered by its steps. -/
lemma selectItem_stepped {dl : DataLayout} {f : Llvm.Function} {item : Item} {st st' : Selector}
    {code : List Emitted} (h : selectItem dl f item st = some ((), code, st')) :
    ∃ out, Stepped dl f item st code st' out := by
  cases item with
  | argument argIdx arg =>
    obtain ⟨out, select, rfl⟩ := mapItems_eq_some.mp h
    exact ⟨out, select, (List.append_nil _).symm, rfl, rfl, rfl⟩
  | inst i =>
    obtain ⟨out, select, rfl⟩ := mapItems_eq_some.mp h
    obtain ⟨run, lowers⟩ := selectInstruction_lowers select
    exact ⟨out, run, (List.append_nil _).symm, lowers.uses, lowers.wellFormed, lowers.reads⟩
  | term t =>
    cases t with
    | br dest =>
      obtain ⟨rfl, rfl⟩ := push_eq_some.mp h
      exact ⟨[], rfl, rfl, rfl, rfl, rfl⟩
    | ret value =>
      obtain ⟨rfl, rfl⟩ := push_eq_some.mp h
      exact ⟨[], rfl, rfl, rfl, rfl, rfl⟩
    | switch | unreachable | other =>
      obtain ⟨-, rfl, rfl⟩ := pure_eq_some.mp h
      exact ⟨[], rfl, rfl, rfl, rfl, rfl⟩
    | condBr condVal ifTrue ifFalse =>
      obtain ⟨cond, cmp, st₁, branches, first, rest, rfl⟩ := bind_eq_some.mp h
      obtain ⟨_, out₁, st₂, out₂, push₁, push₂, rfl⟩ := bind_eq_some.mp rest
      obtain ⟨rfl, rfl⟩ := push_eq_some.mp push₁
      obtain ⟨rfl, rfl⟩ := push_eq_some.mp push₂
      obtain ⟨rfl, out, rfl, run⟩ := selectCondition_stepped first
      obtain ⟨uses, wellFormed, reads⟩ := conditionSteps_spec f condVal
      exact ⟨out, run, rfl, uses, wellFormed, reads⟩

/-- No item is a constant. -/
lemma Item.isConstantInt_own (item : Item) : isConstantInt item.own = false := by
  cases item <;> rfl

/-- What is pushed after the steps passes control on, and has no registers. -/
lemma Item.mem_tail {f : Llvm.Function} {item : Item} {e : Emitted} (mem : e ∈ item.tail f) :
    (e.mi.op = .br ∨ e.mi.op = .exit) ∧ e.mi.reads = [] ∧ e.mi.writes = none := by
  cases item with
  | argument | inst => cases mem
  | term t =>
    cases t with
    | br dest =>
      obtain rfl := List.mem_singleton.mp mem
      exact ⟨.inl rfl, rfl, rfl⟩
    | condBr condVal ifTrue ifFalse =>
      obtain rfl | mem := List.mem_cons.mp mem
      · exact ⟨.inl rfl, rfl, rfl⟩
      · obtain rfl := List.mem_singleton.mp mem
        exact ⟨.inl rfl, rfl, rfl⟩
    | ret value =>
      obtain rfl := List.mem_singleton.mp mem
      exact ⟨.inr rfl, rfl, rfl⟩
    | switch | unreachable | other => cases mem

/-! ## Pieces -/

/-- An item with the uses before it, its code, and the states before and after. -/
structure Piece where
  item : Item
  seen : List (Value × Bool)
  before : Selector
  code : List Emitted
  after : Selector

/-- An item with the uses before it. -/
structure Marked where
  item : Item
  seen : List (Value × Bool)

/-- The mark of a piece. -/
def Piece.mark (p : Piece) : Marked := ⟨p.item, p.seen⟩

/-- Marks the items after the uses `seen`. -/
def mark (dl : DataLayout) (f : Llvm.Function) (seen : List (Value × Bool)) :
    List Item → List Marked
  | [] => []
  | item :: items => ⟨item, seen⟩ :: mark dl f (seen ++ usesOf dl f item) items

/-- Marks the items of blocks in layout order. -/
def markBlocks (dl : DataLayout) (f : Llvm.Function) (seen : List (Value × Bool)) :
    List (List Item) → List (List Marked)
  | [] => []
  | items :: rest =>
    mark dl f seen items :: markBlocks dl f (seen ++ items.flatMap (usesOf dl f)) rest

/-- The items of a function with the uses before them in layout order. -/
def markedItems (dl : DataLayout) (f : Llvm.Function) : List (List Marked) :=
  markBlocks dl f [] (functionItems f)

lemma item_mark (dl : DataLayout) (f : Llvm.Function) (seen : List (Value × Bool))
    (items : List Item) :
    (mark dl f seen items).map Marked.item = items := by
  induction items generalizing seen with
  | nil => rfl
  | cons item items ih => rw [mark, List.map_cons, ih]

lemma item_markBlocks (dl : DataLayout) (f : Llvm.Function) (seen : List (Value × Bool))
    (blocks : List (List Item)) :
    (markBlocks dl f seen blocks).map (List.map Marked.item) = blocks := by
  induction blocks generalizing seen with
  | nil => rfl
  | cons items blocks ih => rw [markBlocks, List.map_cons, item_mark, ih]

/-- Pieces that follow each other. -/
inductive PieceChain (dl : DataLayout) (f : Llvm.Function) :
    List (Value × Bool) → Selector → List Piece → List (Value × Bool) → Selector → Prop
  | nil {seen st} : PieceChain dl f seen st [] seen st
  | cons {p ps seen' st'} (select : selectItem dl f p.item p.before = some ((), p.code, p.after))
    (rest : PieceChain dl f (p.seen ++ usesOf dl f p.item) p.after ps seen' st') :
    PieceChain dl f p.seen p.before (p :: ps) seen' st'

section Decomposition

variable {dl : DataLayout} {f : Llvm.Function} {seen seen' : List (Value × Bool)}
variable {st st' : Selector}

lemma PieceChain.append {ps ps' : List Piece} {seen₁ : List (Value × Bool)} {st₁ : Selector}
    (h : PieceChain dl f seen st ps seen₁ st₁) (h' : PieceChain dl f seen₁ st₁ ps' seen' st') :
    PieceChain dl f seen st (ps ++ ps') seen' st' := by
  induction h with
  | nil => exact h'
  | cons select _ ih => exact .cons select (ih h')

/-- The pieces know the uses before them. -/
lemma PieceChain.marks {ps : List Piece} (h : PieceChain dl f seen st ps seen' st') :
    ps.map Piece.mark = mark dl f seen (ps.map Piece.item) := by
  induction h with
  | nil => rfl
  | cons _ _ ih => exact congrArg (_ :: ·) ih

/-- One item. -/
lemma PieceChain.single {item : Item} {code : List Emitted}
    (h : selectItem dl f item st = some ((), code, st')) (seen : List (Value × Bool)) :
    ∃ ps, PieceChain dl f seen st ps (seen ++ usesOf dl f item) st' ∧ ps.map Piece.item = [item] ∧
      ps.flatMap Piece.code = code := by
  let p : Piece := { item := item, seen := seen, before := st, code := code, after := st' }
  exact ⟨[p], PieceChain.cons (p := p) h .nil, rfl, by simp [p]⟩

/-- What a computation over items pushes is the code of the pieces of these items. -/
def Decomposes (dl : DataLayout) (f : Llvm.Function) (items : List Item)
    (x : Emission Selector Emitted Unit) : Prop :=
  ∀ (st st' : Selector) (code : List Emitted) (seen : List (Value × Bool)),
    x st = some ((), code, st') →
    ∃ ps, PieceChain dl f seen st ps (seen ++ items.flatMap (usesOf dl f)) st' ∧
      ps.map Piece.item = items ∧ ps.flatMap Piece.code = code

lemma Decomposes.nil : Decomposes dl f [] (pure ()) := by
  intro st st' code seen h
  obtain ⟨-, rfl, rfl⟩ := pure_eq_some.mp h
  exact ⟨[], by simpa using PieceChain.nil, rfl, rfl⟩

lemma Decomposes.item (item : Item) : Decomposes dl f [item] (selectItem dl f item) := by
  intro st st' code seen h
  simpa using PieceChain.single h seen

lemma Decomposes.append {items items' : List Item} {x y : Emission Selector Emitted Unit}
    (hx : Decomposes dl f items x) (hy : Decomposes dl f items' y) :
    Decomposes dl f (items ++ items') (do x; y) := by
  intro st st' code seen h
  obtain ⟨_, out₁, st₁, out₂, h₁, h₂, rfl⟩ := bind_eq_some.mp h
  obtain ⟨ps₁, chain₁, items₁, code₁⟩ := hx _ _ _ seen h₁
  obtain ⟨ps₂, chain₂, items₂, code₂⟩ := hy _ _ _ _ h₂
  refine ⟨ps₁ ++ ps₂, ?_, by simp [items₁, items₂], by simp [code₁, code₂]⟩
  rw [List.flatMap_append, ← List.append_assoc]
  exact chain₁.append chain₂

lemma prologue_decomposes (args : List Llvm.Argument) (argIdx : Nat) :
    Decomposes dl f (argumentItems argIdx args) (prologue argIdx args) := by
  induction args generalizing argIdx with
  | nil => exact Decomposes.nil
  | cons arg args ih => exact Decomposes.append (.item (.argument argIdx arg)) (ih (argIdx + 1))

lemma selectBody_decomposes (body : List Llvm.Instruction) :
    Decomposes dl f (body.map .inst) (selectBody dl f body) := by
  induction body with
  | nil => exact Decomposes.nil
  | cons i body ih => exact Decomposes.append (.item (.inst i)) ih

lemma selectBlock_decomposes (b : Nat) (bb : Llvm.BasicBlock) :
    Decomposes dl f (itemsOf f b bb) (selectBlock dl f b bb) := by
  have rest : Decomposes dl f (bb.body.map .inst ++ [.term bb.terminator])
      (selectBasicBlock dl f bb) :=
        (selectBody_decomposes bb.body).append (.item (.term bb.terminator))
  unfold itemsOf selectBlock
  split
  · exact (prologue_decomposes f.args 0).append rest
  · exact rest

/-- The blocks of a function are selected piece by piece. -/
lemma selectBlocks_pieces {bbs : List Llvm.BasicBlock} {b : Nat} {code : List SelectedBlock}
    (h : selectBlocks dl f b st bbs = some (code, st')) (seen : List (Value × Bool)) :
    ∃ (pieces : List (List Piece)) (seen' : List (Value × Bool)),
      PieceChain dl f seen st pieces.flatten seen' st' ∧
      pieces.map (List.map Piece.item) = bbs.mapIdx (fun i bb => itemsOf f (b + i) bb) ∧
      pieces.map (List.map Piece.mark) =
        markBlocks dl f seen (bbs.mapIdx fun i bb => itemsOf f (b + i) bb) ∧
      code.map SelectedBlock.items = ControlFlow.expand Piece.code pieces ∧
      code.map SelectedBlock.name = bbs.mapIdx (fun i _ => blockNames f (b + i)) := by
  induction bbs generalizing b st code seen with
  | nil =>
    obtain ⟨rfl, rfl⟩ := Prod.mk.inj (Option.some.inj h)
    exact ⟨[], seen, .nil, rfl, rfl, rfl, rfl⟩
  | cons bb bbs ih =>
    simp only [selectBlocks, Option.bind_eq_bind, Option.bind_eq_some_iff, Prod.exists,
      Option.pure_def, Option.some.injEq, Prod.mk.injEq] at h
    obtain ⟨_, items, st₁, first, code', _, rest, rfl, rfl⟩ := h
    obtain ⟨ps, chain, same, split⟩ := selectBlock_decomposes b bb _ _ _ seen first
    obtain ⟨pieces, seen', chain', same', marks, split', names⟩ := ih rest (seen ++ _)
    have shift : ∀ i, b + 1 + i = b + (i + 1) := fun i => by omega
    refine ⟨ps :: pieces, seen', by simpa using chain.append chain', ?_, ?_, ?_, ?_⟩
    · simp [same, same', List.mapIdx_cons, shift]
    · simp [chain.marks, same, marks, markBlocks, List.mapIdx_cons, shift]
    · simp [ControlFlow.expand, split, split']
    · simp [names, List.mapIdx_cons, shift]

end Decomposition

end FpgaGpu

import FpgaGpu.Isel.Pieces

/-!
# What a piece contains

Each piece reads the registers of its uses, treats constants as its uses say, writes the register of
a result that is lowered to a register, and passes control on as its item does.
-/

namespace FpgaGpu

open Llvm (Value)
open Emission (pure_eq_some mapItems_eq_some)

/-- Some instruction writes the register of a value. -/
def Writes (code : List Emitted) (st : Selector) (v : Value) : Prop :=
  ∃ e ∈ code, ∃ r, e.mi.writes = some r ∧ st.valueToVReg v = some r

/-- A condition code that can hold and can fail. -/
def Conditional (cond : BitVec 8) : Prop :=
  (∃ flags, takes cond flags = true) ∧ ∃ flags, takes cond flags = false

/-- The instructions of the code of an item, as far as control and results are concerned. -/
def CodeShape (f : Llvm.Function) (after : Selector) : Item → List Emitted → Prop
  | .argument k _, code =>
    (∀ e ∈ code, e.origin = .argument k ∧ e.mi.op ≠ .br ∧ e.mi.op ≠ .exit) ∧
      Writes code after (.argument k)
  | .inst i, code =>
    (∀ e ∈ code, e.origin = .instruction i.id ∧ e.mi.op ≠ .br) ∧
      ((∃ e ∈ code, e.mi.op = .exit) ↔ exits i.operation = true) ∧
      (Writes code after (.instruction i.id) ↔ produces i.operation = true)
  | .term (.br dest), code =>
    code = [branchTo f BranchCond.ALWAYS dest "unconditional branch"]
  | .term (.condBr _ ifTrue ifFalse), code =>
    ∃ cmp cond, code = cmp ++ [branchTo f cond ifTrue "branch taken",
        branchTo f BranchCond.ALWAYS ifFalse "branch fallthrough/else"] ∧ Conditional cond ∧
      ∀ e ∈ cmp, e.origin = .terminator ∧ e.mi.op ≠ .br ∧ e.mi.op ≠ .exit
  | .term (.ret _), code => ∃ e, code = [e] ∧ e.origin = .terminator ∧ e.mi.op = .exit
  | .term _, code => code = []

/-- The facts about a piece. -/
structure Spec (dl : DataLayout) (f : Llvm.Function) (p : Piece) : Prop where
  valid : p.after.Valid
  grows : Grows p.before p.after
  reads : ∀ e ∈ p.code, ∀ r ∈ e.mi.reads,
    r = 0 ∨ (∃ u ∈ usesOf dl f p.item, p.after.regOf u.1 = some r) ∨ p.after.Temp r
  writes : ∀ e ∈ p.code, ∀ r, e.mi.writes = some r → r < p.after.nextVReg
  loading : ∀ c, isConstantInt c = true → isZero c = false →
    Loading c (usesOf dl f p.item) p.before (p.code.map Emitted.mi) p.after
  used : ∀ u ∈ usesOf dl f p.item, ∃ e ∈ p.code, ∃ r ∈ e.mi.reads, p.after.regOf u.1 = some r
  shape : CodeShape f p.after p.item p.code

/-! ## Steps -/

/-- The steps of an item handle its uses. -/
lemma Stepped.ran {dl : DataLayout} {f : Llvm.Function} {item : Item} {st st' : Selector}
    {code : List Emitted} {out : List (Instruction Nat)}
    (stepped : Stepped dl f item st code st' out) (valid : st.Valid) :
    Handled ((usesOf dl f item).map Prod.fst) item.own (usesOf dl f item) st out st' ∧
      ((∃ mi ∈ out, ∃ r, mi.writes = some r ∧ st'.valueToVReg item.own = some r) ↔
        writesResult [] (item.steps dl f) = true) ∧
      (∀ u ∈ usesOf dl f item, ∃ mi ∈ out, ∃ r ∈ mi.reads, st'.regOf u.1 = some r) ∧
      ((∃ mi ∈ out, mi.op = .exit) ↔ stepsExit (item.steps dl f) = true) := by
  obtain ⟨handled, result, -, used, exit⟩ :=
    runSteps_ran (L := (usesOf dl f item).map Prod.fst) valid
    item.isConstantInt_own .nil stepped.wellFormed
    (fun u mem => List.mem_map_of_mem (stepped.uses ▸ mem)) stepped.run
  rw [stepped.uses] at handled used
  exact ⟨handled, result, used stepped.reads, exit⟩

/-- A predicate can hold and can fail. -/
lemma conditional_branchCond (predicate : Llvm.Predicate) : Conditional (branchCond predicate) := by
  cases predicate with
  | eq => exact ⟨⟨0, by decide⟩, ⟨1, by decide⟩⟩
  | ne => exact ⟨⟨1, by decide⟩, ⟨0, by decide⟩⟩
  | slt | ult => exact ⟨⟨0x80000000, by decide⟩, ⟨0, by decide⟩⟩
  | sle | ule => exact ⟨⟨0, by decide⟩, ⟨1, by decide⟩⟩
  | sgt | ugt => exact ⟨⟨1, by decide⟩, ⟨0, by decide⟩⟩
  | sge | uge => exact ⟨⟨0, by decide⟩, ⟨0x80000000, by decide⟩⟩

/-- Instructions that read and write nothing do not matter to a constant. -/
lemma Loading.append_inert {c : Value} {us : List (Value × Bool)} {st st' : Selector}
    {out rest : List (Instruction Nat)} (loading : Loading c us st out st')
    (inert : ∀ mi ∈ rest, mi.reads = [] ∧ mi.writes = none) :
    Loading c us st (out ++ rest) st' := by
  refine ⟨loading.none_iff, fun new first r e => ?_, fun r mi e mem load => ?_,
    fun new first r pre mi post e split read => ?_⟩
  · obtain ⟨mi, mem, load⟩ := loading.loaded new first r e
    exact ⟨mi, List.mem_append_left _ mem, load⟩
  · obtain mem | mem := List.mem_append.mp mem
    · exact loading.only r mi e mem load
    · have write := (writes_of_mem_loads load).1
      rw [(inert mi mem).2] at write
      cases write
  · obtain ⟨t, rfl, rfl⟩ | ⟨t, rfl⟩ := split_parts split
    · rw [(inert mi (List.mem_append_right _ List.mem_cons_self)).1] at read
      cases read
    · exact loading.before new first r pre mi t e rfl read

/-! ## Items -/

section Items

variable {dl : DataLayout} {f : Llvm.Function}

/-- A piece handles the uses of its item, and what it pushes after that reads and writes nothing. -/
lemma Spec.of_stepped {p : Piece} {out : List (Instruction Nat)}
    (stepped : Stepped dl f p.item p.before p.code p.after out) (valid : p.before.Valid)
    (shape : CodeShape f p.after p.item p.code) : Spec dl f p := by
  obtain ⟨handled, -, used, -⟩ := stepped.ran valid
  have parts : ∀ {e}, e ∈ p.code → e ∈ out.map (Emitted.mk p.item.origin) ∨ e ∈ p.item.tail f :=
    fun mem => List.mem_append.mp (stepped.code ▸ mem)
  refine ⟨handled.valid, handled.grows, fun e mem r read => ?_, fun e mem r write => ?_,
    fun c constant nonzero => ?_, fun u mem => ?_, shape⟩
  · obtain mem | mem := parts mem
    · obtain ⟨mi, hmi, rfl⟩ := List.mem_map.mp mem
      refine (handled.reads mi hmi r read).imp_right (Or.imp_left ?_)
      rintro ⟨v, hv, e⟩
      obtain ⟨u, hu, rfl⟩ := List.mem_map.mp hv
      exact ⟨u, hu, e⟩
    · rw [(Item.mem_tail mem).2.1] at read
      cases read
  · obtain mem | mem := parts mem
    · obtain ⟨mi, hmi, rfl⟩ := List.mem_map.mp mem
      exact handled.write_lt hmi write
    · rw [(Item.mem_tail mem).2.2] at write
      cases write
  · have ne : c ≠ p.item.own := by
      rintro rfl
      rw [p.item.isConstantInt_own] at constant
      cases constant
    rw [stepped.code, List.map_append, map_mi_mk]
    refine (handled.loading c constant nonzero ne).append_inert fun mi mem => ?_
    obtain ⟨e, he, rfl⟩ := List.mem_map.mp mem
    exact (Item.mem_tail he).2
  · obtain ⟨mi, mem, r, read, e⟩ := used u mem
    have here : ⟨p.item.origin, mi⟩ ∈ p.code := by
      rw [stepped.code]
      exact List.mem_append_left _ (List.mem_map_of_mem mem)
    exact ⟨_, here, r, read, e⟩

/-- The condition code of a branch can hold and can fail. -/
lemma conditional_conditionCode (f : Llvm.Function) (condVal : Value) :
    Conditional (conditionCode f condVal) := by
  unfold conditionCode
  cases icmp? f condVal with
  | none => exact conditional_branchCond .ne
  | some compared => exact conditional_branchCond compared.1

lemma stepsExit_conditionSteps (f : Llvm.Function) (condVal : Value) :
    stepsExit (conditionSteps f condVal) = false := by
  unfold conditionSteps
  cases icmp? f condVal <;> rfl

/-- The instructions of an item have its shape. -/
lemma selectItem_shape {item : Item} {st st' : Selector} {code : List Emitted} (valid : st.Valid)
    (h : selectItem dl f item st = some ((), code, st')) : CodeShape f st' item code := by
  obtain ⟨out, stepped⟩ := selectItem_stepped h
  obtain ⟨handled, result, -, exit⟩ := stepped.ran valid
  have origin : ∀ e ∈ out.map (Emitted.mk item.origin), e.origin = item.origin ∧ e.mi.op ≠ .br ∧
      (stepsExit (item.steps dl f) = false → e.mi.op ≠ .exit) := by
    intro e mem
    obtain ⟨mi, hmi, rfl⟩ := List.mem_map.mp mem
    refine ⟨rfl, handled.noBranch mi hmi, fun none stop => ?_⟩
    rw [exit.mp ⟨mi, hmi, stop⟩] at none
    cases none
  rw [stepped.code]
  cases item with
  | argument argIdx arg =>
    have tail : (Item.argument argIdx arg).tail f = [] := rfl
    rw [tail, List.append_nil]
    refine ⟨fun e mem => ?_, ?_⟩
    · obtain ⟨same, noBranch, noExit⟩ := origin e mem
      exact ⟨same, noBranch, noExit rfl⟩
    · obtain ⟨mi, mem, r, write, e⟩ := result.mpr rfl
      exact ⟨_, List.mem_map_of_mem mem, r, write, e⟩
  | inst i =>
    have tail : (Item.inst i).tail f = [] := rfl
    rw [tail, List.append_nil]
    obtain ⟨out', select, -⟩ := mapItems_eq_some.mp h
    obtain ⟨-, lowers⟩ := selectInstruction_lowers select
    refine ⟨fun e mem => ⟨(origin e mem).1, (origin e mem).2.1⟩, ?_, ?_⟩
    · rw [← lowers.exits]
      refine Iff.trans ?_ exit
      simp
    · rw [← lowers.writes]
      refine Iff.trans ?_ result
      simp [Writes, Item.own]
  | term t =>
    -- what ends a terminator's code is not a step: without a condition to compute it is all
    have silent : terminatorSteps f t = [] → out = [] := by
      intro none
      have run := stepped.run
      rw [Item.steps, none] at run
      exact (pure_eq_some.mp run).2.1
    cases t with
    | br dest =>
      rw [silent rfl]
      rfl
    | ret value =>
      rw [silent rfl]
      exact ⟨_, rfl, rfl, rfl⟩
    | switch | unreachable | other =>
      rw [silent rfl]
      rfl
    | condBr condVal ifTrue ifFalse =>
      refine ⟨_, _, rfl, conditional_conditionCode f condVal, fun e mem => ?_⟩
      obtain ⟨same, noBranch, noExit⟩ := origin e mem
      exact ⟨same, noBranch, noExit (stepsExit_conditionSteps f condVal)⟩

/-- Every item. -/
theorem selectItem_spec {p : Piece} (valid : p.before.Valid)
    (h : selectItem dl f p.item p.before = some ((), p.code, p.after)) : Spec dl f p := by
  obtain ⟨out, stepped⟩ := selectItem_stepped h
  exact .of_stepped stepped valid (selectItem_shape valid h)

/-! ## Functions -/

/-- The pieces of a chain are as specified, and know which constants were used before them. -/
lemma PieceChain.spec {seen seen' : List (Value × Bool)} {st st' : Selector} {ps : List Piece}
    (h : PieceChain dl f seen st ps seen' st') (valid : st.Valid) :
    st'.Valid ∧ Grows st st' ∧ ∀ p ∈ ps, Spec dl f p ∧ Grows p.after st' := by
  induction h with
  | nil => exact ⟨valid, .refl _, by simp⟩
  | cons select rest ih =>
    have spec := selectItem_spec valid select
    obtain ⟨valid', grows, all⟩ := ih spec.valid
    exact ⟨valid', spec.grows.trans grows, List.forall_mem_cons.mpr ⟨⟨spec, grows⟩, all⟩⟩

lemma PieceChain.seen_iff {seen seen' : List (Value × Bool)} {st st' : Selector} {ps : List Piece}
    (h : PieceChain dl f seen st ps seen' st') (valid : st.Valid) {c : Value}
    (constant : isConstantInt c = true) (nonzero : isZero c = false)
    (start : st.valueToVReg c = none ↔ firstUse c seen = none) :
    ∀ p ∈ ps, p.before.valueToVReg c = none ↔ firstUse c p.seen = none := by
  induction h with
  | nil => simp
  | cons select rest ih =>
    have spec := selectItem_spec valid select
    refine List.forall_mem_cons.mpr ⟨start, ih spec.valid ?_⟩
    rw [(spec.loading c constant nonzero).none_iff, firstUse_append, Option.or_eq_none_iff, start]

/-- Each piece of a chain is selected from a state that is in order. -/
lemma PieceChain.select {seen seen' : List (Value × Bool)} {st st' : Selector} {ps : List Piece}
    (h : PieceChain dl f seen st ps seen' st') (valid : st.Valid) :
    ∀ p ∈ ps, p.before.Valid ∧ selectItem dl f p.item p.before = some ((), p.code, p.after) := by
  induction h with
  | nil => simp
  | cons select rest ih =>
    exact List.forall_mem_cons.mpr ⟨⟨valid, select⟩, ih (selectItem_spec valid select).valid⟩

/-- The selected code of a function as pieces. -/
structure Selected (dl : DataLayout) (f : Llvm.Function) (code : List SelectedBlock) (st : Selector)
    (pieces : List (List Piece)) : Prop where
  items : pieces.map (List.map Piece.item) = functionItems f
  marks : pieces.map (List.map Piece.mark) = markedItems dl f
  blocks : code.map SelectedBlock.items = ControlFlow.expand Piece.code pieces
  names : code.map SelectedBlock.name = f.blocks.mapIdx fun b _ => blockNames f b
  valid : st.Valid
  spec : ∀ ps ∈ pieces, ∀ p ∈ ps, Spec dl f p ∧ Grows p.after st
  seen : ∀ c, isConstantInt c = true → isZero c = false → ∀ ps ∈ pieces, ∀ p ∈ ps,
    (p.before.valueToVReg c = none ↔ firstUse c p.seen = none)

/-- Every function that is selected has such pieces, which follow each other. -/
theorem selectFunction_pieces {code : List SelectedBlock} {st : Selector}
    (h : selectFunction dl f = some (code, st)) : ∃ pieces seen,
      PieceChain dl f [] Selector.start pieces.flatten seen st ∧ Selected dl f code st pieces := by
  obtain ⟨pieces, seen', chain, items, marks, code, names⟩ := selectBlocks_pieces h []
  obtain ⟨valid, -, spec⟩ := chain.spec Selector.valid_start
  simp only [Nat.zero_add] at items marks names
  refine ⟨pieces, seen', chain, items, marks, code, names, valid, fun ps hps p hp => ?_,
    fun c constant nonzero ps hps p hp => ?_⟩
  · exact spec p (List.mem_flatten.mpr ⟨ps, hps, hp⟩)
  · exact chain.seen_iff Selector.valid_start constant nonzero (by simp [Selector.start]) p
      (List.mem_flatten.mpr ⟨ps, hps, hp⟩)

/-- What is selected consists of pieces. -/
theorem selectFunction_selected {code : List SelectedBlock} {st : Selector}
    (h : selectFunction dl f = some (code, st)) : ∃ pieces, Selected dl f code st pieces := by
  obtain ⟨pieces, -, -, selected⟩ := selectFunction_pieces h
  exact ⟨pieces, selected⟩

/-- The code of a function is that of its pieces. -/
lemma Selected.flatMap_items {code : List SelectedBlock} {st : Selector}
    {pieces : List (List Piece)} (selected : Selected dl f code st pieces) :
    code.flatMap SelectedBlock.items = pieces.flatten.flatMap Piece.code := by
  have blocks := congrArg List.flatten selected.blocks
  rw [ControlFlow.expand, ← List.flatMap_def, ← List.flatMap_def] at blocks
  rw [blocks, ← List.flatMap_id, List.flatMap_assoc]
  rfl

lemma Selected.flatten_items {code : List SelectedBlock} {st : Selector}
    {pieces : List (List Piece)} (selected : Selected dl f code st pieces) :
    pieces.flatten.map Piece.item = (functionItems f).flatten := by
  rw [← selected.items, List.map_flatten]

/-- The states between the items of a function, with the items that are still to be selected. -/
inductive Selecting (dl : DataLayout) (f : Llvm.Function) : Selector → List Item → Prop
  | start : Selecting dl f Selector.start (functionItems f).flatten
  | item {st st' item items code} (selecting : Selecting dl f st (item :: items))
    (select : selectItem dl f item st = some ((), code, st')) : Selecting dl f st' items

lemma Selecting.valid {st : Selector} {items : List Item} (h : Selecting dl f st items) :
    st.Valid := by
  induction h with
  | start => exact Selector.valid_start
  | @item st st' item items code _ select ih =>
    exact (selectItem_spec (p := ⟨item, [], st, code, st'⟩) ih select).valid

/-- A chain of pieces goes through the states between its items. -/
lemma PieceChain.selecting {seen seen' : List (Llvm.Value × Bool)}
    {st st' : Selector} {ps : List Piece} (h : PieceChain dl f seen st ps seen' st')
    {items : List Item} (selecting : Selecting dl f st (ps.map Piece.item ++ items)) :
    Selecting dl f st' items := by
  induction h with
  | nil => exact selecting
  | cons select _ ih => exact ih (selecting.item select)

/-- The selector comes to the item of each piece in the state before it. -/
lemma PieceChain.selecting_piece {seen seen' : List (Llvm.Value × Bool)}
    {st st' : Selector} {ps : List Piece} (h : PieceChain dl f seen st ps seen' st')
    {items : List Item} (selecting : Selecting dl f st (ps.map Piece.item ++ items))
    {p : Piece} (mem : p ∈ ps) :
    ∃ items, Selecting dl f p.before (p.item :: items) := by
  induction h with
  | nil => cases mem
  | cons select _ ih =>
    obtain rfl | mem := List.mem_cons.mp mem
    · exact ⟨_, selecting⟩
    · exact ih (selecting.item select) mem

lemma Selected.selecting {code : List SelectedBlock} {st : Selector} {pieces : List (List Piece)}
    (selected : Selected dl f code st pieces) {seen : List (Llvm.Value × Bool)}
    (chain : PieceChain dl f [] Selector.start pieces.flatten seen st) {p : Piece}
    (mem : p ∈ pieces.flatten) :
    ∃ items, Selecting dl f p.before (p.item :: items) := by
  have first : Selecting dl f .start (pieces.flatten.map Piece.item ++ []) := by
    rw [List.append_nil, selected.flatten_items]
    exact .start
  exact chain.selecting_piece first mem

/-- A read of the register of a value is a read of a use of the piece. -/
lemma Selected.use_of_read {code : List SelectedBlock} {st : Selector} {pieces : List (List Piece)}
    (selected : Selected dl f code st pieces) {ps : List Piece} {p : Piece}
    (hps : ps ∈ pieces) (hp : p ∈ ps) {e : Emitted} (he : e ∈ p.code) {v : Value} {r : Nat}
    (read : r ∈ e.mi.reads) (reg : st.valueToVReg v = some r) :
    ∃ m, (v, m) ∈ usesOf dl f p.item := by
  obtain ⟨spec, grows⟩ := selected.spec ps hps p hp
  obtain rfl | ⟨u, mem, reg'⟩ | temp := spec.reads e he r read
  · exact absurd (selected.valid.range reg).1 (by decide)
  · have last := grows.regOf reg'
    unfold Selector.regOf at last
    split at last
    · obtain rfl := Option.some.inj last
      exact absurd (selected.valid.range reg).1 (by decide)
    · obtain rfl := selected.valid.inj last reg
      exact ⟨u.2, mem⟩
  · exact absurd reg ((grows.temp temp).2.2 v)

end Items

end FpgaGpu

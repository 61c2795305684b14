import FpgaGpu.Isel.Contents

/-!
# Paths through the selected code

A path through the selected code of a function follows a path through the function, and a path
through a function whose blocks end in `br` and `ret` is followed by one through its code.
-/

namespace FpgaGpu

open Llvm (Terminator)

/-! ## Control flow -/

/-- The flow of a function. -/
def cfgFlow : ControlFlow Item where
  continues
    | .term _ => False
    | _ => True
  jumps
    | .term t, d => d ∈ t.successors
    | _, _ => False

/-- The flow of a function whose calls of `exit` do not return. -/
def runFlow : ControlFlow Item where
  continues
    | .argument .. => True
    | .inst i => exits i.operation = false
    | .term _ => False
  jumps := cfgFlow.jumps

/-- The flow of labelled code: a branch goes to the block that it names. -/
def codeFlow (names : List Text) : ControlFlow Emitted where
  continues e :=
    match e.mi.op with
    | .exit => False
    | .br => ∃ flags, takes e.mi.cond flags = false
    | _ => True
  jumps e d := e.mi.op = .br ∧ (∃ flags, takes e.mi.cond flags = true) ∧
    names[d]? = some e.mi.labelTarget

/-- The flow of the items of pieces. -/
def pieceFlow (F : ControlFlow Item) : ControlFlow Piece where
  continues p := F.continues p.item
  jumps p := F.jumps p.item

lemma continues_of_plain {names : List Text} {e : Emitted} (branch : e.mi.op ≠ .br)
    (exit : e.mi.op ≠ .exit) : (codeFlow names).continues e := by
  show match e.mi.op with
    | .exit => False
    | .br => ∃ flags, takes e.mi.cond flags = false
    | _ => True
  split
  · exact exit ‹_›
  · exact absurd ‹_› branch
  · trivial

lemma not_continues_of_exit {names : List Text} {e : Emitted} (exit : e.mi.op = .exit) :
    ¬ (codeFlow names).continues e := by
  intro h
  change match e.mi.op with
    | .exit => False
    | .br => ∃ flags, takes e.mi.cond flags = false
    | _ => True at h
  rw [exit] at h
  exact h

/-- A branch on `ALWAYS` is not passed. -/
lemma not_continues_always {names : List Text} {f : Llvm.Function} {dest : Nat} {comment : String} :
    ¬ (codeFlow names).continues (branchTo f BranchCond.ALWAYS dest comment) := by
  rintro ⟨flags, h⟩
  change takes BranchCond.ALWAYS flags = false at h
  rw [takes_always] at h
  cases h

/-- No two blocks have one label. -/
def NamesDistinct (f : Llvm.Function) : Prop := (f.blocks.mapIdx fun b _ => blockNames f b).Nodup

instance (f : Llvm.Function) : Decidable (NamesDistinct f) := by
  unfold NamesDistinct
  infer_instance

/-! ## Blocks of pieces -/

section Pieces

variable {dl : DataLayout} {f : Llvm.Function} {code : List SelectedBlock} {st : Selector}
variable {pieces : List (List Piece)}

/-- The pieces of a block are those of its items. -/
lemma Selected.block (selected : Selected dl f code st pieces) {b : Nat} {ps : List Piece}
    (h : pieces[b]? = some ps) :
    ∃ bb, f.blocks[b]? = some bb ∧ ps.map Piece.item = itemsOf f b bb := by
  have e : (pieces.map (List.map Piece.item))[b]? = some (ps.map Piece.item) := by simp [h]
  rw [selected.items, functionItems, List.getElem?_mapIdx, Option.map_eq_some_iff] at e
  obtain ⟨bb, e, same⟩ := e
  exact ⟨bb, e, same.symm⟩

/-- Every block has code. -/
lemma Selected.exists_code (selected : Selected dl f code st pieces) {b : Nat}
    {bb : Llvm.BasicBlock} (block : f.blocks[b]? = some bb) : ∃ sb, code[b]? = some sb := by
  have length : code.length = f.blocks.length := by
    simpa using congrArg List.length selected.names
  have lt := (List.getElem?_eq_some_iff.mp block).1
  exact ⟨_, List.getElem?_eq_getElem (length ▸ lt)⟩

/-- The code of a block is that of its pieces. -/
lemma Selected.code_block (selected : Selected dl f code st pieces) {b : Nat} {sb : SelectedBlock}
    (h : code[b]? = some sb) : ∃ ps, pieces[b]? = some ps ∧ sb.items = ps.flatMap Piece.code := by
  have items : (code.map SelectedBlock.items)[b]? = some sb.items := by simp [h]
  rw [selected.blocks, ControlFlow.expand, List.getElem?_map, Option.map_eq_some_iff] at items
  obtain ⟨ps, hps, items⟩ := items
  exact ⟨ps, hps, items.symm⟩

lemma not_term_of_mem_argumentItems {args : List Llvm.Argument} {k : Nat} {item : Item}
    (h : item ∈ argumentItems k args) : ∃ k' arg, item = .argument k' arg := by
  induction args generalizing k with
  | nil => cases h
  | cons arg args ih =>
    obtain rfl | h := List.mem_cons.mp h
    · exact ⟨k, arg, rfl⟩
    · exact ih h

/-- The last piece of a block is that of its terminator, and no other. -/
lemma Selected.last (selected : Selected dl f code st pieces) {b : Nat} {ps : List Piece}
    (h : pieces[b]? = some ps) :
    ∃ bb before p, f.blocks[b]? = some bb ∧ ps = before ++ [p] ∧ p.item = .term bb.terminator ∧
      ∀ q ∈ before, ∀ t, q.item ≠ .term t := by
  obtain ⟨bb, e, same⟩ := selected.block h
  rw [itemsOf, ← List.append_assoc] at same
  obtain ⟨before, last, rfl, items, e'⟩ := List.map_eq_append_iff.mp same
  obtain ⟨p, _, rfl, item, e''⟩ := List.map_eq_cons_iff.mp e'
  obtain rfl := List.map_eq_nil_iff.mp e''
  refine ⟨bb, before, p, e, rfl, item, fun q mem t term => ?_⟩
  have mem : Item.term t ∈ before.map Piece.item := term ▸ List.mem_map_of_mem mem
  rw [items, List.mem_append] at mem
  obtain mem | mem := mem
  · split at mem
    · obtain ⟨k, arg, e⟩ := not_term_of_mem_argumentItems mem
      cases e
    · cases mem
  · obtain ⟨i, -, e⟩ := List.mem_map.mp mem
    cases e

/-- A piece of a terminator is that of the terminator of its block. -/
lemma Selected.terminator (selected : Selected dl f code st pieces) {b : Nat} {ps : List Piece}
    (h : pieces[b]? = some ps) {p : Piece} (mem : p ∈ ps) {t : Terminator}
    (item : p.item = .term t) :
    ∃ bb, f.blocks[b]? = some bb ∧ t = bb.terminator := by
  obtain ⟨bb, before, q, e, rfl, last, none⟩ := selected.last h
  refine ⟨bb, e, ?_⟩
  obtain mem | mem := List.mem_append.mp mem
  · exact absurd item (none p mem t)
  · obtain rfl := List.mem_singleton.mp mem
    exact Item.term.inj (item.symm.trans last)

/-- The code of a block has that of each of its instructions. -/
lemma Selected.select_instruction (selected : Selected dl f code st pieces)
    {seen : List (Llvm.Value × Bool)}
    (chain : PieceChain dl f [] Selector.start pieces.flatten seen st) {b : Nat}
    {bb : Llvm.BasicBlock} {sb : SelectedBlock} (block : f.blocks[b]? = some bb)
    (at_block : code[b]? = some sb) {i : Llvm.Instruction} (mem : i ∈ bb.body) :
    ∃ before out after st₀ items st₁,
      sb.items = before ++ out.map (Emitted.mk (.instruction i.id)) ++ after ∧
      Selecting dl f st₀ (.inst i :: items) ∧ Grows st₁ st ∧
      selectInstruction dl f i st₀ = some ((), out, st₁) := by
  obtain ⟨ps, hps, items⟩ := selected.code_block at_block
  obtain ⟨bb', block', same⟩ := selected.block hps
  obtain rfl := Option.some.inj (block.symm.trans block')
  have listed : Item.inst i ∈ ps.map Piece.item := by
    rw [same]
    exact List.mem_append_right _ (List.mem_append_left _ (List.mem_map_of_mem mem))
  obtain ⟨p, hp, item⟩ := List.mem_map.mp listed
  have hps := List.mem_of_getElem? hps
  have mem := List.mem_flatten.mpr ⟨ps, hps, hp⟩
  obtain ⟨-, select⟩ := chain.select Selector.valid_start p mem
  obtain ⟨items', selecting⟩ := selected.selecting chain mem
  rw [item] at select selecting
  obtain ⟨out, select, e⟩ := Emission.mapItems_eq_some.mp select
  obtain ⟨before, after, rfl⟩ := List.append_of_mem hp
  refine ⟨before.flatMap Piece.code, out, after.flatMap Piece.code, p.before, items',
    p.after, ?_, selecting, (selected.spec _ hps p hp).2, select⟩
  rw [items, List.flatMap_append, List.flatMap_cons, e, List.append_assoc]

/-- A piece that branches is one of a terminator, and branches to a successor. -/
lemma CodeShape.branch {after : Selector} {item : Item} {code : List Emitted}
    (shape : CodeShape f after item code) {e : Emitted} (he : e ∈ code) (branch : e.mi.op = .br) :
    ∃ t cond dest comment, item = .term t ∧ dest ∈ t.successors ∧
      e = branchTo f cond dest comment := by
  cases item with
  | argument k arg => exact absurd branch (shape.1 e he).2.1
  | inst i => exact absurd branch (shape.1 e he).2
  | term t =>
    cases t with
    | br s =>
      rw [show code = _ from shape] at he
      exact ⟨_, _, s, _, rfl, by simp [Terminator.successors], List.mem_singleton.mp he⟩
    | condBr c s s' =>
      obtain ⟨cmp, cond, rfl, -, plain⟩ := shape
      obtain he | he := List.mem_append.mp he
      · exact absurd branch (plain e he).2.1
      · obtain he | he := List.mem_cons.mp he
        · exact ⟨_, cond, s, _, rfl, by simp [Terminator.successors], he⟩
        · exact ⟨_, _, s', _, rfl, by simp [Terminator.successors], List.mem_singleton.mp he⟩
    | ret value =>
      obtain ⟨e₁, rfl, -, exit⟩ := shape
      obtain rfl := List.mem_singleton.mp he
      rw [branch] at exit
      cases exit
    | switch | unreachable | other =>
      rw [show code = [] from shape] at he
      cases he

/-- The code of a block ends with that of its terminator. -/
lemma Selected.select_terminator (selected : Selected dl f code st pieces)
    {seen : List (Llvm.Value × Bool)}
    (chain : PieceChain dl f [] Selector.start pieces.flatten seen st) {b : Nat}
    {bb : Llvm.BasicBlock} {sb : SelectedBlock} (block : f.blocks[b]? = some bb)
    (at_block : code[b]? = some sb) :
    ∃ before items st₀ st₁, sb.items = before ++ items ∧ (∀ e ∈ before, e.mi.op ≠ .br) ∧ st₀.Valid ∧
      Grows st₁ st ∧ selectTerminator f bb.terminator st₀ = some ((), items, st₁) := by
  obtain ⟨ps, hps, items⟩ := selected.code_block at_block
  obtain ⟨bb', before, p, block', rfl, item, straight⟩ := selected.last hps
  obtain rfl := Option.some.inj (block.symm.trans block')
  have hps := List.mem_of_getElem? hps
  have hp : p ∈ before ++ [p] := List.mem_append_right _ List.mem_cons_self
  obtain ⟨valid, select⟩ := chain.select Selector.valid_start p (List.mem_flatten.mpr ⟨_, hps, hp⟩)
  rw [item] at select
  refine ⟨before.flatMap Piece.code, p.code, p.before, p.after, ?_, fun e he branch => ?_, valid,
    (selected.spec _ hps p hp).2, select⟩
  · rw [items, List.flatMap_append, List.flatMap_singleton]
  · obtain ⟨q, hq, he⟩ := List.mem_flatMap.mp he
    obtain ⟨spec, -⟩ := selected.spec _ hps q (List.mem_append_left _ hq)
    obtain ⟨t, -, -, -, term, -⟩ := spec.shape.branch he branch
    exact straight q hq t term

/-- What a branch of a piece jumps to is a successor. -/
lemma Selected.jumps (selected : Selected dl f code st pieces) (closed : f.Closed)
    (distinct : (code.map SelectedBlock.name).Nodup) {b d : Nat} {ps : List Piece} {p : Piece}
    {e : Emitted} (h : pieces[b]? = some ps) (mem : p ∈ ps) (he : e ∈ p.code)
    (jump : (codeFlow (code.map SelectedBlock.name)).jumps e d) : cfgFlow.jumps p.item d := by
  obtain ⟨branch, -, name⟩ := jump
  obtain ⟨spec, -⟩ := selected.spec ps (List.mem_of_getElem? h) p mem
  obtain ⟨t, cond, dest, comment, item, succ, rfl⟩ := spec.shape.branch he branch
  obtain ⟨bb, e', rfl⟩ := selected.terminator h mem item
  -- names are distinct, so the block that is named is the successor
  have lt := closed bb (List.mem_of_getElem? e') dest succ
  have at_dest : (code.map SelectedBlock.name)[dest]? = some (blockNames f dest) := by
    simp [selected.names, List.getElem?_mapIdx, List.getElem?_eq_getElem lt]
  obtain ⟨lt₁, e₁⟩ := List.getElem?_eq_some_iff.mp name
  obtain ⟨lt₂, e₂⟩ := List.getElem?_eq_some_iff.mp at_dest
  rw [distinct.getElem_inj_iff.mp (e₁.trans e₂.symm), item]
  exact succ

/-- A terminator that is lowered: `br` or `ret`. -/
def isLowered : Terminator → Bool
  | .br _ | .condBr .. | .ret _ => true
  | _ => false

/-- The code of a terminator that is lowered does not run on. -/
lemma exists_not_continues {names : List Text} {after : Selector} {t : Terminator}
    {code : List Emitted} (shape : CodeShape f after (.term t) code)
    (lowered : isLowered t = true) :
    ∃ e ∈ code, ¬ (codeFlow names).continues e := by
  cases t with
  | br dest =>
    rw [show code = _ from shape]
    exact ⟨_, List.mem_singleton.mpr rfl, not_continues_always⟩
  | condBr c s s' =>
    obtain ⟨cmp, cond, rfl, -, -⟩ := shape
    exact ⟨branchTo f BranchCond.ALWAYS s' "branch fallthrough/else", by simp, not_continues_always⟩
  | ret value =>
    obtain ⟨e, rfl, -, exit⟩ := shape
    exact ⟨e, List.mem_singleton.mpr rfl, not_continues_of_exit exit⟩
  | switch | unreachable | other => cases lowered

/-- Paths through the code follow paths through the function. -/
theorem Selected.follows (selected : Selected dl f code st pieces) (closed : f.Closed)
    (distinct : (code.map SelectedBlock.name).Nodup) {ok' : Nat → Option Emitted → Prop}
    (leaves : ∀ (b : Nat) bb, f.blocks[b]? = some bb → ok' b none →
      isLowered bb.terminator = true) :
    ControlFlow.Follows (pieceFlow runFlow)
      (codeFlow (code.map SelectedBlock.name)) Piece.code pieces ok' where
  jumps _ _ _ _ _ h mem he jump := selected.jumps closed distinct h mem he jump
  inner b before a a' after h all := by
    obtain ⟨bb, before', p, -, e, -, none⟩ := selected.last h
    have mem : a ∈ before' := by
      have e : before ++ a :: a' :: after = before' ++ [p] := e
      have dropped := congrArg List.dropLast e
      rw [List.dropLast_concat, List.dropLast_append_cons] at dropped
      simp [← dropped]
    obtain ⟨spec, -⟩ := selected.spec _ (List.mem_of_getElem? h) a (by simp)
    have shape := spec.shape
    show runFlow.continues a.item
    cases item : a.item with
    | argument k arg => trivial
    | inst i =>
      rw [item] at shape
      show exits i.operation = false
      rw [← Bool.not_eq_true, ← shape.2.1]
      rintro ⟨e, he, exit⟩
      exact not_continues_of_exit exit (all e he)
    | term t => exact absurd item (none a mem t)
  last b before a h leaving := by
    obtain ⟨bb, before', p, e', e, item, -⟩ := selected.last h
    obtain ⟨-, rfl⟩ := List.append_singleton_inj.mp e
    obtain ⟨spec, -⟩ := selected.spec _ (List.mem_of_getElem? h) a (by simp)
    exact exists_not_continues (item ▸ spec.shape) (leaves b bb e' leaving)
  nonempty b ps h := by
    obtain ⟨-, before, p, -, rfl, -, -⟩ := selected.last h
    simp

/-- Paths through a function whose blocks end in `br` and `ret` are followed by paths through its
code. -/
theorem Selected.leads (selected : Selected dl f code st pieces)
    (lowered : ∀ bb ∈ f.blocks, isLowered bb.terminator = true) (closed : f.Closed) :
    ControlFlow.Leads (pieceFlow runFlow)
      (codeFlow (code.map SelectedBlock.name)) Piece.code pieces where
  continues b ps a h mem continues e he := by
    obtain ⟨spec, -⟩ := selected.spec ps (List.mem_of_getElem? h) a mem
    have shape := spec.shape
    change runFlow.continues a.item at continues
    cases item : a.item with
    | argument k arg =>
      rw [item] at shape
      exact continues_of_plain (shape.1 e he).2.1 (shape.1 e he).2.2
    | inst i =>
      rw [item] at shape continues
      refine continues_of_plain (shape.1 e he).2 fun exit => ?_
      have stop := shape.2.1.mp ⟨e, he, exit⟩
      rw [show exits i.operation = false from continues] at stop
      cases stop
    | term t =>
      rw [item] at continues
      cases continues
  jumps b ps a d h mem jump := by
    obtain ⟨spec, -⟩ := selected.spec ps (List.mem_of_getElem? h) a mem
    have shape := spec.shape
    change cfgFlow.jumps a.item d at jump
    cases item : a.item with
    | argument k arg =>
      rw [item] at jump
      cases jump
    | inst i =>
      rw [item] at jump
      cases jump
    | term t =>
      obtain ⟨bb, e', terminator⟩ := selected.terminator h mem item
      rw [item] at shape jump
      have lt := closed bb (List.mem_of_getElem? e') d (terminator ▸ jump)
      have name : (code.map SelectedBlock.name)[d]? = some (blockNames f d) := by
        simp [selected.names, List.getElem?_mapIdx, List.getElem?_eq_getElem lt]
      have jumps : ∀ cond comment, (∃ flags, takes cond flags = true) →
          (codeFlow (code.map SelectedBlock.name)).jumps (branchTo f cond d comment) d :=
        fun cond comment taken => ⟨rfl, taken, name⟩
      have this := lowered bb (List.mem_of_getElem? e')
      rw [← terminator] at this
      cases t with
      | br s =>
        obtain rfl : d = s := by simpa [cfgFlow, Terminator.successors] using jump
        exact ⟨[], _, [], shape, by simp, jumps _ _ ⟨0, takes_always 0⟩⟩
      | condBr c s s' =>
        obtain ⟨cmp, cond, split, ⟨taken, passed⟩, plain⟩ := shape
        have walked : ∀ e ∈ cmp, (codeFlow (code.map SelectedBlock.name)).continues e :=
          fun e he => continues_of_plain (plain e he).2.1 (plain e he).2.2
        -- the second successor is reached past the first branch, which is passed for some flags
        obtain rfl | rfl : d = s ∨ d = s' := by simpa [cfgFlow, Terminator.successors] using jump
        · exact ⟨cmp, _, _, split, walked, jumps _ _ taken⟩
        · refine ⟨cmp ++ [branchTo f cond s "branch taken"], _, [], by simpa using split,
            fun e he => ?_, jumps _ _ ⟨0, takes_always 0⟩⟩
          obtain he | he := List.mem_append.mp he
          · exact walked e he
          · obtain rfl := List.mem_singleton.mp he
            exact passed
      | ret value => cases jump
      | switch | unreachable | other => cases this

end Pieces

end FpgaGpu

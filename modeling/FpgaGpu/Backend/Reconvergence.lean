import FpgaGpu.Backend.Module
import FpgaGpu.Divergence.Balance
import FpgaGpu.Emit.Reconvergence
import FpgaGpu.Isel.Sizes
import FpgaGpu.Isel.Ssy

/-!
# Reconvergence addresses

The reconvergence block of a branch travels as the text of an inline assembly call. The emitter
looks up what the selector leaves of it, and keeps the offset 0 if there is no such block.
-/

namespace FpgaGpu

/-! ## The outline of a module -/

/-- The names of the blocks of all functions, and how many instructions each has. -/
def moduleOutline (dl : DataLayout) (fs : List Llvm.Function) : List (Text × Nat) :=
  fs.flatMap (outline dl)

/-- The position of the block `b` of the function `i` among the blocks of all functions. -/
def blockPosition (fs : List Llvm.Function) (i b : Nat) : Nat :=
  Offset.start (fs.map fun f => f.blocks.length) i + b

/-- The program counter of the item `n` of the block `b` of the function `f`, which is the one at
`i`. -/
def itemPC (dl : DataLayout) (fs : List Llvm.Function) (i : Nat) (f : Llvm.Function) (b n : Nat) :
    Nat :=
  startPC (moduleOutline dl fs) (blockPosition fs i b) + Offset.start ((itemSizes dl f).getD b []) n

section Modules

variable {llvm : Analyses} {dl : DataLayout} {order : SortOrder} {M : Llvm.Module}
variable {codes : List (List SelectedBlock)} {blocks : List BasicBlockCode}

/-- The selected blocks of functions have the names and lengths of the outline. -/
lemma moduleOutline_eq {fs : List Llvm.Function}
    (all : List.Forall₂ (fun f code => ∃ st, selectFunction dl f = some (code, st)) fs codes) :
    codes.flatten.map (fun sb => (sb.name, sb.items.length)) = moduleOutline dl fs ∧
      codes.map List.length = fs.map fun f => f.blocks.length := by
  induction all with
  | nil => exact ⟨rfl, rfl⟩
  | cons first _ ih =>
    obtain ⟨st, select⟩ := first
    obtain ⟨pieces, selected⟩ := selectFunction_selected select
    have length := congrArg List.length selected.names
    rw [List.length_map, List.length_mapIdx] at length
    constructor
    · rw [List.flatten_cons, List.map_append, ih.1, selectFunction_outline select]
      rfl
    · rw [List.map_cons, List.map_cons, ih.2, length]

/-- The emitter sees the outline of the module. -/
lemma compileModule_outline
    (select : selectFunctions dl (M.functions.map (runDivergencePass llvm)) = some codes)
    (h : compileModule llvm dl order M = some blocks) :
    blockOutline blocks = moduleOutline dl (definedFunctions llvm M) := by
  obtain ⟨φ, rfl⟩ := compileModule_eq_some select h
  rw [definedFunctions, ← (moduleOutline_eq (selectFunctions_forall₂ select)).1,
    blockOutline, allBlocks, List.map_map, List.map_map]
  refine List.map_congr_left fun sb _ => ?_
  simp [BlockCode.mapRegs, SelectedBlock.code]

lemma blockIndex_eq
    (select : selectFunctions dl (M.functions.map (runDivergencePass llvm)) = some codes)
    (i b : Nat) :
    blockIndex codes i b = blockPosition (definedFunctions llvm M) i b := by
  rw [blockIndex, blockPosition, definedFunctions,
    ← (moduleOutline_eq (selectFunctions_forall₂ select)).2,
    Offset.start, List.length_flatten, List.map_take]

/-! ## Positions in a block -/

/-- The block `b` has, before what it emits for its branch, an `SSY` word that leads to the block
`J`. -/
def Reconverges (llvm : Analyses) (M : Llvm.Module) (codes : List (List SelectedBlock))
    (blocks : List BasicBlockCode) (i b J : Nat) : Prop :=
  ∃ k f e, EmittedAt llvm M codes i b k f e ∧
    (∀ k' e', EmittedAt llvm M codes i b k' f e' →
      (e'.origin = .terminator ∨ ∃ d, e'.origin = .edge d) → k < k') ∧
    SsyTo (emitWords blocks) (blockStart blocks (blockIndex codes i b) + k)
      (blockStart blocks (blockIndex codes i J))

/-- An instruction of a block stands in one of its pieces, behind the pieces before that. -/
lemma getElem?_pieces {ps : List Piece} {k : Nat} {e : Emitted} :
    (ps.flatMap Piece.code)[k]? = some e ↔ ∃ n p m, ps[n]? = some p ∧ p.code[m]? = some e ∧
      k = Offset.start (ps.map fun p => p.code.length) n + m := by
  have lengths : (ps.map Piece.code).map List.length = ps.map fun p => p.code.length := by
    rw [List.map_map]
    rfl
  rw [List.flatMap_def]
  constructor
  · intro h
    obtain ⟨n, code, m, hn, hm, rfl⟩ := Offset.exists_part h
    rw [List.getElem?_map, Option.map_eq_some_iff] at hn
    obtain ⟨p, hp, rfl⟩ := hn
    exact ⟨n, p, m, hp, hm, by rw [lengths]⟩
  · rintro ⟨n, p, m, hp, hm, rfl⟩
    rw [← lengths]
    exact Offset.getElem?_flatten (by rw [List.getElem?_map, hp, Option.map_some]) hm

/-- What is emitted for a branch is emitted by the terminator. -/
lemma term_of_origin {f : Llvm.Function} {item : Item} {st st' : Selector} {code : List Emitted}
    {e : Emitted} (h : selectItem dl f item st = some ((), code, st')) (mem : e ∈ code)
    (origin : e.origin = .terminator ∨ ∃ d, e.origin = .edge d) : ∃ t, item = .term t := by
  obtain ⟨out, stepped⟩ := selectItem_stepped h
  rw [stepped.code] at mem
  cases item with
  | term t => exact ⟨t, rfl⟩
  | argument argIdx arg =>
    have tail : (Item.argument argIdx arg).tail f = [] := rfl
    rw [tail, List.append_nil] at mem
    obtain ⟨mi, -, rfl⟩ := List.mem_map.mp mem
    obtain origin | ⟨d, origin⟩ := origin <;> cases origin
  | inst i =>
    have tail : (Item.inst i).tail f = [] := rfl
    rw [tail, List.append_nil] at mem
    obtain ⟨mi, -, rfl⟩ := List.mem_map.mp mem
    obtain origin | ⟨d, origin⟩ := origin <;> cases origin

/-- The terminator is the last item of a block. -/
lemma length_of_term {f : Llvm.Function} {b n : Nat} {bb : Llvm.BasicBlock} {t : Llvm.Terminator}
    (h : (itemsOf f b bb)[n]? = some (.term t)) : (itemsOf f b bb).length = n + 1 := by
  have split : itemsOf f b bb =
      ((if b = 0 then argumentItems 0 f.args else []) ++ bb.body.map .inst) ++
        [.term bb.terminator] := by
    rw [itemsOf, List.append_assoc]
  have plain : ∀ item ∈ (if b = 0 then argumentItems 0 f.args else []) ++ bb.body.map Item.inst,
      item ≠ .term t := by
    intro item mem
    obtain mem | mem := List.mem_append.mp mem
    · split at mem
      · obtain ⟨k, arg, rfl⟩ := not_term_of_mem_argumentItems mem
        simp
      · cases mem
    · obtain ⟨i, -, rfl⟩ := List.mem_map.mp mem
      simp
  rw [split] at h ⊢
  obtain lt | ge := Nat.lt_or_ge n ((if b = 0 then argumentItems 0 f.args else []) ++
    bb.body.map Item.inst).length
  · rw [List.getElem?_append_left lt] at h
    exact absurd rfl (plain _ (List.mem_of_getElem? h))
  · rw [List.getElem?_append_right ge] at h
    have := (List.getElem?_eq_some_iff.mp h).1
    rw [List.length_append]
    simp only [List.length_singleton] at this ⊢
    omega

lemma inst_before_term {f : Llvm.Function} {b n n' : Nat} {bb : Llvm.BasicBlock}
    {call : Llvm.Instruction} {t : Llvm.Terminator} (hn : (itemsOf f b bb)[n]? = some (.inst call))
    (hn' : (itemsOf f b bb)[n']? = some (.term t)) : n < n' := by
  have inside := (List.getElem?_eq_some_iff.mp hn).1
  have last := length_of_term hn'
  have ne : n ≠ n' := by
    rintro rfl
    rw [hn] at hn'
    cases hn'
  omega

/-- The instructions of a block are those of its items, one item behind the other. -/
lemma exists_block
    (select : selectFunctions dl (M.functions.map (runDivergencePass llvm)) = some codes)
    {i b : Nat} {F : Llvm.Function} {bb : Llvm.BasicBlock}
    (hf : (definedFunctions llvm M)[i]? = some F) (hb : F.blocks[b]? = some bb) :
    ∃ ps : List Piece, ps.map Piece.item = itemsOf F b bb ∧
      (∀ p ∈ ps, selectItem dl F p.item p.before = some ((), p.code, p.after)) ∧
      (ps.map fun p => p.code.length) = (itemSizes dl F).getD b [] ∧
      ∀ {k f e}, EmittedAt llvm M codes i b k f e ↔ f = F ∧ ∃ n p m, ps[n]? = some p ∧
        p.code[m]? = some e ∧ k = Offset.start ((itemSizes dl F).getD b []) n + m := by
  have lt : i < codes.length := by
    rw [← (selectFunctions_forall₂ select).length_eq]
    exact (List.getElem?_eq_some_iff.mp hf).1
  have hc := List.getElem?_eq_getElem lt
  obtain ⟨st, selectF⟩ := selectFunction_of_getElem? select hf hc
  obtain ⟨pieces, selected, pieceSelect, sizes⟩ := selectFunction_sizes selectF
  have items := congrArg (·[b]?) selected.items
  have blocks := congrArg (·[b]?) selected.blocks
  simp only [functionItems, ControlFlow.expand, List.getElem?_map, List.getElem?_mapIdx, hb,
    Option.map_some] at items blocks
  obtain ⟨ps, hps, items⟩ := Option.map_eq_some_iff.mp items
  rw [hps, Option.map_some] at blocks
  obtain ⟨sb, hsb, code⟩ := Option.map_eq_some_iff.mp blocks
  have lengths : (ps.map fun p => p.code.length) = (itemSizes dl F).getD b [] := by
    rw [← sizes, List.getD_eq_getElem?_getD, List.getElem?_map, hps]
    rfl
  refine ⟨ps, items, pieceSelect ps (List.mem_of_getElem? hps), lengths, fun {k f e} => ?_⟩
  rw [← lengths, ← getElem?_pieces, ← code]
  constructor
  · rintro ⟨hf', code', sb', hc', hb', he⟩
    obtain rfl := Option.some.inj (hf.symm.trans hf')
    obtain rfl := Option.some.inj (hc.symm.trans hc')
    obtain rfl := Option.some.inj (hsb.symm.trans hb')
    exact ⟨rfl, he⟩
  · rintro ⟨rfl, he⟩
    exact ⟨hf, _, sb, hc, hsb, he⟩

/-- The word of a call leads to where its label does. -/
lemma EmittedAt.ssyTo_iff
    (select : selectFunctions dl (M.functions.map (runDivergencePass llvm)) = some codes)
    (h : compileModule llvm dl order M = some blocks) {i b J n id : Nat}
    {F : Llvm.Function} {text : Text}
    (emitted : EmittedAt llvm M codes i b (Offset.start ((itemSizes dl F).getD b []) n) F
      ⟨.instruction id, ssyInstruction text⟩) :
    SsyTo (emitWords blocks)
        (blockStart blocks (blockIndex codes i b) + Offset.start ((itemSizes dl F).getD b []) n)
        (blockStart blocks (blockIndex codes i J)) ↔
      LeadsTo (moduleOutline dl (definedFunctions llvm M))
        (itemPC dl (definedFunctions llvm M) i F b n)
        (asmLabel (lower text)) (blockPosition (definedFunctions llvm M) i J) := by
  have pc : blockStart blocks (blockIndex codes i b) + Offset.start ((itemSizes dl F).getD b []) n =
      itemPC dl (definedFunctions llvm M) i F b n := by
    rw [itemPC, ← compileModule_outline select h, blockStart_eq, blockIndex_eq select]
  rw [← compileModule_outline select h, ← pc, ← blockIndex_eq select]
  obtain ⟨φ, rfl⟩ := compileModule_eq_some select h
  have named : ∀ bc ∈ (allBlocks codes).map (BlockCode.mapRegs φ), bc.name ≠ [] := by
    simp only [allBlocks, List.map_map, List.forall_mem_map]
    exact fun sb mem => name_ne_nil select mem
  rw [FpgaGpu.ssyTo_iff named (emitted.layout φ) rfl]
  exact and_iff_right rfl

/-- A block announces `J` exactly if one of its calls does. -/
lemma reconverges_iff_call
    (select : selectFunctions dl (M.functions.map (runDivergencePass llvm)) = some codes)
    (h : compileModule llvm dl order M = some blocks) {i b J : Nat} {F : Llvm.Function}
    {bb : Llvm.BasicBlock} (hf : (definedFunctions llvm M)[i]? = some F)
    (hb : F.blocks[b]? = some bb) :
    Reconverges llvm M codes blocks i b J ↔ ∃ n call text,
      (itemsOf F b bb)[n]? = some (.inst call) ∧
      CallsSsy call text ∧ LeadsTo (moduleOutline dl (definedFunctions llvm M))
        (itemPC dl (definedFunctions llvm M) i F b n) (asmLabel (lower text))
        (blockPosition (definedFunctions llvm M) i J) := by
  obtain ⟨ps, items, pieceSelect, lengths, emittedAt⟩ := exists_block select hf hb
  have item : ∀ {n : Nat} {p : Piece}, ps[n]? = some p → (itemsOf F b bb)[n]? = some p.item := by
    intro n p hp
    rw [← items, List.getElem?_map, hp, Option.map_some]
  -- an SSY is lowered from a call, alone, and stands before what its terminator becomes
  constructor
  · rintro ⟨k, f, e, emitted, -, leads⟩
    obtain ⟨rfl, n, p, m, hp, he, rfl⟩ := emittedAt.mp emitted
    have ssy : e.mi.op = .ssy := by
      obtain ⟨φ, rfl⟩ := compileModule_eq_some select h
      exact ((ssyTo_iff_field (emitted.layout φ)).mp leads).1
    have lowered := pieceSelect p (List.mem_of_getElem? hp)
    obtain ⟨call, text, same, calls⟩ := selectItem_ssy lowered (List.mem_of_getElem? he) ssy
    have code := calls.code_eq (same ▸ lowered)
    rw [code] at he
    obtain rfl : m = 0 := by simpa using (List.getElem?_eq_some_iff.mp he).1
    obtain rfl := Option.some.inj he
    exact ⟨n, call, text, same ▸ item hp, calls, (emitted.ssyTo_iff select h).mp leads⟩
  · rintro ⟨n, call, text, hn, calls, leads⟩
    obtain ⟨p, hp, same⟩ : ∃ p, ps[n]? = some p ∧ p.item = .inst call := by
      rwa [← items, List.getElem?_map, Option.map_eq_some_iff] at hn
    have code := calls.code_eq (same ▸ pieceSelect p (List.mem_of_getElem? hp))
    have emitted : EmittedAt llvm M codes i b (Offset.start ((itemSizes dl F).getD b []) n) F
        ⟨.instruction call.id, ssyInstruction text⟩ :=
      emittedAt.mpr ⟨rfl, n, p, 0, hp, by rw [code]; rfl, rfl⟩
    refine ⟨_, F, _, emitted, ?_, (emitted.ssyTo_iff select h).mpr leads⟩
    -- what is emitted for the branch belongs to the terminator, which is a later item
    intro k' e' emitted' branch
    obtain ⟨-, n', p', m', hp', he', rfl⟩ := emittedAt.mp emitted'
    obtain ⟨t, term⟩ :=
      term_of_origin (pieceSelect p' (List.mem_of_getElem? hp')) (List.mem_of_getElem? he') branch
    have before := inst_before_term hn (term ▸ item hp')
    have size : ((itemSizes dl F).getD b [])[n]? = some 1 := by
      rw [← lengths, List.getElem?_map, hp, Option.map_some, code]
      rfl
    have behind := Offset.start_mono ((itemSizes dl F).getD b []) (Nat.succ_le_of_lt before)
    rw [Nat.succ_eq_add_one, Offset.start_succ size] at behind
    omega

/-! ## The inserted `SSY` -/

/-- Where the body of a block starts among its items. -/
def bodyStart (f : Llvm.Function) (b : Nat) : Nat := if b = 0 then f.args.length else 0

/-- An `SSY` with a label, as the instruction `n` of the body of the block `b`, leads to the block
`J`. -/
def BodyLeadsTo (dl : DataLayout) (fs : List Llvm.Function) (i : Nat)
    (f : Llvm.Function) (b n : Nat) (label : Text) (J : Nat) : Prop :=
  LeadsTo (moduleOutline dl fs) (itemPC dl fs i f b (bodyStart f b + n)) label
    (blockPosition fs i J)

lemma length_argumentItems (argIdx : Nat) (args : List Llvm.Argument) :
    (argumentItems argIdx args).length = args.length := by
  induction args generalizing argIdx with
  | nil => rfl
  | cons arg args ih => rw [argumentItems, List.length_cons, ih, List.length_cons]

/-- The instructions of the body stand behind the arguments. -/
lemma getElem?_itemsOf {f : Llvm.Function} {b n : Nat} {bb : Llvm.BasicBlock}
    {call : Llvm.Instruction} :
    (itemsOf f b bb)[n]? = some (.inst call) ↔
      ∃ m, bb.body[m]? = some call ∧ n = bodyStart f b + m := by
  have length : (if b = 0 then argumentItems 0 f.args else []).length = bodyStart f b := by
    unfold bodyStart
    split
    · exact length_argumentItems 0 f.args
    · rfl
  have behind : ∀ m, (itemsOf f b bb)[bodyStart f b + m]? = some (.inst call) ↔
      bb.body[m]? = some call := by
    intro m
    rw [itemsOf, List.getElem?_append_right (length ▸ Nat.le_add_right _ _), length,
      Nat.add_sub_cancel_left]
    obtain lt | ge := Nat.lt_or_ge m bb.body.length
    · rw [List.getElem?_append_left (by simpa using lt), List.getElem?_map]
      simp
    · rw [List.getElem?_append_right (by simpa using ge), List.getElem?_eq_none ge]
      cases m - (bb.body.map Item.inst).length <;> simp
  constructor
  · intro h
    obtain lt | ge := Nat.lt_or_ge n (bodyStart f b)
    · rw [itemsOf, List.getElem?_append_left (length ▸ lt)] at h
      have mem := List.mem_of_getElem? h
      split at mem
      · obtain ⟨k, arg, e⟩ := not_term_of_mem_argumentItems mem
        cases e
      · cases mem
    · obtain ⟨m, rfl⟩ := Nat.exists_eq_add_of_le ge
      exact ⟨m, (behind m).mp h, rfl⟩
  · rintro ⟨m, h, rfl⟩
    exact (behind m).mpr h

/-- A conditional branch that has a reconvergence block has an `SSY` with its address exactly if the
name of the block, in lower case, contains neither of the mnemonics that are looked for before
`SSY`, and leads to the block; or if an `SSY` of the block's own does. -/
theorem compileModule_reconverges_iff
    (select : selectFunctions dl (M.functions.map (runDivergencePass llvm)) = some codes)
    (h : compileModule llvm dl order M = some blocks) {i b J : Nat} {f : Llvm.Function}
    {bb : Llvm.BasicBlock} (closed : f.Closed) (faithful : llvm.Faithful (nameBlocks llvm f))
    (hf : (definedFunctions llvm M)[i]? = some (runDivergencePass llvm f))
    (hb : f.blocks[b]? = some bb) (branch : bb.terminator.isCondBr = true)
    (join : llvm.ipdom (nameBlocks llvm f) b = some J) :
    Reconverges llvm M codes blocks i b J ↔
      (contains (lower ((nameBlocks llvm f).blockName J)) "s2r".toList = false ∧
        contains (lower ((nameBlocks llvm f).blockName J)) "sync".toList = false ∧
        BodyLeadsTo dl (definedFunctions llvm M) i (runDivergencePass llvm f) b bb.body.length
          (lower ((nameBlocks llvm f).blockName J)) J) ∨
      ∃ n call text, bb.body[n]? = some call ∧ CallsSsy call text ∧
        BodyLeadsTo dl (definedFunctions llvm M) i (runDivergencePass llvm f) b n
          (asmLabel (lower text)) J := by
  obtain ⟨bb', calls, hb', body, operations⟩ :=
    (runDivergencePass_contracts closed faithful).body b bb hb
  rw [if_pos branch, join, List.map_eq_singleton_iff] at operations
  obtain ⟨ssy, rfl, operation⟩ := operations
  -- the last call is the inserted one
  have inserted : ∀ {text}, CallsSsy ssy text ↔
      (contains (lower ((nameBlocks llvm f).blockName J)) "s2r".toList = false ∧
        contains (lower ((nameBlocks llvm f).blockName J)) "sync".toList = false) ∧
      text = ssyAsm (nameBlocks llvm f) J := by
    intro text
    rw [← asmForm_ssyAsm]
    constructor
    · rintro ⟨⟨args, e⟩, form⟩
      rw [operation] at e
      cases e
      exact ⟨form, rfl⟩
    · rintro ⟨form, rfl⟩
      exact ⟨⟨[], operation⟩, form⟩
  rw [reconverges_iff_call select h hf hb']
  simp only [getElem?_itemsOf, body]
  constructor
  · rintro ⟨_, call, text, ⟨m, hm, rfl⟩, callsSsy, leads⟩
    obtain lt | ge := Nat.lt_or_ge m bb.body.length
    · rw [List.getElem?_append_left lt] at hm
      exact .inr ⟨m, call, text, hm, callsSsy, leads⟩
    · rw [List.getElem?_append_right ge, List.getElem?_singleton] at hm
      split at hm
      · obtain rfl := Option.some.inj hm
        obtain rfl : m = bb.body.length := by omega
        obtain ⟨⟨s2r, sync⟩, rfl⟩ := inserted.mp callsSsy
        rw [ssyAsm, asmLabel_ssyAsm] at leads
        exact .inl ⟨s2r, sync, leads⟩
      · cases hm
  · rintro (⟨s2r, sync, leads⟩ | ⟨n, call, text, hn, callsSsy, leads⟩)
    · refine ⟨_, ssy, _, ⟨bb.body.length, by simp, rfl⟩, inserted.mpr ⟨⟨s2r, sync⟩, rfl⟩, ?_⟩
      rw [ssyAsm, asmLabel_ssyAsm]
      exact leads
    · have lt := (List.getElem?_eq_some_iff.mp hn).1
      exact ⟨_, call, text, ⟨n, by rw [List.getElem?_append_left lt, hn], rfl⟩, callsSsy, leads⟩

end Modules

/-! ## An `if` that is reconverged -/

/-- An `if` without `else`, on an argument. -/
def ifThenTo (join : Text) : Llvm.Function where
  args := [{ name := "cond".toList, ty := .int 1 }]
  blocks :=
    [{ name := "entry".toList, body := [], terminator := .condBr (.argument 0) 1 2 },
     { name := "then".toList, body := [], terminator := .br 2 },
     { name := join, body := [], terminator := .ret none }]

/-- A module with an `if`. -/
def ifThenModule (join : Text) : Llvm.Module where
  functions := [ifThenTo join]

/-- The selected code of a module with an `if`. -/
def ifThenCodes (join : Text) : List (List SelectedBlock) :=
  (selectFunctions words
    ((ifThenModule join).functions.map (runDivergencePass ifThenAnalyses))).getD []

/-- The blocks of a module with an `if`. -/
def ifThenBlocks (join : Text) : List BasicBlockCode :=
  (compileModule ifThenAnalyses words .stable (ifThenModule join)).getD []

lemma ifThen_select {join : Text}
    (selected : (selectFunctions words ((ifThenModule join).functions.map
    (runDivergencePass ifThenAnalyses))).isSome) :
    selectFunctions words ((ifThenModule join).functions.map (runDivergencePass ifThenAnalyses)) =
      some (ifThenCodes join) := by
  obtain ⟨codes, e⟩ := Option.isSome_iff_exists.mp selected
  rw [ifThenCodes, e]
  rfl

lemma ifThen_compile {join : Text}
    (compiled : (compileModule ifThenAnalyses words .stable (ifThenModule join)).isSome) :
    compileModule ifThenAnalyses words .stable (ifThenModule join) = some (ifThenBlocks join) := by
  obtain ⟨blocks, e⟩ := Option.isSome_iff_exists.mp compiled
  rw [ifThenBlocks, e]
  rfl

/-- A name in lower case is found. -/
theorem compileModule_reconverges_lower : Reconverges ifThenAnalyses (ifThenModule "join".toList)
    (ifThenCodes "join".toList) (ifThenBlocks "join".toList) 0 0 2 := by
  have outline : moduleOutline words
    (definedFunctions ifThenAnalyses (ifThenModule "join".toList)) =
      [("entry".toList, 5), ("then".toList, 1), ("join".toList, 1), ("entry.sync".toList, 2),
        ("then.sync".toList, 2)] := by decide
  have faithful : ifThenAnalyses.Faithful (nameBlocks ifThenAnalyses (ifThenTo "join".toList)) := by
    have one : OneExit (ifThenTo "join".toList) 2 := ⟨by decide, by decide, by decide⟩
    exact one.faithful (fun _ => rfl) fun _ _ => .refl _
  refine (compileModule_reconverges_iff (f := ifThenTo "join".toList) (ifThen_select (by decide))
    (ifThen_compile (by decide))
    (by decide) faithful rfl rfl rfl rfl).mpr (.inl ⟨by decide, by decide, ?_⟩)
  unfold BodyLeadsTo
  rw [outline]
  refine .inl ⟨⟨2, ⟨⟨1, rfl⟩, ?_⟩, rfl⟩, by decide, by decide⟩
  rintro (_ | _ | _ | _ | _ | k) entry lt e <;> simp at lt e <;> subst e <;> decide

/-! ## An `if` that is not -/

/-- The characters of identifiers. -/
def isIdentifier (name : Text) : Bool := name.all fun c => c.isAlphanum || c = '_' || c = '.'

/-- The `SSY` for a block with a capital letter in its name leads nowhere. -/
theorem compileModule_astray :
    ¬ ∀ (llvm : Analyses) (dl : DataLayout) (order : SortOrder) (M : Llvm.Module)
      (codes : List (List SelectedBlock)) (blocks : List BasicBlockCode) (exit : Nat → Prop),
      (∀ f ∈ M.functions, f.Verified ∧ NamesDistinct f ∧
        (∀ bb ∈ f.blocks, isIdentifier bb.name = true) ∧
        llvm.Faithful (nameBlocks llvm f) ∧ DominatorsCorrect llvm (nameBlocks llvm f) ∧
        PostDominatorsCorrect llvm (nameBlocks llvm f) exit) →
      selectFunctions dl (M.functions.map (runDivergencePass llvm)) = some codes →
      compileModule llvm dl order M = some blocks →
      ∀ (i b J : Nat) (f : Llvm.Function) (bb : Llvm.BasicBlock), f ∈ M.functions →
        (definedFunctions llvm M)[i]? = some (runDivergencePass llvm f) → f.blocks[b]? = some bb →
        bb.terminator.isCondBr = true → llvm.ipdom (nameBlocks llvm f) b = some J →
        Reconverges llvm M codes blocks i b J := by
  intro h
  have one : OneExit (ifThenTo "Join".toList) 2 := ⟨by decide, by decide, by decide⟩
  have reconverges := h ifThenAnalyses words .stable (ifThenModule "Join".toList)
    (ifThenCodes "Join".toList) (ifThenBlocks "Join".toList) (· = 2)
    (by
      simp only [ifThenModule, List.mem_singleton, forall_eq]
      exact ⟨⟨by decide, by decide⟩, by decide, by decide,
        one.faithful (fun _ => rfl) fun _ _ => .refl _,
        ifThen_dominators rfl (by decide) (by decide) (by decide), one.correct fun _ => rfl⟩)
    (ifThen_select (by decide)) (ifThen_compile (by decide)) 0 0 2 (ifThenTo "Join".toList) _
    (List.mem_singleton.mpr rfl) rfl rfl rfl rfl
  obtain ⟨n, call, text, hn, ⟨⟨args, operation⟩, -⟩, leads⟩ := (reconverges_iff_call
    (ifThen_select (by decide)) (ifThen_compile (by decide)) rfl rfl).mp reconverges
  obtain ⟨m, hm, rfl⟩ := getElem?_itemsOf.mp hn
  obtain rfl : m = 0 := by
    have := (List.getElem?_eq_some_iff.mp hm).1
    exact Nat.lt_one_iff.mp this
  obtain rfl := Option.some.inj hm
  cases operation
  have outline : moduleOutline words
    (definedFunctions ifThenAnalyses (ifThenModule "Join".toList)) =
      [("entry".toList, 5), ("then".toList, 1), ("Join".toList, 1), ("entry.sync".toList, 2),
        ("then.sync".toList, 2)] := by decide
  have absent : ∀ entry ∈ moduleOutline words (definedFunctions ifThenAnalyses
      (ifThenModule "Join".toList)), entry.1 ≠ "join".toList := by
    rw [outline]
    decide
  obtain ⟨⟨k, ⟨⟨size, e⟩, -⟩, -⟩, -⟩ | ⟨-, here⟩ := leads
  · exact absent _ (List.mem_of_getElem? e) rfl
  · exact absurd here (by decide)

end FpgaGpu

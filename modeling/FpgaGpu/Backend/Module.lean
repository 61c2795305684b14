import FpgaGpu.Alloc.Simulation
import FpgaGpu.Divergence.Shape
import FpgaGpu.Emit.Labels
import FpgaGpu.Isel.Paths

/-!
# Modules

Model of `CompilerBackend::compileModule` in `src/FpgaGpuBackend.cpp` behind LLVM's own passes: the
divergence pass, the selection of every function that has a body, and one register allocation for
the blocks of all of them. A branch names its target by a text that is resolved over the whole
module.
-/

namespace FpgaGpu

open Llvm (Terminator)

/-- Selects the functions that have a body, in order. -/
def selectFunctions (dl : DataLayout) : List Llvm.Function → Option (List (List SelectedBlock))
  | [] => some []
  | f :: fs =>
    if f.isDeclaration then selectFunctions dl fs
    else do
      let (code, _) ← selectFunction dl f
      let codes ← selectFunctions dl fs
      return code :: codes

/-- The blocks of all functions. -/
def allBlocks (codes : List (List SelectedBlock)) : List BasicBlockCode :=
  codes.flatten.map SelectedBlock.code

/-- `compileModule`, up to the file that is written: the blocks for the emitter, if there is any
code and its registers can be allocated. -/
def compileModule (llvm : Analyses) (dl : DataLayout) (order : SortOrder) (M : Llvm.Module) :
    Option (List BasicBlockCode) := do
  let codes ← selectFunctions dl (M.functions.map (runDivergencePass llvm))
  if allBlocks codes = [] then none else allocate order (allBlocks codes)

/-- The functions that are selected. -/
def definedFunctions (llvm : Analyses) (M : Llvm.Module) : List Llvm.Function :=
  (M.functions.map (runDivergencePass llvm)).filter (!·.isDeclaration)

/-- The position of the block `b` of the function `i` in the blocks of all functions. -/
def blockIndex (codes : List (List SelectedBlock)) (i b : Nat) : Nat :=
  (codes.take i).flatten.length + b

/-- The instruction `e` is the one at `k` in the block `b` of the function `f`, which is the one at
`i`. -/
def EmittedAt (llvm : Analyses) (M : Llvm.Module) (codes : List (List SelectedBlock)) (i b k : Nat)
    (f : Llvm.Function) (e : Emitted) : Prop :=
  (definedFunctions llvm M)[i]? = some f ∧
    ∃ code sb, codes[i]? = some code ∧ code[b]? = some sb ∧ sb.items[k]? = some e

/-! ## Positions -/

/-- Each function that is selected has its code. -/
lemma selectFunctions_forall₂ {dl : DataLayout} {fs : List Llvm.Function}
    {codes : List (List SelectedBlock)} (h : selectFunctions dl fs = some codes) :
    List.Forall₂ (fun f code => ∃ st, selectFunction dl f = some (code, st))
      (fs.filter (!·.isDeclaration)) codes := by
  induction fs generalizing codes with
  | nil =>
    obtain rfl := Option.some.inj h
    exact .nil
  | cons f fs ih =>
    rw [selectFunctions] at h
    split at h
    · next declaration =>
      rw [List.filter_cons_of_neg (by simp [declaration])]
      exact ih h
    · next body =>
      simp only [Option.bind_eq_bind, Option.bind_eq_some_iff, Prod.exists, Option.pure_def,
        Option.some.injEq] at h
      obtain ⟨code, st, select, codes', rest, rfl⟩ := h
      rw [List.filter_cons_of_pos (by simpa using body)]
      exact .cons ⟨st, select⟩ (ih rest)

/-- The blocks of a function stand behind those of the functions before it. -/
lemma getElem?_blockIndex {codes : List (List SelectedBlock)} {i b : Nat}
    {code : List SelectedBlock} {sb : SelectedBlock} (hc : codes[i]? = some code)
    (hb : code[b]? = some sb) :
    codes.flatten[blockIndex codes i b]? = some sb := by
  obtain ⟨lt, rfl⟩ := List.getElem?_eq_some_iff.mp hc
  have split : codes.flatten =
      (codes.take i).flatten ++ (codes[i] ++ (codes.drop (i + 1)).flatten) := by
    conv_lhs => rw [← List.take_append_drop i codes, List.drop_eq_getElem_cons lt]
    rw [List.flatten_append, List.flatten_cons]
  rw [split, blockIndex, List.getElem?_append_right (Nat.le_add_right _ _), Nat.add_sub_cancel_left,
    List.getElem?_append_left (List.getElem?_eq_some_iff.mp hb).1, hb]

/-- A label is never empty. -/
lemma blockNames_ne_nil (f : Llvm.Function) (b : Nat) : blockNames f b ≠ [] := by
  unfold blockNames
  split
  · simp
  · assumption

section Modules

variable {llvm : Analyses} {dl : DataLayout} {order : SortOrder} {M : Llvm.Module}
variable {codes : List (List SelectedBlock)} {blocks : List BasicBlockCode}

/-- The registers are all that the allocation changes. -/
lemma compileModule_eq_some
    (select : selectFunctions dl (M.functions.map (runDivergencePass llvm)) = some codes)
    (h : compileModule llvm dl order M = some blocks) :
    ∃ φ, blocks = (allBlocks codes).map (BlockCode.mapRegs φ) := by
  rw [compileModule, select, Option.bind_eq_bind, Option.bind_some] at h
  split at h
  · cases h
  · obtain ⟨φ, e, -⟩ := allocate_spec h
    exact ⟨φ, e⟩

/-- An instruction that is emitted stands in the layout, up to its registers. -/
lemma EmittedAt.layout {i b k : Nat} {f : Llvm.Function} {e : Emitted}
    (emitted : EmittedAt llvm M codes i b k f e) (φ : RegField → RegField) :
    (layout ((allBlocks codes).map (BlockCode.mapRegs φ)))[blockStart
        ((allBlocks codes).map (BlockCode.mapRegs φ)) (blockIndex codes i b) + k]? =
      some ((e.mi.mapRegs narrow).mapRegs φ) := by
  obtain ⟨-, code, sb, hc, hb, he⟩ := emitted
  have block : ((allBlocks codes).map (BlockCode.mapRegs φ))[blockIndex codes i b]? =
      some (sb.code.mapRegs φ) := by
    rw [allBlocks, List.map_map, List.getElem?_map, getElem?_blockIndex hc hb]
    rfl
  exact getElem?_layout block (by simp [BlockCode.mapRegs, SelectedBlock.code, he])

/-- The code of a function that is selected. -/
lemma selectFunction_of_getElem?
    (select : selectFunctions dl (M.functions.map (runDivergencePass llvm)) = some codes) {i : Nat}
    {f : Llvm.Function} {code : List SelectedBlock} (hf : (definedFunctions llvm M)[i]? = some f)
    (hc : codes[i]? = some code) : ∃ st, selectFunction dl f = some (code, st) := by
  obtain ⟨lt, rfl⟩ := List.getElem?_eq_some_iff.mp hf
  obtain ⟨lt', rfl⟩ := List.getElem?_eq_some_iff.mp hc
  exact (List.forall₂_iff_get.mp (selectFunctions_forall₂ select)).2 i lt lt'

/-- What is emitted for a branch names the successor it is for. -/
lemma EmittedAt.branch
    (select : selectFunctions dl (M.functions.map (runDivergencePass llvm)) = some codes)
    {i b k : Nat} {f : Llvm.Function} {e : Emitted} (emitted : EmittedAt llvm M codes i b k f e)
    (branch : e.mi.op = .br) : ∃ s ∈ f.successors b, e.origin = .edge s ∧
      e.mi.labelTarget = blockNames f s := by
  obtain ⟨hf, code, sb, hc, hb, he⟩ := emitted
  obtain ⟨st, selectF⟩ := selectFunction_of_getElem? select hf hc
  obtain ⟨pieces, selected⟩ := selectFunction_selected selectF
  have items : (code.map SelectedBlock.items)[b]? = some sb.items := by simp [hb]
  rw [selected.blocks] at items
  obtain ⟨ps, hps, split⟩ := ControlFlow.getElem?_expand items
  have mem : e ∈ ps.flatMap Piece.code := split ▸ List.mem_of_getElem? he
  obtain ⟨p, hp, he'⟩ := List.mem_flatMap.mp mem
  obtain ⟨spec, -⟩ := selected.spec ps (List.mem_of_getElem? hps) p hp
  obtain ⟨t, cond, s, comment, item, succ, rfl⟩ := spec.shape.branch he' branch
  obtain ⟨bb, e', rfl⟩ := selected.terminator hps hp item
  exact ⟨s, Llvm.Function.successors_of_getElem? e' ▸ succ, rfl, rfl⟩

/-- All names of blocks are labels. -/
lemma name_ne_nil
    (select : selectFunctions dl (M.functions.map (runDivergencePass llvm)) = some codes)
    {sb : SelectedBlock} (h : sb ∈ codes.flatten) : sb.name ≠ [] := by
  obtain ⟨code, hc, mem⟩ := List.mem_flatten.mp h
  obtain ⟨i, lt, rfl⟩ := List.mem_iff_getElem.mp hc
  have lt' : i < (definedFunctions llvm M).length :=
    (selectFunctions_forall₂ select).length_eq ▸ lt
  obtain ⟨st, selectF⟩ := selectFunction_of_getElem? select (List.getElem?_eq_getElem lt')
    (List.getElem?_eq_getElem lt)
  obtain ⟨pieces, selected⟩ := selectFunction_selected selectF
  have name : sb.name ∈ (codes[i]).map SelectedBlock.name := List.mem_map_of_mem mem
  rw [selected.names] at name
  obtain ⟨b, lt, e⟩ := List.mem_mapIdx.mp name
  exact e ▸ blockNames_ne_nil _ b

/-- A branch of a function is resolved to its successor, and `SSY` to a block of its function,
exactly if the last block of the module with the name that it gives is that block, or no instruction
lies between the two. -/
theorem compileModule_resolvedTo_iff
    (select : selectFunctions dl (M.functions.map (runDivergencePass llvm)) = some codes)
    (h : compileModule llvm dl order M = some blocks) {i b k : Nat}
    {f : Llvm.Function} {e : Emitted} (emitted : EmittedAt llvm M codes i b k f e) :
    (e.mi.op = .br → ∃ s ∈ f.successors b, e.origin = .edge s ∧
      (ResolvedTo blocks (blockStart blocks (blockIndex codes i b) + k) (blockIndex codes i s) ↔
        ∃ j, LastNamed blocks (blockNames f s) j ∧ Coincide blocks (blockIndex codes i s) j)) ∧
    (e.mi.op = .ssy →
      ((∃ d < f.blocks.length,
        ResolvedTo blocks (blockStart blocks (blockIndex codes i b) + k) (blockIndex codes i d)) ↔
        ∃ d < f.blocks.length, ∃ j, LastNamed blocks e.mi.labelTarget j ∧
          Coincide blocks (blockIndex codes i d) j)) := by
  obtain ⟨φ, rfl⟩ := compileModule_eq_some select h
  have here := emitted.layout φ
  have target : ∀ {op}, e.mi.op = op → (op = .br ∨ op = .ssy) → e.mi.labelTarget ≠ [] →
      ((e.mi.mapRegs narrow).mapRegs φ).hasTarget = true := by
    rintro op eq is ne
    simpa [Instruction.hasTarget, Instruction.mapRegs, eq, ne] using is
  constructor
  · intro branch
    obtain ⟨s, succ, origin, label⟩ := emitted.branch select branch
    refine ⟨s, succ, origin, ?_⟩
    rw [resolvedTo_iff here (target branch (.inl rfl) (label ▸ blockNames_ne_nil f s)), ← label]
    rfl
  · intro ssy
    by_cases ne : e.mi.labelTarget = []
    · -- an empty label is not looked up, and no block has it
      constructor
      · rintro ⟨d, -, mi, e', target, -⟩
        obtain rfl := Option.some.inj (here.symm.trans e')
        simp [Instruction.hasTarget, Instruction.mapRegs, ne] at target
      · rintro ⟨d, -, j, ⟨⟨bb, e', name⟩, -⟩, -⟩
        rw [allBlocks, List.map_map, List.getElem?_map, Option.map_eq_some_iff] at e'
        obtain ⟨sb, e', rfl⟩ := e'
        exact absurd (name.trans ne) (name_ne_nil select (List.mem_of_getElem? e'))
    · have iff := fun d => resolvedTo_iff (j := blockIndex codes i d) here
        (target ssy (.inr rfl) ne)
      simp only [iff]
      rfl

end Modules

/-! ## Two kernels -/

/-- A kernel that goes to its exit. -/
def leaves : Llvm.Function where
  args := []
  blocks := [{ name := "entry".toList, body := [], terminator := .br 1 },
    { name := "exit".toList, body := [], terminator := .ret none }]

/-- A module of two kernels with the same block names. -/
def twoKernels : Llvm.Module where
  functions := [leaves, leaves]

/-- The trees of `leaves`; names are made unique by stars. -/
def leavesAnalyses : Analyses where
  ipdom := fun _ b => if b = 0 then some 1 else none
  dominates := fun _ a b => decide (a = 0 ∨ a = b)
  predecessors := Llvm.Function.predecessors
  uniqueName := fun f name => name ++ List.replicate (f.blocks.map (·.name.length)).sum '*'

/-- The selected code of the two kernels. -/
def twoKernelsCodes : List (List SelectedBlock) :=
  (selectFunctions words (twoKernels.functions.map (runDivergencePass leavesAnalyses))).getD []

/-- The blocks of the two kernels. -/
def twoKernelsBlocks : List BasicBlockCode :=
  (compileModule leavesAnalyses words .stable twoKernels).getD []

lemma twoKernels_select : selectFunctions words
    (twoKernels.functions.map (runDivergencePass leavesAnalyses)) = some twoKernelsCodes := rfl

lemma twoKernels_compile :
    compileModule leavesAnalyses words .stable twoKernels = some twoKernelsBlocks := by decide

/-- The branch of a kernel. -/
def leavesBranch : Emitted := branchTo leaves BranchCond.ALWAYS 1 "unconditional branch"

lemma leavesBranch_emitted (i : Nat) (lt : i < 2) :
    EmittedAt leavesAnalyses twoKernels twoKernelsCodes i 0 0 leaves leavesBranch := by
  interval_cases i <;> exact ⟨rfl, _, _, rfl, rfl, rfl⟩

/-- The branch of the last kernel stays in it. -/
theorem compileModule_resolvedTo_last : ResolvedTo twoKernelsBlocks 2 3 := by
  obtain ⟨s, succ, -, iff⟩ := (compileModule_resolvedTo_iff twoKernels_select twoKernels_compile
    (leavesBranch_emitted 1 (by decide))).1 rfl
  obtain rfl : s = 1 := by
    simpa [leaves, Llvm.Function.successors, Terminator.successors] using succ
  refine iff.mpr ⟨3, ⟨⟨_, rfl, rfl⟩, fun k bb lt e => ?_⟩, rfl⟩
  have := (List.getElem?_eq_some_iff.mp e).1
  have len : twoKernelsBlocks.length = 4 := by decide
  omega

/-- The branch of the first kernel goes to the exit of the second. -/
theorem compileModule_crossed :
    ¬ ∀ (llvm : Analyses) (dl : DataLayout) (order : SortOrder) (M : Llvm.Module)
      (codes : List (List SelectedBlock)) (blocks : List BasicBlockCode),
      (∀ f ∈ M.functions, f.Closed ∧ NamesDistinct f ∧ llvm.Faithful (nameBlocks llvm f)) →
      selectFunctions dl (M.functions.map (runDivergencePass llvm)) = some codes →
      compileModule llvm dl order M = some blocks →
      ∀ (i b k : Nat) (f : Llvm.Function) (e : Emitted), EmittedAt llvm M codes i b k f e →
        (e.mi.op = .br → ∃ s ∈ f.successors b, e.origin = .edge s ∧
          ResolvedTo blocks (blockStart blocks (blockIndex codes i b) + k) (blockIndex codes i s)) ∧
        (e.mi.op = .ssy → ∃ d < f.blocks.length,
          ResolvedTo blocks (blockStart blocks (blockIndex codes i b) + k)
            (blockIndex codes i d)) := by
  intro h
  have faithful : leavesAnalyses.Faithful (nameBlocks leavesAnalyses leaves) := by
    refine ⟨fun {b ipd} join => ?_, fun _ _ => .refl _⟩
    simp only [leavesAnalyses] at join
    split at join
    · obtain rfl := Option.some.inj join
      decide
    · cases join
  have same : ∀ f ∈ twoKernels.functions, f = leaves := by simp [twoKernels]
  obtain ⟨s, succ, -, mi, -, -, -, offset⟩ :=
    (h leavesAnalyses words .stable twoKernels twoKernelsCodes
    twoKernelsBlocks (fun f hf => same f hf ▸ ⟨by decide, by decide, faithful⟩) twoKernels_select
    twoKernels_compile 0 0 0 leaves leavesBranch (leavesBranch_emitted 0 (by decide))).1 rfl
  obtain rfl : s = 1 := by
    simpa [leaves, Llvm.Function.successors, Terminator.successors] using succ
  revert offset
  decide

end FpgaGpu

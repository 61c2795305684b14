import FpgaGpu.Backend.Loops
import FpgaGpu.Backend.Passed

/-!
# The kernels of a compiled module

`compileModule` sends every function through the divergence pass, selects its code, allocates the
registers of all functions at once and resolves the labels over the whole module. The words from the
start of a kernel do what the kernel does.
-/

namespace FpgaGpu

open Llvm (Terminator Value Control)

/-! ## Branches behind the pass -/

section Fits

variable {inserted : Text → Prop} {f g : Llvm.Function} {place : Nat → Nat}
  {dl : DataLayout} {hw : Hardware}

/-- A state on the detours, at a state of the function whose runs test no difference that is too
large. -/
def FitsAt (dl : DataLayout) (f g : Llvm.Function) (place : Nat → Nat) (c' : Control hw) : Prop :=
  (∀ b, c'.block = some b → b < g.blocks.length) ∧
    ∃ c : Control hw, (∀ n, Machine.Along (Fitting dl f) (f.step dl.typeAllocSize) n c) ∧
      c.state = c'.state ∧ c.block = c'.block.map place

lemma FitsAt.step (h : Detours inserted f g place)
    (marks : ∀ text, inserted text → Llvm.deviceAsm? text = some .marker)
    {c' c'' : Control hw} {b : Nat} (fits : FitsAt dl f g place c')
    (step : g.step dl.typeAllocSize c' = some (b, c'')) :
    FitsAt dl f g place c'' := by
  obtain ⟨inside, ⟨block, s⟩, along, same, at_place⟩ := fits
  obtain ⟨at_b, -⟩ := Llvm.Function.step_eq_some step
  obtain ⟨_, s'⟩ := c'
  obtain rfl : s = s' := same
  obtain rfl : _ = some b := at_b
  obtain rfl : block = some (place b) := at_place
  obtain old | created := Nat.lt_or_ge b f.blocks.length
  · obtain ⟨r, sent, passed⟩ := h.step_original dl.typeAllocSize marks old
    rw [passed s, Option.map_eq_some_iff] at step
    obtain ⟨⟨b', c₁⟩, step, e⟩ := step
    obtain ⟨rfl, rfl⟩ := Prod.mk.inj e
    rw [h.place_eq old] at along
    have known : ∀ d, c₁.block = some d → place (r d) = d ∧ r d < g.blocks.length := by
      intro d at_d
      obtain ⟨-, bb, next, block, -, goes, rfl⟩ := Llvm.Function.step_eq_some step
      rw [at_d] at goes
      exact sent d (Llvm.Function.successors_of_getElem? block ▸
        Terminator.mem_successors_of_next goes)
    refine ⟨fun d e => ?_, c₁, fun n => (along (n + 1)).2 _ _ step, rfl, ?_⟩
    · obtain ⟨d', at_d, rfl⟩ := Option.map_eq_some_iff.mp e
      exact (known d' at_d).2
    · cases at_d : c₁.block with
      | none => rfl
      | some d => exact congrArg some (known d at_d).1.symm
  · obtain ⟨k, leads, lt, -, passed⟩ := h.step_created dl.typeAllocSize created (inside b rfl)
    obtain ⟨-, rfl⟩ := Prod.mk.inj (Option.some.inj ((passed s).symm.trans step))
    refine ⟨fun d e => Option.some.inj e ▸ lt, _, along, rfl, ?_⟩
    exact congrArg some leads.symm

lemma FitsAt.fitting (h : Detours inserted f g place)
    (ids : ((bodyOf f).map Llvm.Instruction.id).Nodup)
    (marks : ∀ text, inserted text → Llvm.deviceAsm? text = some .marker) {c' : Control hw}
    (fits : FitsAt dl f g place c') : Fitting dl g c' := by
  intro b c'' bb cond ifTrue ifFalse predicate op0 op1 step block term compares
  obtain ⟨inside, ⟨at_place, s⟩, along, same, place_eq⟩ := fits
  obtain ⟨at_b, -⟩ := Llvm.Function.step_eq_some step
  obtain ⟨_, s'⟩ := c'
  obtain rfl : s = s' := same
  obtain rfl : _ = some b := at_b
  obtain rfl : at_place = some (place b) := place_eq
  obtain old | created := Nat.lt_or_ge b f.blocks.length
  · rw [h.place_eq old] at along
    have here := List.getElem?_eq_getElem old
    obtain ⟨r, -, passed⟩ := h.step_original dl.typeAllocSize marks old
    rw [passed s, Option.map_eq_some_iff] at step
    obtain ⟨⟨b', c₁⟩, step, e⟩ := step
    obtain ⟨same, rfl⟩ := Prod.mk.inj e
    obtain rfl : b' = b := same
    obtain ⟨name, calls, r', here', -⟩ := h.original here
    obtain rfl := Option.some.inj (block.symm.trans here')
    obtain ⟨ifTrue', ifFalse', term'⟩ : ∃ ifTrue' ifFalse',
        f.blocks[b'].terminator = .condBr cond ifTrue' ifFalse' := by
      cases term' : f.blocks[b'].terminator with
      | condBr cond' ifTrue' ifFalse' =>
        rw [term'] at term
        obtain ⟨rfl, -, -⟩ := Terminator.condBr.inj term
        exact ⟨_, _, rfl⟩
      | br | switch | ret | unreachable | other =>
        rw [term'] at term
        cases term
    exact (along 1).1 _ c₁ _ _ _ _ _ _ _ step here term' (h.icmp?_eq ids cond ▸ compares)
  · obtain ⟨name, id, k, rfl, -⟩ := h.created created block
    cases term

/-- No branch of a run on the detours tests a difference that is too large. -/
lemma Detours.along_fitting (h : Detours inserted f g place)
    (ids : ((bodyOf f).map Llvm.Instruction.id).Nodup)
    (marks : ∀ text, inserted text → Llvm.deviceAsm? text = some .marker) (nonempty : f.blocks ≠ [])
    {args : Nat → Word} {mem : hw.Mem}
    (fits : ∀ n, Machine.Along (Fitting dl f) (f.step dl.typeAllocSize) n (Control.enter args mem))
    (n : Nat) :
    Machine.Along (Fitting dl g) (g.step dl.typeAllocSize) n (Control.enter args mem) := by
  have start : FitsAt dl f g place (Control.enter args mem) := by
    have entry := List.length_pos_of_ne_nil nonempty
    refine ⟨fun b e => ?_, _, fits, rfl, ?_⟩
    · obtain rfl := Option.some.inj e
      exact Nat.lt_of_lt_of_le entry h.le
    · exact congrArg some (h.place_eq entry).symm
  exact (Machine.Along.of_invariant (fun fits step => fits.step h marks step) start).mono
    fun _ fits => fits.fitting h ids marks

end Fits

/-! ## Created blocks -/

section Created

variable {inserted : Text → Prop} {f g : Llvm.Function} {place : Nat → Nat} {dl : DataLayout}
variable {code : List SelectedBlock} {st : Selector} {pieces : List (List Piece)}
  {seen : List (Value × Bool)}

/-- The code of a created block has no registers. -/
lemma bare_of_syncBlock {p : Piece} {id k : Nat}
    (item : p.item = .inst ⟨id, asmOperation "sync".toList⟩ ∨ p.item = .term (.br k))
    (select : selectItem dl g p.item p.before = some ((), p.code, p.after)) :
    ∀ e ∈ p.code, ∀ r ∈ e.mi.fields, r = 0 := by
  obtain item | item := item
  · rw [item] at select
    obtain ⟨out, pushed, code⟩ := Emission.mapItems_eq_some.mp select
    have form : asmForm (lower "sync".toList) = .sync := by decide
    simp only [selectInstruction, asmOperation, selectCall, selectAsm, form] at pushed
    obtain ⟨rfl, -⟩ := Emission.push_eq_some.mp pushed
    rw [code]
    simp [Instruction.fields, newInstruction, Instruction.ofOp]
  · obtain ⟨out, stepped⟩ := selectItem_stepped select
    have run := stepped.run
    have code := stepped.code
    rw [item] at run code
    obtain ⟨-, rfl, -⟩ := Emission.pure_eq_some.mp run
    rw [code]
    simp [Item.tail, terminatorTail, branchTo, Instruction.fields, newInstruction, Instruction.ofOp]

/-- A created block counts as the block that it leads to. -/
lemma Detours.places (h : Detours inserted f g place)
    (sk : SelectedKernel dl g code st pieces seen) :
    Places g code place where
  bare c sb hc moved e he := by
    obtain ⟨ps, hps, items⟩ := sk.selected.code_block hc
    have block : (functionItems g)[c]? = some (ps.map Piece.item) := by
      rw [← sk.selected.items, List.getElem?_map, hps]
      rfl
    obtain ⟨bb, here, same⟩ := getElem?_functionItems block
    obtain ⟨name, id, k, rfl, ne, -⟩ := h.exists_block here moved
    rw [itemsOf_syncBlock ne] at same
    rw [items] at he
    obtain ⟨p, hp, he⟩ := List.mem_flatMap.mp he
    have item : p.item ∈ ps.map Piece.item := List.mem_map_of_mem hp
    rw [same] at item
    simp only [List.mem_cons, List.not_mem_nil, or_false] at item
    obtain ⟨-, select⟩ := sk.chain.select Selector.valid_start p
      (List.mem_flatten.mpr ⟨ps, List.mem_of_getElem? hps, hp⟩)
    exact bare_of_syncBlock item select e he
  leads c moved d succ := by
    obtain ⟨bb, here, succ⟩ := Llvm.Function.exists_of_mem_successors succ
    obtain ⟨name, id, k, rfl, -, leads⟩ := h.exists_block here moved
    obtain rfl := List.mem_singleton.mp succ
    exact leads

end Created

/-! ## The module -/

section Modules

variable {llvm : Analyses} {dl : DataLayout} {order : SortOrder} {M : Llvm.Module}
variable {codes : List (List SelectedBlock)} {blocks : List BasicBlockCode}
  {i : Nat} {f : Llvm.Function}

/-- The function `i` of a module is the kernel `f` behind the pass. Its labels lead to its blocks,
its code fits the fields of registers and of offsets, and what is live around a loop is mentioned
before the loop and behind it. -/
structure ModuleKernel (llvm : Analyses) (dl : DataLayout) (M : Llvm.Module)
    (codes : List (List SelectedBlock)) (i : Nat) (f : Llvm.Function) : Prop where
  defined : (definedFunctions llvm M)[i]? = some (runDivergencePass llvm f)
  kernel : FlowKernel dl f
  nonempty : f.blocks ≠ []
  faithful : llvm.Faithful (nameBlocks llvm f)
  names : ∀ b ipd, llvm.ipdom (nameBlocks llvm f) b = some ipd →
    contains (lower ((nameBlocks llvm f).blockName ipd)) "s2r".toList = false
  labels : ∀ d < (runDivergencePass llvm f).blocks.length,
    LastNamed (allBlocks codes) (blockNames (runDivergencePass llvm f) d) (blockIndex codes i d)
  short : (layout (allBlocks codes)).length < 2 ^ 18
  registers : ∀ code st, selectFunction dl (runDivergencePass llvm f) = some (code, st) →
    st.nextVReg ≤ 256
  arguments : f.args.length ≤ 1024
  loops : ∀ b, ∀ d ∈ f.successors b,
    b < d ∨ SpansLoop (allBlocks codes) (blockIndex codes i d) (blockIndex codes i b)

/-- The code of a function stands behind that of the functions before it. -/
lemma embedded_allBlocks {g : Llvm.Function} {code : List SelectedBlock}
    (hc : codes[i]? = some code)
    (labels : ∀ d < g.blocks.length,
      LastNamed (allBlocks codes) (blockNames g d) (blockIndex codes i d))
    (short : (layout (allBlocks codes)).length < 2 ^ 18) :
    Embedded g code (allBlocks codes) (blockIndex codes i 0) where
  stands b sb hb := by
    have here := getElem?_blockIndex hc hb
    rw [allBlocks, List.getElem?_map]
    exact congrArg (Option.map SelectedBlock.code) here
  labels := labels
  short := short

/-- The edges of the kernel that go back are spanned behind the pass. -/
lemma Detours.loops {inserted : Text → Prop} {g : Llvm.Function} {place : Nat → Nat}
    (h : Detours inserted f g place) (spanned : Nat → Nat → Prop)
    (loops : ∀ b, ∀ d ∈ f.successors b, b < d ∨ spanned d b) (b : Nat) (kept : place b = b) :
    ∀ d ∈ g.successors b, b < place d ∨ spanned (place d) b := by
  intro d succ
  obtain ⟨bb, here, -⟩ := Llvm.Function.exists_of_mem_successors succ
  have old : b < f.blocks.length := kept ▸ h.place_lt (List.getElem?_eq_some_iff.mp here).1
  have here' := List.getElem?_eq_getElem old
  obtain ⟨name, calls, r, e, -, sent⟩ := h.original here'
  rw [Llvm.Function.successors_of_getElem? e, Terminator.successors_mapSuccessors] at succ
  obtain ⟨d', succ', rfl⟩ := List.mem_map.mp succ
  rw [(sent d' succ').1]
  exact loops b d' (Llvm.Function.successors_of_getElem? here' ▸ succ')

/-- The words of a module stop from the start of a kernel exactly if the kernel returns, and leave
its memory. -/
theorem compileModule_returns (lawful : dl.Lawful)
    (select : selectFunctions dl (M.functions.map (runDivergencePass llvm)) = some codes)
    (compile : compileModule llvm dl order M = some blocks) (mk : ModuleKernel llvm dl M codes i f)
    (hw : Hardware) (args : Nat → Word) (mem : hw.Mem)
    (stored : ∀ k < f.args.length, hw.load mem (BitVec.ofNat 32 (k * 8)) = args k)
    (fits : ∀ n, Machine.Along (Fitting dl f) (f.step dl.typeAllocSize) n (Control.enter args mem))
    (t : Thread hw RegField)
    (pc : t.pc = some (blockStart (allBlocks codes) (blockIndex codes i 0) : Int))
    (same : t.mem = mem) (mem' : hw.Mem) :
    f.Returns dl.typeAllocSize args mem mem' ↔
      ∃ t', Machine.Ends (threadStep (wordProgram (emitWords blocks))) t t' ∧
        t'.pc = none ∧ t'.mem = mem' := by
  have closed := mk.kernel.ssa.closed
  have detours := runDivergencePass_detours closed mk.faithful
  have marks : ∀ text, ReconvergenceText llvm (nameBlocks llvm f) text →
      Llvm.deviceAsm? text = some .marker :=
    fun _ => ReconvergenceText.marker
  -- the code of the kernel
  have kernel := runDivergencePass_flowKernel mk.kernel mk.faithful mk.nonempty mk.names
  have lt : i < codes.length := by
    rw [← (selectFunctions_forall₂ select).length_eq]
    exact (List.getElem?_eq_some_iff.mp mk.defined).1
  have hc := List.getElem?_eq_getElem lt
  obtain ⟨st, selectF⟩ := selectFunction_of_getElem? select mk.defined hc
  obtain ⟨pieces, seen, chain, selected⟩ := selectFunction_pieces selectF
  have sk : SelectedKernel dl (runDivergencePass llvm f) codes[i] st pieces seen :=
    ⟨lawful, kernel, selected, chain⟩
  have embedded := embedded_allBlocks hc mk.labels mk.short
  have nonempty : (runDivergencePass llvm f).blocks ≠ [] := by
    have := detours.le
    have := List.length_pos_of_ne_nil mk.nonempty
    exact List.ne_nil_of_length_pos (by omega)
  -- the allocation of the module
  rw [compileModule, select, Option.bind_eq_bind, Option.bind_some] at compile
  split at compile
  · cases compile
  · obtain ⟨φ, rfl, alloc⟩ := allocate_spec compile
    have loops := detours.loops (fun d b => SpansLoop (allBlocks codes) (blockIndex codes i 0 + d)
      (blockIndex codes i 0 + b)) mk.loops
    have args_eq := detours.grown.args
    rw [← returns_runDivergencePass closed mk.faithful mk.nonempty]
    exact sk.words_returns selectF (mk.registers _ st selectF)
      (args_eq.symm ▸ mk.arguments) embedded alloc
      nonempty (fun k lt => stored k (args_eq ▸ lt))
      (detours.along_fitting mk.kernel.ssa.ids marks mk.nonempty fits)
      (sk.covered embedded nonempty (detours.places sk) loops) pc same mem'

end Modules

/-- What LLVM computes for `countdown`. -/
def countdownAnalyses : Analyses where
  ipdom := fun _ b => if b < 2 then some (b + 1) else none
  dominates := fun _ a b => decide (a ≤ b)
  predecessors := Llvm.Function.predecessors
  uniqueName := suffixed

/-- The selected code behind the pass, with the state after the selection. -/
def countdownPassed : List SelectedBlock × Selector :=
  (selectFunction linear (runDivergencePass countdownAnalyses countdown)).getD ([], Selector.start)

lemma countdownPassed_select :
    selectFunction linear (runDivergencePass countdownAnalyses countdown) =
      some countdownPassed := rfl

lemma countdown_moduleKernel : ModuleKernel countdownAnalyses linear { functions := [countdown] }
    [countdownPassed.1] 0 countdown where
  defined := rfl
  kernel := countdown_flowKernel
  nonempty := by decide
  faithful := by
    refine ⟨fun {b ipd} join => ?_, fun _ _ => .refl _⟩
    have later : (if b < 2 then some (b + 1) else none) = some ipd := join
    have three : (nameBlocks countdownAnalyses countdown).blocks.length = 3 := rfl
    split at later <;> simp only [Option.some.injEq, reduceCtorEq] at later
    omega
  names b ipd join := by
    have plain : ∀ ipd < 3,
      contains (lower ((nameBlocks countdownAnalyses countdown).blockName ipd))
        "s2r".toList = false := by decide
    have later : (if b < 2 then some (b + 1) else none) = some ipd := join
    split at later <;> simp only [Option.some.injEq, reduceCtorEq] at later
    exact plain ipd (by omega)
  labels d lt := by
    have embedded : Embedded (runDivergencePass countdownAnalyses countdown) countdownPassed.1
        (countdownPassed.1.map SelectedBlock.code) 0 :=
      embedded_single countdownPassed_select (by decide) (by decide)
    exact embedded.labels d lt
  short := by decide
  registers code st select := by
    obtain rfl := (Prod.mk.inj (Option.some.inj (select.symm.trans countdownPassed_select))).2
    decide
  arguments := by decide
  loops b d succ := by
    obtain ⟨bb, block, -⟩ := Llvm.Function.exists_of_mem_successors succ
    have edges : ∀ b < 3, ∀ d ∈ countdown.successors b, b < d ∨ b = 1 ∧ d = 1 := by decide
    obtain later | ⟨rfl, rfl⟩ := edges b (List.getElem?_eq_some_iff.mp block).1 d succ
    · exact .inl later
    · refine .inr fun v live => ?_
      have table : LiveTable
          [[], [2], [1], [1], [1, 3], [1, 4], [1, 4], [1, 4], [1], [1], [1], [1, 5], [], [1], [1]]
          (resolveBranchOffsets (allBlocks [countdownPassed.1])) := by
        decide
      obtain ⟨i, e, mem⟩ := table.mem live
      obtain rfl : i = 3 := (Int.ofNat.inj e).symm
      obtain rfl := List.mem_singleton.mp mem
      exact ⟨⟨1, by decide, by decide, _, rfl, by decide⟩,
        11, by decide, by decide, _, rfl, by decide⟩

/-- The words of a module with the loop that counts down do what the loop does. -/
theorem compileModule_returns_countdown : ∃ blocks,
    compileModule countdownAnalyses linear .stable { functions := [countdown] } = some blocks ∧
    ∀ (mem : Hardware.words.Mem) (regs : RegField → Word) (mem' : Hardware.words.Mem),
      countdown.Returns linear.typeAllocSize (fun _ => mem 0) mem mem' ↔
        ∃ t', Machine.Ends (threadStep (wordProgram (emitWords blocks)))
          { pc := some 0, regs := regs, mem := mem, flags := 0 } t' ∧
            t'.pc = none ∧ t'.mem = mem' := by
  obtain ⟨blocks, compile⟩ : ∃ blocks,
      compileModule countdownAnalyses linear .stable { functions := [countdown] } = some blocks :=
    Option.isSome_iff_exists.mp (by decide)
  have select : selectFunctions linear ([countdown].map (runDivergencePass countdownAnalyses)) =
      some [countdownPassed.1] := rfl
  refine ⟨blocks, compile, fun mem regs mem' => ?_⟩
  refine compileModule_returns (fun _ _ _ => rfl) select compile
    countdown_moduleKernel Hardware.words _ mem
    (fun k lt => ?_) (countdown_fits _) _ rfl rfl mem'
  obtain rfl : k = 0 := Nat.lt_one_iff.mp lt
  rfl

end FpgaGpu

import FpgaGpu.Backend.Placement

/-!
# Kernels with branches from LLVM to the layout

Running the laid out blocks of a kernel with branches does, block by block, what the kernel does, as
long as no difference that a branch tests leaves the signed words.
-/

namespace FpgaGpu

open Llvm (Value Terminator Control)

section Flow

variable {hw : Hardware} {dl : DataLayout} {f : Llvm.Function} {code : List SelectedBlock}
  {st : Selector}
variable {pieces : List (List Piece)} {seen : List (Value × Bool)} {blocks : List BasicBlockCode}
variable {first b : Nat} {c : Control hw} {t : Thread hw RegField}

/-- The difference that the branch at the end of the block tests fits a signed word. -/
def Fitting (dl : DataLayout) (f : Llvm.Function) (c : Control hw) : Prop :=
  ∀ b c' bb cond ifTrue ifFalse predicate op0 op1, f.step dl.typeAllocSize c = some (b, c') →
    f.blocks[b]? = some bb → bb.terminator = .condBr cond ifTrue ifFalse →
    icmp? f cond = some (predicate, op0, op1) →
    DifferenceFits predicate (c'.state.word op0) (c'.state.word op1)

/-- The arguments of a state lie at the start of its memory. -/
def ArgumentsStored (f : Llvm.Function) (ir : Llvm.State hw) : Prop :=
  ∀ k < f.args.length, hw.load ir.mem (BitVec.ofNat 32 (k * 8)) = ir.args k

/-- A thread at the start of a block follows a run that is there. -/
structure AtBlock (dl : DataLayout) (f : Llvm.Function) (st : Selector) (pieces : List (List Piece))
    (blocks : List BasicBlockCode) (first b : Nat) (ir : Llvm.State hw)
    (t : Thread hw RegField) : Prop where
  pc : t.pc = some (blockStart blocks (first + b) : Int)
  stored : b = 0 → ArgumentsStored f ir
  follows : ∃ s passed ps, Narrowed s t ∧ pieces[b]? = some ps ∧
    Following dl f st pieces passed b ps ir s

/-- A thread follows a run of the kernel. -/
def InStep (dl : DataLayout) (f : Llvm.Function) (st : Selector) (pieces : List (List Piece))
    (blocks : List BasicBlockCode) (first : Nat) (c : Control hw) (t : Thread hw RegField) : Prop :=
  match c.block with
  | none => t.pc = none ∧ t.mem = c.state.mem
  | some b => AtBlock dl f st pieces blocks first b c.state t

/-- Every register of the selected code of a small function is one of 256. -/
lemma selectFunction_small (select : selectFunction dl f = some (code, st))
    (few : st.nextVReg ≤ 256) {sb : SelectedBlock} (hsb : sb ∈ code) :
    ∀ mi ∈ instructionsOf sb.items, mi.Small := by
  intro mi mem r access
  obtain ⟨e, he, rfl⟩ := List.mem_map.mp mem
  exact Nat.lt_of_lt_of_le (selectFunction_reg_lt select hsb he access) few

/-- The branch goes where the kernel goes. -/
lemma next_eq_target {term : Terminator} {ir : Llvm.State hw} {flags : Word}
    (flow : FlowTerminator f term)
    (decides : ∀ cond ifTrue ifFalse predicate op0 op1, term = .condBr cond ifTrue ifFalse →
      icmp? f cond = some (predicate, op0, op1) →
      ir.condition cond = some (predicate.holds (ir.word op0) (ir.word op1)) ∧
        flags = ir.word op0 - ir.word op1)
    (fits : ∀ next, term.next ir = some next → ∀ cond ifTrue ifFalse predicate op0 op1,
      term = .condBr cond ifTrue ifFalse → icmp? f cond = some (predicate, op0, op1) →
      DifferenceFits predicate (ir.word op0) (ir.word op1)) :
    term.next ir = some (term.target f flags) := by
  cases term with
  | br | ret => rfl
  | switch | unreachable | other => cases flow
  | condBr cond ifTrue ifFalse =>
    obtain ⟨predicate, op0, op1, compares⟩ := flow
    obtain ⟨condition, rfl⟩ := decides _ _ _ _ _ _ rfl compares
    have next : (Terminator.condBr cond ifTrue ifFalse).next ir =
        some (some (if predicate.holds (ir.word op0) (ir.word op1) then ifTrue else ifFalse)) := by
      simp [Terminator.next, condition]
    have taken := takes_iff_differenceFits.mpr (fits _ next _ _ _ _ _ _ rfl compares)
    rw [next, ← taken]
    simp [Terminator.target, conditionCode, compares]

lemma target_mem_successors {term : Terminator} {flags : Word} {d : Nat}
    (h : term.target f flags = some d) :
    d ∈ term.successors := by
  cases term with
  | br dest =>
    obtain rfl := Option.some.inj h
    exact List.mem_singleton_self _
  | condBr cond ifTrue ifFalse =>
    obtain rfl := Option.some.inj h
    simp only [Terminator.successors]
    split <;> simp
  | ret | switch | unreachable | other => cases h

/-- One block. -/
theorem AtBlock.step (sk : SelectedKernel dl f code st pieces seen)
    (select : selectFunction dl f = some (code, st)) (few : st.nextVReg ≤ 256)
    (embedded : Embedded f code blocks first) (at_b : c.block = some b)
    (at_block : AtBlock dl f st pieces blocks first b c.state t) (fits : Fitting dl f c) :
    ∃ c' n t', f.step dl.typeAllocSize c = some (b, c') ∧
      Machine.after (threadStep (fetch (resolveBranchOffsets blocks))) (n + 1) t = some t' ∧
      InStep dl f st pieces blocks first c' t' := by
  obtain ⟨pc, stored, s, passed, ps, narrowed, block, following⟩ := at_block
  obtain ⟨bb, front, last, ir', bb_block, rfl, item, body, args, plain, following'⟩ :=
    following.block sk block stored
  obtain ⟨out, tail, plain', registers, flags⟩ := following'.terminator sk item
  have hbb : bb ∈ f.blocks := List.mem_of_getElem? bb_block
  obtain ⟨sb, at_sb⟩ := sk.selected.exists_code bb_block
  obtain ⟨ps', block', items⟩ := sk.selected.code_block at_sb
  obtain rfl := Option.some.inj (block.symm.trans block')
  have split : sb.items = (front.flatMap Piece.code ++ out.map (Emitted.mk .terminator)) ++
      terminatorTail f bb.terminator := by
    rw [items, List.flatMap_append, List.flatMap_singleton, tail, List.append_assoc]
  have code_eq : instructionsOf (front.flatMap Piece.code ++ out.map (Emitted.mk .terminator)) =
      instructionsOf (front.flatMap Piece.code) ++ out := by
    rw [instructionsOf, List.map_append, map_mi_mk]
  -- the code before the branches, and the branches
  obtain ⟨t₁, run, pc₁, narrowed₁⟩ := embedded.runs at_sb split
    (code_eq ▸ List.forall_mem_append.mpr ⟨plain, plain'⟩)
    (fun mi mem => selectFunction_small select few (List.mem_of_getElem? at_sb) mi (by
      rw [split, instructionsOf, List.map_append]
      exact List.mem_append_left _ mem)) narrowed pc
  rw [code_eq, executeAll_append] at narrowed₁
  have closed := sk.kernel.ssa.closed bb hbb
  obtain ⟨n, t', leaves, regs, mem, pc'⟩ :=
    embedded.leaves at_sb (sk.kernel.terminators bb hbb) closed split pc₁
  have next : bb.terminator.next ir' = some (bb.terminator.target f t₁.flags) := by
    refine next_eq_target (sk.kernel.terminators bb hbb)
      (fun cond ifTrue ifFalse predicate op0 op1 e compares => ⟨?_, ?_⟩)
      fun next goes cond ifTrue ifFalse predicate op0 op1 e compares => ?_
    · exact following'.condition sk (e ▸ item) compares
    · exact narrowed₁.flags.trans (flags _ _ _ _ _ _ e compares)
    · exact fits _ _ _ _ _ _ _ _ _ (Llvm.Function.step_of_block at_b bb_block body goes)
        bb_block e compares
  have run' : Machine.after (threadStep (fetch (resolveBranchOffsets blocks)))
      ((front.flatMap Piece.code ++ out.map (Emitted.mk .terminator)).length + n + 1)
        t = some t' := by
    rw [Nat.add_assoc, Machine.after_add, run]
    exact leaves
  refine ⟨_, _, t', Llvm.Function.step_of_block at_b bb_block body next, run', ?_⟩
  unfold InStep
  dsimp only
  cases target : bb.terminator.target f t₁.flags with
  | none =>
    rw [target] at pc'
    exact ⟨pc', mem.trans (narrowed₁.mem.trans registers.mem)⟩
  | some d =>
    rw [target] at pc'
    have succ := target_mem_successors target
    have lt : d < pieces.length := by
      have length : (pieces.map (List.map Piece.item)).length = f.blocks.length := by
        rw [sk.selected.items]
        simp [functionItems]
      rw [List.length_map] at length
      exact length ▸ closed d succ
    let s' : Thread hw Nat :=
      { executeAll (executeAll s (instructionsOf (front.flatMap Piece.code)))
        out with flags := t'.flags }
    have registers' : Registers dl f st (passed ++ front ++ [last]) ir' s' :=
      ⟨registers.mem, registers.values, registers.constants⟩
    refine ⟨pc', fun zero => absurd (zero ▸ succ) (sk.kernel.entry bb hbb), s', _, pieces[d],
      ⟨mem.trans narrowed₁.mem, rfl, fun r lt => ?_⟩, List.getElem?_eq_getElem lt,
      following'.jump sk item registers' succ (List.getElem?_eq_getElem lt)⟩
    rw [regs]
    exact narrowed₁.regs r lt

/-- Where a thread that follows a run stops, the run returns. -/
lemma InStep.returned (sk : SelectedKernel dl f code st pieces seen)
    (select : selectFunction dl f = some (code, st)) (few : st.nextVReg ≤ 256)
    (embedded : Embedded f code blocks first) (inStep : InStep dl f st pieces blocks first c t)
    (fits : Fitting dl f c) (stop : f.step dl.typeAllocSize c = none) :
    c.block = none ∧ t.pc = none ∧ t.mem = c.state.mem := by
  cases at_b : c.block with
  | none =>
    rw [InStep, at_b] at inStep
    exact ⟨rfl, inStep⟩
  | some b =>
    rw [InStep, at_b] at inStep
    obtain ⟨c₁, -, -, step, -⟩ := AtBlock.step sk select few embedded at_b inStep fits
    rw [stop] at step
    cases step

/-- The laid out code follows the kernel. -/
theorem inStep_forward (sk : SelectedKernel dl f code st pieces seen)
    (select : selectFunction dl f = some (code, st)) (few : st.nextVReg ≤ 256)
    (embedded : Embedded f code blocks first) :
    Machine.Forward (Fitting dl f : Control hw → Prop) (InStep dl f st pieces blocks first)
      (f.step dl.typeAllocSize) (threadStep (fetch (resolveBranchOffsets blocks))) where
  advance {c t b c'} fits follows step := by
    have at_b := (Llvm.Function.step_eq_some step).1
    rw [InStep, at_b] at follows
    obtain ⟨c₁, n, t', step', run, follows'⟩ :=
      AtBlock.step sk select few embedded at_b follows fits
    obtain ⟨-, rfl⟩ := Prod.mk.inj (Option.some.inj (step.symm.trans step'))
    exact ⟨n, t', run, follows'⟩
  stop {c t} fits follows stop := by
    obtain ⟨-, pc, -⟩ := InStep.returned sk select few embedded follows fits stop
    exact threadStep_none fun pc' at_pc => by rw [pc] at at_pc; cases at_pc

/-- A thread at the entry of a kernel follows it. -/
lemma InStep.enter (sk : SelectedKernel dl f code st pieces seen) (nonempty : f.blocks ≠ [])
    {args : Nat → Word} {mem : hw.Mem} (stored : ArgumentsStored f (Control.enter args mem).state)
    (pc : t.pc = some (blockStart blocks first : Int)) (same : t.mem = mem) :
    InStep dl f st pieces blocks first (Control.enter args mem) t := by
  have length := congrArg List.length sk.selected.items
  simp only [List.length_map, functionItems, List.length_mapIdx] at length
  have entry : 0 < pieces.length := length ▸ List.length_pos_of_ne_nil nonempty
  have block : pieces[0]? = some pieces[0] := List.getElem?_eq_getElem entry
  have path : ControlFlow.Path (pieceFlow runFlow) pieces [] 0 pieces[0] := .entry block
  refine ⟨pc, fun _ => stored, { t with regs := fun r => t.regs (narrow r) }, [], pieces[0],
    ⟨rfl, rfl, fun _ _ => rfl⟩, block, path, ⟨same, ?_, ?_⟩, List.forall_mem_nil _,
    fun id predicate op0 op1 _ => .inl ⟨[], sk.selected.item_path path, List.not_mem_nil⟩⟩
  · rintro p ⟨⟩
  · rintro p ⟨⟩

/-- The laid out code stops exactly if the kernel returns, and leaves its memory. -/
theorem SelectedKernel.layout_returns (sk : SelectedKernel dl f code st pieces seen)
    (select : selectFunction dl f = some (code, st)) (few : st.nextVReg ≤ 256)
    (embedded : Embedded f code blocks first) (nonempty : f.blocks ≠ [])
    {args : Nat → Word} {mem : hw.Mem} (stored : ArgumentsStored f (Control.enter args mem).state)
    (fits : ∀ n, Machine.Along (Fitting dl f) (f.step dl.typeAllocSize) n (Control.enter args mem))
    (pc : t.pc = some (blockStart blocks first : Int)) (same : t.mem = mem) (mem' : hw.Mem) :
    f.Returns dl.typeAllocSize args mem mem' ↔
      ∃ t', Machine.Ends (threadStep (fetch (resolveBranchOffsets blocks))) t t' ∧ t'.pc = none ∧
        t'.mem = mem' := by
  have start : InStep dl f st pieces blocks first (Control.enter args mem) t :=
    .enter sk nonempty stored pc same
  have forward : Machine.Forward (Fitting dl f : Control hw → Prop)
      (InStep dl f st pieces blocks first) _ _ :=
    inStep_forward sk select few embedded
  constructor
  · rintro ⟨c, ends, returned, rfl⟩
    obtain ⟨t', ends', inStep⟩ := forward.ends fits start ends
    rw [InStep, returned] at inStep
    exact ⟨t', ends', inStep⟩
  · rintro ⟨t', ends, -, rfl⟩
    obtain ⟨c, ends', inStep⟩ := forward.ended fits start ends
    obtain ⟨n, run, stop⟩ := ends'
    obtain ⟨returned, -, left⟩ :=
      inStep.returned sk select few embedded ((fits (n + 1)).after run) stop
    exact ⟨c, ⟨n, run, stop⟩, returned, left.symm⟩

end Flow

/-- The selected code of a kernel with branches stops, wherever it is laid out, exactly if the
kernel returns, and leaves its memory. -/
theorem selectFunction_returns {dl : DataLayout} (lawful : dl.Lawful) {f : Llvm.Function}
    (kernel : FlowKernel dl f) {code : List SelectedBlock} {st : Selector}
    (select : selectFunction dl f = some (code, st)) (few : st.nextVReg ≤ 256)
    {blocks : List BasicBlockCode} {first : Nat} (embedded : Embedded f code blocks first)
    (nonempty : f.blocks ≠ []) (hw : Hardware) (args : Nat → Word) (mem : hw.Mem)
    (stored : ArgumentsStored f (Control.enter args mem).state)
    (fits : ∀ n, Machine.Along (Fitting dl f) (f.step dl.typeAllocSize) n (Control.enter args mem))
    (t : Thread hw RegField) (pc : t.pc = some (blockStart blocks first : Int)) (same : t.mem = mem)
    (mem' : hw.Mem) :
    f.Returns dl.typeAllocSize args mem mem' ↔
      ∃ t', Machine.Ends (threadStep (fetch (resolveBranchOffsets blocks))) t t' ∧ t'.pc = none ∧
        t'.mem = mem' := by
  obtain ⟨pieces, seen, chain, selected⟩ := selectFunction_pieces select
  exact SelectedKernel.layout_returns ⟨lawful, kernel, selected, chain⟩ select few
    embedded nonempty stored fits pc same mem'

/-- A difference with 0 fits. -/
lemma countdown_fits {hw : Hardware} (c : Control hw) (n : Nat) :
    Machine.Along (Fitting linear countdown) (countdown.step linear.typeAllocSize) n c := by
  refine Machine.Along.mono (P := fun _ => True) (fun c _ => ?_)
    (Machine.Along.of_invariant (fun _ _ => trivial) trivial)
  intro b c' bb cond ifTrue ifFalse predicate op0 op1 step block term compares
  have cond_eq : ∀ bb ∈ countdown.blocks, ∀ cond ifTrue ifFalse,
    bb.terminator = .condBr cond ifTrue ifFalse →
      cond = .instruction 3 := by simp [countdown]
  obtain rfl := cond_eq bb (List.mem_of_getElem? block) _ _ _ term
  have icmp : icmp? countdown (.instruction 3) = some (.sgt, .instruction 1, .constantInt 32 0) :=
    rfl
  obtain ⟨rfl, rfl, rfl⟩ : _ ∧ _ ∧ _ := by simpa using icmp.symm.trans compares
  have zero : (c'.state.word (.constantInt 32 0#32)).toInt = 0 := by simp [Llvm.State.word]
  have least := (c'.state.word (.instruction 1)).le_two_mul_toInt
  have greatest := (c'.state.word (.instruction 1)).two_mul_toInt_lt
  refine .inr (.inr ?_)
  simp only [Llvm.Predicate.difference, zero]
  omega

/-- The code of the loop that counts down does what the loop does. -/
theorem selectFunction_returns_countdown : FlowKernel linear countdown ∧
    ∀ (mem : Hardware.words.Mem) (regs : RegField → Word) (mem' : Hardware.words.Mem),
      countdown.Returns linear.typeAllocSize (fun _ => mem 0) mem mem' ↔
        ∃ t', Machine.Ends
          (threadStep (fetch (resolveBranchOffsets (countdownCode.1.map SelectedBlock.code))))
          { pc := some 0, regs := regs, mem := mem, flags := 0 } t' ∧
            t'.pc = none ∧ t'.mem = mem' := by
  refine ⟨countdown_flowKernel, fun mem regs mem' => ?_⟩
  have few : countdownCode.2.nextVReg ≤ 256 := by decide
  refine selectFunction_returns (fun _ _ _ => rfl) countdown_flowKernel countdown_select
    few countdown_embedded (by decide) Hardware.words _ mem (fun k lt => ?_) (countdown_fits _) _
    rfl rfl mem'
  obtain rfl : k = 0 := Nat.lt_one_iff.mp lt
  rfl

end FpgaGpu

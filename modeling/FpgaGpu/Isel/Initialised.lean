import FpgaGpu.Isel.Following

/-!
# Registers that are written before they are read

On every path through the selected code of a kernel a register is written before it is read, whether
it stands for a value, for a constant or for neither.
-/

namespace FpgaGpu

open Llvm (Value)
open ControlFlow (Path)
open Emission (mapItems_eq_some)

/-- A state in which every value is known. -/
def Llvm.State.known : Llvm.State Hardware.plain :=
  { mem := (), args := fun _ => 0, results := fun _ => some 0 }

/-- The steps `steps` lower the piece `p` of a kernel to `out`. -/
structure PieceLowered (dl : DataLayout) (f : Llvm.Function) (p : Piece) (steps : List PlanStep)
    (out : List (Instruction Nat)) : Prop where
  run : runSteps p.item.own [] steps p.before = some ((), out, p.after)
  code : p.code = out.map (Emitted.mk p.item.origin) ++ p.item.tail f
  yields : ∃ mem' x, Yields Llvm.State.known.word Llvm.State.known.mem
    (usesOf dl f p.item) steps mem' x
  usable : ∀ u ∈ usesOf dl f p.item, Usable f.args.length (wordIds f) u
  notOwn : ∀ u ∈ usesOf dl f p.item, u.1 ≠ p.item.own

section Kernels

variable {dl : DataLayout} {f : Llvm.Function} {code : List SelectedBlock} {st : Selector}
variable {pieces : List (List Piece)} {seen : List (Value × Bool)}

/-- Some thread holds every value in its register. -/
lemma Selector.Valid.exists_holding (valid : st.Valid) {hw : Hardware}
    (value : Value → Word) (mem : hw.Mem) :
    ∃ s : Thread hw Nat, s.mem = mem ∧ ∀ v r, st.valueToVReg v = some r → s.regs r = value v := by
  classical
  let regs : Nat → Word := fun r =>
    if h : ∃ v, st.valueToVReg v = some r then value h.choose else 0
  refine ⟨{ pc := none, regs := regs, mem := mem, flags := 0 }, rfl, fun v r e => ?_⟩
  have h : ∃ v, st.valueToVReg v = some r := ⟨v, e⟩
  show (if h : ∃ v, st.valueToVReg v = some r then value h.choose else 0) = value v
  rw [dif_pos h, valid.inj h.choose_spec e]

/-- What a terminator compares with is straight. -/
lemma straight_terminator {t : Llvm.Terminator} {mi : Instruction Nat}
    (h : .emit mi ∈ terminatorSteps f t) : mi.Straight := by
  cases t with
  | condBr cond ifTrue ifFalse =>
    have h : .emit mi ∈ conditionSteps f cond := h
    unfold conditionSteps at h
    split at h
    · obtain rfl : mi = _ := by simpa [cmpSteps] using h
      exact straight_of_no_imm ⟨nofun, nofun⟩ rfl rfl rfl
    · cases h
  | br | switch | ret | unreachable | other => cases h

/-- Every piece that control comes to is lowered. -/
lemma SelectedKernel.lowers (sk : SelectedKernel dl f code st pieces seen)
    {passed rest : List Piece} {b : Nat} {p : Piece}
    (path : Path (pieceFlow runFlow) pieces passed b (p :: rest)) :
    ∃ steps out, PieceLowered dl f p steps out ∧ ∀ mi, .emit mi ∈ steps →
      (∀ k arg, p.item = .argument k arg → k < 1024) → mi.Straight := by
  obtain ⟨before, block⟩ := path.suffix
  have hps := List.mem_of_getElem? block
  have hp : p ∈ before ++ p :: rest := by simp
  obtain ⟨valid, select⟩ :=
    sk.chain.select Selector.valid_start p (List.mem_flatten.mpr ⟨_, hps, hp⟩)
  cases item : p.item with
  | argument k arg =>
    obtain ⟨out, stepped⟩ := selectItem_stepped select
    have code := stepped.code
    have run := stepped.run
    rw [item] at code run
    refine ⟨argumentSteps k arg, out, ⟨?_, ?_, ?_, ?_, ?_⟩,
      fun mi mem small => (simple_argument (small k arg rfl) arg mi mem).straight⟩
    all_goals rw [item]
    · exact run
    · exact code
    · exact ⟨_, _, yields_argument ..⟩
    · exact nofun
    · exact nofun
  | term t =>
    obtain ⟨out, stepped⟩ := selectItem_stepped select
    have code := stepped.code
    have run := stepped.run
    rw [item] at code run
    refine ⟨terminatorSteps f t, out, ⟨?_, ?_, ?_, ?_, ?_⟩, fun mi mem _ => straight_terminator mem⟩
    all_goals rw [item]
    · exact run
    · exact code
    · exact ⟨_, _, yields_terminator ..⟩
    · exact sk.kernel.usable
    · rintro ⟨v, m⟩ mem own
      obtain rfl : v = _ := own
      obtain operand | ⟨constant, -⟩ := sk.kernel.usable _ mem
      · cases operand
      · cases constant
  | inst i =>
    have itemPath := sk.selected.item_path path
    rw [List.map_cons, item] at itemPath
    have hi : i ∈ bodyOf f := mem_bodyOf (sk.selected.items ▸ List.mem_map_of_mem hps)
      (item ▸ List.mem_map_of_mem hp)
    have known : Llvm.State.known.Known (wordIds f) := fun _ _ => ⟨0, rfl⟩
    obtain ⟨steps, ir', x, performed⟩ := (sk.kernel.instructions i hi).performed sk.lawful known
      fun _ word _ => word
    rw [item] at select
    obtain ⟨out, run, code⟩ := mapItems_eq_some.mp select
    rw [performed.select] at run
    refine ⟨steps, out, ⟨?_, ?_, ?_, ?_, ?_⟩, fun mi mem _ => performed.straight mi mem⟩
    all_goals rw [item]
    · exact run
    · rw [code]
      exact (List.append_nil _).symm
    · exact ⟨_, _, performed.yields⟩
    · exact performed.usable
    · intro u mem own
      exact sk.kernel.ssa.not_own itemPath
        ((show u.1 = .instruction i.id from own) ▸ uses_subset_operands mem)

lemma lt_of_mem_argumentItems {args : List Llvm.Argument} {n k : Nat} {arg : Llvm.Argument}
    (h : .argument k arg ∈ argumentItems n args) : k < n + args.length := by
  induction args generalizing n with
  | nil => cases h
  | cons arg' args ih =>
    rw [List.length_cons]
    obtain e | h := List.mem_cons.mp h
    · obtain ⟨rfl, -⟩ := Item.argument.inj e
      omega
    · have := ih h
      omega

/-- The items of arguments are those of the function. -/
lemma argument_lt_of_item {items : List Item} (h : items ∈ functionItems f)
    {k : Nat} {arg : Llvm.Argument} (mem : .argument k arg ∈ items) : k < f.args.length := by
  obtain ⟨b, lt, rfl⟩ := List.mem_mapIdx.mp h
  obtain mem | mem := List.mem_append.mp mem
  · split at mem
    · simpa using lt_of_mem_argumentItems mem
    · cases mem
  · simp at mem

/-- What a piece has before its branches is straight. -/
lemma SelectedKernel.straight (sk : SelectedKernel dl f code st pieces seen)
    (few : f.args.length ≤ 1024) {passed rest : List Piece} {b : Nat} {p : Piece}
    (path : Path (pieceFlow runFlow) pieces passed b (p :: rest)) :
    ∃ out : List (Instruction Nat), p.code = out.map (Emitted.mk p.item.origin) ++ p.item.tail f ∧
      ∀ mi ∈ out, mi.Straight := by
  obtain ⟨before, block⟩ := path.suffix
  obtain ⟨steps, out, ⟨run, code, ⟨mem', x, yields⟩, usable, -⟩, straight⟩ := sk.lowers path
  refine ⟨out, code, runSteps_all (P := Instruction.Straight) (fun φ mi => .mapRegs φ)
    (fun mi mem => straight mi mem fun k arg item => ?_) (fun u mem r mi load => ?_) run⟩
  · have items : (before ++ p :: rest).map Piece.item ∈ functionItems f :=
      sk.selected.items ▸ List.mem_map_of_mem (List.mem_of_getElem? block)
    have lt := argument_lt_of_item items (List.mem_map.mpr ⟨p, by simp, item⟩)
    omega
  · rw [yields.uses] at mem
    obtain operand | ⟨-, small, -⟩ := usable u mem
    · cases e : u.1 with
      | constantInt =>
        rw [e] at operand
        cases operand
      | argument | instruction | other =>
        rw [e] at load
        cases load
    · cases e : u.1 with
      | constantInt w bits =>
        rw [e] at load small
        cases loaded : u.2 with
        | false =>
          rw [loaded] at load
          cases load
        | true =>
          rw [loaded] at load
          obtain rfl := List.mem_singleton.mp load
          exact (simple_loadConstant small r).straight
      | argument | instruction | other =>
        rw [e] at load
        cases load

/-- A piece reads registers of values, and what it has written. -/
lemma SelectedKernel.reads (sk : SelectedKernel dl f code st pieces seen)
    {passed rest : List Piece} {b : Nat} {p : Piece}
    (path : Path (pieceFlow runFlow) pieces passed b (p :: rest)) :
    ReadsWritten (fun r => ∃ v, st.valueToVReg v = some r) (instructionsOf p.code) := by
  obtain ⟨before, block⟩ := path.suffix
  have hps := List.mem_of_getElem? block
  have hp : p ∈ before ++ p :: rest := by simp
  obtain ⟨valid, -⟩ := sk.chain.select Selector.valid_start p (List.mem_flatten.mpr ⟨_, hps, hp⟩)
  obtain ⟨-, grows⟩ := sk.selected.spec _ hps p hp
  obtain ⟨steps, out, ⟨run, code, ⟨mem', x, yields⟩, usable, notOwn⟩, -⟩ := sk.lowers path
  obtain ⟨s, mem, holds⟩ :=
    sk.selected.valid.exists_holding Llvm.State.known.word Llvm.State.known.mem
  have waits : ∀ u ∈ usesOf dl f p.item, Waits Llvm.State.known.word p.before st s u := by
    intro u hu
    refine ⟨fun _ r reg => holds u.1 r reg, fun constant => ⟨?_, fun r reg => ?_⟩⟩
    · obtain operand | ⟨-, -, load⟩ := usable u hu
      · cases e : u.1 with
        | constantInt => rw [e] at operand; cases operand
        | argument | instruction | other => rw [e] at constant; cases constant
      · exact load
    · exact holds u.1 r (grows.keeps ((sk.selected.spec _ hps p hp).1.grows.keeps reg))
  obtain ⟨reads, -⟩ := runSteps_handles valid grows p.item.isConstantInt_own
    (constantsValued_word Llvm.State.known) (mem ▸ yields) notOwn waits run
  -- what is pushed behind the steps reads nothing
  have tail : ∀ {written : Nat → Prop} {es : List Emitted}, (∀ e ∈ es, e.mi.reads = []) →
      ReadsWritten written (instructionsOf es) := by
    intro written es none
    induction es generalizing written with
    | nil => trivial
    | cons e es ih =>
      obtain ⟨head, none⟩ := List.forall_mem_cons.mp none
      exact ⟨fun r mem => (by rw [head] at mem; cases mem), ih none⟩
  rw [code, instructionsOf, List.map_append, map_mi_mk]
  exact reads.append (tail fun e he => (Item.mem_tail he).2.1)

/-- The value of a piece that was passed was written. -/
lemma SelectedKernel.value_written (sk : SelectedKernel dl f code st pieces seen)
    {passed rest : List Piece} {b : Nat} {p : Piece}
    (path : Path (pieceFlow runFlow) pieces passed b (p :: rest)) {done : List Emitted}
    (straight : ∀ q ∈ passed, ∀ e,
      ControlFlow.Straight (codeFlow (code.map SelectedBlock.name)) q.code e → e ∈ done)
    {v : Value} (notConstant : isConstantInt v = false) {m : Bool}
    (used : (v, m) ∈ usesOf dl f p.item) {r : Nat} (reg : st.valueToVReg v = some r) :
    ∃ e ∈ done, e.mi.writes = some r := by
  have written : ∀ q ∈ passed, (∀ e ∈ q.code, e.mi.op ≠ .br) → Writes q.code q.after v →
      ∃ e ∈ done, e.mi.writes = some r := by
    intro q hq plain writes
    obtain ⟨_, b', _, path', -⟩ := path.mem_done hq
    obtain ⟨before, block⟩ := path'.suffix
    obtain ⟨e, -, mem, write⟩ := sk.selected.written (List.mem_of_getElem? block)
      (by simp) (straight q hq) plain writes reg
    exact ⟨e, mem, write⟩
  have shape : ∀ q ∈ passed, CodeShape f q.after q.item q.code := by
    intro q hq
    obtain ⟨_, b', _, path', -⟩ := path.mem_done hq
    obtain ⟨before, block⟩ := path'.suffix
    exact (sk.selected.spec _ (List.mem_of_getElem? block) q (by simp)).1.shape
  obtain ⟨_, _, ⟨-, -, -, usable, -⟩, -⟩ := sk.lowers path
  obtain operand | ⟨constant, -⟩ := usable _ used
  · cases v with
    | argument k =>
      obtain ⟨q, hq, arg, item⟩ :=
        sk.selected.argument_passed path (List.ne_nil_of_mem used) operand
      have shape := item ▸ shape q hq
      exact written q hq (fun e he => (shape.1 e he).2.1) shape.2
    | instruction id =>
      obtain ⟨i, hi, lowered, rfl⟩ := mem_wordIds.mp (show id ∈ wordIds f from operand)
      obtain ⟨q, hq, item⟩ := sk.selected.inst_passed sk.kernel.ssa path hi used
      have shape := item ▸ shape q hq
      exact written q hq (fun e he => (shape.1 e he).2) (shape.2.2.mpr lowered)
    | constantInt | other => cases operand
  · rw [show isConstantInt v = true from constant] at notConstant
    cases notConstant

/-- A path that has come to an instruction follows one that has come to its piece. -/
lemma SelectedKernel.at_piece (sk : SelectedKernel dl f code st pieces seen)
    (distinct : NamesDistinct f) {done rest : List Emitted} {b : Nat} {e : Emitted}
    (path : Path (codeFlow (code.map SelectedBlock.name)) (code.map SelectedBlock.items) done b
      (e :: rest)) :
    ∃ passed p after before behind, Path (pieceFlow runFlow) pieces passed b (p :: after) ∧
      (∀ q ∈ passed, ∀ e,
        ControlFlow.Straight (codeFlow (code.map SelectedBlock.name)) q.code e → e ∈ done) ∧
      p.code = before ++ e :: behind ∧ ∀ e' ∈ before, e' ∈ done := by
  have follows : ControlFlow.Follows (pieceFlow runFlow)
    (codeFlow (code.map SelectedBlock.name)) Piece.code
      pieces (fun _ _ => True) :=
    sk.selected.follows sk.kernel.ssa.closed (sk.selected.names ▸ distinct)
      fun _ bb e' _ => (sk.kernel.terminators bb (List.mem_of_getElem? e')).lowered
  rw [sk.selected.blocks] at path
  obtain ⟨_, _, _, shadow⟩ := path.shadow follows
  obtain ⟨passed, p, after, before, behind, path', straight, split, -, all⟩ :=
    shadow.at_item follows
  exact ⟨passed, p, after, before, behind, path', straight, split, fun e' he => (all e' he).1⟩

/-- On every path each register is written before it is read. -/
theorem SelectedKernel.written (sk : SelectedKernel dl f code st pieces seen)
    (distinct : NamesDistinct f) {done rest : List Emitted} {b : Nat} {e : Emitted}
    (path : Path (codeFlow (code.map SelectedBlock.name)) (code.map SelectedBlock.items) done
      b (e :: rest))
    {r : Nat} (read : r ∈ e.mi.reads) (ne : r ≠ 0) : ∃ e' ∈ done, e'.mi.writes = some r := by
  obtain ⟨passed, p, after, before, behind, path', straight, split, all⟩ :=
    sk.at_piece distinct path
  obtain ⟨pre, block⟩ := path'.suffix
  have here : (instructionsOf p.code)[before.length]? = some e.mi := by simp [split]
  obtain ⟨v, reg⟩ | ⟨j, lt, mi, at_j, write⟩ := (sk.reads path').exists_write here read ne
  · obtain ⟨m, used⟩ := sk.selected.use_of_read (List.mem_of_getElem? block) (p := p) (by simp)
      (e := e) (by simp [split]) read reg
    cases v with
    | constantInt w bits =>
      have nonzero : bits ≠ 0 := by
        rintro rfl
        rw [sk.selected.valid.zero (by simp [isZero])] at reg
        cases reg
      obtain ⟨e', mem, load⟩ := sk.selected.constants_loaded sk.kernel.ssa.closed distinct
        (fun bb hbb => (sk.kernel.terminators bb hbb).lowered) sk.kernel.loads
          _ _ _ _ path w bits r nonzero
        reg read
      exact ⟨e', mem, by rw [load]; rfl⟩
    | argument | instruction | other => exact sk.value_written path' straight rfl used reg
  · -- the piece itself has written it
    rw [instructionsOf, split, List.getElem?_map, List.getElem?_append_left lt] at at_j
    obtain ⟨e', he', rfl⟩ := Option.map_eq_some_iff.mp at_j
    exact ⟨e', all e' (List.mem_of_getElem? he'), write⟩

end Kernels

end FpgaGpu

import FpgaGpu.Isel.Constants
import FpgaGpu.Isel.Flow
import FpgaGpu.Isel.Holding
import FpgaGpu.Isel.Sinking

/-!
# Following a run through the pieces

A thread follows a run of the function if the registers of what the run has passed hold it:
arguments, results that are lowered to a register, and constants whose first use was passed. Each
piece keeps this.
-/

namespace FpgaGpu

open Llvm (Value)
open ControlFlow (Path)
open Emission (mapItems_eq_some)

section Following

variable {hw : Hardware} {dl : DataLayout} {f : Llvm.Function} {code : List SelectedBlock}
  {st : Selector}
variable {pieces : List (List Piece)} {seen : List (Value × Bool)}
  {passed rest : List Piece} {b : Nat}
variable {ir ir' : Llvm.State hw} {s s' : Thread hw Nat}

/-- The word of a value. -/
lemma word_of_value {v : Value} {x : Word} (h : ir.value v = some x) : ir.word v = x := by
  cases v with
  | constantInt w bits =>
    simp only [Llvm.State.value, Option.ite_none_right_eq_some, Option.some.injEq] at h
    obtain ⟨rfl, rfl⟩ := h
    simp [Llvm.State.word, setWidth_signExtend]
  | argument => exact Option.some.inj h
  | instruction id =>
    simp only [Llvm.State.word, show ir.results id = some x from h, Option.getD_some]
  | other => cases h

/-- A path of pieces is a path of items. -/
lemma Selected.item_path (selected : Selected dl f code st pieces)
    (path : Path (pieceFlow runFlow) pieces passed b rest) :
    Path cfgFlow (functionItems f) (passed.map Piece.item) b (rest.map Piece.item) := by
  rw [← selected.items]
  refine path.map (g := Piece.item) (fun q h => ?_) fun q d h => h
  change runFlow.continues q.item at h
  cases item : q.item with
  | argument | inst => trivial
  | term t =>
    rw [item] at h
    exact h

/-! ## Registers -/

/-- The registers of what was passed hold it. -/
structure Registers (dl : DataLayout) (f : Llvm.Function) (st : Selector) (passed : List Piece)
    (ir : Llvm.State hw) (s : Thread hw Nat) : Prop where
  mem : s.mem = ir.mem
  values : ∀ p ∈ passed, ∀ v, p.item.result = some v → Produced f v →
    ∀ r, st.valueToVReg v = some r → s.regs r = ir.word v
  constants : ∀ p ∈ passed, ∀ (w : Nat) (bits : BitVec w), bits ≠ 0 →
    firstUse (.constantInt w bits) p.seen = none →
    firstUse (.constantInt w bits) (usesOf dl f p.item) = some true →
    ∀ r, st.valueToVReg (.constantInt w bits) = some r → s.regs r = ir.word (.constantInt w bits)

/-- A piece that handles a value keeps the others. -/
lemma Registers.step (registers : Registers dl f st passed ir s)
    (selected : Selected dl f code st pieces) {ps : List Piece} (hps : ps ∈ pieces) {p : Piece}
    (hp : p ∈ ps) {own : Value} (item : ∀ v, p.item.result = some v → v = own)
    (inst : isConstantInt own = false) {us : List (Value × Bool)} {x : Option Word}
    (handles : Handles ir.word own us p.before p.after st s s' ir'.mem x)
    (words : ∀ v, v ≠ own → ir'.word v = ir.word v) (left : ∀ y, x = some y → ir'.word own = y)
    (produced : ∀ item : Item, item.result = some own → Produced f own → x ≠ none) :
    Registers dl f st (passed ++ [p]) ir' s' := by
  obtain ⟨spec, grows⟩ := selected.spec ps hps p hp
  refine ⟨handles.mem, fun q hq v result prod r reg => ?_,
    fun q hq w bits nonzero first load r reg => ?_⟩
  · by_cases new : v = own
    · subst new
      obtain ⟨y, e⟩ := Option.ne_none_iff_exists'.mp (produced _ result prod)
      obtain ⟨r', reg', same⟩ := handles.result y e
      obtain rfl := Option.some.inj ((grows.keeps reg').symm.trans reg)
      exact same.trans (left y e).symm
    · rw [words v new]
      obtain hq | hq := List.mem_append.mp hq
      · exact (handles.keeps v r reg).resolve_left (fun own => new own.1)
          (registers.values q hq v result prod r reg)
      · obtain rfl := List.mem_singleton.mp hq
        exact absurd (item v result) new
  · have other : .constantInt w bits ≠ own := by
      rintro rfl
      cases inst
    rw [words _ other]
    obtain hq | hq := List.mem_append.mp hq
    · exact (handles.keeps _ r reg).resolve_left (fun own => other own.1)
        (registers.constants q hq w bits nonzero first load r reg)
    · obtain rfl := List.mem_singleton.mp hq
      have nonzero : isZero (.constantInt w bits) = false := decide_eq_false nonzero
      have none := (selected.seen _ rfl nonzero ps hps q hp).mpr first
      have loading := spec.loading (.constantInt w bits) rfl nonzero
      obtain ⟨r', reg'⟩ : ∃ r', q.after.valueToVReg (.constantInt w bits) = some r' := by
        rw [← Option.isSome_iff_exists, Option.isSome_iff_ne_none]
        intro none'
        rw [(loading.none_iff.mp none').2] at load
        cases load
      obtain rfl := Option.some.inj ((grows.keeps reg').symm.trans reg)
      exact (handles.new _ _ none reg').resolve_left fun own => other own.1

/-- Only the registers that were given out count. -/
lemma Registers.agree (registers : Registers dl f st passed ir s) (valid : st.Valid)
    (mem : s'.mem = s.mem) (same : ∀ r < st.nextVReg, s'.regs r = s.regs r) :
    Registers dl f st passed ir s' := by
  refine ⟨mem.trans registers.mem, fun p hp v result prod r reg => ?_,
    fun p hp w bits nonzero first load r reg => ?_⟩
  · rw [same r (valid.range reg).2]
    exact registers.values p hp v result prod r reg
  · rw [same r (valid.range reg).2]
    exact registers.constants p hp w bits nonzero first load r reg

/-! ## Comparisons -/

/-- The result of a comparison is what it says of its operands now, or there is a path to the place
that control is at which avoids the comparison. -/
def Compared (f : Llvm.Function) (ir : Llvm.State hw) (b : Nat) (rest : List Item) : Prop :=
  ∀ id predicate op0 op1, ⟨id, .icmp predicate op0 op1⟩ ∈ bodyOf f →
    (∃ done, Path cfgFlow (functionItems f) done b rest ∧
      .inst ⟨id, .icmp predicate op0 op1⟩ ∉ done) ∨
    ir.results id = some (if predicate.holds (ir.word op0) (ir.word op1) then 1 else 0)

/-- Going on behind an item that is no instruction. -/
lemma Compared.move {a : Item} {items items' : List Item} {b' : Nat}
    (compared : Compared f ir b (a :: items)) (other : ∀ i, a ≠ .inst i)
    (goes : ∀ done, Path cfgFlow (functionItems f) done b (a :: items) →
      Path cfgFlow (functionItems f) (done ++ [a]) b' items') : Compared f ir b' items' := by
  intro id predicate op0 op1 hi
  refine (compared id predicate op0 op1 hi).imp_left fun ⟨done, path, avoids⟩ =>
    ⟨_, goes done path, ?_⟩
  intro mem
  obtain mem | mem := List.mem_append.mp mem
  · exact avoids mem
  · exact other _ (List.mem_singleton.mp mem).symm

/-- Going on behind an instruction. -/
lemma Compared.step (ssa : Ssa f) {i : Llvm.Instruction} {items done : List Item}
    (compared : Compared f ir b (.inst i :: items))
    (path : Path cfgFlow (functionItems f) done b (.inst i :: items)) (args : ir'.args = ir.args)
    (others : ∀ id, id ≠ i.id → ir'.results id = ir.results id)
    (here : ∀ predicate op0 op1, i.operation = .icmp predicate op0 op1 →
      ir'.results i.id = some (if predicate.holds (ir'.word op0) (ir'.word op1) then 1 else 0)) :
    Compared f ir' b items := by
  intro id predicate op0 op1 hi
  obtain ⟨before, block⟩ := path.suffix
  have mem : i ∈ bodyOf f := mem_bodyOf (List.mem_of_getElem? block) (by simp)
  by_cases same : i.id = id
  · have e := List.inj_on_of_nodup_map ssa.ids mem hi same
    subst e
    exact .inr (here predicate op0 op1 rfl)
  have apart : Item.inst ⟨id, .icmp predicate op0 op1⟩ ≠ .inst i :=
    fun e => same (congrArg Llvm.Instruction.id (Item.inst.inj e)).symm
  have next : ∀ done, Path cfgFlow (functionItems f) done b (.inst i :: items) →
      .inst ⟨id, .icmp predicate op0 op1⟩ ∉ done →
      ∃ done, Path cfgFlow (functionItems f) done b items ∧
        .inst ⟨id, .icmp predicate op0 op1⟩ ∉ done := by
    refine fun done path avoids => ⟨_, path.next trivial trivial, fun mem => ?_⟩
    obtain mem | mem := List.mem_append.mp mem
    · exact avoids mem
    · exact apart (List.mem_singleton.mp mem)
  by_cases operand : .instruction i.id ∈ (Item.inst ⟨id, .icmp predicate op0 op1⟩).operands
  · -- an operand is computed again: a path comes here without the comparison
    obtain ⟨done', path', avoids⟩ := ssa.avoid operand rfl path
    exact .inl (next done' path' avoids)
  · have word : ∀ v ∈ [op0, op1], ir'.word v = ir.word v := by
      intro v hv
      cases v with
      | instruction id' =>
        have ne : id' ≠ i.id := fun e => operand (e ▸ hv)
        simp only [Llvm.State.word, others id' ne]
      | argument => simp only [Llvm.State.word, args]
      | constantInt | other => rfl
    refine (compared id predicate op0 op1 hi).imp ?_ ?_
    · rintro ⟨done', path', avoids⟩
      exact next done' path' avoids
    · rw [others id (Ne.symm same), word op0 (by simp), word op1 (by simp)]
      exact fun h => h

/-! ## Following a run -/

/-- The results that were passed and have a register. -/
def passedIds (passed : List Piece) : List Nat :=
  passed.filterMap fun p =>
    match p.item with
    | .inst i => if produces i.operation then some i.id else none
    | .argument .. | .term _ => none

lemma mem_passedIds {id : Nat} : id ∈ passedIds passed ↔
    ∃ p ∈ passed, ∃ i, p.item = .inst i ∧ produces i.operation = true ∧ i.id = id := by
  rw [passedIds, List.mem_filterMap]
  refine exists_congr fun p => and_congr_right fun _ => ?_
  cases p.item with
  | argument | term => simp
  | inst i => simp [Item.inst.injEq]

lemma mem_wordIds {id : Nat} :
    id ∈ wordIds f ↔ ∃ i ∈ bodyOf f, produces i.operation = true ∧ i.id = id := by
  simp [wordIds, and_assoc]

/-- A thread follows a run that is at a piece. -/
structure Following (dl : DataLayout) (f : Llvm.Function) (st : Selector)
    (pieces : List (List Piece)) (passed : List Piece) (b : Nat) (rest : List Piece)
    (ir : Llvm.State hw) (s : Thread hw Nat) :
    Prop where
  path : Path (pieceFlow runFlow) pieces passed b rest
  registers : Registers dl f st passed ir s
  known : ir.Known (passedIds passed)
  compared : Compared f ir b (rest.map Piece.item)

/-- The selected code of a kernel. -/
structure SelectedKernel (dl : DataLayout) (f : Llvm.Function) (code : List SelectedBlock)
    (st : Selector) (pieces : List (List Piece)) (seen : List (Value × Bool)) : Prop where
  lawful : dl.Lawful
  kernel : FlowKernel dl f
  selected : Selected dl f code st pieces
  chain : PieceChain dl f [] Selector.start pieces.flatten seen st

section Steps

variable {p : Piece}

lemma Following.at_piece (following : Following dl f st pieces passed b (p :: rest) ir s) :
    ∃ ps ∈ pieces, p ∈ ps := by
  obtain ⟨before, block⟩ := following.path.suffix
  exact ⟨_, List.mem_of_getElem? block, by simp⟩

/-- The results that an item uses were passed. -/
lemma Following.passes (sk : SelectedKernel dl f code st pieces seen)
    (following : Following dl f st pieces passed b (p :: rest) ir s) {id : Nat}
    (word : id ∈ wordIds f)
    (used : (∃ m, (.instruction id, m) ∈ usesOf dl f p.item) ∨ .instruction id ∈ p.item.operands) :
    id ∈ passedIds passed := by
  obtain ⟨i, hi, lowered, rfl⟩ := mem_wordIds.mp word
  have path := sk.selected.item_path following.path
  obtain ⟨d, mem, defines⟩ : ∃ d ∈ passed.map Piece.item, d.defines = some i.id := by
    obtain ⟨m, used⟩ | operand := used
    · exact sk.kernel.ssa.defined path used
    · exact sk.kernel.ssa.dominated _ _ _ _ _ path operand
  obtain ⟨_, _, _, path', -⟩ := path.mem_done mem
  obtain ⟨before, block⟩ := path'.suffix
  obtain rfl := sk.kernel.ssa.defines_eq (List.mem_of_getElem? block) (by simp) hi defines
  obtain ⟨q, hq, item⟩ := List.mem_map.mp mem
  exact mem_passedIds.mpr ⟨q, hq, i, item, lowered, rfl⟩

/-- The operands of a piece wait in their registers. -/
lemma Following.waits (sk : SelectedKernel dl f code st pieces seen)
    (following : Following dl f st pieces passed b (p :: rest) ir s) {u : Value × Bool}
    (used : u ∈ usesOf dl f p.item) (usable : Usable f.args.length (passedIds passed) u) :
    Waits ir.word p.before st s u := by
  obtain ⟨v, m⟩ := u
  obtain ⟨ps, hps, hp⟩ := following.at_piece
  obtain ⟨valid, -⟩ := sk.chain.select Selector.valid_start p (List.mem_flatten.mpr ⟨ps, hps, hp⟩)
  obtain ⟨spec, grows⟩ := sk.selected.spec ps hps p hp
  refine ⟨fun constant r reg => ?_, fun constant => ?_⟩
  · obtain operand | ⟨constant', -⟩ := usable
    · cases v with
      | argument k =>
        obtain ⟨q, hq, arg, item⟩ :=
          sk.selected.argument_passed following.path (List.ne_nil_of_mem used)
          (show k < f.args.length from operand)
        exact following.registers.values q hq (.argument k) (by rw [item]; rfl) trivial r reg
      | instruction id =>
        obtain ⟨q, hq, i, item, lowered, rfl⟩ :=
          mem_passedIds.mp (show id ∈ passedIds passed from operand)
        have hi : i ∈ bodyOf f := by
          obtain ⟨_, _, _, path', -⟩ := following.path.mem_done hq
          obtain ⟨before, block⟩ := path'.suffix
          exact mem_bodyOf (sk.selected.items ▸ List.mem_map_of_mem (List.mem_of_getElem? block))
            (item ▸ List.mem_map_of_mem (f := Piece.item) (by simp))
        exact following.registers.values q hq (.instruction i.id) (by rw [item]; rfl)
          ⟨i, hi, rfl, lowered⟩ r reg
      | constantInt | other => cases operand
    · rw [show isConstantInt v = true from constant'] at constant
      cases constant
  · obtain operand | ⟨-, -, load⟩ := usable
    · cases v with
      | constantInt => cases operand
      | argument | instruction | other => cases constant
    · refine ⟨load, fun r reg => ?_⟩
      cases v with
      | argument | instruction | other => cases constant
      | constantInt w bits =>
        have nonzero : bits ≠ 0 := by
          rintro rfl
          rw [valid.zero (by simp [isZero])] at reg
          cases reg
        obtain ⟨x, hx, first, load⟩ :=
          sk.kernel.loads _ _ _ _ (sk.selected.marked_path following.path) w bits m
          nonzero used
        obtain hx | hx := List.mem_append.mp hx
        · obtain ⟨q, hq, rfl⟩ := List.mem_map.mp hx
          exact following.registers.constants q hq w bits nonzero first load r
            (grows.keeps (spec.grows.keeps reg))
        · -- a constant that has a register was used before
          obtain rfl := List.mem_singleton.mp hx
          rw [(sk.selected.seen _ rfl (show isZero (.constantInt w bits) = false from
            decide_eq_false nonzero) ps hps p hp).mpr first] at reg
          cases reg

lemma Following.mem_body (sk : SelectedKernel dl f code st pieces seen)
    (path : Path (pieceFlow runFlow) pieces passed b rest) {q : Piece} (hq : q ∈ passed)
    {i : Llvm.Instruction} (item : q.item = .inst i) : i ∈ bodyOf f := by
  obtain ⟨_, _, _, path', -⟩ := path.mem_done hq
  obtain ⟨before, block⟩ := path'.suffix
  exact mem_bodyOf (sk.selected.items ▸ List.mem_map_of_mem (List.mem_of_getElem? block))
    (item ▸ List.mem_map_of_mem (f := Piece.item) (by simp))

/-- No instruction uses its own result. -/
lemma Ssa.not_own (ssa : Ssa f) {i : Llvm.Instruction} {done items : List Item}
    (path : Path cfgFlow (functionItems f) done b (.inst i :: items)) :
    .instruction i.id ∉ (Item.inst i).operands := by
  intro operand
  obtain ⟨done', path', avoids⟩ := ssa.avoid operand rfl path
  obtain ⟨before, block⟩ := path'.suffix
  exact avoids (ssa.passes path' operand (List.mem_of_getElem? block) (by simp) rfl)

/-- The code of an instruction that a run executes. -/
theorem Following.instruction (sk : SelectedKernel dl f code st pieces seen) {i : Llvm.Instruction}
    (item : p.item = .inst i) (following : Following dl f st pieces passed b (p :: rest) ir s) :
    ∃ ir', Llvm.perform dl.typeAllocSize ir i = some ir' ∧ ir'.args = ir.args ∧
      Following dl f st pieces (passed ++ [p]) b rest ir'
        (executeAll s (instructionsOf p.code)) := by
  obtain ⟨ps, hps, hp⟩ := following.at_piece
  obtain ⟨valid, select⟩ :=
    sk.chain.select Selector.valid_start p (List.mem_flatten.mpr ⟨ps, hps, hp⟩)
  obtain ⟨spec, grows⟩ := sk.selected.spec ps hps p hp
  have path := sk.selected.item_path following.path
  rw [List.map_cons, item] at path
  have hi : i ∈ bodyOf f := mem_bodyOf (sk.selected.items ▸ List.mem_map_of_mem hps)
    (item ▸ List.mem_map_of_mem hp)
  have flow := sk.kernel.instructions i hi
  obtain ⟨steps, ir', x, performed⟩ := flow.performed sk.lawful following.known
    fun id word operand => following.passes sk word (.inr (by rwa [item, flow.operands_eq]))
  rw [item] at select
  obtain ⟨out, run, code⟩ := mapItems_eq_some.mp select
  rw [performed.select] at run
  rw [show instructionsOf p.code = out by rw [code, instructionsOf, map_mi_mk]]
  have notUsed : ∀ u ∈ uses dl f i, u.1 ≠ .instruction i.id := fun u mem own =>
    sk.kernel.ssa.not_own path (own ▸ uses_subset_operands mem)
  obtain ⟨-, handles⟩ := runSteps_handles valid grows rfl (constantsValued_word ir)
    (following.registers.mem ▸ performed.yields) notUsed
    (fun u mem => following.waits sk (item ▸ mem) (performed.usable u mem)) run
  -- only the result of the instruction is new
  have words : ∀ v, v ≠ .instruction i.id → ir'.word v = ir.word v := by
    intro v ne
    cases v with
    | instruction id =>
      have other := performed.others id fun e => ne (congrArg _ e)
      simp only [Llvm.State.word, other]
    | argument => simp only [Llvm.State.word, performed.args]
    | constantInt | other => rfl
  have produced : ∀ j ∈ bodyOf f, j.id = i.id → produces j.operation = true → ∃ y, x = some y := by
    intro j hj same lowered
    obtain rfl := List.inj_on_of_nodup_map sk.kernel.ssa.ids hj hi same
    rwa [performed.produces, Option.isSome_iff_exists] at lowered
  have next : Path (pieceFlow runFlow) pieces (passed ++ [p]) b rest := by
    refine following.path.next trivial ?_
    show runFlow.continues p.item
    rw [item]
    exact flow.exits_eq
  refine ⟨ir', performed.perform, performed.args, next, ?_, fun id mem => ?_, ?_⟩
  · have result : ∀ v, p.item.result = some v → v = .instruction i.id := by
      rw [item]
      exact fun v e => (Option.some.inj e).symm
    refine following.registers.step sk.selected hps hp result rfl handles words (fun y e => ?_)
      fun _ _ produced' none => ?_
    · simp only [Llvm.State.word, performed.result y e, Option.getD_some]
    · obtain ⟨j, hj, same, lowered⟩ := produced'
      obtain ⟨y, e⟩ := produced j hj same lowered
      rw [none] at e
      cases e
  · obtain ⟨q, hq, j, item', lowered, rfl⟩ := mem_passedIds.mp mem
    by_cases same : j.id = i.id
    · obtain ⟨y, e⟩ := produced j (Following.mem_body sk next hq item') same lowered
      exact ⟨y, same ▸ performed.result y e⟩
    · obtain hq | hq := List.mem_append.mp hq
      · obtain ⟨y, e⟩ := following.known j.id (mem_passedIds.mpr ⟨q, hq, j, item', lowered, rfl⟩)
        exact ⟨y, (performed.others _ same).trans e⟩
      · obtain rfl := List.mem_singleton.mp hq
        obtain rfl := Item.inst.inj (item.symm.trans item')
        exact absurd rfl same
  · have compared := following.compared
    rw [List.map_cons, item] at compared
    refine compared.step sk.kernel.ssa path performed.args performed.others
      fun predicate op0 op1 icmp => ?_
    obtain ⟨x, y, value0, value1, rfl⟩ := Llvm.perform_icmp icmp performed.perform
    have own := sk.kernel.ssa.not_own path
    rw [flow.operands_eq, icmp] at own
    rw [words op0 fun e => own (by simp [Llvm.Operation.operands, e]),
      words op1 fun e => own (by simp [Llvm.Operation.operands, e]), word_of_value value0,
      word_of_value value1]
    exact Function.update_self ..

lemma passedIds_of_not_inst (other : ∀ i, p.item ≠ .inst i) :
    passedIds (passed ++ [p]) = passedIds passed := by
  rw [passedIds, List.filterMap_append, ← passedIds]
  cases item : p.item with
  | inst i => exact absurd item (other i)
  | argument | term => simp [item]

/-- The code of an argument. -/
theorem Following.argument (sk : SelectedKernel dl f code st pieces seen)
    {k : Nat} {arg : Llvm.Argument} (item : p.item = .argument k arg)
    (following : Following dl f st pieces passed b (p :: rest) ir s)
    (stored : hw.load ir.mem (BitVec.ofNat 32 (k * 8)) = ir.args k) :
    Following dl f st pieces (passed ++ [p]) b rest ir (executeAll s (instructionsOf p.code)) := by
  obtain ⟨ps, hps, hp⟩ := following.at_piece
  obtain ⟨valid, select⟩ :=
    sk.chain.select Selector.valid_start p (List.mem_flatten.mpr ⟨ps, hps, hp⟩)
  obtain ⟨spec, grows⟩ := sk.selected.spec ps hps p hp
  rw [item] at select
  obtain ⟨out, run, code⟩ := mapItems_eq_some.mp select
  have run : runSteps (.argument k) [] (argumentSteps k arg) p.before =
    some ((), out, p.after) := run
  rw [show instructionsOf p.code = out by rw [code, instructionsOf, map_mi_mk]]
  have yields : Yields ir.word s.mem [] (argumentSteps k arg) ir.mem (some (ir.args k)) := by
    rw [following.registers.mem, ← stored]
    exact yields_argument ..
  obtain ⟨-, handles⟩ := runSteps_handles valid grows rfl (constantsValued_word ir) yields
    (List.forall_mem_nil _) (List.forall_mem_nil _) run
  have other : ∀ i, p.item ≠ .inst i := fun i e => by
    rw [item] at e
    cases e
  have continues : (pieceFlow runFlow).continues p := by
    show runFlow.continues p.item
    rw [item]
    trivial
  refine ⟨following.path.next trivial continues, ?_, ?_, ?_⟩
  · have result : ∀ v, p.item.result = some v → v = .argument k := by
      rw [item]
      exact fun v e => (Option.some.inj e).symm
    refine following.registers.step sk.selected hps hp result rfl handles (fun _ _ => rfl)
      (fun y e => ?_) fun _ _ _ later => by cases later
    exact Option.some.inj e
  · rw [passedIds_of_not_inst other]
    exact following.known
  · refine following.compared.move other fun done path => path.next trivial ?_
    rw [item]
    trivial

/-- The code of the arguments. -/
lemma Following.arguments (sk : SelectedKernel dl f code st pieces seen)
    {args : List Llvm.Argument} {k : Nat} {ps : List Piece}
    (items : ps.map Piece.item = argumentItems k args)
    (following : Following dl f st pieces passed b (ps ++ rest) ir s)
    (stored : ∀ j, k ≤ j → j < k + args.length →
      hw.load ir.mem (BitVec.ofNat 32 (j * 8)) = ir.args j) :
    Following dl f st pieces (passed ++ ps) b rest ir
      (executeAll s (instructionsOf (ps.flatMap Piece.code))) := by
  induction args generalizing k ps passed s with
  | nil =>
    obtain rfl := List.map_eq_nil_iff.mp items
    simpa [executeAll] using following
  | cons arg args ih =>
    obtain ⟨p, ps, rfl, item, items⟩ := List.map_eq_cons_iff.mp items
    have next := following.argument sk item (stored k (Nat.le_refl k) (by simp))
    have last := ih items next fun j le lt => stored j (by omega) (by rw [List.length_cons]; omega)
    simpa [executeAll_append] using last

/-- The code of a body. -/
lemma Following.body (sk : SelectedKernel dl f code st pieces seen) {body : List Llvm.Instruction}
    {ps : List Piece} (items : ps.map Piece.item = body.map .inst)
    (following : Following dl f st pieces passed b (ps ++ rest) ir s) :
    ∃ ir', Llvm.performBody dl.typeAllocSize ir body = some ir' ∧ ir'.args = ir.args ∧
      Following dl f st pieces (passed ++ ps) b rest ir'
        (executeAll s (instructionsOf (ps.flatMap Piece.code))) := by
  induction body generalizing ps passed ir s with
  | nil =>
    obtain rfl := List.map_eq_nil_iff.mp items
    exact ⟨ir, rfl, rfl, by simpa [executeAll] using following⟩
  | cons i body ih =>
    obtain ⟨p, ps, rfl, item, items⟩ := List.map_eq_cons_iff.mp items
    obtain ⟨ir₁, perform, args₁, next⟩ := following.instruction sk item
    obtain ⟨ir', rest, args', last⟩ := ih items next
    refine ⟨ir', ?_, args'.trans args₁, by simpa [executeAll_append] using last⟩
    rw [Llvm.performBody, perform]
    exact rest

/-- What comes before the terminator of a block goes on. -/
lemma SelectedKernel.plain (sk : SelectedKernel dl f code st pieces seen)
    {ps : List Piece} (hps : ps ∈ pieces) (hp : p ∈ ps) (other : ∀ t, p.item ≠ .term t) :
    ∀ mi ∈ instructionsOf p.code, mi.Plain := by
  intro mi mem
  obtain ⟨e, he, rfl⟩ := List.mem_map.mp mem
  have shape := (sk.selected.spec ps hps p hp).1.shape
  cases item : p.item with
  | argument k arg =>
    rw [item] at shape
    exact (shape.1 e he).2
  | inst i =>
    rw [item] at shape
    refine ⟨(shape.1 e he).2, fun exit => ?_⟩
    have hi : i ∈ bodyOf f := mem_bodyOf (sk.selected.items ▸ List.mem_map_of_mem hps)
      (item ▸ List.mem_map_of_mem hp)
    have stops := shape.2.1.mp ⟨e, he, exit⟩
    rw [(sk.kernel.instructions i hi).exits_eq] at stops
    cases stops
  | term t => exact absurd item (other t)

/-- The code of a block up to its terminator. -/
theorem Following.block (sk : SelectedKernel dl f code st pieces seen) {ps : List Piece}
    (block : pieces[b]? = some ps) (following : Following dl f st pieces passed b ps ir s)
    (stored : b = 0 → ∀ k < f.args.length, hw.load ir.mem (BitVec.ofNat 32 (k * 8)) = ir.args k) :
    ∃ bb front last ir', f.blocks[b]? = some bb ∧ ps = front ++ [last] ∧
      last.item = .term bb.terminator ∧ Llvm.performBody dl.typeAllocSize ir bb.body = some ir' ∧
      ir'.args = ir.args ∧ (∀ mi ∈ instructionsOf (front.flatMap Piece.code), mi.Plain) ∧
      Following dl f st pieces (passed ++ front) b [last] ir'
        (executeAll s (instructionsOf (front.flatMap Piece.code))) := by
  obtain ⟨bb, at_block, items⟩ := sk.selected.block block
  obtain ⟨as, rest, rfl, arguments, items⟩ := List.map_eq_append_iff.mp items
  obtain ⟨body, ts, rfl, insts, items⟩ := List.map_eq_append_iff.mp items
  obtain ⟨last, ts, rfl, term, items⟩ := List.map_eq_cons_iff.mp items
  obtain rfl := List.map_eq_nil_iff.mp items
  have first : Following dl f st pieces (passed ++ as) b (body ++ [last]) ir
      (executeAll s (instructionsOf (as.flatMap Piece.code))) := by
    split at arguments
    · next zero => exact following.arguments sk arguments fun j _ lt => stored zero j (by omega)
    · obtain rfl := List.map_eq_nil_iff.mp arguments
      simpa [executeAll] using following
  obtain ⟨ir', performs, args, second⟩ := first.body sk insts
  refine ⟨bb, as ++ body, last, ir', at_block, (List.append_assoc ..).symm, term,
    performs, args, ?_, ?_⟩
  · intro mi mem
    obtain ⟨e, he, rfl⟩ := List.mem_map.mp mem
    obtain ⟨q, hq, he⟩ := List.mem_flatMap.mp he
    refine sk.plain (List.mem_of_getElem? block)
      (p := q) ?_ (fun t item => ?_) _ (List.mem_map_of_mem he)
    · rw [← List.append_assoc]
      exact List.mem_append_left _ hq
    · obtain hq | hq := List.mem_append.mp hq
      · have mem := List.mem_map_of_mem (f := Piece.item) hq
        rw [arguments] at mem
        split at mem
        · obtain ⟨k, arg, e⟩ := not_term_of_mem_argumentItems mem
          rw [item] at e
          cases e
        · cases mem
      · have mem := List.mem_map_of_mem (f := Piece.item) hq
        rw [insts, item] at mem
        obtain ⟨i, -, e⟩ := List.mem_map.mp mem
        cases e
  · simpa [executeAll_append] using second

/-! ## Terminators -/

/-- The steps of a terminator leave the memory. -/
lemma yields_terminator (value : Value → Word) (mem : hw.Mem) (t : Llvm.Terminator) :
    Yields value mem (terminatorUses f t) (terminatorSteps f t) mem none := by
  cases t with
  | condBr cond ifTrue ifFalse =>
    simp only [terminatorUses, terminatorSteps, conditionUses, conditionSteps]
    cases icmp? f cond <;> exact ⟨rfl, rfl, rfl, rfl, nofun, fun _ => rfl⟩
  | br | switch | ret | unreachable | other => exact ⟨rfl, rfl, rfl, rfl, nofun, fun _ => rfl⟩

/-- The uses of a terminator were passed. -/
lemma Following.usable (sk : SelectedKernel dl f code st pieces seen) {t : Llvm.Terminator}
    (item : p.item = .term t) (following : Following dl f st pieces passed b (p :: rest) ir s) :
    ∀ u ∈ terminatorUses f t, Usable f.args.length (passedIds passed) u := by
  rintro ⟨v, m⟩ mem
  refine (sk.kernel.usable _ mem).restrict fun id word e => ?_
  obtain rfl : v = _ := e
  exact following.passes sk word (.inl ⟨m, by rw [item]; exact mem⟩)

/-- The code of a terminator before its branches. -/
theorem Following.terminator (sk : SelectedKernel dl f code st pieces seen) {t : Llvm.Terminator}
    (item : p.item = .term t) (following : Following dl f st pieces passed b (p :: rest) ir s) :
    ∃ out, p.code = out.map (Emitted.mk .terminator) ++ terminatorTail f t ∧
      (∀ mi ∈ out, mi.Plain) ∧
      Registers dl f st (passed ++ [p]) ir (executeAll s out) ∧
      ∀ cond ifTrue ifFalse predicate op0 op1, t = .condBr cond ifTrue ifFalse →
        icmp? f cond = some (predicate, op0, op1) →
        (executeAll s out).flags = ir.word op0 - ir.word op1 := by
  obtain ⟨ps, hps, hp⟩ := following.at_piece
  obtain ⟨valid, select⟩ :=
    sk.chain.select Selector.valid_start p (List.mem_flatten.mpr ⟨ps, hps, hp⟩)
  obtain ⟨spec, grows⟩ := sk.selected.spec ps hps p hp
  obtain ⟨out, stepped⟩ := selectItem_stepped select
  obtain ⟨handled, -, -, exit⟩ := stepped.ran valid
  have code := stepped.code
  have run := stepped.run
  rw [item] at code run exit
  have yields : Yields ir.word s.mem (terminatorUses f t) (terminatorSteps f t) ir.mem none := by
    rw [following.registers.mem]
    exact yields_terminator ..
  have notUsed : ∀ u ∈ terminatorUses f t, u.1 ≠ .other 0 := by
    rintro ⟨v, m⟩ mem rfl
    obtain operand | ⟨constant, -⟩ := following.usable sk item _ mem
    · cases operand
    · cases constant
  obtain ⟨-, handles⟩ := runSteps_handles valid grows rfl (constantsValued_word ir) yields notUsed
    (fun u mem => following.waits sk (by rw [item]; exact mem) (following.usable sk item u mem)) run
  have result : ∀ v, p.item.result = some v → v = .other 0 := by
    rw [item]
    nofun
  refine ⟨out, code, fun mi mem => ⟨handled.noBranch mi mem, fun stop => ?_⟩, ?_,
    fun cond ifTrue ifFalse predicate op0 op1 e compared => ?_⟩
  · have stops : stepsExit (terminatorSteps f t) = true := exit.mp ⟨mi, mem, stop⟩
    cases t with
    | condBr cond =>
      rw [terminatorSteps, stepsExit_conditionSteps] at stops
      cases stops
    | br | switch | ret | unreachable | other => cases stops
  · refine following.registers.step sk.selected hps hp result rfl handles (fun _ _ => rfl) nofun
      fun item e => ?_
    cases item <;> cases e
  · subst e
    have run : runSteps (.other 0) [] (conditionSteps f cond) p.before =
      some ((), out, p.after) := run
    rw [conditionSteps, compared] at run
    obtain ⟨loaded, rs1, rs2, rfl, reg₁, reg₂⟩ := selectCmp_eq_some valid run
    have used : terminatorUses f (.condBr cond ifTrue ifFalse) = [(op0, true), (op1, true)] := by
      simp [terminatorUses, conditionUses, compared]
    rw [used] at handles
    have read₁ := handles.operands (op0, true) (by simp) rs1 reg₁
    have read₂ := handles.operands (op1, true) (by simp) rs2 reg₂
    rw [← read₁, ← read₂, executeAll_append]
    rfl

/-- A branch on a comparison goes by what the comparison says of its operands now. -/
lemma Following.condition (sk : SelectedKernel dl f code st pieces seen) {cond : Value}
    {ifTrue ifFalse : Nat} (item : p.item = .term (.condBr cond ifTrue ifFalse))
    (following : Following dl f st pieces passed b (p :: rest) ir s) {predicate : Llvm.Predicate}
    {op0 op1 : Value} (compares : icmp? f cond = some (predicate, op0, op1)) :
    ir.condition cond = some (predicate.holds (ir.word op0) (ir.word op1)) := by
  obtain ⟨id, hi, rfl⟩ := icmp?_eq_some compares
  have compared := following.compared
  rw [List.map_cons, item] at compared
  obtain ⟨done, path, avoids⟩ | result := compared id predicate op0 op1 hi
  · exact absurd (sk.kernel.ssa.passes_test hi path) avoids
  · rw [Llvm.State.condition, result]
    cases predicate.holds (ir.word op0) (ir.word op1) <;> rfl

/-- Going on in a successor. -/
lemma Following.jump (sk : SelectedKernel dl f code st pieces seen) {t : Llvm.Terminator}
    (item : p.item = .term t) (following : Following dl f st pieces passed b (p :: rest) ir s)
    (registers : Registers dl f st (passed ++ [p]) ir s') {d : Nat} (succ : d ∈ t.successors)
    {ps : List Piece} (block : pieces[d]? = some ps) :
    Following dl f st pieces (passed ++ [p]) d ps ir s' := by
  have jumps : cfgFlow.jumps p.item d := by
    rw [item]
    exact succ
  have other : ∀ i, p.item ≠ .inst i := fun i e => by
    rw [item] at e
    cases e
  refine ⟨following.path.jump trivial jumps block, registers, ?_, ?_⟩
  · rw [passedIds_of_not_inst other]
    exact following.known
  · refine following.compared.move other fun done path => path.jump trivial jumps ?_
    rw [← sk.selected.items, List.getElem?_map, block]
    rfl

end Steps

end Following

end FpgaGpu

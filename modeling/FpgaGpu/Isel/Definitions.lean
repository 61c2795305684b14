import FpgaGpu.Isel.Paths

/-!
# Values that are written before they are read

On a path that reads only arguments and results that are lowered to a register, and leaves blocks
only by `br`, every register that stands for such a value was written for it before. Other results
(of `phi`, `select`, `alloca`, a comparison used as data) have a register that nothing writes.
-/

namespace FpgaGpu

open Llvm (Value Terminator)

/-! ## SSA -/

/-- The instructions that do not end a block. -/
def bodyOf (f : Llvm.Function) : List Llvm.Instruction := f.blocks.flatMap Llvm.BasicBlock.body

/-- The operands of an item, those of a `phi` excepted: they are used at the end of the blocks they
come from. -/
def Item.operands : Item → List Value
  | .argument .. => []
  | .inst ⟨_, .phi _⟩ => []
  | .inst i => i.operation.operands
  | .term t => t.operands

/-- The value that an item defines. -/
def Item.defines : Item → Option Nat
  | .argument .. => none
  | .inst i => some i.id
  | .term (.other id _ _) => some id
  | .term _ => none

/-- What the verifier promises of values: each has one definition, which every path to a use
passes. -/
structure Ssa (f : Llvm.Function) : Prop where
  closed : f.Closed
  ids : ((bodyOf f).map Llvm.Instruction.id).Nodup
  terminators : ∀ bb ∈ f.blocks, ∀ id, (Item.term bb.terminator).defines = some id →
    ∀ i ∈ bodyOf f, i.id ≠ id
  arguments : ∀ items ∈ functionItems f, ∀ a ∈ items, ∀ k, .argument k ∈ a.operands →
    k < f.args.length
  dominated : ∀ done b a rest id, ControlFlow.Path cfgFlow (functionItems f) done b (a :: rest) →
    .instruction id ∈ a.operands → ∃ d ∈ done, d.defines = some id

/-! ## The condition -/

/-- A value whose register is written: an argument, or a result that is lowered to a register. -/
def Produced (f : Llvm.Function) : Value → Prop
  | .instruction id => ∃ i ∈ bodyOf f, i.id = id ∧ produces i.operation = true
  | _ => True

/-- The end of a block is passed only if its terminator is lowered. -/
def Leaves (f : Llvm.Function) (b : Nat) (step : Option Emitted) : Prop :=
  step = none → ∀ bb, f.blocks[b]? = some bb → isLowered bb.terminator = true

/-- What an instruction that writes the register of a value is emitted for. -/
def originOf : Value → Option Origin
  | .argument k => some (.argument k)
  | .instruction id => some (.instruction id)
  | _ => none

/-! ## Uses are defined -/

lemma uses_subset_operands {dl : DataLayout} {f : Llvm.Function} {i : Llvm.Instruction} {v : Value}
    {m : Bool} (h : (v, m) ∈ uses dl f i) : v ∈ (Item.inst i).operands := by
  obtain ⟨id, operation⟩ := i
  have both : ∀ {op0 op1 : Value}, (v, m) ∈ [(op0, true), (op1, true)] → v ∈ [op0, op1] := by
    intro op0 op1 h
    simp only [List.mem_cons, Prod.mk.injEq, List.not_mem_nil, or_false] at h ⊢
    exact h.imp And.left And.left
  have one : ∀ {op0 : Value} {b : Bool} {l : List Value}, (v, m) ∈ [(op0, b)] → v ∈ op0 :: l := by
    intro op0 b l h
    obtain rfl := (Prod.mk.inj (List.mem_singleton.mp h)).1
    exact List.mem_cons_self
  cases operation with
  | binary opcode op0 op1 =>
    cases opcode with
    | add | shl =>
      simp only [uses] at h
      split at h
      · exact one h
      · exact both h
    | sub | mul | other => exact both h
  | icmp predicate op0 op1 =>
    simp only [uses] at h
    split at h
    · cases h
    · exact both h
  | load ty ptr => exact one h
  | store ty value ptr =>
    obtain h | h := List.mem_cons.mp h
    · exact one (List.mem_singleton.mpr h)
    · exact List.mem_cons_of_mem _ (one h)
  | call callee args =>
    cases callee with
    | inlineAsm asmString =>
      simp only [uses] at h
      split at h
      · exact one h
      · obtain h | h := List.mem_cons.mp h
        · exact one (List.mem_singleton.mpr h)
        · exact List.mem_cons_of_mem _ (one h)
      · cases h
    | function name => cases h
    | indirect operand => cases h
  | cast src => exact one h
  | getelementptr sourceElement ptr indices =>
    simp only [uses] at h
    split at h
    · exact one h
    · obtain h | h := List.mem_cons.mp h
      · exact one (List.mem_singleton.mpr h)
      · obtain rfl := (Prod.mk.inj (List.mem_singleton.mp h)).1
        cases last : indices.getLast? with
        | none => exact List.mem_cons_self
        | some v => exact List.mem_cons_of_mem _ (List.mem_of_getLast? last)
  | alloca | phi | select | other => cases h

/-- A comparison of the function. -/
lemma icmp?_eq_some {f : Llvm.Function} {v op0 op1 : Value} {predicate : Llvm.Predicate}
    (h : icmp? f v = some (predicate, op0, op1)) :
    ∃ id, ⟨id, .icmp predicate op0 op1⟩ ∈ bodyOf f ∧ v = .instruction id := by
  unfold icmp? at h
  split at h
  · next id =>
    split at h
    · next found =>
      simp only [Option.some.injEq, Prod.mk.injEq] at h
      obtain ⟨rfl, rfl, rfl⟩ := h
      have same := List.find?_some found
      simp only [decide_eq_true_eq] at same
      obtain rfl := same
      exact ⟨_, List.mem_of_find?_eq_some found, rfl⟩
    · cases h
  · cases h

/-- What a branch uses is used by its comparison. -/
lemma mem_conditionUses {f : Llvm.Function} {condVal v : Value} {m : Bool}
    (h : (v, m) ∈ conditionUses f condVal) : ∃ id predicate op0 op1, condVal = .instruction id ∧
      ⟨id, .icmp predicate op0 op1⟩ ∈ bodyOf f ∧
      v ∈ (Item.inst ⟨id, .icmp predicate op0 op1⟩).operands := by
  unfold conditionUses at h
  split at h
  · next predicate op0 op1 compared =>
    obtain ⟨id, hi, rfl⟩ := icmp?_eq_some compared
    refine ⟨id, predicate, op0, op1, rfl, hi, ?_⟩
    simp only [List.mem_cons, Prod.mk.injEq, List.not_mem_nil, or_false] at h
    simpa [Item.operands, Llvm.Operation.operands] using h.imp And.left And.left
  · cases h

lemma exists_of_mem_bodyOf {f : Llvm.Function} {i : Llvm.Instruction} (h : i ∈ bodyOf f) :
    ∃ items ∈ functionItems f, .inst i ∈ items := by
  obtain ⟨bb, hbb, mem⟩ := List.mem_flatMap.mp h
  obtain ⟨b, lt, rfl⟩ := List.mem_iff_getElem.mp hbb
  refine ⟨itemsOf f b f.blocks[b], List.mem_mapIdx.mpr ⟨b, lt, rfl⟩, ?_⟩
  simp [itemsOf, mem]

lemma mem_bodyOf {f : Llvm.Function} {items : List Item} (h : items ∈ functionItems f)
    {i : Llvm.Instruction} (mem : .inst i ∈ items) : i ∈ bodyOf f := by
  obtain ⟨b, lt, rfl⟩ := List.mem_mapIdx.mp h
  obtain mem | mem := List.mem_append.mp mem
  · split at mem
    · obtain ⟨k, arg, e⟩ := not_term_of_mem_argumentItems mem
      cases e
    · cases mem
  · obtain mem | mem := List.mem_append.mp mem
    · obtain ⟨i', hi, e⟩ := List.mem_map.mp mem
      obtain rfl := Item.inst.inj e
      exact List.mem_flatMap.mpr ⟨_, List.getElem_mem lt, hi⟩
    · cases List.mem_singleton.mp mem

lemma mem_terminators {f : Llvm.Function} {items : List Item} (h : items ∈ functionItems f)
    {t : Terminator} (mem : .term t ∈ items) : ∃ bb ∈ f.blocks, t = bb.terminator := by
  obtain ⟨b, lt, rfl⟩ := List.mem_mapIdx.mp h
  obtain mem | mem := List.mem_append.mp mem
  · split at mem
    · obtain ⟨k, arg, e⟩ := not_term_of_mem_argumentItems mem
      cases e
    · cases mem
  · obtain mem | mem := List.mem_append.mp mem
    · obtain ⟨i', -, e⟩ := List.mem_map.mp mem
      cases e
    · exact ⟨_, List.getElem_mem lt, Item.term.inj (List.mem_singleton.mp mem)⟩

section Definitions

variable {f : Llvm.Function}

/-- The item that defines the value of an instruction is this instruction. -/
lemma Ssa.defines_eq (ssa : Ssa f) {items : List Item} (h : items ∈ functionItems f) {d : Item}
    (mem : d ∈ items) {i : Llvm.Instruction} (hi : i ∈ bodyOf f) (e : d.defines = some i.id) :
    d = .inst i := by
  cases d with
  | argument k arg => cases e
  | inst j =>
    have same : j.id = i.id := Option.some.inj e
    rw [List.inj_on_of_nodup_map ssa.ids (mem_bodyOf h mem) hi same]
  | term t =>
    obtain ⟨bb, hbb, rfl⟩ := mem_terminators h mem
    exact absurd rfl (ssa.terminators bb hbb i.id e i hi)

/-- An argument that is used is an argument of the function. -/
lemma Ssa.argument_lt (ssa : Ssa f) {dl : DataLayout} {items : List Item}
    (h : items ∈ functionItems f) {a : Item} (mem : a ∈ items) {k : Nat} {m : Bool}
    (used : (.argument k, m) ∈ usesOf dl f a) :
    k < f.args.length := by
  cases a with
  | argument k' arg => cases used
  | inst i => exact ssa.arguments items h _ mem k (uses_subset_operands used)
  | term t =>
    cases t with
    | condBr condVal ifTrue ifFalse =>
      obtain ⟨c, predicate, op0, op1, -, hi, operand⟩ := mem_conditionUses used
      obtain ⟨items', h', mem'⟩ := exists_of_mem_bodyOf hi
      exact ssa.arguments items' h' _ mem' k operand
    | br | switch | ret | unreachable | other => cases used

/-- A use of the value of an instruction comes after the instruction. -/
lemma Ssa.defined (ssa : Ssa f) {dl : DataLayout} {done rest : List Item} {b : Nat} {a : Item}
    (path : ControlFlow.Path cfgFlow (functionItems f) done b (a :: rest)) {id : Nat} {m : Bool}
    (used : (.instruction id, m) ∈ usesOf dl f a) : ∃ d ∈ done, d.defines = some id := by
  cases a with
  | argument k arg => cases used
  | inst i => exact ssa.dominated done b _ rest id path (uses_subset_operands used)
  | term t =>
    cases t with
    | condBr condVal ifTrue ifFalse =>
      -- the operands of the comparison are defined before it, and it is defined before the branch
      obtain ⟨c, predicate, op0, op1, rfl, hi, operand⟩ := mem_conditionUses used
      obtain ⟨d, mem, defines⟩ := ssa.dominated done b _ rest c path List.mem_cons_self
      obtain ⟨done', b', rest', path', -, sub⟩ := path.mem_done mem
      obtain ⟨before, block⟩ := path'.suffix
      obtain rfl := ssa.defines_eq (List.mem_of_getElem? block) (by simp) hi defines
      obtain ⟨d, mem, defines⟩ := ssa.dominated done' b' _ rest' id path' operand
      exact ⟨d, sub d mem, defines⟩
    | br | switch | ret | unreachable | other => cases used

end Definitions

/-! ## Reads -/

section Reads

variable {dl : DataLayout} {f : Llvm.Function} {code : List SelectedBlock} {st : Selector}
variable {pieces : List (List Piece)}

/-- Some block has the code of an instruction. -/
lemma Selected.select_body (selected : Selected dl f code st pieces) {seen : List (Value × Bool)}
    (chain : PieceChain dl f [] Selector.start pieces.flatten seen st) {i : Llvm.Instruction}
    (mem : i ∈ bodyOf f) : ∃ sb ∈ code, ∃ before out after st₀ items st₁,
      sb.items = before ++ out.map (Emitted.mk (.instruction i.id)) ++ after ∧
      Selecting dl f st₀ (.inst i :: items) ∧ Grows st₁ st ∧
      selectInstruction dl f i st₀ = some ((), out, st₁) := by
  obtain ⟨bb, at_bb, mem⟩ := List.mem_flatMap.mp mem
  obtain ⟨b, block⟩ := List.mem_iff_getElem?.mp at_bb
  obtain ⟨sb, at_block⟩ := selected.exists_code block
  exact ⟨sb, List.mem_of_getElem? at_block, selected.select_instruction chain block at_block mem⟩

lemma mem_argumentItems {args : List Llvm.Argument} {n k : Nat} (lt : k < args.length) :
    ∃ arg, Item.argument (n + k) arg ∈ argumentItems n args := by
  induction args generalizing n k with
  | nil => cases lt
  | cons arg args ih =>
    cases k with
    | zero => exact ⟨arg, List.mem_cons_self⟩
    | succ k =>
      obtain ⟨arg', mem⟩ := ih (n := n + 1) (Nat.lt_of_succ_lt_succ lt)
      refine ⟨arg', List.mem_cons_of_mem _ ?_⟩
      rwa [show n + (k + 1) = n + 1 + k by omega]

/-- What a piece that was passed writes was written. -/
lemma Selected.written (selected : Selected dl f code st pieces) {ps : List Piece} {p : Piece}
    (hps : ps ∈ pieces) (hp : p ∈ ps) {done : List Emitted}
    (straight : ∀ e, ControlFlow.Straight (codeFlow (code.map SelectedBlock.name))
      p.code e → e ∈ done)
    (plain : ∀ e ∈ p.code, e.mi.op ≠ .br) {v : Value} {r : Nat} (writes : Writes p.code p.after v)
    (reg : st.valueToVReg v = some r) : ∃ e ∈ p.code, e ∈ done ∧ e.mi.writes = some r := by
  obtain ⟨spec, grows⟩ := selected.spec ps hps p hp
  obtain ⟨e, mem, r', write, reg'⟩ := writes
  obtain rfl := Option.some.inj ((grows.keeps reg').symm.trans reg)
  obtain ⟨before, after, split⟩ := List.append_of_mem mem
  refine ⟨e, mem, straight e ⟨before, after, split, fun x hx d jump => ?_⟩, write⟩
  refine plain x ?_ jump.1
  rw [split]
  obtain hx | hx := List.mem_append.mp hx
  · exact List.mem_append_left _ hx
  · obtain rfl := List.mem_singleton.mp hx
    simp

/-- The piece that an instruction of a path belongs to. -/
lemma Selected.piece_of_mem (selected : Selected dl f code st pieces)
    {ok : Nat → Option Emitted → Prop} {done rest : List Emitted} {b : Nat}
    (walk : ControlFlow.Walk (codeFlow (code.map SelectedBlock.name)) ok
      (code.map SelectedBlock.items) done b
      rest) {e : Emitted} (mem : e ∈ done) : ∃ ps ∈ pieces, ∃ p ∈ ps, e ∈ p.code := by
  obtain ⟨done', b', rest', walk', -⟩ := walk.mem_done mem
  obtain ⟨before, block⟩ := walk'.suffix
  rw [selected.blocks] at block
  obtain ⟨ps, h, split⟩ := ControlFlow.getElem?_expand block
  have mem : e ∈ ps.flatMap Piece.code := split ▸ by simp
  obtain ⟨p, hp, he⟩ := List.mem_flatMap.mp mem
  exact ⟨ps, List.mem_of_getElem? h, p, hp, he⟩

/-- The code of a terminator is not emitted for an instruction. -/
lemma CodeShape.origin_of_term {after : Selector} {t : Terminator} {code : List Emitted}
    (shape : CodeShape f after (.term t) code) {e : Emitted} (he : e ∈ code) (id : Nat) :
    e.origin ≠ .instruction id := by
  cases t with
  | br dest =>
    rw [show code = _ from shape] at he
    obtain rfl := List.mem_singleton.mp he
    exact nofun
  | condBr c s s' =>
    obtain ⟨cmp, cond, rfl, -, plain⟩ := shape
    obtain he | he := List.mem_append.mp he
    · rw [(plain e he).1]
      exact nofun
    · obtain rfl | rfl : e = _ ∨ e = _ := by simpa using he
      · exact nofun
      · exact nofun
  | ret value =>
    obtain ⟨e', rfl, origin, -⟩ := shape
    obtain rfl := List.mem_singleton.mp he
    rw [origin]
    exact nofun
  | switch | unreachable | other =>
    rw [show code = [] from shape] at he
    cases he

/-- What is written for an instruction is a result that is lowered to a register. -/
lemma Selected.produced (selected : Selected dl f code st pieces) {ps : List Piece} {p : Piece}
    (hps : ps ∈ pieces) (hp : p ∈ ps) {e : Emitted} (he : e ∈ p.code) {id : Nat}
    (origin : e.origin = .instruction id) {r : Nat} (write : e.mi.writes = some r)
    (reg : st.valueToVReg (.instruction id) = some r) : Produced f (.instruction id) := by
  obtain ⟨spec, grows⟩ := selected.spec ps hps p hp
  have shape := spec.shape
  cases item : p.item with
  | argument k arg =>
    rw [item] at shape
    rw [(shape.1 e he).1] at origin
    cases origin
  | inst i =>
    rw [item] at shape
    obtain rfl := Origin.instruction.inj ((shape.1 e he).1.symm.trans origin)
    refine ⟨i, ?_, rfl, shape.2.2.mp ⟨e, he, r, write, ?_⟩⟩
    · have hitems : ps.map Piece.item ∈ functionItems f :=
        selected.items ▸ List.mem_map_of_mem hps
      exact mem_bodyOf hitems (item ▸ List.mem_map_of_mem hp)
    · obtain reg | le := grows.new reg
      · exact reg
      · have lt := spec.writes e he r write
        omega
  | term t =>
    rw [item] at shape
    exact absurd origin (shape.origin_of_term he id)

/-- A path to a piece that uses something has passed the pieces of the arguments. -/
lemma Selected.argument_passed (selected : Selected dl f code st pieces) {passed after : List Piece}
    {b : Nat} {p : Piece} (path : ControlFlow.Path (pieceFlow runFlow) pieces passed b (p :: after))
    (used : usesOf dl f p.item ≠ []) {k : Nat} (lt : k < f.args.length) :
    ∃ q ∈ passed, ∃ arg, q.item = .argument k arg := by
  obtain ⟨arg, mem⟩ := mem_argumentItems (n := 0) lt
  rw [Nat.zero_add] at mem
  obtain ⟨ps, entry⟩ := path.entered
  obtain ⟨bb, -, same⟩ := selected.block entry
  rw [itemsOf, if_pos rfl] at same
  obtain ⟨as, rest, rfl, items, -⟩ := List.map_eq_append_iff.mp same
  have argument : ∀ a ∈ as, ∃ k arg, a.item = .argument k arg := fun a ha =>
    not_term_of_mem_argumentItems (items ▸ List.mem_map_of_mem ha)
  obtain ⟨a, ha, item⟩ := List.mem_map.mp (items ▸ mem)
  have straight : ∀ a ∈ as, ∀ d, ¬ (pieceFlow runFlow).jumps a d := by
    intro a ha d jump
    obtain ⟨k, arg, e⟩ := argument a ha
    change runFlow.jumps a.item d at jump
    rw [e] at jump
    exact jump
  obtain ⟨as', split, e⟩ | all := path.first entry straight
  · cases as' with
    | nil =>
      rw [List.append_nil] at split
      exact ⟨a, split ▸ ha, arg, item⟩
    | cons a' as' =>
      obtain ⟨rfl, -⟩ := List.cons.inj e
      obtain ⟨k, arg, e⟩ := argument p (by simp [split])
      rw [e] at used
      exact absurd rfl used
  · exact ⟨a, all a ha, arg, item⟩

/-- A path to a piece that uses the value of an instruction has passed its piece. -/
lemma Selected.inst_passed (selected : Selected dl f code st pieces) (ssa : Ssa f)
    {passed after : List Piece} {b : Nat} {p : Piece}
    (path : ControlFlow.Path (pieceFlow runFlow) pieces passed b (p :: after))
    {i : Llvm.Instruction} (hi : i ∈ bodyOf f) {m : Bool}
    (used : (.instruction i.id, m) ∈ usesOf dl f p.item) :
    ∃ q ∈ passed, q.item = .inst i := by
  have itemPath : ControlFlow.Path cfgFlow (functionItems f) (passed.map Piece.item) b
      (p.item :: after.map Piece.item) := by
    rw [← selected.items]
    refine path.map (g := Piece.item) (fun q h => ?_) fun q d h => h
    change runFlow.continues q.item at h
    cases item : q.item with
    | argument | inst => trivial
    | term t =>
      rw [item] at h
      exact h
  obtain ⟨d, mem, defines⟩ := ssa.defined itemPath used
  obtain ⟨done', b', rest', path', -⟩ := itemPath.mem_done mem
  obtain ⟨before, block⟩ := path'.suffix
  obtain rfl := ssa.defines_eq (List.mem_of_getElem? block) (by simp) hi defines
  obtain ⟨q, hq, item⟩ := List.mem_map.mp mem
  exact ⟨q, hq, item⟩

end Reads

/-- On every path that does not run past a terminator that is not lowered, the register of a value
is written for this value before it is read, exactly if the value is an argument or lowered to a
register. -/
theorem selectFunction_written {dl : DataLayout} {f : Llvm.Function} {code : List SelectedBlock}
    {st : Selector} (h : selectFunction dl f = some (code, st)) (ssa : Ssa f)
    (distinct : NamesDistinct f) {done rest : List Emitted} {b : Nat} {e : Emitted}
    (walk : ControlFlow.Walk (codeFlow (code.map SelectedBlock.name)) (Leaves f)
      (code.map SelectedBlock.items) done b (e :: rest))
    {v : Value} {origin : Origin} (origins : originOf v = some origin) {r : Nat}
    (reg : st.valueToVReg v = some r) (read : r ∈ e.mi.reads) :
    (∃ e' ∈ done, e'.origin = origin ∧ e'.mi.writes = some r) ↔ Produced f v := by
  obtain ⟨pieces, selected⟩ := selectFunction_selected h
  constructor
  · rintro ⟨e', mem, same, write⟩
    cases v with
    | instruction id =>
      obtain rfl := Option.some.inj origins
      obtain ⟨ps, hps, p, hp, he⟩ := selected.piece_of_mem walk mem
      exact selected.produced hps hp he same write reg
    | constantInt | argument | other => trivial
  · intro produced
    have follows : ControlFlow.Follows (pieceFlow runFlow) _ Piece.code pieces (Leaves f) :=
      selected.follows ssa.closed (selected.names ▸ distinct) fun _ bb e' leaves => leaves rfl bb e'
    -- the path follows a path of pieces to the piece that reads
    rw [selected.blocks] at walk
    obtain ⟨_, _, _, shadow⟩ := walk.shadow follows
    obtain ⟨passed, p, after, before, behind, path, straight, split, -, -⟩ := shadow.at_item follows
    obtain ⟨pre, block⟩ := path.suffix
    obtain ⟨m, used⟩ := selected.use_of_read (List.mem_of_getElem? block) (p := p) (by simp)
      (e := e) (by simp [split]) read reg
    -- which has passed the piece that writes
    have written : ∀ q ∈ passed, (∀ e ∈ q.code, e.origin = origin ∧ e.mi.op ≠ .br) →
        Writes q.code q.after v → ∃ e' ∈ done, e'.origin = origin ∧ e'.mi.writes = some r := by
      intro q hq plain writes
      obtain ⟨_, b', _, path', -⟩ := path.mem_done hq
      obtain ⟨pre', block'⟩ := path'.suffix
      obtain ⟨e', mem, hdone, write⟩ := selected.written (List.mem_of_getElem? block') (by simp)
        (straight q hq) (fun e he => (plain e he).2) writes reg
      exact ⟨e', hdone, (plain e' mem).1, write⟩
    have shape : ∀ q ∈ passed, CodeShape f q.after q.item q.code := by
      intro q hq
      obtain ⟨_, b', _, path', -⟩ := path.mem_done hq
      obtain ⟨pre', block'⟩ := path'.suffix
      exact (selected.spec _ (List.mem_of_getElem? block') q (by simp)).1.shape
    cases v with
    | argument k =>
      obtain rfl := Option.some.inj origins
      have hitems : (pre ++ p :: after).map Piece.item ∈ functionItems f :=
        selected.items ▸ List.mem_map_of_mem (List.mem_of_getElem? block)
      obtain ⟨q, hq, arg, item⟩ := selected.argument_passed path (List.ne_nil_of_mem used)
        (ssa.argument_lt hitems (by simp) used)
      have shape := item ▸ shape q hq
      exact written q hq (fun e he => ⟨(shape.1 e he).1, (shape.1 e he).2.1⟩) shape.2
    | instruction id =>
      obtain rfl := Option.some.inj origins
      obtain ⟨i, hi, rfl, lowered⟩ := produced
      obtain ⟨q, hq, item⟩ := selected.inst_passed ssa path hi used
      have shape := item ▸ shape q hq
      exact written q hq shape.1 (shape.2.2.mpr lowered)
    | constantInt | other => cases origins

/-! ## A local variable -/

/-- Stores what its argument points to into a local variable. -/
def storesLocal : Llvm.Function where
  args := [{ name := "p".toList, ty := .ptr }]
  blocks := [{
    name := "entry".toList
    body := [⟨0, .alloca (.constantInt 32 1)⟩, ⟨1, .load (.int 32) (.argument 0)⟩,
      ⟨2, .store (.int 32) (.instruction 1) (.instruction 0)⟩]
    terminator := .ret none }]

lemma storesLocal_ssa : Ssa storesLocal := by
  refine ⟨by decide, by decide, ?_, ?_, ?_⟩
  · rintro bb mem id e
    obtain rfl := List.mem_singleton.mp mem
    cases e
  · simp [functionItems, itemsOf, argumentItems, Item.operands, Llvm.Operation.operands,
      Terminator.operands, storesLocal]
  · intro done b a rest id path mem
    have split := ControlFlow.Walk.single (F := cfgFlow) (by simp [cfgFlow, itemsOf, argumentItems,
      storesLocal, Terminator.successors]) path
    rcases done with _ | ⟨d₀, _ | ⟨d₁, _ | ⟨d₂, _ | ⟨d₃, _ | ⟨d₄, done⟩⟩⟩⟩⟩ <;>
      simp [itemsOf, argumentItems, storesLocal] at split
    · obtain ⟨rfl, -⟩ := split
      cases mem
    · obtain ⟨-, rfl, -⟩ := split
      simp [Item.operands, Llvm.Operation.operands] at mem
    · obtain ⟨-, -, rfl, -⟩ := split
      simp [Item.operands, Llvm.Operation.operands] at mem
    · obtain ⟨-, rfl, rfl, rfl, -⟩ := split
      obtain rfl | rfl : id = 1 ∨ id = 0 := by
        simpa [Item.operands, Llvm.Operation.operands] using mem
      · exact ⟨.inst ⟨1, .load (.int 32) (.argument 0)⟩, by simp, rfl⟩
      · exact ⟨.inst ⟨0, .alloca (.constantInt 32 1)⟩, by simp, rfl⟩
    · obtain ⟨-, -, -, -, rfl, -⟩ := split
      cases mem

/-- The selected code, with the state after the selection. -/
def storesLocalCode : List SelectedBlock × Selector :=
  (selectFunction words storesLocal).getD ([], Selector.start)

/-- The code before the store, and the store with the code after it. -/
def storesLocalSteps : List Emitted × List Emitted :=
  (storesLocalCode.1.flatMap SelectedBlock.items).splitAt 3

lemma storesLocal_walk : ControlFlow.Walk (codeFlow (storesLocalCode.1.map SelectedBlock.name))
    (Leaves storesLocal) (storesLocalCode.1.map SelectedBlock.items) storesLocalSteps.1 0
    storesLocalSteps.2 := by
  have plain : ∀ e ∈ storesLocalSteps.1, e.mi.op ≠ .br ∧ e.mi.op ≠ .exit := by decide
  have start : ControlFlow.Walk (codeFlow (storesLocalCode.1.map SelectedBlock.name))
    (Leaves storesLocal)
    (storesLocalCode.1.map SelectedBlock.items) [] 0 (storesLocalSteps.1 ++ storesLocalSteps.2) :=
    .entry rfl
  exact start.run fun e he => ⟨nofun, continues_of_plain (plain e he).1 (plain e he).2⟩

/-- What the store writes to memory was loaded into its register before. -/
theorem selectFunction_written_store :
    ∃ e ∈ storesLocalSteps.1, e.origin = .instruction 1 ∧ e.mi.writes = some 4 :=
  (selectFunction_written (v := .instruction 1) (show selectFunction words storesLocal =
    some storesLocalCode from rfl) storesLocal_ssa (by decide) storesLocal_walk
      rfl rfl (by decide)).mpr
    ⟨⟨1, .load (.int 32) (.argument 0)⟩, by decide, rfl, rfl⟩

/-- The address that the store uses is never written. -/
theorem selectFunction_unwritten :
    ¬ ∀ (dl : DataLayout) (f : Llvm.Function) (code : List SelectedBlock) (st : Selector),
      selectFunction dl f = some (code, st) → Ssa f → NamesDistinct f →
      ∀ (done rest : List Emitted) (b : Nat) (e : Emitted),
        ControlFlow.Path (codeFlow (code.map SelectedBlock.name))
          (code.map SelectedBlock.items) done b (e :: rest) →
        ∀ (v : Value) (origin : Origin) (r : Nat), originOf v = some origin →
          st.valueToVReg v = some r → r ∈ e.mi.reads →
          ∃ e' ∈ done, e'.origin = origin ∧ e'.mi.writes = some r := by
  intro h
  obtain ⟨e, mem, origin, -⟩ := h words storesLocal storesLocalCode.1 storesLocalCode.2 rfl
    storesLocal_ssa (by decide) storesLocalSteps.1 _ 0
      _ (storesLocal_walk.mono fun _ _ _ => trivial)
    (.instruction 0) (.instruction 0) 3 rfl rfl (by decide)
  revert e
  decide

end FpgaGpu

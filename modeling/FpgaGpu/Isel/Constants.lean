import FpgaGpu.Isel.Definitions

/-!
# Constants that are loaded before they are read

The map from constants to registers is shared by the blocks and filled in layout order: the first
use of a constant in layout order gives it its register, and is the only one that can load it.
-/

namespace FpgaGpu

open Llvm (Value)

/-- Every path to a read of the register of a nonzero constant passes the instruction that loads
it. -/
def ConstantsLoaded (code : List SelectedBlock) (st : Selector) : Prop :=
  ∀ done b e rest, ControlFlow.Path (codeFlow (code.map SelectedBlock.name))
    (code.map SelectedBlock.items)
      done b (e :: rest) →
    ∀ (w : Nat) (bits : BitVec w) (r : Nat), bits ≠ 0 →
      st.valueToVReg (.constantInt w bits) = some r → r ∈ e.mi.reads →
      ∃ e' ∈ done, e'.mi = loadConstant r bits

/-- The flow of the items of a function. -/
def markedFlow : ControlFlow Marked where
  continues m := runFlow.continues m.item
  jumps m := runFlow.jumps m.item

/-- Every path to a use of a nonzero constant has come to its first use in layout order, which is
one that loads constants. -/
def FirstUsesLoad (dl : DataLayout) (f : Llvm.Function) : Prop :=
  ∀ done b a rest, ControlFlow.Path markedFlow (markedItems dl f) done b (a :: rest) →
    ∀ (w : Nat) (bits : BitVec w) (m : Bool), bits ≠ 0 →
      (.constantInt w bits, m) ∈ usesOf dl f a.item →
      ∃ x ∈ done ++ [a], firstUse (.constantInt w bits) x.seen = none ∧
        firstUse (.constantInt w bits) (usesOf dl f x.item) = some true

/-! ## Pieces -/

section Constants

variable {dl : DataLayout} {f : Llvm.Function} {code : List SelectedBlock} {st : Selector}
variable {pieces : List (List Piece)} {names : List Text}

/-- What uses operands is not `EXIT`. -/
lemma exits_of_mem_uses {i : Llvm.Instruction} {u : Value × Bool} (h : u ∈ uses dl f i) :
    exits i.operation = false := by
  obtain ⟨id, operation⟩ := i
  cases operation with
  | call callee args =>
    cases callee with
    | inlineAsm asmString =>
      unfold uses at h
      unfold exits
      dsimp only at h ⊢
      cases form : asmForm (lower asmString) with
      | exit => simp [form] at h
      | s2r | sync | ssy | ldr | str | unknown => rfl
    | function name => cases h
    | indirect operand => rfl
  | _ => rfl

/-- Control comes to what reads or writes a register from the start of its piece. -/
lemma Spec.reaches {p : Piece} (spec : Spec dl f p) (used : usesOf dl f p.item ≠ []) {e : Emitted}
    (he : e ∈ p.code) (plain : e.mi.op ≠ .br) : ∃ before after, p.code = before ++ e :: after ∧
      ∀ x ∈ before ++ [e], x.mi.op ≠ .br ∧ x.mi.op ≠ .exit := by
  have shape := spec.shape
  have all : (∀ x ∈ p.code, x.mi.op ≠ .br ∧ x.mi.op ≠ .exit) →
      ∃ before after, p.code = before ++ e :: after ∧
        ∀ x ∈ before ++ [e], x.mi.op ≠ .br ∧ x.mi.op ≠ .exit := by
    intro h
    obtain ⟨before, after, split⟩ := List.append_of_mem he
    refine ⟨before, after, split, fun x hx => h x ?_⟩
    rw [split]
    simpa [or_assoc] using List.mem_append_left after hx
  cases item : p.item with
  | argument k arg =>
    rw [item] at used
    exact absurd rfl used
  | inst i =>
    rw [item] at shape used
    obtain ⟨u, mem⟩ := List.exists_mem_of_ne_nil _ used
    refine all fun x hx => ⟨(shape.1 x hx).2, fun exit => ?_⟩
    have stop := shape.2.1.mp ⟨x, hx, exit⟩
    rw [exits_of_mem_uses mem] at stop
    cases stop
  | term t =>
    rw [item] at shape used
    -- the comparison comes before both branches
    cases t with
    | condBr c s s' =>
      obtain ⟨cmp, cond, split, -, h⟩ := shape
      rw [split] at he
      obtain he | he := List.mem_append.mp he
      · obtain ⟨before, after, rfl⟩ := List.append_of_mem he
        refine ⟨before, _, by rw [split, List.append_assoc]; rfl, fun x hx => ?_⟩
        exact (h x (by simpa [or_assoc] using List.mem_append_left after hx)).2
      · obtain rfl | rfl : e = _ ∨ e = _ := by simpa using he
        · exact absurd rfl plain
        · exact absurd rfl plain
    | br | switch | ret | unreachable | other => exact absurd rfl used

/-- A register that a piece reads or writes was given out by its end. -/
lemma Selected.reg_of_lt (selected : Selected dl f code st pieces) {ps : List Piece} {p : Piece}
    (hps : ps ∈ pieces) (hp : p ∈ ps) {v : Value} {r : Nat} (reg : st.valueToVReg v = some r)
    (lt : r < p.after.nextVReg) : p.after.valueToVReg v = some r := by
  obtain reg | le := (selected.spec ps hps p hp).2.new reg
  · exact reg
  · omega

/-- Items are marked as their pieces are. -/
lemma Selected.marked_path (selected : Selected dl f code st pieces)
    {done rest : List Piece} {b : Nat}
    (path : ControlFlow.Path (pieceFlow runFlow) pieces done b rest) :
    ControlFlow.Path markedFlow (markedItems dl f)
      (done.map Piece.mark) b (rest.map Piece.mark) := by
  rw [← selected.marks]
  exact path.map (g := Piece.mark) (fun _ h => h) fun _ _ h => h

/-- A piece that has the first use of a constant, which loads it, loads it where it is straight. -/
lemma Selected.loaded (selected : Selected dl f code st pieces) {ps : List Piece} {p : Piece}
    (hps : ps ∈ pieces) (hp : p ∈ ps) {w : Nat} {bits : BitVec w} (nonzero : bits ≠ 0) {r : Nat}
    (reg : st.valueToVReg (.constantInt w bits) = some r)
    (first : firstUse (.constantInt w bits) p.seen = none)
    (load : firstUse (.constantInt w bits) (usesOf dl f p.item) = some true) :
    p.before.valueToVReg (.constantInt w bits) = none ∧
      p.after.valueToVReg (.constantInt w bits) = some r ∧
      ∃ e, ControlFlow.Straight (codeFlow names) p.code e ∧ e.mi = loadConstant r bits := by
  obtain ⟨spec, grows⟩ := selected.spec ps hps p hp
  have nonzero : isZero (.constantInt w bits) = false := decide_eq_false nonzero
  have new := (selected.seen (.constantInt w bits) rfl nonzero ps hps p hp).mpr first
  have loading := spec.loading (.constantInt w bits) rfl nonzero
  obtain ⟨r', reg'⟩ : ∃ r', p.after.valueToVReg (.constantInt w bits) = some r' := by
    rw [← Option.isSome_iff_exists, Option.isSome_iff_ne_none]
    intro none
    rw [(loading.none_iff.mp none).2] at load
    cases load
  obtain rfl := Option.some.inj ((grows.keeps reg').symm.trans reg)
  refine ⟨new, reg', ?_⟩
  obtain ⟨mi, mem, loads⟩ := loading.loaded new load r' reg'
  obtain ⟨e, he, rfl⟩ := List.mem_map.mp mem
  have used : usesOf dl f p.item ≠ [] := by
    intro empty
    rw [empty] at load
    cases load
  have plain : e.mi.op ≠ .br := by
    rw [(writes_of_mem_loads loads).2.2]
    decide
  obtain ⟨before, after, split, all⟩ := spec.reaches used he plain
  exact ⟨e, ⟨before, after, split, fun x hx d jump => (all x hx).1 jump.1⟩,
    List.mem_singleton.mp loads⟩

/-- If every first use that a path needs loads its constant, the path has loaded what it reads. -/
theorem Selected.constants_loaded (selected : Selected dl f code st pieces) (closed : f.Closed)
    (distinct : NamesDistinct f) (lowered : ∀ bb ∈ f.blocks, isLowered bb.terminator = true)
    (h : FirstUsesLoad dl f) : ConstantsLoaded code st := by
  intro done b e rest path w bits r nonzero reg read
  have follows : ControlFlow.Follows (pieceFlow runFlow) _ Piece.code pieces (fun _ _ => True) :=
    selected.follows closed (selected.names ▸ distinct)
      fun _ bb e' _ => lowered bb (List.mem_of_getElem? e')
  rw [selected.blocks] at path
  obtain ⟨_, _, _, shadow⟩ := path.shadow follows
  obtain ⟨passed, p, after, before, behind, path, straight, split, -, all⟩ := shadow.at_item follows
  obtain ⟨pre, block⟩ := path.suffix
  have hps := List.mem_of_getElem? block
  obtain ⟨m, used⟩ := selected.use_of_read hps (p := p) (by simp) (e := e)
    (by simp [split]) read reg
  obtain ⟨x, hx, first, load⟩ := h _ b _ _ (selected.marked_path path) w bits m nonzero used
  obtain hx | hx := List.mem_append.mp hx
  · -- an item that the path has passed loads it
    obtain ⟨q, hq, rfl⟩ := List.mem_map.mp hx
    obtain ⟨_, b', _, path', -⟩ := path.mem_done hq
    obtain ⟨pre', block'⟩ := path'.suffix
    obtain ⟨-, -, e', he', mi⟩ :=
      selected.loaded (List.mem_of_getElem? block') (by simp) nonzero reg
      first load
    exact ⟨e', straight q hq e' he', mi⟩
  · -- the item that reads loads it first
    obtain rfl := List.mem_singleton.mp hx
    obtain ⟨new, reg', -⟩ :=
      @Selected.loaded _ _ _ _ _ [] selected _ p hps (by simp) _ _ nonzero _ reg
      first load
    have loading := (selected.spec _ hps p (by simp)).1.loading (.constantInt w bits) rfl
      (decide_eq_false nonzero)
    obtain ⟨mi, mem, loads⟩ := loading.before new load r (before.map Emitted.mi) e.mi
      (behind.map Emitted.mi) reg' (by simp [split]) read
    obtain ⟨e', he', rfl⟩ := List.mem_map.mp mem
    exact ⟨e', (all e' he').1, List.mem_singleton.mp loads⟩

/-- If every path has loaded what it reads, every first use that it needs loads its constant. -/
theorem Selected.first_uses_load (selected : Selected dl f code st pieces) (closed : f.Closed)
    (lowered : ∀ bb ∈ f.blocks, isLowered bb.terminator = true) (h : ConstantsLoaded code st) :
    FirstUsesLoad dl f := by
  intro done b a rest marked w bits m nonzero used
  rw [← selected.marks] at marked
  obtain ⟨done, _, path, rfl, e⟩ := marked.lift (g := Piece.mark) (F := pieceFlow runFlow)
    (fun _ h => h) fun _ _ h => h
  obtain ⟨p, after, rfl, rfl, rfl⟩ := List.map_eq_cons_iff.mp e.symm
  obtain ⟨pre, block⟩ := path.suffix
  have hps := List.mem_of_getElem? block
  obtain ⟨spec, grows⟩ := selected.spec _ hps p (by simp)
  -- the use is read, and control comes there
  obtain ⟨e, he, r, read, reg⟩ := spec.used _ used
  have nonzero' : isZero (.constantInt w bits) = false := decide_eq_false nonzero
  simp only [Selector.regOf, nonzero', Bool.false_eq_true, if_false] at reg
  have plain : e.mi.op ≠ .br := by
    intro branch
    simp [Instruction.reads, branch, Opcode.usesRs1, Opcode.usesRs2] at read
  obtain ⟨before, behind, split, all⟩ := spec.reaches (List.ne_nil_of_mem used) he plain
  obtain ⟨passed, codePath, sub⟩ := ControlFlow.Walk.expand (selected.leads lowered closed) path
  rw [← selected.blocks, List.flatMap_cons, split, List.append_assoc] at codePath
  have here := codePath.run fun x hx => ⟨trivial, continues_of_plain
    (all x (List.mem_append_left _ hx)).1 (all x (List.mem_append_left _ hx)).2⟩
  obtain ⟨e', mem, load⟩ := h _ b e _ here w bits r nonzero (grows.keeps reg) read
  -- what loads it is in a piece that has its first use
  have first : ∀ ps ∈ pieces, ∀ q ∈ ps, e' ∈ q.code →
      firstUse (.constantInt w bits) q.seen = none ∧
        firstUse (.constantInt w bits) (usesOf dl f q.item) = some true := by
    intro ps hps q hq he'
    obtain ⟨spec', -⟩ := selected.spec ps hps q hq
    have reg' := selected.reg_of_lt hps hq (grows.keeps reg)
      (spec'.writes e' he' r (by rw [load]; rfl))
    obtain ⟨new, first⟩ := (spec'.loading (.constantInt w bits) rfl nonzero').only r e'.mi reg'
      (List.mem_map_of_mem he') (load ▸ List.mem_singleton.mpr rfl)
    exact ⟨(selected.seen _ rfl nonzero' ps hps q hq).mp new, first⟩
  obtain mem | mem := List.mem_append.mp mem
  · obtain ⟨q, hq, he'⟩ := sub e' mem
    obtain ⟨_, b', _, path', -⟩ := path.mem_done hq
    obtain ⟨pre', block'⟩ := path'.suffix
    exact ⟨q.mark, List.mem_append_left _ (List.mem_map_of_mem hq),
      first _ (List.mem_of_getElem? block') q (by simp) he'⟩
  · exact ⟨p.mark, by simp, first _ hps p (by simp) (by simp [split, mem])⟩

end Constants

/-- Every constant is loaded before it is read exactly if every path to a use of it comes to its
first use in layout order, and that one loads constants. -/
theorem selectFunction_constantsLoaded_iff {dl : DataLayout} {f : Llvm.Function}
    {code : List SelectedBlock} {st : Selector} (h : selectFunction dl f = some (code, st))
    (closed : f.Closed) (distinct : NamesDistinct f)
    (lowered : ∀ bb ∈ f.blocks, isLowered bb.terminator = true) :
    ConstantsLoaded code st ↔ FirstUsesLoad dl f := by
  obtain ⟨pieces, selected⟩ := selectFunction_selected h
  exact ⟨selected.first_uses_load closed lowered, selected.constants_loaded closed distinct lowered⟩

/-! ## A constant of one arm -/

/-- Stores 5 in one arm of a branch, and again where the arms meet. -/
def storesTwice : Llvm.Function where
  args := [{ name := "c".toList, ty := .int 1 }, { name := "p".toList, ty := .ptr }]
  blocks := [
    { name := "entry".toList, body := [], terminator := .condBr (.argument 0) 1 2 },
    { name := "arm".toList
      body := [⟨0, .store (.int 32) (.constantInt 32 5) (.argument 1)⟩]
      terminator := .br 2 },
    { name := "join".toList
      body := [⟨1, .store (.int 32) (.constantInt 32 5) (.argument 1)⟩]
      terminator := .ret none }]

/-- The selected code, with the state after the selection. -/
def storesTwiceCode : List SelectedBlock × Selector :=
  (selectFunction words storesTwice).getD ([], Selector.start)

/-- The path that leaves the arm out reads 5 and has not loaded it. -/
lemma storesTwice_unloaded : ¬ ConstantsLoaded storesTwiceCode.1 storesTwiceCode.2 := by
  intro h
  let entry : List Emitted := (storesTwiceCode.1.flatMap SelectedBlock.items).take 6
  have plain : ∀ e ∈ entry.take 4, e.mi.op ≠ .br ∧ e.mi.op ≠ .exit := by decide
  have start : ControlFlow.Path (codeFlow (storesTwiceCode.1.map SelectedBlock.name))
    (storesTwiceCode.1.map SelectedBlock.items) [] 0 (entry.take 4 ++ entry.drop 4) := .entry rfl
  have arguments := start.run fun e he =>
    ⟨trivial, continues_of_plain (plain e he).1 (plain e he).2⟩
  have past := arguments.next trivial ⟨0, by decide⟩
  have join := past.jump (d := 2) trivial ⟨rfl, ⟨0, by decide⟩, rfl⟩ rfl
  obtain ⟨e, mem, load⟩ := h _ 2 _ _ join 32 5 5 (by decide) rfl (by decide)
  revert e
  decide

/-- Stores 5. -/
def storesOnce : Llvm.Function where
  args := [{ name := "p".toList, ty := .ptr }]
  blocks := [
    { name := "entry".toList
      body := [⟨0, .store (.int 32) (.constantInt 32 5) (.argument 0)⟩]
      terminator := .ret none }]

/-- The selected code, with the state after the selection. -/
def storesOnceCode : List SelectedBlock × Selector :=
  (selectFunction words storesOnce).getD ([], Selector.start)

/-- Every use of a constant is its first one. -/
lemma storesOnce_first : FirstUsesLoad words storesOnce := by
  intro done b a rest path w bits m nonzero used
  have first : ∀ block ∈ markedItems words storesOnce, ∀ a ∈ block,
      ∀ u ∈ usesOf words storesOnce a.item, isConstantInt u.1 = true →
        firstUse u.1 a.seen = none ∧ firstUse u.1 (usesOf words storesOnce a.item) = some true := by
    decide
  obtain ⟨before, block⟩ := path.suffix
  exact ⟨a, List.mem_append_right _ List.mem_cons_self,
    first _ (List.mem_of_getElem? block) a (by simp) _ used rfl⟩

/-- The path that leaves the arm out has not come to a first use of 5. A function that stores 5 once
loads it. -/
theorem selectFunction_constantsLoaded_twice :
    ¬ FirstUsesLoad words storesTwice ∧ ConstantsLoaded storesOnceCode.1 storesOnceCode.2 := by
  constructor
  · intro first
    have select : selectFunction words storesTwice = some storesTwiceCode := rfl
    exact storesTwice_unloaded
      ((selectFunction_constantsLoaded_iff select (by decide) (by decide) (by decide)).mpr first)
  · have select : selectFunction words storesOnce = some storesOnceCode := rfl
    exact (selectFunction_constantsLoaded_iff select (by decide) (by decide) (by decide)).mpr
      storesOnce_first

/-- Not every function loads its constants before it reads them. -/
theorem selectFunction_unloaded :
    ¬ ∀ (dl : DataLayout) (f : Llvm.Function) (code : List SelectedBlock) (st : Selector),
      selectFunction dl f = some (code, st) → f.Closed → NamesDistinct f →
      (∀ bb ∈ f.blocks, isLowered bb.terminator = true) → ConstantsLoaded code st := fun h =>
  storesTwice_unloaded (h words storesTwice _ _ rfl (by decide) (by decide) (by decide))

end FpgaGpu

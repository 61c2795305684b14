import FpgaGpu.Isel.Contents
import FpgaGpu.Isel.Kernel
import Mathlib.Data.Fintype.Card

/-!
# The selected code of a kernel computes what the kernel does

The registers of the values hold them after every item: after each argument, and after each
instruction of the block.
-/

namespace FpgaGpu

open Llvm (Value)
open Emission (bind_eq_some mapItems_eq_some)

section Simulation

variable {hw : Hardware} {dl : DataLayout} {f : Llvm.Function} {n : Nat} {defined : List Nat}
variable {ir : Llvm.State hw} {st st' : Selector} {written : Nat → Prop} {s : Thread hw Nat}
variable {out : List (Instruction Nat)}

/-- The thread holds the values of the first `n` arguments, of the results `defined`, and of the
constants that have a register. -/
structure Simulates (n : Nat) (defined : List Nat) (ir : Llvm.State hw) (st : Selector)
    (written : Nat → Prop) (s : Thread hw Nat) : Prop where
  valid : st.Valid
  mem : s.mem = ir.mem
  values : ∀ v r, st.valueToVReg v = some r → s.regs r = ir.word v ∧ written r
  arguments : ∀ k < n, ∃ r, st.valueToVReg (.argument k) = some r
  known : ir.Known defined
  results : ∀ id ∈ defined, ∃ r, st.valueToVReg (.instruction id) = some r

/-- What is pushed for `own` leaves the memory `mem'` and the result `x`, and keeps the other
values. -/
structure Computed (ir : Llvm.State hw) (own : Value) (st : Selector) (written : Nat → Prop)
    (s : Thread hw Nat) (out : List (Instruction Nat)) (st' : Selector) (mem' : hw.Mem)
    (x : Option Word) : Prop where
  valid : st'.Valid
  grows : Grows st st'
  reads : ReadsWritten written out
  mem : (executeAll s out).mem = mem'
  keeps : ∀ v r, st'.valueToVReg v = some r → (v = own ∧ x ≠ none) ∨
    ((executeAll s out).regs r = ir.word v ∧ WrittenBy written out r)
  result : ∀ y, x = some y → ∃ r, st'.valueToVReg own = some r ∧
    (executeAll s out).regs r = y ∧ WrittenBy written out r

lemma Usable.available (sim : Simulates n defined ir st written s) {u : Value × Bool}
    (h : Usable n defined u) : Available st u := by
  obtain ⟨v, m⟩ := u
  obtain operand | ⟨constant, -, rfl⟩ := h
  · cases v with
    | argument k => exact .inr (.inl (sim.arguments k operand))
    | instruction id => exact .inr (.inl (sim.results id operand))
    | constantInt | other => cases operand
  · exact .inr (.inr ⟨constant, rfl⟩)

/-- What loads an operand fits its field. -/
lemma Usable.simple {u : Value × Bool} (h : Usable n defined u) (r : Nat) (mi : Instruction Nat)
    (mem : mi ∈ loads u.2 r u.1) : mi.Simple := by
  obtain ⟨v, m⟩ := u
  cases v with
  | constantInt w bits =>
    obtain operand | ⟨-, small, rfl⟩ := h
    · cases operand
    · obtain rfl := List.mem_singleton.mp mem
      exact simple_loadConstant small r
  | argument | instruction | other => cases mem

/-- One handler. -/
lemma Simulates.run (sim : Simulates n defined ir st written s) {own : Value}
    (inst : isConstantInt own = false) {us : List (Value × Bool)}
    {steps : List PlanStep} {mem' : hw.Mem} {x : Option Word}
    (yields : Yields ir.word ir.mem us steps mem' x) (notUsed : ∀ u ∈ us, u.1 ≠ own)
    (usable : ∀ u ∈ us, Usable n defined u) (h : runSteps own [] steps st = some ((), out, st')) :
    Computed ir own st written s out st' mem' x := by
  obtain ⟨uses, wf, init, stores, result, silent⟩ := yields
  subst uses
  have sub : ∀ u ∈ stepUses steps, u.1 ∈ (stepUses steps).map Prod.fst :=
    fun u mem => List.mem_map_of_mem mem
  have off : own ∉ (stepUses steps).map Prod.fst := by
    intro mem
    obtain ⟨u, hu, rfl⟩ := List.mem_map.mp mem
    exact notUsed u hu rfl
  have ran := runSteps_ran sim.valid inst .nil wf sub h
  have start : Tracks ir.word own written [] [] [] st s (.blank ir.mem) :=
    ⟨sim.mem, fun v r e => .inr (sim.values v r e), nofun, nofun,
      fun j k hj => by obtain hj | hj := hj <;> cases j <;> cases hj⟩
  obtain ⟨reads, regs, held, tracks⟩ := runSteps_tracks sim.valid
    ((constantsValued_word ir).new st) inst off .nil start wf init sub
    (fun u mem => .inl ((usable u mem).available sim)) h
  refine ⟨ran.handled.valid, ran.handled.grows, reads, tracks.mem.trans stores, fun v r e => ?_,
    fun y e => ?_⟩
  · refine (tracks.values v r e).imp_left fun ⟨same, asked⟩ => ⟨same, fun none => ?_⟩
    have off := silent none
    rw [List.contains_eq_mem, decide_eq_false_iff_not] at off
    exact off asked
  · obtain ⟨k, slot, defined, read⟩ := result y e
    have reg := holds_regAt held slot
    have pos := (ran.handled.valid.range reg).1
    obtain ⟨same, write⟩ := tracks.positions k (by simpa using defined)
    refine ⟨_, reg, ?_, write.resolve_left (by omega)⟩
    rw [← read_of_pos pos]
    exact same.trans read

/-! ## Arguments -/

lemma simple_argument {k : Nat} (lt : k < 1024) (arg : Llvm.Argument) (mi : Instruction Nat)
    (mem : .emit mi ∈ argumentSteps k arg) : mi.Simple := by
  simp only [argumentSteps, List.mem_cons, reduceCtorEq, PlanStep.emit.injEq, List.not_mem_nil,
    or_false, false_or] at mem
  obtain rfl | rfl := mem
  · refine ⟨⟨nofun, nofun, nofun⟩, rfl, fun _ => ?_⟩
    show -8192 ≤ (BitVec.ofNat 32 (k * 8)).toInt ∧ (BitVec.ofNat 32 (k * 8)).toInt < 8192
    rw [BitVec.toInt_eq_toNat_cond, BitVec.toNat_ofNat, Nat.mod_eq_of_lt (by omega)]
    split <;> omega
  · exact simple_of_no_imm ⟨nofun, nofun, nofun⟩ rfl rfl

/-- The prologue loads one more argument. -/
lemma Simulates.argument (sim : Simulates n [] ir st written s) (arg : Llvm.Argument)
    (stored : hw.load ir.mem (BitVec.ofNat 32 (n * 8)) = ir.args n)
    (h : loadArgument n arg st = some ((), out, st')) :
    ReadsWritten written out ∧
      Simulates (n + 1) [] ir st' (WrittenBy written out) (executeAll s out) ∧
      (n < 1024 → ∀ mi ∈ out, mi.Simple) := by
  have h : runSteps (.argument n) [] (argumentSteps n arg) st = some ((), out, st') := h
  have computed : Computed ir (.argument n) st written s out st' _ _ :=
    sim.run rfl (yields_argument ir.word ir.mem n arg) nofun nofun h
  refine ⟨computed.reads, ⟨computed.valid, computed.mem, fun v r e => ?_, fun k lt => ?_, nofun,
    nofun⟩, fun lt => runSteps_all (fun φ mi => .mapRegs φ) (simple_argument lt arg) nofun h⟩
  · obtain ⟨rfl, -⟩ | old := computed.keeps v r e
    · obtain ⟨r', e', same, write⟩ := computed.result _ rfl
      obtain rfl := Option.some.inj (e'.symm.trans e)
      exact ⟨same.trans stored, write⟩
    · exact old
  · obtain lt | rfl := Nat.lt_succ_iff_lt_or_eq.mp lt
    · obtain ⟨r, e⟩ := sim.arguments k lt
      exact ⟨r, computed.grows.keeps e⟩
    · obtain ⟨r, e, -⟩ := computed.result _ rfl
      exact ⟨r, e⟩

/-- The instructions of emitted items. -/
abbrev instructionsOf (items : List Emitted) : List (Instruction Nat) := items.map Emitted.mi

/-- The whole prologue. -/
lemma Simulates.prologue {args : List Llvm.Argument} (sim : Simulates n [] ir st written s)
    (stored : ∀ k, n ≤ k → k < n + args.length →
      hw.load ir.mem (BitVec.ofNat 32 (k * 8)) = ir.args k) :
    ∃ items st', FpgaGpu.prologue n args st = some ((), items, st') ∧
      ReadsWritten written (instructionsOf items) ∧
      Simulates (n + args.length) [] ir st' (WrittenBy written (instructionsOf items))
        (executeAll s (instructionsOf items)) ∧
      (n + args.length ≤ 1024 → ∀ mi ∈ instructionsOf items, mi.Simple) := by
  induction args generalizing n st written s with
  | nil => exact ⟨[], st, rfl, trivial, by simpa [executeAll] using sim, by simp⟩
  | cons arg args ih =>
    obtain ⟨out, st₁, select⟩ : ∃ out st₁, loadArgument n arg st = some ((), out, st₁) :=
      runSteps_total (.argument n) [] (argumentSteps n arg) st
    obtain ⟨reads, sim₁, simple⟩ := sim.argument arg (stored n (Nat.le_refl n) (by simp)) select
    obtain ⟨items, st', rest, reads', sim', simple'⟩ := ih sim₁ fun k le lt =>
      stored k (by omega) (by rw [List.length_cons]; omega)
    refine ⟨out.map (Emitted.mk (.argument n)) ++ items, st',
      bind_eq_some.mpr ⟨(), _, st₁, items, mapItems_eq_some.mpr ⟨out, select, rfl⟩, rest, rfl⟩, ?_⟩
    rw [instructionsOf, List.map_append, map_mi_mk, ← instructionsOf]
    rw [writtenBy_append, ← executeAll_append, Nat.add_assoc, Nat.add_comm 1] at sim'
    refine ⟨reads.append reads', sim', fun le => ?_⟩
    rw [List.length_cons] at le
    exact List.forall_mem_append.mpr ⟨simple (by omega), simple' (by omega)⟩

/-! ## Instructions -/

lemma word_leave {id : Nat} {mem' : hw.Mem} {x : Option Word} {v : Value}
    (h : v ≠ .instruction id ∨ x = none) : (ir.leave id mem' x).word v = ir.word v := by
  cases x with
  | none => cases v <;> rfl
  | some y =>
    have ne : v ≠ .instruction id := h.resolve_right nofun
    cases v with
    | instruction id' =>
      have ne' : id' ≠ id := fun e => ne (congrArg _ e)
      simp [Llvm.State.leave, Llvm.State.define, Llvm.State.word, Function.update_of_ne ne']
    | constantInt | argument | other => rfl

/-- One instruction of the block. -/
lemma Simulates.step {i : Llvm.Instruction} (lawful : dl.Lawful)
    (sim : Simulates n defined ir st written s)
    (operation : KernelOperation dl n defined i.operation) (new : i.id ∉ defined) :
    ∃ out st' ir', selectInstruction dl f i st = some ((), out, st') ∧
      Llvm.execute dl.typeAllocSize ir i = some ir' ∧ ReadsWritten written out ∧
      Simulates n (definedAfter i defined) ir' st' (WrittenBy written out) (executeAll s out) ∧
      ∀ mi ∈ out, mi.Simple := by
  obtain ⟨steps, mem', x, lowered⟩ := operation.lowered lawful sim.known f
  obtain ⟨out, st', run⟩ := runSteps_total (.instruction i.id) [] steps st
  have notUsed : ∀ u ∈ uses dl f i, u.1 ≠ .instruction i.id := by
    rintro ⟨v, m⟩ mem rfl
    obtain operand | ⟨constant, -⟩ := lowered.usable _ mem
    · exact new operand
    · cases constant
  have computed := sim.run rfl lowered.yields notUsed lowered.usable run
  have loaded : ∀ u ∈ stepUses steps, ∀ r, ∀ mi ∈ loads u.2 r u.1, mi.Simple := by
    rw [lowered.yields.uses]
    intro u mem
    exact (lowered.usable u mem).simple
  refine ⟨out, st', _, lowered.select ▸ run, lowered.execute, computed.reads, ⟨computed.valid, ?_,
    fun v r e => ?_, fun k lt => ?_, fun id mem => ?_, fun id mem => ?_⟩,
    runSteps_all (fun φ mi => .mapRegs φ) lowered.simple loaded run⟩
  · rw [computed.mem]
    cases x <;> rfl
  -- a value other than that of the instruction keeps its word and its register
  · by_cases result : v = .instruction i.id ∧ x ≠ none
    · obtain ⟨rfl, some⟩ := result
      obtain ⟨y, rfl⟩ := Option.ne_none_iff_exists'.mp some
      obtain ⟨r', e', same, write⟩ := computed.result y rfl
      obtain rfl := Option.some.inj (e'.symm.trans e)
      refine ⟨same.trans ?_, write⟩
      simp [Llvm.State.leave, Llvm.State.define, Llvm.State.word]
    · rw [word_leave (by tauto)]
      exact (computed.keeps v r e).resolve_left result
  · obtain ⟨r, e⟩ := sim.arguments k lt
    exact ⟨r, computed.grows.keeps e⟩
  · cases x with
    | none =>
      rw [definedAfter, lowered.produces] at mem
      exact sim.known id mem
    | some y =>
      rw [definedAfter, lowered.produces] at mem
      by_cases same : id = i.id
      · exact ⟨y, by simp [Llvm.State.leave, Llvm.State.define, same]⟩
      · obtain ⟨z, e⟩ := sim.known id ((List.mem_cons.mp mem).resolve_left same)
        exact ⟨z, by simp [Llvm.State.leave, Llvm.State.define, Function.update_of_ne same, e]⟩
  · cases x with
    | none =>
      rw [definedAfter, lowered.produces] at mem
      obtain ⟨r, e⟩ := sim.results id mem
      exact ⟨r, computed.grows.keeps e⟩
    | some y =>
      rw [definedAfter, lowered.produces] at mem
      obtain rfl | mem := List.mem_cons.mp mem
      · obtain ⟨r, e, -⟩ := computed.result y rfl
        exact ⟨r, e⟩
      · obtain ⟨r, e⟩ := sim.results id mem
        exact ⟨r, computed.grows.keeps e⟩

/-- All instructions of the block. -/
lemma Simulates.body {body : List Llvm.Instruction} (lawful : dl.Lawful)
    (sim : Simulates n defined ir st written s) (kernel : KernelBody dl n defined body) :
    ∃ items st' ir' defined', selectBody dl f body st = some ((), items, st') ∧
      Llvm.executeBody dl.typeAllocSize ir body = some ir' ∧
      ReadsWritten written (instructionsOf items) ∧
      Simulates n defined' ir' st' (WrittenBy written (instructionsOf items))
        (executeAll s (instructionsOf items)) ∧
      ∀ mi ∈ instructionsOf items, mi.Simple := by
  induction kernel generalizing ir st written s with
  | nil => exact ⟨[], st, ir, _, rfl, rfl, trivial, by simpa [executeAll] using sim, by simp⟩
  | @cons defined i body operation new rest ih =>
    obtain ⟨out, st₁, ir₁, select, execute, reads, sim₁, simple⟩ :=
      sim.step (f := f) lawful operation new
    obtain ⟨items, st', ir', defined', select', execute', reads', sim', simple'⟩ := ih sim₁
    refine ⟨out.map (Emitted.mk (.instruction i.id)) ++ items, st', ir', defined',
      bind_eq_some.mpr ⟨(), _, st₁, items, mapItems_eq_some.mpr ⟨out, select, rfl⟩, select', rfl⟩,
      ?_, ?_⟩
    · rw [Llvm.executeBody, execute]
      exact execute'
    · rw [instructionsOf, List.map_append, map_mi_mk, ← instructionsOf]
      rw [writtenBy_append, ← executeAll_append] at sim'
      exact ⟨reads.append reads', sim', List.forall_mem_append.mpr ⟨simple, simple'⟩⟩

/-! ## Kernels -/

/-- Each argument has a register of its own. -/
lemma Simulates.arguments_le (sim : Simulates n defined ir st written s) : n ≤ st.nextVReg := by
  choose r reg using sim.arguments
  let register : Fin n → Fin st.nextVReg := fun k => ⟨r k k.2, (sim.valid.range (reg k k.2)).2⟩
  have apart : Function.Injective register := by
    intro j k same
    have same : r j j.2 = r k k.2 := congrArg Fin.val same
    have e := sim.valid.inj (reg j j.2) (same ▸ reg k k.2)
    exact Fin.ext (by simpa using e)
  simpa using Fintype.card_le_of_injective register apart

/-- A kernel is selected to code that leaves, at its `EXIT`, the memory that the kernel leaves. -/
theorem Kernel.simulates (lawful : dl.Lawful) (kernel : Kernel dl f) (s : Thread hw Nat)
    (args : Nat → Word)
    (stored : ∀ k < f.args.length, hw.load s.mem (BitVec.ofNat 32 (k * 8)) = args k) :
    ∃ items st body exit,
      selectFunction dl f = some ([{ name := blockNames f 0, items := items }], st) ∧
      instructionsOf items = body ++ [exit] ∧ exit.op = .exit ∧ exit.cond = BranchCond.ALWAYS ∧
      ReadsWritten (fun _ => False) (body ++ [exit]) ∧
      (st.nextVReg ≤ 1024 → ∀ mi ∈ body, mi.Simple) ∧
      f.run dl.typeAllocSize args s.mem = some (executeAll s body).mem := by
  obtain ⟨bb, value, blocks, terminator, kernelBody⟩ := kernel
  have start : Simulates 0 [] ⟨s.mem, args, fun _ => none⟩ Selector.start (fun _ => False) s :=
    ⟨Selector.valid_start, rfl, nofun, nofun, nofun, nofun⟩
  obtain ⟨items₁, st₁, select₁, reads₁, sim₁, simple₁⟩ :=
    start.prologue fun k _ (lt : k < 0 + f.args.length) => stored k (by omega)
  rw [Nat.zero_add] at sim₁
  obtain ⟨items₂, st₂, ir₂, defined, select₂, execute, reads₂, sim₂, simple₂⟩ :=
    sim₁.body (f := f) lawful kernelBody
  let exit : Emitted := { origin := .terminator
                          mi := { newInstruction .exit with comment := "return -> EXIT".toList } }
  -- the one block holds the prologue, the lowered body and the EXIT of its return
  have block : selectBlock dl f 0 bb Selector.start =
      some ((), items₁ ++ (items₂ ++ [exit]), st₂) := by
    unfold selectBlock
    rw [if_pos rfl]
    refine bind_eq_some.mpr ⟨(), items₁, st₁, _, select₁, ?_, rfl⟩
    refine bind_eq_some.mpr ⟨(), items₂, st₂, [exit], select₂, ?_, rfl⟩
    rw [terminator]
    rfl
  have select : selectFunction dl f =
      some ([{ name := blockNames f 0, items := items₁ ++ (items₂ ++ [exit]) }], st₂) := by
    unfold selectFunction
    rw [blocks, selectBlocks, block]
    rfl
  refine ⟨_, st₂, instructionsOf items₁ ++ instructionsOf items₂, exit.mi,
    select, ?_, rfl, rfl, ?_, ?_, ?_⟩
  · simp [exit]
  · rw [writtenBy_append] at sim₂
    refine (reads₁.append reads₂).append ⟨?_, trivial⟩
    rintro r ⟨⟩
  · intro le
    have := sim₂.arguments_le
    exact List.forall_mem_append.mpr ⟨simple₁ (by omega), simple₂⟩
  · rw [executeAll_append, sim₂.mem]
    obtain ⟨name, body, last⟩ := bb
    obtain rfl : last = .ret value := terminator
    unfold Llvm.Function.run
    rw [blocks]
    dsimp only at execute ⊢
    rw [execute]
    rfl

end Simulation

end FpgaGpu

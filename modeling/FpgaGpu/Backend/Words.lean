import FpgaGpu.Alloc.Loops
import FpgaGpu.Backend.Flow
import FpgaGpu.Backend.Liveness

/-!
# Kernels with branches in machine words

The words of a kernel with branches leave, at `EXIT`, the memory that the kernel leaves, and stop
exactly if the kernel returns. Every instruction that control comes to fits its fields, and the
allocated registers hold what is live, where the ranges of the allocator cover the writes that
control comes to.
-/

namespace FpgaGpu

open Llvm (Value Terminator Control)

/-! ## Fields -/

/-- What an instruction holds beside its registers fits its fields. -/
structure Instruction.FitsFields (mi : MachineInstruction) : Prop where
  cond : mi.cond.toNat < 8
  imm14 : mi.op.usesImm14 → -8192 ≤ mi.imm.toInt ∧ mi.imm.toInt < 8192
  imm19 : mi.op.usesImm19 → -262144 ≤ mi.imm.toInt ∧ mi.imm.toInt < 262144

lemma Allocation.fits_at {code : List MachineInstruction} {φ : RegField → RegField}
    (alloc : Allocation code φ) {i : Nat} {mi : MachineInstruction} (e : code[i]? = some mi)
    (fits : mi.FitsFields) : (mi.mapRegs φ).Fits where
  rd := alloc.register_lt e (by simp [Instruction.fields])
  rs1 := alloc.register_lt e (by simp [Instruction.fields])
  rs2 := alloc.register_lt e (by simp [Instruction.fields])
  cond := fits.cond
  imm14 := fits.imm14
  imm19 := fits.imm19

section Fields

variable {dl : DataLayout} {f : Llvm.Function} {code : List SelectedBlock} {st : Selector}
variable {pieces : List (List Piece)} {seen : List (Value × Bool)} {blocks : List BasicBlockCode}
variable {first b : Nat} {done before rest : List Emitted} {e : Emitted} {pc : Int}

/-- A straight instruction fits once its label is resolved. -/
lemma Embedded.fits_of_straight (h : Embedded f code blocks first) {mi : MachineInstruction}
    (straight : mi.Straight) {n : Nat} (near : n < 2 ^ 18) :
    (resolveAt (blockToPC blocks) n mi).FitsFields := by
  have unresolved : mi.FitsFields := by
    refine ⟨by rw [straight.cond]; decide, straight.imm14, fun use => ?_⟩
    have ssy : mi.op = .ssy := by
      have branch := straight.plain.1
      cases op : mi.op <;> simp_all [Opcode.usesImm19]
    rw [straight.imm19 ssy]
    decide
  unfold resolveAt
  split
  · next target =>
    split
    · next p found =>
      obtain ⟨j, -, rfl⟩ := blockToPC_eq_some.mp found
      have here := blockStart_le blocks j
      have short := h.short
      have offset : (n : Int) + (pcOffset (blockStart blocks j) n).toInt = blockStart blocks j :=
        add_toInt_pcOffset (by omega) (by omega)
      refine ⟨unresolved.cond, fun use => ?_, fun _ => ⟨?_, ?_⟩⟩
      · simp only [Instruction.hasTarget, Bool.and_eq_true, Bool.or_eq_true,
          decide_eq_true_eq] at target
        obtain op | op := target.1 <;> simp [op, Opcode.usesImm14] at use
      · dsimp only
        omega
      · dsimp only
        omega
    · exact unresolved
  · exact unresolved

lemma conditionCode_lt (f : Llvm.Function) (cond : Value) : (conditionCode f cond).toNat < 8 := by
  unfold conditionCode
  split
  · next predicate _ _ _ => cases predicate <;> decide
  · decide

/-- The branches of a terminator fit. -/
lemma Embedded.fits_of_tail (h : Embedded f code blocks first) {term : Terminator}
    (closed : ∀ d ∈ term.successors, d < f.blocks.length)
    (mem : e ∈ terminatorTail f term) {n : Nat} (near : n < 2 ^ 18) :
    (resolveAt (blockToPC blocks) n (e.mi.mapRegs narrow)).FitsFields := by
  have branch : ∀ (cond : BitVec 8) d comment, cond.toNat < 8 → d < f.blocks.length →
      (resolveAt (blockToPC blocks) n
        ((branchTo f cond d comment).mi.mapRegs narrow)).FitsFields := by
    intro cond d comment small lt
    obtain ⟨offset, resolved, target⟩ := h.resolved lt cond comment near
    have here := blockStart_le blocks (first + d)
    have short := h.short
    rw [resolved]
    exact ⟨small, by rintro ⟨⟩, fun _ => ⟨by dsimp only; omega, by dsimp only; omega⟩⟩
  cases term with
  | br dest =>
    obtain rfl := List.mem_singleton.mp mem
    exact branch _ _ _ (by decide) (closed dest (by simp [Terminator.successors]))
  | condBr cond ifTrue ifFalse =>
    simp only [terminatorTail, List.mem_cons, List.not_mem_nil, or_false] at mem
    obtain rfl | rfl := mem
    · exact branch _ _ _ (conditionCode_lt f cond) (closed ifTrue (by simp [Terminator.successors]))
    · exact branch _ _ _ (by decide) (closed ifFalse (by simp [Terminator.successors]))
  | ret value =>
    obtain rfl := List.mem_singleton.mp mem
    exact ⟨show BranchCond.ALWAYS.toNat < 8 by decide, by rintro ⟨⟩, by rintro ⟨⟩⟩
  | switch | unreachable | other => cases mem

/-- Every instruction that control comes to fits. -/
lemma Reaches.fits (sk : SelectedKernel dl f code st pieces seen) (few : f.args.length ≤ 1024)
    (embedded : Embedded f code blocks first)
    (reaches : Reaches code blocks first done b before (e :: rest) pc) :
    (resolveAt (blockToPC blocks) (blockStart blocks (first + b) + before.length)
      (e.mi.mapRegs narrow)).FitsFields := by
  obtain ⟨sb, hb, split⟩ := reaches.block
  have near := (embedded.fetch hb (k := before.length) (e := e) (by simp [split])).2
  obtain ⟨passed, p, after, front, behind, path, -, here, -⟩ :=
    sk.at_piece embedded.distinct reaches.path
  obtain ⟨out, code, straight⟩ := sk.straight few path
  obtain ⟨pre, block⟩ := path.suffix
  have he : e ∈ out.map (Emitted.mk p.item.origin) ++ p.item.tail f := by
    rw [← code, here]
    simp
  obtain he | he := List.mem_append.mp he
  · obtain ⟨mi, hmi, rfl⟩ := List.mem_map.mp he
    exact embedded.fits_of_straight ((straight mi hmi).mapRegs narrow) near
  · cases item : p.item with
    | argument | inst =>
      rw [item] at he
      cases he
    | term term =>
      rw [item] at he
      obtain ⟨bb, hbb, rfl⟩ := sk.selected.terminator block (by simp) item
      exact embedded.fits_of_tail (sk.kernel.ssa.closed bb (List.mem_of_getElem? hbb)) he near

/-! ## Where control can come to -/

/-- Some path comes to `pc`. -/
def Reachable (code : List SelectedBlock) (blocks : List BasicBlockCode)
    (first : Nat) (pc : Int) : Prop :=
  ∃ done b before rest, Reaches code blocks first done b before rest pc

/-- Control stays in the function. -/
lemma Reachable.next (sk : SelectedKernel dl f code st pieces seen)
    (embedded : Embedded f code blocks first) (reachable : Reachable code blocks first pc)
    {mi : MachineInstruction} (at_pc : fetch (resolveBranchOffsets blocks) pc = some mi)
    {flags : Word} {pc' : Int} (goes : nextPc mi pc flags = some pc') :
    Reachable code blocks first pc' := by
  obtain ⟨done, b, before, rest, reaches⟩ := reachable
  obtain ⟨e, rest, rfl⟩ := List.exists_cons_of_ne_nil reaches.more
  obtain ⟨b', before', rest', reaches', -⟩ := reaches.next embedded sk.selected sk.kernel.ssa.closed
    (fun bb hbb => (sk.kernel.terminators bb hbb).lowered) at_pc goes
  exact ⟨_, _, _, _, reaches'⟩

/-! ## Words -/

variable {hw : Hardware} {φ : RegField → RegField}

/-- The words of allocated code do what the code does. -/
lemma SelectedKernel.words_forward (sk : SelectedKernel dl f code st pieces seen) (hw : Hardware)
    (few : f.args.length ≤ 1024) (embedded : Embedded f code blocks first)
    (alloc : Allocation (layout blocks) φ) :
    Machine.Forward
      (fun s : Thread hw RegField => ∀ pc, s.pc = some pc →
        Reachable code blocks first pc ∧ Covered (resolveBranchOffsets blocks) pc)
      (LiveAgree (fetch (resolveBranchOffsets blocks)) φ)
        (threadStep (fetch (resolveBranchOffsets blocks)))
      (threadStep (wordProgram (emitWords (blocks.map (BlockCode.mapRegs φ))))) := by
  refine .of_lockstep (E := Eq) fun {s t} at_s rel => ?_
  have fits : ∀ pc mi, t.pc = some pc →
      fetch ((resolveBranchOffsets blocks).map (Instruction.mapRegs φ)) pc = some mi → mi.Fits := by
    intro pc mi' at_pc fetched
    rw [fetch_map, Option.map_eq_some_iff] at fetched
    obtain ⟨mi, fetched, rfl⟩ := fetched
    obtain ⟨⟨done, b, before, rest, reaches⟩, -⟩ := at_s pc (rel.pc.symm.trans at_pc)
    obtain ⟨e, rest, rfl⟩ := List.exists_cons_of_ne_nil reaches.more
    obtain rfl := Option.some.inj ((reaches.fetch embedded).symm.trans fetched)
    obtain ⟨i, -, at_i⟩ := exists_of_fetch fetched
    exact alloc.resolve.fits_at at_i (reaches.fits sk few embedded)
  have program : fetch ((resolveBranchOffsets blocks).map (Instruction.mapRegs φ)) =
      renameProgram φ (fetch (resolveBranchOffsets blocks)) := funext (fetch_map _ _)
  rw [Machine.Lockstep, emitWords, resolveBranchOffsets_mapRegs,
    threadStep_wordProgram_at fits, program]
  exact rel.step alloc.zero alloc.resolve.ne_zero fun pc at_pc =>
    alloc.resolve.safe (at_s pc at_pc).2

/-- A path comes to wherever control comes. -/
lemma SelectedKernel.along_reachable (sk : SelectedKernel dl f code st pieces seen)
    (embedded : Embedded f code blocks first) (nonempty : f.blocks ≠ []) {s : Thread hw RegField}
    (pc : s.pc = some (blockStart blocks first : Int)) (n : Nat) :
    Machine.Along (fun s : Thread hw RegField =>
        ∀ pc, s.pc = some pc → Reachable code blocks first pc)
      (threadStep (fetch (resolveBranchOffsets blocks))) n s := by
  refine .of_invariant (fun {s _ s'} here step => ?_) fun pc' at_pc => ?_
  · simp only [threadStep, Option.bind_eq_bind, Option.bind_eq_some_iff,
      Option.pure_def, Option.some.injEq, Prod.mk.injEq] at step
    obtain ⟨pc, at_pc, mi, fetched, -, rfl⟩ := step
    exact fun pc' goes => (here pc at_pc).next sk embedded fetched goes
  · obtain rfl := Option.some.inj (pc.symm.trans at_pc)
    obtain ⟨sb, hb⟩ := sk.selected.exists_code
      (List.getElem?_eq_getElem (List.length_pos_of_ne_nil nonempty))
    exact ⟨_, _, _, _, sk.selected.reaches
      (fun bb hbb => (sk.kernel.terminators bb hbb).lowered) hb⟩

/-- The words stop exactly if the kernel returns, and leave its memory. -/
theorem SelectedKernel.words_returns (sk : SelectedKernel dl f code st pieces seen)
    (select : selectFunction dl f = some (code, st)) (few : st.nextVReg ≤ 256)
    (short : f.args.length ≤ 1024) (embedded : Embedded f code blocks first)
    (alloc : Allocation (layout blocks) φ) (nonempty : f.blocks ≠ []) {args : Nat → Word}
    {mem : hw.Mem} (stored : ArgumentsStored f (Control.enter args mem).state)
    (fits : ∀ n, Machine.Along (Fitting dl f) (f.step dl.typeAllocSize) n (Control.enter args mem))
    (covered : ∀ (s : Thread hw RegField) n, s.pc = some (blockStart blocks first : Int) →
      Machine.Along (fun s : Thread hw RegField =>
          ∀ pc, s.pc = some pc → Covered (resolveBranchOffsets blocks) pc)
        (threadStep (fetch (resolveBranchOffsets blocks))) n s)
    {t : Thread hw RegField} (pc : t.pc = some (blockStart blocks first : Int)) (same : t.mem = mem)
    (mem' : hw.Mem) :
    f.Returns dl.typeAllocSize args mem mem' ↔
      ∃ t', Machine.Ends
          (threadStep (wordProgram (emitWords (blocks.map (BlockCode.mapRegs φ))))) t t' ∧
        t'.pc = none ∧ t'.mem = mem' := by
  -- the same thread before the allocation
  let s : Thread hw RegField := { t with regs := fun v => t.regs (φ v) }
  have agree : LiveAgree (fetch (resolveBranchOffsets blocks)) φ s t :=
    ⟨rfl, rfl, rfl, fun _ _ _ _ => rfl⟩
  have forward := sk.words_forward hw short embedded alloc
  have along : ∀ n, Machine.Along (fun s : Thread hw RegField => ∀ pc, s.pc = some pc →
      Reachable code blocks first pc ∧ Covered (resolveBranchOffsets blocks) pc)
      (threadStep (fetch (resolveBranchOffsets blocks))) n s := by
    intro n
    have here := sk.along_reachable embedded nonempty (s := s) pc n
    exact (here.and (covered s n pc)).mono fun _ both pc at_pc => ⟨both.1 pc at_pc, both.2 pc at_pc⟩
  rw [sk.layout_returns select few embedded nonempty stored fits (t := s) pc same mem']
  constructor
  · rintro ⟨s', ends, stop, rfl⟩
    obtain ⟨t', ends', rel⟩ := forward.ends along agree ends
    exact ⟨t', ends', rel.pc.trans stop, rel.mem⟩
  · rintro ⟨t', ends, stop, rfl⟩
    obtain ⟨s', ends', rel⟩ := forward.ended along agree ends
    exact ⟨s', ends', rel.pc.symm.trans stop, rel.mem.symm⟩

end Fields

end FpgaGpu

import FpgaGpu.Alloc.Straight
import FpgaGpu.Isel.Simulation

/-!
# Kernels from LLVM to machine words

The words that are emitted for a kernel without branches leave, at `EXIT`, the memory that the
kernel leaves. The selected code computes with virtual registers, their numbers are narrowed to 8
bits, physical registers replace them, and the instructions are encoded; each of these keeps the
run.
-/

namespace FpgaGpu

section Registers

variable {dl : DataLayout} {f : Llvm.Function} {code : List SelectedBlock} {st : Selector}

/-- Every register of the selected code was given out. -/
lemma selectFunction_reg_lt (h : selectFunction dl f = some (code, st)) {sb : SelectedBlock}
    (hsb : sb ∈ code) {e : Emitted} (he : e ∈ sb.items) {r : Nat}
    (access : r ∈ e.mi.reads ∨ e.mi.writes = some r) : r < st.nextVReg := by
  obtain ⟨pieces, selected⟩ := selectFunction_selected h
  have mem : sb.items ∈ ControlFlow.expand Piece.code pieces :=
    selected.blocks ▸ List.mem_map_of_mem hsb
  obtain ⟨ps, hps, e'⟩ := List.mem_map.mp mem
  rw [← e'] at he
  obtain ⟨p, hp, he⟩ := List.mem_flatMap.mp he
  obtain ⟨spec, grows⟩ := selected.spec ps hps p hp
  refine Nat.lt_of_lt_of_le ?_ grows.next
  obtain read | write := access
  · have pos := spec.valid.pos
    obtain rfl | ⟨u, -, reg⟩ | temp := spec.reads e he r read
    · exact pos
    · exact spec.valid.lt_of_regOf reg
    · exact temp.2.1
  · exact spec.writes e he r write

lemma narrow_injective {r r' : Nat} (lt : r < 256) (lt' : r' < 256) (h : narrow r = narrow r') :
    r = r' := by
  have same := congrArg BitVec.toNat h
  simp only [narrow, BitVec.toNat_ofNat] at same
  omega

end Registers

/-- Code without labels stays as it is laid out. -/
lemma resolveBranchOffsets_of_no_target {blocks : List BasicBlockCode}
    (h : ∀ mi ∈ layout blocks, mi.op ≠ .br ∧ mi.op ≠ .ssy) :
    resolveBranchOffsets blocks = layout blocks := by
  refine List.ext_getElem? fun i => ?_
  simp only [resolveBranchOffsets, List.getElem?_mapIdx]
  cases e : (layout blocks)[i]? with
  | none => rfl
  | some mi =>
    obtain ⟨br, ssy⟩ := h mi (List.mem_of_getElem? e)
    have target : mi.hasTarget = false := by simp [Instruction.hasTarget, br, ssy]
    simp [resolveAt, target]

/-- An instruction that fits its fields but for its registers. -/
def Instruction.FitsImmediate {Reg : Type} (mi : Instruction Reg) : Prop :=
  mi.op ≠ .br ∧ mi.op ≠ .ssy ∧ mi.cond = BranchCond.ALWAYS ∧
    (mi.op.usesImm14 → -8192 ≤ mi.imm.toInt ∧ mi.imm.toInt < 8192)

lemma Instruction.Simple.fitsImmediate {Reg : Type} {mi : Instruction Reg} (h : mi.Simple) :
    mi.FitsImmediate := ⟨h.op.1, h.op.2.1, h.cond, h.imm⟩

/-- The registers of an allocated instruction fit their fields. -/
lemma Allocation.register_lt {code : List MachineInstruction} {φ : RegField → RegField}
    (alloc : Allocation code φ) {i : Nat} {mi : MachineInstruction}
    (e : code[i]? = some mi) {v : RegField} (hv : v ∈ mi.fields) : (φ v).toNat < 32 := by
  by_cases zero : v = 0
  · rw [zero, alloc.zero]
    decide
  · exact (alloc.range i v ⟨zero, mi, e, hv⟩).2

/-- Allocated instructions fit their fields. -/
lemma Allocation.fits {code : List MachineInstruction} {φ : RegField → RegField}
    (alloc : Allocation code φ) (immediate : ∀ mi ∈ code, mi.FitsImmediate) :
    ∀ mi ∈ code.map (Instruction.mapRegs φ), mi.Fits := by
  intro mi' mem
  obtain ⟨mi, hmi, rfl⟩ := List.mem_map.mp mem
  obtain ⟨br, ssy, cond, imm⟩ := immediate mi hmi
  obtain ⟨i, e⟩ := List.getElem?_of_mem hmi
  refine ⟨alloc.register_lt e (by simp [Instruction.fields]),
    alloc.register_lt e (by simp [Instruction.fields]),
    alloc.register_lt e (by simp [Instruction.fields]), ?_, imm, fun h => ?_⟩
  · show mi.cond.toNat < 8
    rw [cond]
    decide
  · have h : mi.op.usesImm19 = true := h
    unfold Opcode.usesImm19 at h
    split at h
    · exact absurd ‹_› br
    · exact absurd ‹_› ssy
    · cases h

/-- The words of allocated code without branches stop where the code does and leave the same
memory. -/
lemma allocate_words {order : SortOrder} {blocks blocks' : List BasicBlockCode}
    (run : allocate order blocks = some blocks')
    (immediate : ∀ mi ∈ layout blocks, mi.FitsImmediate)
    (reads : ReadsWritten (fun _ => False) (layout blocks)) {hw : Hardware}
    {s t : Thread hw RegField} (start : s.pc = some 0) (pc : t.pc = s.pc) (mem : t.mem = s.mem)
    (flags : t.flags = s.flags) {n : Nat} {s' : Thread hw RegField}
    (after : Machine.after (threadStep (fetch (layout blocks))) n s = some s') :
    ∃ t', Machine.after (threadStep (wordProgram (emitWords blocks'))) n t = some t' ∧
      t'.pc = s'.pc ∧ t'.mem = s'.mem := by
  obtain ⟨φ, rfl, alloc⟩ := allocate_spec run
  have resolved := resolveBranchOffsets_of_no_target fun mi mem =>
    ⟨(immediate mi mem).1, (immediate mi mem).2.1⟩
  have noBranch : ∀ mi ∈ layout blocks, mi.op ≠ .br := fun mi mem => (immediate mi mem).1
  rw [emitWords, resolveBranchOffsets_mapRegs, resolved,
    threadStep_wordProgram (alloc.fits immediate)]
  have covered : Machine.Along (fun s : Thread hw RegField => ∀ pc, s.pc = some pc →
      Covered (layout blocks) pc) (threadStep (fetch (layout blocks))) n s :=
    .of_invariant (fun _ _ pc _ => reads.covered noBranch pc) fun pc _ => reads.covered noBranch pc
  have agree : LiveAgree (fetch (layout blocks)) φ s t := by
    refine ⟨pc, mem, flags, fun pc v at_pc live => ?_⟩
    rw [start] at at_pc
    obtain rfl := Option.some.inj at_pc
    exact absurd live (reads.not_live noBranch v)
  have preserved := (alloc.preserves covered agree).2
  rw [after] at preserved
  obtain ⟨t', after', rel⟩ := Machine.exists_of_rel preserved
  exact ⟨t', after', rel.pc, rel.mem⟩

/-- Narrowing the registers of a small function keeps the runs of its code. -/
lemma narrow_run {dl : DataLayout} {f : Llvm.Function} {name : Text} {items : List Emitted}
    {st : Selector}
    (select : selectFunction dl f = some ([{ name := name, items := items }], st))
    (few : st.nextVReg ≤ 256) (noBranch : ∀ mi ∈ instructionsOf items, mi.op ≠ .br)
    (reads : ReadsWritten (fun _ => False) (instructionsOf items)) {hw : Hardware}
    {s : Thread hw Nat} {t : Thread hw RegField} (start : s.pc = some 0) (pc : t.pc = s.pc)
    (mem : t.mem = s.mem) (flags : t.flags = s.flags) {n : Nat} {s' : Thread hw Nat}
    (after : Machine.after (threadStep (fetch (instructionsOf items))) n s = some s') :
    ∃ t', Machine.after
        (threadStep (fetch ((instructionsOf items).map (Instruction.mapRegs narrow))))
          n t = some t' ∧
      t'.pc = s'.pc ∧ t'.mem = s'.mem := by
  have bound : ∀ r, Accessed (fetch (instructionsOf items)) r → r < 256 := by
    rintro r (rfl | ⟨pc, mi, e, access⟩)
    · decide
    · obtain ⟨i, -, e⟩ := exists_of_fetch e
      obtain ⟨e, mem, rfl⟩ := List.mem_map.mp (List.mem_of_getElem? e)
      exact Nat.lt_of_lt_of_le
        (selectFunction_reg_lt select (List.mem_singleton.mpr rfl) mem access) few
  have agree : LiveAgree (fetch (instructionsOf items)) narrow s t := by
    refine ⟨pc, mem, flags, fun pc v at_pc live => ?_⟩
    rw [start] at at_pc
    obtain rfl := Option.some.inj at_pc
    exact absurd live (reads.not_live noBranch v)
  have program : fetch ((instructionsOf items).map (Instruction.mapRegs narrow)) =
      renameProgram narrow (fetch (instructionsOf items)) := funext (fetch_map _ _)
  rw [program]
  have preserved := after_renameProgram rfl
    (fun r r' h h' => narrow_injective (bound r h) (bound r' h')) agree n
  rw [after] at preserved
  obtain ⟨t', after', rel⟩ := Machine.exists_of_rel preserved
  exact ⟨t', after', rel.pc, rel.mem⟩

/-- Compiling a kernel without branches to words keeps what it does. -/
theorem emitWords_kernel {dl : DataLayout} (lawful : dl.Lawful) {f : Llvm.Function}
    (kernel : Kernel dl f) :
    ∃ code st, selectFunction dl f = some (code, st) ∧
      ∀ (order : SortOrder) (blocks' : List BasicBlockCode), st.nextVReg ≤ 256 →
        allocate order (code.map SelectedBlock.code) = some blocks' →
        ∀ (hw : Hardware) (mem : hw.Mem) (args : Nat → Word) (regs : RegField → Word)
            (flags : Word),
          (∀ k < f.args.length, hw.load mem (BitVec.ofNat 32 (k * 8)) = args k) →
          ∃ mem' n t, f.run dl.typeAllocSize args mem = some mem' ∧
            Machine.after (threadStep (wordProgram (emitWords blocks'))) n
              { pc := some 0, regs := regs, mem := mem, flags := flags } = some t ∧
            t.pc = none ∧ t.mem = mem' := by
  -- the code does not depend on the machine, so any machine yields it
  let start : Thread Hardware.plain Nat :=
    { pc := some 0, regs := fun _ => 0, mem := (), flags := 0 }
  obtain ⟨items, st, -, -, select, -⟩ := kernel.simulates lawful start (fun _ => 0) fun _ _ => rfl
  refine ⟨_, st, select, fun order blocks' few alloc hw mem args regs flags stored => ?_⟩
  -- the selected code, its registers narrowed to fields, and what the allocator makes of it
  let s : Thread hw Nat := { pc := some 0, regs := fun _ => 0, mem := mem, flags := flags }
  let u : Thread hw RegField := { pc := some 0, regs := fun _ => 0, mem := mem, flags := flags }
  let t : Thread hw RegField := { pc := some 0, regs := regs, mem := mem, flags := flags }
  obtain ⟨items', st', body, exit, select', split, op, cond, reads, simple, run⟩ :=
    kernel.simulates lawful s args stored
  obtain ⟨rfl, rfl⟩ : items' = items ∧ st' = st := by
    have same := select'.symm.trans select
    simp only [Option.some.injEq, Prod.mk.injEq, List.cons.injEq, SelectedBlock.mk.injEq, true_and,
      and_true] at same
    exact same
  have simple := simple (by omega)
  have immediate : ∀ mi ∈ body ++ [exit], mi.FitsImmediate := by
    refine List.forall_mem_append.mpr ⟨fun mi mem => (simple mi mem).fitsImmediate, ?_⟩
    refine List.forall_mem_singleton.mpr ⟨by simp [op], by simp [op], cond, fun imm => ?_⟩
    rw [op] at imm
    cases imm
  obtain ⟨s₁, after, pc, mem'⟩ := after_exit (s := s) rfl
    (fun mi mem => ⟨(simple mi mem).op.1, (simple mi mem).op.2.2⟩) op
  rw [← split] at reads immediate after
  have blocks : layout (List.map SelectedBlock.code [⟨blockNames f 0, items'⟩]) =
      (instructionsOf items').map (Instruction.mapRegs narrow) := by
    simp [SelectedBlock.code, layout, Function.comp_def]
  obtain ⟨u₁, after₁, pc₁, mem₁⟩ := narrow_run select few (fun mi mem => (immediate mi mem).1) reads
    (s := s) (t := u) rfl rfl rfl rfl after
  rw [← blocks] at after₁
  have immediate₁ : ∀ mi ∈ layout (List.map SelectedBlock.code [⟨blockNames f 0, items'⟩]),
      mi.FitsImmediate := by
    rw [blocks]
    intro mi' mem
    obtain ⟨mi, hmi, rfl⟩ := List.mem_map.mp mem
    exact immediate mi hmi
  have reads₁ : ReadsWritten (fun _ => False)
      (layout (List.map SelectedBlock.code [⟨blockNames f 0, items'⟩])) := by
    have zero : narrow 0 = 0 := rfl
    rw [blocks]
    exact reads.mapRegs zero fun _ => id
  obtain ⟨t₁, after₂, pc₂, mem₂⟩ := allocate_words alloc immediate₁ reads₁ (s := u) (t := t)
    rfl rfl rfl rfl after₁
  exact ⟨_, _, t₁, run, after₂, pc₂.trans (pc₁.trans pc), mem₂.trans (mem₁.trans mem')⟩

/-- Memory of words. -/
def Hardware.words : Hardware where
  Mem := Word → Word
  load m addr := m addr
  store m addr value := Function.update m addr value
  sysReg _ := 0
  setsFlags _ := false

/-- A data layout of words with linear offsets. -/
def linear : DataLayout where
  typeAllocSize := fun _ => 4
  accumulateConstantOffset := fun _ indices =>
    match indices with
    | [.constantInt _ bits] => some (bits.signExtend 64 * 4)
    | _ => none

/-- Adds a constant to the word that an argument points to, and stores the sum behind it. -/
def addKernel : Llvm.Function where
  args := [{ name := "p".toList, ty := .ptr }]
  blocks :=
    [{ name := "entry".toList
       body :=
         [⟨0, .load (.int 32) (.argument 0)⟩,
          ⟨1, .binary .add (.instruction 0) (.constantInt 32 5000)⟩,
          ⟨2, .getelementptr (.int 32) (.argument 0) [.constantInt 64 1]⟩,
          ⟨3, .store (.int 32) (.instruction 1) (.instruction 2)⟩]
       terminator := .ret none }]

lemma addKernel_kernel : Kernel linear addKernel := by
  have argument : ∀ defined, IsOperand 1 defined (.argument 0) := fun _ => Nat.one_pos
  refine ⟨_, _, rfl, rfl, .cons (.load (argument _)) (by decide) (.cons (.arithmetic (.inl rfl)
    (.inl List.mem_cons_self) (.inr ⟨⟨_, rfl⟩, ⟨by decide, by decide⟩⟩) (by decide)) (by decide)
    (.cons (.offset (argument _) ?_ ?_) (by decide) (.cons (.store ?_ ?_) (by decide) .nil)))⟩
  · exact ⟨by decide, by decide⟩
  · exact ⟨by decide, by decide⟩
  · exact .inl (List.mem_cons_of_mem _ List.mem_cons_self)
  · exact List.mem_cons_self

/-- The words of a kernel that adds two arguments leave its memory. -/
theorem emitWords_addKernel : ∃ blocks blocks', selectInstructions linear addKernel = some blocks ∧
    allocate SortOrder.stable blocks = some blocks' ∧
    ∀ (mem : Hardware.words.Mem) (regs : RegField → Word), ∃ mem' n t,
      addKernel.run linear.typeAllocSize
        (fun k => Hardware.words.load mem (BitVec.ofNat 32 (k * 8))) mem = some mem' ∧
      Machine.after (threadStep (wordProgram (emitWords blocks'))) n
        { pc := some 0, regs := regs, mem := mem, flags := 0 } = some t ∧
      t.pc = none ∧ t.mem = mem' := by
  obtain ⟨code, st, select, preserves⟩ := emitWords_kernel (fun _ _ _ => rfl) addKernel_kernel
  have few : (selectFunction linear addKernel).map (fun p => p.2.nextVReg) = some 7 := by decide
  have allocated : ((selectFunction linear addKernel).bind fun p =>
      allocate SortOrder.stable (p.1.map SelectedBlock.code)).isSome = true := by decide
  rw [select] at few allocated
  obtain ⟨blocks', alloc⟩ := Option.isSome_iff_exists.mp allocated
  have le : st.nextVReg ≤ 256 := by
    have few : st.nextVReg = 7 := Option.some.inj few
    omega
  refine ⟨code.map SelectedBlock.code, blocks', ?_, alloc, fun mem regs => ?_⟩
  · rw [selectInstructions, select]
    rfl
  · exact preserves SortOrder.stable blocks' le alloc Hardware.words mem _ regs 0 fun _ _ => rfl

end FpgaGpu

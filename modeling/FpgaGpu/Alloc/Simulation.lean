import FpgaGpu.Alloc.Interference
import FpgaGpu.Alloc.Renaming

/-!
# What register allocation preserves

The ranges of the allocator are textual and ignore control flow. A run is preserved as long as every
register it writes has a range that meets the ranges of the other values live after the write, and a
value carried around a loop can be overwritten where it does not.
-/

namespace FpgaGpu

/-! ## Code and its renaming -/

lemma fetch_map {α β : Type} (f : α → β) (code : List α) (pc : Int) :
    fetch (code.map f) pc = (fetch code pc).map f := by
  unfold fetch
  split
  · exact List.getElem?_map
  · rfl

lemma layout_mapRegs {Reg Reg' : Type} (φ : Reg → Reg') (blocks : List (BlockCode Reg)) :
    layout (blocks.map (BlockCode.mapRegs φ)) = (layout blocks).map (Instruction.mapRegs φ) := by
  simp [layout, BlockCode.mapRegs, List.map_flatMap, List.flatMap_map]

lemma recordPCs_mapRegs (φ : RegField → RegField) (blocks : List BasicBlockCode) (pc : Nat)
    (m : Text → Option Nat) :
    recordPCs pc m (blocks.map (BlockCode.mapRegs φ)) = recordPCs pc m blocks := by
  induction blocks generalizing pc m with
  | nil => rfl
  | cons bb blocks ih => simp [recordPCs, BlockCode.mapRegs, ih]

lemma resolveAt_mapRegs (φ : RegField → RegField) (m : Text → Option Nat) (pc : Nat)
    (mi : MachineInstruction) :
    resolveAt m pc (mi.mapRegs φ) = (resolveAt m pc mi).mapRegs φ := by
  have target : (mi.mapRegs φ).hasTarget = mi.hasTarget := rfl
  have label : (mi.mapRegs φ).labelTarget = mi.labelTarget := rfl
  unfold resolveAt
  rw [target, label]
  split
  · split <;> rfl
  · rfl

/-- Labels do not depend on registers. -/
lemma resolveBranchOffsets_mapRegs (φ : RegField → RegField) (blocks : List BasicBlockCode) :
    resolveBranchOffsets (blocks.map (BlockCode.mapRegs φ)) =
      (resolveBranchOffsets blocks).map (Instruction.mapRegs φ) := by
  have labels : blockToPC (blocks.map (BlockCode.mapRegs φ)) = blockToPC blocks :=
    recordPCs_mapRegs φ blocks 0 _
  refine List.ext_getElem? fun i => ?_
  simp only [resolveBranchOffsets, layout_mapRegs, labels, List.getElem?_mapIdx, List.getElem?_map,
    Option.map_map]
  congr 1
  funext mi
  exact resolveAt_mapRegs φ _ i mi

lemma fields_resolveAt (m : Text → Option Nat) (pc : Nat) (mi : MachineInstruction) :
    (resolveAt m pc mi).fields = mi.fields := by
  unfold resolveAt
  split
  · split <;> rfl
  · rfl

/-- Resolving labels keeps the registers. -/
lemma mentions_resolveBranchOffsets {blocks : List BasicBlockCode} {i : Nat} {v : RegField} :
    Mentions (resolveBranchOffsets blocks) i v ↔ Mentions (layout blocks) i v := by
  simp only [Mentions, resolveBranchOffsets, List.getElem?_mapIdx, Option.map_eq_some_iff]
  refine and_congr_right fun _ => ⟨?_, ?_⟩
  · rintro ⟨mi, ⟨a, e, rfl⟩, mem⟩
    exact ⟨a, e, by rwa [fields_resolveAt] at mem⟩
  · rintro ⟨a, e, mem⟩
    exact ⟨_, ⟨a, e, rfl⟩, by rwa [fields_resolveAt]⟩

/-! ## Preservation -/

lemma reads_subset_fields {Reg : Type} {mi : Instruction Reg} {r : Reg} (h : r ∈ mi.reads) :
    r ∈ mi.fields := by
  unfold Instruction.reads at h
  unfold Instruction.fields
  split at h <;> split at h <;> simp at h <;> simp [h]

lemma Instruction.writes_mem_fields {mi : Instruction Reg} {r : Reg} (h : mi.writes = some r) :
    r ∈ mi.fields := by
  unfold Instruction.writes at h
  split at h
  · obtain rfl := Option.some.inj h
    exact List.mem_cons_self
  · cases h

/-- A live register is mentioned. -/
lemma Live.mentions {code : List MachineInstruction} {pc : Int} {v : RegField}
    (live : Live (fetch code) pc v) : ∃ i, Mentions code i v := by
  obtain ⟨pc', mi, at_pc, mem⟩ := live.exists_read
  obtain ⟨i, -, e⟩ := exists_of_fetch at_pc
  exact ⟨i, live.ne_zero, mi, e, reads_subset_fields mem⟩

/-- The range of a register written at `pc` meets the ranges of the other registers that are live
after it. -/
def Covered (code : List MachineInstruction) (pc : Int) : Prop :=
  ∀ mi d w flags pc', fetch code pc = some mi → mi.writes = some d → d ≠ 0 →
    nextPc mi pc flags = some pc' → Live (fetch code) pc' w → w ≠ d → Interferes code w d

/-- Interference is about the blocks before their labels are resolved. -/
lemma Allocation.resolve {blocks : List BasicBlockCode} {φ : RegField → RegField}
    (alloc : Allocation (layout blocks) φ) : Allocation (resolveBranchOffsets blocks) φ := by
  refine ⟨alloc.zero, fun i v mention => ?_, fun v w ne meet => ?_⟩
  · exact alloc.range i v (mentions_resolveBranchOffsets.mp mention)
  · refine alloc.separate v w ne ?_
    simpa only [Interferes, InRange, mentions_resolveBranchOffsets] using meet

/-- A covered write hits no live value. -/
lemma Allocation.safe {code : List MachineInstruction} {φ : RegField → RegField} {pc : Int}
    (alloc : Allocation code φ) (covered : Covered code pc) : Safe (fetch code) φ pc :=
  fun mi d w flags pc' e writes ne goes live differ =>
    alloc.separate w d differ (covered mi d w flags pc' e writes ne goes live differ)

/-- No live value is in R0. -/
lemma Allocation.ne_zero {code : List MachineInstruction} {φ : RegField → RegField}
    (alloc : Allocation code φ) (pc : Int) (v : RegField) (live : Live (fetch code) pc v) :
    φ v ≠ 0 := by
  obtain ⟨i, mention⟩ := live.mentions
  intro zero
  have := (alloc.range i v mention).1
  simp [zero] at this

/-- A run of the allocated code whose original is covered shows the same, and keeps every live value
in its register. -/
theorem Allocation.preserves {code : List MachineInstruction} {φ : RegField → RegField}
    (alloc : Allocation code φ) {hw : Hardware} {n : Nat} {s t : Thread hw RegField}
    (covered : Machine.Along (fun s => ∀ pc, s.pc = some pc → Covered code pc)
      (threadStep (fetch code)) n s) (rel : LiveAgree (fetch code) φ s t) :
    Machine.trace (threadStep (fetch (code.map (Instruction.mapRegs φ)))) n t =
        Machine.trace (threadStep (fetch code)) n s ∧
      Option.Rel (LiveAgree (fetch code) φ) (Machine.after (threadStep (fetch code)) n s)
        (Machine.after (threadStep (fetch (code.map (Instruction.mapRegs φ)))) n t) := by
  have program : fetch (code.map (Instruction.mapRegs φ)) = renameProgram φ (fetch code) :=
    funext (fetch_map _ code)
  have step := fun {s t : Thread hw RegField} (cov : ∀ pc, s.pc = some pc → Covered code pc)
      (rel : LiveAgree (fetch code) φ s t) =>
    rel.step alloc.zero alloc.ne_zero (fun pc at_pc => alloc.safe (cov pc at_pc))
  rw [program]
  constructor
  · exact (List.forall₂_eq_eq_eq.symm ▸ Machine.trace_related step covered rel :
      Machine.trace _ n s = Machine.trace _ n t).symm
  · exact Machine.after_related step covered rel

/-- Allocation preserves every run in which each write is covered, when each register is written
before it is read. -/
theorem allocate_preserves {order : SortOrder} {blocks blocks' : List BasicBlockCode}
    (run : allocate order blocks = some blocks')
    (written : ∀ v, ¬ Live (fetch (resolveBranchOffsets blocks)) 0 v) :
    ∃ φ, blocks' = blocks.map (BlockCode.mapRegs φ) ∧
      ∀ (hw : Hardware) (s t : Thread hw RegField) (n : Nat), s.pc = some 0 → t.pc = s.pc →
        t.mem = s.mem → t.flags = s.flags →
        Machine.Along (fun s => ∀ pc, s.pc = some pc → Covered (resolveBranchOffsets blocks) pc)
          (threadStep (fetch (resolveBranchOffsets blocks))) n s →
        Machine.trace (threadStep (fetch (resolveBranchOffsets blocks'))) n t =
            Machine.trace (threadStep (fetch (resolveBranchOffsets blocks))) n s ∧
          Option.Rel (LiveAgree (fetch (resolveBranchOffsets blocks)) φ)
            (Machine.after (threadStep (fetch (resolveBranchOffsets blocks))) n s)
            (Machine.after (threadStep (fetch (resolveBranchOffsets blocks'))) n t) := by
  obtain ⟨φ, rfl, alloc⟩ := allocate_spec run
  refine ⟨φ, rfl, fun hw s t n start pc mem flags covered => ?_⟩
  rw [resolveBranchOffsets_mapRegs]
  refine alloc.resolve.preserves covered ⟨pc, mem, flags, fun pc v at_pc live => ?_⟩
  rw [start] at at_pc
  obtain rfl := Option.some.inj at_pc
  exact absurd live (written v)

/-! ## A value carried around a loop -/

instance : IsTrans Interval fun a b => ¬ Earlier b a where
  trans a b c := by
    unfold Earlier
    split <;> split <;> split <;> omega

instance : Std.Total fun a b : Interval => ¬ Earlier b a where
  total a b := by
    unfold Earlier
    split <;> split <;> omega

/-- The order of a stable sort. -/
def SortOrder.stable : SortOrder where
  sort := List.insertionSort fun a b => ¬ Earlier b a
  perm := List.perm_insertionSort _
  sorted := List.pairwise_insertionSort _

/-- A register set for each program counter that holds the registers read there, and those that the
next ones hold and are not written, holds what is live. -/
lemma Live.mem_of_closed {code : List MachineInstruction} {L : Nat → RegField → Prop}
    (read : ∀ (i : Nat) mi v, code[i]? = some mi → v ∈ mi.reads → v ≠ 0 → L i v)
    (next : ∀ (i : Nat) mi v flags (j : Nat), code[i]? = some mi → mi.writes ≠ some v →
      nextPc mi i flags = some (j : Int) → L j v → L i v)
    {pc : Int} {v : RegField} (live : Live (fetch code) pc v) : ∃ i : Nat, pc = i ∧ L i v := by
  induction live with
  | read at_pc mem ne =>
    obtain ⟨i, rfl, e⟩ := exists_of_fetch at_pc
    exact ⟨i, rfl, read i _ _ e mem ne⟩
  | next at_pc keeps goes _ ih =>
    obtain ⟨i, rfl, e⟩ := exists_of_fetch at_pc
    obtain ⟨j, rfl, mem⟩ := ih
    exact ⟨i, rfl, next i _ _ _ j e keeps goes mem⟩

/-- A loop that reads a register written before it, and then writes another one. -/
def carried : List BasicBlockCode :=
  [{ name := "entry".toList
     instructions := [{ MachineInstruction.ofOp .addi with rd := 1, imm := 1 }] },
   { name := "loop".toList
     instructions :=
       [{ MachineInstruction.ofOp .str with rs2 := 1 },
        { MachineInstruction.ofOp .addi with rd := 2, imm := 7 },
        { MachineInstruction.ofOp .str with rs1 := 2, rs2 := 2 },
        { MachineInstruction.ofOp .br with labelTarget := "loop".toList }] }]

lemma carried_live {pc : Int} {v : RegField}
    (live : Live (fetch (resolveBranchOffsets carried)) pc v) :
    ∃ i : Nat, pc = i ∧ (1 ≤ i ∧ v = 1 ∨ i = 3 ∧ v = 2) := by
  have code : resolveBranchOffsets carried =
      [{ MachineInstruction.ofOp .addi with rd := 1, imm := 1 },
       { MachineInstruction.ofOp .str with rs2 := 1 },
       { MachineInstruction.ofOp .addi with rd := 2, imm := 7 },
       { MachineInstruction.ofOp .str with rs1 := 2, rs2 := 2 },
       { MachineInstruction.ofOp .br with labelTarget := "loop".toList, imm := -3 }] := by decide
  rw [code] at live
  refine live.mem_of_closed (L := fun i v => 1 ≤ i ∧ v = 1 ∨ i = 3 ∧ v = 2)
    (fun i mi v e mem ne => ?_) (fun i mi v flags j e keeps goes mem => ?_)
  · rcases i with _ | _ | _ | _ | _ | i <;>
      simp [Instruction.ofOp] at e <;> subst e <;>
      simp_all [Instruction.reads, Opcode.usesRs1, Opcode.usesRs2]
  · obtain ⟨le, rfl⟩ | ⟨rfl, rfl⟩ := mem <;> rcases i with _ | _ | _ | _ | _ | i <;>
      simp [Instruction.ofOp] at e <;> subst e <;>
      simp [Instruction.writes, Opcode.usesRd, nextPc] at keeps goes ⊢

/-- No register of the loop is read before it is written, and the allocation of `v2` over `v1` shows
in the second round. -/
theorem allocate_carried :
    ∃ blocks', allocate SortOrder.stable carried = some blocks' ∧
      (∀ v, ¬ Live (fetch (resolveBranchOffsets carried)) 0 v) ∧
      ∃ s : Thread Hardware.plain RegField, s.pc = some 0 ∧
        Machine.trace (threadStep (fetch (resolveBranchOffsets blocks'))) 6 s ≠
          Machine.trace (threadStep (fetch (resolveBranchOffsets carried))) 6 s := by
  refine ⟨carried.map (BlockCode.mapRegs fun r =>
    if r = 2 then 1 else r), by decide, fun v live => ?_,
    { pc := some 0, regs := fun _ => 0, mem := (), flags := 0 }, rfl, by decide⟩
  obtain ⟨i, e, mem⟩ := carried_live live
  omega

/-- A loop that reads two registers, one written before it and one in it. -/
def kept : List BasicBlockCode :=
  [{ name := "entry".toList
     instructions := [{ MachineInstruction.ofOp .addi with rd := 1, imm := 1 }] },
   { name := "loop".toList
     instructions :=
       [{ MachineInstruction.ofOp .addi with rd := 2, rs1 := 1, imm := 7 },
        { MachineInstruction.ofOp .str with rs1 := 2, rs2 := 1 },
        { MachineInstruction.ofOp .br with labelTarget := "loop".toList }] }]

lemma kept_code : resolveBranchOffsets kept =
    [{ MachineInstruction.ofOp .addi with rd := 1, imm := 1 },
     { MachineInstruction.ofOp .addi with rd := 2, rs1 := 1, imm := 7 },
     { MachineInstruction.ofOp .str with rs1 := 2, rs2 := 1 },
     { MachineInstruction.ofOp .br with labelTarget := "loop".toList, imm := -2 }] := by decide

lemma kept_live {pc : Int} {v : RegField} (live : Live (fetch (resolveBranchOffsets kept)) pc v) :
    ∃ i : Nat, pc = i ∧ (1 ≤ i ∧ v = 1 ∨ i = 2 ∧ v = 2) := by
  rw [kept_code] at live
  refine live.mem_of_closed (L := fun i v => 1 ≤ i ∧ v = 1 ∨ i = 2 ∧ v = 2)
    (fun i mi v e mem ne => ?_) (fun i mi v flags j e keeps goes mem => ?_)
  · rcases i with _ | _ | _ | _ | i <;>
      simp [Instruction.ofOp] at e <;> subst e <;>
      simp_all [Instruction.reads, Opcode.usesRs1, Opcode.usesRs2]
    tauto
  · obtain ⟨le, rfl⟩ | ⟨rfl, rfl⟩ := mem <;> rcases i with _ | _ | _ | _ | i <;>
      simp [Instruction.ofOp] at e <;> subst e <;>
      simp [Instruction.writes, Opcode.usesRd, nextPc] at keeps goes ⊢

lemma kept_covered (pc : Int) : Covered (resolveBranchOffsets kept) pc := by
  intro mi d w flags pc' e writes ne goes live differ
  have meet : ∀ v ∈ [1, 2], InRange (resolveBranchOffsets kept) v 1 := by
    rw [kept_code]
    intro v mem
    simp only [List.mem_cons, List.not_mem_nil, or_false] at mem
    obtain rfl | rfl := mem
    · exact ⟨0, 2, ⟨by decide, _, rfl, by decide⟩, ⟨by decide, _, rfl, by decide⟩, by decide⟩
    · exact ⟨1, 2, ⟨by decide, _, rfl, by decide⟩, ⟨by decide, _, rfl, by decide⟩, by decide⟩
  have written : d ∈ [1, 2] := by
    rw [kept_code] at e
    obtain ⟨i, -, e⟩ := exists_of_fetch e
    rcases i with _ | _ | _ | _ | i <;> simp [Instruction.ofOp] at e <;> subst e <;>
      simp_all [Instruction.writes, Opcode.usesRd]
  refine ⟨1, meet w ?_, meet d written⟩
  obtain ⟨i, -, ⟨-, rfl⟩ | ⟨-, rfl⟩⟩ := kept_live live <;> simp

/-- Allocation preserves a short program. -/
theorem allocate_preserves_kept :
    ∃ blocks', allocate SortOrder.stable kept = some blocks' ∧
      ∀ (s t : Thread Hardware.plain RegField) (n : Nat), s.pc = some 0 → t.pc = some 0 →
        t.flags = s.flags →
        Machine.trace (threadStep (fetch (resolveBranchOffsets blocks'))) n t =
          Machine.trace (threadStep (fetch (resolveBranchOffsets kept))) n s := by
  have run : allocate SortOrder.stable kept = some kept := by decide
  obtain ⟨φ, -, preserves⟩ := allocate_preserves run fun v live => by
    obtain ⟨i, e, mem⟩ := kept_live live
    omega
  refine ⟨kept, run, fun s t n start start' flags =>
    (preserves _ s t n start (start'.trans start.symm) rfl flags ?_).1⟩
  exact Machine.Along.of_invariant (fun _ _ pc _ => kept_covered pc) (fun pc _ => kept_covered pc)

end FpgaGpu

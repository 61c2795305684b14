import FpgaGpu.Alloc.Simulation
import FpgaGpu.Lib.Forward

/-!
# Allocation of code with loops

The scan gives a register the range from its first mention to its last one in the order of the
layout. That is enough where every register that is live around a loop is mentioned before the loop
and behind its backward branch: what is live was then mentioned before and is mentioned again, so
that its range covers every write in between. Code that has no registers and only leads on, such as
the blocks that the divergence pass puts behind a function, counts as the place that it leads to.
-/

namespace FpgaGpu

/-- Control can be at `pc`, which counts as the place `q`, where `P pc q`. It goes to later places,
or what is live behind the jump is mentioned before the place that the jump leads to and behind the
jump. -/
structure SpansLoops (code : List MachineInstruction) (P : Int → Int → Prop) : Prop where
  here : ∀ {i : Nat} {q v}, P i q → Mentions code i v → q = i
  next : ∀ {i : Nat} {q mi flags pc}, P i q → code[i]? = some mi → nextPc mi i flags = some pc →
    ∃ q', P pc q' ∧ ((q ≤ q' ∧ ∀ v, Mentions code i v → q < q') ∨ ∀ v, Live (fetch code) pc v →
      (∃ k : Nat, (k : Int) < q' ∧ Mentions code k v) ∧ ∃ j : Nat, q ≤ j ∧ Mentions code j v)

section Loops

variable {code : List MachineInstruction} {P : Int → Int → Prop} {hw : Hardware}

/-- A live register is mentioned again. -/
lemma Live.mentioned_later (loops : SpansLoops code P) {pc q : Int} {v : RegField}
    (live : Live (fetch code) pc v) (here : P pc q) : ∃ j : Nat, q ≤ j ∧ Mentions code j v := by
  induction live generalizing q with
  | @read pc mi v at_pc mem ne =>
    obtain ⟨i, rfl, e⟩ := exists_of_fetch at_pc
    have mention : Mentions code i v := ⟨ne, mi, e, reads_subset_fields mem⟩
    exact ⟨i, (loops.here here mention).le, mention⟩
  | @next pc pc' mi v flags at_pc keeps goes live ih =>
    obtain ⟨i, rfl, e⟩ := exists_of_fetch at_pc
    obtain ⟨q', here', ⟨le, -⟩ | spans⟩ := loops.next here e goes
    · obtain ⟨j, le', mention⟩ := ih here'
      exact ⟨j, le.trans le', mention⟩
    · exact (spans v live).2

/-- Every register that is live was mentioned before. -/
def MentionedBefore (code : List MachineInstruction) (P : Int → Int → Prop)
    (s : Thread hw RegField) : Prop :=
  ∀ pc, s.pc = some pc → ∃ q, P pc q ∧
    ∀ w, Live (fetch code) pc w → ∃ i : Nat, (i : Int) < q ∧ Mentions code i w

lemma MentionedBefore.step (loops : SpansLoops code P) {s s' : Thread hw RegField}
    {shown : Option Event} (h : MentionedBefore code P s)
    (step : threadStep (fetch code) s = some (shown, s')) :
    MentionedBefore code P s' := by
  simp only [threadStep, Option.bind_eq_bind, Option.bind_eq_some_iff,
    Option.pure_def, Option.some.injEq, Prod.mk.injEq] at step
  obtain ⟨pc, at_pc, mi, fetched, -, rfl⟩ := step
  intro pc' goes
  have goes : nextPc mi pc s.flags = some pc' := goes
  obtain ⟨q, here, before⟩ := h pc at_pc
  obtain ⟨i, rfl, e⟩ := exists_of_fetch fetched
  obtain ⟨q', here', later | spans⟩ := loops.next here e goes
  · refine ⟨q', here', fun w live => ?_⟩
    by_cases write : mi.writes = some w
    · have mention : Mentions code i w := ⟨live.ne_zero, mi, e, mi.writes_mem_fields write⟩
      exact ⟨i, loops.here here mention ▸ later.2 w mention, mention⟩
    · obtain ⟨j, lt, mention⟩ := before w (.next fetched write goes live)
      exact ⟨j, lt.trans_le later.1, mention⟩
  · exact ⟨q', here', fun w live => (spans w live).1⟩

/-- What is live after a write was mentioned before it and is mentioned behind it. -/
lemma MentionedBefore.covered (loops : SpansLoops code P) {s : Thread hw RegField}
    (h : MentionedBefore code P s) (pc : Int) (at_pc : s.pc = some pc) : Covered code pc := by
  intro mi d w flags pc' fetched write ne goes live differ
  obtain ⟨q, here, before⟩ := h pc at_pc
  have keeps : mi.writes ≠ some w := by
    rw [write]
    exact fun same => differ (Option.some.inj same).symm
  have live : Live (fetch code) pc w := .next fetched keeps goes live
  obtain ⟨i, lt, mention⟩ := before w live
  obtain ⟨j, le, mention'⟩ := live.mentioned_later loops here
  obtain ⟨k, rfl, e⟩ := exists_of_fetch fetched
  have written : Mentions code k d := ⟨ne, mi, e, mi.writes_mem_fields write⟩
  obtain rfl := loops.here here written
  exact ⟨k, ⟨i, j, mention, mention', by omega, by omega⟩, written.inRange⟩

/-- Every write of a run is covered. -/
theorem SpansLoops.covered (loops : SpansLoops code P) {start q : Int} (here : P start q)
    (dead : ∀ v, ¬ Live (fetch code) start v) {s : Thread hw RegField}
    (at_start : s.pc = some start) (n : Nat) :
    Machine.Along (fun s : Thread hw RegField => ∀ pc, s.pc = some pc → Covered code pc)
      (threadStep (fetch code)) n s := by
  have first : MentionedBefore code P s := by
    intro pc at_pc
    obtain rfl := Option.some.inj (at_start.symm.trans at_pc)
    exact ⟨q, here, fun w live => absurd live (dead w)⟩
  exact (Machine.Along.of_invariant (fun h step => h.step loops step) first).mono
    fun _ h => h.covered loops

end Loops

/-- The only jumps are branches. -/
lemma spansLoops_of_branches {code : List MachineInstruction}
    (spans : ∀ (i : Nat) mi v, code[i]? = some mi → mi.op = .br → mi.imm.toInt ≤ 0 →
      Live (fetch code) (i + mi.imm.toInt) v →
      (∃ k : Nat, (k : Int) < i + mi.imm.toInt ∧ Mentions code k v) ∧
        ∃ j, i ≤ j ∧ Mentions code j v) :
    SpansLoops code fun pc q => q = pc where
  here here _ := here
  next {i q mi flags pc} here e goes := by
    subst here
    refine ⟨pc, rfl, ?_⟩
    unfold nextPc at goes
    split at goes
    · next branch =>
      obtain rfl := Option.some.inj goes
      split
      · obtain back | later := le_or_gt mi.imm.toInt 0
        · refine .inr fun v live => ?_
          obtain ⟨before, j, le, behind⟩ := spans i mi v e branch back live
          exact ⟨before, j, by omega, behind⟩
        · exact .inl ⟨by omega, fun _ _ => by omega⟩
      · exact .inl ⟨by omega, fun _ _ => by omega⟩
    · cases goes
    · obtain rfl := Option.some.inj goes
      exact .inl ⟨by omega, fun _ _ => by omega⟩

/-! ## Live registers from a table -/

/-- Where control may go from an instruction. -/
def nextPcs (mi : MachineInstruction) (pc : Nat) : List Int :=
  match mi.op with
  | .br => [pc + mi.imm.toInt, pc + 1]
  | .exit => []
  | _ => [pc + 1]

/-- The table has the registers that an instruction reads, and those it keeps for the next ones. -/
def LiveTable (table : List (List RegField)) (code : List MachineInstruction) : Prop :=
  ∀ p ∈ code.zipIdx, (∀ v ∈ p.1.reads, v ≠ 0 → v ∈ table.getD p.2 []) ∧
    ∀ pc ∈ nextPcs p.1 p.2, ∀ v ∈ table.getD pc.toNat [], p.1.writes ≠ some v →
      v ∈ table.getD p.2 []

instance (table : List (List RegField)) (code : List MachineInstruction) :
    Decidable (LiveTable table code) :=
  decidable_of_iff
    (code.zipIdx.all fun p =>
      (p.1.reads.all fun v => v == 0 || (table.getD p.2 []).elem v) &&
        (nextPcs p.1 p.2).all fun pc => (table.getD pc.toNat []).all fun v =>
          p.1.writes == some v || (table.getD p.2 []).elem v)
    (by simp [LiveTable, or_iff_not_imp_left])

/-- What is live is in the table. -/
lemma LiveTable.mem {table : List (List RegField)} {code : List MachineInstruction}
    (h : LiveTable table code) {pc : Int} {v : RegField} (live : Live (fetch code) pc v) :
    ∃ i : Nat, pc = i ∧ v ∈ table.getD i [] := by
  refine live.mem_of_closed (L := fun i v => v ∈ table.getD i []) (fun i mi v e mem ne => ?_)
    fun i mi v flags j e keeps goes mem => ?_
  · exact (h _ (List.mk_mem_zipIdx_iff_getElem?.mpr e)).1 v mem ne
  · refine (h _ (List.mk_mem_zipIdx_iff_getElem?.mpr e)).2 j ?_ v (by simpa using mem) keeps
    unfold nextPc at goes
    unfold nextPcs
    generalize mi.op = op at goes ⊢
    cases op with
    | br =>
      have target := Option.some.inj goes
      split at target <;> simp [target]
    | exit => cases goes
    | _ => exact List.mem_singleton.mpr (Option.some.inj goes).symm

/-- Allocation preserves every run of code where each register is written before it is read, and
each one that is live around a loop is mentioned before the loop and at its backward branch or
behind it. -/
theorem allocate_preserves_loops {order : SortOrder} {blocks blocks' : List BasicBlockCode}
    (run : allocate order blocks = some blocks')
    (written : ∀ v, ¬ Live (fetch (resolveBranchOffsets blocks)) 0 v)
    (spans : ∀ (i : Nat) mi v, (resolveBranchOffsets blocks)[i]? = some mi →
      mi.op = .br → mi.imm.toInt ≤ 0 →
      Live (fetch (resolveBranchOffsets blocks)) (i + mi.imm.toInt) v →
      (∃ k : Nat, (k : Int) < i + mi.imm.toInt ∧ Mentions (layout blocks) k v) ∧
        ∃ j, i ≤ j ∧ Mentions (layout blocks) j v)
    (hw : Hardware) (s t : Thread hw RegField) (start : s.pc = some 0)
    (pc : t.pc = s.pc) (mem : t.mem = s.mem) (flags : t.flags = s.flags) (n : Nat) :
    Machine.trace (threadStep (fetch (resolveBranchOffsets blocks'))) n t =
        Machine.trace (threadStep (fetch (resolveBranchOffsets blocks))) n s ∧
      Option.Rel (fun s t : Thread hw RegField => t.pc = s.pc ∧ t.mem = s.mem ∧ t.flags = s.flags)
        (Machine.after (threadStep (fetch (resolveBranchOffsets blocks))) n s)
        (Machine.after (threadStep (fetch (resolveBranchOffsets blocks'))) n t) := by
  obtain ⟨φ, rfl, alloc⟩ := allocate_spec run
  have loops : SpansLoops (resolveBranchOffsets blocks) fun pc q => q = pc := by
    refine spansLoops_of_branches fun i mi v e branch back live => ?_
    simpa only [mentions_resolveBranchOffsets] using spans i mi v e branch back live
  have agree : LiveAgree (fetch (resolveBranchOffsets blocks)) φ s t := by
    refine ⟨pc, mem, flags, fun pc v at_pc live => ?_⟩
    obtain rfl := Option.some.inj (start.symm.trans at_pc)
    exact absurd live (written v)
  rw [resolveBranchOffsets_mapRegs]
  obtain ⟨trace, after⟩ := alloc.resolve.preserves (loops.covered rfl written start n) agree
  exact ⟨trace, Machine.rel_mono (fun _ _ rel => ⟨rel.pc, rel.mem, rel.flags⟩) after⟩

/-- A loop that reads two registers, one of them behind the loop as well. -/
def rounds : List BasicBlockCode :=
  [{ name := "entry".toList
     instructions := [{ MachineInstruction.ofOp .addi with rd := 1, imm := 1 }] },
   { name := "loop".toList
     instructions :=
       [{ MachineInstruction.ofOp .addi with rd := 2, rs1 := 1, imm := 7 },
        { MachineInstruction.ofOp .str with rs1 := 2, rs2 := 1 },
        { MachineInstruction.ofOp .br with labelTarget := "loop".toList, cond := 1 }] },
   { name := "exit".toList
     instructions :=
       [{ MachineInstruction.ofOp .str with rs1 := 1, rs2 := 1 }, MachineInstruction.ofOp .exit] }]

/-- Allocation preserves a loop around which a register is live. -/
theorem allocate_preserves_rounds : ∃ blocks', allocate .stable rounds = some blocks' ∧
    ∀ (s t : Thread Hardware.plain RegField), s.pc = some 0 → t.pc = s.pc →
      t.mem = s.mem → t.flags = s.flags →
      ∀ n, Machine.trace (threadStep (fetch (resolveBranchOffsets blocks'))) n t =
        Machine.trace (threadStep (fetch (resolveBranchOffsets rounds))) n s := by
  have table : LiveTable [[], [1], [1, 2], [1], [1], []] (resolveBranchOffsets rounds) := by decide
  obtain ⟨blocks', alloc⟩ : ∃ blocks', allocate .stable rounds = some blocks' :=
    Option.isSome_iff_exists.mp (by decide)
  refine ⟨blocks', alloc, fun s t start pc mem flags n =>
    (allocate_preserves_loops alloc (fun v live => ?_)
    (fun i mi v e branch back live => ?_) _ s t start pc mem flags n).1⟩
  · obtain ⟨i, e, mem⟩ := table.mem live
    obtain rfl : i = 0 := by omega
    cases mem
  · have only : ∀ p ∈ (resolveBranchOffsets rounds).zipIdx, p.1.op = .br → p.2 = 3 ∧
        p.1.imm.toInt = -2 := by
      decide
    obtain ⟨rfl, imm⟩ := only _ (List.mk_mem_zipIdx_iff_getElem?.mpr e) branch
    rw [imm] at live ⊢
    obtain ⟨i, e, mem⟩ := table.mem live
    obtain rfl : i = 1 := by omega
    obtain rfl := List.mem_singleton.mp mem
    exact ⟨⟨0, by decide, by decide, _, rfl, by decide⟩, 4, by decide, by decide, _, rfl, by decide⟩

end FpgaGpu

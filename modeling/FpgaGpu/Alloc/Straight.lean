import FpgaGpu.Alloc.Simulation
import FpgaGpu.Isa.Sequence

/-!
# Allocation of code without branches

In code without branches that writes each register before it reads it, no register is live at the
start, and the range of a register meets those of all registers that are live after a write to it.
-/

namespace FpgaGpu

/-- Without branches control goes to the next instruction. -/
lemma nextPc_of_noBranch {Reg : Type} {code : List (Instruction Reg)}
    (noBranch : ∀ mi ∈ code, mi.op ≠ .br) {i : Nat} {mi : Instruction Reg} (e : code[i]? = some mi)
    {flags : Word} {pc' : Int} (goes : nextPc mi i flags = some pc') :
    (i : Int) + 1 = pc' := by
  have plain : mi.op ≠ .exit := by
    intro exit
    rw [nextPc, exit] at goes
    cases goes
  have next := Instruction.Plain.nextPc ⟨noBranch mi (List.mem_of_getElem? e), plain⟩ i flags
  exact Option.some.inj (next.symm.trans goes)

section Straight

variable {Reg Reg' : Type} [Zero Reg] [Zero Reg']

/-- Renaming keeps that registers are written before they are read. -/
lemma ReadsWritten.mapRegs {φ : Reg → Reg'} (zero : φ 0 = 0) {written : Reg → Prop}
    {written' : Reg' → Prop} (h : ∀ r, written r → written' (φ r)) {code : List (Instruction Reg)}
    (reads : ReadsWritten written code) :
    ReadsWritten written' (code.map (Instruction.mapRegs φ)) := by
  induction code generalizing written written' with
  | nil => trivial
  | cons mi code ih =>
    refine ⟨?_, ih (fun r old => ?_) reads.2⟩
    · rw [reads_mapRegs]
      simp only [List.mem_map, forall_exists_index, and_imp, forall_apply_eq_imp_iff₂]
      intro r mem
      obtain rfl | old := reads.1 r mem
      · exact .inl zero
      · exact .inr (h r old)
    · rw [writes_mapRegs]
      obtain old | write := old
      · exact .inl (h r old)
      · exact .inr (by rw [write]; rfl)

variable {code : List (Instruction Reg)}

/-- A live register is read later, and not written before that. -/
lemma Live.exists_next_read (noBranch : ∀ mi ∈ code, mi.op ≠ .br) {pc : Int} {v : Reg}
    (live : Live (fetch code) pc v) :
    ∃ (i j : Nat) (mi : Instruction Reg), pc = i ∧ i ≤ j ∧ code[j]? = some mi ∧ v ∈ mi.reads ∧
      ∀ k mi', i ≤ k → k < j → code[k]? = some mi' → mi'.writes ≠ some v := by
  induction live with
  | @read pc mi v at_pc mem ne =>
    obtain ⟨i, rfl, e⟩ := exists_of_fetch at_pc
    exact ⟨i, i, mi, rfl, Nat.le_refl i, e, mem, fun k mi' le lt => by omega⟩
  | @next pc pc' mi v flags at_pc keeps goes live ih =>
    obtain ⟨i, rfl, e⟩ := exists_of_fetch at_pc
    obtain ⟨i', j, mi', e', le, e'', mem, between⟩ := ih
    have step := nextPc_of_noBranch noBranch e goes
    obtain rfl : i' = i + 1 := by omega
    refine ⟨i, j, mi', rfl, by omega, e'', mem, fun k mi'' le' lt ek => ?_⟩
    obtain rfl | lt' := Nat.eq_or_lt_of_le le'
    · obtain rfl := Option.some.inj (ek.symm.trans e)
      exact keeps
    · exact between k mi'' lt' lt ek

/-- Nothing is live at the start. -/
lemma ReadsWritten.not_live (noBranch : ∀ mi ∈ code, mi.op ≠ .br)
    (reads : ReadsWritten (fun _ => False) code) (v : Reg) : ¬ Live (fetch code) 0 v := by
  intro live
  obtain ⟨i, j, mi, e, -, at_j, mem, between⟩ := live.exists_next_read noBranch
  obtain old | ⟨k, lt, mi', at_k, write⟩ := reads.exists_write at_j mem live.ne_zero
  · exact old
  · exact between k mi' (by omega) lt at_k write

end Straight

/-- Every write is covered. -/
lemma ReadsWritten.covered {code : List MachineInstruction} (noBranch : ∀ mi ∈ code, mi.op ≠ .br)
    (reads : ReadsWritten (fun _ => False) code) (pc : Int) : Covered code pc := by
  intro mi d w flags pc' at_pc write ne goes live differ
  obtain ⟨i, rfl, e⟩ := exists_of_fetch at_pc
  have step := nextPc_of_noBranch noBranch e goes
  obtain ⟨i', j, mi', e', le, at_j, mem, between⟩ := live.exists_next_read noBranch
  obtain rfl : i' = i + 1 := by omega
  obtain old | ⟨k, lt, mi'', at_k, write'⟩ := reads.exists_write at_j mem live.ne_zero
  · exact old.elim
  · -- the write that the read sees is not after the write of `d`
    have le' : k ≤ i := by
      by_contra later
      exact between k mi'' (by omega) lt at_k write'
    refine ⟨i, ⟨k, j, ?_, ?_, le', by omega⟩,
      Mentions.inRange ⟨ne, mi, e, mi.writes_mem_fields write⟩⟩
    · exact ⟨live.ne_zero, mi'', at_k, mi''.writes_mem_fields write'⟩
    · exact ⟨live.ne_zero, mi', at_j, reads_subset_fields mem⟩

/-! ## Narrowing -/

section Narrowing

variable {Reg Reg' : Type} [Zero Reg] [Zero Reg'] {hw : Hardware}
variable {program : Int → Option (Instruction Reg)} {φ : Reg → Reg'}

/-- The registers that a program reads or writes, and R0. -/
def Accessed (program : Int → Option (Instruction Reg)) (r : Reg) : Prop :=
  r = 0 ∨ ∃ pc mi, program pc = some mi ∧ (r ∈ mi.reads ∨ mi.writes = some r)

lemma Live.accessed {pc : Int} {r : Reg} (live : Live program pc r) : Accessed program r := by
  obtain ⟨pc', mi, e, mem⟩ := live.exists_read
  exact .inr ⟨pc', mi, e, .inl mem⟩

variable [DecidableEq Reg] [DecidableEq Reg']

/-- A renaming that keeps the registers of a program apart keeps its runs. -/
theorem after_renameProgram (zero : φ 0 = 0)
    (inj : ∀ r r', Accessed program r → Accessed program r' → φ r = φ r' → r = r')
    {s : Thread hw Reg} {t : Thread hw Reg'} (rel : LiveAgree program φ s t) (n : Nat) :
    Option.Rel (LiveAgree program φ) (Machine.after (threadStep program) n s)
      (Machine.after (threadStep (renameProgram φ program)) n t) := by
  have nonzero : ∀ pc v, Live program pc v → φ v ≠ 0 := fun pc v live same =>
    live.ne_zero (inj v 0 live.accessed (.inl rfl) (same.trans zero.symm))
  have safe : ∀ pc, Safe program φ pc := fun pc mi d w flags pc' e write _ _ live differ same =>
    differ (inj w d live.accessed (.inr ⟨pc, mi, e, .inr write⟩) same)
  have all : Machine.Along (fun _ : Thread hw Reg => True) (threadStep program) n s :=
    .of_invariant (fun _ _ => trivial) trivial
  exact Machine.after_related (fun _ rel => rel.step zero nonzero fun pc _ => safe pc) all rel

end Narrowing

end FpgaGpu

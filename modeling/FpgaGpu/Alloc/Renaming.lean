import FpgaGpu.Isa.Semantics

/-!
# Renaming registers

Replacing registers keeps what a program does, as long as no instruction writes over the new
register of a value that is still to be read.
-/

namespace FpgaGpu

section Renaming

variable {Reg Reg' : Type} {hw : Hardware} {program : Int → Option (Instruction Reg)}
variable {φ : Reg → Reg'}

/-- A program over the new registers. -/
def renameProgram (φ : Reg → Reg') (program : Int → Option (Instruction Reg)) (pc : Int) :
    Option (Instruction Reg') :=
  (program pc).map (Instruction.mapRegs φ)

variable [Zero Reg]

/-- Some path from `pc` reads `r` before it writes `r`. -/
inductive Live (program : Int → Option (Instruction Reg)) : Int → Reg → Prop
  | read {pc mi r} (at_pc : program pc = some mi) (mem : r ∈ mi.reads) (ne : r ≠ 0) :
    Live program pc r
  | next {pc pc' mi r flags} (at_pc : program pc = some mi) (keeps : mi.writes ≠ some r)
    (goes : nextPc mi pc flags = some pc') (live : Live program pc' r) : Live program pc r

/-- R0 is not a value. -/
lemma Live.ne_zero {pc : Int} {r : Reg} (live : Live program pc r) : r ≠ 0 := by
  induction live with
  | read _ _ ne => exact ne
  | next _ _ _ _ ih => exact ih

/-- A live register is read somewhere. -/
lemma Live.exists_read {pc : Int} {r : Reg} (live : Live program pc r) :
    ∃ pc' mi, program pc' = some mi ∧ r ∈ mi.reads := by
  induction live with
  | read at_pc mem _ => exact ⟨_, _, at_pc, mem⟩
  | next _ _ _ _ ih => exact ih

/-- No write at `pc` hits the new register of another value that is live after it. -/
def Safe (program : Int → Option (Instruction Reg)) (φ : Reg → Reg') (pc : Int) : Prop :=
  ∀ mi d w flags pc', program pc = some mi → mi.writes = some d → d ≠ 0 →
    nextPc mi pc flags = some pc' → Live program pc' w → w ≠ d → φ w ≠ φ d

/-- The states of the two programs agree on the values that are live. -/
structure LiveAgree (program : Int → Option (Instruction Reg)) (φ : Reg → Reg') (s : Thread hw Reg)
    (t : Thread hw Reg') : Prop where
  pc : t.pc = s.pc
  mem : t.mem = s.mem
  flags : t.flags = s.flags
  regs : ∀ pc v, s.pc = some pc → Live program pc v → t.regs (φ v) = s.regs v

variable [DecidableEq Reg] [Zero Reg'] [DecidableEq Reg']

/-- Instructions that read the same values compute the same. -/
lemma result_mapRegs {s : Thread hw Reg} {t : Thread hw Reg'} {mi : Instruction Reg}
    (mem : t.mem = s.mem) (reads : ∀ r ∈ mi.reads, t.read (φ r) = s.read r) :
    result t (mi.mapRegs φ) = result s mi := by
  unfold Instruction.reads at reads
  unfold result Instruction.mapRegs
  cases e : mi.op <;> simp_all [Opcode.usesRs1, Opcode.usesRs2]

/-- Instructions that read the same values show the same. -/
lemma shows_mapRegs {s : Thread hw Reg} {t : Thread hw Reg'} {mi : Instruction Reg}
    (flags : t.flags = s.flags) (reads : ∀ r ∈ mi.reads, t.read (φ r) = s.read r) :
    shows t (mi.mapRegs φ) = shows s mi := by
  unfold Instruction.reads at reads
  unfold shows Instruction.mapRegs
  cases e : mi.op <;> simp_all [Opcode.usesRs1, Opcode.usesRs2]

/-- Instructions that read the same values store the same. -/
lemma mem_execute_mapRegs {s : Thread hw Reg} {t : Thread hw Reg'} {mi : Instruction Reg} {pc : Int}
    (mem : t.mem = s.mem) (reads : ∀ r ∈ mi.reads, t.read (φ r) = s.read r) :
    (execute t pc (mi.mapRegs φ)).mem = (execute s pc mi).mem := by
  unfold Instruction.reads at reads
  unfold execute Instruction.mapRegs
  cases e : mi.op <;> simp_all [Opcode.usesRs1, Opcode.usesRs2]

/-- One step. -/
lemma LiveAgree.step {s : Thread hw Reg} {t : Thread hw Reg'} (zero : φ 0 = 0)
    (nonzero : ∀ pc v, Live program pc v → φ v ≠ 0)
    (safe : ∀ pc, s.pc = some pc → Safe program φ pc) (rel : LiveAgree program φ s t) :
    Machine.Lockstep Eq (LiveAgree program φ) (threadStep program)
      (threadStep (renameProgram φ program)) s t := by
  unfold Machine.Lockstep
  cases at_pc : s.pc with
  | none =>
    rw [threadStep_none (by simp [at_pc]), threadStep_none (by simp [rel.pc, at_pc])]
    exact .none
  | some pc =>
    cases e : program pc with
    | none =>
      have stop : ∀ pc', s.pc = some pc' → program pc' = none := by simp_all
      have stop' : ∀ pc', t.pc = some pc' → renameProgram φ program pc' = none := by
        simp_all [rel.pc, renameProgram]
      rw [threadStep_none stop, threadStep_none stop']
      exact .none
    | some mi =>
      have e' : renameProgram φ program pc = some (mi.mapRegs φ) := by simp [renameProgram, e]
      rw [threadStep_eq at_pc e, threadStep_eq (rel.pc.trans at_pc) e']
      have reads : ∀ r ∈ mi.reads, t.read (φ r) = s.read r := by
        intro r mem
        by_cases z : r = 0
        · simp [z, zero, Thread.read]
        · have live := Live.read e mem z
          simp [Thread.read, z, nonzero pc r live, rel.regs pc r at_pc live]
      have same := result_mapRegs rel.mem reads
      refine .some ⟨(shows_mapRegs rel.flags reads).symm, ?_,
        mem_execute_mapRegs rel.mem reads, ?_, ?_⟩
      · simp only [execute, nextPc_mapRegs, rel.flags]
      · simp only [execute, same, rel.flags]
        rfl
      -- a register that is live afterwards was live before, unless this instruction writes it
      · intro pc' v goes live
        have old : mi.writes ≠ some v → t.regs (φ v) = s.regs v :=
          fun keeps => rel.regs pc v at_pc (.next e keeps goes live)
        by_cases writes : mi.op.usesRd
        · simp only [execute, mapRegs_op, writes, if_true, same]
          have dest : mi.writes = some mi.rd := if_pos writes
          by_cases hit : v = mi.rd
          · subst hit
            simp [Instruction.mapRegs]
          · have apart : φ v ≠ φ mi.rd := by
              by_cases z : mi.rd = 0
              · rw [z, zero]
                exact nonzero pc' v live
              · exact safe pc at_pc mi mi.rd v s.flags pc' e dest z goes live hit
            have keeps : mi.writes ≠ some v := by
              rw [dest]
              exact fun h => hit (Option.some.inj h).symm
            rw [Function.update_of_ne hit, Instruction.mapRegs, Function.update_of_ne apart,
              old keeps]
        · have keeps : mi.writes ≠ some v := by simp [Instruction.writes, writes]
          simpa [execute, writes] using old keeps

end Renaming

end FpgaGpu

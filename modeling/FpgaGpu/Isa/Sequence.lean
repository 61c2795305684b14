import FpgaGpu.Isa.Semantics

/-!
# Code without branches

Instructions that neither branch nor exit are executed one after the other.
-/

namespace FpgaGpu

section Sequence

variable {hw : Hardware} {Reg : Type}

/-- Control goes on to the next instruction. -/
def Instruction.Plain (mi : Instruction Reg) : Prop := mi.op ≠ .br ∧ mi.op ≠ .exit

lemma Instruction.Plain.nextPc {mi : Instruction Reg} (plain : mi.Plain) (pc : Int) (flags : Word) :
    FpgaGpu.nextPc mi pc flags = some (pc + 1) := by
  unfold FpgaGpu.nextPc
  split
  · exact absurd ‹_› plain.1
  · exact absurd ‹_› plain.2
  · rfl

/-- `written`, or written by the code. -/
def WrittenBy (written : Reg → Prop) (code : List (Instruction Reg)) (r : Reg) : Prop :=
  written r ∨ ∃ mi ∈ code, mi.writes = some r

@[simp] lemma writtenBy_nil (written : Reg → Prop) : WrittenBy written [] = written := by
  funext r
  simp [WrittenBy]

lemma writtenBy_append (written : Reg → Prop) (code code' : List (Instruction Reg)) :
    WrittenBy (WrittenBy written code) code' = WrittenBy written (code ++ code') := by
  funext r
  simp only [WrittenBy, List.mem_append, or_and_right, exists_or, or_assoc]

variable [Zero Reg]

section Run

variable [DecidableEq Reg]

/-- Executes instructions in order. -/
def executeAll (s : Thread hw Reg) : List (Instruction Reg) → Thread hw Reg
  | [] => s
  | mi :: code => executeAll (execute s (s.pc.getD 0) mi) code

lemma executeAll_append (s : Thread hw Reg) (code code' : List (Instruction Reg)) :
    executeAll s (code ++ code') = executeAll (executeAll s code) code' := by
  induction code generalizing s with
  | nil => rfl
  | cons mi code ih => exact ih _

/-- A program runs through a part of it that does what code without branches does. -/
lemma after_executeAll_of_acts {program : Int → Option (Instruction Reg)}
    {code : List (Instruction Reg)} {s : Thread hw Reg} {pc : Int} (at_pc : s.pc = some pc)
    (part : ∀ (i : Nat) mi, code[i]? = some mi → ∃ mi', program (pc + i) = some mi' ∧
      ∀ (s : Thread hw Reg) pc, execute s pc mi' = execute s pc mi)
    (plain : ∀ mi ∈ code, mi.Plain) :
    Machine.after (threadStep program) code.length s = some (executeAll s code) ∧
      (executeAll s code).pc = some (pc + code.length) := by
  induction code generalizing s pc with
  | nil => exact ⟨rfl, by simpa [executeAll] using at_pc⟩
  | cons mi code ih =>
    obtain ⟨head, plain⟩ := List.forall_mem_cons.mp plain
    obtain ⟨mi', e, acts⟩ := part 0 mi rfl
    rw [Nat.cast_zero, Int.add_zero] at e
    have next : (execute s pc mi).pc = some (pc + 1) := head.nextPc pc s.flags
    obtain ⟨after, pc'⟩ := ih next (fun i mi' h => by
      have at_i := part (i + 1) mi' (by simpa using h)
      rwa [Nat.cast_add, Nat.cast_one, Int.add_comm i 1, ← Int.add_assoc] at at_i) plain
    have same : executeAll s (mi :: code) = executeAll (execute s pc mi) code := by
      rw [executeAll, at_pc, Option.getD_some]
    rw [same]
    refine ⟨?_, ?_⟩
    · rw [List.length_cons, Machine.after, threadStep_eq at_pc e, acts]
      exact after
    · rw [pc', List.length_cons]
      simp only [Option.some.injEq]
      push_cast
      omega

/-- A program runs through a part of it that does not branch. -/
lemma after_executeAll {program : Int → Option (Instruction Reg)} {code : List (Instruction Reg)}
    {s : Thread hw Reg} {pc : Int} (at_pc : s.pc = some pc)
    (part : ∀ (i : Nat) mi, code[i]? = some mi → program (pc + i) = some mi)
    (plain : ∀ mi ∈ code, mi.Plain) :
    Machine.after (threadStep program) code.length s = some (executeAll s code) ∧
      (executeAll s code).pc = some (pc + code.length) :=
  after_executeAll_of_acts at_pc (fun i mi e => ⟨mi, part i mi e, fun _ _ => rfl⟩) plain

/-- A program runs up to its `EXIT`. -/
lemma after_exit {body : List (Instruction Reg)} {exit : Instruction Reg} {s : Thread hw Reg}
    (start : s.pc = some 0) (plain : ∀ mi ∈ body, mi.Plain) (op : exit.op = .exit) :
    ∃ t, Machine.after (threadStep (fetch (body ++ [exit]))) (body.length + 1) s = some t ∧
      t.pc = none ∧ t.mem = (executeAll s body).mem := by
  have part : ∀ (i : Nat) mi, body[i]? = some mi → fetch (body ++ [exit]) (0 + i) = some mi := by
    intro i mi e
    rw [Int.zero_add, fetch_natCast,
      List.getElem?_append_left (List.getElem?_eq_some_iff.mp e).1, e]
  obtain ⟨run, pc⟩ := after_executeAll start part plain
  rw [Int.zero_add] at pc
  have last : fetch (body ++ [exit]) (body.length : Int) = some exit := by simp [fetch_natCast]
  refine ⟨execute (executeAll s body) body.length exit, ?_, ?_, ?_⟩
  · rw [Machine.after_add, run, Option.bind_some, Machine.after, threadStep_eq pc last]
    rfl
  · simp [execute, nextPc, op]
  · simp [execute, op]

end Run

/-! ## Registers that are written before they are read -/

/-- Each register that is read is R0, in `written`, or written before. -/
def ReadsWritten (written : Reg → Prop) : List (Instruction Reg) → Prop
  | [] => True
  | mi :: code => (∀ r ∈ mi.reads, r = 0 ∨ written r) ∧
    ReadsWritten (fun r => written r ∨ mi.writes = some r) code

lemma ReadsWritten.mono {written written' : Reg → Prop} (h : ∀ r, written r → written' r)
    {code : List (Instruction Reg)} (reads : ReadsWritten written code) :
    ReadsWritten written' code := by
  induction code generalizing written written' with
  | nil => trivial
  | cons mi code ih =>
    exact ⟨fun r mem => (reads.1 r mem).imp_right (h r), ih (fun r => Or.imp_left (h r)) reads.2⟩

lemma ReadsWritten.append {written : Reg → Prop} {code code' : List (Instruction Reg)}
    (h : ReadsWritten written code) (h' : ReadsWritten (WrittenBy written code) code') :
    ReadsWritten written (code ++ code') := by
  induction code generalizing written with
  | nil => exact h'.mono (by simp)
  | cons mi code ih =>
    refine ⟨h.1, ih h.2 (h'.mono fun r => ?_)⟩
    simp only [WrittenBy, List.mem_cons, exists_eq_or_imp]
    exact or_assoc.mpr

/-- A read comes after a write. -/
lemma ReadsWritten.exists_write {written : Reg → Prop} {code : List (Instruction Reg)}
    (h : ReadsWritten written code) {k : Nat} {mi : Instruction Reg}
    (e : code[k]? = some mi) {r : Reg} (read : r ∈ mi.reads) (ne : r ≠ 0) :
    written r ∨ ∃ j < k, ∃ mi', code[j]? = some mi' ∧ mi'.writes = some r := by
  induction code generalizing written k with
  | nil => cases e
  | cons mi' code ih =>
    cases k with
    | zero =>
      obtain rfl := Option.some.inj e
      exact .inl ((h.1 r read).resolve_left ne)
    | succ k =>
      obtain (old | write) | ⟨j, lt, mi'', e', write⟩ := ih h.2 (by simpa using e)
      · exact .inl old
      · exact .inr ⟨0, Nat.succ_pos k, mi', rfl, write⟩
      · exact .inr ⟨j + 1, Nat.succ_lt_succ lt, mi'', by simpa using e', write⟩

end Sequence

end FpgaGpu

import FpgaGpu.Isel.Kernel

/-!
# Handlers in the middle of a run

Control can come to a handler from anywhere, so the register of a value that the handler does not
use may hold something else. What the handler computes is right as soon as the registers of the
operands hold these, and the handler writes no register of a value but those of its result and of
new constants.
-/

namespace FpgaGpu

open Llvm (Value)

section Congruence

variable {hw : Hardware} {value value' : Value → Word} {steps : List PlanStep}

/-- The steps of a handler depend on the values that they use. -/
lemma evaluate_congr (same : ∀ u ∈ stepUses steps, value' u.1 = value u.1) (n : Nat)
    (file : Thread hw Nat) : evaluate value' n file steps = evaluate value n file steps := by
  induction steps generalizing n file with
  | nil => rfl
  | cons step steps ih =>
    cases step with
    | result | fresh => exact ih same (n + 1) file
    | emit mi => exact ih same n _
    | use v materialize =>
      obtain ⟨head, same⟩ := List.forall_mem_cons.mp same
      rw [evaluate, evaluate, show value' v = value v from head]
      exact ih same (n + 1) _

lemma Yields.congr {mem mem' : hw.Mem} {us : List (Value × Bool)} {x : Option Word}
    (h : Yields value mem us steps mem' x) (same : ∀ u ∈ us, value' u.1 = value u.1) :
    Yields value' mem us steps mem' x := by
  obtain ⟨rfl, wf, init, stores, result, silent⟩ := h
  have evaluated := evaluate_congr same 0 (.blank mem)
  exact ⟨rfl, wf, init, evaluated ▸ stores, evaluated ▸ result, silent⟩

end Congruence

section Handling

variable {hw : Hardware} {value : Value → Word} {own : Value} {us : List (Value × Bool)}
variable {steps : List PlanStep} {st st' last : Selector} {s : Thread hw Nat}
  {out : List (Instruction Nat)}
variable {mem' : hw.Mem} {x : Option Word}

/-- A handler with the operands `us` leaves a memory and a result, gives new registers the values
that they are for, and keeps what the registers of the other values hold. -/
structure Handles (value : Value → Word) (own : Value) (us : List (Value × Bool))
    (st st' last : Selector) (s s' : Thread hw Nat) (mem' : hw.Mem) (x : Option Word) : Prop where
  mem : s'.mem = mem'
  keeps : ∀ v r, last.valueToVReg v = some r →
    (v = own ∧ x ≠ none) ∨ (s.regs r = value v → s'.regs r = value v)
  new : ∀ v r, st.valueToVReg v = none → st'.valueToVReg v = some r →
    (v = own ∧ x ≠ none) ∨ s'.regs r = value v
  operands : ∀ u ∈ us, ∀ r, st'.regOf u.1 = some r → s'.read r = value u.1
  result : ∀ y, x = some y → ∃ r, st'.valueToVReg own = some r ∧ s'.regs r = y

/-- An operand is in the register that it has in the end, or is a constant that is loaded if need
be. -/
structure Waits (value : Value → Word) (st last : Selector) (s : Thread hw Nat) (u : Value × Bool) :
    Prop where
  values : isConstantInt u.1 = false → ∀ r, last.valueToVReg u.1 = some r → s.regs r = value u.1
  loaded : isConstantInt u.1 = true →
    u.2 = true ∧ ∀ r, st.valueToVReg u.1 = some r → s.regs r = value u.1

/-- The values, except that those that a handler does not use are what their registers hold. -/
def present (value : Value → Word) (us : List (Value × Bool)) (st : Selector) (s : Thread hw Nat)
    (v : Value) : Word :=
  if v ∈ us.map Prod.fst then value v else ((st.valueToVReg v).map s.regs).getD (value v)

lemma present_of_mem {u : Value × Bool} (mem : u ∈ us) : present value us st s u.1 = value u.1 :=
  if_pos (List.mem_map_of_mem mem)

/-- A register that holds its value is no exception. -/
lemma present_of_holds {v : Value} (h : ∀ r, st.valueToVReg v = some r → s.regs r = value v) :
    present value us st s v = value v := by
  unfold present
  split
  · rfl
  · cases e : st.valueToVReg v with
    | none => rfl
    | some r => exact h r e

/-- One handler. It reads registers of values, and what it has written. -/
lemma runSteps_handles (valid : st.Valid) (grows : Grows st' last)
    (inst : isConstantInt own = false) (constants : ConstantsValued value)
    (yields : Yields value s.mem us steps mem' x) (notUsed : ∀ u ∈ us, u.1 ≠ own)
    (waits : ∀ u ∈ us, Waits value st last s u)
    (h : runSteps own [] steps st = some ((), out, st')) :
    ReadsWritten (fun r => ∃ v, last.valueToVReg v = some r) out ∧
      Handles value own us st st' last s (executeAll s out) mem' x := by
  have same : ∀ u ∈ us, present value us st s u.1 = value u.1 := fun u mem => present_of_mem mem
  obtain ⟨rfl, wf, init, stores, result, silent⟩ := yields.congr same
  have sub : ∀ u ∈ stepUses steps, u.1 ∈ (stepUses steps).map Prod.fst :=
    fun u mem => List.mem_map_of_mem mem
  have off : own ∉ (stepUses steps).map Prod.fst := by
    intro mem
    obtain ⟨u, hu, rfl⟩ := List.mem_map.mp mem
    exact notUsed u hu rfl
  have ran := runSteps_ran valid inst .nil wf sub h
  have grows' := ran.handled.grows
  have new : NewConstantsValued st (present value (stepUses steps) st s) := by
    intro w bits none
    rw [present_of_holds fun r e => by rw [none] at e; cases e]
    exact constants w bits
  have start : Tracks (present value (stepUses steps) st s) own
    (fun r => ∃ v, last.valueToVReg v = some r)
      [] [] [] st s (.blank s.mem) := by
    refine ⟨rfl, fun v r e => .inr ⟨?_, v, grows.keeps (grows'.keeps e)⟩, nofun, nofun,
      fun j k hj => by obtain hj | hj := hj <;> cases j <;> cases hj⟩
    by_cases used : v ∈ (stepUses steps).map Prod.fst
    · obtain ⟨u, hu, rfl⟩ := List.mem_map.mp used
      rw [same u hu]
      cases constant : isConstantInt u.1 with
      | false => exact (waits u hu).values constant r (grows.keeps (grows'.keeps e))
      | true => exact ((waits u hu).loaded constant).2 r e
    · rw [present, if_neg used, e]
      rfl
  have ready : ∀ u ∈ stepUses steps, Ready (present value (stepUses steps) st s)
      (fun r => ∃ v, last.valueToVReg v = some r) st st' s u := by
    intro u hu
    cases constant : isConstantInt u.1 with
    | false =>
      refine .inr ⟨constant, fun r e => ⟨?_, u.1, grows.keeps e⟩⟩
      rw [same u hu]
      exact (waits u hu).values constant r (grows.keeps e)
    | true => exact .inl (.inr (.inr ⟨constant, ((waits u hu).loaded constant).1⟩))
  obtain ⟨reads, regs, held, tracks⟩ :=
    runSteps_tracks valid new inst off .nil start wf init sub ready h
  -- what has a register after the handler
  have values : ∀ v r, st'.valueToVReg v = some r → (v = own ∧ x ≠ none) ∨
      (executeAll s out).regs r = present value (stepUses steps) st s v := by
    intro v r e
    refine (tracks.values v r e).imp (fun ⟨own, asked⟩ => ⟨own, fun none => ?_⟩) And.left
    have off := silent none
    rw [List.contains_eq_mem, decide_eq_false_iff_not] at off
    exact off asked
  refine ⟨reads, tracks.mem.trans stores, fun v r e => ?_, fun v r none e => ?_, fun u hu r e => ?_,
    fun y e => ?_⟩
  · obtain old | le := grows.new e
    · refine (values v r old).imp_right fun now holds => ?_
      rw [now]
      refine present_of_holds fun r' e' => ?_
      obtain rfl := Option.some.inj ((grows.keeps (grows'.keeps e')).symm.trans e)
      exact holds
    · refine .inr fun holds => ?_
      rw [regs_executeAll_of_lt (fun mi mem r write => ran.handled.write_lt mem write) s le]
      exact holds
  · refine (values v r e).imp_right fun now => now.trans (present_of_holds fun r' e' => ?_)
    rw [none] at e'
    cases e'
  · unfold Selector.regOf at e
    split at e
    · next zero =>
      obtain rfl := Option.some.inj e
      exact ((constants.new st).of_isZero valid zero).symm
    · refine (read_of_pos (ran.handled.valid.range e).1).trans ?_
      rw [← same u hu]
      exact (values u.1 r e).resolve_left fun own => notUsed u hu own.1
  · obtain ⟨k, slot, defined, read⟩ := result y e
    have reg := holds_regAt held slot
    refine ⟨_, reg, ?_⟩
    rw [← read_of_pos (ran.handled.valid.range reg).1, ← read]
    exact (tracks.positions k (by simpa using defined)).1

end Handling

end FpgaGpu

import FpgaGpu.Isel.Paths
import FpgaGpu.Isel.Assignment

/-!
# Running the selected code

A thread in the selected code is in a block and has the rest of its code to execute. A branch that
is taken goes to the block that it names, and the end of a block is the start of the next one.
-/

namespace FpgaGpu

section Running

variable {hw : Hardware}

/-- A thread in the selected code. -/
structure Running (hw : Hardware) where
  block : Nat
  rest : List Emitted
  thread : Thread hw RegField

/-- At the start of a block. -/
def Running.enter (code : List SelectedBlock) (block : Nat) (thread : Thread hw RegField) :
    Option (Running hw) := do
  let sb ← code[block]?
  return { block := block, rest := sb.items, thread := thread }

/-- Executes the next instruction; there is no step at `EXIT`. -/
def codeStep (code : List SelectedBlock) (s : Running hw) : Option (Option Emitted × Running hw) :=
  match s.rest with
  | [] => do
    let next ← Running.enter code (s.block + 1) s.thread
    return (none, next)
  | e :: rest =>
    let mi := e.mi.mapRegs narrow
    let thread := execute s.thread (s.thread.pc.getD 0) mi
    match mi.op with
    | .exit => none
    | .br =>
      if takes mi.cond s.thread.flags then do
        let block ← code.findIdx? (·.name = mi.labelTarget)
        let next ← Running.enter code block thread
        return (some e, next)
      else some (some e, { s with rest := rest, thread := thread })
    | _ => some (some e, { s with rest := rest, thread := thread })

/-- The state after `n` steps from the start of the code. -/
def stateAt (code : List SelectedBlock) (thread : Thread hw RegField) (n : Nat) :
    Option (Running hw) := do
  let start ← Running.enter code 0 thread
  Machine.after (codeStep code) n start

lemma stateAt_succ {code : List SelectedBlock} {thread : Thread hw RegField}
    {n : Nat} {s : Running hw} (h : stateAt code thread (n + 1) = some s) :
    ∃ s₀ shown, stateAt code thread n = some s₀ ∧ codeStep code s₀ = some (shown, s) := by
  obtain ⟨start, entered, run⟩ := Option.bind_eq_some_iff.mp h
  rw [Machine.after_add] at run
  obtain ⟨s₀, before, step⟩ := Option.bind_eq_some_iff.mp run
  rw [Machine.after] at step
  cases e : codeStep code s₀ with
  | none =>
    rw [e] at step
    cases step
  | some next =>
    rw [e] at step
    obtain rfl : next.2 = s := Option.some.inj step
    exact ⟨s₀, next.1, Option.bind_eq_some_iff.mpr ⟨start, entered, before⟩, e⟩

lemma Running.enter_eq_some {code : List SelectedBlock} {block : Nat} {thread : Thread hw RegField}
    {s : Running hw} (h : Running.enter code block thread = some s) :
    ∃ sb, code[block]? = some sb ∧ s = { block := block, rest := sb.items, thread := thread } := by
  obtain ⟨sb, at_block, e⟩ := Option.bind_eq_some_iff.mp h
  exact ⟨sb, at_block, (Option.some.inj e).symm⟩

/-- A step executes the next instruction and goes on behind it or to a block that it jumps to, or
goes on from the end of a block. -/
theorem codeStep_cases {code : List SelectedBlock} {s s' : Running hw} {shown : Option Emitted}
    (h : codeStep code s = some (shown, s')) :
    (s.rest = [] ∧ Running.enter code (s.block + 1) s.thread = some s') ∨
      ∃ e rest, s.rest = e :: rest ∧
        s'.thread = execute s.thread (s.thread.pc.getD 0) (e.mi.mapRegs narrow) ∧
        ((s'.block = s.block ∧ s'.rest = rest ∧
            (codeFlow (code.map SelectedBlock.name)).continues e) ∨
          ∃ sb, (codeFlow (code.map SelectedBlock.name)).jumps e s'.block ∧
            code[s'.block]? = some sb ∧ s'.rest = sb.items) := by
  unfold codeStep at h
  split at h
  · next none =>
    obtain ⟨next, entered, e⟩ := Option.bind_eq_some_iff.mp h
    obtain ⟨-, rfl⟩ := Prod.mk.inj (Option.some.inj e)
    exact .inl ⟨none, entered⟩
  · next e rest cons =>
    refine .inr ⟨e, rest, cons, ?_⟩
    dsimp only at h
    split at h
    · cases h
    · next branch =>
      split at h
      · next taken =>
        obtain ⟨block, found, h⟩ := Option.bind_eq_some_iff.mp h
        obtain ⟨next, entered, h⟩ := Option.bind_eq_some_iff.mp h
        obtain ⟨-, rfl⟩ := Prod.mk.inj (Option.some.inj h)
        obtain ⟨sb, at_block, rfl⟩ := Running.enter_eq_some entered
        refine ⟨rfl, .inr ⟨sb, ⟨branch, ⟨_, taken⟩, ?_⟩, at_block, rfl⟩⟩
        obtain ⟨lt, name, -⟩ := List.findIdx?_eq_some_iff_getElem.mp found
        have name : code[block].name = e.mi.labelTarget := of_decide_eq_true name
        simpa [List.getElem?_eq_getElem lt] using name
      · next passed =>
        obtain ⟨-, rfl⟩ := Prod.mk.inj (Option.some.inj h)
        refine ⟨rfl, .inl ⟨rfl, rfl, ?_⟩⟩
        show match e.mi.op with
          | .exit => False
          | .br => ∃ flags, takes e.mi.cond flags = false
          | _ => True
        rw [show e.mi.op = .br from branch]
        exact ⟨_, Bool.not_eq_true _ ▸ passed⟩
    · next exit branch =>
      obtain ⟨-, rfl⟩ := Prod.mk.inj (Option.some.inj h)
      exact ⟨rfl, .inl ⟨rfl, rfl, continues_of_plain branch exit⟩⟩

/-- The rest of the code is a rest of the code of the block. -/
lemma stateAt_suffix {code : List SelectedBlock} {thread : Thread hw RegField}
    {n : Nat} {s : Running hw} (h : stateAt code thread n = some s) :
    ∃ sb before, code[s.block]? = some sb ∧ sb.items = before ++ s.rest := by
  induction n generalizing s with
  | zero =>
    obtain ⟨start, entered, run⟩ := Option.bind_eq_some_iff.mp h
    obtain rfl : start = s := Option.some.inj run
    obtain ⟨sb, at_block, rfl⟩ := Running.enter_eq_some entered
    exact ⟨sb, [], at_block, rfl⟩
  | succ n ih =>
    obtain ⟨s₀, shown, before, step⟩ := stateAt_succ h
    obtain ⟨-, entered⟩ | ⟨e, rest, cons, -, ⟨same, rfl, -⟩ | ⟨sb, -, at_block, items⟩⟩ :=
      codeStep_cases step
    · obtain ⟨sb, at_block, rfl⟩ := Running.enter_eq_some entered
      exact ⟨sb, [], at_block, rfl⟩
    · obtain ⟨sb, pre, at_block, split⟩ := ih before
      exact ⟨sb, pre ++ [e], same ▸ at_block, by rw [split, cons, List.append_assoc]; rfl⟩
    · exact ⟨sb, [], at_block, items.symm⟩

/-- What stands before the rest of the code was executed last. -/
lemma stateAt_last {code : List SelectedBlock} {thread : Thread hw RegField}
    {n : Nat} {s : Running hw} (h : stateAt code thread n = some s) {sb : SelectedBlock}
    (at_block : code[s.block]? = some sb) {before : List Emitted} {e : Emitted}
    (split : sb.items = before ++ e :: s.rest) :
    ∃ m s₀, n = m + 1 ∧ stateAt code thread m = some s₀ ∧ s₀.block = s.block ∧
      s₀.rest = e :: s.rest ∧
      s.thread = execute s₀.thread (s₀.thread.pc.getD 0) (e.mi.mapRegs narrow) := by
  -- the start of a block has nothing before it
  have notStart : s.rest ≠ sb.items := by
    intro start
    have length := congrArg List.length split
    rw [← start] at length
    simp at length
    omega
  cases n with
  | zero =>
    obtain ⟨start, entered, run⟩ := Option.bind_eq_some_iff.mp h
    obtain rfl : start = s := Option.some.inj run
    obtain ⟨sb', at_block', rfl⟩ := Running.enter_eq_some entered
    obtain rfl := Option.some.inj (at_block'.symm.trans at_block)
    exact absurd rfl notStart
  | succ n =>
    obtain ⟨s₀, shown, run, step⟩ := stateAt_succ h
    obtain ⟨-, entered⟩ | ⟨e', rest, cons, executed, ⟨same, rfl, -⟩ | ⟨sb', -, at_block', items⟩⟩ :=
      codeStep_cases step
    · obtain ⟨sb', at_block', rfl⟩ := Running.enter_eq_some entered
      obtain rfl := Option.some.inj (at_block'.symm.trans at_block)
      exact absurd rfl notStart
    · obtain ⟨sb', pre, at_block', split'⟩ := stateAt_suffix run
      rw [← same, at_block] at at_block'
      obtain rfl := Option.some.inj at_block'
      rw [split, cons, List.append_cons, List.append_cons pre] at split'
      obtain ⟨e₁, -⟩ := List.append_inj' split' rfl
      obtain ⟨-, e₂⟩ := List.append_inj' e₁ rfl
      obtain rfl := List.singleton_inj.mp e₂
      exact ⟨n, s₀, rfl, run, same.symm, cons, executed⟩
    · obtain rfl := Option.some.inj (at_block'.symm.trans at_block)
      exact absurd items notStart

end Running

end FpgaGpu

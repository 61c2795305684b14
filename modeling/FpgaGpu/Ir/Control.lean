import FpgaGpu.Ir.Semantics
import FpgaGpu.Lib.Forward

/-!
# Running LLVM code with branches

Functions of several blocks, with comparisons, conditional branches, and the inline assembly of the
device headers and of the divergence pass. A condition is the word 0 or 1, and a marker of the pass
does nothing to a single thread. `phi` and `switch` have no execution here.
-/

namespace FpgaGpu.Llvm

/-- What the inline assembly of `runtime/` and of the divergence pass does. -/
inductive DeviceAsm where
  | read (sr : SysReg)
  | load
  | store
  -- `SYNC` and `SSY`
  | marker
  deriving DecidableEq, Repr

/-- The inline assembly by its text. -/
def deviceAsm? (text : Text) : Option DeviceAsm :=
  if text = "s2r $0, SR_TID.X".toList then some (.read .tidX)
  else if text = "s2r $0, SR_TID.Y".toList then some (.read .tidY)
  else if text = "s2r $0, SR_BID.X".toList then some (.read .bidX)
  else if text = "s2r $0, SR_BID.Y".toList then some (.read .bidY)
  else if text = "ldr $0, [$1]".toList then some .load
  else if text = "str $0, [$1]".toList then some .store
  else if text = "sync".toList ∨ "ssy ".toList <+: text then some .marker
  else none

section Control

variable {hw : Hardware}

/-- Executes inline assembly. -/
def State.device (s : State hw) (id : Nat) : DeviceAsm → List Value → Option (State hw)
  | .read sr, [] => some (s.define id (hw.sysReg sr.val))
  | .load, [ptr] => do
    let addr ← s.value ptr
    return s.define id (hw.load s.mem addr)
  | .store, [value, ptr] => do
    let x ← s.value value
    let addr ← s.value ptr
    return { s with mem := hw.store s.mem addr x }
  | .marker, [] => some s
  | _, _ => none

/-- Executes an instruction that does not end its block. -/
def perform (typeAllocSize : Ty → BitVec 64) (s : State hw) (i : Instruction) : Option (State hw) :=
  match i.operation with
  | .icmp predicate op0 op1 => do
    let x ← s.value op0
    let y ← s.value op1
    return s.define i.id (if predicate.holds x y then 1 else 0)
  | .call (.inlineAsm text) args => do
    let asm ← deviceAsm? text
    s.device i.id asm args
  | _ => execute typeAllocSize s i

/-- Executes the instructions of a block. -/
def performBody (typeAllocSize : Ty → BitVec 64) (s : State hw) :
    List Instruction → Option (State hw)
  | [] => some s
  | i :: body => do
    let s ← perform typeAllocSize s i
    performBody typeAllocSize s body

/-- The value of a condition. -/
def State.condition (s : State hw) : Value → Option Bool
  | .instruction id => (s.results id).map (· ≠ 0)
  | .constantInt width bits => if width = 1 then some (bits ≠ 0) else none
  | .argument _ | .other _ => none

/-- The block that a terminator goes to; `none` after a return. -/
def Terminator.next (s : State hw) : Terminator → Option (Option Nat)
  | .br dest => some (some dest)
  | .condBr cond ifTrue ifFalse => do
    let holds ← s.condition cond
    return some (if holds then ifTrue else ifFalse)
  | .ret _ => some none
  | .switch .. | .unreachable | .other .. => none

/-- A run at the start of a block, or after a return. -/
structure Control (hw : Hardware) where
  block : Option Nat
  state : State hw

/-- Executes a block. -/
def Function.step (typeAllocSize : Ty → BitVec 64) (f : Function) (c : Control hw) :
    Option (Nat × Control hw) := do
  let b ← c.block
  let bb ← f.blocks[b]?
  let s ← performBody typeAllocSize c.state bb.body
  let next ← bb.terminator.next s
  return (b, { block := next, state := s })

/-- A run at the entry of a function. -/
def Control.enter (args : Nat → Word) (mem : hw.Mem) : Control hw where
  block := some 0
  state := { mem := mem, args := args, results := fun _ => none }

/-- The function returns and leaves the memory `mem'`. -/
def Function.Returns (typeAllocSize : Ty → BitVec 64) (f : Function) (args : Nat → Word)
    (mem mem' : hw.Mem) : Prop :=
  ∃ c : Control hw, Machine.Ends (f.step typeAllocSize) (.enter args mem) c ∧ c.block = none ∧
    c.state.mem = mem'

/-- A comparison leaves 1 or 0. -/
lemma perform_icmp {typeAllocSize : Ty → BitVec 64} {s s' : State hw} {i : Instruction}
    {predicate : Predicate} {op0 op1 : Value} (icmp : i.operation = .icmp predicate op0 op1)
    (h : perform typeAllocSize s i = some s') :
    ∃ x y, s.value op0 = some x ∧ s.value op1 = some y ∧
      s' = s.define i.id (if predicate.holds x y then 1 else 0) := by
  simp only [perform, icmp, Option.bind_eq_bind, Option.bind_eq_some_iff, Option.pure_def,
    Option.some.injEq] at h
  obtain ⟨x, value0, y, value1, rfl⟩ := h
  exact ⟨x, y, value0, value1, rfl⟩

/-- The parts of a step. -/
lemma Function.step_eq_some {typeAllocSize : Ty → BitVec 64} {f : Function}
    {c c' : Control hw} {b : Nat} (h : f.step typeAllocSize c = some (b, c')) :
    c.block = some b ∧ ∃ bb next, f.blocks[b]? = some bb ∧
      performBody typeAllocSize c.state bb.body = some c'.state ∧
      bb.terminator.next c'.state = some next ∧ c'.block = next := by
  simp only [step, Option.bind_eq_bind, Option.bind_eq_some_iff, Option.pure_def, Option.some.injEq,
    Prod.mk.injEq] at h
  obtain ⟨b', at_b, bb, block, s, body, next, goes, rfl, rfl⟩ := h
  exact ⟨at_b, bb, next, block, body, goes, rfl⟩

lemma Function.step_of_block {typeAllocSize : Ty → BitVec 64} {f : Function}
    {c : Control hw} {b : Nat} {bb : BasicBlock} {s : State hw} {next : Option Nat}
    (at_b : c.block = some b) (block : f.blocks[b]? = some bb)
    (body : performBody typeAllocSize c.state bb.body = some s)
    (goes : bb.terminator.next s = some next) :
    f.step typeAllocSize c = some (b, { block := next, state := s }) := by
  simp [step, at_b, block, body, goes]

/-- There is no step after a return. -/
lemma Function.step_of_returned {typeAllocSize : Ty → BitVec 64} {f : Function} {c : Control hw}
    (h : c.block = none) : f.step typeAllocSize c = none := by
  simp [step, h]

/-- A terminator goes to a successor. -/
lemma Terminator.mem_successors_of_next {s : State hw} {t : Terminator} {r : Nat}
    (h : t.next s = some (some r)) : r ∈ t.successors := by
  cases t with
  | br dest =>
    obtain rfl := Option.some.inj (Option.some.inj h)
    exact List.mem_singleton_self _
  | condBr cond ifTrue ifFalse =>
    simp only [Terminator.next, Option.bind_eq_bind, Option.bind_eq_some_iff, Option.pure_def,
      Option.some.injEq] at h
    obtain ⟨holds, -, rfl⟩ := h
    cases holds <;> simp [Terminator.successors]
  | ret | switch | unreachable | other => cases h

end Control

/-! ## What is executed -/

/-- A value of 32 bits. -/
def Value.isWord : Value → Bool
  | .constantInt width _ => width = 32
  | .argument _ | .instruction _ => true
  | .other _ => false

/-- An index; a constant one may have any width. -/
def Value.isIndex : Value → Bool
  | .constantInt .. | .argument _ | .instruction _ => true
  | .other _ => false

/-- A condition that is a result or a constant. -/
def Value.isCondition : Value → Bool
  | .constantInt width _ => width = 1
  | .instruction _ => true
  | .argument _ | .other _ => false

/-- The number of operands. -/
def DeviceAsm.arity : DeviceAsm → Nat
  | .read _ | .marker => 0
  | .load => 1
  | .store => 2

/-- The operators that have an execution. -/
def BinaryOpcode.executes : BinaryOpcode → Bool
  | .add | .sub | .mul | .shl => true
  | .other _ => false

/-- The operations that have an execution. -/
def Operation.executes : Operation → Bool
  | .binary opcode op0 op1 => opcode.executes && op0.isWord && op1.isWord
  | .icmp _ op0 op1 => op0.isWord && op1.isWord
  | .getelementptr _ ptr [index] => ptr.isWord && index.isIndex
  | .load ty ptr => ty = .int 32 && ptr.isWord
  | .store ty value ptr => ty = .int 32 && value.isWord && ptr.isWord
  | .call (.inlineAsm text) args =>
    (deviceAsm? text).any fun asm => args.length = asm.arity && args.all Value.isWord
  | _ => false

/-- The terminators that have an execution. -/
def Terminator.executes : Terminator → Bool
  | .br _ | .ret _ => true
  | .condBr cond _ _ => cond.isCondition
  | .switch .. | .unreachable | .other .. => false

/-- A function all of whose code has an execution. -/
structure Function.Executes (f : Function) : Prop where
  nonempty : f.blocks ≠ []
  closed : f.Closed
  body : ∀ bb ∈ f.blocks, ∀ i ∈ bb.body, i.operation.executes = true
  terminators : ∀ bb ∈ f.blocks, bb.terminator.executes = true

section Stuck

variable {hw : Hardware} {typeAllocSize : Ty → BitVec 64} {f : Function} {s : State hw}

/-- What stops an operation: a result that it uses was not computed, or it shifts by 32 or more. -/
def State.Lacks (s : State hw) (operation : Operation) : Prop :=
  (∃ id, .instruction id ∈ operation.operands ∧ s.results id = none) ∨
    ∃ op0 op1 y, operation = .binary .shl op0 op1 ∧ s.value op1 = some y ∧ 32 ≤ y.toNat

/-- A run cannot get through its block: an instruction in it is stopped, or the condition at its end
was not computed. -/
def Function.Stuck (typeAllocSize : Ty → BitVec 64) (f : Function) (c : Control hw) : Prop :=
  ∃ b bb, c.block = some b ∧ f.blocks[b]? = some bb ∧
    ((∃ before i after s, bb.body = before ++ i :: after ∧
        performBody typeAllocSize c.state before = some s ∧ s.Lacks i.operation) ∨
      ∃ s id ifTrue ifFalse, performBody typeAllocSize c.state bb.body = some s ∧
        bb.terminator = .condBr (.instruction id) ifTrue ifFalse ∧ s.results id = none)

/-- Only a result can be without a value. -/
lemma State.exists_of_value_eq_none {v : Value} (word : v.isWord = true) (h : s.value v = none) :
    ∃ id, v = .instruction id ∧ s.results id = none := by
  cases v with
  | constantInt width bits =>
    obtain rfl : width = 32 := of_decide_eq_true word
    cases h
  | argument index => cases h
  | instruction id => exact ⟨id, rfl, h⟩
  | other => cases word

lemma State.exists_of_index_eq_none {v : Value} (isIndex : v.isIndex = true)
    (h : s.index v = none) :
    ∃ id, v = .instruction id ∧ s.results id = none := by
  cases v with
  | constantInt | argument => cases h
  | instruction id => exact ⟨id, rfl, Option.map_eq_none_iff.mp h⟩
  | other => cases isIndex

/-- An operand has a value, or it stops the operation. -/
lemma State.lacks_or_value (operation : Operation) :
    ∀ v ∈ operation.operands, v.isWord = true → s.Lacks operation ∨ ∃ x, s.value v = some x := by
  intro v mem word
  cases e : s.value v with
  | none =>
    obtain ⟨id, rfl, none⟩ := s.exists_of_value_eq_none word e
    exact .inl (.inl ⟨id, mem, none⟩)
  | some x => exact .inr ⟨x, rfl⟩

/-- An operator without a result shifts too far. -/
lemma BinaryOpcode.eq_shl_of_apply {opcode : BinaryOpcode} {x y : Word}
    (known : opcode.executes = true) (h : opcode.apply x y = none) :
    opcode = .shl ∧ 32 ≤ y.toNat := by
  cases opcode with
  | add | sub | mul => cases h
  | shl =>
    refine ⟨rfl, ?_⟩
    by_contra lt
    rw [BinaryOpcode.apply, if_pos (by omega)] at h
    cases h
  | other => cases known

/-- Inline assembly is executed, or an operand stops it. -/
lemma State.lacks_of_device {id : Nat} {text : Text} {asm : DeviceAsm} {args : List Value}
    (count : args.length = asm.arity) (words : ∀ v ∈ args, v.isWord = true)
    (h : s.device id asm args = none) : s.Lacks (.call (.inlineAsm text) args) := by
  have operand : ∀ v ∈ args, v.isWord = true → _ := s.lacks_or_value (.call (.inlineAsm text) args)
  cases asm with
  | read | marker =>
    obtain rfl := List.length_eq_zero_iff.mp count
    cases h
  | load =>
    obtain ⟨ptr, rfl⟩ := List.length_eq_one_iff.mp count
    obtain lacks | ⟨addr, value⟩ := operand ptr (by simp) (words ptr (by simp))
    · exact lacks
    simp [State.device, value] at h
  | store =>
    obtain ⟨v, ptr, rfl⟩ := List.length_eq_two.mp count
    obtain lacks | ⟨x, value0⟩ := operand v (by simp) (words v (by simp))
    · exact lacks
    obtain lacks | ⟨addr, value1⟩ := operand ptr (by simp) (words ptr (by simp))
    · exact lacks
    simp [State.device, value0, value1] at h

/-- An operation that has an execution is done or stopped. -/
lemma lacks_of_perform {i : Instruction} (executes : i.operation.executes = true)
    (h : perform typeAllocSize s i = none) : s.Lacks i.operation := by
  obtain ⟨id, operation⟩ := i
  have operand := s.lacks_or_value operation
  cases operation with
  | binary opcode op0 op1 =>
    simp only [Operation.executes, Bool.and_eq_true] at executes
    obtain ⟨⟨known, word0⟩, word1⟩ := executes
    obtain lacks | ⟨x, value0⟩ := operand op0 (by simp [Operation.operands]) word0
    · exact lacks
    obtain lacks | ⟨y, value1⟩ := operand op1 (by simp [Operation.operands]) word1
    · exact lacks
    have apply : opcode.apply x y = none := by
      cases e : opcode.apply x y with
      | none => rfl
      | some z => simp [perform, execute, value0, value1, e] at h
    obtain ⟨rfl, far⟩ := BinaryOpcode.eq_shl_of_apply known apply
    exact .inr ⟨op0, op1, y, rfl, value1, far⟩
  | icmp predicate op0 op1 =>
    simp only [Operation.executes, Bool.and_eq_true] at executes
    obtain lacks | ⟨x, value0⟩ := operand op0 (by simp [Operation.operands]) executes.1
    · exact lacks
    obtain lacks | ⟨y, value1⟩ := operand op1 (by simp [Operation.operands]) executes.2
    · exact lacks
    simp [perform, value0, value1] at h
  | getelementptr sourceElement ptr indices =>
    match indices with
    | [index] =>
      simp only [Operation.executes, Bool.and_eq_true] at executes
      obtain lacks | ⟨base, value⟩ := operand ptr (by simp [Operation.operands]) executes.1
      · exact lacks
      cases n : s.index index with
      | none =>
        obtain ⟨id', rfl, none⟩ := s.exists_of_index_eq_none executes.2 n
        exact .inl ⟨id', by simp [Operation.operands], none⟩
      | some n' => simp [perform, execute, value, n] at h
    | [] | _ :: _ :: _ => cases executes
  | load ty ptr =>
    simp only [Operation.executes, Bool.and_eq_true, decide_eq_true_eq] at executes
    obtain ⟨rfl, word⟩ := executes
    obtain lacks | ⟨addr, value⟩ := operand ptr (by simp [Operation.operands]) word
    · exact lacks
    simp [perform, execute, value] at h
  | store ty v ptr =>
    simp only [Operation.executes, Bool.and_eq_true, decide_eq_true_eq] at executes
    obtain ⟨⟨rfl, word0⟩, word1⟩ := executes
    obtain lacks | ⟨x, value0⟩ := operand v (by simp [Operation.operands]) word0
    · exact lacks
    obtain lacks | ⟨addr, value1⟩ := operand ptr (by simp [Operation.operands]) word1
    · exact lacks
    simp [perform, execute, value0, value1] at h
  | call callee args =>
    cases callee with
    | inlineAsm text =>
      simp only [Operation.executes, Option.any_eq_true, Bool.and_eq_true,
        decide_eq_true_eq] at executes
      obtain ⟨asm, device, count, words⟩ := executes
      simp only [perform, device, Option.bind_eq_bind, Option.bind_some] at h
      exact s.lacks_of_device count (List.all_eq_true.mp words) h
    | function | indirect => cases executes
  | alloca | cast | phi | select | other => cases executes

/-- A body that is not executed stops at one of its instructions. -/
lemma exists_of_performBody {body : List Instruction}
    (h : performBody typeAllocSize s body = none) :
    ∃ before i after s', body = before ++ i :: after ∧
      performBody typeAllocSize s before = some s' ∧ perform typeAllocSize s' i = none := by
  induction body generalizing s with
  | nil => cases h
  | cons i body ih =>
    cases first : perform typeAllocSize s i with
    | none => exact ⟨[], i, body, s, rfl, rfl, first⟩
    | some s₁ =>
      rw [performBody, first] at h
      obtain ⟨before, j, after, s', rfl, run, stop⟩ := ih h
      refine ⟨i :: before, j, after, s', rfl, ?_, stop⟩
      rw [performBody, first]
      exact run

/-- Only a condition keeps a terminator from going on. -/
lemma Terminator.exists_of_next {t : Terminator} (executes : t.executes = true)
    (h : t.next s = none) : ∃ id ifTrue ifFalse, t = .condBr (.instruction id) ifTrue ifFalse ∧
      s.results id = none := by
  cases t with
  | br | ret => cases h
  | condBr cond ifTrue ifFalse =>
    have none : s.condition cond = none := by
      cases e : s.condition cond with
      | none => rfl
      | some holds => simp [Terminator.next, e] at h
    cases cond with
    | constantInt width bits =>
      obtain rfl : width = 1 := of_decide_eq_true executes
      cases none
    | instruction id => exact ⟨id, ifTrue, ifFalse, rfl, Option.map_eq_none_iff.mp none⟩
    | argument | other => cases executes
  | switch | unreachable | other => cases executes

/-- A run that is in a block and cannot go on is stuck. -/
lemma Function.Executes.stuck (executes : f.Executes) {c : Control hw} {b : Nat}
    (at_b : c.block = some b) (lt : b < f.blocks.length) (stop : f.step typeAllocSize c = none) :
    f.Stuck typeAllocSize c := by
  have block := List.getElem?_eq_getElem lt
  have mem := List.mem_of_getElem? block
  refine ⟨b, _, at_b, block, ?_⟩
  cases body : performBody typeAllocSize c.state f.blocks[b].body with
  | none =>
    obtain ⟨before, i, after, s, split, run, stop⟩ := exists_of_performBody body
    have here : i ∈ f.blocks[b].body := split ▸ by simp
    exact .inl ⟨before, i, after, s, split, run, lacks_of_perform (executes.body _ mem i here) stop⟩
  | some s =>
    have next : f.blocks[b].terminator.next s = none := by
      cases goes : f.blocks[b].terminator.next s with
      | none => rfl
      | some next =>
        rw [Function.step_of_block at_b block body goes] at stop
        cases stop
    obtain ⟨id, ifTrue, ifFalse, term, none⟩ :=
      Terminator.exists_of_next (executes.terminators _ mem) next
    exact .inr ⟨s, id, ifTrue, ifFalse, rfl, term, none⟩

/-- A run ends behind a return or is stuck. -/
theorem Function.Executes.returned_or_stuck (executes : f.Executes)
    {args : Nat → Word} {mem : hw.Mem} {c : Control hw}
    (h : Machine.Ends (f.step typeAllocSize) (.enter args mem) c) :
    c.block = none ∨ f.Stuck typeAllocSize c := by
  obtain ⟨n, run, stop⟩ := h
  have inside : ∀ b, c.block = some b → b < f.blocks.length := by
    refine Machine.Along.after
      (P := fun c : Control hw => ∀ b, c.block = some b → b < f.blocks.length)
      (.of_invariant (fun {c a c'} _ step d at_d => ?_) fun b at_b => ?_) run
    · obtain ⟨-, bb, next, block, -, goes, goal⟩ := Function.step_eq_some step
      obtain rfl : next = some d := goal.symm.trans at_d
      exact executes.closed bb (List.mem_of_getElem? block) d
        (Terminator.mem_successors_of_next goes)
    · obtain rfl := Option.some.inj at_b
      exact List.length_pos_of_ne_nil executes.nonempty
  cases at_b : c.block with
  | none => exact .inl rfl
  | some b => exact .inr (executes.stuck at_b (inside b at_b) stop)

end Stuck

end FpgaGpu.Llvm

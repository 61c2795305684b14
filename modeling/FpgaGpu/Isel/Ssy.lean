import FpgaGpu.Isel.Evaluation
import FpgaGpu.Isel.Pieces

/-!
# Calls of `SSY`

An inline assembly text is put into lower case, classified by the first mnemonic that is found in
it, and cut at its first space. What is left is the label of an `SSY`.
-/

namespace FpgaGpu

open Llvm (Value)
open Emission (push push_eq_some mapItems_eq_some)

/-! ## The text of a call -/

/-- The instruction of an `SSY` text. -/
def ssyInstruction (text : Text) : Instruction Nat :=
  { newInstruction .ssy with
    labelTarget := asmLabel (lower text), comment := "ssy inline asm".toList }

/-- An instruction that calls an inline assembly text which is taken for `SSY`. -/
def CallsSsy (call : Llvm.Instruction) (text : Text) : Prop :=
  (∃ args, call.operation = .call (.inlineAsm text) args) ∧ asmForm (lower text) = .ssy

/-- A text survives behind the mnemonic if it contains none of the two that are looked for first. -/
lemma asmForm_ssyAsm (name : Text) : asmForm (lower ("ssy ".toList ++ name)) = .ssy ↔
    contains (lower name) "s2r".toList = false ∧ contains (lower name) "sync".toList = false := by
  have split : lower ("ssy ".toList ++ name) = 's' :: 's' :: 'y' :: ' ' :: lower name := by
    rw [lower, List.map_append]
    rfl
  have s2r : contains ('s' :: 's' :: 'y' :: ' ' :: lower name) "s2r".toList =
      contains (lower name) "s2r".toList := rfl
  have sync : contains ('s' :: 's' :: 'y' :: ' ' :: lower name) "sync".toList =
      contains (lower name) "sync".toList := rfl
  have ssy : contains ('s' :: 's' :: 'y' :: ' ' :: lower name) "ssy".toList = true := rfl
  rw [split, asmForm, s2r, sync, ssy]
  cases contains (lower name) "s2r".toList <;> cases contains (lower name) "sync".toList <;> simp

/-- What is left of it is in lower case. -/
lemma asmLabel_ssyAsm (name : Text) : asmLabel (lower ("ssy ".toList ++ name)) = lower name := by
  have split : lower ("ssy ".toList ++ name) = 's' :: 's' :: 'y' :: ' ' :: lower name := by
    rw [lower, List.map_append]
    rfl
  rw [split, asmLabel, if_pos (by simp)]
  rfl

/-! ## Items with `SSY` -/

/-- None of the steps pushes `SSY`. -/
def noSsy : List PlanStep → Bool
  | [] => true
  | .emit mi :: steps => mi.op ≠ .ssy && noSsy steps
  | _ :: steps => noSsy steps

lemma noSsy_iff {steps : List PlanStep} :
    noSsy steps = true ↔ ∀ mi, .emit mi ∈ steps → mi.op ≠ .ssy := by
  induction steps with
  | nil => simp [noSsy]
  | cons step steps ih => cases step <;> simp [noSsy, ih]

section Items

variable {dl : DataLayout} {f : Llvm.Function} {st st' : Selector}
  {code : List Emitted} {e : Emitted}

lemma noSsy_binary (opcode : Llvm.BinaryOpcode) (op0 op1 : Value) :
    noSsy (binarySteps opcode op0 op1) = true := by
  unfold binarySteps
  cases opcode with
  | add =>
    dsimp only
    cases addImmediate? op1 <;> rfl
  | shl =>
    dsimp only
    cases shiftAmount? op1 with
    | none => rfl
    | some shift =>
      dsimp only [shiftSteps]
      split_ifs <;> rfl
  | sub | mul | other => rfl

lemma noSsy_asm {text : Text} (other : asmForm (lower text) ≠ .ssy) (args : List Value) :
    noSsy (asmSteps text args) = true := by
  unfold asmSteps
  split <;> first | rfl | contradiction

lemma noSsy_runtime (name : Text) (args : List Value) : noSsy (runtimeSteps name args) = true := by
  unfold runtimeSteps
  cases runtimeForm name (dimension args) with
  | globalId =>
    dsimp only [globalIdSteps]
    split_ifs <;> rfl
  | s2r | sync | exit | unknown => rfl

lemma noSsy_gep (sourceElement : Llvm.Ty) (ptr : Value) (indices : List Value) :
    noSsy (gepSteps dl sourceElement ptr indices) = true := by
  unfold gepSteps
  cases constantOffset? dl sourceElement indices with
  | some offset => rfl
  | none =>
    dsimp only [indexSteps]
    split_ifs <;> rfl

/-- Only inline assembly is lowered to `SSY`. -/
lemma noSsy_instruction (i : Llvm.Instruction) :
    noSsy (instructionSteps dl f i) = true ∨ ∃ text, CallsSsy i text := by
  unfold instructionSteps CallsSsy
  cases i.operation with
  | binary opcode op0 op1 => exact .inl (noSsy_binary opcode op0 op1)
  | icmp predicate op0 op1 =>
    left
    dsimp only
    split <;> rfl
  | call callee args =>
    cases callee with
    | inlineAsm text =>
      by_cases ssy : asmForm (lower text) = .ssy
      · exact .inr ⟨text, ⟨args, rfl⟩, ssy⟩
      · exact .inl (noSsy_asm ssy args)
    | function name => exact .inl (noSsy_runtime name args)
    | indirect callee => exact .inl rfl
  | getelementptr sourceElement ptr indices => exact .inl (noSsy_gep sourceElement ptr indices)
  | load | store | alloca | cast | phi | select | other => exact .inl rfl

lemma noSsy_condition (condVal : Value) : noSsy (conditionSteps f condVal) = true := by
  unfold conditionSteps
  cases icmp? f condVal <;> rfl

/-- Steps without `SSY` push none. -/
lemma runSteps_noSsy {own : Value} {regs : List Nat} {steps : List PlanStep}
    {out : List (Instruction Nat)} (plain : noSsy steps = true)
    (h : runSteps own regs steps st = some ((), out, st')) : ∀ mi ∈ out, mi.op ≠ .ssy := by
  refine runSteps_all (fun _ _ ne => ne) (noSsy_iff.mp plain) (fun u _ r mi load => ?_) h
  obtain ⟨v, materialize⟩ := u
  cases materialize with
  | false => cases v <;> cases load
  | true =>
    rw [(writes_of_mem_loads load).2.2]
    nofun

/-- An item with an `SSY` is such a call, and its code is one instruction. -/
lemma selectItem_ssy {item : Item} (h : selectItem dl f item st = some ((), code, st'))
    (mem : e ∈ code) (ssy : e.mi.op = .ssy) :
    ∃ call text, item = .inst call ∧ CallsSsy call text := by
  obtain ⟨out, stepped⟩ := selectItem_stepped h
  rw [stepped.code] at mem
  obtain mem | mem := List.mem_append.mp mem
  · obtain ⟨mi, hmi, rfl⟩ := List.mem_map.mp mem
    have plain : noSsy (item.steps dl f) = true → False := fun plain =>
      runSteps_noSsy plain stepped.run mi hmi ssy
    cases item with
    | argument argIdx arg => exact (plain rfl).elim
    | inst i =>
      obtain none | ⟨text, calls⟩ := noSsy_instruction i
      · exact (plain none).elim
      · exact ⟨i, text, rfl, calls⟩
    | term t =>
      refine (plain ?_).elim
      cases t with
      | condBr condVal => exact noSsy_condition condVal
      | br | ret | switch | unreachable | other => rfl
  · obtain br | exit := (Item.mem_tail mem).1
    · rw [br] at ssy
      cases ssy
    · rw [exit] at ssy
      cases ssy

/-- The code of such a call. -/
lemma CallsSsy.code_eq {call : Llvm.Instruction} {text : Text} (calls : CallsSsy call text)
    (h : selectItem dl f (.inst call) st = some ((), code, st')) :
    code = [⟨.instruction call.id, ssyInstruction text⟩] := by
  obtain ⟨⟨args, operation⟩, form⟩ := calls
  obtain ⟨out, select, rfl⟩ := mapItems_eq_some.mp h
  unfold selectInstruction at select
  rw [operation] at select
  simp only [selectCall, selectAsm, form] at select
  obtain ⟨rfl, -⟩ := push_eq_some.mp select
  rfl

end Items

end FpgaGpu

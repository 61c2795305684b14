import FpgaGpu.Isel.Contents
import FpgaGpu.Lib.Numbering

/-!
# What a function asks registers for

The requests for registers that lowering a function makes, in order, and whether an instruction that
is emitted mentions what is asked for. Requests for the constant zero are answered with R0; each
other value and each temporary gets the next number when it is asked for first.
-/

namespace FpgaGpu

open Llvm (Value)
open Numbering (number)

/-- The registers in the fields that an instruction uses. -/
def Instruction.registers {Reg : Type} (mi : Instruction Reg) : List Reg :=
  mi.reads ++ mi.writes.toList

/-! ## Requests of the function -/

/-- A request for the register of a value, or for a temporary one, and whether it is mentioned. -/
abbrev Request := Option Value × Bool

/-- The requests of an instruction. -/
def instructionRequests (dl : DataLayout) (f : Llvm.Function) (i : Llvm.Instruction) :
    List Request :=
  let self : Option Value := some (.instruction i.id)
  match i.operation with
  | .binary .add op0 op1 =>
    if (addImmediate? op1).isSome then [(self, true), (some op0, true)]
    else [(self, true), (some op0, true), (some op1, true)]
  | .binary .shl op0 op1 =>
    match shiftAmount? op1 with
    | some shift =>
      if shift.toNat ≤ 1 then [(self, true), (some op0, true)]
      else [(self, true), (none, true), (some op0, true)]
    | none => [(self, true), (some op0, true), (some op1, true)]
  | .binary _ op0 op1 => [(self, true), (some op0, true), (some op1, true)]
  | .icmp _ op0 op1 => if branchOnly f i.id then [] else [(some op0, true), (some op1, true)]
  | .load _ ptr => [(self, true), (some ptr, true)]
  | .store _ value ptr => [(some value, true), (some ptr, true)]
  | .call (.inlineAsm asmString) args =>
    match asmForm (lower asmString), args with
    | .s2r, _ => [(self, true)]
    | .ldr, addr :: _ => [(self, true), (some addr, true)]
    | .str, data :: addr :: _ => [(some data, true), (some addr, true)]
    | _, _ => []
  | .call (.function name) args =>
    match runtimeForm name (dimension args) with
    | .s2r _ => [(self, true)]
    -- the third temporary is only used in dimension 0
    | .globalId => [(none, true), (none, true), (none, dimension args = 0), (self, true)]
    | _ => []
  | .alloca _ => [(self, false)]
  | .cast src => [(some src, true), (self, true)]
  | .getelementptr sourceElement ptr indices =>
    if (constantOffset? dl sourceElement indices).isSome then [(some ptr, true), (self, true)]
    else
      [(some ptr, true), (self, true), (some (indices.getLast?.getD ptr), true)] ++
        if (dl.typeAllocSize sourceElement).toNat > 1 then [(none, true), (none, true)] else []
  | _ => []

/-- The requests of an item. -/
def itemRequests (dl : DataLayout) (f : Llvm.Function) : Item → List Request
  | .argument argIdx _ => [(some (.argument argIdx), true), (none, true)]
  | .inst i => instructionRequests dl f i
  | .term t => (terminatorUses f t).map fun u => (some u.1, true)

/-- What gets a register: a value, or the `k`-th temporary. -/
inductive Demand where
  | value (v : Value)
  | temporary (k : Nat)
  deriving DecidableEq

/-- What a request asks for after `k` temporaries. -/
def demandOf (k : Nat) : Option Value → Option Demand
  | none => some (.temporary k)
  | some v => if isZero v then none else some (.value v)

/-- The number of temporaries after a request. -/
def nextTemporary (k : Nat) (q : Option Value) : Nat := if q = none then k + 1 else k

/-- The number of temporaries after requests. -/
def temporaries (k : Nat) : List Request → Nat
  | [] => k
  | (q, _) :: rest => temporaries (nextTemporary k q) rest

/-- What requests ask for after `k` temporaries. -/
def demandsFrom (k : Nat) : List Request → List (Demand × Bool)
  | [] => []
  | (q, mentioned) :: rest =>
    (demandOf k q).toList.map (·, mentioned) ++ demandsFrom (nextTemporary k q) rest

/-- What a function asks registers for, in layout order. -/
def demands (dl : DataLayout) (f : Llvm.Function) : List (Demand × Bool) :=
  demandsFrom 0 ((functionItems f).flatten.flatMap (itemRequests dl f))

lemma demandsFrom_append (k : Nat) (qs qs' : List Request) :
    demandsFrom k (qs ++ qs') = demandsFrom k qs ++ demandsFrom (temporaries k qs) qs' := by
  induction qs generalizing k with
  | nil => rfl
  | cons q qs ih => simp [demandsFrom, temporaries, ih]

lemma temporaries_append (k : Nat) (qs qs' : List Request) :
    temporaries k (qs ++ qs') = temporaries (temporaries k qs) qs' := by
  induction qs generalizing k with
  | nil => rfl
  | cons q qs ih => simp [temporaries, ih]

/-! ## Requests of steps -/

/-- The positions that the instructions of steps mention. -/
def positions : List PlanStep → List Nat
  | [] => []
  | .emit mi :: steps => mi.registers ++ positions steps
  | _ :: steps => positions steps

lemma positionsRead_subset (steps : List PlanStep) : positionsRead steps ⊆ positions steps := by
  induction steps with
  | nil => exact List.Subset.refl _
  | cons step steps ih =>
    cases step with
    | emit mi =>
      exact List.append_subset.mpr
        ⟨fun r mem => List.mem_append_left _ (List.mem_append_left _ mem),
        fun r mem => List.mem_append_right _ (ih mem)⟩
    | result | use | fresh => exact ih

/-- An instruction mentions positions that there are. -/
lemma le_of_emits {slots : List Slot} {mi : Instruction Nat} (h : emits slots mi = true) {p : Nat}
    (mem : p ∈ mi.registers) : p ≤ slots.length := by
  simp only [emits, Bool.and_eq_true, List.all_eq_true, Option.all_eq_true, Bool.or_eq_true,
    decide_eq_true_eq] at h
  obtain mem | mem := List.mem_append.mp mem
  · obtain (rfl | slot) | slot := h.1.1 p mem
    · exact Nat.zero_le _
    · exact le_of_slotAt (by rw [slot]; rfl)
    · exact le_of_slotAt (by rw [slot]; rfl)
  · obtain slot | slot := h.1.2 p (Option.mem_toList.mp mem) <;>
      exact le_of_slotAt (by rw [slot]; rfl)

/-- The requests of steps, the first of them for the position `n + 1`; `ps` are the positions that
are mentioned. -/
def stepRequests (own : Value) (ps : List Nat) (n : Nat) : List PlanStep → List Request
  | [] => []
  | .result :: steps => (some own, ps.contains (n + 1)) :: stepRequests own ps (n + 1) steps
  | .use val _ :: steps => (some val, ps.contains (n + 1)) :: stepRequests own ps (n + 1) steps
  | .fresh :: steps => (none, ps.contains (n + 1)) :: stepRequests own ps (n + 1) steps
  | .emit _ :: steps => stepRequests own ps n steps

/-- The requests of all steps of a handler. -/
abbrev requestsOf (own : Value) (steps : List PlanStep) : List Request :=
  stepRequests own (positions steps) 0 steps

lemma requestsOf_shift (own op0 : Value) (shift : BitVec 64) :
    requestsOf own (shiftSteps op0 shift) =
      if shift.toNat ≤ 1 then [(some own, true), (some op0, true)]
      else [(some own, true), (none, true), (some op0, true)] := by
  unfold shiftSteps
  by_cases zero : shift = 0
  · rw [if_pos zero, zero]
    rfl
  by_cases one : shift = 1
  · rw [if_neg zero, if_pos one, one]
    rfl
  have ne0 : shift.toNat ≠ 0 := fun e => zero (BitVec.eq_of_toNat_eq e)
  have ne1 : shift.toNat ≠ 1 := fun e => one (BitVec.eq_of_toNat_eq e)
  rw [if_neg zero, if_neg one, if_neg (by omega)]
  rfl

lemma requestsOf_index (own ptr index : Value) (elemSize : BitVec 64) :
    requestsOf own (indexSteps ptr index elemSize) =
      [(some ptr, true), (some own, true), (some index, true)] ++
        if elemSize.toNat > 1 then [(none, true), (none, true)] else [] := by
  unfold indexSteps
  have same : elemSize > 1 ↔ elemSize.toNat > 1 := BitVec.lt_def
  by_cases large : elemSize.toNat > 1
  · rw [if_pos large, if_pos (same.mpr large)]
    rfl
  · rw [if_neg large, if_neg (fun h => large (same.mp h))]
    rfl

lemma requestsOf_globalId (own : Value) (dim : BitVec 32) :
    requestsOf own (globalIdSteps dim) =
      [(none, true), (none, true), (none, dim = 0), (some own, true)] := by
  unfold globalIdSteps
  by_cases zero : dim = 0
  · rw [if_pos zero, decide_eq_true zero]
    rfl
  · rw [if_neg zero, decide_eq_false zero]
    rfl

/-- The steps of an instruction make its requests. -/
theorem requestsOf_instruction (dl : DataLayout) (f : Llvm.Function) (i : Llvm.Instruction) :
    requestsOf (.instruction i.id) (instructionSteps dl f i) = instructionRequests dl f i := by
  obtain ⟨id, operation⟩ := i
  unfold instructionSteps instructionRequests
  cases operation with
  | binary opcode op0 op1 =>
    cases opcode with
    | add =>
      dsimp only [binarySteps]
      cases addImmediate? op1 <;> rfl
    | shl =>
      dsimp only [binarySteps]
      cases shiftAmount? op1 with
      | none => rfl
      | some shift => exact requestsOf_shift ..
    | sub | mul | other => rfl
  | icmp predicate op0 op1 =>
    dsimp only
    split <;> rfl
  | call callee args =>
    cases callee with
    | inlineAsm asmString =>
      dsimp only [asmSteps]
      cases asmForm (lower asmString) with
      | s2r | sync | ssy | exit | unknown => rfl
      | ldr =>
        match args with
        | [] | _ :: _ => rfl
      | str =>
        match args with
        | [] | [_] | _ :: _ :: _ => rfl
    | function name =>
      dsimp only [runtimeSteps]
      cases runtimeForm name (dimension args) with
      | s2r | sync | exit | unknown => rfl
      | globalId => exact requestsOf_globalId ..
    | indirect operand => rfl
  | getelementptr sourceElement ptr indices =>
    dsimp only [gepSteps]
    cases constantOffset? dl sourceElement indices with
    | some offset => rfl
    | none => exact requestsOf_index ..
  | load | store | alloca | cast | phi | select | other => rfl

/-- The steps of an item make its requests. -/
lemma requestsOf_item (dl : DataLayout) (f : Llvm.Function) (item : Item) :
    requestsOf item.own (item.steps dl f) = itemRequests dl f item := by
  cases item with
  | argument argIdx arg => rfl
  | inst i => exact requestsOf_instruction dl f i
  | term t =>
    cases t with
    | condBr condVal ifTrue ifFalse =>
      show requestsOf (.other 0) (conditionSteps f condVal) =
        (conditionUses f condVal).map fun u => (some u.1, true)
      unfold conditionSteps conditionUses
      cases icmp? f condVal <;> rfl
    | br | ret | switch | unreachable | other => rfl

end FpgaGpu

import FpgaGpu.Isa.Instruction

/-!
# LLVM functions

The part of LLVM's in-memory representation that the backend walks over. A pointer to a block is its
position in the function (`llvm::BasicBlock::Create` appends, so a position keeps its block), a
pointer to an instruction is an identity that the instruction carries, and a `ConstantInt` is its
width and bits, as LLVM keeps one object for each.
-/

namespace FpgaGpu.Llvm

/-- `llvm::Type`, as far as kernels are told apart by it. -/
inductive Ty where
  | int (width : Nat)
  | ptr
  | other (id : Nat)
  deriving DecidableEq, Repr

/-- `llvm::Value`. -/
inductive Value where
  | constantInt (width : Nat) (bits : BitVec width)
  | argument (index : Nat)
  | instruction (id : Nat)
  -- a global, `undef`, `null`, a constant expression
  | other (id : Nat)
  deriving DecidableEq, Repr

/-- `llvm::BinaryOperator` opcodes. -/
inductive BinaryOpcode where
  | add | sub | mul | shl
  | other (opcode : Nat)
  deriving DecidableEq, Repr

/-- The integer `llvm::CmpInst::Predicate`s. -/
inductive Predicate where
  | eq | ne | ugt | uge | ult | ule | sgt | sge | slt | sle
  deriving DecidableEq, Repr

/-- The called operand of a `llvm::CallInst`. -/
inductive Callee where
  | inlineAsm (asmString : Text)
  | function (name : Text)
  | indirect (operand : Value)
  deriving DecidableEq, Repr

/-- What an instruction does that does not end its block. -/
inductive Operation where
  | binary (opcode : BinaryOpcode) (op0 op1 : Value)
  | icmp (predicate : Predicate) (op0 op1 : Value)
  | load (ty : Ty) (ptr : Value)
  | store (ty : Ty) (value ptr : Value)
  | call (callee : Callee) (args : List Value)
  | alloca (arraySize : Value)
  | cast (src : Value)
  | getelementptr (sourceElement : Ty) (ptr : Value) (indices : List Value)
  | phi (incoming : List (Value × Nat))
  | select (cond ifTrue ifFalse : Value)
  | other (operands : List Value)
  deriving DecidableEq, Repr

/-- The operands. -/
def Operation.operands : Operation → List Value
  | .binary _ op0 op1 => [op0, op1]
  | .icmp _ op0 op1 => [op0, op1]
  | .load _ ptr => [ptr]
  | .store _ value ptr => [value, ptr]
  | .call (.indirect operand) args => args ++ [operand]
  | .call _ args => args
  | .alloca arraySize => [arraySize]
  | .cast src => [src]
  | .getelementptr _ ptr indices => ptr :: indices
  | .phi incoming => incoming.map Prod.fst
  | .select cond ifTrue ifFalse => [cond, ifTrue, ifFalse]
  | .other operands => operands

/-- `llvm::Instruction`. -/
structure Instruction where
  id : Nat
  operation : Operation
  deriving DecidableEq, Repr

/-- The last instruction of a block. -/
inductive Terminator where
  | br (dest : Nat)
  | condBr (cond : Value) (ifTrue ifFalse : Nat)
  | switch (cond : Value) (default : Nat) (cases : List (Value × Nat))
  | ret (value : Option Value)
  | unreachable
  | other (id : Nat) (operands : List Value) (dests : List Nat)
  deriving DecidableEq, Repr

/-- The successor slots. -/
def Terminator.successors : Terminator → List Nat
  | .br dest => [dest]
  | .condBr _ ifTrue ifFalse => [ifTrue, ifFalse]
  | .switch _ default cases => default :: cases.map Prod.snd
  | .ret _ => []
  | .unreachable => []
  | .other _ _ dests => dests

/-- The operands that are values. -/
def Terminator.operands : Terminator → List Value
  | .br _ => []
  | .condBr cond _ _ => [cond]
  | .switch cond _ cases => cond :: cases.map Prod.fst
  | .ret value => value.toList
  | .unreachable => []
  | .other _ operands _ => operands

/-- Applies a function to every successor slot. -/
def Terminator.mapSuccessors (g : Nat → Nat) : Terminator → Terminator
  | .br dest => .br (g dest)
  | .condBr cond ifTrue ifFalse => .condBr cond (g ifTrue) (g ifFalse)
  | .switch cond default cases => .switch cond (g default) (cases.map fun c => (c.1, g c.2))
  | .ret value => .ret value
  | .unreachable => .unreachable
  | .other id operands dests => .other id operands (dests.map g)

/-- A `llvm::BranchInst` with a condition. -/
def Terminator.isCondBr : Terminator → Bool
  | .condBr .. => true
  | _ => false

@[simp] lemma Terminator.successors_mapSuccessors (g : Nat → Nat) (t : Terminator) :
    (t.mapSuccessors g).successors = t.successors.map g := by
  cases t <;> simp [mapSuccessors, successors]

@[simp] lemma Terminator.isCondBr_mapSuccessors (g : Nat → Nat) (t : Terminator) :
    (t.mapSuccessors g).isCondBr = t.isCondBr := by
  cases t <;> rfl

lemma Terminator.mapSuccessors_mapSuccessors (g h : Nat → Nat) (t : Terminator) :
    (t.mapSuccessors g).mapSuccessors h = t.mapSuccessors (h ∘ g) := by
  cases t <;> simp [mapSuccessors]

/-- A function that fixes the successors changes nothing. -/
lemma Terminator.mapSuccessors_eq_self {g : Nat → Nat} {t : Terminator}
    (h : ∀ b ∈ t.successors, g b = b) : t.mapSuccessors g = t := by
  cases t with
  | switch cond default cases =>
    simp only [successors, List.mem_cons, List.mem_map, forall_eq_or_imp] at h
    have fixed : cases.map (fun c => (c.1, g c.2)) = cases := by
      conv_rhs => rw [← List.map_id cases]
      exact List.map_congr_left fun c hc => Prod.ext rfl (h.2 c.2 ⟨c, hc, rfl⟩)
    simp [mapSuccessors, h.1, fixed]
  | other id operands dests =>
    have fixed : dests.map g = dests := by
      conv_rhs => rw [← List.map_id dests]
      exact List.map_congr_left h
    simp [mapSuccessors, fixed]
  | _ => simp_all [mapSuccessors, successors]

/-- `llvm::BasicBlock`. -/
structure BasicBlock where
  name : Text
  body : List Instruction
  terminator : Terminator
  deriving DecidableEq, Repr

/-- `llvm::Argument`. -/
structure Argument where
  name : Text
  ty : Ty
  deriving DecidableEq, Repr

/-- `llvm::Function`. -/
structure Function where
  args : List Argument
  blocks : List BasicBlock
  deriving DecidableEq, Repr

/-- A function without a body. -/
def Function.isDeclaration (f : Function) : Bool := f.blocks.isEmpty

/-- The successor slots of a block. -/
def Function.successors (f : Function) (b : Nat) : List Nat :=
  match f.blocks[b]? with
  | some bb => bb.terminator.successors
  | none => []

/-- The name of a block. -/
def Function.blockName (f : Function) (b : Nat) : Text :=
  match f.blocks[b]? with
  | some bb => bb.name
  | none => []

/-- The identities of the instructions. -/
def Function.instIds (f : Function) : List Nat :=
  f.blocks.flatMap fun bb => bb.body.map Instruction.id ++
    match bb.terminator with
    | .other id _ _ => [id]
    | _ => []

/-- The identity of the next instruction that is created. -/
def Function.freshId (f : Function) : Nat := f.instIds.foldr max 0 + 1

/-- `llvm::predecessors`: the source of each edge into a block. -/
def Function.predecessors (f : Function) (b : Nat) : List Nat :=
  (List.range f.blocks.length).flatMap fun p => ((f.successors p).filter (· = b)).map fun _ => p

/-- The edges stay in the function. -/
def Function.Closed (f : Function) : Prop :=
  ∀ bb ∈ f.blocks, ∀ d ∈ bb.terminator.successors, d < f.blocks.length

instance (f : Function) : Decidable f.Closed := by
  unfold Function.Closed
  infer_instance

/-- What the IR verifier promises of the control flow graph. -/
structure Function.Verified (f : Function) : Prop where
  closed : f.Closed
  /-- The entry block has no predecessors. -/
  entry : ∀ bb ∈ f.blocks, 0 ∉ bb.terminator.successors

lemma Function.successors_of_getElem? {f : Function} {b bb} (h : f.blocks[b]? = some bb) :
    f.successors b = bb.terminator.successors := by
  simp [successors, h]

/-- Only blocks of the function have successors. -/
lemma Function.exists_of_mem_successors {f : Function} {b d} (h : d ∈ f.successors b) :
    ∃ bb, f.blocks[b]? = some bb ∧ d ∈ bb.terminator.successors := by
  unfold successors at h
  split at h
  · next bb e => exact ⟨bb, e, h⟩
  · cases h

/-- A block is a predecessor of its successors. -/
lemma Function.mem_predecessors {f : Function} {p b : Nat} :
    p ∈ f.predecessors b ↔ b ∈ f.successors p := by
  simp only [predecessors, List.mem_flatMap, List.mem_range, List.mem_map, List.mem_filter]
  constructor
  · rintro ⟨q, -, d, ⟨hd, eq⟩, rfl⟩
    exact of_decide_eq_true eq ▸ hd
  · intro h
    obtain ⟨bb, e, -⟩ := exists_of_mem_successors h
    exact ⟨p, (List.getElem?_eq_some_iff.mp e).1, b, ⟨h, by simp⟩, rfl⟩

/-- `llvm::Module`, its functions in order. -/
structure Module where
  functions : List Function

end FpgaGpu.Llvm

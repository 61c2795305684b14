import FpgaGpu.Asm.Normal
import FpgaGpu.Backend.Kernel
import FpgaGpu.Backend.Passed
import FpgaGpu.Backend.Reconvergence
import FpgaGpu.Emit.Agreement
import Mathlib

/-!
# The listing of a module

`-S` writes an assembly file, and `-a` assembles it again. For the code of a module nothing is lost
on that way but a label that no block has: the emitter leaves the offset 0 for it, and the assembler
rejects it.
-/

namespace FpgaGpu

open Llvm (BasicBlock Value)

/-! ## Listings with any labels -/

/-- Every label is the name of a block. -/
def LabelsNamed (blocks : List BasicBlockCode) : Prop :=
  ∀ mi ∈ layout blocks, mi.hasTarget → ∃ bb ∈ blocks, bb.name = mi.labelTarget

/-- What the emitter may be given for its assembly to be parsed: labels look like names. -/
structure Listable (blocks : List BasicBlockCode) : Prop where
  name : ∀ bb ∈ blocks, isBlockName bb.name
  readable : ∀ mi ∈ layout blocks, Readable mi

/-- A label that was not recorded is rejected. -/
lemma resolveLabels_rejected {labels : Text → Option Nat} {mis : List MachineInstruction}
    {mi : MachineInstruction} (mem : mi ∈ mis) (target : mi.hasTarget = true)
    (unknown : labels mi.labelTarget = none) (pc : Nat) :
    resolveLabels labels pc mis = .rejected := by
  induction mis generalizing pc with
  | nil => cases mem
  | cons mi' mis ih =>
    rw [resolveLabels]
    obtain rfl | mem := List.mem_cons.mp mem
    · simp [target, unknown]
    · rw [ih mem]
      cases mi'.hasTarget with
      | false => rfl
      | true => cases labels mi'.labelTarget <;> rfl

/-- A listing is assembled to the words of the blocks if its labels are names of blocks, and is
rejected if not. -/
lemma Listable.assemble {blocks : List BasicBlockCode} (h : Listable blocks) :
    (LabelsNamed blocks → FpgaGpu.assemble (emitAssembly blocks) = .ok (emitWords blocks)) ∧
      (¬ LabelsNamed blocks → FpgaGpu.assemble (emitAssembly blocks) = .rejected) := by
  have newline : ∀ l ∈ blocks.flatMap blockLines, '\n' ∉ l := by
    intro l hl
    obtain ⟨bb, hbb, hl⟩ := List.mem_flatMap.mp hl
    obtain rfl | hl := List.mem_cons.mp hl
    · simpa using (printed_blockName (h.name bb hbb)).line
    · obtain ⟨mi, hmi, rfl⟩ := List.mem_map.mp hl
      exact line_instructionLine (h.readable mi (List.mem_flatMap.mpr ⟨bb, hbb, hmi⟩))
  have lines : getlines (emitAssembly blocks) = blocks.flatMap blockLines := by
    rw [emitAssembly, ← List.flatMap_assoc, getlines_flatMap newline]
  rw [FpgaGpu.assemble, lines, parseLines_blockLines h.name h.readable, Outcome.ok_bind]
  constructor
  · intro named
    have words := resolveLabels_reassembled
      (fun mi hmi target => blockToPC_isSome (named mi hmi target)) 0
    simp only [Nat.zero_add] at words
    rw [emitWords, resolveBranchOffsets, List.mapIdx_eq_zipIdx_map, List.map_map]
    simpa [Parse.empty, blockToPC, List.mapIdx_eq_zipIdx_map, Function.comp_def] using words
  · intro astray
    simp only [LabelsNamed, not_forall] at astray
    obtain ⟨mi, hmi, target, unnamed⟩ := astray
    have unknown : blockToPC blocks mi.labelTarget = none := by
      rw [blockToPC, recordPCs_of_not_mem fun bb hbb same => unnamed ⟨bb, hbb, same⟩]
    refine resolveLabels_rejected (List.mem_append_right _ (List.mem_map_of_mem hmi)) ?_ ?_ 0
    · rw [hasTarget_reassembled, target]
    · rw [labelTarget_reassembled target]
      exact unknown

/-! ## Selected instructions -/

/-- What the parser needs to read an instruction back, but for its registers and its label. -/
def Instruction.Printable {Reg : Type} (mi : Instruction Reg) : Prop :=
  (mi.op = .br → 0 < mi.cond.toNat ∧ mi.cond.toNat < 8) ∧ (mi.op = .s2r → mi.imm.toNat < 4) ∧
    '\n' ∉ mi.comment

instance {Reg : Type} (mi : Instruction Reg) : Decidable mi.Printable :=
  inferInstanceAs (Decidable (_ ∧ _ ∧ _))

/-- All instructions of the steps are printable. -/
def printableSteps : List PlanStep → Bool
  | [] => true
  | .emit mi :: steps => decide mi.Printable && printableSteps steps
  | _ :: steps => printableSteps steps

lemma printableSteps_iff {steps : List PlanStep} :
    printableSteps steps = true ↔ ∀ mi, .emit mi ∈ steps → mi.Printable := by
  induction steps with
  | nil => simp [printableSteps]
  | cons step steps ih => cases step <;> simp [printableSteps, ih]

section Items

variable {dl : DataLayout} {f : Llvm.Function} {st st' : Selector}
  {code : List Emitted} {e : Emitted}

lemma printable_binary (opcode : Llvm.BinaryOpcode) (op0 op1 : Value) :
    printableSteps (binarySteps opcode op0 op1) = true := by
  unfold binarySteps
  cases opcode with
  | add =>
    dsimp only
    cases addImmediate? op1 <;> rfl
  | shl =>
    dsimp only
    cases shiftAmount? op1 with
    | none => rfl
    | some shift =>
      dsimp only [shiftSteps]
      split_ifs <;> rfl
  | sub | mul | other => rfl

lemma printable_asm (text : Text) (args : List Value) :
    printableSteps (asmSteps text args) = true := by
  unfold asmSteps
  split
  · unfold asmSysReg
    split_ifs <;> rfl
  all_goals rfl

lemma printable_runtime (name : Text) (args : List Value) :
    printableSteps (runtimeSteps name args) = true := by
  unfold runtimeSteps
  cases form : runtimeForm name (dimension args) with
  | s2r sr => cases sr <;> rfl
  | sync comment =>
    -- the two comments that a barrier gets
    unfold runtimeForm at form
    split_ifs at form <;> cases form <;> rfl
  | globalId =>
    dsimp only [globalIdSteps]
    split_ifs <;> rfl
  | exit | unknown => rfl

lemma printable_gep (sourceElement : Llvm.Ty) (ptr : Value) (indices : List Value) :
    printableSteps (gepSteps dl sourceElement ptr indices) = true := by
  unfold gepSteps
  cases constantOffset? dl sourceElement indices with
  | some offset => rfl
  | none =>
    dsimp only [indexSteps]
    split_ifs <;> rfl

lemma printable_instruction (i : Llvm.Instruction) :
    printableSteps (instructionSteps dl f i) = true := by
  unfold instructionSteps
  cases i.operation with
  | binary opcode op0 op1 => exact printable_binary opcode op0 op1
  | icmp predicate op0 op1 =>
    dsimp only
    split <;> rfl
  | call callee args =>
    cases callee with
    | inlineAsm text => exact printable_asm text args
    | function name => exact printable_runtime name args
    | indirect callee => rfl
  | getelementptr sourceElement ptr indices => exact printable_gep sourceElement ptr indices
  | load | store | alloca | cast | phi | select | other => rfl

lemma newline_not_mem_decimal (z : Int) : '\n' ∉ decimal z := (printed_decimal z).line

/-- The argument loads have the names of the arguments in their comments. -/
lemma printable_argument {argIdx : Nat} {arg : Llvm.Argument} (line : '\n' ∉ arg.name) :
    ∀ mi, .emit mi ∈ argumentSteps argIdx arg → mi.Printable := by
  have number : '\n' ∉ decimalNat argIdx := newline_not_mem_decimal argIdx
  intro mi mem
  simp only [argumentSteps, List.mem_cons, reduceCtorEq, PlanStep.emit.injEq,
    List.not_mem_nil, or_false, false_or] at mem
  obtain rfl | rfl := mem
  · exact ⟨by rintro ⟨⟩, by rintro ⟨⟩, List.not_mem_append (by decide) number⟩
  · exact ⟨by rintro ⟨⟩, by rintro ⟨⟩, List.not_mem_append (by decide) line⟩

lemma printable_branchTo {cond : BitVec 8} (letters : 0 < cond.toNat ∧ cond.toNat < 8) (dest : Nat)
    {comment : String} (line : '\n' ∉ comment.toList) :
    (branchTo f cond dest comment).mi.Printable :=
  ⟨fun _ => letters, nofun, line⟩

lemma branchCond_letters (predicate : Llvm.Predicate) :
    0 < (branchCond predicate).toNat ∧ (branchCond predicate).toNat < 8 := by
  cases predicate <;> decide

/-- A condition code has letters. -/
lemma conditionCode_letters (f : Llvm.Function) (condVal : Value) :
    0 < (conditionCode f condVal).toNat ∧ (conditionCode f condVal).toNat < 8 := by
  unfold conditionCode
  cases icmp? f condVal with
  | none => decide
  | some compared => exact branchCond_letters compared.1

lemma printable_tail {item : Item} (mem : e ∈ item.tail f) : e.mi.Printable := by
  cases item with
  | argument | inst => cases mem
  | term t =>
    cases t with
    | br dest =>
      obtain rfl := List.mem_singleton.mp mem
      exact printable_branchTo (by decide) dest (by decide)
    | condBr condVal ifTrue ifFalse =>
      simp only [Item.tail, terminatorTail, List.mem_cons, List.not_mem_nil, or_false] at mem
      obtain rfl | rfl := mem
      · exact printable_branchTo (conditionCode_letters f condVal) ifTrue (by decide)
      · exact printable_branchTo (by decide) ifFalse (by decide)
    | ret value =>
      obtain rfl := List.mem_singleton.mp mem
      exact ⟨nofun, nofun, by decide⟩
    | switch | unreachable | other => cases mem

/-- The constants that are loaded are printable. -/
lemma printable_loads {materialize : Bool} {r : Nat} {v : Value} {mi : Instruction Nat}
    (mem : mi ∈ loads materialize r v) : mi.Printable := by
  unfold loads at mem
  split at mem
  · split at mem
    · obtain rfl := List.mem_singleton.mp mem
      exact ⟨nofun, nofun, List.not_mem_append (by decide) (newline_not_mem_decimal _)⟩
    · cases mem
  · cases mem

/-- Everything that is emitted for an item is printable. -/
lemma selectItem_printable {item : Item} (h : selectItem dl f item st = some ((), code, st'))
    (line : ∀ k arg, item = .argument k arg → '\n' ∉ arg.name) (mem : e ∈ code) :
    e.mi.Printable := by
  obtain ⟨out, stepped⟩ := selectItem_stepped h
  rw [stepped.code] at mem
  obtain mem | mem := List.mem_append.mp mem
  · obtain ⟨mi, hmi, rfl⟩ := List.mem_map.mp mem
    refine runSteps_all (fun _ _ printable => printable) (fun mi mem => ?_)
      (fun _ _ _ _ => printable_loads) stepped.run mi hmi
    cases item with
    | argument k arg => exact printable_argument (line k arg rfl) mi mem
    | inst i => exact printableSteps_iff.mp (printable_instruction i) mi mem
    | term t =>
      cases t with
      | condBr condVal =>
        refine printableSteps_iff.mp ?_ mi mem
        show printableSteps (conditionSteps f condVal) = true
        unfold conditionSteps
        cases icmp? f condVal <;> rfl
      | br | ret | switch | unreachable | other => cases mem
  · exact printable_tail mem

/-- Branches have condition letters, whatever the arguments are called. -/
lemma selectItem_letters {item : Item} (h : selectItem dl f item st = some ((), code, st'))
    (mem : e ∈ code) (branch : e.mi.op = .br) : 0 < e.mi.cond.toNat ∧ e.mi.cond.toNat < 8 := by
  cases item with
  | argument k arg =>
    obtain ⟨out, stepped⟩ := selectItem_stepped h
    have plain : ∀ mi ∈ out, mi.op ≠ .br := by
      refine runSteps_all (fun _ _ ne => ne) (fun mi mem => ?_)
        (fun u _ r mi load => ?_) stepped.run
      · simp only [Item.steps, argumentSteps, List.mem_cons, reduceCtorEq,
          PlanStep.emit.injEq, List.not_mem_nil, or_false, false_or] at mem
        obtain rfl | rfl := mem <;> rintro ⟨⟩
      · obtain ⟨v, materialize⟩ := u
        cases materialize with
        | false => cases v <;> cases load
        | true =>
          rw [(writes_of_mem_loads load).2.2]
          decide
    rw [stepped.code] at mem
    obtain mem | mem := List.mem_append.mp mem
    · obtain ⟨mi, hmi, rfl⟩ := List.mem_map.mp mem
      exact absurd branch (plain mi hmi)
    · cases mem
  | inst i => exact (selectItem_printable h (by rintro _ _ ⟨⟩) mem).1 branch
  | term t => exact (selectItem_printable h (by rintro _ _ ⟨⟩) mem).1 branch

end Items

/-! ## Block names -/

/-- A character of block names behind the first one. -/
def isNameChar (c : Char) : Bool := c.isAlphanum || c == '_' || c == '.'

/-- A block name goes on with characters of names. -/
lemma isBlockName_append {name t : Text} (h : isBlockName name = true)
    (ht : ∀ c ∈ t, isNameChar c = true) :
    isBlockName (name ++ t) = true := by
  cases name with
  | nil => cases h
  | cons c s =>
    simp only [isBlockName, Bool.and_eq_true] at h
    simp only [List.cons_append, isBlockName, List.all_append, Bool.and_eq_true]
    exact ⟨h.1, h.2, List.all_eq_true.mpr ht⟩

lemma isBlockName_number (k : Nat) : isBlockName ("bb.".toList ++ decimalNat k) = true := by
  refine isBlockName_append (by decide) fun c mem => ?_
  have digit : c.isDigit = true := Nat.isDigit_of_mem_toDigits (by decide) (by decide) mem
  simp [isNameChar, Char.isAlphanum, digit]

lemma isBlockName_sync {name : Text} (h : name = [] ∨ isBlockName name = true) :
    isBlockName (name ++ ".sync".toList) = true := by
  obtain rfl | h := h
  · decide
  · exact isBlockName_append h (List.all_eq_true.mp (by decide))

/-- What lower case changes becomes a letter. -/
lemma isAlpha_toLower (c : Char) : c.toLower = c ∨ c.toLower.isAlpha = true := by
  by_cases range : c.val ≥ 'A'.val ∧ c.val ≤ 'Z'.val
  · right
    have low : 65 ≤ c.val.toNat := UInt32.le_iff_toNat_le.mp range.1
    have high : c.val.toNat ≤ 90 := UInt32.le_iff_toNat_le.mp range.2
    have value : c.toLower.val.toNat = c.val.toNat + 32 := by
      have val : c.toLower.val = c.val + ('a'.val - 'A'.val) := by
        rw [Char.toLower, dif_pos range]
      rw [val, UInt32.toNat_add, show ('a'.val - 'A'.val).toNat = 32 from rfl]
      omega
    have lower : c.toLower.isLower = true := by
      simp only [Char.isLower, ge_iff_le, Bool.and_eq_true, decide_eq_true_eq,
        UInt32.le_iff_toNat_le, value]
      exact ⟨show 97 ≤ c.val.toNat + 32 by omega, show c.val.toNat + 32 ≤ 122 by omega⟩
    rw [Char.isAlpha, lower, Bool.or_true]
  · exact .inl (dif_neg range)

/-- A block name in lower case is one. -/
lemma isBlockName_lower {name : Text} (h : isBlockName name = true) :
    isBlockName (lower name) = true := by
  cases name with
  | nil => cases h
  | cons c s =>
    simp only [isBlockName, Bool.and_eq_true, List.all_eq_true] at h
    simp only [lower, List.map_cons, isBlockName, Bool.and_eq_true,
      List.all_eq_true, List.forall_mem_map]
    constructor
    · obtain same | alpha := isAlpha_toLower c
      · rw [same]
        exact h.1
      · rw [alpha]
        rfl
    · intro d mem
      obtain same | alpha := isAlpha_toLower d
      · rw [same]
        exact h.2 d mem
      · rw [Char.isAlphanum, alpha]
        rfl

/-! ## The names of the pass -/

/-- The names that blocks get have a property. -/
structure NamesKept (llvm : Analyses) (P : Text → Prop) : Prop where
  number : ∀ g k, P (llvm.uniqueName g ("bb.".toList ++ decimalNat k))
  suffix : ∀ g name, name = [] ∨ P name → P (llvm.uniqueName g (name ++ ".sync".toList))

section Names

variable {llvm : Analyses} {P : Text → Prop} {f : Llvm.Function}

lemma blockName_of_names (names : ∀ bb ∈ f.blocks, P bb.name) (b : Nat) :
    f.blockName b = [] ∨ P (f.blockName b) := by
  unfold Llvm.Function.blockName
  cases e : f.blocks[b]? with
  | none => exact .inl rfl
  | some bb => exact .inr (names bb (List.mem_of_getElem? e))

/-- Naming the blocks gives each a name. -/
lemma NamesKept.nameBlocks (kept : NamesKept llvm P)
    (names : ∀ bb ∈ f.blocks, bb.name = [] ∨ P bb.name) :
    ∀ bb ∈ (nameBlocks llvm f).blocks, P bb.name := by
  -- what is left without a name is still to come
  have all : ∀ (is : List Nat) (g : Llvm.Function),
      (∀ b bb, g.blocks[b]? = some bb → P bb.name ∨ bb.name = [] ∧ b ∈ is) →
      ∀ bb ∈ (is.foldl (nameBlock llvm) g).blocks, P bb.name := by
    intro is
    induction is with
    | nil =>
      intro g named bb mem
      obtain ⟨b, e⟩ := List.getElem?_of_mem mem
      exact (named b bb e).resolve_right fun h => List.not_mem_nil h.2
    | cons i is ih =>
      intro g named
      refine ih _ fun b bb hb => ?_
      unfold nameBlock at hb
      split at hb
      · rw [getElem?_modifyBlock] at hb
        split at hb
        · obtain ⟨bb', -, rfl⟩ := Option.map_eq_some_iff.mp hb
          exact .inl (kept.number g i)
        · next ne =>
          obtain here | ⟨empty, mem⟩ := named b bb hb
          · exact .inl here
          · exact .inr ⟨empty, (List.mem_cons.mp mem).resolve_left (Ne.symm ne)⟩
      · next filled =>
        obtain here | ⟨empty, mem⟩ := named b bb hb
        · exact .inl here
        · refine .inr ⟨empty, (List.mem_cons.mp mem).resolve_left ?_⟩
          rintro rfl
          exact filled (by rw [Llvm.Function.blockName, hb]; exact empty)
  refine all _ f fun b bb hb => ?_
  obtain empty | here := names bb (List.mem_of_getElem? hb)
  · exact .inr ⟨empty, List.mem_range.mpr (List.getElem?_eq_some_iff.mp hb).1⟩
  · exact .inl here

lemma names_modifyBlock {b : Nat} {change : BasicBlock → BasicBlock}
    (same : ∀ bb, (change bb).name = bb.name) (names : ∀ bb ∈ f.blocks, P bb.name) :
    ∀ bb ∈ (f.modifyBlock b change).blocks, P bb.name := by
  intro bb mem
  obtain ⟨c, e⟩ := List.getElem?_of_mem mem
  rw [getElem?_modifyBlock] at e
  split at e
  · obtain ⟨bb', e', rfl⟩ := Option.map_eq_some_iff.mp e
    exact same bb' ▸ names bb' (List.mem_of_getElem? e')
  · exact names bb (List.mem_of_getElem? e)

/-- The created blocks have names of their own. -/
lemma NamesKept.insertSync (kept : NamesKept llvm P) (ipd pred : Nat)
    (names : ∀ bb ∈ f.blocks, P bb.name) :
    ∀ bb ∈ (insertSync llvm ipd f pred).blocks, P bb.name := by
  refine names_modifyBlock (fun bb => rfl) fun bb mem => ?_
  obtain mem | mem := List.mem_append.mp mem
  · exact names bb mem
  · obtain rfl := List.mem_singleton.mp mem
    exact kept.suffix f _ (blockName_of_names names pred)

lemma NamesKept.processBranch (kept : NamesKept llvm P) (named : Llvm.Function) (b : Nat)
    (names : ∀ bb ∈ f.blocks, P bb.name) :
    ∀ bb ∈ (processBranch llvm named f b).blocks, P bb.name := by
  unfold FpgaGpu.processBranch
  split
  · exact names
  · next ipd join =>
    dsimp only
    generalize (llvm.predecessors (insertSsy f b ipd) ipd).filter (llvm.dominates named b) = preds
    have start : ∀ bb ∈ (insertSsy f b ipd).blocks, P bb.name :=
      names_modifyBlock (fun bb => rfl) names
    generalize insertSsy f b ipd = g at start
    induction preds generalizing g with
    | nil => exact start
    | cons p preds ih => exact ih _ (kept.insertSync ipd p start)

/-- All names of the result. -/
lemma NamesKept.runDivergencePass (kept : NamesKept llvm P)
    (names : ∀ bb ∈ f.blocks, bb.name = [] ∨ P bb.name) :
    ∀ bb ∈ (runDivergencePass llvm f).blocks, P bb.name := by
  unfold FpgaGpu.runDivergencePass
  split
  · next declaration =>
    intro bb mem
    rw [List.isEmpty_iff.mp declaration] at mem
    cases mem
  · have start := kept.nameBlocks names
    dsimp only
    generalize condBranches (FpgaGpu.nameBlocks llvm f) = branches
    generalize FpgaGpu.nameBlocks llvm f = named at start
    suffices all : ∀ g : Llvm.Function, (∀ bb ∈ g.blocks, P bb.name) →
        ∀ bb ∈ (branches.foldl (FpgaGpu.processBranch llvm named) g).blocks,
          P bb.name from all named start
    induction branches with
    | nil => exact fun g names => names
    | cons b branches ih => exact fun g names => ih _ (kept.processBranch named b names)

/-- The `SSY`s of the result are those of the function, and one before each branch that has a
reconvergence block. -/
lemma callsSsy_runDivergencePass (closed : f.Closed) (faithful : llvm.Faithful (nameBlocks llvm f))
    {call : Llvm.Instruction} {text : Text} (mem : call ∈ bodyOf (runDivergencePass llvm f))
    (calls : CallsSsy call text) : call ∈ bodyOf f ∨ ∃ b bb J, f.blocks[b]? = some bb ∧
      bb.terminator.isCondBr = true ∧ llvm.ipdom (nameBlocks llvm f) b = some J ∧
      text = ssyAsm (nameBlocks llvm f) J := by
  obtain ⟨bb', hbb, mem⟩ := List.mem_flatMap.mp mem
  obtain ⟨b, e⟩ := List.getElem?_of_mem hbb
  have contracts := runDivergencePass_contracts closed faithful
  obtain old | created := Nat.lt_or_ge b f.blocks.length
  · have here := List.getElem?_eq_getElem old
    obtain ⟨bb'', new, e', body, operations⟩ := contracts.body b _ here
    obtain rfl := Option.some.inj (e.symm.trans e')
    rw [body] at mem
    obtain mem | mem := List.mem_append.mp mem
    · exact .inl (List.mem_flatMap.mpr ⟨_, List.mem_of_getElem? here, mem⟩)
    · have operation := List.mem_map_of_mem (f := Llvm.Instruction.operation) mem
      rw [operations] at operation
      split at operation
      · next branch =>
        split at operation
        · next J join =>
          obtain ⟨⟨args, e⟩, -⟩ := calls
          rw [e] at operation
          cases List.mem_singleton.mp operation
          exact .inr ⟨b, _, J, here, branch, join, rfl⟩
        · cases operation
      · cases operation
  · obtain ⟨name, id, dest, rfl⟩ := contracts.created b bb' created e
    obtain rfl := List.mem_singleton.mp mem
    obtain ⟨⟨args, operation⟩, form⟩ := calls
    cases operation
    cases form

end Names

/-! ## Modules -/

section Modules

variable {llvm : Analyses} {dl : DataLayout} {order : SortOrder} {M : Llvm.Module}
variable {codes : List (List SelectedBlock)} {blocks : List BasicBlockCode}

/-- The reconvergence block of the conditional branch at the end of the block `b`. -/
def JoinsAt (llvm : Analyses) (f : Llvm.Function) (b J : Nat) : Prop :=
  ∃ bb, f.blocks[b]? = some bb ∧ bb.terminator.isCondBr = true ∧
    llvm.ipdom (nameBlocks llvm f) b = some J

/-- What a module needs for its listing to be parsed. -/
structure Llvm.Module.Listable (llvm : Analyses) (M : Llvm.Module) : Prop where
  closed : ∀ f ∈ M.functions, f.Closed
  faithful : ∀ f ∈ M.functions, llvm.Faithful (nameBlocks llvm f)
  name : ∀ f ∈ M.functions, ∀ bb ∈ f.blocks, bb.name = [] ∨ isBlockName bb.name
  unique : NamesKept llvm fun name => isBlockName name = true
  argument : ∀ f ∈ M.functions, ∀ arg ∈ f.args, '\n' ∉ arg.name
  noSsy : ∀ f ∈ M.functions, ∀ call ∈ bodyOf f, ∀ text, ¬ CallsSsy call text

lemma mem_definedFunctions {f : Llvm.Function} (mem : f ∈ definedFunctions llvm M) :
    ∃ g ∈ M.functions, f = runDivergencePass llvm g := by
  obtain ⟨mem, -⟩ := List.mem_filter.mp mem
  obtain ⟨g, hg, rfl⟩ := List.mem_map.mp mem
  exact ⟨g, hg, rfl⟩

/-- A selected block is one of a function. -/
lemma exists_selected
    (select : selectFunctions dl (M.functions.map (runDivergencePass llvm)) = some codes)
    {sb : SelectedBlock} (mem : sb ∈ codes.flatten) :
    ∃ (i b : Nat) (f : Llvm.Function) (bb : BasicBlock) (code : List SelectedBlock),
      (definedFunctions llvm M)[i]? = some f ∧ codes[i]? = some code ∧ code[b]? = some sb ∧
        f.blocks[b]? = some bb ∧ sb.name = blockNames f b := by
  obtain ⟨code, hc, mem⟩ := List.mem_flatten.mp mem
  obtain ⟨i, hc⟩ := List.getElem?_of_mem hc
  obtain ⟨b, hb⟩ := List.getElem?_of_mem mem
  have lt : i < (definedFunctions llvm M).length :=
    (selectFunctions_forall₂ select).length_eq ▸ (List.getElem?_eq_some_iff.mp hc).1
  have hf := List.getElem?_eq_getElem lt
  obtain ⟨st, selectF⟩ := selectFunction_of_getElem? select hf hc
  obtain ⟨pieces, selected⟩ := selectFunction_selected selectF
  have name := congrArg (·[b]?) selected.names
  simp only [List.getElem?_map, hb, Option.map_some, List.getElem?_mapIdx] at name
  obtain ⟨bb, hbb, e⟩ := Option.map_eq_some_iff.mp name.symm
  exact ⟨i, b, _, bb, code, hf, hc, hb, hbb, e.symm⟩

/-- An emitted instruction belongs to an item of its block. -/
lemma EmittedAt.item
    (select : selectFunctions dl (M.functions.map (runDivergencePass llvm)) = some codes)
    {i b k : Nat} {f : Llvm.Function} {e : Emitted} {bb : BasicBlock}
    (emitted : EmittedAt llvm M codes i b k f e) (hb : f.blocks[b]? = some bb) :
    ∃ item ∈ itemsOf f b bb, ∃ st code st',
      selectItem dl f item st = some ((), code, st') ∧ e ∈ code := by
  obtain ⟨ps, items, pieceSelect, -, emittedAt⟩ := exists_block select emitted.1 hb
  obtain ⟨-, n, p, m, hp, he, -⟩ := emittedAt.mp emitted
  have mem := List.mem_of_getElem? hp
  exact ⟨p.item, items ▸ List.mem_map_of_mem mem, _, _, _, pieceSelect p mem,
    List.mem_of_getElem? he⟩

/-- The arguments among the items of a block are those of the function. -/
lemma mem_args_of_mem_itemsOf {f : Llvm.Function} {b : Nat} {bb : BasicBlock}
    {k : Nat} {arg : Llvm.Argument} (mem : .argument k arg ∈ itemsOf f b bb) : arg ∈ f.args := by
  have all : ∀ (args : List Llvm.Argument) (n : Nat), .argument k arg ∈ argumentItems n args →
      arg ∈ args := by
    intro args
    induction args with
    | nil => exact fun _ mem => (List.not_mem_nil mem).elim
    | cons a args ih =>
      intro n mem
      obtain same | mem := List.mem_cons.mp mem
      · exact (Item.argument.inj same).2 ▸ List.mem_cons_self
      · exact List.mem_cons_of_mem _ (ih _ mem)
  obtain mem | mem := List.mem_append.mp mem
  · split at mem
    · exact all _ _ mem
    · cases mem
  · simp at mem

/-- The label of an emitted instruction: a successor, or what is left of the text of an `SSY`. -/
lemma EmittedAt.label
    (select : selectFunctions dl (M.functions.map (runDivergencePass llvm)) = some codes)
    {i b k : Nat} {f : Llvm.Function} {e : Emitted} {bb : BasicBlock}
    (emitted : EmittedAt llvm M codes i b k f e) (hb : f.blocks[b]? = some bb)
    (use : e.mi.op.usesImm19 = true) :
    (∃ s ∈ f.successors b, e.mi.labelTarget = blockNames f s) ∨
      ∃ call ∈ bodyOf f, ∃ text, CallsSsy call text ∧ e.mi.labelTarget = asmLabel (lower text) := by
  cases op : e.mi.op with
  | br =>
    obtain ⟨s, succ, -, label⟩ := emitted.branch select op
    exact .inl ⟨s, succ, label⟩
  | ssy =>
    obtain ⟨item, mem, st, code, st', lowered, he⟩ := emitted.item select hb
    obtain ⟨call, text, rfl, calls⟩ := selectItem_ssy lowered he op
    rw [calls.code_eq lowered] at he
    obtain rfl := List.mem_singleton.mp he
    refine .inr ⟨call, ?_, text, calls, rfl⟩
    obtain ⟨m, hm⟩ := List.getElem?_of_mem mem
    obtain ⟨n, hn, -⟩ := getElem?_itemsOf.mp hm
    exact List.mem_flatMap.mpr ⟨bb, List.mem_of_getElem? hb, List.mem_of_getElem? hn⟩
  | add | sub | mul | cmp | addi | ldr | str | s2r | sync | exit =>
    rw [op] at use
    cases use

/-- The instructions of the layout are those that are emitted, with their registers allocated. -/
lemma exists_emitted
    (select : selectFunctions dl (M.functions.map (runDivergencePass llvm)) = some codes)
    {φ : RegField → RegField} {mi : MachineInstruction}
    (mem : mi ∈ layout ((allBlocks codes).map (BlockCode.mapRegs φ))) :
    ∃ i b k f e bb, EmittedAt llvm M codes i b k f e ∧ f.blocks[b]? = some bb ∧
      mi = (e.mi.mapRegs narrow).mapRegs φ := by
  obtain ⟨bc, hbc, mem⟩ := List.mem_flatMap.mp mem
  rw [allBlocks, List.map_map] at hbc
  obtain ⟨sb, hsb, rfl⟩ := List.mem_map.mp hbc
  obtain ⟨i, b, f, bb, code, hf, hc, hb, hbb, -⟩ := exists_selected select hsb
  simp only [Function.comp_apply, BlockCode.mapRegs, SelectedBlock.code,
    List.map_map, List.mem_map] at mem
  obtain ⟨e, he, rfl⟩ := mem
  obtain ⟨k, hk⟩ := List.getElem?_of_mem he
  exact ⟨i, b, k, f, e, bb, ⟨hf, code, sb, hc, hb, hk⟩, hbb, rfl⟩

/-- The labels of a function whose blocks have names. -/
lemma isBlockName_blockNames {f : Llvm.Function}
    (names : ∀ bb ∈ f.blocks, isBlockName bb.name = true) (b : Nat) :
    isBlockName (blockNames f b) = true := by
  unfold blockNames
  split
  · exact isBlockName_number b
  · next ne => exact (blockName_of_names (P := fun name => isBlockName name = true)
      names b).resolve_left ne

/-- Every `SSY` that the pass inserts names, in lower case, a block. -/
def JoinsFound (llvm : Analyses) (M : Llvm.Module) (blocks : List BasicBlockCode) : Prop :=
  ∀ f ∈ M.functions, ∀ b J, JoinsAt llvm f b J →
    asmForm (lower (ssyAsm (nameBlocks llvm f) J)) = .ssy →
    ∃ bb ∈ blocks, bb.name = lower ((nameBlocks llvm f).blockName J)

/-- The text of an inserted `SSY` names a block. -/
lemma Llvm.Module.Listable.joinName (listable : M.Listable llvm) {f : Llvm.Function}
    (mem : f ∈ M.functions) {b J : Nat} (join : JoinsAt llvm f b J) :
    isBlockName ((nameBlocks llvm f).blockName J) = true := by
  obtain ⟨bb, -, -, join⟩ := join
  have lt := (listable.faithful f mem).ipdom_lt join
  have name := listable.unique.nameBlocks (listable.name f mem) _ (List.getElem_mem lt)
  rwa [Llvm.Function.blockName, List.getElem?_eq_getElem lt]

/-- The labels of a function of a module. -/
lemma Llvm.Module.Listable.label (listable : M.Listable llvm)
    (select : selectFunctions dl (M.functions.map (runDivergencePass llvm)) = some codes)
    {i b k : Nat} {f : Llvm.Function} {e : Emitted} {bb : BasicBlock}
    (emitted : EmittedAt llvm M codes i b k f e) (hb : f.blocks[b]? = some bb)
    (use : e.mi.op.usesImm19 = true) :
    (∃ s < f.blocks.length, e.mi.labelTarget = blockNames f s) ∨
      ∃ g ∈ M.functions, ∃ b J, JoinsAt llvm g b J ∧
        asmForm (lower (ssyAsm (nameBlocks llvm g) J)) = .ssy ∧
        e.mi.labelTarget = lower ((nameBlocks llvm g).blockName J) := by
  obtain ⟨g, hg, rfl⟩ := mem_definedFunctions (List.mem_of_getElem? emitted.1)
  have closed := listable.closed g hg
  have faithful := listable.faithful g hg
  obtain ⟨s, succ, label⟩ | ⟨call, mem, text, calls, label⟩ := emitted.label select hb use
  · rw [Llvm.Function.successors_of_getElem? hb] at succ
    exact .inl ⟨s, (runDivergencePass_detours closed faithful).closed bb
      (List.mem_of_getElem? hb) s succ, label⟩
  · obtain own | ⟨b, bb, J, e, branch, join, rfl⟩ :=
      callsSsy_runDivergencePass closed faithful mem calls
    · exact absurd calls (listable.noSsy g hg call own text)
    · refine .inr ⟨g, hg, b, J, ⟨bb, e, branch, join⟩, calls.2, ?_⟩
      rw [label, ssyAsm, asmLabel_ssyAsm]

/-- The listing of a module is parsed. -/
lemma Llvm.Module.Listable.listable_blocks (listable : M.Listable llvm)
    (select : selectFunctions dl (M.functions.map (runDivergencePass llvm)) = some codes)
    (compiled : compileModule llvm dl order M = some blocks) : FpgaGpu.Listable blocks := by
  have names : ∀ f ∈ definedFunctions llvm M, ∀ bb ∈ f.blocks, isBlockName bb.name = true := by
    intro f mem
    obtain ⟨g, hg, rfl⟩ := mem_definedFunctions mem
    exact listable.unique.runDivergencePass (listable.name g hg)
  rw [compileModule, select, Option.bind_eq_bind, Option.bind_some] at compiled
  split at compiled
  · cases compiled
  obtain ⟨φ, rfl, alloc⟩ := allocate_spec compiled
  constructor
  · simp only [allBlocks, List.map_map, List.forall_mem_map]
    intro sb mem
    obtain ⟨i, b, f, bb, code, hf, -, -, -, name⟩ := exists_selected select mem
    show isBlockName sb.name = true
    rw [name]
    exact isBlockName_blockNames (names f (List.mem_of_getElem? hf)) b
  · intro mi mem
    have range : ∀ v ∈ [mi.rd, mi.rs1, mi.rs2], v.toNat < 32 := by
      rw [layout_mapRegs] at mem
      obtain ⟨mi, inside, rfl⟩ := List.mem_map.mp mem
      obtain ⟨n, e⟩ := List.getElem?_of_mem inside
      simp only [List.forall_mem_cons, List.not_mem_nil, false_implies, implies_true, and_true]
      exact ⟨alloc.register_lt e (by simp [Instruction.fields]),
        alloc.register_lt e (by simp [Instruction.fields]),
        alloc.register_lt e (by simp [Instruction.fields])⟩
    obtain ⟨i, b, k, f, e, bb, emitted, hb, rfl⟩ := exists_emitted select mem
    obtain ⟨item, hi, st, code, st', lowered, he⟩ := emitted.item select hb
    have defined := List.mem_of_getElem? emitted.1
    obtain ⟨cond, sysReg, comment⟩ : e.mi.Printable := by
      obtain ⟨g, hg, rfl⟩ := mem_definedFunctions defined
      have grown := Grown.runDivergencePass llvm g
      exact selectItem_printable lowered (fun k arg same =>
        listable.argument g hg arg (grown.args ▸ mem_args_of_mem_itemsOf (same ▸ hi))) he
    refine ⟨range _ (by simp), range _ (by simp), range _ (by simp), cond, sysReg,
      comment, fun use ne => ?_⟩
    show isBlockName e.mi.labelTarget = true
    obtain ⟨s, -, label⟩ | ⟨g, hg, b, J, join, -, label⟩ := listable.label select emitted hb use
    · rw [label]
      exact isBlockName_blockNames (names f defined) s
    · rw [label]
      exact isBlockName_lower (listable.joinName hg join)

/-- The words of a module are normal forms. -/
lemma compileModule_normal (compiled : compileModule llvm dl order M = some blocks) :
    ∀ w ∈ emitWords blocks, normalWord w = some w := by
  obtain ⟨codes, select, -⟩ := Option.bind_eq_some_iff.mp compiled
  obtain ⟨φ, rfl⟩ := compileModule_eq_some select compiled
  intro w mem
  obtain ⟨mi, resolved, rfl⟩ := List.mem_map.mp mem
  obtain ⟨n, lt, rfl⟩ := List.mem_mapIdx.mp resolved
  refine normalWord_encode fun branch => ?_
  rw [resolveAt_op] at branch
  obtain ⟨i, b, k, f, e, bb, emitted, hb, same⟩ := exists_emitted select (List.getElem_mem lt)
  obtain ⟨item, -, st, code, st', lowered, he⟩ := emitted.item select hb
  have letters := selectItem_letters lowered he (by rw [same] at branch; exact branch)
  have cond : (resolveAt (blockToPC ((allBlocks codes).map (BlockCode.mapRegs φ))) n
      ((layout ((allBlocks codes).map (BlockCode.mapRegs φ)))[n])).cond = e.mi.cond := by
    rw [resolveAt_cond, same]
    rfl
  rw [cond, and_cond_mask letters.2]
  rintro zero
  rw [zero] at letters
  exact absurd letters.1 (by decide)

/-- A branch names a block. -/
lemma exists_block_named
    (select : selectFunctions dl (M.functions.map (runDivergencePass llvm)) = some codes)
    {φ : RegField → RegField} {i s : Nat} {f : Llvm.Function}
    (hf : (definedFunctions llvm M)[i]? = some f) (lt : s < f.blocks.length) :
    ∃ bb ∈ (allBlocks codes).map (BlockCode.mapRegs φ), bb.name = blockNames f s := by
  have inside : i < codes.length := by
    rw [← (selectFunctions_forall₂ select).length_eq]
    exact (List.getElem?_eq_some_iff.mp hf).1
  have hc := List.getElem?_eq_getElem inside
  obtain ⟨st, selectF⟩ := selectFunction_of_getElem? select hf hc
  obtain ⟨pieces, selected⟩ := selectFunction_selected selectF
  have name : blockNames f s ∈ (codes[i]).map SelectedBlock.name := by
    rw [selected.names]
    exact List.mem_mapIdx.mpr ⟨s, lt, rfl⟩
  obtain ⟨sb, mem, name⟩ := List.mem_map.mp name
  refine ⟨sb.code.mapRegs φ, ?_, name⟩
  rw [allBlocks, List.map_map]
  exact List.mem_map_of_mem (List.mem_flatten.mpr ⟨_, List.getElem_mem inside, mem⟩)

/-- The inserted `SSY`s are in the layout. -/
lemma Llvm.Module.Listable.exists_ssy (listable : M.Listable llvm)
    (select : selectFunctions dl (M.functions.map (runDivergencePass llvm)) = some codes)
    (φ : RegField → RegField) {f : Llvm.Function} (mem : f ∈ M.functions) {b J : Nat}
    (join : JoinsAt llvm f b J) (form : asmForm (lower (ssyAsm (nameBlocks llvm f) J)) = .ssy) :
    ∃ mi ∈ layout ((allBlocks codes).map (BlockCode.mapRegs φ)), mi.op = .ssy ∧
      mi.labelTarget = lower ((nameBlocks llvm f).blockName J) := by
  obtain ⟨bb, hb, branch, join⟩ := join
  have contracts := runDivergencePass_contracts (listable.closed f mem) (listable.faithful f mem)
  obtain ⟨bb', calls, hb', body, operations⟩ := contracts.body b bb hb
  rw [if_pos branch, join, List.map_eq_singleton_iff] at operations
  obtain ⟨ssy, rfl, operation⟩ := operations
  have defined : runDivergencePass llvm f ∈ definedFunctions llvm M := by
    refine List.mem_filter.mpr ⟨List.mem_map_of_mem mem, ?_⟩
    rw [Llvm.Function.isDeclaration, Bool.not_eq_true', List.isEmpty_eq_false_iff]
    exact List.ne_nil_of_mem (List.mem_of_getElem? hb')
  obtain ⟨i, hf⟩ := List.getElem?_of_mem defined
  obtain ⟨ps, items, pieceSelect, -, emittedAt⟩ := exists_block select hf hb'
  obtain ⟨p, hp, same⟩ : ∃ p ∈ ps, p.item = .inst ssy := by
    have : Item.inst ssy ∈ itemsOf (runDivergencePass llvm f) b bb' := by
      rw [itemsOf, body]
      simp
    rwa [← items, List.mem_map] at this
  have code := CallsSsy.code_eq ⟨⟨[], operation⟩, form⟩ (same ▸ pieceSelect p hp)
  obtain ⟨n, hn⟩ := List.getElem?_of_mem hp
  have emitted : EmittedAt llvm M codes i b _ _ ⟨.instruction ssy.id,
      ssyInstruction (ssyAsm (nameBlocks llvm f) J)⟩ :=
    emittedAt.mpr ⟨rfl, n, p, 0, hn, by rw [code]; rfl, rfl⟩
  refine ⟨_, List.mem_of_getElem? (emitted.layout φ), rfl, ?_⟩
  show asmLabel (lower (ssyAsm (nameBlocks llvm f) J)) = _
  rw [ssyAsm, asmLabel_ssyAsm]

/-- Branches name blocks, so the labels do if the `SSY`s do. -/
lemma Llvm.Module.Listable.joinsFound_iff (listable : M.Listable llvm)
    (select : selectFunctions dl (M.functions.map (runDivergencePass llvm)) = some codes)
    (compiled : compileModule llvm dl order M = some blocks) :
    JoinsFound llvm M blocks ↔ LabelsNamed blocks := by
  obtain ⟨φ, rfl⟩ := compileModule_eq_some select compiled
  constructor
  · intro found mi mem target
    obtain ⟨i, b, k, f, e, bb, emitted, hb, rfl⟩ := exists_emitted select mem
    have use : e.mi.op.usesImm19 = true := by
      cases op : e.mi.op <;> simp [Instruction.hasTarget, Instruction.mapRegs, op] at target <;> rfl
    obtain ⟨s, lt, label⟩ | ⟨g, hg, b, J, join, form, label⟩ := listable.label select emitted hb use
    · exact label ▸ exists_block_named select emitted.1 lt
    · exact label ▸ found g hg b J join form
  · intro named f mem b J join form
    obtain ⟨mi, hmi, op, label⟩ := listable.exists_ssy select φ mem join form
    have ne : mi.labelTarget ≠ [] := by
      have name := listable.joinName mem join
      rw [label]
      cases e : (nameBlocks llvm f).blockName J with
      | nil =>
        rw [e] at name
        cases name
      | cons c s => exact List.cons_ne_nil _ _
    exact label ▸ named mi hmi (by simp [Instruction.hasTarget, op, ne])

/-- The listing of a module is assembled to the words of the module exactly if every `SSY` names, in
lower case, a block of the module. Otherwise it is rejected, where the words have the offset 0. -/
theorem compileModule_listing (listable : M.Listable llvm)
    (compiled : compileModule llvm dl order M = some blocks) :
    (JoinsFound llvm M blocks → assemble (emitAssembly blocks) = .ok (emitWords blocks)) ∧
      (¬ JoinsFound llvm M blocks → assemble (emitAssembly blocks) = .rejected) := by
  obtain ⟨codes, select, -⟩ := Option.bind_eq_some_iff.mp compiled
  rw [listable.joinsFound_iff select compiled]
  exact (listable.listable_blocks select compiled).assemble

end Modules

/-! ## The listing of an `if` -/

/-- LLVM makes a name its own with a number. -/
lemma suffixed_namesKept : NamesKept ifThenAnalyses fun name => isBlockName name = true := by
  have suffixed_name :
      ∀ g name, isBlockName name = true → isBlockName (suffixed g name) = true := by
    intro g name h
    unfold suffixed
    split
    · refine isBlockName_append h fun c mem => ?_
      have digit : c.isDigit = true := Nat.isDigit_of_mem_toDigits (by decide) (by decide) mem
      simp [isNameChar, Char.isAlphanum, digit]
    · exact h
  exact ⟨fun g k => suffixed_name g _ (isBlockName_number k),
    fun g name h => suffixed_name g _ (isBlockName_sync h)⟩

lemma ifThen_listable {join : Text} (name : isBlockName join = true) :
    (ifThenModule join).Listable ifThenAnalyses := by
  have one : ∀ P : Llvm.Function → Prop, P (ifThenTo join) →
      ∀ f ∈ (ifThenModule join).functions, P f := by
    rintro P h f mem
    exact List.mem_singleton.mp mem ▸ h
  refine ⟨one _ ?_, one _ ⟨fun {b J} join => ?_, fun _ _ => .refl _⟩, one _ ?_,
    suffixed_namesKept, one _ ?_, one _ ?_⟩
  · simp [Llvm.Function.Closed, ifThenTo, Llvm.Terminator.successors]
  · rw [(nameBlocks_spec _ _).1]
    change (if b < 3 ∧ b ≠ 2 then some 2 else none) = some J at join
    split at join
    · exact Option.some.inj join ▸ (by decide : 2 < 3)
    · cases join
  · intro bb mem
    simp only [ifThenTo, List.mem_cons, List.not_mem_nil, or_false] at mem
    obtain rfl | rfl | rfl := mem
    · exact .inr (by decide)
    · exact .inr (by decide)
    · exact .inr name
  · simp [ifThenTo]
  · simp [bodyOf, ifThenTo]

/-- The only branch is that of the entry block. -/
lemma ifThen_joinsAt {join : Text} {b J : Nat} (h : JoinsAt ifThenAnalyses (ifThenTo join) b J) :
    b = 0 ∧ J = 2 := by
  obtain ⟨bb, e, branch, reconverges⟩ := h
  match b with
  | 0 => exact ⟨rfl, (Option.some.inj reconverges).symm⟩
  | 1 | 2 =>
    obtain rfl := Option.some.inj e
    cases branch
  | b + 3 => cases e

lemma ifThen_joinsFound :
    JoinsFound ifThenAnalyses (ifThenModule "join".toList) (ifThenBlocks "join".toList) := by
  intro f mem b J join _
  obtain rfl := List.mem_singleton.mp mem
  obtain ⟨rfl, rfl⟩ := ifThen_joinsAt join
  decide

/-- The listing of an `if` is assembled if the block behind it has a name in lower case, and
rejected if not. -/
theorem compileModule_listing_ifThen :
    assemble (emitAssembly (ifThenBlocks "join".toList)) =
      .ok (emitWords (ifThenBlocks "join".toList)) ∧
      assemble (emitAssembly (ifThenBlocks "Join".toList)) = .rejected := by
  constructor
  · exact (compileModule_listing (ifThen_listable (by decide)) (ifThen_compile (by decide))).1
      ifThen_joinsFound
  · refine (compileModule_listing (ifThen_listable (by decide)) (ifThen_compile (by decide))).2
      fun found => ?_
    have named := found _ (List.mem_singleton.mpr rfl) 0 2 ⟨_, rfl, rfl, rfl⟩ (by decide)
    exact absurd named (by decide)

end FpgaGpu

import FpgaGpu.Ir.Control
import FpgaGpu.Isel.Constants
import FpgaGpu.Isel.Simulation
import FpgaGpu.Isel.Ssy

/-!
# Kernels with branches

The functions of several blocks whose instructions the selector lowers to what LLVM says of them,
and what the code of one instruction does to a thread that holds the values that it uses.
-/

namespace FpgaGpu

open Llvm (Value)

/-! ## Kernels -/

/-- The instructions whose result is a word in a register. -/
def wordIds (f : Llvm.Function) : List Nat :=
  ((bodyOf f).filter fun i => produces i.operation).map Llvm.Instruction.id

/-- The instructions of kernels with branches. -/
inductive FlowInstruction (dl : DataLayout) (f : Llvm.Function) (i : Llvm.Instruction) : Prop
  | kernel (operation : KernelOperation dl f.args.length (wordIds f) i.operation)
  | compare {predicate op0 op1} (icmp : i.operation = .icmp predicate op0 op1)
    (word0 : IsWord f.args.length (wordIds f) op0) (word1 : IsWord f.args.length (wordIds f) op1)
    (branch : branchOnly f i.id = true)
  | read {text sr} (asm : i.operation = .call (.inlineAsm text) [])
    (device : Llvm.deviceAsm? text = some (.read sr))
  | load {text ptr} (asm : i.operation = .call (.inlineAsm text) [ptr])
    (device : Llvm.deviceAsm? text = some .load) (operand : IsOperand f.args.length (wordIds f) ptr)
  | store {text value ptr} (asm : i.operation = .call (.inlineAsm text) [value, ptr])
    (device : Llvm.deviceAsm? text = some .store) (word : IsWord f.args.length (wordIds f) value)
    (operand : IsOperand f.args.length (wordIds f) ptr)
  | marker {text} (asm : i.operation = .call (.inlineAsm text) [])
    (device : Llvm.deviceAsm? text = some .marker)
    (form : asmForm (lower text) = .ssy ∨ asmForm (lower text) = .sync)

/-- A terminator that goes on, on a comparison where it has a condition, or returns. -/
def FlowTerminator (f : Llvm.Function) : Llvm.Terminator → Prop
  | .br _ | .ret _ => True
  | .condBr cond _ _ => ∃ predicate op0 op1, icmp? f cond = some (predicate, op0, op1)
  | .switch .. | .unreachable | .other .. => False

/-- A kernel with branches. Every path to a use of a constant has come to the first use in layout
order, which loads it. -/
structure FlowKernel (dl : DataLayout) (f : Llvm.Function) : Prop where
  ssa : Ssa f
  entry : ∀ bb ∈ f.blocks, 0 ∉ bb.terminator.successors
  instructions : ∀ i ∈ bodyOf f, FlowInstruction dl f i
  terminators : ∀ bb ∈ f.blocks, FlowTerminator f bb.terminator
  loads : FirstUsesLoad dl f

section Instructions

/-- The selector takes a text of the device headers for what it is. -/
lemma deviceAsm?_read {text : Text} {sr : SysReg} (h : Llvm.deviceAsm? text = some (.read sr)) :
    asmForm (lower text) = .s2r ∧ asmSysReg (lower text) = sr.val := by
  unfold Llvm.deviceAsm? at h
  split_ifs at h <;> cases h <;> subst text <;> decide

lemma deviceAsm?_load {text : Text} (h : Llvm.deviceAsm? text = some .load) :
    asmForm (lower text) = .ldr := by
  unfold Llvm.deviceAsm? at h
  split_ifs at h <;> cases h
  subst text
  decide

lemma deviceAsm?_store {text : Text} (h : Llvm.deviceAsm? text = some .store) :
    asmForm (lower text) = .str := by
  unfold Llvm.deviceAsm? at h
  split_ifs at h <;> cases h
  subst text
  decide

variable {dl : DataLayout} {f : Llvm.Function} {i : Llvm.Instruction}

/-- A kernel has no `phi`. -/
lemma FlowInstruction.operands_eq (h : FlowInstruction dl f i) :
    (Item.inst i).operands = i.operation.operands := by
  obtain ⟨id, operation⟩ := i
  cases h with
  | kernel operation => cases operation <;> rfl
  | compare e | read e | load e | store e | marker e =>
    obtain rfl := e
    rfl

/-- Its calls return. -/
lemma FlowInstruction.exits_eq (h : FlowInstruction dl f i) : exits i.operation = false := by
  obtain ⟨id, operation⟩ := i
  cases h with
  | kernel operation => cases operation <;> rfl
  | compare e =>
    obtain rfl := e
    rfl
  | read e device =>
    obtain rfl := e
    simp [exits, (deviceAsm?_read device).1]
  | load e device =>
    obtain rfl := e
    simp [exits, deviceAsm?_load device]
  | store e device =>
    obtain rfl := e
    simp [exits, deviceAsm?_store device]
  | marker e device form =>
    obtain rfl := e
    obtain form | form := form <;> simp [exits, form]

/-- A comparison compares words. -/
lemma FlowInstruction.words_of_icmp (h : FlowInstruction dl f i) {predicate : Llvm.Predicate}
    {op0 op1 : Value} (icmp : i.operation = .icmp predicate op0 op1) :
    IsWord f.args.length (wordIds f) op0 ∧ IsWord f.args.length (wordIds f) op1 := by
  obtain ⟨id, operation⟩ := i
  obtain rfl : operation = _ := icmp
  cases h with
  | kernel operation => cases operation
  | compare e word0 word1 =>
    obtain ⟨rfl, rfl, rfl⟩ := Llvm.Operation.icmp.inj e
    exact ⟨word0, word1⟩
  | read e | load e | store e | marker e => cases e

end Instructions

lemma FlowTerminator.lowered {f : Llvm.Function} {t : Llvm.Terminator} (h : FlowTerminator f t) :
    isLowered t = true := by
  cases t with
  | br | condBr | ret => rfl
  | switch | unreachable | other => cases h

/-- The uses of a terminator are words. -/
lemma FlowKernel.usable {dl : DataLayout} {f : Llvm.Function} (kernel : FlowKernel dl f)
    {t : Llvm.Terminator} : ∀ u ∈ terminatorUses f t, Usable f.args.length (wordIds f) u := by
  intro u mem
  cases t with
  | condBr cond ifTrue ifFalse =>
    have mem : u ∈ conditionUses f cond := mem
    unfold conditionUses at mem
    split at mem
    · next predicate op0 op1 compared =>
      obtain ⟨id, hi, -⟩ := icmp?_eq_some compared
      obtain ⟨word0, word1⟩ := (kernel.instructions _ hi).words_of_icmp rfl
      simp only [List.mem_cons, List.not_mem_nil, or_false] at mem
      obtain rfl | rfl := mem
      · exact word0.usable
      · exact word1.usable
    · cases mem
  | br | switch | ret | unreachable | other => cases mem

/-! ## What an instruction is lowered to -/

/-- Control goes on behind the instruction, and its immediate fits its field. -/
structure Instruction.Straight {Reg : Type} (mi : Instruction Reg) : Prop where
  plain : mi.Plain
  cond : mi.cond = BranchCond.ALWAYS
  imm14 : mi.op.usesImm14 → -8192 ≤ mi.imm.toInt ∧ mi.imm.toInt < 8192
  imm19 : mi.op = .ssy → mi.imm = 0

lemma Instruction.Simple.straight {Reg : Type} {mi : Instruction Reg} (h : mi.Simple) :
    mi.Straight :=
  ⟨⟨h.op.1, h.op.2.2⟩, h.cond, h.imm, fun ssy => absurd ssy h.op.2.1⟩

lemma Instruction.Straight.mapRegs {Reg Reg' : Type} (φ : Reg → Reg') {mi : Instruction Reg}
    (h : mi.Straight) : (mi.mapRegs φ).Straight := ⟨h.plain, h.cond, h.imm14, h.imm19⟩

/-- Steps that lower the instruction `i`, which leads to the state `ir'` and leaves the word `x` in
the register of its result. -/
structure Performed {hw : Hardware} (dl : DataLayout) (f : Llvm.Function)
    (n : Nat) (defined : List Nat) (ir : Llvm.State hw) (i : Llvm.Instruction)
    (steps : List PlanStep) (ir' : Llvm.State hw) (x : Option Word) : Prop where
  select : selectInstruction dl f i = runSteps (.instruction i.id) [] steps
  yields : Yields ir.word ir.mem (uses dl f i) steps ir'.mem x
  perform : Llvm.perform dl.typeAllocSize ir i = some ir'
  produces : produces i.operation = x.isSome
  result : ∀ y, x = some y → ir'.results i.id = some y
  others : ∀ id, id ≠ i.id → ir'.results id = ir.results id
  args : ir'.args = ir.args
  usable : ∀ u ∈ uses dl f i, Usable n defined u
  straight : ∀ mi, .emit mi ∈ steps → mi.Straight

section Lowering

variable {hw : Hardware} {dl : DataLayout} {f : Llvm.Function} {n : Nat} {defined : List Nat}
variable {ir : Llvm.State hw} {i : Llvm.Instruction}

lemma IsOperand.restrict {defined' : List Nat} {v : Value} (h : IsOperand n defined v)
    (known : ∀ id ∈ defined, v = .instruction id → id ∈ defined') : IsOperand n defined' v := by
  cases v with
  | argument => exact h
  | instruction id => exact known id h rfl
  | constantInt | other => cases h

lemma IsWord.restrict {defined' : List Nat} {v : Value} (h : IsWord n defined v)
    (known : ∀ id ∈ defined, v = .instruction id → id ∈ defined') : IsWord n defined' v :=
  h.imp_left fun operand => operand.restrict known

lemma Usable.restrict {defined' : List Nat} {u : Value × Bool} (h : Usable n defined u)
    (known : ∀ id ∈ defined, u.1 = .instruction id → id ∈ defined') : Usable n defined' u :=
  h.imp_left fun operand => operand.restrict known

/-- An instruction of a kernel needs the results that it uses. -/
lemma KernelOperation.restrict {defined' : List Nat} {operation : Llvm.Operation}
    (h : KernelOperation dl n defined operation)
    (known : ∀ id ∈ defined, .instruction id ∈ operation.operands → id ∈ defined') :
    KernelOperation dl n defined' operation := by
  have operands : ∀ v ∈ operation.operands, ∀ id ∈ defined, v = .instruction id → id ∈ defined' :=
    fun v mem id hid e => known id hid (e ▸ mem)
  cases h with
  | arithmetic op word0 word1 notBoth =>
    exact .arithmetic op (word0.restrict (operands _ (by simp [Llvm.Operation.operands])))
      (word1.restrict (operands _ (by simp [Llvm.Operation.operands]))) notBoth
  | shl operand small =>
    exact .shl (operand.restrict (operands _ (by simp [Llvm.Operation.operands]))) small
  | offset operand index offset =>
    exact .offset (operand.restrict (operands _ (by simp [Llvm.Operation.operands]))) index offset
  | index operand word size =>
    exact .index (operand.restrict (operands _ (by simp [Llvm.Operation.operands])))
      (word.restrict (operands _ (by simp [Llvm.Operation.operands]))) size
  | load operand => exact .load (operand.restrict (operands _ (by simp [Llvm.Operation.operands])))
  | store word operand =>
    exact .store (word.restrict (operands _ (by simp [Llvm.Operation.operands])))
      (operand.restrict (operands _ (by simp [Llvm.Operation.operands])))

/-- What kernels without branches execute is executed in the same way here. -/
lemma KernelOperation.perform_eq (h : KernelOperation dl n defined i.operation)
    (typeAllocSize : Llvm.Ty → BitVec 64) :
    Llvm.perform typeAllocSize ir i = Llvm.execute typeAllocSize ir i := by
  obtain ⟨id, operation⟩ := i
  cases h <;> rfl

/-- Steps that leave a memory and a result. -/
lemma Performed.of_leave {us : List (Value × Bool)} {steps : List PlanStep}
    {mem' : hw.Mem} {x : Option Word} (used : uses dl f i = us)
    (select : selectInstruction dl f i = runSteps (.instruction i.id) [] steps)
    (yields : Yields ir.word ir.mem us steps mem' x)
    (perform : Llvm.perform dl.typeAllocSize ir i = some (ir.leave i.id mem' x))
    (produces : FpgaGpu.produces i.operation = x.isSome) (usable : ∀ u ∈ us, Usable n defined u)
    (straight : ∀ mi, .emit mi ∈ steps → mi.Straight) :
    Performed dl f n defined ir i steps (ir.leave i.id mem' x) x where
  select := select
  yields := by
    rw [used]
    cases x <;> exact yields
  perform := perform
  produces := produces
  result := by
    rintro y rfl
    exact Function.update_self ..
  others id ne := by
    cases x with
    | none => rfl
    | some y => exact Function.update_of_ne ne ..
  args := by cases x <;> rfl
  usable := used ▸ usable
  straight := straight

lemma Lowered.performed {steps : List PlanStep} {mem' : hw.Mem} {x : Option Word}
    (h : Lowered dl f n defined ir i (uses dl f i) steps mem' x)
    (same : Llvm.perform dl.typeAllocSize ir i = Llvm.execute dl.typeAllocSize ir i) :
    Performed dl f n defined ir i steps (ir.leave i.id mem' x) x :=
  .of_leave rfl h.select h.yields (same.trans h.execute) h.produces h.usable
    fun mi mem => (h.simple mi mem).straight

/-! ## Inline assembly -/

lemma straight_of_no_imm {mi : Instruction Nat} (plain : mi.Plain)
    (cond : mi.cond = BranchCond.ALWAYS) (none : mi.op.usesImm14 = false) (zero : mi.imm = 0) :
    mi.Straight :=
  ⟨plain, cond, fun h => (by rw [none] at h; cases h), fun _ => zero⟩

/-- Reading a system register. -/
lemma performed_read {text : Text} {sr : SysReg}
    (asm : i.operation = .call (.inlineAsm text) [])
    (device : Llvm.deviceAsm? text = some (.read sr)) :
    ∃ steps ir' x, Performed dl f n defined ir i steps ir' x := by
  obtain ⟨form, number⟩ := deviceAsm?_read device
  obtain ⟨id, operation⟩ := i
  obtain rfl : operation = _ := asm
  have used : uses dl f ⟨id, .call (.inlineAsm text) []⟩ = [] := by simp [uses, form]
  refine ⟨s2rSteps sr.val "s2r inline asm", _, _,
    .of_leave used ?_ (.of_result 1 rfl rfl rfl rfl rfl rfl rfl)
    (x := some (hw.sysReg sr.val)) ?_ ?_ (List.forall_mem_nil _) fun mi mem => ?_⟩
  · simp only [selectInstruction, selectCall, selectAsm, form, number]
    rfl
  · simp only [Llvm.perform, device, Option.bind_eq_bind, Option.bind_some, Llvm.State.device]
    rfl
  · simp [produces, form]
  · obtain rfl : mi = _ := by simpa [s2rSteps] using mem
    refine ⟨⟨fun h => ?_, fun h => ?_⟩, rfl, fun _ => ?_, fun h => ?_⟩
    · cases h
    · cases h
    · cases sr <;> exact ⟨by decide, by decide⟩
    · cases h

/-- The load of the device headers. -/
lemma performed_load {text : Text} {ptr : Value} (asm : i.operation = .call (.inlineAsm text) [ptr])
    (device : Llvm.deviceAsm? text = some .load) (operand : IsOperand n defined ptr)
    (known : ir.Known defined) : ∃ steps ir' x, Performed dl f n defined ir i steps ir' x := by
  have form := deviceAsm?_load device
  obtain ⟨id, operation⟩ := i
  obtain rfl : operation = _ := asm
  let mi : Instruction Nat :=
    { newInstruction .ldr with rd := 1, rs1 := 2, comment := "ldr inline asm".toList }
  have used : uses dl f ⟨id, .call (.inlineAsm text) [ptr]⟩ = [(ptr, false)] := by simp [uses, form]
  refine ⟨[.result, .use ptr false, .emit mi], _, _, .of_leave used ?_
    (.of_result 1 rfl rfl rfl rfl rfl rfl rfl) (x := some (hw.load ir.mem (ir.word ptr))) ?_ ?_
    (List.forall_mem_singleton.mpr (.inl operand)) fun mi' mem => ?_⟩
  · simp only [selectInstruction, selectCall, selectAsm, form]
    rfl
  · simp only [Llvm.perform, device, Option.bind_eq_bind, Option.bind_some, Llvm.State.device,
      operand.value known]
    rfl
  · simp [produces, form]
  · obtain rfl : mi' = _ := by simpa using mem
    exact straight_of_no_imm ⟨by rintro ⟨⟩, by rintro ⟨⟩⟩ rfl rfl rfl

/-- The store of the device headers. -/
lemma performed_store {text : Text} {val ptr : Value}
    (asm : i.operation = .call (.inlineAsm text) [val, ptr])
    (device : Llvm.deviceAsm? text = some .store) (word : IsWord n defined val)
    (operand : IsOperand n defined ptr) (known : ir.Known defined) :
    ∃ steps ir' x, Performed dl f n defined ir i steps ir' x := by
  have form := deviceAsm?_store device
  obtain ⟨id, operation⟩ := i
  obtain rfl : operation = _ := asm
  let mi : Instruction Nat :=
    { newInstruction .str with rs1 := 2, rs2 := 1, comment := "str inline asm".toList }
  have used : uses dl f ⟨id, .call (.inlineAsm text) [val, ptr]⟩ = [(val, true), (ptr, false)] := by
    simp [uses, form]
  refine ⟨[.use val true, .use ptr false, .emit mi], _, none, .of_leave used ?_
    ⟨rfl, rfl, rfl, rfl, by rintro _ ⟨⟩, fun _ => rfl⟩ ?_ ?_ ?_ fun mi' mem => ?_⟩
  · simp only [selectInstruction, selectCall, selectAsm, form]
    rfl
  · simp only [Llvm.perform, device, Option.bind_eq_bind, Option.bind_some, Llvm.State.device,
      word.value known, operand.value known]
    rfl
  · simp [produces, form]
  · simp only [List.forall_mem_cons, List.not_mem_nil, false_implies, implies_true, and_true]
    exact ⟨word.usable, .inl operand⟩
  · obtain rfl : mi' = _ := by simpa using mem
    exact straight_of_no_imm ⟨by rintro ⟨⟩, by rintro ⟨⟩⟩ rfl rfl rfl

/-- A marker of the divergence pass. -/
lemma performed_marker {text : Text} (asm : i.operation = .call (.inlineAsm text) [])
    (device : Llvm.deviceAsm? text = some .marker)
    (form : asmForm (lower text) = .ssy ∨ asmForm (lower text) = .sync) :
    ∃ steps ir' x, Performed dl f n defined ir i steps ir' x := by
  obtain ⟨id, operation⟩ := i
  obtain rfl : operation = _ := asm
  obtain ⟨mi, select, plain, cond, none, zero, silent⟩ : ∃ mi : Instruction Nat,
      selectInstruction dl f ⟨id, .call (.inlineAsm text) []⟩ =
        runSteps (.instruction id) [] [.emit mi] ∧ mi.Plain ∧ mi.cond = BranchCond.ALWAYS ∧
        mi.op.usesImm14 = false ∧ mi.imm = 0 ∧ (mi.op = .ssy ∨ mi.op = .sync) := by
    obtain form | form := form
    · exact ⟨ssyInstruction text,
        by simp only [selectInstruction, selectCall, selectAsm, form]; rfl,
        ⟨by rintro ⟨⟩, by rintro ⟨⟩⟩, rfl, rfl, rfl, .inl rfl⟩
    · exact ⟨{ newInstruction .sync with comment := "sync inline asm".toList },
        by simp only [selectInstruction, selectCall, selectAsm, form]; rfl,
        ⟨by rintro ⟨⟩, by rintro ⟨⟩⟩, rfl, rfl, rfl, .inr rfl⟩
  have used : uses dl f ⟨id, .call (.inlineAsm text) []⟩ = [] := by
    obtain form | form := form <;> simp [uses, form]
  refine ⟨[.emit mi], ir.leave id ir.mem Option.none, Option.none, .of_leave used select
    ⟨rfl, ?_, ?_, ?_, by rintro _ ⟨⟩, fun _ => rfl⟩ ?_ ?_ (List.forall_mem_nil _) fun mi' mem => ?_⟩
  · obtain op | op := silent <;>
      simp [wellFormed, emits, Instruction.reads, Instruction.writes, op, Opcode.usesRs1,
        Opcode.usesRs2, Opcode.usesRd]
  · obtain op | op := silent <;>
      simp [initialised, Instruction.reads, op, Opcode.usesRs1, Opcode.usesRs2]
  · obtain op | op := silent <;> simp [evaluate, execute, op, Thread.blank]
  · simp only [Llvm.perform, device, Option.bind_eq_bind, Option.bind_some, Llvm.State.device]
    rfl
  · obtain form | form := form <;> simp [produces, form]
  · obtain rfl : mi' = _ := by simpa using mem
    exact straight_of_no_imm plain cond none zero

/-- A comparison for a branch is not lowered here. -/
lemma performed_compare {predicate : Llvm.Predicate} {op0 op1 : Value}
    (icmp : i.operation = .icmp predicate op0 op1) (word0 : IsWord n defined op0)
    (word1 : IsWord n defined op1) (branch : branchOnly f i.id = true) (known : ir.Known defined) :
    ∃ steps ir' x, Performed dl f n defined ir i steps ir' x := by
  obtain ⟨id, operation⟩ := i
  obtain rfl : operation = _ := icmp
  have used : uses dl f ⟨id, .icmp predicate op0 op1⟩ = [] := by simp [uses, branch]
  refine ⟨[], ir.define id (if predicate.holds (ir.word op0) (ir.word op1) then 1 else 0), none, ?_,
    ⟨used.symm, rfl, rfl, rfl, by rintro _ ⟨⟩, fun _ => rfl⟩, ?_, rfl, by rintro _ ⟨⟩,
    fun id' ne => ?_, rfl, used ▸ List.forall_mem_nil _, by rintro _ ⟨⟩⟩
  · simp only [selectInstruction, branch, if_true]
    rfl
  · simp only [Llvm.perform, word0.value known, word1.value known]
    rfl
  · exact Function.update_of_ne ne ..

/-- Every instruction is lowered, once the results that it uses are known. -/
theorem FlowInstruction.performed (h : FlowInstruction dl f i) (lawful : dl.Lawful)
    (known : ir.Known defined)
    (used : ∀ id ∈ wordIds f, .instruction id ∈ i.operation.operands → id ∈ defined) :
    ∃ steps ir' x, Performed dl f f.args.length defined ir i steps ir' x := by
  have operands : ∀ v ∈ i.operation.operands, ∀ id ∈ wordIds f, v = .instruction id →
      id ∈ defined :=
    fun v mem id hid e => used id hid (e ▸ mem)
  cases h with
  | kernel operation =>
    obtain ⟨steps, mem', x, lowered⟩ := (operation.restrict used).lowered lawful known f
    exact ⟨steps, _, x, lowered.performed (operation.perform_eq _)⟩
  | compare icmp word0 word1 branch =>
    exact performed_compare icmp
      (word0.restrict (operands _ (by simp [icmp, Llvm.Operation.operands])))
      (word1.restrict (operands _ (by simp [icmp, Llvm.Operation.operands]))) branch known
  | read asm device => exact performed_read asm device
  | load asm device operand =>
    exact performed_load asm device
      (operand.restrict (operands _ (by simp [asm, Llvm.Operation.operands]))) known
  | store asm device word operand =>
    exact performed_store asm device
      (word.restrict (operands _ (by simp [asm, Llvm.Operation.operands])))
      (operand.restrict (operands _ (by simp [asm, Llvm.Operation.operands]))) known
  | marker asm device form => exact performed_marker asm device form

end Lowering

end FpgaGpu

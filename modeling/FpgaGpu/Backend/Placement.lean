import FpgaGpu.Backend.Kernel
import FpgaGpu.Backend.Module
import FpgaGpu.Isel.Following
import FpgaGpu.Isel.Local

/-!
# Where the code of a function stands

The selected blocks of a function stand one after the other in the blocks of a module, with
registers of 8 bits. A thread runs through a block as the instructions over virtual registers say,
and a branch leads to the start of the block that it names.
-/

namespace FpgaGpu

open Llvm (Terminator)

/-! ## Registers of 8 bits -/

section Narrowing

variable {hw : Hardware}

/-- The thread `t` holds the first 256 registers of `s`. -/
structure Narrowed (s : Thread hw Nat) (t : Thread hw RegField) : Prop where
  mem : t.mem = s.mem
  flags : t.flags = s.flags
  regs : ∀ r < 256, t.regs (narrow r) = s.regs r

/-- The registers of an instruction have numbers below 256. -/
def Instruction.Small (mi : Instruction Nat) : Prop :=
  ∀ r, r ∈ mi.reads ∨ mi.writes = some r → r < 256

variable {s : Thread hw Nat} {t : Thread hw RegField}

lemma Narrowed.read (h : Narrowed s t) {r : Nat} (lt : r < 256) : t.read (narrow r) = s.read r := by
  have zero : narrow r = 0 ↔ r = 0 := by
    refine ⟨fun e => narrow_injective lt (by decide) (e.trans rfl), ?_⟩
    rintro rfl
    rfl
  simp only [Thread.read, zero, h.regs r lt]

/-- An instruction over few registers does the same in 8 bits. -/
lemma Narrowed.execute (h : Narrowed s t) {mi : Instruction Nat} (small : mi.Small) (pc pc' : Int) :
    Narrowed (execute s pc mi) (execute t pc' (mi.mapRegs narrow)) := by
  have reads : ∀ r ∈ mi.reads, t.read (narrow r) = s.read r :=
    fun r mem => h.read (small r (.inl mem))
  have same := result_mapRegs h.mem reads
  refine ⟨mem_execute_mapRegs h.mem reads, ?_, fun r lt => ?_⟩
  · simp only [FpgaGpu.execute, same, h.flags]
    rfl
  · by_cases write : mi.writes = some r
    · obtain ⟨writes, e⟩ := Option.ite_none_right_eq_some.mp write
      obtain rfl := Option.some.inj e
      simp only [FpgaGpu.execute, mapRegs_op, writes, if_true, same]
      simp [Instruction.mapRegs]
    · rw [regs_execute_narrow (fun r' w => small r' (.inr w)) lt write, h.regs r lt]
      by_cases writes : mi.op.usesRd
      · have ne : r ≠ mi.rd := fun e => write (by rw [Instruction.writes, if_pos writes, e])
        simp [FpgaGpu.execute, writes, Function.update_of_ne ne]
      · simp [FpgaGpu.execute, writes]

lemma Narrowed.executeAll {code : List (Instruction Nat)} (h : Narrowed s t)
    (small : ∀ mi ∈ code, mi.Small) :
    Narrowed (executeAll s code) (executeAll t (code.map (Instruction.mapRegs narrow))) := by
  induction code generalizing s t with
  | nil => exact h
  | cons mi code ih =>
    obtain ⟨head, small⟩ := List.forall_mem_cons.mp small
    exact ih (h.execute head _ _) small

end Narrowing

/-! ## Resolved instructions -/

/-- Only a branch does something else once its label is resolved. -/
lemma execute_resolveAt {hw : Hardware} {mi : MachineInstruction} (branch : mi.op ≠ .br)
    (labels : Text → Option Nat) (n : Nat) (s : Thread hw RegField) (pc : Int) :
    execute s pc (resolveAt labels n mi) = execute s pc mi := by
  unfold resolveAt
  split
  · next target =>
    have ssy : mi.op = .ssy := by
      simp only [Instruction.hasTarget, branch, decide_false, Bool.false_or, Bool.and_eq_true,
        decide_eq_true_eq] at target
      exact target.1
    split
    · simp [execute, result, nextPc, ssy]
    · rfl
  · rfl

lemma reads_resolveAt (labels : Text → Option Nat) (n : Nat) (mi : MachineInstruction) :
    (resolveAt labels n mi).reads = mi.reads := by
  unfold resolveAt
  split
  · split <;> rfl
  · rfl

lemma writes_resolveAt (labels : Text → Option Nat) (n : Nat) (mi : MachineInstruction) :
    (resolveAt labels n mi).writes = mi.writes := by
  unfold resolveAt
  split
  · split <;> rfl
  · rfl

/-- A branch goes on at its target or behind it. -/
lemma execute_branch {hw : Hardware} {mi : MachineInstruction} (op : mi.op = .br)
    (s : Thread hw RegField) (pc : Int) :
    (execute s pc mi).regs = s.regs ∧ (execute s pc mi).mem = s.mem ∧
      (execute s pc mi).pc =
        some (if takes mi.cond s.flags then pc + mi.imm.toInt else pc + 1) := by
  simp [execute, op, Opcode.usesRd, nextPc]

/-- The offset of a near instruction leads to it. -/
lemma add_toInt_pcOffset {target pc : Nat} (h : target < 2 ^ 31) (h' : pc < 2 ^ 31) :
    (pc : Int) + (pcOffset target pc).toInt = target := by
  rw [pcOffset, BitVec.toInt_eq_toNat_cond, BitVec.toNat_sub,
    BitVec.toNat_ofNat, BitVec.toNat_ofNat, Nat.mod_eq_of_lt (show target < 2 ^ 32 by omega),
    Nat.mod_eq_of_lt (show pc < 2 ^ 32 by omega)]
  split <;> omega

/-! ## The blocks of a function -/

/-- The code of a function stands in blocks from the block `first` on, and its labels lead to its
own blocks. -/
structure Embedded (f : Llvm.Function) (code : List SelectedBlock) (blocks : List BasicBlockCode)
    (first : Nat) : Prop where
  stands : ∀ b sb, code[b]? = some sb → blocks[first + b]? = some sb.code
  labels : ∀ d < f.blocks.length, LastNamed blocks (blockNames f d) (first + d)
  short : (layout blocks).length < 2 ^ 18

/-- The block that a terminator leads to. -/
def Llvm.Terminator.target (f : Llvm.Function) (flags : Word) : Terminator → Option Nat
  | .br dest => some dest
  | .condBr cond ifTrue ifFalse =>
    some (if takes (conditionCode f cond) flags then ifTrue else ifFalse)
  | .ret _ | .switch .. | .unreachable | .other .. => none

section Embedding

variable {f : Llvm.Function} {code : List SelectedBlock}
  {blocks : List BasicBlockCode} {first : Nat}
variable {b : Nat} {sb : SelectedBlock} {hw : Hardware} {s : Thread hw Nat} {t : Thread hw RegField}

lemma blockStart_le (blocks : List BasicBlockCode) (j : Nat) :
    blockStart blocks j ≤ (layout blocks).length := by
  have split : layout (blocks.take j) ++ layout (blocks.drop j) = layout blocks := by
    rw [← layout_append, List.take_append_drop]
  rw [blockStart, ← split, List.length_append]
  exact Nat.le_add_right ..

/-- Labels that lead to their blocks are distinct. -/
lemma Embedded.distinct (h : Embedded f code blocks first) : NamesDistinct f := by
  refine List.nodup_iff_injective_get.mpr fun ⟨d, lt⟩ ⟨d', lt'⟩ same => ?_
  simp only [List.length_mapIdx] at lt lt'
  have same : blockNames f d = blockNames f d' := by simpa using same
  have e := (h.labels d lt).unique (same ▸ h.labels d' lt')
  simp only [Fin.mk.injEq]
  omega

/-- The instruction `k` of a block. -/
lemma Embedded.fetch (h : Embedded f code blocks first) (hb : code[b]? = some sb)
    {k : Nat} {e : Emitted} (he : sb.items[k]? = some e) :
    FpgaGpu.fetch (resolveBranchOffsets blocks) (blockStart blocks (first + b) + k : Nat) =
        some (resolveAt (blockToPC blocks) (blockStart blocks (first + b) + k)
          (e.mi.mapRegs narrow)) ∧
      blockStart blocks (first + b) + k < 2 ^ 18 := by
  have here : (layout blocks)[blockStart blocks (first + b) + k]? = some (e.mi.mapRegs narrow) :=
    getElem?_layout (h.stands b sb hb) (by simp [SelectedBlock.code, he])
  refine ⟨?_, Nat.lt_trans (List.getElem?_eq_some_iff.mp here).1 h.short⟩
  rw [fetch_natCast, resolveBranchOffsets, List.getElem?_mapIdx, here]
  rfl

/-- A thread runs through the start of a block. -/
lemma Embedded.runs (h : Embedded f code blocks first) (hb : code[b]? = some sb)
    {front rest : List Emitted} (split : sb.items = front ++ rest)
    (plain : ∀ mi ∈ instructionsOf front, mi.Plain) (small : ∀ mi ∈ instructionsOf front, mi.Small)
    (narrowed : Narrowed s t) (at_pc : t.pc = some (blockStart blocks (first + b) : Int)) :
    ∃ t', Machine.after (threadStep (FpgaGpu.fetch (resolveBranchOffsets blocks)))
      front.length t = some t' ∧
      t'.pc = some ((blockStart blocks (first + b) + front.length : Nat) : Int) ∧
      Narrowed (executeAll s (instructionsOf front)) t' := by
  let moved := (instructionsOf front).map (Instruction.mapRegs narrow)
  have part : ∀ (i : Nat) mi, moved[i]? = some mi →
      ∃ mi', FpgaGpu.fetch (resolveBranchOffsets blocks)
        ((blockStart blocks (first + b) : Int) + i) = some mi' ∧
        ∀ (s : Thread hw RegField) pc, execute s pc mi' = execute s pc mi := by
    intro i mi e
    obtain ⟨e', he, rfl⟩ : ∃ e', front[i]? = some e' ∧ e'.mi.mapRegs narrow = mi := by
      simpa [moved] using e
    have item : sb.items[i]? = some e' := by
      rw [split, List.getElem?_append_left (List.getElem?_eq_some_iff.mp he).1, he]
    refine ⟨_, by simpa using (h.fetch hb item).1, fun s pc => execute_resolveAt ?_ ..⟩
    exact (plain _ (List.mem_map_of_mem (List.mem_of_getElem? he))).1
  have plain' : ∀ mi ∈ moved, mi.Plain := by
    intro mi' mem
    obtain ⟨mi, hmi, rfl⟩ := List.mem_map.mp mem
    exact plain mi hmi
  have length : moved.length = front.length := by simp [moved]
  obtain ⟨run, pc⟩ := after_executeAll_of_acts at_pc part plain'
  rw [length] at run pc
  exact ⟨_, run, by rw [pc, Nat.cast_add], narrowed.executeAll small⟩

/-- A branch of a function, once its label is resolved. -/
lemma Embedded.resolved (h : Embedded f code blocks first) {d : Nat} (lt : d < f.blocks.length)
    (cond : BitVec 8) (comment : String) {pc : Nat} (near : pc < 2 ^ 18) :
    ∃ offset : BitVec 32,
      resolveAt (blockToPC blocks) pc ((branchTo f cond d comment).mi.mapRegs narrow) =
        { (branchTo f cond d comment).mi.mapRegs narrow with imm := offset } ∧
      (pc : Int) + offset.toInt = (blockStart blocks (first + d) : Int) := by
  let mi : MachineInstruction := (branchTo f cond d comment).mi.mapRegs narrow
  have target : mi.hasTarget = true := by
    have named : mi.labelTarget ≠ [] := blockNames_ne_nil f d
    have op : mi.op = .br := rfl
    simp [Instruction.hasTarget, op, named]
  have label : blockToPC blocks mi.labelTarget = some (blockStart blocks (first + d)) :=
    blockToPC_eq_some.mpr ⟨_, h.labels d lt, rfl⟩
  have here := blockStart_le blocks (first + d)
  have short := h.short
  refine ⟨pcOffset (blockStart blocks (first + d)) pc, ?_, ?_⟩
  · rw [resolveAt, if_pos target, label]
  · exact add_toInt_pcOffset (by omega) (by omega)

/-- A branch of a function leads to the start of its block. -/
lemma Embedded.branch (h : Embedded f code blocks first) (hb : code[b]? = some sb) {k d : Nat}
    {cond : BitVec 8} {comment : String} (he : sb.items[k]? = some (branchTo f cond d comment))
    (lt : d < f.blocks.length)
    (at_pc : t.pc = some ((blockStart blocks (first + b) + k : Nat) : Int)) :
    ∃ event t', threadStep (FpgaGpu.fetch (resolveBranchOffsets blocks)) t = some (event, t') ∧
      t'.regs = t.regs ∧ t'.mem = t.mem ∧
      t'.pc = some (if takes cond t.flags then (blockStart blocks (first + d) : Int)
        else ((blockStart blocks (first + b) + (k + 1) : Nat) : Int)) := by
  obtain ⟨fetched, near⟩ := h.fetch hb he
  obtain ⟨offset, resolved, target⟩ := h.resolved lt cond comment near
  rw [resolved] at fetched
  have branch : ({ (branchTo f cond d comment).mi.mapRegs narrow with imm := offset } :
    MachineInstruction).op =
      .br := rfl
  obtain ⟨regs, mem, pc⟩ :=
    execute_branch branch t ((blockStart blocks (first + b) + k : Nat) : Int)
  refine ⟨_, _, threadStep_eq at_pc fetched, regs, mem, pc.trans ?_⟩
  rw [target]
  rfl

/-- The end of a block leads to the block that its terminator says, or stops the thread. -/
lemma Embedded.leaves (h : Embedded f code blocks first) (hb : code[b]? = some sb)
    {front : List Emitted} {term : Terminator} (flow : FlowTerminator f term)
    (closed : ∀ d ∈ term.successors, d < f.blocks.length)
    (split : sb.items = front ++ terminatorTail f term)
    (at_pc : t.pc = some ((blockStart blocks (first + b) + front.length : Nat) : Int)) :
    ∃ n t', Machine.after (threadStep (FpgaGpu.fetch (resolveBranchOffsets blocks)))
      (n + 1) t = some t' ∧
      t'.regs = t.regs ∧ t'.mem = t.mem ∧
      t'.pc = (term.target f t.flags).map fun d => (blockStart blocks (first + d) : Int) := by
  have tail : ∀ k, sb.items[front.length + k]? = (terminatorTail f term)[k]? := by
    intro k
    rw [split, List.getElem?_append_right (Nat.le_add_right ..), Nat.add_sub_cancel_left]
  cases term with
  | br dest =>
    obtain ⟨event, t', step, regs, mem, pc⟩ :=
      h.branch hb (tail 0) (closed dest (by simp [Terminator.successors])) at_pc
    rw [takes_always, if_pos rfl] at pc
    exact ⟨0, t', Machine.after_succ step 0, regs, mem, pc⟩
  | condBr cond ifTrue ifFalse =>
    obtain ⟨event, t₁, step, regs, mem, pc⟩ :=
      h.branch hb (tail 0) (closed ifTrue (by simp [Terminator.successors])) at_pc
    cases taken : takes (conditionCode f cond) t.flags with
    | true =>
      refine ⟨0, t₁, Machine.after_succ step 0, regs, mem, ?_⟩
      rw [pc, taken]
      simp [Terminator.target, taken]
    | false =>
      rw [taken] at pc
      obtain ⟨event', t', step', regs', mem', pc'⟩ :=
        h.branch hb (tail 1) (closed ifFalse (by simp [Terminator.successors])) pc
      rw [takes_always, if_pos rfl] at pc'
      refine ⟨1, t', (Machine.after_succ step 1).trans (Machine.after_succ step' 0),
        regs'.trans regs, mem'.trans mem, ?_⟩
      rw [pc']
      simp [Terminator.target, taken]
  | ret value =>
    obtain ⟨fetched, -⟩ := h.fetch hb (tail 0)
    refine ⟨0, _, Machine.after_succ (threadStep_eq at_pc fetched) 0, ?_⟩
    rw [execute_resolveAt (show Opcode.exit ≠ .br by decide)]
    exact ⟨rfl, rfl, rfl⟩
  | switch | unreachable | other => cases flow

/-! ## Where control goes -/

/-- The code of a terminator that is lowered ends where control does not go on. -/
lemma CodeShape.last (names : List Text) {after : Selector} {term : Terminator}
    {items : List Emitted} (shape : CodeShape f after (.term term) items)
    (lowered : isLowered term = true) :
    ∃ front e, items = front ++ [e] ∧ ¬ (codeFlow names).continues e := by
  cases term with
  | br dest => exact ⟨[], _, shape, not_continues_always⟩
  | condBr c s s' =>
    obtain ⟨cmp, cond, rfl, -, -⟩ := shape
    exact ⟨_, _, List.append_cons .., not_continues_always⟩
  | ret value =>
    obtain ⟨e, rfl, -, exit⟩ := shape
    exact ⟨[], e, rfl, not_continues_of_exit exit⟩
  | switch | unreachable | other => cases lowered

variable {dl : DataLayout} {st : Selector} {pieces : List (List Piece)}

/-- Control does not go on behind a block. -/
lemma Selected.last_stops (selected : Selected dl f code st pieces)
    (lowered : ∀ bb ∈ f.blocks, isLowered bb.terminator = true) (hb : code[b]? = some sb)
    {before : List Emitted} {e : Emitted} (split : sb.items = before ++ [e]) :
    ¬ (codeFlow (code.map SelectedBlock.name)).continues e := by
  obtain ⟨ps, hps, items⟩ := selected.code_block hb
  obtain ⟨bb, front, p, block, rfl, item, -⟩ := selected.last hps
  obtain ⟨spec, -⟩ := selected.spec _ (List.mem_of_getElem? hps) p (by simp)
  have shape := spec.shape
  rw [item] at shape
  obtain ⟨front', e', last, stops⟩ := shape.last (code.map SelectedBlock.name)
    (lowered bb (List.mem_of_getElem? block))
  rw [items, List.flatMap_append, List.flatMap_singleton, last, ← List.append_assoc] at split
  obtain ⟨-, rfl⟩ := List.append_singleton_inj.mp split
  exact stops

/-- Where an instruction of a function goes: to the next one, or to the start of a successor. -/
theorem Embedded.next (h : Embedded f code blocks first) (selected : Selected dl f code st pieces)
    (closed : f.Closed) (lowered : ∀ bb ∈ f.blocks, isLowered bb.terminator = true)
    (hb : code[b]? = some sb) {before rest : List Emitted} {e : Emitted}
    (split : sb.items = before ++ e :: rest) {flags : Word} {pc' : Int}
    (goes : nextPc (resolveAt (blockToPC blocks) (blockStart blocks (first + b) + before.length)
      (e.mi.mapRegs narrow))
        ((blockStart blocks (first + b) + before.length : Nat) : Int) flags = some pc') :
    ((codeFlow (code.map SelectedBlock.name)).continues e ∧ rest ≠ [] ∧
        pc' = ((blockStart blocks (first + b) + (before.length + 1) : Nat) : Int)) ∨
      ∃ d sb', (codeFlow (code.map SelectedBlock.name)).jumps e d ∧ d ∈ f.successors b ∧
        code[d]? = some sb' ∧ pc' = (blockStart blocks (first + d) : Int) := by
  have more : (codeFlow (code.map SelectedBlock.name)).continues e → rest ≠ [] := by
    rintro continues rfl
    exact selected.last_stops lowered hb split continues
  have at_e : sb.items[before.length]? = some e := by simp [split]
  by_cases branch : e.mi.op = .br
  · obtain ⟨ps, hps, items⟩ := selected.code_block hb
    have mem : e ∈ ps.flatMap Piece.code := items ▸ List.mem_of_getElem? at_e
    obtain ⟨p, hp, he⟩ := List.mem_flatMap.mp mem
    obtain ⟨spec, -⟩ := selected.spec _ (List.mem_of_getElem? hps) p hp
    obtain ⟨term, cond, d, comment, item, succ, rfl⟩ := spec.shape.branch he branch
    obtain ⟨bb, block, rfl⟩ := selected.terminator hps hp item
    have lt := closed bb (List.mem_of_getElem? block) d succ
    obtain ⟨offset, resolved, target⟩ := h.resolved lt cond comment (h.fetch hb at_e).2
    rw [resolved] at goes
    obtain rfl := Option.some.inj goes
    by_cases taken : takes cond flags = true
    · have at_d : d < code.length := by
        have length := congrArg List.length selected.names
        simp only [List.length_map, List.length_mapIdx] at length
        exact length ▸ lt
      refine .inr ⟨d, code[d], ⟨rfl, ⟨flags, taken⟩, ?_⟩,
        Llvm.Function.successors_of_getElem? block ▸ succ, List.getElem?_eq_getElem at_d, ?_⟩
      · rw [selected.names, List.getElem?_mapIdx, List.getElem?_eq_getElem lt]
        rfl
      · exact (if_pos taken).trans target
    · have continues : (codeFlow (code.map SelectedBlock.name)).continues
          (branchTo f cond d comment) :=
        ⟨flags, Bool.eq_false_iff.mpr taken⟩
      exact .inl ⟨continues, more continues, if_neg taken⟩
  · have op := resolveAt_op (blockToPC blocks) (blockStart blocks (first + b) + before.length)
      (e.mi.mapRegs narrow)
    have exit : e.mi.op ≠ .exit := by
      intro exit
      rw [nextPc, op, mapRegs_op, exit] at goes
      cases goes
    have plain : (resolveAt (blockToPC blocks) (blockStart blocks (first + b) + before.length)
        (e.mi.mapRegs narrow)).Plain := ⟨op ▸ branch, op ▸ exit⟩
    rw [plain.nextPc] at goes
    have continues : (codeFlow (code.map SelectedBlock.name)).continues e :=
      continues_of_plain branch exit
    exact .inl ⟨continues, more continues, (Option.some.inj goes).symm⟩

end Embedding

/-! ## A kernel with a loop -/

/-- The code of a function alone. -/
lemma embedded_single {dl : DataLayout} {f : Llvm.Function} {code : List SelectedBlock}
    {st : Selector} (select : selectFunction dl f = some (code, st)) (distinct : NamesDistinct f)
    (short : (layout (code.map SelectedBlock.code)).length < 2 ^ 18) :
    Embedded f code (code.map SelectedBlock.code) 0 where
  stands b sb hb := by simp [hb]
  labels d lt := by
    obtain ⟨pieces, seen, chain, selected⟩ := selectFunction_pieces select
    have name : ∀ {k : Nat} {bb : BasicBlockCode}, (code.map SelectedBlock.code)[k]? = some bb →
        (f.blocks.mapIdx fun b _ => blockNames f b)[k]? = some bb.name := by
      intro k bb h
      rw [List.getElem?_map, Option.map_eq_some_iff] at h
      obtain ⟨sb, h, rfl⟩ := h
      rw [← selected.names, List.getElem?_map, h]
      rfl
    obtain ⟨sb, hd⟩ := selected.exists_code (List.getElem?_eq_getElem lt)
    have here : (f.blocks.mapIdx fun b _ => blockNames f b)[d]? = some (blockNames f d) := by
      simp [List.getElem?_eq_getElem lt]
    rw [Nat.zero_add]
    have at_d : (code.map SelectedBlock.code)[d]? = some sb.code := by simp [hd]
    refine ⟨⟨sb.code, at_d, Option.some.inj ((name at_d).symm.trans here)⟩,
      fun k bb later hk same => ?_⟩
    have there := name hk
    rw [same, ← here] at there
    have inside := (List.getElem?_eq_some_iff.mp here).1
    exact absurd ((List.getElem?_inj inside distinct).mp there.symm) (Nat.ne_of_lt later)
  short := short

/-- Counts the word that an argument points to down to 0, and leaves 7 there. -/
def countdown : Llvm.Function where
  args := [{ name := "p".toList, ty := .ptr }]
  blocks := [
    { name := "entry".toList, body := [], terminator := .br 1 },
    { name := "loop".toList
      body :=
        [⟨0, .load (.int 32) (.argument 0)⟩,
         ⟨1, .binary .add (.instruction 0) (.constantInt 32 (-1))⟩,
         ⟨2, .store (.int 32) (.instruction 1) (.argument 0)⟩,
         ⟨3, .icmp .sgt (.instruction 1) (.constantInt 32 0)⟩]
      terminator := .condBr (.instruction 3) 1 2 },
    { name := "exit".toList
      body := [⟨4, .store (.int 32) (.constantInt 32 7) (.argument 0)⟩]
      terminator := .ret none }]

/-- The selected code, with the state after the selection. -/
def countdownCode : List SelectedBlock × Selector :=
  (selectFunction linear countdown).getD ([], Selector.start)

lemma countdown_select : selectFunction linear countdown = some countdownCode := rfl

lemma countdown_flowKernel : FlowKernel linear countdown where
  ssa := .of_checks (by decide) (by decide) (by decide) (by decide) (by decide)
  entry := by decide
  instructions i mem := by
    have argument : IsOperand countdown.args.length (wordIds countdown) (.argument 0) := Nat.one_pos
    have result : ∀ id ∈ wordIds countdown, IsOperand countdown.args.length (wordIds countdown)
        (.instruction id) := fun _ mem => mem
    have small : ∀ bits ∈ [(-1 : BitVec 32), 0, 7], IsWord countdown.args.length (wordIds countdown)
        (.constantInt 32 bits) := by
      have range : ∀ bits ∈ [(-1 : BitVec 32), 0, 7], -8192 ≤ bits.toInt ∧ bits.toInt ≤ 8191 := by
        simp
      exact fun bits mem => .inr ⟨⟨_, rfl⟩, range bits mem⟩
    simp only [countdown, bodyOf, List.flatMap_cons, List.flatMap_nil,
      List.nil_append, List.append_nil, List.cons_append, List.mem_cons,
      List.not_mem_nil, or_false] at mem
    obtain rfl | rfl | rfl | rfl | rfl := mem
    · exact .kernel (.load argument)
    · exact .kernel (.arithmetic (.inl rfl) (.inl (result 0 (by decide)))
        (small _ (by simp)) (by decide))
    · exact .kernel (.store (.inl (result 1 (by decide))) argument)
    · exact .compare rfl (.inl (result 1 (by decide))) (small _ (by simp)) (by decide)
    · exact .kernel (.store (small _ (by simp)) argument)
  terminators bb mem := by
    simp only [countdown, List.mem_cons, List.not_mem_nil, or_false] at mem
    obtain rfl | rfl | rfl := mem
    · trivial
    · exact ⟨_, _, _, rfl⟩
    · trivial
  loads := .of_checks (by decide)

lemma countdown_embedded :
    Embedded countdown countdownCode.1 (countdownCode.1.map SelectedBlock.code) 0 :=
  embedded_single countdown_select (by decide) (by decide)

end FpgaGpu

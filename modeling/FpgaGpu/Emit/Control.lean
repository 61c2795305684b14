import FpgaGpu.Emit.Emitter
import FpgaGpu.Isa.Semantics

/-!
# Control flow of the emitted words

Running the emitted words visits the instructions that running the labelled blocks visits. The words
run on a program counter and take a branch by adding its immediate; the blocks run on a place, a
block and an offset into it, and take a branch by going to the block it names. The `k`-th branch
that is executed is taken when `taken k` is.
-/

namespace FpgaGpu

open Machine

/-! ## The words -/

/-- Where the words run; `none` after `EXIT`. -/
structure WordState where
  pc : Option Int
  branches : Nat
  deriving DecidableEq, Repr

/-- An executed word, with the place that an `SSY` denotes. -/
structure WordVisit where
  pc : Int
  word : Word
  reconvergence : Option Int
  deriving DecidableEq, Repr

/-- Executes the next word. -/
def wordStep (words : List Word) (taken : Nat → Bool) (s : WordState) :
    Option (WordVisit × WordState) := do
  let pc ← s.pc
  let word ← fetch words pc
  let mi ← decode word
  let target := pc + mi.imm.toInt
  let visit : WordVisit :=
    { pc := pc, word := word, reconvergence := if mi.op = .ssy then some target else none }
  match mi.op with
  | .br =>
    let next := if taken s.branches then target else pc + 1
    return (visit, { pc := some next, branches := s.branches + 1 })
  | .exit => return (visit, { s with pc := none })
  | _ => return (visit, { s with pc := some (pc + 1) })

/-! ## The blocks -/

/-- The instruction `offset` of the block `block`. -/
structure Place where
  block : Nat
  offset : Nat
  deriving DecidableEq, Repr

/-- The first instruction of `blocks`, the first of which is the block `i`; the end of the code
where there is none. -/
def settleFrom : List BasicBlockCode → Nat → Place
  | [], i => { block := i, offset := 0 }
  | bb :: blocks, i =>
    if bb.instructions = [] then settleFrom blocks (i + 1) else { block := i, offset := 0 }

/-- The start of a block: its first instruction, or that of the next non-empty block. -/
def settle (blocks : List BasicBlockCode) (i : Nat) : Place := settleFrom (blocks.drop i) i

/-- The instruction at a place. -/
def instructionAt (blocks : List BasicBlockCode) (p : Place) : Option MachineInstruction := do
  let bb ← blocks[p.block]?
  bb.instructions[p.offset]?

/-- The place after an instruction. -/
def advance (blocks : List BasicBlockCode) (p : Place) : Place :=
  match instructionAt blocks { p with offset := p.offset + 1 } with
  | some _ => { p with offset := p.offset + 1 }
  | none => settle blocks (p.block + 1)

/-- The start of the block of a name. -/
def startOf (blocks : List BasicBlockCode) (name : Text) : Option Place :=
  (blocks.findIdx? (·.name = name)).map (settle blocks)

/-- Where the blocks run; `none` after `EXIT`, and after a branch to a name that no block has. -/
structure BlockState where
  place : Option Place
  branches : Nat
  deriving DecidableEq, Repr

/-- An executed instruction, with the place that an `SSY` denotes. -/
structure BlockVisit where
  place : Place
  instruction : MachineInstruction
  reconvergence : Option Place
  deriving DecidableEq, Repr

/-- Executes the next instruction of the blocks. -/
def blockStep (blocks : List BasicBlockCode) (taken : Nat → Bool) (s : BlockState) :
    Option (BlockVisit × BlockState) := do
  let p ← s.place
  let mi ← instructionAt blocks p
  let target := startOf blocks mi.labelTarget
  let visit : BlockVisit :=
    { place := p, instruction := mi, reconvergence := if mi.op = .ssy then target else none }
  match mi.op with
  | .br =>
    let next := if taken s.branches then target else some (advance blocks p)
    return (visit, { place := next, branches := s.branches + 1 })
  | .exit => return (visit, { s with place := none })
  | _ => return (visit, { s with place := some (advance blocks p) })

/-! ## Places and program counters -/

/-- The program counter of a place. -/
def pcOf (blocks : List BasicBlockCode) (p : Place) : Nat :=
  (layout (blocks.take p.block)).length + p.offset

/-- A place where control can be: an instruction, or the end of the code. -/
def Proper (blocks : List BasicBlockCode) (p : Place) : Prop :=
  (instructionAt blocks p).isSome ∨ p = { block := blocks.length, offset := 0 }

/-- The instruction at a place is the one at its program counter. -/
lemma layout_pcOf {blocks : List BasicBlockCode} {p mi} (h : instructionAt blocks p = some mi) :
    (layout blocks)[pcOf blocks p]? = some mi := by
  obtain ⟨bb, hbb, hmi⟩ := Option.bind_eq_some_iff.mp h
  exact getElem?_layout hbb hmi

/-- The end of the code. -/
lemma pcOf_end (blocks : List BasicBlockCode) :
    pcOf blocks { block := blocks.length, offset := 0 } = (layout blocks).length := by
  simp [pcOf]

/-- The start of a block is proper and has the program counter of the block. -/
lemma settle_spec {blocks : List BasicBlockCode} {i : Nat} (h : i ≤ blocks.length) :
    Proper blocks (settle blocks i) ∧
      pcOf blocks (settle blocks i) = (layout (blocks.take i)).length := by
  induction e : blocks.drop i generalizing i with
  | nil =>
    have : i = blocks.length := Nat.le_antisymm h (List.drop_eq_nil_iff.mp e)
    subst this
    rw [settle, e, settleFrom]
    exact ⟨.inr rfl, by simp [pcOf]⟩
  | cons bb rest ih =>
    have lt : i < blocks.length := by
      by_contra ge
      rw [List.drop_eq_nil_of_le (by omega)] at e
      cases e
    have hbb : blocks[i]? = some bb := by
      rw [← List.head?_drop, e, List.head?_cons]
    have tail : blocks.drop (i + 1) = rest := by
      rw [← List.tail_drop, e, List.tail_cons]
    rw [settle, e, settleFrom]
    split
    · next empty =>
      obtain ⟨proper, pc⟩ := ih lt tail
      rw [settle, tail] at proper pc
      rw [layout_take_succ hbb, empty, List.append_nil] at pc
      exact ⟨proper, pc⟩
    · next ne =>
      obtain ⟨mi, more, e⟩ := List.exists_cons_of_ne_nil ne
      refine ⟨.inl ?_, by simp [pcOf]⟩
      simp [instructionAt, hbb, e]

/-- The place after an instruction is proper and has the next program counter. -/
lemma advance_spec {blocks : List BasicBlockCode} {p mi} (h : instructionAt blocks p = some mi) :
    Proper blocks (advance blocks p) ∧ pcOf blocks (advance blocks p) = pcOf blocks p + 1 := by
  obtain ⟨bb, hbb, hmi⟩ := Option.bind_eq_some_iff.mp h
  obtain ⟨inside, -⟩ := List.getElem?_eq_some_iff.mp hmi
  unfold advance
  split
  · next e =>
    exact ⟨.inl (by rw [e]; rfl), by simp only [pcOf]; omega⟩
  · next e =>
    have last : bb.instructions.length = p.offset + 1 := by
      have : bb.instructions[p.offset + 1]? = none := by simpa [instructionAt, hbb] using e
      have := List.getElem?_eq_none_iff.mp this
      omega
    have lt : p.block < blocks.length := (List.getElem?_eq_some_iff.mp hbb).1
    obtain ⟨proper, pc⟩ := settle_spec (show p.block + 1 ≤ blocks.length from lt)
    refine ⟨proper, ?_⟩
    rw [pc, layout_take_succ hbb, List.length_append, last, pcOf]
    omega

/-- With distinct names, the start of a named block is proper, and its program counter is
recorded. -/
lemma startOf_spec {blocks : List BasicBlockCode} (distinct : (blocks.map BlockCode.name).Nodup)
    {name : Text} (h : ∃ bb ∈ blocks, bb.name = name) :
    ∃ p, startOf blocks name = some p ∧ Proper blocks p ∧
      blockToPC blocks name = some (pcOf blocks p) ∧ pcOf blocks p ≤ (layout blocks).length := by
  obtain ⟨before, bb, after, rfl, rfl, last⟩ := exists_last_block h
  have first : ∀ bb' ∈ before, bb'.name ≠ bb.name := by
    intro bb' hbb' e
    rw [List.map_append, List.map_cons, List.nodup_append] at distinct
    exact distinct.2.2 _ (List.mem_map_of_mem hbb') _ (List.mem_cons_self) e
  have index : (before ++ bb :: after).findIdx? (·.name = bb.name) = some before.length := by
    rw [List.findIdx?_append, List.findIdx?_eq_none_iff.mpr (by simpa using first)]
    simp [List.findIdx?_cons]
  have le : before.length ≤ (before ++ bb :: after).length := by simp
  obtain ⟨proper, pc⟩ := settle_spec le
  refine ⟨_, by rw [startOf, index]; rfl, proper, ?_, ?_⟩
  · rw [blockToPC_last last, pc, List.take_left]
  · rw [pc, List.take_left]
    simp

/-! ## The two runs -/

/-- Blocks whose branches all name a block and reach it. -/
structure Labelled (blocks : List BasicBlockCode) : Prop where
  distinct : (blocks.map BlockCode.name).Nodup
  named : ∀ bb ∈ blocks, bb.name ≠ []
  short : (layout blocks).length < 2 ^ 18
  target : ∀ mi ∈ layout blocks, mi.op.usesImm19 → ∃ bb ∈ blocks, bb.name = mi.labelTarget

/-- A word visit shows the instruction of a block visit: at its program counter, with its word up to
the resolved offset, and denoting the same place. -/
structure SameVisit (blocks : List BasicBlockCode) (v : WordVisit) (b : BlockVisit) : Prop where
  pc : v.pc = pcOf blocks b.place
  instruction : instructionAt blocks b.place = some b.instruction
  word : ∃ imm, v.word = encode { b.instruction with imm := imm } ∧
    (b.instruction.op.usesImm19 = false → imm = b.instruction.imm)
  reconvergence : v.reconvergence = b.reconvergence.map fun p => (pcOf blocks p : Int)

/-- The two machines are at the same place. -/
structure SamePlace (blocks : List BasicBlockCode) (s : WordState) (t : BlockState) : Prop where
  place : Option.Rel (fun pc p => pc = (pcOf blocks p : Int) ∧ Proper blocks p) s.pc t.place
  branches : s.branches = t.branches

/-- The opcode and the offset of an encoded instruction. -/
lemma decode_encode_op (mi : MachineInstruction) : ∃ mi', decode (encode mi) = some mi' ∧
    mi'.op = mi.op ∧ (mi.op.usesImm19 → mi'.imm = imm19Field (encode mi)) := by
  simp only [decode, opField_encode, Opcode.ofVal?_val, Option.map_some, Option.some.injEq,
    exists_eq_left', true_and]
  intro h
  have no : mi.op.usesImm14 = false := by
    cases e : mi.op <;> simp [e, Opcode.usesImm19] at h <;> rfl
  simp [no, h]

/-- The word at the program counter of an instruction. -/
lemma fetch_pcOf {blocks : List BasicBlockCode} {p mi} (h : instructionAt blocks p = some mi) :
    fetch (emitWords blocks) (pcOf blocks p) =
      some (encode (resolveAt (blockToPC blocks) (pcOf blocks p) mi)) := by
  simp [fetch, emitWords, resolveBranchOffsets, layout_pcOf h]

/-- There is no word at the end of the code. -/
lemma fetch_end (blocks : List BasicBlockCode) :
    fetch (emitWords blocks) (pcOf blocks { block := blocks.length, offset := 0 }) = none := by
  simp [fetch, emitWords, pcOf_end]

/-- A branch or `SSY` with a label decodes to the distance to the start of the named block. -/
lemma decode_target {blocks : List BasicBlockCode} (h : Labelled blocks) {p mi}
    (hmi : instructionAt blocks p = some mi) (use : mi.op.usesImm19) :
    ∃ q, startOf blocks mi.labelTarget = some q ∧ Proper blocks q ∧ ∃ mi',
      decode (encode (resolveAt (blockToPC blocks) (pcOf blocks p) mi)) = some mi' ∧
      mi'.op = mi.op ∧ (pcOf blocks p : Int) + mi'.imm.toInt = pcOf blocks q := by
  have here : pcOf blocks p < (layout blocks).length :=
    (List.getElem?_eq_some_iff.mp (layout_pcOf hmi)).1
  have mem : mi ∈ layout blocks := List.mem_of_getElem? (layout_pcOf hmi)
  obtain ⟨bb, hbb, name⟩ := h.target mi mem use
  obtain ⟨q, start, proper, recorded, le⟩ := startOf_spec h.distinct ⟨bb, hbb, name⟩
  have ne : mi.labelTarget ≠ [] := name ▸ h.named bb hbb
  have hasTarget : mi.hasTarget = true := by
    cases e : mi.op <;> simp [e, Opcode.usesImm19] at use <;> simp [Instruction.hasTarget, e, ne]
  have short := h.short
  have resolved : resolveAt (blockToPC blocks) (pcOf blocks p) mi =
      { mi with imm := pcOffset (pcOf blocks q) (pcOf blocks p) } := by
    simp [resolveAt, hasTarget, recorded]
  obtain ⟨mi', dec, op, imm⟩ := decode_encode_op (resolveAt (blockToPC blocks) (pcOf blocks p) mi)
  refine ⟨q, start, proper, mi', dec, by rw [op, resolveAt_op], ?_⟩
  let branch : MachineInstruction := { mi with imm := pcOffset (pcOf blocks q) (pcOf blocks p) }
  have distance : (imm19Field (encode branch)).toInt = (pcOf blocks q : Int) - pcOf blocks p :=
    toInt_imm19Field_near (show branch.op.usesImm19 from use) rfl (by omega) (by omega)
  rw [imm (by rw [resolveAt_op]; exact use), resolved, distance]
  omega

/-- The resolved word is that of the instruction, up to the offset of a branch. -/
lemma word_resolveAt (m : Text → Option Nat) (pc : Nat) (mi : MachineInstruction) :
    ∃ imm, encode (resolveAt m pc mi) = encode { mi with imm := imm } ∧
      (mi.op.usesImm19 = false → imm = mi.imm) := by
  unfold resolveAt
  split
  · next target =>
    have use : mi.op.usesImm19 = true := by
      cases e : mi.op <;> simp [Instruction.hasTarget, e] at target <;> rfl
    split
    · exact ⟨_, rfl, by simp [use]⟩
    · exact ⟨mi.imm, rfl, fun _ => rfl⟩
  · exact ⟨mi.imm, rfl, fun _ => rfl⟩

/-- One step of both machines. -/
lemma lockstep_wordStep {blocks : List BasicBlockCode} (h : Labelled blocks) (taken : Nat → Bool)
    {s t} (same : SamePlace blocks s t) :
    Lockstep (SameVisit blocks) (SamePlace blocks) (wordStep (emitWords blocks) taken)
      (blockStep blocks taken) s t := by
  obtain ⟨spc, sb⟩ := s
  obtain ⟨tp, tb⟩ := t
  obtain ⟨place, branches⟩ := same
  obtain rfl : sb = tb := branches
  cases place with
  | none => simp [Lockstep, wordStep, blockStep]
  | some place =>
    rename_i pc p
    obtain ⟨rfl, proper⟩ := place
    -- the place holds an instruction, or it is the end, where both machines stop
    obtain code | rfl := proper
    · obtain ⟨mi, hmi⟩ := Option.isSome_iff_exists.mp code
      obtain ⟨next, pcNext⟩ := advance_spec hmi
      have word := word_resolveAt (blockToPC blocks) (pcOf blocks p) mi
      have forward : SamePlace blocks ⟨.some (pcOf blocks p + 1), sb⟩
          ⟨.some (advance blocks p), sb⟩ := ⟨.some ⟨by rw [pcNext]; simp, next⟩, rfl⟩
      -- only BR and SSY have a target, which the word denotes by an offset
      cases use : mi.op.usesImm19 with
      | true =>
        obtain ⟨q, start, proper, mi', dec, op, target⟩ := decode_target h hmi use
        cases kind : mi.op with
        | br =>
          have visit : SameVisit blocks ⟨pcOf blocks p, _, none⟩ ⟨p, mi, none⟩ :=
            ⟨rfl, hmi, word, rfl⟩
          cases outcome : taken sb with
          | true =>
            simpa [Lockstep, wordStep, blockStep, fetch_pcOf hmi, dec, hmi, op, kind, target, start,
              outcome] using ⟨visit, .some ⟨rfl, proper⟩, rfl⟩
          | false =>
            simpa [Lockstep, wordStep, blockStep, fetch_pcOf hmi, dec, hmi, op, kind, target, start,
              outcome] using ⟨visit, forward.place, rfl⟩
        | ssy =>
          have visit : SameVisit blocks ⟨pcOf blocks p, _, some (pcOf blocks q)⟩ ⟨p, mi, some q⟩ :=
            ⟨rfl, hmi, word, rfl⟩
          simpa [Lockstep, wordStep, blockStep, fetch_pcOf hmi, dec, hmi, op, kind, target, start]
            using ⟨visit, forward⟩
        | _ => simp [kind, Opcode.usesImm19] at use
      | false =>
        obtain ⟨mi', dec, op, -⟩ :=
          decode_encode_op (resolveAt (blockToPC blocks) (pcOf blocks p) mi)
        rw [resolveAt_op] at op
        have visit : SameVisit blocks ⟨pcOf blocks p, _, none⟩ ⟨p, mi, none⟩ :=
          ⟨rfl, hmi, word, rfl⟩
        cases kind : mi.op with
        | br => simp [kind, Opcode.usesImm19] at use
        | ssy => simp [kind, Opcode.usesImm19] at use
        | exit =>
          simpa [Lockstep, wordStep, blockStep, fetch_pcOf hmi, dec, hmi, op, kind]
            using ⟨visit, .none, rfl⟩
        | _ =>
          simpa [Lockstep, wordStep, blockStep, fetch_pcOf hmi, dec, hmi, op, kind]
            using ⟨visit, forward⟩
    · have stop : instructionAt blocks { block := blocks.length, offset := 0 } = none := by
        simp [instructionAt]
      simp [Lockstep, wordStep, blockStep, fetch_end, stop]

/-- Running the emitted words from 0 visits the instructions, and denotes the reconvergence places,
that running the labelled blocks from their first instruction does. -/
theorem run_emitHex {blocks : List BasicBlockCode} (h : Labelled blocks) (taken : Nat → Bool)
    (n : Nat) :
    emitHex blocks = writeHex (emitWords blocks) ∧
      List.Forall₂ (SameVisit blocks)
        (trace (wordStep (emitWords blocks) taken) n { pc := some 0, branches := 0 })
        (trace (blockStep blocks taken) n { place := some (settle blocks 0), branches := 0 }) := by
  refine ⟨rfl, ?_⟩
  obtain ⟨proper, pc⟩ := settle_spec (Nat.zero_le blocks.length)
  have start : SamePlace blocks { pc := some 0, branches := 0 }
      { place := some (settle blocks 0), branches := 0 } :=
    ⟨.some ⟨by simp [pc], proper⟩, rfl⟩
  exact trace_related (fun _ same => lockstep_wordStep h taken same)
    (Along.of_invariant (P := fun _ => True) (fun _ _ => trivial) trivial) start

/-- A loop over an empty block, with a reconvergence place at the end of the code. -/
def countedBlocks : List BasicBlockCode :=
  [{ name := "entry".toList
     instructions := [{ MachineInstruction.ofOp .ssy with labelTarget := "end".toList }] },
   { name := "head".toList, instructions := [] },
   { name := "body".toList
     instructions :=
       [MachineInstruction.ofOp .add,
        { MachineInstruction.ofOp .br with labelTarget := "head".toList },
        { MachineInstruction.ofOp .br with labelTarget := "body".toList },
        { MachineInstruction.ofOp .br with labelTarget := "end".toList }] },
   { name := "end".toList, instructions := [] }]

/-- The words of the loop run as its blocks do. -/
theorem run_emitHex_counted :
    emitHex countedBlocks = writeHex (emitWords countedBlocks) ∧
      List.Forall₂ (SameVisit countedBlocks)
        (trace (wordStep (emitWords countedBlocks) (· = 0)) 9 { pc := some 0, branches := 0 })
        (trace (blockStep countedBlocks (· = 0)) 9
          { place := some (settle countedBlocks 0), branches := 0 }) :=
  run_emitHex ⟨by decide, by decide, by decide, by decide⟩ _ _

end FpgaGpu

import FpgaGpu.Emit.Labels
import FpgaGpu.Isel.Paths

/-!
# Where a block passes control on

The code of a block whose terminator is `br` or `ret` ends in an unconditional branch or in `EXIT`,
and its branches go to the successors as far as their labels denote them. A `switch` is not lowered,
and the code runs on into the next block.
-/

namespace FpgaGpu

open Llvm (Terminator)

/-- The terminators `br`, `switch` and `ret`. -/
def isBrSwitchRet : Terminator → Bool
  | .br _ | .condBr .. | .switch .. | .ret _ => true
  | .unreachable | .other .. => false

/-- A `switch`. -/
def isSwitch : Terminator → Bool
  | .switch .. => true
  | _ => false

/-- An unconditional branch or `EXIT`. -/
def Instruction.Leaves {Reg : Type} (mi : Instruction Reg) : Prop :=
  (mi.op = .br ∧ mi.cond = BranchCond.ALWAYS) ∨ mi.op = .exit

/-- A branch that can be taken, and whose label is resolved to the block `d`. -/
def Transfers (blocks : List BasicBlockCode) (mi : MachineInstruction) (d : Nat) : Prop :=
  mi.op = .br ∧ (∃ flags, takes mi.cond flags = true) ∧ LastNamed blocks mi.labelTarget d

/-- The code of every block ends in an instruction that leaves it, and its branches go to exactly
the successors of its terminator. -/
def NoFallThrough (f : Llvm.Function) (blocks : List BasicBlockCode) : Prop :=
  ∀ (b : Nat) bb code, f.blocks[b]? = some bb → blocks[b]? = some code →
    (∃ before last, code.instructions = before ++ [last] ∧ last.Leaves) ∧
      ∀ d, (∃ mi ∈ code.instructions, Transfers blocks mi d) ↔ d ∈ bb.terminator.successors

/-- No later block has the label of the block `d`. -/
def Denoted (f : Llvm.Function) (d : Nat) : Prop :=
  ∀ k, d < k → k < f.blocks.length → blockNames f k ≠ blockNames f d

section Transfers

variable {dl : DataLayout} {f : Llvm.Function} {code : List SelectedBlock} {st : Selector}
variable {pieces : List (List Piece)}

/-- The last block that has the label of a block. -/
lemma Selected.lastNamed (selected : Selected dl f code st pieces) {d e : Nat} :
    LastNamed (code.map SelectedBlock.code) (blockNames f e) d ↔
      d < f.blocks.length ∧ blockNames f d = blockNames f e ∧ Denoted f d := by
  have at_block : ∀ {k : Nat} {bb}, (code.map SelectedBlock.code)[k]? = some bb →
      k < f.blocks.length ∧ bb.name = blockNames f k := by
    intro k bb h
    obtain ⟨sb, found, rfl⟩ := Option.map_eq_some_iff.mp ((List.getElem?_map ..).symm.trans h)
    have name : (code.map SelectedBlock.name)[k]? = some sb.name := by simp [found]
    rw [selected.names, List.getElem?_mapIdx, Option.map_eq_some_iff] at name
    obtain ⟨bb, e, name⟩ := name
    exact ⟨(List.getElem?_eq_some_iff.mp e).1, name.symm⟩
  have exists_block : ∀ {k : Nat}, k < f.blocks.length →
      ∃ bb, (code.map SelectedBlock.code)[k]? = some bb := by
    intro k lt
    have length : code.length = f.blocks.length := by
      simpa using congrArg List.length selected.names
    exact ⟨_, List.getElem?_eq_getElem (by simpa [length] using lt)⟩
  constructor
  · rintro ⟨⟨bb, e, name⟩, last⟩
    obtain ⟨lt, name'⟩ := at_block e
    refine ⟨lt, name'.symm.trans name, fun k gt inside same => ?_⟩
    obtain ⟨bb', e'⟩ := exists_block inside
    exact last k bb' gt e' ((at_block e').2.trans (same.trans (name'.symm.trans name)))
  · rintro ⟨lt, name, denoted⟩
    obtain ⟨bb, e⟩ := exists_block lt
    refine ⟨⟨bb, e, (at_block e).2.trans name⟩, fun k bb' gt e' same => ?_⟩
    obtain ⟨inside, name'⟩ := at_block e'
    exact denoted k gt inside (name'.symm.trans (same.trans name.symm))

/-- The branches of a block are those of its terminator, if that is no `switch`. -/
lemma Selected.branch_iff (selected : Selected dl f code st pieces) {b : Nat} {bb : Llvm.BasicBlock}
    {sb : SelectedBlock} (block : f.blocks[b]? = some bb) (at_block : code[b]? = some sb)
    (kind : isBrSwitchRet bb.terminator = true) (label : Text) :
    (∃ mi ∈ sb.code.instructions, mi.op = .br ∧ (∃ flags, takes mi.cond flags = true) ∧
        mi.labelTarget = label) ↔
      isSwitch bb.terminator = false ∧ ∃ d ∈ bb.terminator.successors, blockNames f d = label := by
  obtain ⟨ps, hps, items⟩ := selected.code_block at_block
  obtain ⟨bb', before, p, block', rfl, item, -⟩ := selected.last hps
  obtain rfl := Option.some.inj (block.symm.trans block')
  have last : p ∈ before ++ [p] := by simp
  have shape := (selected.spec _ (List.mem_of_getElem? hps) p last).1.shape
  rw [item] at shape
  constructor
  · rintro ⟨mi, mem, branch, taken, rfl⟩
    obtain ⟨e, he, rfl⟩ := List.mem_map.mp mem
    obtain ⟨q, hq, he⟩ := List.mem_flatMap.mp (items ▸ he)
    obtain ⟨spec, -⟩ := selected.spec _ (List.mem_of_getElem? hps) q hq
    obtain ⟨t, cond, dest, comment, item', succ, rfl⟩ := spec.shape.branch he branch
    obtain ⟨bb', block', rfl⟩ := selected.terminator hps hq item'
    obtain rfl := Option.some.inj (block.symm.trans block')
    refine ⟨?_, dest, succ, rfl⟩
    have shape' := spec.shape
    rw [item'] at shape'
    cases t : bb.terminator with
    | switch =>
      rw [t] at shape'
      rw [show q.code = [] from shape'] at he
      cases he
    | br | condBr | ret | unreachable | other => rfl
  · rintro ⟨kept, d, succ, rfl⟩
    have emitted : ∀ cond comment, branchTo f cond d comment ∈ p.code →
        (∃ flags, takes cond flags = true) → ∃ mi ∈ sb.code.instructions, mi.op = .br ∧
          (∃ flags, takes mi.cond flags = true) ∧ mi.labelTarget = blockNames f d := by
      intro cond comment mem taken
      have here : branchTo f cond d comment ∈ sb.items := by
        rw [items]
        exact List.mem_flatMap.mpr ⟨p, last, mem⟩
      exact ⟨_, List.mem_map_of_mem here, rfl, taken, rfl⟩
    cases t : bb.terminator with
    | br dest =>
      rw [t] at shape succ
      obtain rfl : d = dest := by simpa [Terminator.successors] using succ
      exact emitted _ _ ((show p.code = _ from shape) ▸ List.mem_singleton.mpr rfl)
        ⟨0, takes_always 0⟩
    | condBr condVal ifTrue ifFalse =>
      rw [t] at shape succ
      obtain ⟨cmp, cond, split, ⟨taken, -⟩, -⟩ := shape
      obtain rfl | rfl : d = ifTrue ∨ d = ifFalse := by simpa [Terminator.successors] using succ
      · exact emitted cond "branch taken" (split ▸ by simp) taken
      · exact emitted _ "branch fallthrough/else" (split ▸ by simp) ⟨0, takes_always 0⟩
    | ret value =>
      rw [t] at succ
      cases succ
    | switch =>
      rw [t] at kept
      cases kept
    | unreachable | other =>
      rw [t] at kind
      cases kind

/-- The blocks that the branches of a block are resolved to. -/
lemma Selected.transfers_iff (selected : Selected dl f code st pieces) {b : Nat}
    {bb : Llvm.BasicBlock} {sb : SelectedBlock} (block : f.blocks[b]? = some bb)
    (at_block : code[b]? = some sb) (kind : isBrSwitchRet bb.terminator = true) (d : Nat) :
    (∃ mi ∈ sb.code.instructions, Transfers (code.map SelectedBlock.code) mi d) ↔
      isSwitch bb.terminator = false ∧ ∃ e ∈ bb.terminator.successors,
        d < f.blocks.length ∧ blockNames f d = blockNames f e ∧ Denoted f d := by
  have branches := selected.branch_iff block at_block kind
  constructor
  · rintro ⟨mi, mem, branch, taken, last⟩
    obtain ⟨kept, e, succ, name⟩ := (branches mi.labelTarget).mp ⟨mi, mem, branch, taken, rfl⟩
    rw [← name] at last
    exact ⟨kept, e, succ, selected.lastNamed.mp last⟩
  · rintro ⟨kept, e, succ, named⟩
    obtain ⟨mi, mem, branch, taken, label⟩ := (branches (blockNames f e)).mpr ⟨kept, e, succ, rfl⟩
    exact ⟨mi, mem, branch, taken, label ▸ selected.lastNamed.mpr named⟩

/-- The code of a terminator that is lowered ends in an instruction that leaves the block. -/
lemma CodeShape.leaves {after : Selector} {t : Terminator} {code : List Emitted}
    (shape : CodeShape f after (.term t) code) (lowered : isLowered t = true) :
    ∃ before last, code = before ++ [last] ∧ last.mi.Leaves := by
  cases t with
  | br dest => exact ⟨[], _, shape, .inl ⟨rfl, rfl⟩⟩
  | condBr condVal ifTrue ifFalse =>
    obtain ⟨cmp, cond, rfl, -, -⟩ := shape
    exact ⟨cmp ++ [branchTo f cond ifTrue "branch taken"],
      branchTo f BranchCond.ALWAYS ifFalse "branch fallthrough/else", by simp, .inl ⟨rfl, rfl⟩⟩
  | ret value =>
    obtain ⟨e, rfl, -, exit⟩ := shape
    exact ⟨[], e, rfl, .inr exit⟩
  | switch | unreachable | other => cases lowered

/-- The code of a block ends in an instruction that leaves it, if its terminator is no `switch`. -/
lemma Selected.leaves (selected : Selected dl f code st pieces) {b : Nat} {bb : Llvm.BasicBlock}
    {sb : SelectedBlock} (block : f.blocks[b]? = some bb) (at_block : code[b]? = some sb)
    (kind : isBrSwitchRet bb.terminator = true) (kept : isSwitch bb.terminator = false) :
    ∃ before last, sb.code.instructions = before ++ [last] ∧ last.Leaves := by
  obtain ⟨ps, hps, items⟩ := selected.code_block at_block
  obtain ⟨bb', before, p, block', rfl, item, -⟩ := selected.last hps
  obtain rfl := Option.some.inj (block.symm.trans block')
  obtain ⟨spec, -⟩ := selected.spec _ (List.mem_of_getElem? hps) p (by simp)
  have lowered : isLowered bb.terminator = true := by
    cases t : bb.terminator <;> simp_all [isLowered, isBrSwitchRet, isSwitch]
  obtain ⟨init, last, split, leaves⟩ := (item ▸ spec.shape).leaves lowered
  refine ⟨(before.flatMap Piece.code ++ init).map fun e => e.mi.mapRegs narrow,
    last.mi.mapRegs narrow, ?_, leaves⟩
  simp [SelectedBlock.code, items, split]

/-- The code of the blocks of a function ends them, and goes to their successors, exactly if no
block ends in a `switch` and the label of each successor is not that of a later block. -/
theorem selectInstructions_noFallThrough_iff {blocks : List BasicBlockCode}
    (h : selectInstructions dl f = some blocks) (verified : f.Verified)
    (kinds : ∀ bb ∈ f.blocks, isBrSwitchRet bb.terminator = true) :
    NoFallThrough f blocks ↔ ∀ bb ∈ f.blocks, isSwitch bb.terminator = false ∧
      ∀ d ∈ bb.terminator.successors, Denoted f d := by
  obtain ⟨⟨code, st⟩, select, e⟩ := Option.bind_eq_some_iff.mp h
  obtain rfl := Option.some.inj e
  obtain ⟨pieces, selected⟩ := selectFunction_selected select
  have transfers : ∀ {b : Nat} {bb sb}, f.blocks[b]? = some bb → code[b]? = some sb → ∀ d, _ :=
    fun block at_block =>
      selected.transfers_iff block at_block (kinds _ (List.mem_of_getElem? block))
  constructor
  · intro holds bb mem
    obtain ⟨b, lt, rfl⟩ := List.mem_iff_getElem.mp mem
    have block := List.getElem?_eq_getElem lt
    obtain ⟨sb, at_block⟩ := selected.exists_code block
    obtain ⟨-, exact_⟩ := holds b _ sb.code block (by simp [at_block])
    have reached : ∀ d ∈ f.blocks[b].terminator.successors,
      isSwitch f.blocks[b].terminator = false ∧
        Denoted f d := by
      intro d succ
      obtain ⟨kept, -, -, -, -, denoted⟩ := (transfers block at_block d).mp ((exact_ d).mpr succ)
      exact ⟨kept, denoted⟩
    refine ⟨?_, fun d succ => (reached d succ).2⟩
    cases t : f.blocks[b].terminator with
    | switch cond default cases =>
      rw [t] at reached
      exact (reached default List.mem_cons_self).1
    | br | condBr | ret | unreachable | other => rfl
  · intro good b bb bc block at_block
    obtain ⟨sb, at_code, rfl⟩ :=
      Option.map_eq_some_iff.mp ((List.getElem?_map ..).symm.trans at_block)
    obtain ⟨kept, denoted⟩ := good bb (List.mem_of_getElem? block)
    refine ⟨selected.leaves block at_code (kinds bb (List.mem_of_getElem? block)) kept,
      fun d => (transfers block at_code d).trans ⟨?_, fun succ => ?_⟩⟩
    · -- two blocks of one label that are both the last ones are one block
      rintro ⟨-, e, succ, lt, name, denoted'⟩
      have inside := verified.closed bb (List.mem_of_getElem? block) e succ
      obtain before | rfl | behind := Nat.lt_trichotomy d e
      · exact absurd name.symm (denoted' e before inside)
      · exact succ
      · exact absurd name (denoted e succ d behind lt)
    · exact ⟨kept, d, succ, verified.closed bb (List.mem_of_getElem? block) d succ, rfl,
        denoted d succ⟩

end Transfers

/-- Goes to one of three blocks by the value of its argument. -/
def switches : Llvm.Function where
  args := [{ name := "x".toList, ty := .int 32 }]
  blocks :=
    [{ name := "entry".toList, body := []
       terminator := .switch (.argument 0) 1 [(.constantInt 32 0, 2), (.constantInt 32 1, 3)] },
     { name := "other".toList, body := [], terminator := .ret none },
     { name := "zero".toList, body := [], terminator := .ret none },
     { name := "one".toList, body := [], terminator := .br 1 }]

/-- The selected code. -/
def switchesCode : List BasicBlockCode := (selectInstructions words switches).getD []

lemma switches_verified : switches.Verified := ⟨by decide, by decide⟩

/-- Goes to one of two blocks. -/
def decides : Llvm.Function where
  args := [{ name := "c".toList, ty := .int 1 }]
  blocks :=
    [{ name := "entry".toList, body := [], terminator := .condBr (.argument 0) 1 2 },
     { name := "then".toList, body := [], terminator := .br 2 },
     { name := "end".toList, body := [], terminator := .ret none }]

/-- Its selected code. -/
def decidesCode : List BasicBlockCode := (selectInstructions words decides).getD []

/-- A function with a `switch` falls through, and one with branches to blocks of different names
does not. -/
theorem selectInstructions_noFallThrough_switches :
    ¬ NoFallThrough switches switchesCode ∧ NoFallThrough decides decidesCode := by
  constructor
  · intro holds
    have kept := ((selectInstructions_noFallThrough_iff (show selectInstructions words switches =
      some switchesCode from rfl) switches_verified (by decide)).mp holds _ List.mem_cons_self).1
    exact absurd kept (by decide)
  · have select : selectInstructions words decides = some decidesCode := rfl
    have different : ∀ d < 3, ∀ e < 3, d < e → blockNames decides e ≠ blockNames decides d := by
      decide
    have bound : ∀ bb ∈ decides.blocks, isSwitch bb.terminator = false ∧
        ∀ d ∈ bb.terminator.successors, d < 3 := by
      decide
    refine (selectInstructions_noFallThrough_iff select ⟨by decide, by decide⟩ (by decide)).mpr
      fun bb mem => ⟨(bound bb mem).1, fun d succ e behind lt => ?_⟩
    exact different d ((bound bb mem).2 d succ) e lt behind

/-- The code of a `switch` runs on into the next block. -/
theorem selectInstructions_falls_through :
    ¬ ∀ (dl : DataLayout) (f : Llvm.Function) (blocks : List BasicBlockCode),
      selectInstructions dl f = some blocks → f.Verified →
      (∀ bb ∈ f.blocks, isBrSwitchRet bb.terminator = true) → NoFallThrough f blocks := by
  intro h
  have holds := h words switches switchesCode rfl switches_verified (by decide)
  obtain ⟨⟨before, last, split, leaves⟩, -⟩ := holds 0 _ _ rfl rfl
  have same := congrArg (fun l => l.getLast?.map Instruction.op) split
  rw [List.getLast?_concat, Option.map_some] at same
  have op : last.op = .ldr := (Option.some.inj same).symm
  rw [Instruction.Leaves, op] at leaves
  obtain ⟨branch, -⟩ | exit := leaves
  · cases branch
  · cases exit

end FpgaGpu

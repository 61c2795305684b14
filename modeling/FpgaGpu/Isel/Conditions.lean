import FpgaGpu.Isel.Comparison
import FpgaGpu.Isel.Execution

/-!
# Branches on other conditions

A branch on a value that is no comparison reads nothing of this value: it tests whether the last
result that set the flags was zero.
-/

namespace FpgaGpu

open Llvm (Value)
open Emission (bind_eq_some pure_eq_some push_eq_some)

/-- The first branch that the thread takes goes to the successor that a condition of the value `x`
selects. -/
def GoesBy (f : Llvm.Function) {hw : Hardware} (s : Thread hw Nat) (items : List Emitted)
    (ifTrue ifFalse : Nat) (x : BitVec 1) : Prop :=
  (firstTaken s items).map (fun e => e.mi.labelTarget) =
    some (blockNames f (if x = 1 then ifTrue else ifFalse))

/-- The condition code `NE` holds of all results but zero. -/
lemma takes_ne (flags : Word) : takes BranchCond.NE flags = true ↔ flags ≠ 0 := by
  unfold takes nzp
  by_cases zero : flags = 0
  · rw [if_pos zero]
    exact ⟨fun h => absurd h (by decide), fun h => absurd zero h⟩
  · rw [if_neg zero]
    refine ⟨fun _ => zero, fun _ => ?_⟩
    cases flags.msb <;> decide

/-- A branch on a value that is no comparison is two branches. -/
lemma selectCondBranch_other {f : Llvm.Function} {condVal : Value}
    {ifTrue ifFalse : Nat} {st st' : Selector} {items : List Emitted}
    (other : icmp? f condVal = none)
    (h : selectCondBranch f condVal ifTrue ifFalse st = some ((), items, st')) :
    items = [branchTo f BranchCond.NE ifTrue "branch taken",
      branchTo f BranchCond.ALWAYS ifFalse "branch fallthrough/else"] := by
  obtain ⟨_, out₁, st₁, branches, first, rest, rfl⟩ := bind_eq_some.mp h
  obtain ⟨_, out₂, st₂, out₃, push₁, push₂, rfl⟩ := bind_eq_some.mp rest
  obtain ⟨rfl, rfl⟩ := push_eq_some.mp push₁
  obtain ⟨rfl, rfl⟩ := push_eq_some.mp push₂
  rw [selectCondition, other] at first
  obtain ⟨rfl, rfl, rfl⟩ := pure_eq_some.mp first
  rfl

/-- The first one is taken on flags that are not zero. -/
lemma firstTaken_other {f : Llvm.Function} {hw : Hardware} (s : Thread hw Nat)
    (ifTrue ifFalse : Nat) :
    firstTaken s [branchTo f BranchCond.NE ifTrue "branch taken",
        branchTo f BranchCond.ALWAYS ifFalse "branch fallthrough/else"] =
      some (if s.flags ≠ 0 then branchTo f BranchCond.NE ifTrue "branch taken"
        else branchTo f BranchCond.ALWAYS ifFalse "branch fallthrough/else") := by
  rw [firstTaken]
  by_cases nonzero : s.flags ≠ 0
  · rw [if_pos ⟨rfl, (takes_ne _).mpr nonzero⟩, if_pos nonzero]
  · rw [if_neg fun h => nonzero ((takes_ne _).mp h.2), if_neg nonzero, firstTaken,
      if_pos ⟨rfl, takes_always _⟩]

/-- Two choices between two blocks have one label if they agree, or if the blocks have one label. -/
lemma blockNames_ite {f : Llvm.Function} {p q : Prop} [Decidable p] [Decidable q] (b c : Nat) :
    blockNames f (if p then b else c) = blockNames f (if q then b else c) ↔
      (p ↔ q) ∨ blockNames f b = blockNames f c := by
  by_cases hp : p <;> by_cases hq : q <;> simp [hp, hq, eq_comm]

lemma goesBy_iff {f : Llvm.Function} {hw : Hardware} (s : Thread hw Nat) (ifTrue ifFalse : Nat)
    (x : BitVec 1) :
    GoesBy f s [branchTo f BranchCond.NE ifTrue "branch taken",
        branchTo f BranchCond.ALWAYS ifFalse "branch fallthrough/else"] ifTrue ifFalse x ↔
      (s.flags ≠ 0 ↔ x = 1) ∨ blockNames f ifTrue = blockNames f ifFalse := by
  have label : (firstTaken s [branchTo f BranchCond.NE ifTrue "branch taken",
      branchTo f BranchCond.ALWAYS ifFalse "branch fallthrough/else"]).map
        (fun e => e.mi.labelTarget) =
        some (blockNames f (if s.flags ≠ 0 then ifTrue else ifFalse)) := by
    rw [firstTaken_other, Option.map_some]
    by_cases nonzero : s.flags ≠ 0
    · rw [if_pos nonzero, if_pos nonzero]
      rfl
    · rw [if_neg nonzero, if_neg nonzero]
      rfl
  rw [GoesBy, label, Option.some.injEq]
  exact blockNames_ite ifTrue ifFalse

/-- Hardware and a thread with any flags. -/
def flagged (flags : Word) : Thread Hardware.plain Nat where
  pc := none
  regs := fun _ => 0
  mem := ()
  flags := flags

/-- A conditional branch on a value that is no comparison goes by this value in a state exactly if
the flags there are nonzero when the value is one, and in all states exactly if both ways are
one. -/
theorem selectFunction_tests_iff {dl : DataLayout} {f : Llvm.Function} {code : List SelectedBlock}
    {st : Selector} (h : selectFunction dl f = some (code, st)) {b : Nat} {bb : Llvm.BasicBlock}
    {sb : SelectedBlock} (block : f.blocks[b]? = some bb) (selectedBlock : code[b]? = some sb)
    {condVal : Value} {ifTrue ifFalse : Nat} (term : bb.terminator = .condBr condVal ifTrue ifFalse)
    (other : icmp? f condVal = none) :
    ∃ before yes no, sb.items = before ++ [yes, no] ∧ (∀ e ∈ before, e.mi.op ≠ .br) ∧
      yes = branchTo f BranchCond.NE ifTrue "branch taken" ∧
      no = branchTo f BranchCond.ALWAYS ifFalse "branch fallthrough/else" ∧
      ∀ x : BitVec 1,
        (∀ (hw : Hardware) (s : Thread hw Nat), GoesBy f s [yes, no] ifTrue ifFalse x ↔
          (s.flags ≠ 0 ↔ x = 1) ∨ blockNames f ifTrue = blockNames f ifFalse) ∧
        ((∀ (hw : Hardware) (s : Thread hw Nat), GoesBy f s [yes, no] ifTrue ifFalse x) ↔
          blockNames f ifTrue = blockNames f ifFalse) := by
  obtain ⟨pieces, seen, chain, selected⟩ := selectFunction_pieces h
  obtain ⟨before, items, st₀, st₁, split, straight, -, -, select⟩ :=
    selected.select_terminator chain block selectedBlock
  rw [term] at select
  obtain rfl := selectCondBranch_other other select
  refine ⟨before, _, _, split, straight, rfl, rfl, fun x =>
    ⟨fun hw s => goesBy_iff s .., fun all => ?_,
    fun same hw s => (goesBy_iff s ..).mpr (.inr same)⟩⟩
  -- of two states one has the wrong flags
  by_cases one : x = 1
  · exact ((goesBy_iff _ ..).mp (all _ (flagged 0))).resolve_left fun iff => iff.mpr one rfl
  · exact ((goesBy_iff _ ..).mp (all _ (flagged 1))).resolve_left fun iff =>
      one (iff.mp (show (1 : Word) ≠ 0 by decide))

/-- Branches on its argument. -/
def branchesOn : Llvm.Function where
  args := [{ name := "c".toList, ty := .int 1 }]
  blocks :=
    [{ name := "entry".toList, body := [], terminator := .condBr (.argument 0) 1 2 },
     { name := "yes".toList, body := [], terminator := .ret none },
     { name := "no".toList, body := [], terminator := .ret none }]

/-- The selected code, with the state after the selection. -/
def branchesOnCode : List SelectedBlock × Selector :=
  (selectFunction words branchesOn).getD ([], Selector.start)

/-- A branch on an argument goes by the flags that are left. -/
theorem selectFunction_tests_argument : ∃ before yes no,
    (branchesOnCode.1[0]?).map SelectedBlock.items = some (before ++ [yes, no]) ∧
    ∀ (hw : Hardware) (s : Thread hw Nat),
      GoesBy branchesOn s [yes, no] 1 2 1 ↔ (s.flags ≠ 0 ↔ (1 : BitVec 1) = 1) ∨
        blockNames branchesOn 1 = blockNames branchesOn 2 := by
  have select : selectFunction words branchesOn = some branchesOnCode := rfl
  obtain ⟨before, yes, no, items, -, -, -, goes⟩ :=
    selectFunction_tests_iff select (b := 0) rfl rfl rfl rfl
  exact ⟨before, yes, no, congrArg some items, (goes 1).1⟩

/-- Hardware whose memory holds ones. -/
def Hardware.loadsOne : Hardware where
  Mem := Unit
  load _ _ := 1
  store m _ _ := m
  sysReg _ := 0
  setsFlags _ := false

/-- The register of the argument holds one at the branch, and the thread goes to the other block. -/
theorem selectFunction_ignores_condition :
    ∃ (start : Thread Hardware.loadsOne RegField) (s s' : Running Hardware.loadsOne) (r : Nat),
      stateAt branchesOnCode.1 start 2 = some s ∧
      s.rest = [branchTo branchesOn BranchCond.NE 1 "branch taken",
        branchTo branchesOn BranchCond.ALWAYS 2 "branch fallthrough/else"] ∧
      branchesOnCode.2.regOf (.argument 0) = some r ∧ s.thread.read (narrow r) = 1 ∧
      stateAt branchesOnCode.1 start 4 = some s' ∧ s'.block = 2 :=
  ⟨⟨none, fun _ => 0, (), 0⟩, _, _, _, rfl, rfl, rfl, rfl, rfl, rfl⟩

end FpgaGpu

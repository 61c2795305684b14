import FpgaGpu.Ir.Semantics
import FpgaGpu.Isel.Paths

/-!
# Branches on comparisons

The flags of a comparison are those of a difference that wraps, and one condition code serves the
signed and the unsigned predicate of an order. The branch decides right where the difference of the
numbers that the predicate compares is itself a word.
-/

namespace FpgaGpu

open Llvm (Value Predicate)
open Emission (push bind_eq_some pure_eq_some push_eq_some mapItems_eq_some)

/-! ## Differences -/

/-- The difference of the numbers that a predicate compares, unsigned or signed. -/
def Llvm.Predicate.difference (predicate : Predicate) (x y : Word) : Int :=
  match predicate with
  | .ugt | .uge | .ult | .ule => (x.toNat : Int) - y.toNat
  | .eq | .ne | .sgt | .sge | .slt | .sle => x.toInt - y.toInt

/-- What a predicate says of a difference. -/
def Llvm.Predicate.test : Predicate → Int → Bool
  | .eq, d => d = 0
  | .ne, d => d ≠ 0
  | .ugt, d | .sgt, d => 0 < d
  | .uge, d | .sge, d => 0 ≤ d
  | .ult, d | .slt, d => d < 0
  | .ule, d | .sle, d => d ≤ 0

/-- An equality, or an order of numbers whose difference is a signed word. -/
def DifferenceFits (predicate : Predicate) (x y : Word) : Prop :=
  predicate = .eq ∨ predicate = .ne ∨
    (-2 ^ 31 ≤ predicate.difference x y ∧ predicate.difference x y < 2 ^ 31)

section Differences

variable {predicate : Predicate} {x y : Word}

/-- A predicate is a test of the difference. -/
lemma holds_eq_test : predicate.holds x y = predicate.test (predicate.difference x y) := by
  have signed : x = y ↔ x.toInt - y.toInt = 0 := by rw [← BitVec.toInt_inj, Int.sub_eq_zero]
  cases predicate <;>
    simp only [Predicate.holds, Predicate.test, Predicate.difference, BitVec.ult_eq_decide,
      BitVec.ule_eq_decide, BitVec.slt_eq_decide, BitVec.sle_eq_decide, ne_eq, signed] <;>
    (apply decide_eq_decide.mpr; omega)

lemma difference_range :
    -2 ^ 32 < predicate.difference x y ∧ predicate.difference x y < 2 ^ 32 := by
  have := x.isLt
  have := y.isLt
  have := x.two_mul_toInt_lt
  have := x.le_two_mul_toInt
  have := y.two_mul_toInt_lt
  have := y.le_two_mul_toInt
  cases predicate <;> simp only [Predicate.difference] <;> omega

/-- The difference that the hardware computes wraps. -/
lemma toInt_sub_eq_bmod : (x - y).toInt = (predicate.difference x y).bmod (2 ^ 32) := by
  cases predicate with
  | ugt | uge | ult | ule =>
    rw [BitVec.toInt_sub, BitVec.toInt_eq_toNat_bmod, BitVec.toInt_eq_toNat_bmod,
      Int.bmod_sub_bmod, Int.sub_bmod_bmod]
    rfl
  | eq | ne | sgt | sge | slt | sle => exact BitVec.toInt_sub ..

/-- A test of a wrapped difference. -/
lemma test_bmod_iff {d : Int} (range : -2 ^ 32 < d ∧ d < 2 ^ 32) :
    predicate.test (d.bmod (2 ^ 32)) = predicate.test d ↔
      predicate = .eq ∨ predicate = .ne ∨ (-2 ^ 31 ≤ d ∧ d < 2 ^ 31) := by
  rw [Int.bmod_def]
  cases predicate <;>
    simp only [Predicate.test, decide_eq_decide, reduceCtorEq, false_or, true_or,
      or_true, iff_true] <;>
    split <;> omega

end Differences

/-! ## Flags -/

/-- The flag that is set tells the sign. -/
lemma nzp_cases (d : Word) : (d.toInt < 0 ∧ nzp d = BranchCond.N) ∨
    (d.toInt = 0 ∧ nzp d = BranchCond.Z) ∨ (0 < d.toInt ∧ nzp d = BranchCond.P) := by
  unfold nzp
  by_cases zero : d = 0
  · subst zero
    exact .inr (.inl ⟨rfl, rfl⟩)
  · have ne : d.toInt ≠ 0 := fun e => zero (BitVec.eq_of_toInt_eq e)
    rw [if_neg zero, BitVec.msb_eq_toInt]
    by_cases neg : d.toInt < 0
    · exact .inl ⟨neg, by simp [neg]⟩
    · exact .inr (.inr ⟨by omega, by simp [neg]⟩)

/-- The condition code of a predicate tests the sign of the result. -/
lemma takes_branchCond (predicate : Predicate) (d : Word) :
    takes (branchCond predicate) d = predicate.test d.toInt := by
  unfold takes
  obtain ⟨sign, flag⟩ | ⟨sign, flag⟩ | ⟨sign, flag⟩ := nzp_cases d <;> rw [flag] <;>
    cases predicate <;> simp only [Predicate.test, branchCond] <;>
    first
      | rw [decide_eq_true (by omega)]; decide
      | rw [decide_eq_false (by omega)]; decide

/-- The branch on a wrapped difference decides as the predicate exactly if the difference fits. -/
lemma takes_iff_differenceFits {predicate : Predicate} {x y : Word} :
    takes (branchCond predicate) (x - y) = predicate.holds x y ↔ DifferenceFits predicate x y := by
  have wraps : (x - y).toInt = (predicate.difference x y).bmod (2 ^ 32) := toInt_sub_eq_bmod
  rw [takes_branchCond, holds_eq_test, wraps]
  exact test_bmod_iff difference_range

/-! ## Branches -/

/-- The branch that a thread takes first, of instructions that it executes in order. -/
def firstTaken {hw : Hardware} (s : Thread hw Nat) : List Emitted → Option Emitted
  | [] => none
  | e :: items =>
    if e.mi.op = .br ∧ takes e.mi.cond s.flags = true then some e
    else firstTaken (execute s 0 e.mi) items

/-- The comparison of two registers. -/
def compare (rs1 rs2 : Nat) : Emitted where
  origin := .terminator
  mi := { newInstruction .cmp with rs1 := rs1, rs2 := rs2, comment := "cmp".toList }

section Branches

variable {f : Llvm.Function} {predicate : Predicate} {op0 op1 condVal : Value}
  {ifTrue ifFalse : Nat}
variable {st st' : Selector} {items : List Emitted}

/-- A comparison reads the registers of its operands. -/
lemma selectCmp_eq_some {out : List (Instruction Nat)} (valid : st.Valid)
    (h : selectCmp op0 op1 st = some ((), out, st')) :
    ∃ loaded rs1 rs2, out = loaded ++ [(compare rs1 rs2).mi] ∧
      st'.regOf op0 = some rs1 ∧ st'.regOf op1 = some rs2 := by
  obtain ⟨rs1, out₁, st₁, rest₁, first, rest, rfl⟩ := bind_eq_some.mp h
  obtain ⟨rs2, out₂, st₂, rest₂, second, last, rfl⟩ := bind_eq_some.mp rest
  obtain ⟨rfl, rfl⟩ := push_eq_some.mp last
  have first : lookup op0 true st = _ := first
  have second : lookup op1 true st₁ = _ := second
  obtain ⟨valid₁, -, reg₁⟩ := lookup_valid valid first
  obtain ⟨-, grows, reg₂⟩ := lookup_valid valid₁ second
  exact ⟨out₁ ++ out₂, rs1, rs2, (List.append_assoc ..).symm, grows.regOf reg₁, reg₂⟩

/-- A branch on a comparison compares, branches if the condition code holds, and else branches. -/
lemma selectCondBranch_eq_some (valid : st.Valid)
    (cond : icmp? f condVal = some (predicate, op0, op1))
    (h : selectCondBranch f condVal ifTrue ifFalse st = some ((), items, st')) :
    ∃ loaded rs1 rs2, items = loaded ++ [compare rs1 rs2,
        branchTo f (branchCond predicate) ifTrue "branch taken",
        branchTo f BranchCond.ALWAYS ifFalse "branch fallthrough/else"] ∧
      st'.regOf op0 = some rs1 ∧ st'.regOf op1 = some rs2 := by
  obtain ⟨_, out₁, st₁, branches, first, rest, rfl⟩ := bind_eq_some.mp h
  obtain ⟨_, out₂, st₂, out₃, push₁, push₂, rfl⟩ := bind_eq_some.mp rest
  obtain ⟨rfl, rfl⟩ := push_eq_some.mp push₁
  obtain ⟨rfl, rfl⟩ := push_eq_some.mp push₂
  rw [selectCondition, cond] at first
  obtain ⟨_, out₂, st₃, out₃, mapped, code, rfl⟩ := bind_eq_some.mp first
  obtain ⟨out, compared, rfl⟩ := mapItems_eq_some.mp mapped
  obtain ⟨rfl, rfl, rfl⟩ := pure_eq_some.mp code
  obtain ⟨loaded, rs1, rs2, rfl, reg₁, reg₂⟩ := selectCmp_eq_some valid compared
  exact ⟨loaded.map (Emitted.mk .terminator), rs1, rs2, by simp [compare], reg₁, reg₂⟩

/-- After the comparison the first branch is taken if its condition code holds of the difference,
and else the second one. -/
lemma firstTaken_compare {hw : Hardware} (s : Thread hw Nat) (rs1 rs2 : Nat) (cond : BitVec 8) :
    firstTaken s [compare rs1 rs2, branchTo f cond ifTrue "branch taken",
        branchTo f BranchCond.ALWAYS ifFalse "branch fallthrough/else"] =
      some (if takes cond (s.read rs1 - s.read rs2) = true
        then branchTo f cond ifTrue "branch taken"
        else branchTo f BranchCond.ALWAYS ifFalse "branch fallthrough/else") := by
  have flags : (execute s 0 (compare rs1 rs2).mi).flags = s.read rs1 - s.read rs2 := rfl
  have plain : (compare rs1 rs2).mi.op ≠ .br := nofun
  rw [firstTaken, if_neg fun h => plain h.1, firstTaken, flags]
  by_cases holds : takes cond (s.read rs1 - s.read rs2) = true
  · rw [if_pos holds, if_pos ⟨rfl, holds⟩]
  · rw [if_neg holds, if_neg fun h => holds h.2, firstTaken, if_pos ⟨rfl, takes_always _⟩]

/-- The two branches are told apart. -/
lemma branchTo_ne (cond cond' : BitVec 8) (ifTrue ifFalse : Nat) :
    branchTo f cond ifTrue "branch taken" ≠ branchTo f cond' ifFalse "branch fallthrough/else" := by
  intro same
  have comment : "branch taken".toList = "branch fallthrough/else".toList :=
    congrArg (fun e => e.mi.comment) same
  exact absurd comment (by decide)

end Branches

/-- A conditional branch on a comparison decides as LLVM's predicate exactly if the difference of
the two numbers is a signed word. -/
theorem selectFunction_decides_iff {dl : DataLayout} {f : Llvm.Function} {code : List SelectedBlock}
    {st : Selector} (h : selectFunction dl f = some (code, st)) {b : Nat} {bb : Llvm.BasicBlock}
    {sb : SelectedBlock} (block : f.blocks[b]? = some bb) (selectedBlock : code[b]? = some sb)
    {condVal : Value} {ifTrue ifFalse : Nat} (term : bb.terminator = .condBr condVal ifTrue ifFalse)
    {predicate : Predicate} {op0 op1 : Value}
    (cond : icmp? f condVal = some (predicate, op0, op1)) :
    ∃ loaded rs1 rs2 yes no, sb.items = loaded ++ [compare rs1 rs2, yes, no] ∧
      yes = branchTo f (branchCond predicate) ifTrue "branch taken" ∧
      no = branchTo f BranchCond.ALWAYS ifFalse "branch fallthrough/else" ∧
      st.regOf op0 = some rs1 ∧ st.regOf op1 = some rs2 ∧
      ∀ (hw : Hardware) (s : Thread hw Nat),
        firstTaken s [compare rs1 rs2, yes, no] =
            some (if predicate.holds (s.read rs1) (s.read rs2) = true then yes else no) ↔
          DifferenceFits predicate (s.read rs1) (s.read rs2) := by
  obtain ⟨pieces, seen, chain, selected⟩ := selectFunction_pieces h
  obtain ⟨before, items, st₀, st₁, split, -, valid, grows, select⟩ :=
    selected.select_terminator chain block selectedBlock
  rw [term] at select
  obtain ⟨loaded, rs1, rs2, rfl, reg₁, reg₂⟩ := selectCondBranch_eq_some valid cond select
  refine ⟨before ++ loaded, rs1, rs2, _, _, ?_, rfl, rfl, grows.regOf reg₁, grows.regOf reg₂,
    fun hw s => ?_⟩
  · rw [split, List.append_assoc]
  · rw [firstTaken_compare, ← takes_iff_differenceFits]
    have ne : branchTo f _ _ _ ≠ branchTo f _ _ _ :=
      branchTo_ne (branchCond predicate) BranchCond.ALWAYS ifTrue ifFalse
    constructor
    · intro same
      cases taken : takes (branchCond predicate) (s.read rs1 - s.read rs2) <;>
        cases holds : predicate.holds (s.read rs1) (s.read rs2) <;> simp_all
    · intro same
      rw [same]

/-- Branches if the first argument is below the second. -/
def branchesBelow : Llvm.Function where
  args := [{ name := "x".toList, ty := .int 32 }, { name := "y".toList, ty := .int 32 }]
  blocks :=
    [{ name := "entry".toList, body := [⟨0, .icmp .slt (.argument 0) (.argument 1)⟩]
       terminator := .condBr (.instruction 0) 1 2 },
     { name := "below".toList, body := [], terminator := .ret none },
     { name := "above".toList, body := [], terminator := .ret none }]

/-- Its selected code. -/
def branchesBelowCode : List SelectedBlock × Selector :=
  (selectFunction words branchesBelow).getD ([], .start)

/-- The registers of the two arguments hold the least number and one. -/
def leastAndOne : Thread Hardware.plain Nat where
  pc := none
  regs := fun r => if r = 1 then 0x80000000 else 1
  mem := ()
  flags := 0

/-- A branch on `slt` decides as it says exactly if the difference fits. -/
theorem selectFunction_decides_below : ∃ loaded rs1 rs2 yes no,
    (branchesBelowCode.1[0]?).map SelectedBlock.items =
      some (loaded ++ [compare rs1 rs2, yes, no]) ∧
    ∀ (hw : Hardware) (s : Thread hw Nat),
      firstTaken s [compare rs1 rs2, yes, no] =
          some (if Predicate.slt.holds (s.read rs1) (s.read rs2) = true then yes else no) ↔
        DifferenceFits .slt (s.read rs1) (s.read rs2) := by
  have select : selectFunction words branchesBelow = some branchesBelowCode := rfl
  obtain ⟨loaded, rs1, rs2, yes, no, items, -, -, -, -, decides⟩ :=
    selectFunction_decides_iff select (b := 0) rfl rfl rfl rfl
  exact ⟨loaded, rs1, rs2, yes, no, congrArg some items, decides⟩

/-- The least number is below one, but the branch goes to the other block. -/
theorem selectFunction_misdecides : ∃ sb, branchesBelowCode.1[0]? = some sb ∧
    (Predicate.slt.holds (leastAndOne.read 1) (leastAndOne.read 3) = true) ∧
    sb.items.drop 4 = [compare 1 3, branchTo branchesBelow BranchCond.LT 1 "branch taken",
      branchTo branchesBelow BranchCond.ALWAYS 2 "branch fallthrough/else"] ∧
    firstTaken leastAndOne (sb.items.drop 4) =
      some (branchTo branchesBelow BranchCond.ALWAYS 2 "branch fallthrough/else") :=
  ⟨_, rfl, by decide, rfl, by decide⟩

end FpgaGpu

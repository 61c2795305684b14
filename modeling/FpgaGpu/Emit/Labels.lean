import FpgaGpu.Emit.Emitter
import Mathlib.Data.Nat.ModEq

/-!
# Where labels are resolved to

A label is resolved to the last block that has its name, wherever in the layout that block is.
-/

namespace FpgaGpu

variable {blocks : List BasicBlockCode}

/-- The program counter of the first instruction from the block `j` on. -/
def blockStart (blocks : List BasicBlockCode) (j : Nat) : Nat := (layout (blocks.take j)).length

/-- The block `j` is the last one of a name. -/
def LastNamed (blocks : List BasicBlockCode) (name : Text) (j : Nat) : Prop :=
  (∃ bb, blocks[j]? = some bb ∧ bb.name = name) ∧
    ∀ k bb, j < k → blocks[k]? = some bb → bb.name ≠ name

/-- Between the starts of two blocks lies no instruction, or a multiple of 2^32 of them. -/
def Coincide (blocks : List BasicBlockCode) (j k : Nat) : Prop :=
  blockStart blocks j ≡ blockStart blocks k [MOD 2 ^ 32]

/-- The second pass finds the label of the instruction at `pc`, and gives it the offset of the first
instruction of the block `j`. -/
def ResolvedTo (blocks : List BasicBlockCode) (pc j : Nat) : Prop :=
  ∃ mi, (layout blocks)[pc]? = some mi ∧ mi.hasTarget = true ∧
    (blockToPC blocks mi.labelTarget).isSome = true ∧
    (resolveBranchOffsets blocks)[pc]?.map Instruction.imm =
      some (pcOffset (blockStart blocks j) pc)

/-- The last block of a name in a list of blocks that is split at it. -/
lemma lastNamed_append_cons {before after : List BasicBlockCode} {bb : BasicBlockCode}
    (last : ∀ bb' ∈ after, bb'.name ≠ bb.name) :
    LastNamed (before ++ bb :: after) bb.name before.length := by
  refine ⟨⟨bb, by simp, rfl⟩, fun k bb' lt e => last bb' ?_⟩
  rw [List.getElem?_append_right lt.le] at e
  obtain ⟨m, rfl⟩ : ∃ m, k = before.length + (m + 1) := ⟨k - before.length - 1, by omega⟩
  rw [Nat.add_sub_cancel_left, List.getElem?_cons_succ] at e
  exact List.mem_of_getElem? e

lemma LastNamed.unique {name : Text} {j k : Nat} (hj : LastNamed blocks name j)
    (hk : LastNamed blocks name k) : j = k := by
  obtain ⟨⟨bb, e, named⟩, last⟩ := hj
  obtain ⟨⟨bb', e', named'⟩, last'⟩ := hk
  obtain lt | eq | gt := Nat.lt_trichotomy j k
  · exact absurd named' (last k bb' lt e')
  · exact eq
  · exact absurd named (last' j bb gt e)

/-- The first pass records the start of the last block of each name. -/
lemma blockToPC_eq_some {name : Text} {p : Nat} :
    blockToPC blocks name = some p ↔ ∃ j, LastNamed blocks name j ∧ blockStart blocks j = p := by
  by_cases named : ∃ bb ∈ blocks, bb.name = name
  · obtain ⟨before, bb, after, rfl, rfl, last⟩ := exists_last_block named
    have here : LastNamed (before ++ bb :: after) bb.name before.length :=
      lastNamed_append_cons last
    have start : blockStart (before ++ bb :: after) before.length = (layout before).length := by
      rw [blockStart, List.take_left]
    rw [blockToPC_last last, Option.some.injEq]
    constructor
    · rintro rfl
      exact ⟨_, here, start⟩
    · rintro ⟨j, there, rfl⟩
      rw [there.unique here, start]
  · push Not at named
    constructor
    · intro h
      rw [blockToPC, recordPCs_of_not_mem named] at h
      cases h
    · rintro ⟨j, ⟨⟨bb, e, name⟩, -⟩, -⟩
      exact absurd name (named bb (List.mem_of_getElem? e))

/-- Offsets are equal exactly if the targets are, up to a multiple of 2^32. -/
lemma pcOffset_eq_iff {p q pc : Nat} : pcOffset p pc = pcOffset q pc ↔ p ≡ q [MOD 2 ^ 32] := by
  rw [pcOffset, pcOffset, sub_left_inj, ← BitVec.toNat_inj, BitVec.toNat_ofNat, BitVec.toNat_ofNat]
  rfl

/-- An instruction with a label is resolved to a block exactly if no instruction lies between it and
the last block that has the name. -/
theorem resolvedTo_iff {pc j : Nat} {mi : MachineInstruction} (h : (layout blocks)[pc]? = some mi)
    (target : mi.hasTarget = true) :
    ResolvedTo blocks pc j ↔ ∃ k, LastNamed blocks mi.labelTarget k ∧ Coincide blocks j k := by
  have resolved : (resolveBranchOffsets blocks)[pc]? =
      some (resolveAt (blockToPC blocks) pc mi) := by
    rw [resolveBranchOffsets, List.getElem?_mapIdx, h, Option.map_some]
  constructor
  · rintro ⟨mi', e, -, found, offset⟩
    obtain rfl := Option.some.inj (h.symm.trans e)
    obtain ⟨p, e'⟩ := Option.isSome_iff_exists.mp found
    obtain ⟨k, last, rfl⟩ := blockToPC_eq_some.mp e'
    refine ⟨k, last, ?_⟩
    rw [resolved, resolveAt, if_pos target, e'] at offset
    exact (pcOffset_eq_iff.mp (Option.some.inj offset)).symm
  · rintro ⟨k, last, same⟩
    have e := blockToPC_eq_some.mpr ⟨k, last, rfl⟩
    refine ⟨mi, h, target, by rw [e]; rfl, ?_⟩
    rw [resolved, resolveAt, if_pos target, e]
    exact congrArg some (pcOffset_eq_iff.mpr same.symm)

end FpgaGpu

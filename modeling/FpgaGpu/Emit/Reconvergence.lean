import FpgaGpu.Emit.Control
import FpgaGpu.Emit.Labels
import FpgaGpu.Lib.Offset

/-!
# Where an `SSY` word leads

An `SSY` word holds 19 bits of the distance to its label. Where it leads depends on the names and
the lengths of the blocks alone.
-/

namespace FpgaGpu

/-! ## Names and lengths -/

/-- The names and the lengths of blocks. -/
def blockOutline (blocks : List BasicBlockCode) : List (Text × Nat) :=
  blocks.map fun bb => (bb.name, bb.instructions.length)

/-- The program counter at which an entry starts. -/
def startPC (entries : List (Text × Nat)) (j : Nat) : Nat := Offset.start (entries.map Prod.snd) j

/-- The entry `j` is the last one of a name. -/
def LastEntry (entries : List (Text × Nat)) (name : Text) (j : Nat) : Prop :=
  (∃ size, entries[j]? = some (name, size)) ∧
    ∀ k entry, j < k → entries[k]? = some entry → entry.1 ≠ name

/-- An `SSY` at `pc` with a label leads to the entry `j`. The last entry of the name starts where
`j` does, up to what 19 bits do not tell, and `j` is near; or no entry has the name, the offset
stays 0, and `j` starts at the `SSY`. -/
def LeadsTo (entries : List (Text × Nat)) (pc : Nat) (label : Text) (j : Nat) : Prop :=
  ((∃ k, LastEntry entries label k ∧ startPC entries k ≡ startPC entries j [MOD 2 ^ 19]) ∧
      -(2 ^ 18 : Int) ≤ (startPC entries j : Int) - pc ∧ (startPC entries j : Int) - pc < 2 ^ 18) ∨
    (∀ entry ∈ entries, entry.1 ≠ label) ∧ startPC entries j = pc

/-- The word at `pc` is an `SSY` whose signed offset leads to `target`. -/
def SsyTo (words : List Word) (pc target : Nat) : Prop :=
  ∃ word mi, words[pc]? = some word ∧ decode word = some mi ∧ mi.op = .ssy ∧
    (pc : Int) + mi.imm.toInt = target

section Blocks

variable {blocks : List BasicBlockCode}

lemma blockStart_eq (j : Nat) : blockStart blocks j = startPC (blockOutline blocks) j := by
  rw [blockStart, startPC, Offset.start, layout, List.length_flatMap, blockOutline, List.map_map,
    List.map_take]
  rfl

lemma lastNamed_iff {name : Text} {j : Nat} :
    LastNamed blocks name j ↔ LastEntry (blockOutline blocks) name j := by
  unfold LastNamed LastEntry blockOutline
  simp only [List.getElem?_map, Option.map_eq_some_iff, Prod.mk.injEq]
  constructor
  · rintro ⟨⟨bb, e, named⟩, last⟩
    refine ⟨⟨_, bb, e, named, rfl⟩, ?_⟩
    rintro k _ lt ⟨bb', e', rfl⟩
    exact last k bb' lt e'
  · rintro ⟨⟨_, bb, e, named, -⟩, last⟩
    exact ⟨⟨bb, e, named⟩, fun k bb' lt e' => last k _ lt ⟨bb', e', rfl⟩⟩

/-- A name is not recorded if no block has it. -/
lemma blockToPC_eq_none {name : Text} :
    blockToPC blocks name = none ↔ ∀ entry ∈ blockOutline blocks, entry.1 ≠ name := by
  simp only [blockOutline, List.forall_mem_map]
  constructor
  · intro none bb mem named
    obtain ⟨before, bb', after, rfl, rfl, last⟩ := exists_last_block ⟨bb, mem, named⟩
    rw [blockToPC_last last] at none
    cases none
  · intro unnamed
    rw [blockToPC, recordPCs_of_not_mem unnamed]

/-! ## Offsets -/

/-- Adding a signed distance of 19 bits. -/
lemma add_bmod_eq_iff {p pc j : Nat} : (pc : Int) + ((p : Int) - pc).bmod (2 ^ 19) = j ↔
    p ≡ j [MOD 2 ^ 19] ∧ -(2 ^ 18 : Int) ≤ (j : Int) - pc ∧ (j : Int) - pc < 2 ^ 18 := by
  rw [← eq_sub_iff_add_eq', Int.bmod_eq_iff (by decide), Nat.modEq_iff_dvd,
    sub_sub_sub_cancel_right]
  simp only [show -(((2 ^ 19 : Nat) : Int) / 2) = -(2 ^ 18) from rfl,
    show (((2 ^ 19 : Nat) : Int) + 1) / 2 = 2 ^ 18 from rfl]
  tauto

/-- The word at `pc` is an `SSY` if the instruction there is, and its offset is the resolved one. -/
lemma ssyTo_iff_field {pc target : Nat} {mi : MachineInstruction}
    (h : (layout blocks)[pc]? = some mi) :
    SsyTo (emitWords blocks) pc target ↔ mi.op = .ssy ∧
      (pc : Int) + (imm19Field (encode (resolveAt (blockToPC blocks) pc mi))).toInt = target := by
  have word : (emitWords blocks)[pc]? = some (encode (resolveAt (blockToPC blocks) pc mi)) := by
    rw [emitWords, resolveBranchOffsets, List.getElem?_map, List.getElem?_mapIdx, h]
    rfl
  obtain ⟨mi', dec, op, imm⟩ := decode_encode_op (resolveAt (blockToPC blocks) pc mi)
  rw [resolveAt_op] at op imm
  constructor
  · rintro ⟨_, _, e, dec', ssy, target⟩
    obtain rfl := Option.some.inj (word.symm.trans e)
    obtain rfl := Option.some.inj (dec.symm.trans dec')
    rw [op] at ssy
    rw [imm (by rw [ssy]; rfl)] at target
    exact ⟨ssy, target⟩
  · rintro ⟨ssy, target⟩
    rw [← imm (by rw [ssy]; rfl)] at target
    exact ⟨_, _, word, dec, op.trans ssy, target⟩

/-- The word of an `SSY` with a label, and offset 0 until the label is resolved. -/
theorem ssyTo_iff (named : ∀ bb ∈ blocks, bb.name ≠ []) {pc j : Nat} {mi : MachineInstruction}
    (h : (layout blocks)[pc]? = some mi) (unresolved : mi.imm = 0) :
    SsyTo (emitWords blocks) pc (blockStart blocks j) ↔
      mi.op = .ssy ∧ LeadsTo (blockOutline blocks) pc mi.labelTarget j := by
  rw [ssyTo_iff_field h, blockStart_eq]
  refine and_congr_right fun ssy => ?_
  have use : mi.op.usesImm19 = true := by
    rw [ssy]
    rfl
  cases recorded : blockToPC blocks mi.labelTarget with
  -- an unknown label leaves offset 0, by which the SSY denotes itself
  | none =>
    have same : resolveAt (blockToPC blocks) pc mi = mi := by
      rw [resolveAt, recorded]
      exact ite_self mi
    have zero : (imm19Field (encode mi)).toInt = 0 :=
      toInt_imm19Field_pcOffset use (show mi.imm = pcOffset 0 0 from unresolved)
    have absent := blockToPC_eq_none.mp recorded
    rw [same, zero, add_zero, Nat.cast_inj]
    constructor
    · exact fun here => .inr ⟨absent, here.symm⟩
    · rintro (⟨⟨k, ⟨⟨size, e⟩, -⟩, -⟩, -⟩ | ⟨-, here⟩)
      · exact absurd rfl (absent _ (List.mem_of_getElem? e))
      · exact here.symm
  | some p =>
    obtain ⟨k, last, rfl⟩ := blockToPC_eq_some.mp recorded
    obtain ⟨bb, e, name⟩ := last.1
    have target : mi.hasTarget = true := by
      have ne := named bb (List.mem_of_getElem? e)
      rw [name] at ne
      simp [Instruction.hasTarget, ssy, ne]
    have resolved : resolveAt (blockToPC blocks) pc mi =
        { mi with imm := pcOffset (blockStart blocks k) pc } := by
      rw [resolveAt, if_pos target, recorded]
    have offset : (imm19Field (encode (resolveAt (blockToPC blocks) pc mi))).toInt =
        ((blockStart blocks k : Int) - pc).bmod (2 ^ 19) :=
      toInt_imm19Field_pcOffset (by rwa [resolveAt_op]) (by rw [resolved])
    rw [offset, add_bmod_eq_iff, blockStart_eq]
    constructor
    · rintro ⟨same, near⟩
      exact .inl ⟨⟨k, lastNamed_iff.mp last, same⟩, near⟩
    · rintro (⟨⟨k', last', same⟩, near⟩ | ⟨absent, -⟩)
      · obtain rfl := last.unique (lastNamed_iff.mpr last')
        exact ⟨same, near⟩
      · rw [blockToPC_eq_none.mpr absent] at recorded
        cases recorded

end Blocks

end FpgaGpu

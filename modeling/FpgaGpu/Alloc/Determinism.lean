import FpgaGpu.Alloc.Simulation

/-!
# Allocation does not depend on the order of the map

Where every register is first mentioned as a destination, no two ranges begin at the same
instruction, so there is only one way to sort them.
-/

namespace FpgaGpu

/-- Each register is the destination of the instruction that mentions it first. -/
def DefinedFirst (code : List MachineInstruction) : Prop :=
  ∀ i mi v, code[i]? = some mi → Mentions code i v → (∀ j < i, ¬ Mentions code j v) → mi.rd = v

section Order

variable {code : List MachineInstruction} {intervals l l' : List Interval}

/-- Ranges of different registers begin at different instructions. -/
lemma Records.birth_inj (records : Records (Mentions code) intervals) (defined : DefinedFirst code)
    {a b : Interval} (ha : a ∈ intervals) (hb : b ∈ intervals)
    (same : a.2.birth = b.2.birth) : a = b := by
  -- nothing mentions a register before its range
  have first : ∀ {v r}, (v, r) ∈ intervals → ∀ j < r.birth, ¬ Mentions code j v := by
    intro v r mem j lt mention
    obtain ⟨r', mem', le, -⟩ := records.covers j v mention
    obtain rfl := interval_unique records.nodup mem mem'
    omega
  obtain ⟨v, r⟩ := a
  obtain ⟨w, s⟩ := b
  have mentionsV : Mentions code r.birth v := (records.sound v r ha).1
  have mentionsW : Mentions code r.birth w :=
    (show r.birth = s.birth from same) ▸ (records.sound w s hb).1
  obtain ⟨-, mi, e, -⟩ := id mentionsV
  have rdV : mi.rd = v := defined _ mi v e mentionsV (first ha)
  have rdW : mi.rd = w := defined _ mi w e mentionsW fun j lt => first hb j (same ▸ lt)
  obtain rfl : v = w := rdV.symm.trans rdW
  rw [interval_unique records.nodup ha hb]

/-- There is one sorted list of the ranges. -/
lemma Records.sorted_unique (records : Records (Mentions code) intervals)
    (defined : DefinedFirst code) (perm : l.Perm intervals) (perm' : l'.Perm intervals)
    (sorted : l.Pairwise fun a b => ¬ Earlier b a)
    (sorted' : l'.Pairwise fun a b => ¬ Earlier b a) : l = l' := by
  refine (perm.trans perm'.symm).eq_of_pairwise (fun a b ha hb notLater notEarlier => ?_)
    sorted sorted'
  refine records.birth_inj defined (perm.mem_iff.mp ha) (perm'.mem_iff.mp hb) ?_
  by_contra differ
  unfold Earlier at notLater notEarlier
  rw [if_pos (Ne.symm differ)] at notLater
  rw [if_pos differ] at notEarlier
  omega

end Order

/-- Allocation gives the same for every order in which the map is enumerated and every algorithm
that sorts. -/
theorem allocate_deterministic {blocks : List BasicBlockCode}
    (defined : DefinedFirst (layout blocks)) (order order' : SortOrder) (e e' : Enumeration) :
    allocateInPlace (order.after e) blocks = allocateInPlace (order'.after e') blocks ∧
      ∀ vreg, getPhysReg (order.after e) blocks vreg =
        getPhysReg (order'.after e') blocks vreg := by
  have same : (order.after e).sort (liveRanges 0 [] (layout blocks)) =
      (order'.after e').sort (liveRanges 0 [] (layout blocks)) :=
    (records_liveRanges (layout blocks)).sorted_unique defined ((order.after e).perm _)
      ((order'.after e').perm _) ((order.after e).sorted _) ((order'.after e').sorted _)
  refine ⟨?_, fun vreg => ?_⟩
  · unfold allocateInPlace
    rw [same]
  · unfold getPhysReg vregToPhys
    rw [same]

/-- The map is enumerated from its last register on. -/
def Enumeration.reverse : Enumeration where
  enumerate := List.reverse
  perm := List.reverse_perm

/-- The map is enumerated in the order in which the registers were recorded. -/
def Enumeration.recorded : Enumeration where
  enumerate := id
  perm := List.Perm.refl

lemma kept_definedFirst : DefinedFirst (layout kept) := by
  rintro i mi v e ⟨nonzero, mi', e', field⟩ first
  obtain rfl := Option.some.inj (e.symm.trans e')
  have new : ∀ j u, j < i → Mentions (layout kept) j u → v ≠ u := by
    rintro j u lt mention rfl
    exact first j lt mention
  rcases i with _ | _ | _ | _ | i
  · obtain rfl := Option.some.inj e
    have field : v ∈ ([1, 0, 0] : List RegField) := field
    simp only [List.mem_cons, List.not_mem_nil, nonzero, or_false] at field
    exact field.symm
  · have one := new 0 1 (by decide) ⟨by decide, _, rfl, by decide⟩
    obtain rfl := Option.some.inj e
    have field : v ∈ ([2, 1, 0] : List RegField) := field
    simp only [List.mem_cons, List.not_mem_nil, nonzero, one, or_false] at field
    exact field.symm
  · have one := new 0 1 (by decide) ⟨by decide, _, rfl, by decide⟩
    have two := new 1 2 (by decide) ⟨by decide, _, rfl, by decide⟩
    obtain rfl := Option.some.inj e
    have field : v ∈ ([0, 2, 1] : List RegField) := field
    simp only [List.mem_cons, List.not_mem_nil, nonzero, one, two, or_false] at field
  · obtain rfl := Option.some.inj e
    have field : v ∈ ([0, 0, 0] : List RegField) := field
    simp only [List.mem_cons, List.not_mem_nil, nonzero, or_false] at field
  · cases e

/-- The map may be enumerated backwards. -/
theorem allocate_deterministic_kept :
    allocateInPlace (SortOrder.stable.after .reverse) kept =
        allocateInPlace (SortOrder.stable.after .recorded) kept ∧
      ∀ vreg, getPhysReg (SortOrder.stable.after .reverse) kept vreg =
        getPhysReg (SortOrder.stable.after .recorded) kept vreg :=
  allocate_deterministic kept_definedFirst ..

end FpgaGpu

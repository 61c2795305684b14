import FpgaGpu.Alloc.Simulation

/-!
# Register pressure

The linear scan fails exactly where 32 ranges share an instruction. A success assigns one of R1..R31
to each register, so for two lists of blocks that are allocated together it is the joined ranges
that count.
-/

namespace FpgaGpu

/-- Some instruction is in the ranges of at least 32 registers. -/
def Crowded (code : List MachineInstruction) : Prop :=
  ∃ (i : Nat) (vs : List RegField), vs.Nodup ∧ numPhysicalRegs ≤ vs.length ∧
    ∀ v ∈ vs, InRange code v i

/-! ## Failure -/

/-- Every physical register is free or belongs to an active interval. -/
def Scan.Complete (st : Scan) : Prop :=
  ∀ p, Allocatable p → p ∈ st.freePool ∨ ∃ d v, (d, v) ∈ st.active ∧ st.vregToPhys v = p

lemma Scan.complete_start : Scan.start.Complete := by
  intro p allocatable
  refine .inl ?_
  obtain ⟨le, lt⟩ := allocatable
  refine List.mem_map.mpr ⟨p.toNat, List.mem_range'_1.mpr ⟨le, ?_⟩, BitVec.ofNat_toNat ..⟩
  unfold numPhysicalRegs at *
  omega

/-- After expiring, every physical register is free or belongs to an interval that reaches
`birth`. -/
lemma Scan.Complete.expire {st : Scan} (complete : st.Complete) (birth : Nat) {p : RegField}
    (allocatable : Allocatable p) :
    p ∈ (expire st.vregToPhys birth st.active st.freePool).2 ∨
      ∃ d v, (d, v) ∈ (expire st.vregToPhys birth st.active st.freePool).1 ∧
        st.vregToPhys v = p := by
  obtain ⟨kept, free, -⟩ := expire_spec st.vregToPhys birth st.active st.freePool
  obtain old | ⟨d, v, active, rfl⟩ := complete p allocatable
  · exact .inl ((free p).mpr (.inl old))
  · obtain lt | le := Nat.lt_or_ge d birth
    · exact .inl ((free _).mpr (.inr ⟨(d, v), active, lt, rfl⟩))
    · exact .inr ⟨d, v, (kept _).mpr ⟨active, le⟩, rfl⟩

lemma Scan.Complete.step {st st' : Scan} (complete : st.Complete) {v : RegField} {range : LiveRange}
    (new : ∀ d, (d, v) ∉ st.active) (step : scanStep st (v, range) = some st') : st'.Complete := by
  have kept := (expire_spec st.vregToPhys range.birth st.active st.freePool).1
  intro p allocatable
  have before := complete.expire range.birth allocatable
  simp only [scanStep] at step
  generalize (FpgaGpu.expire st.vregToPhys range.birth st.active st.freePool).1 = active
    at step kept before
  generalize (FpgaGpu.expire st.vregToPhys range.birth st.active st.freePool).2 = pool
    at step before
  cases pool with
  | nil => cases step
  | cons phys pool =>
    obtain rfl := Option.some.inj step
    obtain free | ⟨d, w, hw, rfl⟩ := before
    · obtain rfl | free := List.mem_cons.mp free
      · exact .inr ⟨range.death, v, by simp, Function.update_self ..⟩
      · exact .inl free
    · have ne : w ≠ v := by
        rintro rfl
        exact new d ((kept _).mp hw).1
      exact .inr ⟨d, w, List.mem_append_left _ hw, Function.update_of_ne ne ..⟩

/-- Where the scan stops, 32 ranges share the first instruction of the interval it stops at. -/
lemma ScanInv.crowd {done : List Interval} {st : Scan} {v : RegField} {range : LiveRange}
    (inv : ScanInv done st) (complete : st.Complete) (new : v ∉ done.map Prod.fst)
    (sorted : ∀ w s, (w, s) ∈ done → s.birth ≤ range.birth)
    (stop : scanStep st (v, range) = none) :
    ∃ ws : List RegField, (v :: ws).Nodup ∧ numPhysicalRegs ≤ (v :: ws).length ∧
      ∀ w ∈ ws, ∃ r, (w, r) ∈ done ∧ r.birth ≤ range.birth ∧ range.birth ≤ r.death := by
  have kept := (expire_spec st.vregToPhys range.birth st.active st.freePool).1
  have empty : (expire st.vregToPhys range.birth st.active st.freePool).2 = [] := by
    simp only [scanStep] at stop
    split at stop
    · next e => exact e
    · cases stop
  -- no register is free, so each is held by an interval that reaches this birth
  have holder : ∀ p, Allocatable p → ∃ w, st.vregToPhys w = p ∧
      ∃ r, (w, r) ∈ done ∧ r.birth ≤ range.birth ∧ range.birth ≤ r.death := by
    intro p allocatable
    obtain free | ⟨d, w, hw, rfl⟩ := complete.expire range.birth allocatable
    · rw [empty] at free
      cases free
    · obtain ⟨active, le⟩ := (kept _).mp hw
      obtain ⟨r, mem, rfl⟩ := inv.active_done d w active
      exact ⟨w, rfl, r, mem, sorted w r mem, le⟩
  choose! w phys reach using holder
  have range := ScanInv.start.poolRange
  refine ⟨Scan.start.freePool.map w, List.nodup_cons.mpr ⟨fun mem => ?_, ?_⟩, ?_, fun u mem => ?_⟩
  · obtain ⟨p, hp, rfl⟩ := List.mem_map.mp mem
    obtain ⟨r, mem, -⟩ := reach p (range p hp)
    exact new (List.mem_map_of_mem mem)
  · refine List.Nodup.map_on (fun p hp q hq same => ?_) ScanInv.start.poolNodup
    rw [← phys p (range p hp), ← phys q (range q hq), same]
  · simp [Scan.start, numPhysicalRegs]
  · obtain ⟨p, hp, rfl⟩ := List.mem_map.mp mem
    exact reach p (range p hp)

/-- A scan that fails stops at some interval. -/
lemma ScanInv.linearScan_none {done rest : List Interval} {st : Scan} (inv : ScanInv done st)
    (complete : st.Complete) (nodup : ((done ++ rest).map Prod.fst).Nodup)
    (sorted : (done ++ rest).Pairwise fun a b => ¬ Earlier b a)
    (run : FpgaGpu.linearScan rest st = none) :
    ∃ (v : RegField) (range : LiveRange) (ws : List RegField), (v, range) ∈ done ++ rest ∧
      (v :: ws).Nodup ∧ numPhysicalRegs ≤ (v :: ws).length ∧
      ∀ w ∈ ws, ∃ r, (w, r) ∈ done ++ rest ∧ r.birth ≤ range.birth ∧ range.birth ≤ r.death := by
  induction rest generalizing done st with
  | nil => cases run
  | cons interval rest ih =>
    obtain ⟨v, range⟩ := interval
    have head : ∀ w s, (w, s) ∈ done → s.birth ≤ range.birth := fun w s mem =>
      birth_le_of_sorted sorted mem
    have new : v ∉ done.map Prod.fst := by
      rw [List.map_append, List.map_cons] at nodup
      exact fun mem => (List.nodup_append.mp nodup).2.2 v mem v List.mem_cons_self rfl
    cases step : scanStep st (v, range) with
    | none =>
      obtain ⟨ws, distinct, many, reach⟩ := inv.crowd complete new head step
      refine ⟨v, range, ws, by simp, distinct, many, fun w mem => ?_⟩
      obtain ⟨r, mem, le⟩ := reach w mem
      exact ⟨r, List.mem_append_left _ mem, le⟩
    | some st₁ =>
      rw [FpgaGpu.linearScan, step, Option.bind_some] at run
      rw [List.append_cons] at nodup sorted ⊢
      have nodup' : ((done ++ [(v, range)]).map Prod.fst).Nodup := by
        rw [List.map_append] at nodup
        exact (List.nodup_append.mp nodup).1
      have inactive : ∀ d, (d, v) ∉ st.active := by
        intro d active
        obtain ⟨r, mem, -⟩ := inv.active_done d v active
        exact new (List.mem_map_of_mem mem)
      exact ih (inv.step nodup' head step) (complete.step inactive step) nodup sorted run

/-- A list that is mapped to R1..R31 without repetition is short. -/
lemma length_lt_of_allocatable {vs : List RegField} {φ : RegField → RegField} (nodup : vs.Nodup)
    (range : ∀ v ∈ vs, Allocatable (φ v))
    (apart : ∀ v ∈ vs, ∀ w ∈ vs, v ≠ w → φ v ≠ φ w) : vs.length < numPhysicalRegs := by
  have distinct : (vs.map φ).Nodup := by
    refine List.Nodup.map_on (fun v hv w hw same => ?_) nodup
    by_contra ne
    exact apart v hv w hw ne same
  have sub : vs.map φ ⊆ Scan.start.freePool := by
    intro p mem
    obtain ⟨v, hv, rfl⟩ := List.mem_map.mp mem
    exact (Scan.complete_start _ (range v hv)).resolve_right (by simp [Scan.start])
  have le := (distinct.subperm sub).length_le
  simp only [List.length_map, Scan.start, List.length_range'] at le
  unfold numPhysicalRegs at *
  omega

/-- Allocation fails exactly on crowded code. -/
lemma allocate_eq_none_iff (order : SortOrder) (blocks : List BasicBlockCode) :
    allocate order blocks = none ↔ Crowded (layout blocks) := by
  constructor
  · intro fail
    have records := (records_liveRanges (layout blocks)).perm (order.perm _)
    have run : linearScan (order.sort (liveRanges 0 [] (layout blocks))) Scan.start = none := by
      cases e : linearScan (order.sort (liveRanges 0 [] (layout blocks))) Scan.start with
      | none => rfl
      | some st =>
        rw [allocate, e] at fail
        cases fail
    obtain ⟨v, range, ws, mem, nodup, many, reach⟩ := ScanInv.start.linearScan_none
      Scan.complete_start (by simpa using records.nodup) (by simpa using order.sorted _) run
    rw [List.nil_append] at mem reach
    have inRange : ∀ u r, (u, r) ∈ order.sort (liveRanges 0 [] (layout blocks)) →
        r.birth ≤ range.birth → range.birth ≤ r.death → InRange (layout blocks) u range.birth := by
      intro u r hu le le'
      obtain ⟨birth, death⟩ := records.sound u r hu
      exact ⟨r.birth, r.death, birth, death, le, le'⟩
    refine ⟨range.birth, v :: ws, nodup, many, List.forall_mem_cons.mpr ⟨?_, fun w hw => ?_⟩⟩
    · obtain ⟨birth, -⟩ := records.sound v range mem
      exact birth.inRange
    · obtain ⟨r, hr, le, le'⟩ := reach w hw
      exact inRange w r hr le le'
  -- the ranges meet at i, so an allocation would keep 32 of them apart in R1..R31
  · rintro ⟨i, vs, nodup, many, inRange⟩
    cases run : allocate order blocks with
    | none => rfl
    | some blocks' =>
      obtain ⟨φ, -, alloc⟩ := allocate_spec run
      have lt := length_lt_of_allocatable nodup
        (fun v hv => by
          obtain ⟨j, -, mention, -⟩ := inRange v hv
          exact alloc.range j v mention)
        fun v hv w hw ne => alloc.separate v w ne ⟨i, inRange v hv, inRange w hw⟩
      omega

lemma allocateInPlace_eq (order : SortOrder) (blocks : List BasicBlockCode) :
    allocateInPlace order blocks =
      match allocate order blocks with
      | none => (false, blocks)
      | some blocks' => (true, blocks') := by
  unfold allocateInPlace allocate
  dsimp only
  cases linearScan (order.sort (liveRanges 0 [] (layout blocks))) Scan.start <;> rfl

/-- Allocation fails only when 32 ranges share an instruction, and then changes nothing. -/
theorem allocateInPlace_fails (order : SortOrder) (blocks : List BasicBlockCode) :
    ((allocateInPlace order blocks).1 = false ↔ Crowded (layout blocks)) ∧
      ((allocateInPlace order blocks).1 = false → (allocateInPlace order blocks).2 = blocks) := by
  rw [← allocate_eq_none_iff order, allocateInPlace_eq]
  cases allocate order blocks with
  | none => simp
  | some blocks' => simp

/-! ## Success -/

/-- A success replaces each register other than R0 by one of R1..R31, and changes nothing else;
registers whose ranges share an instruction get different ones. -/
theorem allocateInPlace_assigns {order : SortOrder} {blocks blocks' : List BasicBlockCode}
    (run : allocateInPlace order blocks = (true, blocks')) :
    ∃ f : RegField → RegField,
      (∀ i v, Mentions (layout blocks) i v → 1 ≤ (f v).toNat ∧ (f v).toNat ≤ 31) ∧
      blocks' = (blocks.map fun bb => { bb with instructions := bb.instructions.map fun mi =>
        { mi with rd := assign f mi.rd, rs1 := assign f mi.rs1, rs2 := assign f mi.rs2 } }) ∧
      ∀ v w, v ≠ w → Interferes (layout blocks) v w → f v ≠ f w := by
  have some : allocate order blocks = some blocks' := by
    rw [allocateInPlace_eq] at run
    split at run
    · cases run
    · next e => rw [e, (Prod.mk.inj run).2]
  obtain ⟨φ, rfl, alloc⟩ := allocate_spec some
  have same : assign φ = φ := by
    funext r
    unfold assign
    split
    · next zero => rw [zero, alloc.zero]
    · rfl
  refine ⟨φ, fun i v mention => ?_, by rw [same]; rfl, alloc.separate⟩
  obtain ⟨le, lt⟩ := alloc.range i v mention
  exact ⟨le, Nat.le_of_lt_succ lt⟩

/-- The registers that a short program is given. -/
theorem allocateInPlace_assigns_kept : ∃ f : RegField → RegField,
    (∀ i v, Mentions (layout kept) i v → 1 ≤ (f v).toNat ∧ (f v).toNat ≤ 31) ∧
    kept = (kept.map fun bb => { bb with instructions := bb.instructions.map fun mi =>
      { mi with rd := assign f mi.rd, rs1 := assign f mi.rs1, rs2 := assign f mi.rs2 } }) ∧
    ∀ v w, v ≠ w → Interferes (layout kept) v w → f v ≠ f w := by
  have run : allocateInPlace SortOrder.stable kept = (true, kept) := by decide
  exact allocateInPlace_assigns run

/-! ## Two lists of blocks -/

section Together

variable {a b : List MachineInstruction} {v : RegField}

lemma mentions_append {i : Nat} :
    Mentions (a ++ b) i v ↔ Mentions a i v ∨ ∃ j, i = a.length + j ∧ Mentions b j v := by
  constructor
  · rintro ⟨ne, mi, e, mem⟩
    obtain lt | le := Nat.lt_or_ge i a.length
    · rw [List.getElem?_append_left lt] at e
      exact .inl ⟨ne, mi, e, mem⟩
    · rw [List.getElem?_append_right le] at e
      exact .inr ⟨i - a.length, by omega, ne, mi, e, mem⟩
  · rintro (⟨ne, mi, e, mem⟩ | ⟨j, rfl, ne, mi, e, mem⟩)
    · refine ⟨ne, mi, ?_, mem⟩
      rw [List.getElem?_append_left (List.getElem?_eq_some_iff.mp e).1, e]
    · refine ⟨ne, mi, ?_, mem⟩
      rw [List.getElem?_append_right (Nat.le_add_right ..), Nat.add_sub_cancel_left, e]

lemma Mentions.lt {i : Nat} (h : Mentions a i v) : i < a.length := by
  obtain ⟨-, mi, e, -⟩ := h
  exact (List.getElem?_eq_some_iff.mp e).1

/-- In the first list, a register is in its joined range from its first mention on, if it is
mentioned again in either list. -/
def InJoinedFirst (a b : List MachineInstruction) (v : RegField) (i : Nat) : Prop :=
  (∃ j, j ≤ i ∧ Mentions a j v) ∧ ((∃ k, i ≤ k ∧ Mentions a k v) ∨ ∃ k, Mentions b k v)

/-- In the second list, up to its last mention, if it was mentioned before in either list. -/
def InJoinedSecond (a b : List MachineInstruction) (v : RegField) (i : Nat) : Prop :=
  (∃ k, i ≤ k ∧ Mentions b k v) ∧ ((∃ j, j ≤ i ∧ Mentions b j v) ∨ ∃ j, Mentions a j v)

lemma inRange_append_first {i : Nat} (lt : i < a.length) :
    InRange (a ++ b) v i ↔ InJoinedFirst a b v i := by
  constructor
  · rintro ⟨j, k, hj, hk, le, le'⟩
    obtain hj | ⟨j, rfl, hj⟩ := mentions_append.mp hj
    · refine ⟨⟨j, le, hj⟩, ?_⟩
      obtain hk | ⟨k', rfl, hk'⟩ := mentions_append.mp hk
      · exact .inl ⟨k, le', hk⟩
      · exact .inr ⟨k', hk'⟩
    · omega
  · rintro ⟨⟨j, le, hj⟩, ⟨k, le', hk⟩ | ⟨k, hk⟩⟩
    · exact ⟨j, k, mentions_append.mpr (.inl hj), mentions_append.mpr (.inl hk), le, le'⟩
    · exact ⟨j, a.length + k, mentions_append.mpr (.inl hj),
        mentions_append.mpr (.inr ⟨k, rfl, hk⟩), le, by omega⟩

lemma inRange_append_second {i : Nat} :
    InRange (a ++ b) v (a.length + i) ↔ InJoinedSecond a b v i := by
  constructor
  · rintro ⟨j, k, hj, hk, le, le'⟩
    obtain hk | ⟨k', rfl, hk'⟩ := mentions_append.mp hk
    · have := hk.lt
      omega
    · refine ⟨⟨k', by omega, hk'⟩, ?_⟩
      obtain hj | ⟨j', rfl, hj'⟩ := mentions_append.mp hj
      · exact .inr ⟨j, hj⟩
      · exact .inl ⟨j', by omega, hj'⟩
  · rintro ⟨⟨k, le, hk⟩, ⟨j, le', hj⟩ | ⟨j, hj⟩⟩
    · exact ⟨a.length + j, a.length + k, mentions_append.mpr (.inr ⟨j, rfl, hj⟩),
        mentions_append.mpr (.inr ⟨k, rfl, hk⟩), by omega, by omega⟩
    · have := hj.lt
      exact ⟨j, a.length + k, mentions_append.mpr (.inl hj),
        mentions_append.mpr (.inr ⟨k, rfl, hk⟩), by omega, by omega⟩

/-- Some instruction of either list is in the joined ranges of at least 32 registers. -/
def CrowdedTogether (a b : List MachineInstruction) : Prop :=
  (∃ (i : Nat) (vs : List RegField), i < a.length ∧ vs.Nodup ∧ numPhysicalRegs ≤ vs.length ∧
      ∀ v ∈ vs, InJoinedFirst a b v i) ∨
    ∃ (i : Nat) (vs : List RegField), vs.Nodup ∧ numPhysicalRegs ≤ vs.length ∧
      ∀ v ∈ vs, InJoinedSecond a b v i

lemma crowded_append : Crowded (a ++ b) ↔ CrowdedTogether a b := by
  constructor
  · rintro ⟨i, vs, nodup, many, inRange⟩
    obtain lt | le := Nat.lt_or_ge i a.length
    · exact .inl ⟨i, vs, lt, nodup, many, fun v hv => (inRange_append_first lt).mp (inRange v hv)⟩
    · obtain ⟨j, rfl⟩ := Nat.exists_eq_add_of_le le
      exact .inr ⟨j, vs, nodup, many, fun v hv => inRange_append_second.mp (inRange v hv)⟩
  · rintro (⟨i, vs, lt, nodup, many, joined⟩ | ⟨i, vs, nodup, many, joined⟩)
    · exact ⟨i, vs, nodup, many, fun v hv => (inRange_append_first lt).mpr (joined v hv)⟩
    · exact ⟨a.length + i, vs, nodup, many, fun v hv => inRange_append_second.mpr (joined v hv)⟩

end Together

end FpgaGpu

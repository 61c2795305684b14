import FpgaGpu.Alloc.RegisterAllocator

/-!
# Ranges that meet get different registers

The linear scan gives two registers whose ranges share an instruction different physical registers,
whatever order it meets intervals of equal birth and death in.
-/

namespace FpgaGpu

/-! ## Ranges of a code list -/

section Ranges

variable {Reg : Type} [Zero Reg]

/-- The instruction `i` has the register `v` in one of its fields. -/
def Mentions (code : List (Instruction Reg)) (i : Nat) (v : Reg) : Prop :=
  v ≠ 0 ∧ ∃ mi, code[i]? = some mi ∧ v ∈ mi.fields

/-- The instruction `i` is between two mentions of `v`. -/
def InRange (code : List (Instruction Reg)) (v : Reg) (i : Nat) : Prop :=
  ∃ j k, Mentions code j v ∧ Mentions code k v ∧ j ≤ i ∧ i ≤ k

/-- The ranges of two registers share an instruction. -/
def Interferes (code : List (Instruction Reg)) (v w : Reg) : Prop :=
  ∃ i, InRange code v i ∧ InRange code w i

lemma Interferes.symm {code : List (Instruction Reg)} {v w : Reg} (h : Interferes code v w) :
    Interferes code w v := by
  obtain ⟨i, hv, hw⟩ := h
  exact ⟨i, hw, hv⟩

lemma Mentions.inRange {code : List (Instruction Reg)} {v : Reg} {i : Nat}
    (h : Mentions code i v) : InRange code v i :=
  ⟨i, i, h, h, Nat.le_refl i, Nat.le_refl i⟩

end Ranges

/-! ## Step 1 -/

/-- The intervals record what `M` mentions. -/
structure Records (M : Nat → RegField → Prop) (intervals : List Interval) : Prop where
  nodup : (intervals.map Prod.fst).Nodup
  sound : ∀ v r, (v, r) ∈ intervals → M r.birth v ∧ M r.death v
  covers : ∀ i v, M i v → ∃ r, (v, r) ∈ intervals ∧ r.birth ≤ i ∧ i ≤ r.death

/-- No other register is added. -/
lemma fst_extend {idx : Nat} {v u : RegField} {l : List Interval}
    (h : u ∈ (extend idx v l).map Prod.fst) : u = v ∨ u ∈ l.map Prod.fst := by
  induction l with
  | nil => simpa [extend] using h
  | cons a l ih =>
    rw [extend] at h
    split at h
    · exact .inr h
    · rw [List.map_cons, List.mem_cons] at h ⊢
      obtain rfl | h := h
      · exact .inr (.inl rfl)
      · exact (ih h).imp_right .inr

/-- A register is added once. -/
lemma nodup_extend {idx : Nat} {v : RegField} {l : List Interval} (h : (l.map Prod.fst).Nodup) :
    ((extend idx v l).map Prod.fst).Nodup := by
  induction l with
  | nil => simp [extend]
  | cons a l ih =>
    rw [List.map_cons, List.nodup_cons] at h
    rw [extend]
    split
    · exact List.nodup_cons.mpr h
    · next ne =>
      refine List.nodup_cons.mpr ⟨fun mem => ?_, ih h.2⟩
      obtain e | mem := fst_extend mem
      · exact ne e
      · exact h.1 mem

/-- The ends of a range are old ones, or the new index. -/
lemma sound_extend {idx : Nat} {v : RegField} {M : Nat → RegField → Prop} {l : List Interval}
    (h : ∀ u r, (u, r) ∈ l → M r.birth u ∧ M r.death u) (hv : M idx v) :
    ∀ u r, (u, r) ∈ extend idx v l → M r.birth u ∧ M r.death u := by
  induction l with
  | nil =>
    intro u r mem
    obtain ⟨rfl, rfl⟩ := Prod.mk.inj (List.mem_singleton.mp mem)
    exact ⟨hv, hv⟩
  | cons a l ih =>
    obtain ⟨w, range⟩ := a
    have head := h w range List.mem_cons_self
    intro u r mem
    rw [extend] at mem
    split at mem
    · next e =>
      subst e
      obtain e | mem := List.mem_cons.mp mem
      · obtain ⟨rfl, rfl⟩ := Prod.mk.inj e
        refine ⟨?_, ?_⟩
        · obtain e | e := Nat.le_total range.birth idx
          · simpa [e] using head.1
          · simpa [e] using hv
        · obtain e | e := Nat.le_total range.death idx
          · simpa [e] using hv
          · simpa [e] using head.2
      · exact h u r (List.mem_cons_of_mem _ mem)
    · obtain e | mem := List.mem_cons.mp mem
      · obtain ⟨rfl, rfl⟩ := Prod.mk.inj e
        exact head
      · exact ih (fun u r m => h u r (List.mem_cons_of_mem _ m)) u r mem

/-- The range of the register holds the new index. -/
lemma self_mem_extend (idx : Nat) (v : RegField) (l : List Interval) :
    ∃ r, (v, r) ∈ extend idx v l ∧ r.birth ≤ idx ∧ idx ≤ r.death := by
  induction l with
  | nil => exact ⟨_, List.mem_singleton.mpr rfl, Nat.le_refl _, Nat.le_refl _⟩
  | cons a l ih =>
    rw [extend]
    split
    · next e =>
      subst e
      exact ⟨_, List.mem_cons_self, Nat.min_le_right .., Nat.le_max_right ..⟩
    · obtain ⟨r, mem, le⟩ := ih
      exact ⟨r, List.mem_cons_of_mem _ mem, le⟩

/-- Ranges only grow. -/
lemma mem_extend {idx : Nat} {v u : RegField} {r : LiveRange} {l : List Interval}
    (h : (u, r) ∈ l) :
    ∃ r', (u, r') ∈ extend idx v l ∧ r'.birth ≤ r.birth ∧ r.death ≤ r'.death := by
  induction l with
  | nil => cases h
  | cons a l ih =>
    obtain ⟨w, range⟩ := a
    rw [extend]
    obtain e | h := List.mem_cons.mp h
    · obtain ⟨rfl, rfl⟩ := Prod.mk.inj e
      split
      · exact ⟨_, List.mem_cons_self, Nat.min_le_left .., Nat.le_max_left ..⟩
      · exact ⟨r, List.mem_cons_self, Nat.le_refl _, Nat.le_refl _⟩
    · split
      · exact ⟨r, List.mem_cons_of_mem _ h, Nat.le_refl _, Nat.le_refl _⟩
      · obtain ⟨r', mem, le⟩ := ih h
        exact ⟨r', List.mem_cons_of_mem _ mem, le⟩

/-- One use. -/
lemma Records.recordUse {M : Nat → RegField → Prop} {intervals : List Interval}
    (records : Records M intervals) (idx : Nat) (v : RegField) :
    Records (fun i u => M i u ∨ (i = idx ∧ u = v ∧ v ≠ 0)) (recordUse idx intervals v) := by
  unfold FpgaGpu.recordUse
  split
  · next zero => simpa [zero] using records
  · next ne =>
    refine ⟨nodup_extend records.nodup, ?_, ?_⟩
    · exact sound_extend (M := fun i u => M i u ∨ (i = idx ∧ u = v ∧ v ≠ 0))
        (fun u r mem => (records.sound u r mem).imp .inl .inl) (.inr ⟨rfl, rfl, ne⟩)
    · rintro i u (old | ⟨rfl, rfl, -⟩)
      · obtain ⟨r, mem, le⟩ := records.covers i u old
        obtain ⟨r', mem', le'⟩ : ∃ r', (u, r') ∈ extend idx v intervals ∧ _ := mem_extend mem
        exact ⟨r', mem', by omega, by omega⟩
      · exact self_mem_extend i u intervals

/-- The uses of one instruction. -/
lemma Records.uses {M : Nat → RegField → Prop} {intervals : List Interval}
    (records : Records M intervals) (idx : Nat) (vs : List RegField) :
    Records (fun i u => M i u ∨ (i = idx ∧ u ∈ vs ∧ u ≠ 0))
      (vs.foldl (FpgaGpu.recordUse idx) intervals) := by
  induction vs generalizing M intervals with
  | nil => simpa using records
  | cons v vs ih =>
    have := ih (records.recordUse idx v)
    refine (iff_of_eq (congrArg (Records · _) ?_)).mp this
    funext i u
    simp only [List.mem_cons, eq_iff_iff]
    by_cases e : u = v
    · subst e
      tauto
    · tauto

/-- All uses. -/
lemma Records.liveRanges {M : Nat → RegField → Prop} {intervals : List Interval}
    (records : Records M intervals) (idx : Nat) (code : List MachineInstruction) :
    Records (fun i v => M i v ∨ (idx ≤ i ∧ Mentions code (i - idx) v))
      (liveRanges idx intervals code) := by
  induction code generalizing M intervals idx with
  | nil => simpa [FpgaGpu.liveRanges, Mentions] using records
  | cons mi code ih =>
    have := ih (records.uses idx mi.fields) (idx + 1)
    refine (iff_of_eq (congrArg (Records · _) ?_)).mp this
    funext i v
    rw [eq_iff_iff, or_assoc]
    refine or_congr_right ?_
    obtain lt | rfl | gt := Nat.lt_trichotomy i idx
    · constructor
      · rintro (⟨rfl, -⟩ | ⟨le, -⟩) <;> omega
      · rintro ⟨le, -⟩
        omega
    · simp [Mentions, and_comm]
    · have shift : i - idx = i - (idx + 1) + 1 := by omega
      simp only [Mentions, shift, List.getElem?_cons_succ]
      constructor
      · rintro (⟨rfl, -⟩ | ⟨-, h⟩)
        · omega
        · exact ⟨by omega, h⟩
      · rintro ⟨-, h⟩
        exact .inr ⟨by omega, h⟩

/-- The intervals of step 1. -/
lemma records_liveRanges (code : List MachineInstruction) :
    Records (Mentions code) (FpgaGpu.liveRanges 0 [] code) := by
  have empty : Records (fun _ _ => False) [] := ⟨List.nodup_nil, by simp, by simp⟩
  simpa using empty.liveRanges 0 code

/-- The order of the intervals does not matter. -/
lemma Records.perm {M : Nat → RegField → Prop} {l l' : List Interval} (records : Records M l)
    (perm : l'.Perm l) : Records M l' := by
  refine ⟨(perm.map Prod.fst).nodup_iff.mpr records.nodup, fun v r mem => ?_, fun i v h => ?_⟩
  · exact records.sound v r (perm.mem_iff.mp mem)
  · obtain ⟨r, mem, le⟩ := records.covers i v h
    exact ⟨r, perm.mem_iff.mpr mem, le⟩

/-! ## Step 3 -/

/-- R1..R31. -/
def Allocatable (p : RegField) : Prop := 1 ≤ p.toNat ∧ p.toNat < numPhysicalRegs

@[simp] lemma mem_insertFree {p q : RegField} {pool : List RegField} :
    q ∈ insertFree p pool ↔ q = p ∨ q ∈ pool := by
  unfold insertFree
  split
  · next mem =>
    constructor
    · exact .inr
    · rintro (rfl | h)
      · exact mem
      · exact h
  · exact List.mem_orderedInsert _

lemma nodup_insertFree {p : RegField} {pool : List RegField} (h : pool.Nodup) :
    (insertFree p pool).Nodup := by
  unfold insertFree
  split
  · exact h
  · next off => exact ((List.perm_orderedInsert _ p pool).nodup_iff).mpr (h.cons off)

/-- Expiring keeps the intervals that reach `birth` and frees the registers of the others. -/
lemma expire_spec (f : RegField → RegField) (birth : Nat) (active : List (Nat × RegField))
    (pool : List RegField) :
    (∀ a, a ∈ (expire f birth active pool).1 ↔ a ∈ active ∧ birth ≤ a.1) ∧
      (∀ p, p ∈ (expire f birth active pool).2 ↔
        p ∈ pool ∨ ∃ a ∈ active, a.1 < birth ∧ p = f a.2) ∧
      (pool.Nodup → (expire f birth active pool).2.Nodup) := by
  induction active generalizing pool with
  | nil => simp [expire]
  | cons a active ih =>
    obtain ⟨death, vreg⟩ := a
    rw [expire]
    split
    · next lt =>
      obtain ⟨kept, free, nodup⟩ := ih (insertFree (f vreg) pool)
      refine ⟨fun a => ?_, fun p => ?_, fun h => nodup (nodup_insertFree h)⟩
      · rw [kept, List.mem_cons]
        constructor
        · exact fun h => ⟨.inr h.1, h.2⟩
        · rintro ⟨rfl | h, le⟩
          · exact absurd lt (Nat.not_lt.mpr le)
          · exact ⟨h, le⟩
      · rw [free, mem_insertFree]
        simp only [List.mem_cons, exists_eq_or_imp, lt, true_and]
        tauto
    · next ge =>
      obtain ⟨kept, free, nodup⟩ := ih pool
      refine ⟨fun a => ?_, fun p => ?_, nodup⟩
      · rw [List.mem_cons, kept, List.mem_cons]
        constructor
        · rintro (rfl | h)
          · exact ⟨.inl rfl, Nat.not_lt.mp ge⟩
          · exact ⟨.inr h.1, h.2⟩
        · rintro ⟨rfl | h, le⟩
          · exact .inl rfl
          · exact .inr ⟨h, le⟩
      · rw [free]
        simp only [List.mem_cons, exists_eq_or_imp, ge, false_and, false_or]

/-- The state of the scan after the intervals `done`. -/
structure ScanInv (done : List Interval) (st : Scan) : Prop where
  poolNodup : st.freePool.Nodup
  poolRange : ∀ p ∈ st.freePool, Allocatable p
  range : ∀ v r, (v, r) ∈ done → Allocatable (st.vregToPhys v)
  active_done : ∀ d v, (d, v) ∈ st.active → ∃ r, (v, r) ∈ done ∧ r.death = d
  -- an interval is active until one is met that is born after it
  done_active : ∀ v r, (v, r) ∈ done → (r.death, v) ∈ st.active ∨
    ∃ w s, (w, s) ∈ done ∧ r.death < s.birth
  notFree : ∀ d v, (d, v) ∈ st.active → st.vregToPhys v ∉ st.freePool
  distinct : ∀ d v e w, (d, v) ∈ st.active → (e, w) ∈ st.active → v ≠ w →
    st.vregToPhys v ≠ st.vregToPhys w
  separate : ∀ v r w s, (v, r) ∈ done → (w, s) ∈ done → v ≠ w → r.birth ≤ s.death →
    s.birth ≤ r.death → st.vregToPhys v ≠ st.vregToPhys w

/-- Before the first interval. -/
lemma ScanInv.start : ScanInv [] Scan.start := by
  refine ⟨by decide, ?_, by simp, by simp [Scan.start], by simp, by simp [Scan.start],
    by simp [Scan.start], by simp⟩
  unfold Allocatable
  decide

/-- A register has one interval. -/
lemma interval_unique {done : List Interval} (nodup : (done.map Prod.fst).Nodup) {v : RegField}
    {r s : LiveRange} (hr : (v, r) ∈ done) (hs : (v, s) ∈ done) : r = s :=
  congrArg Prod.snd (List.inj_on_of_nodup_map nodup hr hs rfl)

/-- The registers of the intervals that stay active are not free after expiring. -/
lemma ScanInv.busy {done : List Interval} {st : Scan} (inv : ScanInv done st)
    (nodup : (done.map Prod.fst).Nodup) {birth d : Nat} {w : RegField}
    (active : (d, w) ∈ st.active) (le : birth ≤ d) :
    st.vregToPhys w ∉ (expire st.vregToPhys birth st.active st.freePool).2 := by
  intro mem
  obtain old | ⟨⟨e, u⟩, active', lt, eq⟩ := ((expire_spec _ _ _ _).2.1 _).mp mem
  · exact inv.notFree d w active old
  · by_cases same : w = u
    · subst same
      obtain ⟨r, hr, rfl⟩ := inv.active_done d w active
      obtain ⟨s, hs, rfl⟩ := inv.active_done e w active'
      obtain rfl := interval_unique nodup hr hs
      exact absurd lt (Nat.not_lt.mpr le)
    · exact inv.distinct d w e u active active' same eq

/-- The scan after the intervals `done`, when those that end before `birth` have expired: an
interval that is active keeps its register, and one that reaches `birth` is active. -/
structure Expired (done : List Interval) (birth : Nat) (vregToPhys : RegField → RegField)
    (active : List (Nat × RegField)) (pool : List RegField) : Prop where
  poolNodup : pool.Nodup
  poolRange : ∀ p ∈ pool, Allocatable p
  active_done : ∀ d v, (d, v) ∈ active → ∃ r, (v, r) ∈ done ∧ r.death = d ∧ birth ≤ d
  notFree : ∀ d v, (d, v) ∈ active → vregToPhys v ∉ pool
  distinct : ∀ d v e w, (d, v) ∈ active → (e, w) ∈ active → v ≠ w → vregToPhys v ≠ vregToPhys w
  reaches : ∀ v r, (v, r) ∈ done → birth ≤ r.death → (r.death, v) ∈ active

/-- Expiring before an interval that is born after the others. -/
lemma ScanInv.expired {done : List Interval} {st : Scan} {birth : Nat} (inv : ScanInv done st)
    (nodup : (done.map Prod.fst).Nodup) (sorted : ∀ w s, (w, s) ∈ done → s.birth ≤ birth) :
    Expired done birth st.vregToPhys (expire st.vregToPhys birth st.active st.freePool).1
      (expire st.vregToPhys birth st.active st.freePool).2 := by
  obtain ⟨kept, free, poolNodup⟩ := expire_spec st.vregToPhys birth st.active st.freePool
  refine ⟨poolNodup inv.poolNodup, fun p hp => ?_, fun d v mem => ?_, fun d v mem => ?_,
    fun d v e w hv hw => ?_, fun v r mem le => ?_⟩
  · obtain old | ⟨a, ha, -, rfl⟩ := (free p).mp hp
    · exact inv.poolRange p old
    · obtain ⟨r, mem, -⟩ := inv.active_done a.1 a.2 ha
      exact inv.range a.2 r mem
  · obtain ⟨active, le⟩ := (kept _).mp mem
    obtain ⟨r, mem, e⟩ := inv.active_done d v active
    exact ⟨r, mem, e, le⟩
  · obtain ⟨active, le⟩ := (kept _).mp mem
    exact inv.busy nodup active le
  · exact inv.distinct d v e w ((kept _).mp hv).1 ((kept _).mp hw).1
  · obtain active | ⟨u, t, mem', lt⟩ := inv.done_active v r mem
    · exact (kept _).mpr ⟨active, le⟩
    · have := sorted u t mem'
      omega

/-- An interval takes a free register. -/
lemma ScanInv.take {done : List Interval} {st : Scan} {v phys : RegField} {range : LiveRange}
    {active : List (Nat × RegField)} {pool : List RegField} (inv : ScanInv done st)
    (expired : Expired done range.birth st.vregToPhys active (phys :: pool))
    (new : ∀ w s, (w, s) ∈ done → w ≠ v) :
    ScanInv (done ++ [(v, range)])
      { vregToPhys := Function.update st.vregToPhys v phys
        active := active ++ [(range.death, v)]
        freePool := pool } := by
  obtain ⟨off, poolNodup⟩ := List.nodup_cons.mp expired.poolNodup
  have self : Function.update st.vregToPhys v phys v = phys := Function.update_self ..
  have stays : ∀ {w s}, (w, s) ∈ done → Function.update st.vregToPhys v phys w = st.vregToPhys w :=
    fun mem => Function.update_of_ne (new _ _ mem) _ _
  -- an interval that is still active does not have the register that was free
  have meets : ∀ w s, (w, s) ∈ done → range.birth ≤ s.death →
      Function.update st.vregToPhys v phys w ≠ phys := by
    intro w s mem le eq
    rw [stays mem] at eq
    exact expired.notFree _ w (expired.reaches w s mem le) (eq ▸ List.mem_cons_self)
  refine ⟨poolNodup, fun p hp =>
    expired.poolRange p (List.mem_cons_of_mem _ hp), ?_, ?_, ?_, ?_, ?_,
    ?_⟩ <;> dsimp only
  · intro u r mem
    obtain old | new := List.mem_append.mp mem
    · rw [stays old]
      exact inv.range u r old
    · obtain ⟨rfl, rfl⟩ := Prod.mk.inj (List.mem_singleton.mp new)
      rw [self]
      exact expired.poolRange phys List.mem_cons_self
  · intro d w mem
    obtain old | new := List.mem_append.mp mem
    · obtain ⟨r, mem, e, -⟩ := expired.active_done d w old
      exact ⟨r, List.mem_append_left _ mem, e⟩
    · obtain ⟨rfl, rfl⟩ := Prod.mk.inj (List.mem_singleton.mp new)
      exact ⟨range, by simp, rfl⟩
  · intro u r mem
    obtain old | new := List.mem_append.mp mem
    · obtain lt | le := Nat.lt_or_ge r.death range.birth
      · exact .inr ⟨v, range, by simp, lt⟩
      · exact .inl (List.mem_append_left _ (expired.reaches u r old le))
    · obtain ⟨rfl, rfl⟩ := Prod.mk.inj (List.mem_singleton.mp new)
      exact .inl (by simp)
  · intro d w mem
    obtain old | new := List.mem_append.mp mem
    · obtain ⟨r, hr, -⟩ := expired.active_done d w old
      rw [stays hr]
      exact fun h => expired.notFree d w old (List.mem_cons_of_mem _ h)
    · obtain ⟨rfl, rfl⟩ := Prod.mk.inj (List.mem_singleton.mp new)
      rwa [self]
  · intro d u e w hu hw differ
    obtain oldU | newU := List.mem_append.mp hu <;> obtain oldW | newW := List.mem_append.mp hw
    · obtain ⟨r, hr, -⟩ := expired.active_done d u oldU
      obtain ⟨s, hs, -⟩ := expired.active_done e w oldW
      rw [stays hr, stays hs]
      exact expired.distinct d u e w oldU oldW differ
    · obtain ⟨rfl, rfl⟩ := Prod.mk.inj (List.mem_singleton.mp newW)
      obtain ⟨r, hr, rfl, le⟩ := expired.active_done d u oldU
      rw [self]
      exact meets u r hr le
    · obtain ⟨rfl, rfl⟩ := Prod.mk.inj (List.mem_singleton.mp newU)
      obtain ⟨s, hs, rfl, le⟩ := expired.active_done e w oldW
      rw [self]
      exact (meets w s hs le).symm
    · obtain ⟨-, rfl⟩ := Prod.mk.inj (List.mem_singleton.mp newU)
      obtain ⟨-, rfl⟩ := Prod.mk.inj (List.mem_singleton.mp newW)
      exact absurd rfl differ
  · intro u r w s hu hw differ le le'
    obtain oldU | newU := List.mem_append.mp hu <;> obtain oldW | newW := List.mem_append.mp hw
    · rw [stays oldU, stays oldW]
      exact inv.separate u r w s oldU oldW differ le le'
    · obtain ⟨rfl, rfl⟩ := Prod.mk.inj (List.mem_singleton.mp newW)
      rw [self]
      exact meets u r oldU le'
    · obtain ⟨rfl, rfl⟩ := Prod.mk.inj (List.mem_singleton.mp newU)
      rw [self]
      exact (meets w s oldW le).symm
    · obtain ⟨rfl, -⟩ := Prod.mk.inj (List.mem_singleton.mp newU)
      obtain ⟨rfl, -⟩ := Prod.mk.inj (List.mem_singleton.mp newW)
      exact absurd rfl differ

/-- One interval. -/
lemma ScanInv.step {done : List Interval} {st st' : Scan} {v : RegField} {range : LiveRange}
    (inv : ScanInv done st) (nodup : ((done ++ [(v, range)]).map Prod.fst).Nodup)
    (sorted : ∀ w s, (w, s) ∈ done → s.birth ≤ range.birth)
    (step : scanStep st (v, range) = some st') : ScanInv (done ++ [(v, range)]) st' := by
  rw [List.map_append] at nodup
  obtain ⟨old, -, apart⟩ := List.nodup_append.mp nodup
  have new : ∀ w s, (w, s) ∈ done → w ≠ v := by
    rintro w s mem rfl
    exact apart w (List.mem_map_of_mem mem) w (by simp) rfl
  have expired := inv.expired old sorted
  simp only [scanStep] at step
  split at step
  · cases step
  · next phys pool free =>
    obtain rfl := Option.some.inj step
    rw [free] at expired
    exact inv.take expired new

/-- Sorted intervals are born in order. -/
lemma birth_le_of_sorted {done rest : List Interval} {v : RegField} {range : LiveRange}
    (sorted : (done ++ (v, range) :: rest).Pairwise fun a b => ¬ Earlier b a) {w : RegField}
    {s : LiveRange} (mem : (w, s) ∈ done) : s.birth ≤ range.birth := by
  have late := (List.pairwise_append.mp sorted).2.2 (w, s) mem (v, range) List.mem_cons_self
  by_contra lt
  refine late ?_
  simp only [Earlier]
  rw [if_pos (by omega)]
  omega

/-- All intervals. -/
lemma ScanInv.linearScan {done rest : List Interval} {st st' : Scan} (inv : ScanInv done st)
    (nodup : ((done ++ rest).map Prod.fst).Nodup)
    (sorted : (done ++ rest).Pairwise fun a b => ¬ Earlier b a)
    (run : linearScan rest st = some st') : ScanInv (done ++ rest) st' := by
  induction rest generalizing done st with
  | nil =>
    obtain rfl := Option.some.inj run
    simpa using inv
  | cons interval rest ih =>
    obtain ⟨st₁, step, run⟩ := Option.bind_eq_some_iff.mp run
    have head : ∀ w s, (w, s) ∈ done → s.birth ≤ interval.2.birth := fun w s mem =>
      birth_le_of_sorted sorted mem
    rw [List.append_cons] at nodup sorted ⊢
    refine ih (inv.step ?_ head step) nodup sorted run
    rw [List.map_append] at nodup
    exact (List.nodup_append.mp nodup).1

/-- What a successful allocation gives: one register for each register, R0 for R0 only, and
different ones where ranges meet. -/
structure Allocation (code : List MachineInstruction) (φ : RegField → RegField) : Prop where
  zero : φ 0 = 0
  range : ∀ i v, Mentions code i v → Allocatable (φ v)
  separate : ∀ v w, v ≠ w → Interferes code v w → φ v ≠ φ w

/-- The map of a successful scan. -/
lemma allocation_of_scan {order : SortOrder} {blocks : List BasicBlockCode} {st : Scan}
    (run : linearScan (order.sort (liveRanges 0 [] (layout blocks))) Scan.start = some st) :
    Allocation (layout blocks) (assign st.vregToPhys) := by
  have records := (records_liveRanges (layout blocks)).perm (order.perm _)
  have inv := ScanInv.start.linearScan (by simpa using records.nodup)
    (by simpa using order.sorted _) run
  rw [List.nil_append] at inv
  have on : ∀ {i v}, Mentions (layout blocks) i v → assign st.vregToPhys v = st.vregToPhys v :=
    fun mention => if_neg mention.1
  refine ⟨if_pos rfl, fun i v mention => ?_, fun v w ne meet => ?_⟩
  · obtain ⟨r, mem, -⟩ := records.covers i v mention
    rw [on mention]
    exact inv.range v r mem
  · obtain ⟨i, ⟨j, k, hj, hk, le, le'⟩, ⟨j', k', hj', hk', le₁, le₂⟩⟩ := meet
    obtain ⟨r, mem, birth, death⟩ := records.covers j v hj
    obtain ⟨r₁, mem₁, birth₁, death₁⟩ := records.covers k v hk
    obtain ⟨s, mem', birth', death'⟩ := records.covers j' w hj'
    obtain ⟨s₁, mem₁', birth₁', death₁'⟩ := records.covers k' w hk'
    obtain rfl := interval_unique records.nodup mem mem₁
    obtain rfl := interval_unique records.nodup mem' mem₁'
    rw [on hj, on hj']
    exact inv.separate v r w s mem mem' ne (by omega) (by omega)

/-- The specification of `allocate`. -/
theorem allocate_spec {order : SortOrder} {blocks blocks' : List BasicBlockCode}
    (h : allocate order blocks = some blocks') :
    ∃ φ, blocks' = blocks.map (BlockCode.mapRegs φ) ∧ Allocation (layout blocks) φ := by
  obtain ⟨st, run, e⟩ := Option.bind_eq_some_iff.mp h
  exact ⟨assign st.vregToPhys, (Option.some.inj e).symm, allocation_of_scan run⟩

end FpgaGpu

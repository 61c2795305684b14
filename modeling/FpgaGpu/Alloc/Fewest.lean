import FpgaGpu.Alloc.Loops
import FpgaGpu.Alloc.Pressure

/-!
# The fewest registers

The scan takes the smallest free register for each interval. A register is passed over only while an
interval that has begun holds it, so that the number of the register an interval gets is at most the
number of the ranges that share its first instruction. No assignment that keeps these apart has
fewer registers.
-/

namespace FpgaGpu

/-! ## The pool is sorted -/

lemma sorted_insertFree {p : RegField} {pool : List RegField} (h : pool.Pairwise (· ≤ ·)) :
    (insertFree p pool).Pairwise (· ≤ ·) := by
  unfold insertFree
  split
  · exact h
  · exact h.orderedInsert p pool

lemma sorted_expire (f : RegField → RegField) (birth : Nat) (active : List (Nat × RegField))
    {pool : List RegField} (h : pool.Pairwise (· ≤ ·)) :
    (expire f birth active pool).2.Pairwise (· ≤ ·) := by
  induction active generalizing pool with
  | nil => exact h
  | cons a active ih =>
    obtain ⟨death, vreg⟩ := a
    rw [expire]
    split
    · exact ih (sorted_insertFree h)
    · exact ih h

/-! ## Ranges that meet -/

/-- The intervals `done` have as many registers that reach the birth of each one as its register
says. -/
def Tight (done : List Interval) (vregToPhys : RegField → RegField) : Prop :=
  ∀ v r, (v, r) ∈ done → ∃ ws : List RegField, ws.Nodup ∧ ws.length = (vregToPhys v).toNat ∧
    ∀ w ∈ ws, ∃ s, (w, s) ∈ done ∧ s.birth ≤ r.birth ∧ r.birth ≤ s.death

/-- Each register that is not free is held by an interval that reaches this birth. -/
lemma ScanInv.holders {done : List Interval} {st : Scan} {v : RegField} {range : LiveRange}
    (inv : ScanInv done st) (complete : st.Complete) (new : v ∉ done.map Prod.fst)
    (sorted : ∀ w s, (w, s) ∈ done → s.birth ≤ range.birth) (ps : List RegField) (nodup : ps.Nodup)
    (taken : ∀ p ∈ ps, Allocatable p ∧
      p ∉ (expire st.vregToPhys range.birth st.active st.freePool).2) :
    ∃ ws : List RegField, (v :: ws).Nodup ∧ ws.length = ps.length ∧
      ∀ w ∈ ws, ∃ r, (w, r) ∈ done ∧ r.birth ≤ range.birth ∧ range.birth ≤ r.death := by
  have kept := (expire_spec st.vregToPhys range.birth st.active st.freePool).1
  have holder : ∀ p ∈ ps, ∃ w, st.vregToPhys w = p ∧
      ∃ r, (w, r) ∈ done ∧ r.birth ≤ range.birth ∧ range.birth ≤ r.death := by
    intro p mem
    obtain ⟨allocatable, busy⟩ := taken p mem
    obtain ⟨d, w, hw, rfl⟩ := (complete.expire range.birth allocatable).resolve_left busy
    obtain ⟨active, le⟩ := (kept _).mp hw
    obtain ⟨r, mem, rfl⟩ := inv.active_done d w active
    exact ⟨w, rfl, r, mem, sorted w r mem, le⟩
  choose! w phys reach using holder
  refine ⟨ps.map w, List.nodup_cons.mpr ⟨fun mem => ?_, ?_⟩, List.length_map .., fun u mem => ?_⟩
  · obtain ⟨p, hp, rfl⟩ := List.mem_map.mp mem
    obtain ⟨r, mem, -⟩ := reach p hp
    exact new (List.mem_map_of_mem mem)
  · refine List.Nodup.map_on (fun p hp q hq same => ?_) nodup
    rw [← phys p hp, ← phys q hq, same]
  · obtain ⟨p, hp, rfl⟩ := List.mem_map.mp mem
    exact reach p hp

/-- The registers below a register of the pool that is the smallest one. -/
lemma below_taken {phys : RegField} {pool : List RegField}
    (sorted : (phys :: pool).Pairwise (· ≤ ·)) (range : Allocatable phys) :
    ∃ ps : List RegField, ps.Nodup ∧ ps.length + 1 = phys.toNat ∧
      ∀ p ∈ ps, Allocatable p ∧ p ∉ phys :: pool := by
  obtain ⟨le, lt⟩ := range
  have small : ∀ n ∈ List.range' 1 (phys.toNat - 1), (BitVec.ofNat 8 n).toNat = n := by
    intro n mem
    have := List.mem_range'_1.mp mem
    unfold numPhysicalRegs at lt
    exact (BitVec.toNat_ofNat ..).trans (Nat.mod_eq_of_lt (by omega))
  refine ⟨(List.range' 1 (phys.toNat - 1)).map (BitVec.ofNat 8), ?_, ?_, fun p mem => ?_⟩
  · refine List.Nodup.map_on (fun n hn m hm same => ?_) List.nodup_range'
    rw [← small n hn, ← small m hm, same]
  · rw [List.length_map, List.length_range']
    omega
  · obtain ⟨n, hn, rfl⟩ := List.mem_map.mp mem
    have inside := List.mem_range'_1.mp hn
    refine ⟨⟨by rw [small n hn]; omega, by rw [small n hn]; omega⟩, fun free => ?_⟩
    have least : phys ≤ BitVec.ofNat 8 n := by
      obtain same | mem := List.mem_cons.mp free
      · exact same ▸ BitVec.le_refl _
      · exact (List.pairwise_cons.mp sorted).1 _ mem
    have := BitVec.le_def.mp least
    rw [small n hn] at this
    omega

/-- One interval. -/
lemma Tight.step {done : List Interval} {st st' : Scan} {v : RegField} {range : LiveRange}
    (tight : Tight done st.vregToPhys) (inv : ScanInv done st) (complete : st.Complete)
    (pool : st.freePool.Pairwise (· ≤ ·)) (nodup : (done.map Prod.fst).Nodup)
    (new : v ∉ done.map Prod.fst) (birth : range.birth ≤ range.death)
    (sorted : ∀ w s, (w, s) ∈ done → s.birth ≤ range.birth)
    (step : scanStep st (v, range) = some st') :
    Tight (done ++ [(v, range)]) st'.vregToPhys ∧ st'.freePool.Pairwise (· ≤ ·) := by
  have least := sorted_expire st.vregToPhys range.birth st.active pool
  have allocatable := (inv.expired nodup sorted).poolRange
  have holders := inv.holders complete new sorted
  simp only [scanStep] at step
  generalize (expire st.vregToPhys range.birth st.active st.freePool).2 = free
    at step least allocatable holders
  cases free with
  | nil => cases step
  | cons phys free =>
    obtain rfl := Option.some.inj step
    refine ⟨fun u r mem => ?_, (List.pairwise_cons.mp least).2⟩
    obtain old | new' := List.mem_append.mp mem
    · have ne : u ≠ v := by
        rintro rfl
        exact new (List.mem_map_of_mem old)
      obtain ⟨ws, distinct, many, reach⟩ := tight u r old
      refine ⟨ws, distinct, many.trans (congrArg BitVec.toNat (Function.update_of_ne ne ..).symm),
        fun w mem => ?_⟩
      obtain ⟨s, mem, meet⟩ := reach w mem
      exact ⟨s, List.mem_append_left _ mem, meet⟩
    · obtain ⟨rfl, rfl⟩ := Prod.mk.inj (List.mem_singleton.mp new')
      obtain ⟨ps, distinct, count, taken⟩ := below_taken least (allocatable phys List.mem_cons_self)
      obtain ⟨ws, distinct', many, reach⟩ := holders ps distinct taken
      refine ⟨u :: ws, distinct', ?_,
        List.forall_mem_cons.mpr ⟨⟨r, by simp, Nat.le_refl _, birth⟩, ?_⟩⟩
      · have gets : Function.update st.vregToPhys u phys u = phys := Function.update_self ..
        rw [List.length_cons, many, count]
        exact congrArg BitVec.toNat gets.symm
      · intro w mem
        obtain ⟨s, mem, meet⟩ := reach w mem
        exact ⟨s, List.mem_append_left _ mem, meet⟩

/-- All intervals. -/
lemma Tight.linearScan {done rest : List Interval} {st st' : Scan}
    (tight : Tight done st.vregToPhys) (inv : ScanInv done st) (complete : st.Complete)
    (pool : st.freePool.Pairwise (· ≤ ·)) (nodup : ((done ++ rest).map Prod.fst).Nodup)
    (births : ∀ v r, (v, r) ∈ rest → r.birth ≤ r.death)
    (sorted : (done ++ rest).Pairwise fun a b => ¬ Earlier b a)
    (run : FpgaGpu.linearScan rest st = some st') : Tight (done ++ rest) st'.vregToPhys := by
  induction rest generalizing done st with
  | nil =>
    obtain rfl := Option.some.inj run
    simpa using tight
  | cons interval rest ih =>
    obtain ⟨v, range⟩ := interval
    obtain ⟨st₁, step, run⟩ := Option.bind_eq_some_iff.mp run
    have head : ∀ w s, (w, s) ∈ done → s.birth ≤ range.birth := fun w s mem =>
      birth_le_of_sorted sorted mem
    have new : v ∉ done.map Prod.fst := by
      rw [List.map_append, List.map_cons] at nodup
      exact fun mem => (List.nodup_append.mp nodup).2.2 v mem v List.mem_cons_self rfl
    have inactive : ∀ d, (d, v) ∉ st.active := by
      intro d active
      obtain ⟨r, mem, -⟩ := inv.active_done d v active
      exact new (List.mem_map_of_mem mem)
    have old : (done.map Prod.fst).Nodup := by
      rw [List.map_append] at nodup
      exact (List.nodup_append.mp nodup).1
    obtain ⟨tight', pool'⟩ :=
      tight.step inv complete pool old new (births v range List.mem_cons_self) head step
    rw [List.append_cons] at nodup sorted ⊢
    have nodup' : ((done ++ [(v, range)]).map Prod.fst).Nodup := by
      rw [List.map_append] at nodup
      exact (List.nodup_append.mp nodup).1
    exact ih tight' (inv.step nodup' head step) (complete.step inactive step) pool' nodup
      (fun u r mem => births u r (List.mem_cons_of_mem _ mem)) sorted run

/-! ## Blocks -/

/-- The register that a register gets is no more than the number of ranges that share an
instruction. -/
lemma allocate_tight {order : SortOrder} {blocks blocks' : List BasicBlockCode}
    (run : allocate order blocks = some blocks') :
    ∃ φ, blocks' = blocks.map (BlockCode.mapRegs φ) ∧ φ 0 = 0 ∧
      ∀ i v, Mentions (layout blocks) i v → ∃ (k : Nat) (ws : List RegField), ws.Nodup ∧
        ws.length = (φ v).toNat ∧ ∀ w ∈ ws, InRange (layout blocks) w k := by
  obtain ⟨st, scan, e⟩ := Option.bind_eq_some_iff.mp run
  refine ⟨assign st.vregToPhys, (Option.some.inj e).symm, if_pos rfl, fun i v mention => ?_⟩
  have records := (records_liveRanges (layout blocks)).perm (order.perm _)
  have pool : Scan.start.freePool.Pairwise (· ≤ ·) := by decide
  have tight : Tight [] Scan.start.vregToPhys := by simp [Tight]
  have tight := tight.linearScan ScanInv.start Scan.complete_start pool
    (by simpa using records.nodup) (fun v r mem => ?_) (by simpa using order.sorted _) scan
  · rw [List.nil_append] at tight
    obtain ⟨r, mem, -⟩ := records.covers i v mention
    obtain ⟨ws, nodup, many, reach⟩ := tight v r mem
    refine ⟨r.birth, ws, nodup, many.trans (by rw [assign, if_neg mention.1]), fun w hw => ?_⟩
    obtain ⟨s, mem, le, le'⟩ := reach w hw
    obtain ⟨birth, death⟩ := records.sound w s mem
    exact ⟨s.birth, s.death, birth, death, le, le'⟩
  · obtain ⟨i, -⟩ := records.sound v r mem
    obtain ⟨r', mem', le, le'⟩ := records.covers _ v i
    obtain rfl := interval_unique records.nodup mem mem'
    omega

/-- The allocated blocks mention no register above R`k` if `k` colours keep the registers of the
blocks apart whose ranges share an instruction. -/
theorem allocate_fewest {order : SortOrder} {blocks blocks' : List BasicBlockCode}
    (run : allocate order blocks = some blocks') {κ : Type} (colours : Finset κ) (ψ : RegField → κ)
    (coloured : ∀ i v, Mentions (layout blocks) i v → ψ v ∈ colours)
    (apart : ∀ v w, v ≠ w → Interferes (layout blocks) v w → ψ v ≠ ψ w) (i : Nat) (p : RegField)
    (mention : Mentions (layout blocks') i p) : p.toNat ≤ colours.card := by
  obtain ⟨φ, rfl, zero, tight⟩ := allocate_tight run
  obtain ⟨ne, mi', at_i, mem⟩ := mention
  rw [layout_mapRegs, List.getElem?_map, Option.map_eq_some_iff] at at_i
  obtain ⟨mi, at_i, rfl⟩ := at_i
  obtain ⟨v, field, rfl⟩ : ∃ v ∈ mi.fields, φ v = p := by
    simpa [Instruction.fields, Instruction.mapRegs, eq_comm] using mem
  have nonzero : v ≠ 0 := by
    rintro rfl
    exact ne zero
  obtain ⟨k, ws, nodup, many, inRange⟩ := tight i v ⟨nonzero, mi, at_i, field⟩
  rw [← many, ← List.toFinset_card_of_nodup nodup]
  refine Finset.card_le_card_of_injOn ψ (fun w hw => ?_) fun w hw u hu same => ?_
  · obtain ⟨j, -, mention, -⟩ := inRange w (List.mem_toFinset.mp hw)
    exact coloured j w mention
  · by_contra differ
    exact apart w u differ ⟨k, inRange w (List.mem_toFinset.mp hw),
      inRange u (List.mem_toFinset.mp hu)⟩ same

/-- Two colours are enough for a loop, and the scan takes no more. -/
theorem allocate_fewest_rounds : ∃ blocks', allocate .stable rounds = some blocks' ∧
    ∀ i p, Mentions (layout blocks') i p → p.toNat ≤ ({1, 2} : Finset RegField).card := by
  obtain ⟨blocks', alloc⟩ : ∃ blocks', allocate .stable rounds = some blocks' :=
    Option.isSome_iff_exists.mp (by decide)
  refine ⟨blocks', alloc, fun i p => allocate_fewest alloc {1, 2} id (fun i v mention => ?_)
    (fun _ _ ne _ => ne) i p⟩
  obtain ⟨ne, mi, at_i, field⟩ := mention
  have named : ∀ mi ∈ layout rounds, ∀ v ∈ mi.fields, v ≠ 0 → v ∈ ({1, 2} : Finset RegField) := by
    decide
  exact named mi (List.mem_of_getElem? at_i) v field ne

end FpgaGpu

import FpgaGpu.Isel.Plan

/-!
# The registers of a selection

What the steps of a handler do to the registers given out, and what the instructions that they push
read and write. The register map only grows, gives each value its own register, and gives no value a
register that was taken for something else.
-/

namespace FpgaGpu

open Llvm (Value)

/-! ## States -/

/-- The register that stands for a value. -/
def Selector.regOf (st : Selector) (v : Value) : Option Nat :=
  if isZero v then some 0 else st.valueToVReg v

/-- The registers of a state are in use once. -/
structure Selector.Valid (st : Selector) : Prop where
  pos : 1 ≤ st.nextVReg
  range : ∀ {v r}, st.valueToVReg v = some r → 1 ≤ r ∧ r < st.nextVReg
  inj : ∀ {v w r}, st.valueToVReg v = some r → st.valueToVReg w = some r → v = w
  zero : ∀ {v}, isZero v = true → st.valueToVReg v = none

/-- A later state. -/
structure Grows (st st' : Selector) : Prop where
  next : st.nextVReg ≤ st'.nextVReg
  keeps : ∀ {v r}, st.valueToVReg v = some r → st'.valueToVReg v = some r
  new : ∀ {v r}, st'.valueToVReg v = some r → st.valueToVReg v = some r ∨ st.nextVReg ≤ r

/-- A register that was given out and stands for no value. -/
def Selector.Temp (st : Selector) (r : Nat) : Prop :=
  1 ≤ r ∧ r < st.nextVReg ∧ ∀ v, st.valueToVReg v ≠ some r

lemma Selector.valid_start : Selector.start.Valid :=
  ⟨Nat.le_refl 1, nofun, nofun, fun _ => rfl⟩

lemma Grows.refl (st : Selector) : Grows st st := ⟨Nat.le_refl _, id, .inl⟩

lemma Grows.trans {st st₁ st₂ : Selector} (h : Grows st st₁) (h' : Grows st₁ st₂) :
    Grows st st₂ := by
  refine ⟨h.next.trans h'.next, fun e => h'.keeps (h.keeps e), fun e => ?_⟩
  obtain e | le := h'.new e
  · exact h.new e
  · exact .inr (h.next.trans le)

lemma Grows.regOf {st st' : Selector} (h : Grows st st') {v : Value} {r : Nat}
    (e : st.regOf v = some r) : st'.regOf v = some r := by
  unfold Selector.regOf at *
  split at e
  · next zero => rwa [if_pos zero]
  · next nonzero =>
    rw [if_neg nonzero]
    exact h.keeps e

/-- The register of a value other than zero is not the hardware zero. -/
lemma Selector.Valid.pos_of_regOf {st : Selector} {v : Value} {r : Nat} (valid : st.Valid)
    (nonzero : isZero v = false) (e : st.regOf v = some r) : 1 ≤ r := by
  rw [Selector.regOf, if_neg (Bool.eq_false_iff.mp nonzero)] at e
  exact (valid.range e).1

lemma Grows.temp {st st' : Selector} (h : Grows st st') {r : Nat} (temp : st.Temp r) :
    st'.Temp r := by
  obtain ⟨pos, lt, none⟩ := temp
  refine ⟨pos, lt.trans_le h.next, fun v e => ?_⟩
  obtain e | le := h.new e
  · exact none v e
  · omega

/-- The state after a value got a new register. -/
def Selector.assign (st : Selector) (v : Value) : Selector where
  nextVReg := st.nextVReg + 1
  valueToVReg := Function.update st.valueToVReg v (some st.nextVReg)

@[simp] lemma Selector.assign_self (st : Selector) (v : Value) :
    (st.assign v).valueToVReg v = some st.nextVReg := Function.update_self ..

lemma Selector.assign_of_ne {st : Selector} {v w : Value} (h : w ≠ v) :
    (st.assign v).valueToVReg w = st.valueToVReg w := Function.update_of_ne h ..

lemma Selector.Valid.assign {st : Selector} (valid : st.Valid) {v : Value}
    (nonzero : isZero v = false) (new : st.valueToVReg v = none) :
    (st.assign v).Valid ∧ Grows st (st.assign v) := by
  have cases_of : ∀ {w r}, (st.assign v).valueToVReg w = some r →
      (w = v ∧ r = st.nextVReg) ∨ (w ≠ v ∧ st.valueToVReg w = some r) := by
    intro w r e
    by_cases same : w = v
    · subst same
      rw [Selector.assign_self] at e
      exact .inl ⟨rfl, (Option.some.inj e).symm⟩
    · exact .inr ⟨same, (Selector.assign_of_ne same).symm.trans e⟩
  refine ⟨⟨Nat.le_add_left .., fun e => ?_, fun e e' => ?_, fun {w} zero => ?_⟩,
    Nat.le_succ _, fun {w r} e => ?_, fun e => ?_⟩
  · have pos := valid.pos
    obtain ⟨rfl, rfl⟩ | ⟨-, e⟩ := cases_of e
    · exact ⟨pos, Nat.lt_succ_self _⟩
    · exact ⟨(valid.range e).1, Nat.lt_succ_of_lt (valid.range e).2⟩
  · obtain ⟨same, rfl⟩ | ⟨-, old⟩ := cases_of e <;> obtain ⟨same', e₁⟩ | ⟨-, old'⟩ := cases_of e'
    · exact same.trans same'.symm
    · exact absurd (valid.range old').2 (Nat.lt_irrefl _)
    · subst e₁
      exact absurd (valid.range old).2 (Nat.lt_irrefl _)
    · exact valid.inj old old'
  · have ne : w ≠ v := by
      rintro rfl
      rw [zero] at nonzero
      cases nonzero
    rw [Selector.assign_of_ne ne]
    exact valid.zero zero
  · have ne : w ≠ v := by
      rintro rfl
      rw [new] at e
      cases e
    rwa [Selector.assign_of_ne ne]
  · obtain ⟨-, rfl⟩ | ⟨-, e⟩ := cases_of e
    · exact .inr (Nat.le_refl _)
    · exact .inl e

/-! ## Lookups -/

/-- A constant modulo 2^32. -/
lemma setWidth_signExtend {w : Nat} (bits : BitVec w) :
    (bits.signExtend 64).setWidth 32 = BitVec.ofInt 32 bits.toInt := by
  show _ = bits.signExtend 32
  apply BitVec.eq_of_getLsbD_eq
  intro j lt
  have wide : j < 64 := by omega
  simp only [BitVec.getLsbD_setWidth, BitVec.getLsbD_signExtend, lt, wide,
    decide_true, Bool.true_and]

/-- What loads a value into its new register. -/
def loads (materialize : Bool) (r : Nat) : Value → List (Instruction Nat)
  | .constantInt _ bits => if materialize then [loadConstant r bits] else []
  | _ => []

lemma getOrCreateVReg_cases {ω : Type} {v : Value} {st st' : Selector} {r : Nat} {out : List ω}
    (h : getOrCreateVReg v st = some (r, out, st')) :
    out = [] ∧ ((isZero v = true ∧ r = 0 ∧ st' = st) ∨
      (isZero v = false ∧ st.valueToVReg v = some r ∧ st' = st) ∨
      (isZero v = false ∧ st.valueToVReg v = none ∧ r = st.nextVReg ∧ st' = st.assign v)) := by
  unfold getOrCreateVReg at h
  split at h
  · next zero =>
    simp only [Option.some.injEq, Prod.mk.injEq] at h
    obtain ⟨rfl, rfl, rfl⟩ := h
    exact ⟨rfl, .inl ⟨zero, rfl, rfl⟩⟩
  · next nonzero =>
    rw [Bool.not_eq_true] at nonzero
    split at h <;> simp only [Option.some.injEq, Prod.mk.injEq] at h <;> obtain ⟨rfl, rfl, rfl⟩ := h
    · next e => exact ⟨rfl, .inr (.inl ⟨nonzero, e, rfl⟩)⟩
    · next e => exact ⟨rfl, .inr (.inr ⟨nonzero, e, rfl, rfl⟩)⟩

/-- A lookup gives `0` for zero, the register that the value has, or a new one. -/
lemma lookup_cases {v : Value} {materialize : Bool} {st st' : Selector} {r : Nat}
    {out : List (Instruction Nat)} (h : lookup v materialize st = some (r, out, st')) :
    (isZero v = true ∧ r = 0 ∧ out = [] ∧ st' = st) ∨
      (isZero v = false ∧ st.valueToVReg v = some r ∧ out = [] ∧ st' = st) ∨
      (isZero v = false ∧ st.valueToVReg v = none ∧ r = st.nextVReg ∧
        out = loads materialize r v ∧ st' = st.assign v) := by
  have created : getOrCreateVReg v st = some (r, out, st') → loads materialize r v = [] →
      (isZero v = true ∧ r = 0 ∧ out = [] ∧ st' = st) ∨
        (isZero v = false ∧ st.valueToVReg v = some r ∧ out = [] ∧ st' = st) ∨
        (isZero v = false ∧ st.valueToVReg v = none ∧ r = st.nextVReg ∧
          out = loads materialize r v ∧ st' = st.assign v) := by
    intro h noLoads
    obtain ⟨rfl, ⟨zero, rfl, rfl⟩ | ⟨nonzero, e, rfl⟩ | ⟨nonzero, e, rfl, rfl⟩⟩ :=
      getOrCreateVReg_cases h
    · exact .inl ⟨zero, rfl, rfl, rfl⟩
    · exact .inr (.inl ⟨nonzero, e, rfl, rfl⟩)
    · exact .inr (.inr ⟨nonzero, e, rfl, noLoads.symm, rfl⟩)
  cases materialize with
  | false => exact created h (by cases v <;> rfl)
  | true =>
    cases v with
    | constantInt w bits =>
      change getOrMaterializeVReg (.constantInt w bits) st = _ at h
      unfold getOrMaterializeVReg at h
      dsimp only at h
      split at h
      · next zero =>
        simp only [Option.some.injEq, Prod.mk.injEq] at h
        obtain ⟨rfl, rfl, rfl⟩ := h
        exact .inl ⟨decide_eq_true zero, rfl, rfl, rfl⟩
      · next nonzero =>
        have nonzero : isZero (.constantInt w bits) = false := decide_eq_false nonzero
        split at h <;> simp only [Option.some.injEq, Prod.mk.injEq] at h <;>
          obtain ⟨rfl, rfl, rfl⟩ := h
        · next e => exact .inr (.inl ⟨nonzero, e, rfl, rfl⟩)
        · next e => exact .inr (.inr ⟨nonzero, e, rfl, rfl, rfl⟩)
    | argument | instruction | other => exact created h rfl

/-- Only a constant that gets a new register is loaded. -/
lemma mem_lookup {v : Value} {materialize : Bool} {st st' : Selector} {r : Nat}
    {out : List (Instruction Nat)} (h : lookup v materialize st = some (r, out, st'))
    {mi : Instruction Nat} (mem : mi ∈ out) :
    isZero v = false ∧ st.valueToVReg v = none ∧ materialize = true ∧ r = st.nextVReg ∧
      st' = st.assign v ∧ mi ∈ loads true r v := by
  obtain ⟨-, -, rfl, -⟩ | ⟨-, -, rfl, -⟩ | ⟨nonzero, e, e', rfl, e''⟩ := lookup_cases h
  · cases mem
  · cases mem
  · cases materialize with
    | false => cases v <;> cases mem
    | true => exact ⟨nonzero, e, rfl, e', e'', mem⟩

/-- After a lookup the value has its register. -/
lemma lookup_valid {v : Value} {materialize : Bool} {st st' : Selector} {r : Nat}
    {out : List (Instruction Nat)} (valid : st.Valid)
    (h : lookup v materialize st = some (r, out, st')) :
    st'.Valid ∧ Grows st st' ∧ st'.regOf v = some r := by
  obtain ⟨zero, rfl, rfl, rfl⟩ | ⟨nonzero, e, rfl, rfl⟩ | ⟨nonzero, e, rfl, -, rfl⟩ :=
    lookup_cases h
  · exact ⟨valid, .refl _, if_pos zero⟩
  · exact ⟨valid, .refl _, by simpa [Selector.regOf, nonzero] using e⟩
  · obtain ⟨valid, grows⟩ := valid.assign nonzero e
    exact ⟨valid, grows, by simp [Selector.regOf, nonzero]⟩

lemma getOrCreateVReg_valid {v : Value} {st st' : Selector} {r : Nat} {out : List (Instruction Nat)}
    (valid : st.Valid) (h : getOrCreateVReg v st = some (r, out, st')) :
    out = [] ∧ st'.Valid ∧ Grows st st' ∧ st'.regOf v = some r :=
  ⟨(getOrCreateVReg_cases h).1, lookup_valid valid (show lookup v false st = _ from h)⟩

/-- The register of a result is not that of zero. -/
lemma getOrCreateVReg_result {id : Nat} {st st' : Selector} {r : Nat} {out : List (Instruction Nat)}
    (valid : st.Valid) (h : getOrCreateVReg (.instruction id) st = some (r, out, st')) :
    out = [] ∧ st'.Valid ∧ Grows st st' ∧ st'.regOf (.instruction id) = some r ∧ 1 ≤ r := by
  obtain ⟨none, valid', grows, reg⟩ := getOrCreateVReg_valid valid h
  exact ⟨none, valid', grows, reg, valid'.pos_of_regOf rfl reg⟩

lemma allocateVReg_valid {ω : Type} {st st' : Selector} {r : Nat} {out : List ω} (valid : st.Valid)
    (h : allocateVReg st = some (r, out, st')) :
    out = [] ∧ st'.Valid ∧ Grows st st' ∧ st'.Temp r ∧ st'.valueToVReg = st.valueToVReg := by
  simp only [allocateVReg, Option.some.injEq, Prod.mk.injEq] at h
  obtain ⟨rfl, rfl, rfl⟩ := h
  refine ⟨rfl, ⟨Nat.le_add_left .., fun e => ?_, valid.inj, valid.zero⟩,
    ⟨Nat.le_succ _, id, .inl⟩, ⟨valid.pos, Nat.lt_succ_self _, fun v e => ?_⟩, rfl⟩
  · exact ⟨(valid.range e).1, Nat.lt_succ_of_lt (valid.range e).2⟩
  · exact absurd (valid.range e).2 (Nat.lt_irrefl _)

/-! ## Constants that were seen -/

/-- The constants that have a register are those seen before. -/
def Seen (st : Selector) (seen : List Value) : Prop :=
  ∀ c, isConstantInt c = true → isZero c = false → (st.valueToVReg c = none ↔ c ∉ seen)

lemma Seen.assign {st : Selector} {seen : List Value} {v : Value} (h : Seen st seen) :
    Seen (st.assign v) (v :: seen) := by
  intro c constant nonzero
  by_cases same : c = v
  · subst same
    simp
  · rw [Selector.assign_of_ne same, h c constant nonzero]
    simp [same]

/-- A value that has a register, or is no constant, or is zero, changes nothing. -/
lemma Seen.cons {st : Selector} {seen : List Value} {v : Value} (h : Seen st seen)
    (old : isConstantInt v = true → isZero v = false → st.valueToVReg v ≠ none) :
    Seen st (v :: seen) := by
  intro c constant nonzero
  by_cases same : c = v
  · subst same
    simpa using old constant nonzero
  · rw [h c constant nonzero]
    simp [same]

/-- The result of a handler is no constant. -/
lemma Seen.result {ω : Type} {st st' : Selector} {seen : List Value} {own : Value} {r : Nat}
    {out : List ω} (h : Seen st seen) (inst : isConstantInt own = false)
    (created : getOrCreateVReg own st = some (r, out, st')) : Seen st' seen ∧ out = [] := by
  obtain ⟨rfl, ⟨-, -, rfl⟩ | ⟨-, -, rfl⟩ | ⟨-, -, -, rfl⟩⟩ := getOrCreateVReg_cases created
  · exact ⟨h, rfl⟩
  · exact ⟨h, rfl⟩
  · refine ⟨fun c constant nonzero => ?_, rfl⟩
    rw [Selector.assign_of_ne, h c constant nonzero]
    rintro rfl
    rw [constant] at inst
    cases inst

/-- A lookup loads a constant that was not seen. -/
lemma Seen.lookup {st st' : Selector} {seen : List Value} {v : Value} {materialize : Bool} {r : Nat}
    {out : List (Instruction Nat)} (h : Seen st seen)
    (found : lookup v materialize st = some (r, out, st')) :
    Seen st' (v :: seen) ∧
      out = if isZero v = false ∧ v ∉ seen then loads materialize r v else [] := by
  obtain ⟨zero, -, rfl, rfl⟩ | ⟨nonzero, e, rfl, rfl⟩ | ⟨nonzero, e, -, rfl, rfl⟩ :=
    lookup_cases found
  · refine ⟨h.cons fun _ nonzero => by simp [zero] at nonzero, ?_⟩
    rw [if_neg (by simp [zero])]
  · refine ⟨h.cons fun _ _ => by simp [e], ?_⟩
    cases v with
    | constantInt w bits =>
      rw [if_neg]
      rintro ⟨-, new⟩
      rw [(h _ rfl nonzero).mpr new] at e
      cases e
    | argument | instruction | other => exact (ite_self _).symm
  · refine ⟨h.assign, ?_⟩
    cases v with
    | constantInt w bits => rw [if_pos ⟨nonzero, (h _ rfl nonzero).mp e⟩]
    | argument | instruction | other => exact (ite_self _).symm

end FpgaGpu

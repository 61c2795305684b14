import FpgaGpu.Alloc.Renaming
import FpgaGpu.Isa.Sequence
import FpgaGpu.Isel.Handlers

/-!
# What a handler computes

The steps of a handler can be run on positions instead of registers. The instructions that it pushes
then compute the same, if the registers of the values hold these values.
-/

namespace FpgaGpu

open Llvm (Value)
open Emission (bind_eq_some pure_eq_some push_eq_some)

variable {hw : Hardware}

/-- Gives the position `k` a value. -/
def Thread.setAt (file : Thread hw Nat) (k : Nat) (x : Word) : Thread hw Nat :=
  { file with regs := Function.update file.regs k x }

/-- Runs the steps of a handler on positions, the first `n` of which are taken. -/
def evaluate (value : Value → Word) (n : Nat) (file : Thread hw Nat) : List PlanStep → Thread hw Nat
  | [] => file
  | .result :: steps | .fresh :: steps => evaluate value (n + 1) file steps
  | .use val _ :: steps => evaluate value (n + 1) (file.setAt (n + 1) (value val)) steps
  | .emit mi :: steps => evaluate value n (execute file (file.pc.getD 0) mi) steps

/-- The slots of steps. -/
def stepSlots : List PlanStep → List Slot
  | [] => []
  | .result :: steps => .result :: stepSlots steps
  | .use .. :: steps => .use :: stepSlots steps
  | .fresh :: steps => .fresh :: stepSlots steps
  | .emit _ :: steps => stepSlots steps

/-- The positions that hold something after the steps. -/
def definedBy (n : Nat) (defined : List Nat) : List PlanStep → List Nat
  | [] => defined
  | .result :: steps | .fresh :: steps => definedBy (n + 1) defined steps
  | .use .. :: steps => definedBy (n + 1) ((n + 1) :: defined) steps
  | .emit mi :: steps => definedBy n (mi.writes.toList ++ defined) steps

/-- The steps read positions that hold something, and ask for the result once. -/
def initialised (slots : List Slot) (defined : List Nat) : List PlanStep → Bool
  | [] => true
  | .result :: steps => !slots.contains .result && initialised (slots ++ [.result]) defined steps
  | .fresh :: steps => initialised (slots ++ [.fresh]) defined steps
  | .use .. :: steps => initialised (slots ++ [.use]) ((slots.length + 1) :: defined) steps
  | .emit mi :: steps =>
    mi.reads.all (fun k => k = 0 || defined.contains k) &&
      initialised slots (mi.writes.toList ++ defined) steps

/-- An operand that has a register or gets it loaded. -/
def Available (st : Selector) (u : Value × Bool) : Prop :=
  isZero u.1 = true ∨ (∃ r, st.valueToVReg u.1 = some r) ∨ (isConstantInt u.1 = true ∧ u.2 = true)

lemma Available.grows {st st' : Selector} {u : Value × Bool} (h : Available st u)
    (grows : Grows st st') : Available st' u := by
  obtain zero | ⟨r, e⟩ | constant := h
  · exact .inl zero
  · exact .inr (.inl ⟨r, grows.keeps e⟩)
  · exact .inr (.inr constant)

/-- The value of a constant is what the instruction that loads it computes. -/
def ConstantsValued (value : Value → Word) : Prop :=
  ∀ w (bits : BitVec w), value (.constantInt w bits) = (bits.signExtend 64).setWidth 32

/-- The same for the constants that have no register yet. -/
def NewConstantsValued (st : Selector) (value : Value → Word) : Prop :=
  ∀ w (bits : BitVec w), st.valueToVReg (.constantInt w bits) = none →
    value (.constantInt w bits) = (bits.signExtend 64).setWidth 32

lemma ConstantsValued.new {value : Value → Word} (h : ConstantsValued value) (st : Selector) :
    NewConstantsValued st value := fun w bits _ => h w bits

lemma NewConstantsValued.grows {st st' : Selector} {value : Value → Word}
    (h : NewConstantsValued st value) (grows : Grows st st') : NewConstantsValued st' value := by
  intro w bits none
  refine h w bits (Option.eq_none_iff_forall_ne_some.mpr fun r e => ?_)
  rw [grows.keeps e] at none
  cases none

lemma NewConstantsValued.of_isZero {st : Selector} {value : Value → Word} {v : Value}
    (h : NewConstantsValued st value) (valid : st.Valid) (zero : isZero v = true) :
    value v = 0 := by
  cases v with
  | constantInt w bits =>
    rw [h w bits (valid.zero zero)]
    obtain rfl : bits = 0 := of_decide_eq_true zero
    apply BitVec.eq_of_toNat_eq
    simp [BitVec.toNat_signExtend]
  | argument | instruction | other => cases zero

/-- An operand that is available, or no constant and in the register that it has by `st'`. -/
def Ready (value : Value → Word) (written : Nat → Prop) (st st' : Selector) (s : Thread hw Nat)
    (u : Value × Bool) : Prop :=
  Available st u ∨ (isConstantInt u.1 = false ∧
    ∀ r, st'.valueToVReg u.1 = some r → s.regs r = value u.1 ∧ written r)

/-- An operand stays ready as long as the registers that are not given out are kept. -/
lemma Ready.next {value : Value → Word} {written written' : Nat → Prop} {st st₁ st' : Selector}
    {s s₁ : Thread hw Nat} {u : Value × Bool} (h : Ready value written st st' s u)
    (grows : Grows st st₁) (grows' : Grows st₁ st') (keeps : ∀ r, written r → written' r)
    (same : ∀ r, st₁.nextVReg ≤ r → s₁.regs r = s.regs r) : Ready value written' st₁ st' s₁ u := by
  obtain available | ⟨register, holds⟩ := h
  · exact .inl (available.grows grows)
  · cases e : st₁.valueToVReg u.1 with
    | some r => exact .inl (.inr (.inl ⟨r, e⟩))
    | none =>
      refine .inr ⟨register, fun r e' => ?_⟩
      obtain old | le := grows'.new e'
      · rw [e] at old
        cases old
      · rw [same r le]
        exact (holds r e').imp_right (keeps r)

lemma Ready.back {value : Value → Word} {written : Nat → Prop} {st st₁ st' : Selector}
    {s : Thread hw Nat} {u : Value × Bool} (h : Ready value written st st' s u)
    (grows : Grows st₁ st') : Ready value written st st₁ s u :=
  h.imp_right (And.imp_right fun holds r e => holds r (grows.keeps e))

/-- The registers of values hold them, save that of a result that was asked for, and so do the
positions that hold something. -/
structure Tracks (value : Value → Word) (own : Value) (written : Nat → Prop) (slots : List Slot)
    (regs defined : List Nat) (st : Selector) (s file : Thread hw Nat) : Prop where
  mem : s.mem = file.mem
  values : ∀ v r, st.valueToVReg v = some r →
    (v = own ∧ Slot.result ∈ slots) ∨ (s.regs r = value v ∧ written r)
  taken : ∀ k ∈ defined, (slotAt slots k).isSome = true
  positions : ∀ k ∈ defined, s.read (regAt regs k) = file.read k ∧
    (regAt regs k = 0 ∨ written (regAt regs k))
  apart : ∀ j k, (slotAt slots j = some .result ∨ slotAt slots j = some .fresh) → k ≠ j →
    (slotAt slots k).isSome = true → regAt regs k ≠ regAt regs j

section Steps

variable {value : Value → Word} {L : List Value} {own : Value} {st st' : Selector}
variable {written : Nat → Prop} {slots : List Slot} {regs defined : List Nat}
  {s s' file : Thread hw Nat}

/-! ## Positions -/

lemma slotAt_append {sl : Slot} {k : Nat} (le : k ≤ slots.length) :
    slotAt (slots ++ [sl]) k = slotAt slots k := by
  cases k with
  | zero => rfl
  | succ k => exact List.getElem?_append_left le

@[simp] lemma slotAt_append_length (sl : Slot) :
    slotAt (slots ++ [sl]) (slots.length + 1) = some sl := by
  simp [slotAt]

/-- A position after one more slot is a position before it, or the new one. -/
lemma slotAt_append_cases {sl : Slot} {k : Nat} (h : (slotAt (slots ++ [sl]) k).isSome = true) :
    (slotAt slots k).isSome = true ∨ k = slots.length + 1 := by
  have le := le_of_slotAt h
  rw [List.length_append, List.length_singleton] at le
  obtain lt | rfl := Nat.lt_or_eq_of_le le
  · rw [slotAt_append (by omega)] at h
    exact .inl h
  · exact .inr rfl

/-! ## Registers -/

/-- A register that a handler has was given out. -/
lemma Holds.lt (valid : st.Valid) {sl : Slot} {r : Nat} (h : Holds L own st sl r) :
    r < st.nextVReg := by
  cases sl with
  | result => exact (valid.range h).2
  | use =>
    obtain ⟨v, -, e⟩ := h
    exact valid.lt_of_regOf e
  | fresh => exact h.2.1

/-- A register that a handler writes is not R0. -/
lemma Holds.pos (valid : st.Valid) {sl : Slot} {r : Nat} (h : Holds L own st sl r)
    (written : sl = .result ∨ sl = .fresh) : 1 ≤ r := by
  obtain rfl | rfl := written
  · exact (valid.range h).1
  · exact h.1

/-- A register that a handler writes stands for no value but the result. -/
lemma Holds.eq_own (valid : st.Valid) {sl : Slot} {r : Nat} (h : Holds L own st sl r)
    (written : sl = .result ∨ sl = .fresh) {v : Value} (e : st.valueToVReg v = some r) :
    v = own ∧ sl = .result := by
  obtain rfl | rfl := written
  · exact ⟨valid.inj e h, rfl⟩
  · exact absurd e (h.2.2 v)

/-- What a handler reads or takes does not share the register of a value that it does not read. -/
lemma Holds.ne_of_not_mem (valid : st.Valid) {sl : Slot} {r r' : Nat} (h : Holds L own st sl r)
    (ne : sl ≠ .result) {v : Value} (notUsed : v ∉ L) (e : st.valueToVReg v = some r') :
    r ≠ r' := by
  rintro rfl
  cases sl with
  | result => exact ne rfl
  | use =>
    obtain ⟨w, mem, reg⟩ := h
    unfold Selector.regOf at reg
    split at reg
    · obtain rfl := Option.some.inj reg
      exact absurd (valid.range e).1 (by decide)
    · obtain rfl := valid.inj reg e
      exact notUsed mem
  | fresh => exact h.2.2 v e

lemma exists_holds (held : List.Forall₂ (Holds L own st) slots regs) {k : Nat}
    (h : (slotAt slots k).isSome = true) :
    ∃ sl, slotAt slots k = some sl ∧ Holds L own st sl (regAt regs k) := by
  obtain ⟨sl, e⟩ := Option.isSome_iff_exists.mp h
  exact ⟨sl, e, holds_regAt held e⟩

lemma read_of_pos {r : Nat} (pos : 1 ≤ r) : s.read r = s.regs r := if_neg (by omega)

/-! ## One step -/

/-- A later thread that agrees on the registers given out. -/
lemma Tracks.agree (tracks : Tracks value own written slots regs defined st s file)
    (valid : st.Valid) (held : List.Forall₂ (Holds L own st) slots regs) (mem : s'.mem = s.mem)
    (same : ∀ r < st.nextVReg, s'.regs r = s.regs r) (code : List (Instruction Nat)) :
    Tracks value own (WrittenBy written code) slots regs defined st s' file := by
  refine ⟨mem.trans tracks.mem, fun v r e => ?_, tracks.taken, fun k hk => ?_, tracks.apart⟩
  · rw [same r (valid.range e).2]
    exact (tracks.values v r e).imp_right (And.imp_right .inl)
  · obtain ⟨sl, -, holds⟩ := exists_holds held (tracks.taken k hk)
    have read : s'.read (regAt regs k) = s.read (regAt regs k) := by
      unfold Thread.read
      rw [same _ (holds.lt valid)]
    rw [read]
    exact (tracks.positions k hk).imp_right (Or.imp_right .inl)

/-- One more register, apart from those that are written. -/
lemma Tracks.extend (tracks : Tracks value own written slots regs defined st s file)
    (len : regs.length = slots.length) {sl : Slot} {r : Nat}
    (values : ∀ v r, st'.valueToVReg v = some r →
      (v = own ∧ Slot.result ∈ slots ++ [sl]) ∨ (s.regs r = value v ∧ written r))
    (apart : ∀ k, (slotAt slots k).isSome = true →
      (sl ≠ .use ∨ slotAt slots k = some .result ∨ slotAt slots k = some .fresh) →
      regAt regs k ≠ r) :
    Tracks value own written (slots ++ [sl]) (regs ++ [r]) defined st' s file := by
  have old : ∀ k, (slotAt slots k).isSome = true → slotAt (slots ++ [sl]) k = slotAt slots k ∧
      regAt (regs ++ [r]) k = regAt regs k := by
    intro k h
    have le := le_of_slotAt h
    exact ⟨slotAt_append le, regAt_append (len ▸ le)⟩
  have new : slotAt (slots ++ [sl]) (slots.length + 1) = some sl ∧
      regAt (regs ++ [r]) (slots.length + 1) = r :=
    ⟨slotAt_append_length sl, by rw [← len, regAt_append_length]⟩
  refine ⟨tracks.mem, values, fun k hk => ?_, fun k hk => ?_, fun j k hj ne hk => ?_⟩
  · rw [(old k (tracks.taken k hk)).1]
    exact tracks.taken k hk
  · rw [(old k (tracks.taken k hk)).2]
    exact tracks.positions k hk
  · have hj' : (slotAt (slots ++ [sl]) j).isSome = true := by
      obtain hj | hj := hj <;> rw [hj] <;> rfl
    obtain oldj | rfl := slotAt_append_cases hj' <;> obtain oldk | rfl := slotAt_append_cases hk
    · rw [(old j oldj).1] at hj
      rw [(old j oldj).2, (old k oldk).2]
      exact tracks.apart j k hj ne oldk
    · rw [(old j oldj).1] at hj
      rw [(old j oldj).2, new.2]
      exact (apart j oldj (.inr hj)).symm
    · rw [new.1] at hj
      rw [(old k oldk).2, new.2]
      exact apart k oldk (.inl (by rintro rfl; simp at hj))
    · exact absurd rfl ne

/-- The newest position gets a value. -/
lemma Tracks.set {sl : Slot} {r : Nat} {x : Word}
    (tracks : Tracks value own written (slots ++ [sl]) (regs ++ [r]) defined st s file)
    (len : regs.length = slots.length) (new : slots.length + 1 ∉ defined) (read : s.read r = x)
    (write : r = 0 ∨ written r) :
    Tracks value own written (slots ++ [sl]) (regs ++ [r]) ((slots.length + 1) :: defined) st s
      (file.setAt (slots.length + 1) x) := by
  refine ⟨tracks.mem, tracks.values, List.forall_mem_cons.mpr ⟨by simp, tracks.taken⟩,
    List.forall_mem_cons.mpr ⟨?_, fun k hk => ?_⟩, tracks.apart⟩
  · rw [← len, regAt_append_length, read]
    exact ⟨by simp [Thread.read, Thread.setAt], write⟩
  · obtain ⟨same, write⟩ := tracks.positions k hk
    have ne : k ≠ slots.length + 1 := by
      rintro rfl
      exact new hk
    refine ⟨same.trans ?_, write⟩
    simp [Thread.read, Thread.setAt, Function.update_of_ne ne]

/-- The register of the result. -/
lemma Tracks.destination (tracks : Tracks value own written slots regs defined st s file)
    (valid : st.Valid) (inst : isConstantInt own = false) (notUsed : own ∉ L)
    (held : List.Forall₂ (Holds L own st) slots regs) (first : Slot.result ∉ slots) {r : Nat}
    {out : List (Instruction Nat)} (h : getOrCreateVReg own st = some (r, out, st')) :
    Tracks value own written (slots ++ [.result]) (regs ++ [r]) defined st' s file := by
  obtain ⟨-, handled, e⟩ := Handled.result (L := L) valid inst h
  refine tracks.extend held.length_eq.symm (fun v r' e' => ?_) fun k hk _ => ?_
  · by_cases same : v = own
    · exact .inl ⟨same, by simp⟩
    · refine .inr ?_
      obtain ⟨-, ⟨-, -, rfl⟩ | ⟨-, -, rfl⟩ | ⟨-, -, -, rfl⟩⟩ := getOrCreateVReg_cases h
      · exact (tracks.values v r' e').resolve_left fun h => same h.1
      · exact (tracks.values v r' e').resolve_left fun h => same h.1
      · rw [Selector.assign_of_ne same] at e'
        exact (tracks.values v r' e').resolve_left fun h => same h.1
  · obtain ⟨sl, slot, holds⟩ := exists_holds held hk
    refine (handled.grows.holds holds).ne_of_not_mem handled.valid ?_ notUsed e
    rintro rfl
    exact first (mem_of_slotAt slot)

/-- A register for something else. -/
lemma Tracks.fresh (tracks : Tracks value own written slots regs defined st s file)
    (valid : st.Valid) (held : List.Forall₂ (Holds L own st) slots regs) {r : Nat}
    {out : List (Instruction Nat)} (h : allocateVReg st = some (r, out, st')) :
    Tracks value own written (slots ++ [.fresh]) (regs ++ [r]) defined st' s file := by
  simp only [allocateVReg, Option.some.injEq, Prod.mk.injEq] at h
  obtain ⟨rfl, -, rfl⟩ := h
  refine tracks.extend held.length_eq.symm (fun v r e => ?_) fun k hk _ => ?_
  · exact (tracks.values v r e).imp_left (And.imp_right (List.mem_append_left _))
  · obtain ⟨sl, -, holds⟩ := exists_holds held hk
    exact Nat.ne_of_lt (holds.lt valid)

/-- A constant that has no register is loaded into the next one. -/
lemma Tracks.load (tracks : Tracks value own written slots regs defined st s file)
    (valid : st.Valid) (constants : NewConstantsValued st value)
    (held : List.Forall₂ (Holds L own st) slots regs) {w : Nat} {bits : BitVec w}
    (first : st.valueToVReg (.constantInt w bits) = none) (new : slots.length + 1 ∉ defined) :
    ReadsWritten written [loadConstant st.nextVReg bits] ∧
      Tracks value own (WrittenBy written [loadConstant st.nextVReg bits]) (slots ++ [.use])
        (regs ++ [st.nextVReg]) ((slots.length + 1) :: defined) (st.assign (.constantInt w bits))
        (executeAll s [loadConstant st.nextVReg bits])
        (file.setAt (slots.length + 1) (value (.constantInt w bits))) := by
  have len := held.length_eq.symm
  let mi := loadConstant st.nextVReg bits
  have write : WrittenBy written [mi] st.nextVReg := .inr ⟨mi, List.mem_singleton_self mi, rfl⟩
  have loaded : (executeAll s [mi]).regs st.nextVReg = value (.constantInt w bits) := by
    rw [constants w bits first]
    exact (Function.update_self ..).trans (BitVec.zero_add _)
  have later : Tracks value own (WrittenBy written [mi]) slots regs defined st
      (executeAll s [mi]) file :=
    tracks.agree valid held (show (executeAll s [mi]).mem = s.mem from rfl)
      (fun r lt => Function.update_of_ne (Nat.ne_of_lt lt) ..) [mi]
  have reads : mi.reads = [0] :=
    (writes_of_mem_loads (r := st.nextVReg) (c := .constantInt w bits)
    (List.mem_singleton_self mi)).2.1
  refine ⟨⟨fun r mem => .inl (List.mem_singleton.mp (reads ▸ mem)), trivial⟩,
    (later.extend len (fun v r e => ?_) fun k hk _ => ?_).set len new ?_ (.inr write)⟩
  · by_cases same : v = .constantInt w bits
    · subst same
      rw [Selector.assign_self] at e
      obtain rfl := Option.some.inj e
      exact .inr ⟨loaded, write⟩
    · rw [Selector.assign_of_ne same] at e
      exact (later.values v r e).imp_left (And.imp_right (List.mem_append_left _))
  · obtain ⟨sl, -, holds⟩ := exists_holds held hk
    exact Nat.ne_of_lt (holds.lt valid)
  · exact (read_of_pos valid.pos).trans loaded

/-- The register of an operand holds it, as soon as it is loaded. -/
lemma Tracks.operand (tracks : Tracks value own written slots regs defined st s file)
    (valid : st.Valid) (constants : NewConstantsValued st value) (notUsed : own ∉ L)
    (held : List.Forall₂ (Holds L own st) slots regs) {v : Value} {materialize : Bool} (mem : v ∈ L)
    (ready : Ready value written st st' s (v, materialize)) {r : Nat} {out : List (Instruction Nat)}
    (h : lookup v materialize st = some (r, out, st')) :
    ReadsWritten written out ∧
      Tracks value own (WrittenBy written out) (slots ++ [.use]) (regs ++ [r])
        ((slots.length + 1) :: defined) st' (executeAll s out)
        (file.setAt (slots.length + 1) (value v)) := by
  have len := held.length_eq.symm
  have ne : v ≠ own := fun e => notUsed (e ▸ mem)
  have new : slots.length + 1 ∉ defined := by
    intro hk
    have := le_of_slotAt (tracks.taken _ hk)
    omega
  have values : ∀ w r', st.valueToVReg w = some r' →
      (w = own ∧ Slot.result ∈ slots ++ [Slot.use]) ∨ (s.regs r' = value w ∧ written r') :=
    fun w r' e => (tracks.values w r' e).imp_left (And.imp_right (List.mem_append_left _))
  obtain ⟨zero, rfl, rfl, rfl⟩ | ⟨-, e, rfl, rfl⟩ | ⟨nonzero, e, rfl, rfl, rfl⟩ := lookup_cases h
  · rw [writtenBy_nil]
    refine ⟨trivial, (tracks.extend len values fun k hk slot => ?_).set len new ?_ (.inl rfl)⟩
    · obtain ⟨sl, e, holds⟩ := exists_holds held hk
      rw [e] at slot
      have := holds.pos valid (by simpa using slot)
      omega
    · exact (if_pos rfl).trans (constants.of_isZero valid zero).symm
  · rw [writtenBy_nil]
    obtain ⟨same, write⟩ := (tracks.values v r e).resolve_left fun h => ne h.1
    refine ⟨trivial, (tracks.extend len values fun k hk slot => ?_).set len new ?_ (.inr write)⟩
    · obtain ⟨sl, e', holds⟩ := exists_holds held hk
      rw [e'] at slot
      intro same
      exact ne (holds.eq_own valid (by simpa using slot) (same ▸ e)).1
    · exact (read_of_pos (valid.range e).1).trans same
  · obtain (zero | ⟨r, e'⟩ | ⟨constant, rfl⟩) | ⟨register, holds⟩ := ready
    · rw [show isZero v = true from zero] at nonzero
      cases nonzero
    · rw [show st.valueToVReg v = some r from e'] at e
      cases e
    · cases v with
      | argument | instruction | other => cases constant
      | constantInt w bits => exact tracks.load valid constants held e new
    -- the value waits in the register that it gets
    · have none : loads materialize st.nextVReg v = [] := by
        cases v with
        | constantInt w bits => cases register
        | argument | instruction | other => rfl
      obtain ⟨same, write⟩ := holds st.nextVReg (Selector.assign_self ..)
      rw [none, writtenBy_nil]
      refine ⟨trivial, (tracks.extend len (fun w r e' => ?_) fun k hk _ => ?_).set len new
        ((read_of_pos valid.pos).trans same) (.inr write)⟩
      · by_cases eq : w = v
        · subst eq
          rw [Selector.assign_self] at e'
          obtain rfl := Option.some.inj e'
          exact .inr ⟨same, write⟩
        · rw [Selector.assign_of_ne eq] at e'
          exact values w r e'
      · obtain ⟨sl, -, holds⟩ := exists_holds held hk
        exact Nat.ne_of_lt (holds.lt valid)

/-- An instruction. -/
lemma Tracks.emit (tracks : Tracks value own written slots regs defined st s file)
    (valid : st.Valid) (held : List.Forall₂ (Holds L own st) slots regs) {mi : Instruction Nat}
    (wf : emits slots mi = true) (init : ∀ k ∈ mi.reads, k = 0 ∨ k ∈ defined) :
    ReadsWritten written [mi.mapRegs (regAt regs)] ∧
      Tracks value own (WrittenBy written [mi.mapRegs (regAt regs)]) slots regs
        (mi.writes.toList ++ defined) st (executeAll s [mi.mapRegs (regAt regs)])
        (execute file (file.pc.getD 0) mi) := by
  -- an operand is the zero register of both files, or a position that holds what its register does
  have reads : ∀ k ∈ mi.reads, s.read (regAt regs k) = file.read k ∧
      (regAt regs k = 0 ∨ written (regAt regs k)) := by
    intro k hk
    obtain rfl | hk := init k hk
    · exact ⟨rfl, .inl rfl⟩
    · exact tracks.positions k hk
  have same : result s (mi.mapRegs (regAt regs)) = result file mi :=
    result_mapRegs tracks.mem fun k hk => (reads k hk).1
  have mem : (execute s 0 (mi.mapRegs (regAt regs))).mem = (execute file 0 mi).mem :=
    mem_execute_mapRegs tracks.mem fun k hk => (reads k hk).1
  refine ⟨⟨?_, trivial⟩, ?_⟩
  · rw [reads_mapRegs]
    simp only [List.mem_map, forall_exists_index, and_imp, forall_apply_eq_imp_iff₂]
    exact fun k hk => (reads k hk).2
  -- only the own register and new ones are written, and no other position names one of these
  by_cases writes : mi.op.usesRd
  · have dest : mi.writes = some mi.rd := if_pos writes
    have slot : slotAt slots mi.rd = some .result ∨ slotAt slots mi.rd = some .fresh := by
      simp only [emits, dest, Bool.and_eq_true, Option.all_some, Bool.or_eq_true,
        decide_eq_true_eq] at wf
      exact wf.1.2
    have some : (slotAt slots mi.rd).isSome = true := by
      obtain e | e := slot <;> rw [e] <;> rfl
    obtain ⟨sl, e, holds⟩ := exists_holds held some
    have written' : sl = .result ∨ sl = .fresh := by simpa [e] using slot
    have pos := holds.pos valid written'
    have now : (executeAll s [mi.mapRegs (regAt regs)]).regs =
        Function.update s.regs (regAt regs mi.rd) (result file mi) := by
      rw [← same]
      exact if_pos writes
    have fileNow : (execute file (file.pc.getD 0) mi).regs =
        Function.update file.regs mi.rd (result file mi) := if_pos writes
    have write : WrittenBy written [mi.mapRegs (regAt regs)] (regAt regs mi.rd) :=
      .inr ⟨_, List.mem_singleton_self _, if_pos writes⟩
    have ne : mi.rd ≠ 0 := by
      intro zero
      rw [zero] at slot
      obtain slot | slot := slot <;> cases slot
    have here : (executeAll s [mi.mapRegs (regAt regs)]).read (regAt regs mi.rd) =
        (execute file (file.pc.getD 0) mi).read mi.rd := by
      rw [read_of_pos pos, read_of_pos (Nat.pos_of_ne_zero ne), now, fileNow, Function.update_self,
        Function.update_self]
    rw [dest]
    refine ⟨mem, fun v r e' => ?_, List.forall_mem_cons.mpr ⟨some, tracks.taken⟩,
      List.forall_mem_cons.mpr ⟨⟨here, .inr write⟩, fun k hk => ?_⟩, tracks.apart⟩
    · by_cases hit : r = regAt regs mi.rd
      · subst hit
        obtain ⟨rfl, rfl⟩ := holds.eq_own valid written' e'
        exact .inl ⟨rfl, mem_of_slotAt e⟩
      · rw [now, Function.update_of_ne hit]
        exact (tracks.values v r e').imp_right (And.imp_right .inl)
    · by_cases hit : k = mi.rd
      · subst hit
        exact ⟨here, .inr write⟩
      · have differ := tracks.apart mi.rd k slot hit (tracks.taken k hk)
        obtain ⟨same', write'⟩ := tracks.positions k hk
        refine ⟨?_, write'.imp_right .inl⟩
        unfold Thread.read at same' ⊢
        rwa [now, fileNow, Function.update_of_ne differ, Function.update_of_ne hit]
  · have dest : mi.writes = none := if_neg writes
    have now : (executeAll s [mi.mapRegs (regAt regs)]).regs = s.regs := if_neg writes
    have fileNow : (execute file (file.pc.getD 0) mi).regs = file.regs := if_neg writes
    rw [dest]
    refine ⟨mem, fun v r e => ?_, tracks.taken, fun k hk => ?_, tracks.apart⟩
    · rw [now]
      exact (tracks.values v r e).imp_right (And.imp_right .inl)
    · obtain ⟨same', write'⟩ := tracks.positions k hk
      refine ⟨?_, write'.imp_right .inl⟩
      unfold Thread.read at same' ⊢
      rwa [now, fileNow]

/-! ## Handlers -/

/-- Instructions keep the registers above those that they write. -/
lemma regs_executeAll_of_lt {out : List (Instruction Nat)} {n : Nat}
    (writes : ∀ mi ∈ out, ∀ r, mi.writes = some r → r < n) (s : Thread hw Nat)
    {r : Nat} (le : n ≤ r) :
    (executeAll s out).regs r = s.regs r := by
  induction out generalizing s with
  | nil => rfl
  | cons mi out ih =>
    obtain ⟨head, rest⟩ := List.forall_mem_cons.mp writes
    rw [executeAll, ih rest]
    by_cases use : mi.op.usesRd
    · have ne : r ≠ mi.rd := by
        have := head mi.rd (if_pos use)
        omega
      exact (congrFun (if_pos use) r).trans (Function.update_of_ne ne ..)
    · exact congrFun (if_neg use) r

/-- A lookup writes a register that it gives out. -/
lemma write_lt_of_lookup {v : Value} {materialize : Bool} {r : Nat} {out : List (Instruction Nat)}
    (h : lookup v materialize st = some (r, out, st')) :
    ∀ mi ∈ out, ∀ r, mi.writes = some r → r < st'.nextVReg := by
  obtain ⟨-, -, rfl, -⟩ | ⟨-, -, rfl, -⟩ | ⟨-, -, rfl, rfl, rfl⟩ := lookup_cases h
  · nofun
  · nofun
  · intro mi mem r write
    cases v with
    | constantInt w bits =>
      cases materialize with
      | false => cases mem
      | true =>
        rw [(writes_of_mem_loads mem).1] at write
        obtain rfl := Option.some.inj write
        exact Nat.lt_succ_self _
    | argument | instruction | other => cases mem

/-- What writes a position writes a register that was given out. -/
lemma write_lt_of_emits (valid : st.Valid) (held : List.Forall₂ (Holds L own st) slots regs)
    {mi : Instruction Nat} (wf : emits slots mi = true) {r : Nat}
    (write : (mi.mapRegs (regAt regs)).writes = some r) : r < st.nextVReg := by
  rw [writes_mapRegs] at write
  obtain ⟨k, dest, rfl⟩ := Option.map_eq_some_iff.mp write
  have slot : slotAt slots k = some .result ∨ slotAt slots k = some .fresh := by
    simp only [emits, dest, Bool.and_eq_true, Option.all_some, Bool.or_eq_true,
      decide_eq_true_eq] at wf
    exact wf.1.2
  obtain slot | slot := slot <;> exact (holds_regAt held slot).lt valid

/-- The steps of a handler compute on registers what they compute on positions. -/
theorem runSteps_tracks {steps : List PlanStep} {out : List (Instruction Nat)} (valid : st.Valid)
    (constants : NewConstantsValued st value) (inst : isConstantInt own = false) (notUsed : own ∉ L)
    (held : List.Forall₂ (Holds L own st) slots regs)
    (tracks : Tracks value own written slots regs defined st s file)
    (wf : wellFormed slots steps = true) (init : initialised slots defined steps = true)
    (sub : ∀ u ∈ stepUses steps, u.1 ∈ L)
    (ready : ∀ u ∈ stepUses steps, Ready value written st st' s u)
    (h : runSteps own regs steps st = some ((), out, st')) :
    ReadsWritten written out ∧ ∃ regs',
      List.Forall₂ (Holds L own st') (slots ++ stepSlots steps) regs' ∧
      Tracks value own (WrittenBy written out) (slots ++ stepSlots steps) regs'
        (definedBy slots.length defined steps) st' (executeAll s out)
        (evaluate value slots.length file steps) := by
  induction steps generalizing st slots regs defined written s file out with
  | nil =>
    obtain ⟨-, rfl, rfl⟩ := pure_eq_some.mp h
    rw [writtenBy_nil, stepSlots, List.append_nil]
    exact ⟨trivial, regs, held, tracks⟩
  | cons step steps ih =>
    cases step with
    | result =>
      obtain ⟨r, out₁, st₁, out₂, first, rest, rfl⟩ := bind_eq_some.mp h
      obtain ⟨once, init⟩ := Bool.and_eq_true_iff.mp init
      obtain ⟨rfl, handled, e⟩ := Handled.result (L := L) valid inst first
      have tracks := tracks.destination valid inst notUsed held (by simpa using once) first
      have held := holds_append (s := .result) handled.grows held e
      have grows' := (runSteps_ran handled.valid inst held wf sub rest).handled.grows
      obtain ⟨reads, regs', held', tracks'⟩ :=
        ih handled.valid (constants.grows handled.grows) held tracks
        wf init sub
          (fun u mem => (ready u mem).next handled.grows grows' (fun _ => id) fun _ _ => rfl) rest
      rw [List.length_append, List.append_assoc] at *
      exact ⟨reads, regs', held', tracks'⟩
    | use v materialize =>
      obtain ⟨r, out₁, st₁, out₂, first, rest, rfl⟩ := bind_eq_some.mp h
      obtain ⟨mem, sub⟩ := List.forall_mem_cons.mp sub
      obtain ⟨now, ready⟩ := List.forall_mem_cons.mp ready
      obtain ⟨valid', grows, e⟩ := lookup_valid valid first
      have held' := holds_append (s := .use) grows held ⟨v, mem, e⟩
      have grows' := (runSteps_ran valid' inst held' wf sub rest).handled.grows
      obtain ⟨reads₁, tracks⟩ :=
        tracks.operand valid constants notUsed held mem (now.back grows') first
      obtain ⟨reads, regs', held', tracks'⟩ :=
        ih valid' (constants.grows grows) held' tracks wf init sub
        (fun u mem => (ready u mem).next grows grows' (fun _ => .inl) fun _ le =>
          regs_executeAll_of_lt (write_lt_of_lookup first) _ le) rest
      rw [List.length_append, List.append_assoc] at *
      rw [writtenBy_append, ← executeAll_append] at tracks'
      exact ⟨reads₁.append reads, regs', held', tracks'⟩
    | fresh =>
      obtain ⟨r, out₁, st₁, out₂, first, rest, rfl⟩ := bind_eq_some.mp h
      obtain ⟨rfl, valid', grows, temp, same⟩ := allocateVReg_valid valid first
      have held' := holds_append (s := .fresh) grows held temp
      have grows' := (runSteps_ran valid' inst held' wf sub rest).handled.grows
      obtain ⟨reads, regs', held', tracks'⟩ := ih valid' (constants.grows grows) held'
        (tracks.fresh valid held first) wf init sub
        (fun u mem => (ready u mem).next grows grows' (fun _ => id) fun _ _ => rfl) rest
      rw [List.length_append, List.append_assoc] at *
      exact ⟨reads, regs', held', tracks'⟩
    | emit mi =>
      obtain ⟨_, out₁, st₁, out₂, first, rest, rfl⟩ := bind_eq_some.mp h
      obtain ⟨rfl, rfl⟩ := push_eq_some.mp first
      obtain ⟨ok, wf⟩ := Bool.and_eq_true_iff.mp wf
      obtain ⟨read, init⟩ := Bool.and_eq_true_iff.mp init
      obtain ⟨reads₁, tracks⟩ := tracks.emit valid held ok (by simpa using read)
      have grows' := (runSteps_ran valid inst held wf sub rest).handled.grows
      have writes : ∀ mi' ∈ [mi.mapRegs (regAt regs)], ∀ r, mi'.writes = some r → r < st.nextVReg :=
        List.forall_mem_singleton.mpr fun r => write_lt_of_emits valid held ok
      obtain ⟨reads, regs', held', tracks'⟩ := ih valid constants held tracks wf init sub
        (fun u mem => (ready u mem).next (.refl st) grows' (fun _ => .inl) fun _ le =>
          regs_executeAll_of_lt writes _ le) rest
      rw [writtenBy_append, ← executeAll_append] at tracks'
      exact ⟨reads₁.append reads, regs', held', tracks'⟩

/-- Steps always run. -/
lemma runSteps_total (own : Value) (regs : List Nat) (steps : List PlanStep) (st : Selector) :
    ∃ out st', runSteps own regs steps st = some ((), out, st') := by
  induction steps generalizing regs st with
  | nil => exact ⟨[], st, rfl⟩
  | cons step steps ih =>
    have bind : ∀ {α : Type} {x : Sel α} {f : α → Sel Unit},
      (∃ a out st₁, x st = some (a, out, st₁)) →
        (∀ a st₁, ∃ out st', f a st₁ = some ((), out, st')) →
        ∃ out st', (x >>= f) st = some ((), out, st') := by
      rintro α x f ⟨a, out₁, st₁, first⟩ rest
      obtain ⟨out₂, st', rest⟩ := rest a st₁
      exact ⟨out₁ ++ out₂, st', bind_eq_some.mpr ⟨a, out₁, st₁, out₂, first, rest, rfl⟩⟩
    have create : ∀ v, ∃ a out st₁, (getOrCreateVReg v : Sel Nat) st = some (a, out, st₁) := by
      intro v
      unfold getOrCreateVReg
      split
      · exact ⟨_, _, _, rfl⟩
      · split <;> exact ⟨_, _, _, rfl⟩
    cases step with
    | result => exact bind (create own) fun a st₁ => ih (regs ++ [a]) st₁
    | fresh => exact bind ⟨_, _, _, rfl⟩ fun a st₁ => ih (regs ++ [a]) st₁
    | emit mi => exact bind ⟨_, _, _, rfl⟩ fun _ st₁ => ih regs st₁
    | use v materialize =>
      refine bind ?_ fun a st₁ => ih (regs ++ [a]) st₁
      cases materialize with
      | false => exact create v
      | true =>
        change ∃ a out st₁, getOrMaterializeVReg v st = some (a, out, st₁)
        unfold getOrMaterializeVReg
        cases v with
        | constantInt w bits =>
          dsimp only
          split
          · exact ⟨_, _, _, rfl⟩
          · split <;> exact ⟨_, _, _, rfl⟩
        | argument | instruction | other => exact create _

/-- What holds of the instructions of the steps, and of those that load their constants, holds of
what is pushed. -/
lemma runSteps_all {P : Instruction Nat → Prop} {steps : List PlanStep}
    {out : List (Instruction Nat)} (rename : ∀ φ mi, P mi → P (mi.mapRegs φ))
    (emitted : ∀ mi, .emit mi ∈ steps → P mi)
    (loaded : ∀ u ∈ stepUses steps, ∀ r, ∀ mi ∈ loads u.2 r u.1, P mi)
    (h : runSteps own regs steps st = some ((), out, st')) : ∀ mi ∈ out, P mi := by
  induction steps generalizing st regs out with
  | nil =>
    obtain ⟨-, rfl, -⟩ := pure_eq_some.mp h
    simp
  | cons step steps ih =>
    have emitted' : ∀ mi, .emit mi ∈ steps → P mi :=
      fun mi mem => emitted mi (List.mem_cons_of_mem _ mem)
    cases step with
    | result =>
      obtain ⟨r, out₁, st₁, out₂, first, rest, rfl⟩ := bind_eq_some.mp h
      obtain ⟨rfl, -⟩ := getOrCreateVReg_cases first
      exact ih emitted' loaded rest
    | fresh =>
      obtain ⟨r, out₁, st₁, out₂, first, rest, rfl⟩ := bind_eq_some.mp h
      simp only [allocateVReg, Option.some.injEq, Prod.mk.injEq] at first
      obtain ⟨-, rfl, -⟩ := first
      exact ih emitted' loaded rest
    | use v materialize =>
      obtain ⟨r, out₁, st₁, out₂, first, rest, rfl⟩ := bind_eq_some.mp h
      obtain ⟨now, loaded⟩ := List.forall_mem_cons.mp loaded
      refine List.forall_mem_append.mpr ⟨?_, ih emitted' loaded rest⟩
      obtain ⟨-, -, rfl, -⟩ | ⟨-, -, rfl, -⟩ | ⟨-, -, -, rfl, -⟩ := lookup_cases first
      · simp
      · simp
      · exact now r
    | emit mi =>
      obtain ⟨_, out₁, st₁, out₂, first, rest, rfl⟩ := bind_eq_some.mp h
      obtain ⟨rfl, rfl⟩ := push_eq_some.mp first
      refine List.forall_mem_append.mpr ⟨?_, ih emitted' loaded rest⟩
      exact List.forall_mem_singleton.mpr (rename _ mi (emitted mi List.mem_cons_self))

end Steps

end FpgaGpu

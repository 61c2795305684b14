import FpgaGpu.Isel.Registers

/-!
# What a handler pushes

The instructions of a handler read R0, operands and registers of its own, and write the result,
registers of its own, and the constants that it loads. A constant that has no register when the
handler starts is loaded if its first use asks for that, before any instruction reads it.
-/

namespace FpgaGpu

open Llvm (Value)
open Emission (bind_eq_some pure_eq_some push_eq_some)

/-- How a list of uses asks for a value first. -/
def firstUse (c : Value) (us : List (Value × Bool)) : Option Bool :=
  (us.find? (·.1 = c)).map Prod.snd

lemma firstUse_append (c : Value) (us us' : List (Value × Bool)) :
    firstUse c (us ++ us') = (firstUse c us).or (firstUse c us') := by
  unfold firstUse
  rw [List.find?_append]
  cases us.find? (·.1 = c) <;> rfl

@[simp] lemma firstUse_nil (c : Value) : firstUse c [] = none := rfl

lemma firstUse_single (c v : Value) (m : Bool) :
    firstUse c [(v, m)] = if v = c then some m else none := by
  unfold firstUse
  by_cases h : v = c <;> simp [h]

/-- How the instructions `out` treat the constant `c`, which is used as `us` says. -/
structure Loading (c : Value) (us : List (Value × Bool)) (st : Selector)
    (out : List (Instruction Nat)) (st' : Selector) : Prop where
  none_iff : st'.valueToVReg c = none ↔ st.valueToVReg c = none ∧ firstUse c us = none
  loaded : st.valueToVReg c = none → firstUse c us = some true → ∀ r, st'.valueToVReg c = some r →
    ∃ mi ∈ out, mi ∈ loads true r c
  only : ∀ r mi, st'.valueToVReg c = some r → mi ∈ out → mi ∈ loads true r c →
    st.valueToVReg c = none ∧ firstUse c us = some true
  before : st.valueToVReg c = none → firstUse c us = some true → ∀ r pre mi post,
    st'.valueToVReg c = some r → out = pre ++ mi :: post → r ∈ mi.reads →
      ∃ l ∈ pre, l ∈ loads true r c

/-- What the part of a handler for `own` that uses `us` does. `L` are the operands of the
handler. -/
structure Handled (L : List Value) (own : Value) (us : List (Value × Bool)) (st : Selector)
    (out : List (Instruction Nat)) (st' : Selector) : Prop where
  valid : st'.Valid
  grows : Grows st st'
  reads : ∀ mi ∈ out, ∀ r ∈ mi.reads, r = 0 ∨ (∃ v ∈ L, st'.regOf v = some r) ∨ st'.Temp r
  writes : ∀ mi ∈ out, ∀ r, mi.writes = some r → st'.valueToVReg own = some r ∨ st'.Temp r ∨
    ∃ v, st'.valueToVReg v = some r ∧ mi ∈ loads true r v
  noBranch : ∀ mi ∈ out, mi.op ≠ .br
  loading : ∀ c, isConstantInt c = true → isZero c = false → c ≠ own → Loading c us st out st'

/-- A register that an instruction reads or writes was given out. -/
lemma Selector.Valid.lt_of_regOf {st : Selector} (valid : st.Valid) {v : Value} {r : Nat}
    (e : st.regOf v = some r) : r < st.nextVReg := by
  have pos := valid.pos
  unfold Selector.regOf at e
  split at e
  · obtain rfl := Option.some.inj e
    omega
  · exact (valid.range e).2

/-- What loads a constant writes its register. -/
lemma writes_of_mem_loads {r : Nat} {c : Value} {mi : Instruction Nat} (h : mi ∈ loads true r c) :
    mi.writes = some r ∧ mi.reads = [0] ∧ mi.op = .addi := by
  cases c with
  | constantInt w bits =>
    obtain rfl := List.mem_singleton.mp h
    exact ⟨rfl, rfl, rfl⟩
  | argument | instruction | other => cases h

section Append

variable {L : List Value} {own : Value} {us us' : List (Value × Bool)} {st st₁ st' : Selector}
variable {out out' : List (Instruction Nat)}

/-- What a part writes was given out. -/
lemma Handled.write_lt (h : Handled L own us st out st') {mi : Instruction Nat} {r : Nat}
    (mem : mi ∈ out) (e : mi.writes = some r) : r < st'.nextVReg := by
  obtain e | temp | ⟨v, e, -⟩ := h.writes mi mem r e
  · exact (h.valid.range e).2
  · exact temp.2.1
  · exact (h.valid.range e).2

/-- What a part reads was given out. -/
lemma Handled.read_lt (h : Handled L own us st out st') {mi : Instruction Nat} {r : Nat}
    (mem : mi ∈ out) (e : r ∈ mi.reads) : r < st'.nextVReg := by
  have pos := h.valid.pos
  obtain rfl | ⟨v, -, e⟩ | temp := h.reads mi mem r e
  · omega
  · exact h.valid.lt_of_regOf e
  · exact temp.2.1

/-- A constant that gets its register in the first part is used there first. -/
lemma Loading.or_eq {c : Value} {r : Nat} (l : Loading c us st out st₁)
    (new : st.valueToVReg c = none) (e : st₁.valueToVReg c = some r) (next : Option Bool) :
    (firstUse c us).or next = firstUse c us := by
  cases f : firstUse c us with
  | none =>
    rw [l.none_iff.mpr ⟨new, f⟩] at e
    cases e
  | some b => rfl

/-- An instruction of two parts with what stands before it: it is in the second part behind the
first one, or in the first one. -/
lemma split_parts {α : Type} {out out' pre post : List α} {x : α}
    (h : out ++ out' = pre ++ x :: post) :
    (∃ t, pre = out ++ t ∧ out' = t ++ x :: post) ∨ ∃ t, out = pre ++ x :: t := by
  obtain ⟨t, rfl, e⟩ | ⟨t, rfl, e⟩ := List.append_eq_append_iff.mp h
  · exact .inl ⟨t, rfl, e⟩
  · cases t with
    | nil => exact .inl ⟨[], by simp, e.symm⟩
    | cons y t =>
      obtain ⟨rfl, -⟩ := List.cons.inj e
      exact .inr ⟨t, rfl⟩

/-- Two parts and a constant that has no register after the first one. -/
lemma Loading.append_of_none {c : Value} (h₁ : Handled L own us st out st₁)
    (h₂ : Handled L own us' st₁ out' st') (l₁ : Loading c us st out st₁)
    (l₂ : Loading c us' st₁ out' st') (e₁ : st₁.valueToVReg c = none) :
    Loading c (us ++ us') st (out ++ out') st' := by
  obtain ⟨new, unused⟩ := l₁.none_iff.mp e₁
  have first : firstUse c (us ++ us') = firstUse c us' := by
    rw [firstUse_append, unused, Option.none_or]
  -- the register is a later one than those of the first part
  have later : ∀ {r}, st'.valueToVReg c = some r → st₁.nextVReg ≤ r := by
    intro r e
    obtain old | le := h₂.grows.new e
    · rw [e₁] at old
      cases old
    · exact le
  refine ⟨?_, fun _ used r e => ?_, fun r mi e mem load => ?_,
    fun _ used r pre mi post e split read => ?_⟩
  · rw [l₂.none_iff, first, e₁, new]
  · obtain ⟨mi, mem, load⟩ := l₂.loaded e₁ (first ▸ used) r e
    exact ⟨mi, List.mem_append_right _ mem, load⟩
  · obtain mem | mem := List.mem_append.mp mem
    · have lt := h₁.write_lt mem (writes_of_mem_loads load).1
      have le := later e
      omega
    · exact ⟨new, first ▸ (l₂.only r mi e mem load).2⟩
  · obtain ⟨t, rfl, e₂⟩ | ⟨t, rfl⟩ := split_parts split
    · obtain ⟨l, mem, load⟩ := l₂.before e₁ (first ▸ used) r t mi post e e₂ read
      exact ⟨l, List.mem_append_right _ mem, load⟩
    · have lt := h₁.read_lt (by simp) read
      have le := later e
      omega

/-- Two parts and a constant that has its register after the first one. -/
lemma Loading.append_of_some {c : Value} {r₁ : Nat} (grows : Grows st₁ st')
    (l₁ : Loading c us st out st₁) (l₂ : Loading c us' st₁ out' st')
    (e₁ : st₁.valueToVReg c = some r₁) : Loading c (us ++ us') st (out ++ out') st' := by
  have same : ∀ {r}, st'.valueToVReg c = some r → r₁ = r :=
    fun e => Option.some.inj ((grows.keeps e₁).symm.trans e)
  refine ⟨?_, fun new used r e => ?_, fun r mi e mem load => ?_,
    fun new used r pre mi post e split read => ?_⟩
  · rw [l₂.none_iff, l₁.none_iff, firstUse_append, Option.or_eq_none_iff, and_assoc]
  · obtain rfl := same e
    rw [firstUse_append, l₁.or_eq new e₁] at used
    obtain ⟨mi, mem, load⟩ := l₁.loaded new used _ e₁
    exact ⟨mi, List.mem_append_left _ mem, load⟩
  · obtain rfl := same e
    obtain mem | mem := List.mem_append.mp mem
    · obtain ⟨new, used⟩ := l₁.only _ mi e₁ mem load
      rw [firstUse_append, used]
      exact ⟨new, rfl⟩
    · rw [(l₂.only _ mi e mem load).1] at e₁
      cases e₁
  · obtain rfl := same e
    rw [firstUse_append, l₁.or_eq new e₁] at used
    obtain ⟨t, rfl, -⟩ | ⟨t, rfl⟩ := split_parts split
    · obtain ⟨l, mem, load⟩ := l₁.loaded new used _ e₁
      exact ⟨l, List.mem_append_left _ mem, load⟩
    · exact l₁.before new used _ pre mi t e₁ rfl read

/-- Two parts and one constant. -/
lemma Loading.append {c : Value} (h₁ : Handled L own us st out st₁)
    (h₂ : Handled L own us' st₁ out' st') (l₁ : Loading c us st out st₁)
    (l₂ : Loading c us' st₁ out' st') : Loading c (us ++ us') st (out ++ out') st' := by
  cases e₁ : st₁.valueToVReg c with
  | none => exact l₁.append_of_none h₁ h₂ l₂ e₁
  | some r₁ => exact l₁.append_of_some h₂.grows l₂ e₁

/-- Two parts. -/
lemma Handled.append (h₁ : Handled L own us st out st₁) (h₂ : Handled L own us' st₁ out' st') :
    Handled L own (us ++ us') st (out ++ out') st' := by
  refine ⟨h₂.valid, h₁.grows.trans h₂.grows, fun mi mem r read => ?_, fun mi mem r write => ?_,
    fun mi mem => ?_, fun c constant nonzero ne =>
      .append h₁ h₂ (h₁.loading c constant nonzero ne) (h₂.loading c constant nonzero ne)⟩
  · obtain mem | mem := List.mem_append.mp mem
    · obtain z | ⟨v, hv, e⟩ | temp := h₁.reads mi mem r read
      · exact .inl z
      · exact .inr (.inl ⟨v, hv, h₂.grows.regOf e⟩)
      · exact .inr (.inr (h₂.grows.temp temp))
    · exact h₂.reads mi mem r read
  · obtain mem | mem := List.mem_append.mp mem
    · obtain e | temp | ⟨v, e, load⟩ := h₁.writes mi mem r write
      · exact .inl (h₂.grows.keeps e)
      · exact .inr (.inl (h₂.grows.temp temp))
      · exact .inr (.inr ⟨v, h₂.grows.keeps e, load⟩)
    · exact h₂.writes mi mem r write
  · obtain mem | mem := List.mem_append.mp mem
    · exact h₁.noBranch mi mem
    · exact h₂.noBranch mi mem

end Append

/-! ## Steps -/

section Steps

variable {L : List Value} {own : Value} {st st' : Selector} {slots : List Slot} {regs : List Nat}

/-- What a register was obtained for. -/
def Holds (L : List Value) (own : Value) (st : Selector) : Slot → Nat → Prop
  | .result, r => st.valueToVReg own = some r
  | .use, r => ∃ v ∈ L, st.regOf v = some r
  | .fresh, r => st.Temp r

lemma Grows.holds (h : Grows st st') {s : Slot} {r : Nat} (holds : Holds L own st s r) :
    Holds L own st' s r := by
  cases s with
  | result => exact h.keeps holds
  | use =>
    obtain ⟨v, mem, e⟩ := holds
    exact ⟨v, mem, h.regOf e⟩
  | fresh => exact h.temp holds

/-- One more register. -/
lemma holds_append (h : Grows st st') (held : List.Forall₂ (Holds L own st) slots regs) {s : Slot}
    {r : Nat} (holds : Holds L own st' s r) :
    List.Forall₂ (Holds L own st') (slots ++ [s]) (regs ++ [r]) :=
  List.rel_append (held.imp fun _ _ => h.holds) (.cons holds .nil)

lemma holds_regAt (held : List.Forall₂ (Holds L own st) slots regs) {k : Nat} {s : Slot}
    (e : slotAt slots k = some s) : Holds L own st s (regAt regs k) := by
  cases k with
  | zero => cases e
  | succ k =>
    change slots[k]? = some s at e
    show Holds L own st s (regs.getD k 0)
    induction held generalizing k with
    | nil => cases e
    | cons head _ ih =>
      cases k with
      | zero =>
        obtain rfl := Option.some.inj e
        exact head
      | succ k => simpa using ih (k := k) (by simpa using e)

lemma Handled.nothing (valid : st.Valid) : Handled L own [] st [] st := by
  refine ⟨valid, .refl st, by simp, by simp, by simp, fun c _ _ _ => ⟨by simp, ?_, by simp, ?_⟩⟩
  · intro _ first
    cases first
  · intro _ first
    cases first

/-- An operand and one constant. -/
lemma Loading.lookup {c v : Value} {materialize : Bool} {r : Nat} {out : List (Instruction Nat)}
    (valid : st'.Valid) (constant : isConstantInt c = true) (nonzero : isZero c = false)
    (h : lookup v materialize st = some (r, out, st')) :
    Loading c [(v, materialize)] st out st' := by
  refine ⟨?_, fun new first r' e => ?_, fun r' mi e mem load => ?_,
    fun new first r' pre mi post e split read => ?_⟩
  · rw [firstUse_single]
    obtain ⟨zero, -, -, rfl⟩ | ⟨-, e, -, rfl⟩ | ⟨-, e, -, -, rfl⟩ := lookup_cases h
    · have differ : v ≠ c := by
        rintro rfl
        rw [zero] at nonzero
        cases nonzero
      simp [differ]
    · by_cases same : v = c
      · subst same
        simp [e]
      · simp [same]
    · by_cases same : v = c
      · subst same
        simp
      · rw [Selector.assign_of_ne (Ne.symm same)]
        simp [same]
  · rw [firstUse_single] at first
    split at first
    · next same =>
      subst same
      obtain rfl := Option.some.inj first
      obtain ⟨zero, -⟩ | ⟨-, old, -⟩ | ⟨-, -, rfl, rfl, rfl⟩ := lookup_cases h
      · rw [zero] at nonzero
        cases nonzero
      · rw [new] at old
        cases old
      · rw [Selector.assign_self] at e
        obtain rfl := Option.some.inj e
        cases v with
        | constantInt w bits => exact ⟨_, List.mem_singleton.mpr rfl, List.mem_singleton.mpr rfl⟩
        | argument | instruction | other => cases constant
    · cases first
  · obtain ⟨-, new, rfl, rfl, rfl, load'⟩ := mem_lookup h mem
    have same : st.nextVReg = r' := Option.some.inj
      ((writes_of_mem_loads load').1.symm.trans (writes_of_mem_loads load).1)
    obtain rfl := valid.inj e (same ▸ st.assign_self v)
    rw [firstUse_single, if_pos rfl]
    exact ⟨new, rfl⟩
  · obtain ⟨-, -, -, rfl, rfl, load⟩ := mem_lookup h (show mi ∈ out by simp [split])
    rw [(writes_of_mem_loads load).2.1] at read
    obtain rfl := List.mem_singleton.mp read
    exact absurd (valid.range e).1 (by omega)

/-- An operand. -/
lemma Handled.lookup {v : Value} {materialize : Bool} {r : Nat} {out : List (Instruction Nat)}
    (valid : st.Valid) (h : lookup v materialize st = some (r, out, st')) :
    Handled L own [(v, materialize)] st out st' := by
  obtain ⟨valid', grows, -⟩ := lookup_valid valid h
  refine ⟨valid', grows, fun mi mem r' read => ?_, fun mi mem r' write => ?_, fun mi mem => ?_,
    fun c constant nonzero _ => .lookup valid' constant nonzero h⟩
  · obtain ⟨-, -, -, -, -, load⟩ := mem_lookup h mem
    rw [(writes_of_mem_loads load).2.1] at read
    exact .inl (List.mem_singleton.mp read)
  · obtain ⟨-, -, -, rfl, rfl, load⟩ := mem_lookup h mem
    rw [(writes_of_mem_loads load).1] at write
    obtain rfl := Option.some.inj write
    exact .inr (.inr ⟨v, st.assign_self v, load⟩)
  · obtain ⟨-, -, -, -, -, load⟩ := mem_lookup h mem
    rw [(writes_of_mem_loads load).2.2]
    decide

/-- Nothing is pushed, and no constant gets a register. -/
lemma Handled.silent (valid : st'.Valid) (grows : Grows st st')
    (same : ∀ c, isConstantInt c = true → c ≠ own → st'.valueToVReg c = st.valueToVReg c) :
    Handled L own [] st [] st' := by
  refine ⟨valid, grows, by simp, by simp, by simp, fun c constant _ ne => ⟨?_, ?_, by simp, ?_⟩⟩
  · simp [same c constant ne]
  · intro _ first
    cases first
  · intro _ first
    cases first

/-- The register of the result. -/
lemma Handled.result {r : Nat} {out : List (Instruction Nat)} (valid : st.Valid)
    (inst : isConstantInt own = false) (h : getOrCreateVReg own st = some (r, out, st')) :
    out = [] ∧ Handled L own [] st [] st' ∧ st'.valueToVReg own = some r := by
  have nonzero : isZero own = false := by
    cases own with
    | constantInt w bits => cases inst
    | argument | instruction | other => rfl
  obtain ⟨rfl, ⟨zero, -⟩ | ⟨-, e, rfl⟩ | ⟨-, e, rfl, rfl⟩⟩ := getOrCreateVReg_cases h
  · rw [zero] at nonzero
    cases nonzero
  · exact ⟨rfl, .silent valid (.refl _) fun _ _ _ => rfl, e⟩
  · obtain ⟨valid', grows⟩ := valid.assign nonzero e
    exact ⟨rfl, .silent valid' grows fun c _ ne => Selector.assign_of_ne ne, st.assign_self own⟩

/-- An instruction over registers that were obtained. -/
lemma Handled.emit {mi : Instruction Nat} (valid : st.Valid)
    (held : List.Forall₂ (Holds L own st) slots regs) (h : emits slots mi = true) :
    Handled L own [] st [mi.mapRegs (regAt regs)] st := by
  simp only [emits, Bool.and_eq_true, List.all_eq_true, Bool.or_eq_true, decide_eq_true_eq,
    Option.all_eq_true, ne_eq] at h
  obtain ⟨⟨reads, writes⟩, noBranch⟩ := h
  have written : ∀ r, (mi.mapRegs (regAt regs)).writes = some r →
      st.valueToVReg own = some r ∨ st.Temp r := by
    intro r e
    rw [writes_mapRegs, Option.map_eq_some_iff] at e
    obtain ⟨k, e, rfl⟩ := e
    obtain slot | slot := writes k e
    · exact .inl (holds_regAt held slot)
    · exact .inr (holds_regAt held slot)
  refine ⟨valid, .refl st, fun mi' mem r read => ?_, fun mi' mem r write => ?_, fun mi' mem => ?_,
    fun c constant nonzero ne => ⟨by simp, fun _ first => ?_, fun r mi' e mem load => ?_,
      fun _ first => ?_⟩⟩
  · obtain rfl := List.mem_singleton.mp mem
    rw [reads_mapRegs, List.mem_map] at read
    obtain ⟨k, mem, rfl⟩ := read
    obtain (rfl | slot) | slot := reads k mem
    · exact .inl rfl
    · exact .inr (.inl (holds_regAt held slot))
    · exact .inr (.inr (holds_regAt held slot))
  · obtain rfl := List.mem_singleton.mp mem
    exact (written r write).imp_right .inl
  · obtain rfl := List.mem_singleton.mp mem
    exact noBranch
  · cases first
  · -- the register of a constant is neither that of the result nor taken for something else
    obtain rfl := List.mem_singleton.mp mem
    obtain e' | temp := written r (writes_of_mem_loads load).1
    · exact absurd (valid.inj e e') ne
    · exact absurd e (temp.2.2 c)
  · cases first

lemma le_of_slotAt {slots : List Slot} {k : Nat} (h : (slotAt slots k).isSome = true) :
    k ≤ slots.length := by
  cases k with
  | zero => exact Nat.zero_le _
  | succ k => exact (List.getElem?_eq_some_iff.mp (Option.get_mem h)).1

lemma regAt_append {regs : List Nat} {r k : Nat} (le : k ≤ regs.length) :
    regAt (regs ++ [r]) k = regAt regs k := by
  cases k with
  | zero => rfl
  | succ k => simp [regAt, List.getElem?_append_left (show k < regs.length by omega)]

@[simp] lemma regAt_append_length (regs : List Nat) (r : Nat) :
    regAt (regs ++ [r]) (regs.length + 1) = r := by simp [regAt]

/-- What the steps of a handler do from the registers `regs` on. -/
structure Ran (L : List Value) (own : Value) (slots : List Slot) (regs : List Nat)
    (steps : List PlanStep) (st : Selector) (out : List (Instruction Nat))
    (st' : Selector) : Prop where
  handled : Handled L own (stepUses steps) st out st'
  result : (∃ mi ∈ out, ∃ r, mi.writes = some r ∧ st'.valueToVReg own = some r) ↔
    writesResult slots steps = true
  read : ∀ k ∈ positionsRead steps, k ≤ regs.length → ∃ mi ∈ out, regAt regs k ∈ mi.reads
  used : readsUses regs.length steps = true → ∀ u ∈ stepUses steps,
    ∃ mi ∈ out, ∃ r ∈ mi.reads, st'.regOf u.1 = some r
  exit : (∃ mi ∈ out, mi.op = .exit) ↔ stepsExit steps = true

/-- A register that is obtained first changes nothing about the rest. -/
lemma Ran.obtain {s : Slot} {r : Nat} {step : PlanStep} {steps : List PlanStep} {st₁ : Selector}
    {out₁ out₂ : List (Instruction Nat)}
    (ran : Ran L own (slots ++ [s]) (regs ++ [r]) steps st₁ out₂ st')
    (handled : Handled L own (stepUses (step :: steps)) st (out₁ ++ out₂) st')
    (noExit : ∀ mi ∈ out₁, mi.op ≠ .exit)
    (noResult : ∀ mi ∈ out₁, ∀ r, mi.writes = some r → st'.valueToVReg own ≠ some r)
    (writes : writesResult slots (step :: steps) = writesResult (slots ++ [s]) steps)
    (positions : positionsRead (step :: steps) = positionsRead steps)
    (exits : stepsExit (step :: steps) = stepsExit steps)
    (used : readsUses regs.length (step :: steps) = true → ∀ u ∈ stepUses (step :: steps),
      ∃ mi ∈ out₂, ∃ r ∈ mi.reads, st'.regOf u.1 = some r) :
    Ran L own slots regs (step :: steps) st (out₁ ++ out₂) st' := by
  have right : ∀ {P : Instruction Nat → Prop}, (∃ mi ∈ out₂, P mi) → ∃ mi ∈ out₁ ++ out₂, P mi :=
    fun ⟨mi, mem, h⟩ => ⟨mi, List.mem_append_right _ mem, h⟩
  refine ⟨handled, ?_, fun k mem le => ?_, fun h u mem => right (used h u mem), ?_⟩
  · rw [writes, ← ran.result]
    constructor
    · rintro ⟨mi, mem, r, write, e⟩
      obtain mem | mem := List.mem_append.mp mem
      · exact absurd e (noResult mi mem r write)
      · exact ⟨mi, mem, r, write, e⟩
    · exact right
  · rw [positions] at mem
    rw [← regAt_append (r := r) le]
    exact right (ran.read k mem (by simp; omega))
  · rw [exits, ← ran.exit]
    constructor
    · rintro ⟨mi, mem, e⟩
      obtain mem | mem := List.mem_append.mp mem
      · exact absurd e (noExit mi mem)
      · exact ⟨mi, mem, e⟩
    · exact right

/-- An instruction comes first. -/
lemma Ran.emit {mi : Instruction Nat} {steps : List PlanStep} {out : List (Instruction Nat)}
    (ran : Ran L own slots regs steps st out st') (valid : st.Valid)
    (held : List.Forall₂ (Holds L own st) slots regs) (ok : emits slots mi = true) :
    Ran L own slots regs (.emit mi :: steps) st ([mi.mapRegs (regAt regs)] ++ out) st' := by
  have here : (∃ r, (mi.mapRegs (regAt regs)).writes = some r ∧ st'.valueToVReg own = some r) ↔
      mi.writes.any (fun k => slotAt slots k = some .result) = true := by
    simp only [Option.any_eq_true, decide_eq_true_eq, writes_mapRegs, Option.map_eq_some_iff]
    constructor
    · rintro ⟨_, ⟨k, e, rfl⟩, reg⟩
      refine ⟨k, e, ?_⟩
      simp only [emits, e, Bool.and_eq_true, Option.all_some, Bool.or_eq_true,
        decide_eq_true_eq] at ok
      obtain slot | slot := ok.1.2
      · exact slot
      · exact absurd reg ((ran.handled.grows.temp (holds_regAt held slot)).2.2 own)
    · rintro ⟨k, e, slot⟩
      exact ⟨regAt regs k, ⟨k, e, rfl⟩, ran.handled.grows.keeps (holds_regAt held slot)⟩
  refine ⟨(Handled.emit valid held ok).append ran.handled, ?_, fun k mem le => ?_,
    fun h u mem => ?_, ?_⟩
  · simp only [writesResult, List.singleton_append, List.mem_cons,
      exists_eq_or_imp, here, ran.result, Bool.or_eq_true]
  · obtain mem | mem := List.mem_append.mp mem
    · refine ⟨_, List.mem_cons_self, ?_⟩
      rw [reads_mapRegs]
      exact List.mem_map_of_mem mem
    · obtain ⟨mi', mem, e⟩ := ran.read k mem le
      exact ⟨mi', List.mem_cons_of_mem _ mem, e⟩
  · obtain ⟨mi', mem, e⟩ := ran.used h u mem
    exact ⟨mi', List.mem_cons_of_mem _ mem, e⟩
  · simp only [stepsExit, List.singleton_append, List.mem_cons,
      exists_eq_or_imp, ran.exit, mapRegs_op, Bool.or_eq_true, decide_eq_true_eq]

/-- An operand comes first. -/
lemma Ran.use {v : Value} {materialize : Bool} {r : Nat} {steps : List PlanStep} {st₁ : Selector}
    {out₁ out₂ : List (Instruction Nat)}
    (ran : Ran L own (slots ++ [.use]) (regs ++ [r]) steps st₁ out₂ st') (valid : st.Valid)
    (inst : isConstantInt own = false) (first : lookup v materialize st = some (r, out₁, st₁)) :
    Ran L own slots regs (.use v materialize :: steps) st (out₁ ++ out₂) st' := by
  obtain ⟨-, -, e⟩ := lookup_valid valid first
  have handled : Handled L own [(v, materialize)] st out₁ st₁ := .lookup valid first
  refine ran.obtain (handled.append ran.handled) (fun mi mem => ?_) (fun mi mem r' write e' => ?_)
    rfl rfl rfl fun h => ?_
  · obtain ⟨-, -, -, -, -, load⟩ := mem_lookup first mem
    rw [(writes_of_mem_loads load).2.2]
    decide
  · -- a constant that is loaded is not the result
    obtain ⟨nonzero, -, -, -, -, load⟩ := mem_lookup first mem
    obtain rfl := Option.some.inj ((writes_of_mem_loads load).1.symm.trans write)
    have reg := ran.handled.grows.regOf e
    simp only [Selector.regOf, nonzero, Bool.false_eq_true, if_false] at reg
    obtain rfl := ran.handled.valid.inj reg e'
    cases v with
    | constantInt w bits => cases inst
    | argument | instruction | other => cases load
  · obtain ⟨position, h⟩ := Bool.and_eq_true_iff.mp h
    refine List.forall_mem_cons.mpr ⟨?_, ran.used (by simpa using h)⟩
    obtain ⟨mi, mem, read⟩ := ran.read (regs.length + 1) (by simpa using position) (by simp)
    rw [regAt_append_length] at read
    exact ⟨mi, mem, r, read, ran.handled.grows.regOf e⟩

/-- A handler. -/
theorem runSteps_ran {steps : List PlanStep} {out : List (Instruction Nat)} (valid : st.Valid)
    (inst : isConstantInt own = false) (held : List.Forall₂ (Holds L own st) slots regs)
    (wf : wellFormed slots steps = true) (sub : ∀ u ∈ stepUses steps, u.1 ∈ L)
    (h : runSteps own regs steps st = some ((), out, st')) :
    Ran L own slots regs steps st out st' := by
  induction steps generalizing st slots regs out with
  | nil =>
    obtain ⟨-, rfl, rfl⟩ := pure_eq_some.mp h
    exact ⟨.nothing valid, by simp [writesResult], nofun, nofun, by simp [stepsExit]⟩
  | cons step steps ih =>
    cases step with
    | result =>
      obtain ⟨r, out₁, st₁, out₂, first, rest, rfl⟩ := bind_eq_some.mp h
      obtain ⟨rfl, handled, e⟩ := Handled.result (L := L) valid inst first
      have ran := ih handled.valid (holds_append (s := .result) handled.grows held e) wf sub rest
      exact ran.obtain (handled.append ran.handled) nofun nofun rfl rfl rfl
        fun h => ran.used (by simpa [readsUses] using h)
    | use v materialize =>
      obtain ⟨r, out₁, st₁, out₂, first, rest, rfl⟩ := bind_eq_some.mp h
      obtain ⟨mem, sub⟩ := List.forall_mem_cons.mp sub
      obtain ⟨valid', grows, e⟩ := lookup_valid valid first
      exact (ih valid' (holds_append (s := .use) grows held ⟨v, mem, e⟩) wf sub rest).use
        valid inst first
    | fresh =>
      obtain ⟨r, out₁, st₁, out₂, first, rest, rfl⟩ := bind_eq_some.mp h
      obtain ⟨rfl, valid', grows, temp, same⟩ := allocateVReg_valid valid first
      have handled : Handled L own [] st [] st₁ := .silent valid' grows fun _ _ _ => by rw [same]
      have ran := ih valid' (holds_append (s := .fresh) grows held temp) wf sub rest
      exact ran.obtain (handled.append ran.handled) nofun nofun rfl rfl rfl
        fun h => ran.used (by simpa [readsUses] using h)
    | emit mi =>
      obtain ⟨_, out₁, st₁, out₂, first, rest, rfl⟩ := bind_eq_some.mp h
      obtain ⟨rfl, rfl⟩ := push_eq_some.mp first
      obtain ⟨ok, wf⟩ := Bool.and_eq_true_iff.mp wf
      exact (ih valid held wf sub rest).emit valid held ok

end Steps

end FpgaGpu

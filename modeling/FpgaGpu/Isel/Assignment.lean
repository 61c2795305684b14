import FpgaGpu.Isel.Definitions

/-!
# Single assignment

Each register of the selected code is the destination of one instruction at most. A handler writes
the register of its result, registers that it took, and registers of constants that it loads, each
once; the results of the items are different values, and all other registers are new ones of their
handler.
-/

namespace FpgaGpu

open Llvm (Value Terminator)
open Emission (bind_eq_some pure_eq_some push_eq_some)

/-! ## Steps that write each register once -/

/-- The positions that the instructions of the steps write. -/
def positionsWritten : List PlanStep → List Nat
  | [] => []
  | .emit mi :: steps => mi.writes.toList ++ positionsWritten steps
  | _ :: steps => positionsWritten steps

/-- The result is asked for once, and no position is written twice. -/
def writesOnce (slots : List Slot) : List PlanStep → Bool
  | [] => true
  | .result :: steps => !slots.contains .result && writesOnce (slots ++ [.result]) steps
  | .use .. :: steps => writesOnce (slots ++ [.use]) steps
  | .fresh :: steps => writesOnce (slots ++ [.fresh]) steps
  | .emit mi :: steps =>
    mi.writes.all (fun k => !(positionsWritten steps).contains k) && writesOnce slots steps

/-- The steps of each instruction. -/
lemma instructionSteps_once (dl : DataLayout) (f : Llvm.Function) (i : Llvm.Instruction) :
    writesOnce [] (instructionSteps dl f i) = true := by
  obtain ⟨id, operation⟩ := i
  cases operation with
  | binary opcode op0 op1 =>
    show writesOnce [] (binarySteps opcode op0 op1) = true
    cases opcode with
    | add =>
      unfold binarySteps
      dsimp only
      split <;> rfl
    | sub | mul | other => rfl
    | shl =>
      unfold binarySteps shiftSteps
      dsimp only
      split
      · split
        · rfl
        · split <;> rfl
      · rfl
  | icmp predicate op0 op1 =>
    unfold instructionSteps
    dsimp only
    split <;> rfl
  | call callee args =>
    cases callee with
    | inlineAsm asmString =>
      show writesOnce [] (asmSteps asmString args) = true
      unfold asmSteps
      split <;> rfl
    | function name =>
      show writesOnce [] (runtimeSteps name args) = true
      unfold runtimeSteps globalIdSteps
      split
      · rfl
      · rfl
      · rfl
      · split <;> rfl
      · rfl
    | indirect operand => rfl
  | getelementptr sourceElement ptr indices =>
    show writesOnce [] (gepSteps dl sourceElement ptr indices) = true
    unfold gepSteps indexSteps
    split
    · rfl
    · split <;> rfl
  | load | store | alloca | cast | phi | select | other => rfl

/-- The steps of each item. -/
lemma Item.steps_once (dl : DataLayout) (f : Llvm.Function) (item : Item) :
    writesOnce [] (item.steps dl f) = true := by
  cases item with
  | argument argIdx arg => rfl
  | inst i => exact instructionSteps_once dl f i
  | term t =>
    cases t with
    | condBr condVal ifTrue ifFalse =>
      show writesOnce [] (conditionSteps f condVal) = true
      unfold conditionSteps
      split <;> rfl
    | br | switch | ret | unreachable | other => rfl

/-! ## Handlers -/

section Handlers

variable {L : List Value} {own : Value} {st st' : Selector} {slots : List Slot} {regs : List Nat}

/-- The registers that instructions write, in order. -/
def destinations (out : List (Instruction Nat)) : List Nat := out.filterMap Instruction.writes

lemma destinations_append (out out' : List (Instruction Nat)) :
    destinations (out ++ out') = destinations out ++ destinations out' := List.filterMap_append ..

lemma mem_destinations {out : List (Instruction Nat)} {r : Nat} :
    r ∈ destinations out ↔ ∃ mi ∈ out, mi.writes = some r := List.mem_filterMap

/-- A position of one more slot is an old one or the new one. -/
lemma slotAt_append_eq_some {s s' : Slot} {k : Nat} (h : slotAt (slots ++ [s]) k = some s') :
    slotAt slots k = some s' ∨ (k = slots.length + 1 ∧ s = s') := by
  cases k with
  | zero => cases h
  | succ k =>
    change (slots ++ [s])[k]? = some s' at h
    obtain lt | rfl | gt := Nat.lt_trichotomy k slots.length
    · rw [List.getElem?_append_left lt] at h
      exact .inl h
    · rw [List.getElem?_concat_length] at h
      exact .inr ⟨rfl, Option.some.inj h⟩
    · rw [List.getElem?_eq_none (by simp; omega)] at h
      cases h

/-- A slot whose register the instructions of the handler may write. -/
def Writable (slots : List Slot) (k : Nat) : Prop :=
  slotAt slots k = some .result ∨ slotAt slots k = some .fresh

/-- Registers that may be written are at one position. -/
def Apart (slots : List Slot) (regs : List Nat) : Prop :=
  ∀ j k, Writable slots j → Writable slots k → regAt regs j = regAt regs k → j = k

lemma Writable.append {s : Slot} {k : Nat} (h : Writable (slots ++ [s]) k) :
    Writable slots k ∨ (k = slots.length + 1 ∧ s ≠ .use) := by
  obtain h | h := h
  · obtain old | ⟨rfl, rfl⟩ := slotAt_append_eq_some h
    · exact .inl (.inl old)
    · exact .inr ⟨rfl, nofun⟩
  · obtain old | ⟨rfl, rfl⟩ := slotAt_append_eq_some h
    · exact .inl (.inr old)
    · exact .inr ⟨rfl, nofun⟩

/-- What may be written was given out. -/
lemma Writable.lt (valid : st.Valid) (held : List.Forall₂ (Holds L own st) slots regs) {k : Nat}
    (h : Writable slots k) : regAt regs k < st.nextVReg := by
  obtain slot | slot := h
  · exact (valid.range (holds_regAt held slot)).2
  · exact (holds_regAt held slot).2.1

lemma Writable.le {k : Nat} (h : Writable slots k) : k ≤ slots.length := by
  obtain slot | slot := h <;> exact le_of_slotAt (by rw [slot]; rfl)

/-- One more register, which differs from those that may be written. -/
lemma Apart.append (apart : Apart slots regs) (length : slots.length = regs.length)
    {s : Slot} {r : Nat} (new : s ≠ .use → ∀ k, Writable slots k → regAt regs k ≠ r) :
    Apart (slots ++ [s]) (regs ++ [r]) := by
  have at_old : ∀ {k}, Writable slots k → regAt (regs ++ [r]) k = regAt regs k :=
    fun h => regAt_append (length ▸ h.le)
  have at_new : regAt (regs ++ [r]) (slots.length + 1) = r := by
    rw [length]
    exact regAt_append_length regs r
  intro j k hj hk same
  obtain oldj | ⟨rfl, sj⟩ := hj.append <;> obtain oldk | ⟨rfl, sk⟩ := hk.append
  · rw [at_old oldj, at_old oldk] at same
    exact apart j k oldj oldk same
  · rw [at_old oldj, at_new] at same
    exact absurd same (new sk j oldj)
  · rw [at_new, at_old oldk] at same
    exact absurd same.symm (new sj k oldk)
  · rfl

/-- What a register that the steps write was obtained for: it is one that the handler has, that of
the result, or a new one. -/
def Destination (own : Value) (slots : List Slot) (regs : List Nat) (steps : List PlanStep)
    (st st' : Selector) (r : Nat) : Prop :=
  (∃ k ∈ positionsWritten steps, Writable slots k ∧ r = regAt regs k) ∨
    (.result ∉ slots ∧ st'.valueToVReg own = some r) ∨
    (st.nextVReg ≤ r ∧ st'.valueToVReg own ≠ some r)

/-- With one more register, there is one more that may be written. -/
lemma Destination.append {steps : List PlanStep} {st₁ : Selector} {slot : Slot} {r r' : Nat}
    (length : slots.length = regs.length) (grows : Grows st st₁)
    (h : Destination own (slots ++ [slot]) (regs ++ [r]) steps st₁ st' r') :
    Destination own slots regs steps st st' r' ∨ (slot ≠ .use ∧ r' = r) := by
  obtain ⟨k, written, writable, rfl⟩ | ⟨first, reg⟩ | ⟨le, ne⟩ := h
  · obtain old | ⟨rfl, writes⟩ := writable.append
    · exact .inl (.inl ⟨k, written, old, regAt_append (length ▸ old.le)⟩)
    · exact .inr ⟨writes, length ▸ regAt_append_length regs r⟩
  · exact .inl (.inr (.inl ⟨fun asked => first (List.mem_append_left _ asked), reg⟩))
  · exact .inl (.inr (.inr ⟨grows.next.trans le, ne⟩))

/-- What the steps after an instruction write is written with it. -/
lemma Destination.emit {steps : List PlanStep} {mi : Instruction Nat} {r : Nat}
    (h : Destination own slots regs steps st st' r) :
    Destination own slots regs (.emit mi :: steps) st st' r := by
  obtain ⟨k, written, writable, rfl⟩ | other := h
  · exact .inl ⟨k, List.mem_append_right _ written, writable, rfl⟩
  · exact .inr other

/-- What the rest of a handler writes is not what an instruction before it wrote. -/
lemma Destination.ne_written {steps : List PlanStep} {r k : Nat} (valid : st.Valid)
    (grows : Grows st st') (held : List.Forall₂ (Holds L own st) slots regs)
    (apart : Apart slots regs) (writable : Writable slots k) (once : k ∉ positionsWritten steps)
    (h : Destination own slots regs steps st st' r) : r ≠ regAt regs k := by
  rintro rfl
  obtain ⟨k', mem, writable', same⟩ | ⟨first, reg⟩ | ⟨le, -⟩ := h
  · obtain rfl := apart k k' writable writable' same
    exact once mem
  · obtain slot | slot := writable
    · exact first (mem_of_slotAt slot)
    · exact (grows.temp (holds_regAt held slot)).2.2 own reg
  · exact absurd (writable.lt valid held) (Nat.not_lt.mpr le)

/-- An operand that is loaded is loaded once, into a new register that is not that of the result. -/
lemma destinations_lookup {v : Value} {materialize : Bool} {r : Nat} {st₁ : Selector}
    {out : List (Instruction Nat)} (inst : isConstantInt own = false) (valid : st'.Valid)
    (grows : Grows st₁ st') (h : lookup v materialize st = some (r, out, st₁)) :
    (destinations out).Nodup ∧ ∀ r' ∈ destinations out,
      r' = st.nextVReg ∧ st₁.nextVReg = st.nextVReg + 1 ∧ st'.valueToVReg own ≠ some r' := by
  constructor
  · obtain ⟨-, -, rfl, -⟩ | ⟨-, -, rfl, -⟩ | ⟨-, -, -, rfl, -⟩ := lookup_cases h
    · exact List.nodup_nil
    · exact List.nodup_nil
    · cases v with
      | constantInt w bits =>
        cases materialize with
        | false => exact List.nodup_nil
        | true => exact List.nodup_singleton r
      | argument | instruction | other => exact List.nodup_nil
  · intro r' mem
    obtain ⟨mi, mem, write⟩ := mem_destinations.mp mem
    obtain ⟨-, -, -, rfl, rfl, load⟩ := mem_lookup h mem
    obtain rfl := Option.some.inj ((writes_of_mem_loads load).1.symm.trans write)
    refine ⟨rfl, rfl, fun reg => ?_⟩
    obtain rfl := valid.inj reg (grows.keeps (st.assign_self v))
    cases own with
    | constantInt w bits => cases inst
    | argument | instruction | other => cases load

/-- The instructions write each register once, and each register for a destination of the steps. -/
def WritesOnce (own : Value) (slots : List Slot) (regs : List Nat) (steps : List PlanStep)
    (st st' : Selector) (out : List (Instruction Nat)) : Prop :=
  (destinations out).Nodup ∧ ∀ r ∈ destinations out, Destination own slots regs steps st st' r

section Steps

variable {steps : List PlanStep} {out out' : List (Instruction Nat)} {st₁ : Selector} {r : Nat}

/-- The register of the result is not one of those that were written before, which stand for no
value. -/
lemma Apart.result (apart : Apart slots regs) (held : List.Forall₂ (Holds L own st) slots regs)
    (first : .result ∉ slots) (grows : Grows st st₁) (reg : st₁.valueToVReg own = some r) :
    Apart (slots ++ [.result]) (regs ++ [r]) := by
  refine apart.append held.length_eq fun _ k writable same => ?_
  obtain slot | slot := writable
  · exact first (mem_of_slotAt slot)
  · exact (grows.temp (holds_regAt held slot)).2.2 own (same ▸ reg)

lemma WritesOnce.result (length : slots.length = regs.length) (first : .result ∉ slots)
    (grows : Grows st st₁) (reg : st'.valueToVReg own = some r)
    (once : WritesOnce own (slots ++ [.result]) (regs ++ [r]) steps st₁ st' out) :
    WritesOnce own slots regs (.result :: steps) st st' out := by
  obtain ⟨nodup, all⟩ := once
  refine ⟨nodup, fun r' mem => ?_⟩
  obtain other | ⟨-, rfl⟩ := (all r' mem).append length grows
  · exact other
  · exact .inr (.inl ⟨first, reg⟩)

/-- An operand that is loaded is loaded into a register that nothing else writes. -/
lemma WritesOnce.use {v : Value} {materialize : Bool} (valid : st.Valid) (valid' : st'.Valid)
    (inst : isConstantInt own = false) (held : List.Forall₂ (Holds L own st) slots regs)
    (lookedUp : lookup v materialize st = some (r, out, st₁)) (grows : Grows st st₁)
    (grows' : Grows st₁ st')
    (once : WritesOnce own (slots ++ [.use]) (regs ++ [r]) steps st₁ st' out') :
    WritesOnce own slots regs (.use v materialize :: steps) st st' (out ++ out') := by
  obtain ⟨nodup, all⟩ := once
  have length := held.length_eq
  obtain ⟨nodup₁, loaded⟩ := destinations_lookup inst valid' grows' lookedUp
  rw [WritesOnce, destinations_append]
  refine ⟨List.nodup_append.mpr ⟨nodup₁, nodup, ?_⟩, fun r' mem => ?_⟩
  · rintro r₁ mem₁ _ mem rfl
    obtain ⟨rfl, next, ne⟩ := loaded r₁ mem₁
    obtain ⟨k, -, writable, same⟩ | ⟨-, reg⟩ | ⟨le, -⟩ := all _ mem
    · obtain old | ⟨-, use⟩ := writable.append
      · rw [regAt_append (length ▸ old.le)] at same
        exact absurd (old.lt valid held) (by omega)
      · exact use rfl
    · exact ne reg
    · omega
  · obtain mem | mem := List.mem_append.mp mem
    · obtain ⟨rfl, -, ne⟩ := loaded r' mem
      exact .inr (.inr ⟨Nat.le_refl _, ne⟩)
    · obtain other | ⟨use, -⟩ := (all r' mem).append length grows
      · exact other
      · exact absurd rfl use

/-- A fresh register is above those that were given out. -/
lemma WritesOnce.fresh (length : slots.length = regs.length) (grows : Grows st st₁)
    (le : st.nextVReg ≤ r) (temp : st'.Temp r)
    (once : WritesOnce own (slots ++ [.fresh]) (regs ++ [r]) steps st₁ st' out) :
    WritesOnce own slots regs (.fresh :: steps) st st' out := by
  obtain ⟨nodup, all⟩ := once
  refine ⟨nodup, fun r' mem => ?_⟩
  obtain other | ⟨-, rfl⟩ := (all r' mem).append length grows
  · exact other
  · exact .inr (.inr ⟨le, temp.2.2 own⟩)

/-- An instruction writes a position that no later one writes. -/
lemma WritesOnce.emit {mi : Instruction Nat} (valid : st.Valid) (grows : Grows st st')
    (held : List.Forall₂ (Holds L own st) slots regs) (apart : Apart slots regs)
    (writable : ∀ k, mi.writes = some k → Writable slots k)
    (last : ∀ k, mi.writes = some k → k ∉ positionsWritten steps)
    (once : WritesOnce own slots regs steps st st' out) :
    WritesOnce own slots regs (.emit mi :: steps) st st' (mi.mapRegs (regAt regs) :: out) := by
  obtain ⟨nodup, all⟩ := once
  unfold WritesOnce destinations
  cases write : mi.writes with
  | none =>
    have none : (mi.mapRegs (regAt regs)).writes = none := by rw [writes_mapRegs, write]; rfl
    rw [List.filterMap_cons_none none]
    exact ⟨nodup, fun r' mem => (all r' mem).emit⟩
  | some k =>
    have some : (mi.mapRegs (regAt regs)).writes = some (regAt regs k) := by
      rw [writes_mapRegs, write]
      rfl
    rw [List.filterMap_cons_some some]
    refine ⟨List.nodup_cons.mpr ⟨fun mem => ?_, nodup⟩,
      List.forall_mem_cons.mpr ⟨?_, fun r' mem => (all r' mem).emit⟩⟩
    · exact (all _ mem).ne_written valid grows held apart (writable k write) (last k write) rfl
    · exact .inl ⟨k, by simp [positionsWritten, write], writable k write, rfl⟩

end Steps

/-- A handler writes each register once. -/
theorem runSteps_once {steps : List PlanStep} {out : List (Instruction Nat)} (valid : st.Valid)
    (inst : isConstantInt own = false) (held : List.Forall₂ (Holds L own st) slots regs)
    (apart : Apart slots regs) (wf : wellFormed slots steps = true)
    (once : writesOnce slots steps = true) (sub : ∀ u ∈ stepUses steps, u.1 ∈ L)
    (h : runSteps own regs steps st = some ((), out, st')) :
    WritesOnce own slots regs steps st st' out := by
  induction steps generalizing st slots regs out with
  | nil =>
    obtain ⟨-, rfl, rfl⟩ := pure_eq_some.mp h
    exact ⟨List.nodup_nil, nofun⟩
  | cons step steps ih =>
    have length := held.length_eq
    cases step with
    | result =>
      obtain ⟨r, out₁, st₁, out₂, asked, rest, rfl⟩ := bind_eq_some.mp h
      obtain ⟨rfl, handled, e⟩ := Handled.result (L := L) valid inst asked
      obtain ⟨first, once⟩ := Bool.and_eq_true_iff.mp once
      have first : .result ∉ slots := by simpa using first
      have held' := holds_append (s := .result) handled.grows held e
      have grows := (runSteps_ran handled.valid inst held' wf sub rest).handled.grows
      exact .result length first handled.grows (grows.keeps e)
        (ih handled.valid held' (apart.result held first handled.grows e) wf once sub rest)
    | use v materialize =>
      obtain ⟨r, out₁, st₁, out₂, lookedUp, rest, rfl⟩ := bind_eq_some.mp h
      obtain ⟨operand, sub⟩ := List.forall_mem_cons.mp sub
      obtain ⟨valid₁, grows, e⟩ := lookup_valid valid lookedUp
      have held' := holds_append (s := .use) grows held ⟨v, operand, e⟩
      have handled := (runSteps_ran valid₁ inst held' wf sub rest).handled
      exact .use valid handled.valid inst held lookedUp grows handled.grows
        (ih valid₁ held' (apart.append length nofun) wf once sub rest)
    | fresh =>
      obtain ⟨r, out₁, st₁, out₂, given, rest, rfl⟩ := bind_eq_some.mp h
      obtain ⟨rfl, valid₁, grows, temp, -⟩ := allocateVReg_valid valid given
      have new : r = st.nextVReg := by
        simp only [allocateVReg, Option.some.injEq, Prod.mk.injEq] at given
        exact given.1.symm
      have held' := holds_append (s := .fresh) grows held temp
      have apart' : Apart (slots ++ [.fresh]) (regs ++ [r]) := by
        refine apart.append length fun _ k writable same => ?_
        exact absurd (writable.lt valid held) (by omega)
      have handled := (runSteps_ran valid₁ inst held' wf sub rest).handled
      exact .fresh length grows new.ge (handled.grows.temp temp)
        (ih valid₁ held' apart' wf once sub rest)
    | emit mi =>
      obtain ⟨_, out₁, st₁, out₂, push, rest, rfl⟩ := bind_eq_some.mp h
      obtain ⟨rfl, rfl⟩ := push_eq_some.mp push
      obtain ⟨ok, wf⟩ := Bool.and_eq_true_iff.mp wf
      obtain ⟨unwritten, once⟩ := Bool.and_eq_true_iff.mp once
      have grows := (runSteps_ran valid inst held wf sub rest).handled.grows
      refine .emit valid grows held apart (fun k write => ?_) (fun k write => ?_)
        (ih valid held apart wf once sub rest)
      · simp only [emits, write, Bool.and_eq_true, Option.all_some, Bool.or_eq_true,
          decide_eq_true_eq] at ok
        exact ok.1.2
      · simpa [write] using unwritten

end Handlers

/-! ## Pieces -/

section Pieces

variable {dl : DataLayout} {f : Llvm.Function}

/-- The value whose register an item may write. -/
def Item.result : Item → Option Value
  | .argument argIdx _ => some (.argument argIdx)
  | .inst i => some (.instruction i.id)
  | .term _ => none

lemma Item.not_constant_of_result {item : Item} {v : Value} (h : item.result = some v) :
    isConstantInt v = false := by
  cases item with
  | argument | inst =>
    obtain rfl := Option.some.inj h
    rfl
  | term t => cases h

/-- The value whose register a piece may write. -/
def Piece.result (p : Piece) : Option Value := p.item.result

/-- A register that stands for no value or for a constant. -/
def Selector.Anonymous (st : Selector) (r : Nat) : Prop :=
  ∀ v, st.valueToVReg v = some r → isConstantInt v = true

lemma Grows.anonymous {st st' : Selector} (h : Grows st st') {r : Nat} (anonymous : st.Anonymous r)
    (lt : r < st.nextVReg) : st'.Anonymous r := by
  intro v e
  obtain old | le := h.new e
  · exact anonymous v old
  · omega

/-- What a piece writes is the register of its result, or a new one that stands for no other
result. -/
lemma destinations_piece {p : Piece} (valid : p.before.Valid)
    (h : selectItem dl f p.item p.before = some ((), p.code, p.after)) :
    (destinations (p.code.map Emitted.mi)).Nodup ∧ ∀ r ∈ destinations (p.code.map Emitted.mi),
      r < p.after.nextVReg ∧ ((∃ v, p.result = some v ∧ p.after.valueToVReg v = some r) ∨
        (p.before.nextVReg ≤ r ∧ p.after.Anonymous r)) := by
  obtain ⟨out, stepped⟩ := selectItem_stepped h
  obtain ⟨handled, result, -, -⟩ := stepped.ran valid
  have silent : destinations ((p.item.tail f).map Emitted.mi) = [] := by
    rw [destinations, List.filterMap_eq_nil_iff]
    intro mi mem
    obtain ⟨e, he, rfl⟩ := List.mem_map.mp mem
    exact (Item.mem_tail he).2.2
  have same : destinations (p.code.map Emitted.mi) = destinations out := by
    rw [stepped.code, List.map_append, map_mi_mk, destinations_append, silent, List.append_nil]
  obtain ⟨nodup, all⟩ := runSteps_once (L := (usesOf dl f p.item).map Prod.fst) valid
    p.item.isConstantInt_own .nil (fun j k hj => by obtain hj | hj := hj <;> cases j <;> cases hj)
    stepped.wellFormed (p.item.steps_once dl f)
    (fun u mem => List.mem_map_of_mem (stepped.uses ▸ mem)) stepped.run
  rw [same]
  refine ⟨nodup, fun r mem => ?_⟩
  obtain ⟨mi, hmi, write⟩ := mem_destinations.mp mem
  refine ⟨handled.write_lt hmi write, ?_⟩
  obtain ⟨k, -, writable, -⟩ | ⟨-, reg⟩ | ⟨le, ne⟩ := all r mem
  · obtain slot | slot := writable <;> cases k <;> cases slot
  · cases item : p.item with
    | argument | inst =>
      rw [item] at reg
      exact .inl ⟨_, by rw [Piece.result, item]; rfl, reg⟩
    | term t =>
      -- a terminator has no result
      have asked := result.mp ⟨mi, hmi, r, write, reg⟩
      rw [item, Item.steps] at asked
      unfold terminatorSteps conditionSteps at asked
      split at asked
      · split at asked <;> cases asked
      · cases asked
  · refine .inr ⟨le, fun v reg => ?_⟩
    obtain own | temp | ⟨c, reg', load⟩ := handled.writes mi hmi r write
    · exact absurd own ne
    · exact absurd reg (temp.2.2 v)
    · obtain rfl := handled.valid.inj reg reg'
      cases v with
      | constantInt w bits => rfl
      | argument | instruction | other => cases load

/-- Pieces with different results write each register once. -/
lemma PieceChain.once {seen seen' : List (Value × Bool)} {st st' : Selector} {ps : List Piece}
    (h : PieceChain dl f seen st ps seen' st') (valid : st.Valid)
    (distinct : (ps.filterMap Piece.result).Nodup) :
    (destinations ((ps.flatMap Piece.code).map Emitted.mi)).Nodup ∧
      ∀ r ∈ destinations ((ps.flatMap Piece.code).map Emitted.mi),
        r < st'.nextVReg ∧ ((∃ p ∈ ps, ∃ v, p.result = some v ∧ st'.valueToVReg v = some r) ∨
          (st.nextVReg ≤ r ∧ st'.Anonymous r)) := by
  induction h with
  | nil => exact ⟨List.nodup_nil, nofun⟩
  | @cons p ps seen' st' select rest ih =>
    have spec := selectItem_spec valid select
    obtain ⟨valid', grows, -⟩ := rest.spec spec.valid
    obtain ⟨nodup₁, all₁⟩ := destinations_piece valid select
    have tail : (ps.filterMap Piece.result).Nodup := by
      rw [List.filterMap_cons] at distinct
      split at distinct
      · exact distinct
      · exact distinct.of_cons
    obtain ⟨nodup₂, all₂⟩ := ih spec.valid tail
    rw [List.flatMap_cons, List.map_append, destinations_append]
    refine ⟨List.nodup_append.mpr ⟨nodup₁, nodup₂, ?_⟩, fun r mem => ?_⟩
    · rintro r mem _ mem' rfl
      obtain ⟨lt, ⟨v, result, reg⟩ | ⟨-, anonymous⟩⟩ := all₁ r mem <;>
        obtain ⟨-, ⟨q, hq, w, result', reg'⟩ | ⟨le, -⟩⟩ := all₂ r mem'
      · obtain rfl := valid'.inj (grows.keeps reg) reg'
        rw [List.filterMap_cons_some result, List.nodup_cons] at distinct
        exact distinct.1 (List.mem_filterMap.mpr ⟨q, hq, result'⟩)
      · omega
      · have constant := grows.anonymous anonymous lt w reg'
        rw [Item.not_constant_of_result result'] at constant
        cases constant
      · omega
    · obtain mem | mem := List.mem_append.mp mem
      · obtain ⟨lt, ⟨v, result, reg⟩ | ⟨le, anonymous⟩⟩ := all₁ r mem
        · exact ⟨lt.trans_le grows.next, .inl ⟨p, List.mem_cons_self, v, result, grows.keeps reg⟩⟩
        · exact ⟨lt.trans_le grows.next, .inr ⟨le, grows.anonymous anonymous lt⟩⟩
      · obtain ⟨lt, ⟨q, hq, found⟩ | ⟨le, anonymous⟩⟩ := all₂ r mem
        · exact ⟨lt, .inl ⟨q, List.mem_cons_of_mem _ hq, found⟩⟩
        · exact ⟨lt, .inr ⟨spec.grows.next.trans le, anonymous⟩⟩

/-! ## Functions -/

/-- The arguments are different values. -/
lemma results_arguments (args : List Llvm.Argument) (n : Nat) :
    (argumentItems n args).filterMap Item.result =
      (List.range' n args.length).map Value.argument := by
  induction args generalizing n with
  | nil => rfl
  | cons arg args ih => exact congrArg (Value.argument n :: ·) (ih (n + 1))

lemma results_body (body : List Llvm.Instruction) (t : Terminator) :
    (body.map Item.inst ++ [Item.term t]).filterMap Item.result =
      body.map fun i => .instruction i.id := by
  rw [List.filterMap_append, List.filterMap_map]
  simp [Item.result, Function.comp_def]

/-- The items of a function whose instructions are distinct have distinct results. -/
lemma nodup_results (ids : ((bodyOf f).map Llvm.Instruction.id).Nodup) :
    ((functionItems f).flatten.filterMap Item.result).Nodup := by
  have results : ∀ (bbs : List Llvm.BasicBlock) (b : Nat), 0 < b →
      (bbs.mapIdx fun k => itemsOf f (b + k)).flatten.filterMap Item.result =
        (bbs.flatMap Llvm.BasicBlock.body).map fun i => .instruction i.id := by
    intro bbs
    induction bbs with
    | nil => intros; rfl
    | cons bb bbs ih =>
      intro b pos
      have shift : (fun k => itemsOf f (b + (k + 1))) = fun k => itemsOf f (b + 1 + k) := by
        funext k
        rw [Nat.add_right_comm, Nat.add_assoc]
      rw [List.mapIdx_cons, shift, List.flatten_cons, List.filterMap_append, List.flatMap_cons,
        List.map_append, ih (b + 1) (Nat.succ_pos b), itemsOf, if_neg (by omega), List.nil_append,
        results_body]
  unfold functionItems
  cases e : f.blocks with
  | nil => exact List.nodup_nil
  | cons bb bbs =>
    have rest := results bbs 1 Nat.one_pos
    simp only [Nat.add_comm 1] at rest
    rw [List.mapIdx_cons, List.flatten_cons, List.filterMap_append, rest, itemsOf, if_pos rfl,
      List.filterMap_append, results_arguments, results_body, List.append_assoc, ← List.map_append]
    have body : bb.body ++ bbs.flatMap Llvm.BasicBlock.body = bodyOf f := by
      rw [bodyOf, e, List.flatMap_cons]
    rw [body]
    refine List.nodup_append.mpr ⟨?_, ?_, ?_⟩
    · exact (List.nodup_range').map fun _ _ same => Value.argument.inj same
    · have split : (bodyOf f).map (fun i => Value.instruction i.id) =
          ((bodyOf f).map Llvm.Instruction.id).map Value.instruction := by
        rw [List.map_map]
        rfl
      rw [split]
      exact ids.map fun _ _ same => Value.instruction.inj same
    · rintro v hv w hw rfl
      obtain ⟨k, -, rfl⟩ := List.mem_map.mp hv
      obtain ⟨i, -, e⟩ := List.mem_map.mp hw
      cases e

/-- The registers of a function are written once each, and were given out. -/
lemma selectFunction_once {code : List SelectedBlock} {st : Selector}
    (h : selectFunction dl f = some (code, st)) (ids : ((bodyOf f).map Llvm.Instruction.id).Nodup) :
    (destinations ((code.flatMap SelectedBlock.items).map Emitted.mi)).Nodup ∧
      ∀ r ∈ destinations ((code.flatMap SelectedBlock.items).map Emitted.mi),
        1 ≤ r ∧ r < st.nextVReg := by
  obtain ⟨pieces, seen, chain, selected⟩ := selectFunction_pieces h
  have distinct : (pieces.flatten.filterMap Piece.result).Nodup := by
    have results : pieces.flatten.filterMap Piece.result =
        (pieces.flatten.map Piece.item).filterMap Item.result := by
      rw [List.filterMap_map]
      rfl
    rw [results, selected.flatten_items]
    exact nodup_results ids
  obtain ⟨nodup, all⟩ := chain.once Selector.valid_start distinct
  rw [selected.flatMap_items]
  refine ⟨nodup, fun r mem => ?_⟩
  obtain ⟨lt, ⟨-, -, v, -, reg⟩ | ⟨le, -⟩⟩ := all r mem
  · exact ⟨(selected.valid.range reg).1, lt⟩
  · exact ⟨le, lt⟩

/-! ## Selection steps -/

/-- A state within an item, after some of its steps. -/
def Partway (dl : DataLayout) (f : Llvm.Function) (st' : Selector) : Prop :=
  ∃ st item items steps rest out, Selecting dl f st (item :: items) ∧
    item.steps dl f = steps ++ rest ∧ runSteps item.own [] steps st = some ((), out, st')

/-- Steps keep a state in order. -/
lemma runSteps_valid {own : Value} {regs : List Nat} {steps : List PlanStep} {st st' : Selector}
    {out : List (Instruction Nat)} (valid : st.Valid)
    (h : runSteps own regs steps st = some ((), out, st')) : st'.Valid := by
  induction steps generalizing st regs out with
  | nil =>
    obtain ⟨-, -, rfl⟩ := pure_eq_some.mp h
    exact valid
  | cons step steps ih =>
    cases step with
    | result =>
      obtain ⟨r, out₁, st₁, out₂, first, rest, rfl⟩ := bind_eq_some.mp h
      exact ih (getOrCreateVReg_valid valid first).2.1 rest
    | use v materialize =>
      obtain ⟨r, out₁, st₁, out₂, first, rest, rfl⟩ := bind_eq_some.mp h
      exact ih (lookup_valid valid first).1 rest
    | fresh =>
      obtain ⟨r, out₁, st₁, out₂, first, rest, rfl⟩ := bind_eq_some.mp h
      exact ih (allocateVReg_valid valid first).2.1 rest
    | emit mi =>
      obtain ⟨_, out₁, st₁, out₂, first, rest, rfl⟩ := bind_eq_some.mp h
      obtain ⟨rfl, rfl⟩ := push_eq_some.mp first
      exact ih valid rest

/-- With at most 255 registers each register is the destination of one instruction of the selected
code at most, none is R0, and the registers of values are different and given out in every state
that the selector passes. -/
theorem selectFunction_single_assignment {code : List SelectedBlock} {st : Selector}
    (h : selectFunction dl f = some (code, st)) (ids : ((bodyOf f).map Llvm.Instruction.id).Nodup)
    (few : st.nextVReg - 1 ≤ 255) :
    let emitted := code.flatMap fun sb => sb.code.instructions
    (emitted.filterMap Instruction.writes).Nodup ∧ 0 ∉ emitted.filterMap Instruction.writes ∧
      Selecting dl f st [] ∧ (∀ st' items, Selecting dl f st' items → st'.Valid) ∧
      ∀ st', Partway dl f st' → st'.Valid := by
  obtain ⟨nodup, all⟩ := selectFunction_once h ids
  have narrowed : (code.flatMap fun sb => sb.code.instructions).filterMap Instruction.writes =
      (destinations ((code.flatMap SelectedBlock.items).map Emitted.mi)).map narrow := by
    have instructions : (code.flatMap fun sb => sb.code.instructions) =
        (code.flatMap SelectedBlock.items).map fun e => e.mi.mapRegs narrow := by
      rw [List.map_flatMap]
      rfl
    rw [instructions, destinations, List.filterMap_map, List.filterMap_map, List.map_filterMap]
    exact List.filterMap_congr fun e _ => writes_mapRegs narrow e.mi
  obtain ⟨pieces, seen, chain, selected⟩ := selectFunction_pieces h
  have small : ∀ r ∈ destinations ((code.flatMap SelectedBlock.items).map Emitted.mi),
      (narrow r).toNat = r := by
    intro r mem
    have lt := (all r mem).2
    rw [narrow, BitVec.toNat_ofNat, Nat.mod_eq_of_lt (by omega)]
  refine ⟨?_, ?_, chain.selecting ?_, fun st' items selecting => selecting.valid, ?_⟩
  · rw [narrowed]
    refine List.Nodup.map_on (fun r mem r' mem' same => ?_) nodup
    rw [← small r mem, same, small r' mem']
  · rw [narrowed]
    intro mem
    obtain ⟨r, mem, zero⟩ := List.mem_map.mp mem
    have pos := (all r mem).1
    have same := small r mem
    rw [zero] at same
    exact absurd same.symm (Nat.ne_of_gt pos)
  · rw [List.append_nil, selected.flatten_items]
    exact .start
  · rintro st' ⟨st, item, items, steps, rest, out, selecting, -, run⟩
    exact runSteps_valid selecting.valid run

end Pieces

/-- Each register of a function with a store is written once. -/
theorem selectFunction_single_assignment_store :
    let emitted := storesLocalCode.1.flatMap fun sb => sb.code.instructions
    (emitted.filterMap Instruction.writes).Nodup ∧ 0 ∉ emitted.filterMap Instruction.writes :=
  have once := selectFunction_single_assignment (show selectFunction words storesLocal =
    some storesLocalCode from rfl) storesLocal_ssa.ids (by decide)
  ⟨once.1, once.2.1⟩

end FpgaGpu

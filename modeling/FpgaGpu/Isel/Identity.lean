import FpgaGpu.Isel.Requests

/-!
# Which registers are told apart

Registers count without bound in the selector, but the fields of an instruction have 8 bits. Two
things share a field value exactly if the numbers of their first requests agree modulo 256.
-/

namespace FpgaGpu

open Llvm (Value)
open Numbering (count number)
open Emission (bind_eq_some pure_eq_some push_eq_some)

/-! ## Numbers -/

/-- The registers given out are the numbers of what was asked for. -/
structure Numbered (xs : List Demand) (k : Nat) (st : Selector) : Prop where
  next : st.nextVReg = count xs + 1
  values : ∀ v, st.valueToVReg v = if .value v ∈ xs then some (number xs (.value v)) else none
  temporaries : ∀ j, .temporary j ∈ xs → j < k

/-- The register that answers a request. -/
def answer (xs : List Demand) : Option Demand → Nat
  | none => 0
  | some d => number (xs ++ [d]) d

section Requests

variable {xs : List Demand} {k k' : Nat} {st st' : Selector} {v : Value} {r : Nat} {d : Demand}

/-- A request for something that has a register. -/
lemma Numbered.again (numbered : Numbered xs k st) (old : d ∈ xs) : Numbered (xs ++ [d]) k st := by
  have same : ∀ d', d' ∈ xs ++ [d] ↔ d' ∈ xs := by
    intro d'
    simp only [List.mem_append, List.mem_singleton, or_iff_left_iff_imp]
    rintro rfl
    exact old
  refine ⟨?_, fun w => ?_, fun j mem => numbered.temporaries j ((same _).mp mem)⟩
  · rw [numbered.next, Numbering.count_append_of_mem old]
  · rw [numbered.values]
    by_cases mem : .value w ∈ xs
    · rw [if_pos mem, if_pos ((same _).mpr mem), Numbering.number_append_of_mem mem]
    · rw [if_neg mem, if_neg fun h => mem ((same _).mp h)]

/-- A request for something that has none. -/
lemma Numbered.new (numbered : Numbered xs k st) (new : d ∉ xs)
    (next : st'.nextVReg = st.nextVReg + 1)
    (values : ∀ w, st'.valueToVReg w = if .value w = d then some st.nextVReg else st.valueToVReg w)
    (temporary : ∀ j, .temporary j = d → j < k') (le : k ≤ k') :
    Numbered (xs ++ [d]) k' st' ∧ st.nextVReg = number (xs ++ [d]) d := by
  have self : st.nextVReg = number (xs ++ [d]) d := by
    rw [Numbering.number_append_self new, numbered.next]
  refine ⟨⟨?_, fun w => ?_, fun j mem => ?_⟩, self⟩
  · rw [next, numbered.next, Numbering.count_append_of_not_mem new]
  · rw [values]
    by_cases same : .value w = d
    · rw [if_pos same, if_pos (by simp [same]), same, ← self]
    · rw [if_neg same, numbered.values]
      by_cases mem : .value w ∈ xs
      · rw [if_pos mem, if_pos (List.mem_append_left _ mem), Numbering.number_append_of_mem mem]
      · rw [if_neg mem, if_neg (by simp [mem, same])]
  · obtain mem | mem := List.mem_append.mp mem
    · exact (numbered.temporaries j mem).trans_le le
    · exact temporary j (List.mem_singleton.mp mem)

/-- A request for a value. -/
lemma Numbered.value (numbered : Numbered xs k st)
    (h : (isZero v = true ∧ r = 0 ∧ st' = st) ∨
      (isZero v = false ∧ st.valueToVReg v = some r ∧ st' = st) ∨
      (isZero v = false ∧ st.valueToVReg v = none ∧ r = st.nextVReg ∧ st' = st.assign v)) :
    Numbered (xs ++ (demandOf k (some v)).toList) k st' ∧ r = answer xs (demandOf k (some v)) := by
  obtain ⟨zero, rfl, rfl⟩ | ⟨nonzero, e, rfl⟩ | ⟨nonzero, e, rfl, rfl⟩ := h
  · rw [demandOf, if_pos zero]
    exact ⟨by simpa using numbered, rfl⟩
  · have old : .value v ∈ xs := by
      by_contra new
      rw [numbered.values, if_neg new] at e
      cases e
    rw [numbered.values, if_pos old, Option.some.injEq] at e
    rw [demandOf, if_neg (by simp [nonzero])]
    exact ⟨numbered.again old, e.symm.trans (Numbering.number_append_of_mem old).symm⟩
  · have new : .value v ∉ xs := by
      intro old
      rw [numbered.values, if_pos old] at e
      cases e
    rw [demandOf, if_neg (by simp [nonzero])]
    refine numbered.new new rfl (fun w => ?_) nofun (Nat.le_refl k)
    by_cases same : w = v
    · subst same
      rw [Selector.assign_self, if_pos rfl]
    · rw [Selector.assign_of_ne same, if_neg (by simpa using same)]

/-- A request for a temporary. -/
lemma Numbered.temporary {ω : Type} {out : List ω} (numbered : Numbered xs k st)
    (h : allocateVReg st = some (r, out, st')) :
    Numbered (xs ++ (demandOf k none).toList) (k + 1) st' ∧ r = answer xs (demandOf k none) := by
  simp only [allocateVReg, Option.some.injEq, Prod.mk.injEq] at h
  obtain ⟨rfl, -, rfl⟩ := h
  have new : Demand.temporary k ∉ xs := fun mem => Nat.lt_irrefl k (numbered.temporaries k mem)
  refine numbered.new new rfl (fun w => ?_) (fun j e => ?_) (Nat.le_succ k)
  · rw [if_neg (by simp)]
  · obtain rfl := Demand.temporary.inj e
    exact Nat.lt_succ_self _

end Requests

/-! ## Mentions -/

/-- The number of a request that is marked. -/
def NumberOf (xs : List Demand) (k : Nat) (qs : List Request) (r : Nat) : Prop :=
  ∃ d, (d, true) ∈ demandsFrom k qs ∧ number (xs ++ (demandsFrom k qs).map Prod.fst) d = r

/-- The code mentions the numbers of the requests that are marked, and no others. -/
structure Answers (xs : List Demand) (k : Nat) (qs : List Request) (out : List (Instruction Nat))
    (st' : Selector) : Prop where
  numbered : Numbered (xs ++ (demandsFrom k qs).map Prod.fst) (temporaries k qs) st'
  mentions : ∀ r, r ≠ 0 → ((∃ mi ∈ out, r ∈ mi.registers) ↔ NumberOf xs k qs r)

section Mentions

variable {xs : List Demand} {k : Nat} {qs qs' : List Request} {out out' : List (Instruction Nat)}
variable {st st₁ st' : Selector}

lemma numberOf_append {r : Nat} : NumberOf xs k (qs ++ qs') r ↔
    NumberOf xs k qs r ∨ NumberOf (xs ++ (demandsFrom k qs).map Prod.fst)
      (temporaries k qs) qs' r := by
  unfold NumberOf
  rw [demandsFrom_append, List.map_append, ← List.append_assoc]
  simp only [List.mem_append, or_and_right, exists_or]
  refine or_congr (exists_congr fun d => and_congr_right fun mem => ?_) Iff.rfl
  rw [Numbering.number_append_of_mem (List.mem_append_right _ (List.mem_map_of_mem mem))]

lemma numberOf_cons {q : Option Value} {b : Bool} {r : Nat} : NumberOf xs k ((q, b) :: qs) r ↔
    (b = true ∧ ∃ d, demandOf k q = some d ∧ answer xs (some d) = r) ∨
      NumberOf (xs ++ (demandOf k q).toList) (nextTemporary k q) qs r := by
  have split : (demandsFrom k [(q, b)]).map Prod.fst = (demandOf k q).toList := by
    cases e : demandOf k q <;> simp [demandsFrom, e]
  rw [← List.singleton_append, numberOf_append, split]
  refine or_congr ?_ Iff.rfl
  unfold NumberOf
  rw [split]
  cases e : demandOf k q with
  | none => simp [demandsFrom, e]
  | some d => cases b <;> simp [demandsFrom, e, answer]

lemma Answers.append (h : Answers xs k qs out st₁)
    (h' : Answers (xs ++ (demandsFrom k qs).map Prod.fst) (temporaries k qs) qs' out' st') :
    Answers xs k (qs ++ qs') (out ++ out') st' := by
  refine ⟨?_, fun r nonzero => ?_⟩
  · rw [demandsFrom_append, List.map_append, ← List.append_assoc, temporaries_append]
    exact h'.numbered
  · rw [numberOf_append, ← h.mentions r nonzero, ← h'.mentions r nonzero]
    simp only [List.mem_append, or_and_right, exists_or]

lemma Answers.nothing (numbered : Numbered xs k st)
    (silent : ∀ mi ∈ out, ∀ r ∈ mi.registers, r = 0) : Answers xs k [] out st := by
  refine ⟨by simpa [demandsFrom, temporaries] using numbered, fun r nonzero => ?_⟩
  simp only [NumberOf, demandsFrom, List.not_mem_nil, false_and, exists_false, iff_false]
  rintro ⟨mi, mem, mention⟩
  exact nonzero (silent mi mem r mention)

end Mentions

/-! ## Handlers -/

/-- What steps mention from the registers `regs` on. -/
structure StepAnswers (xs : List Demand) (k : Nat) (regs : List Nat) (steps : List PlanStep)
    (qs : List Request) (out : List (Instruction Nat)) (st' : Selector) : Prop where
  numbered : Numbered (xs ++ (demandsFrom k qs).map Prod.fst) (temporaries k qs) st'
  only : ∀ mi ∈ out, ∀ r ∈ mi.registers, r = 0 ∨
    (∃ p ∈ positions steps, p ≤ regs.length ∧ r = regAt regs p) ∨ NumberOf xs k qs r
  before : ∀ p ∈ positions steps, p ≤ regs.length → ∃ mi ∈ out, regAt regs p ∈ mi.registers
  marked : ∀ r, NumberOf xs k qs r → ∃ mi ∈ out, r ∈ mi.registers

section Steps

variable {xs : List Demand} {k : Nat} {own : Value} {ps regs : List Nat} {slots : List Slot}
variable {st st₁ st' : Selector} {out out₁ out₂ : List (Instruction Nat)}

/-- A request and what follows it. -/
lemma StepAnswers.request {q : Option Value} {qs : List Request} {step : PlanStep}
    {rest : List PlanStep} {r : Nat} (same : positions (step :: rest) = positions rest)
    (agree : regs.length + 1 ∈ ps ↔ regs.length + 1 ∈ positions rest)
    (answered : r = answer xs (demandOf k q))
    (loaded : ∀ mi ∈ out₁, ∀ r' ∈ mi.registers, r' = 0 ∨
      (r' = r ∧ regs.length + 1 ∈ positions rest))
        (h : StepAnswers (xs ++ (demandOf k q).toList) (nextTemporary k q)
        (regs ++ [r]) rest qs out₂ st') :
    StepAnswers xs k regs (step :: rest) ((q, ps.contains (regs.length + 1)) :: qs)
      (out₁ ++ out₂) st' := by
  have here : ∀ {r'}, r' = r → regs.length + 1 ∈ positions rest →
      r' = 0 ∨ NumberOf xs k ((q, ps.contains (regs.length + 1)) :: qs) r' := by
    rintro r' rfl mem
    rw [answered]
    cases e : demandOf k q with
    | none => exact .inl rfl
    | some d => exact .inr (numberOf_cons.mpr (.inl ⟨by simpa using agree.mpr mem, d, e, rfl⟩))
  have right : ∀ {P : Instruction Nat → Prop}, (∃ mi ∈ out₂, P mi) → ∃ mi ∈ out₁ ++ out₂, P mi :=
    fun ⟨mi, mem, h⟩ => ⟨mi, List.mem_append_right _ mem, h⟩
  refine ⟨?_, fun mi mem r' mention => ?_, fun p mem le => ?_, fun r' mark => ?_⟩
  · have numbered := h.numbered
    simp only [demandsFrom, temporaries, List.map_append, List.map_map]
    rw [← List.append_assoc]
    convert numbered
    simp [Function.comp_def]
  · obtain mem | mem := List.mem_append.mp mem
    · obtain zero | ⟨e, position⟩ := loaded mi mem r' mention
      · exact .inl zero
      · exact (here e position).imp_right .inr
    · obtain zero | ⟨p, position, le, e⟩ | mark := h.only mi mem r' mention
      · exact .inl zero
      · rw [List.length_append, List.length_singleton] at le
        obtain le | rfl := Nat.le_or_eq_of_le_succ le
        · rw [regAt_append le] at e
          exact .inr (.inl ⟨p, same ▸ position, le, e⟩)
        · rw [regAt_append_length] at e
          exact (here e position).imp_right .inr
      · exact .inr (.inr (numberOf_cons.mpr (.inr mark)))
  · rw [same] at mem
    rw [← regAt_append (r := r) le]
    exact right (h.before p mem (by simp; omega))
  · obtain ⟨marked, d, e, rfl⟩ | mark := numberOf_cons.mp mark
    · have position : regs.length + 1 ∈ positions rest := agree.mp (by simpa using marked)
      have mention := h.before _ position (by simp)
      rw [regAt_append_length, answered, e] at mention
      exact right mention
    · exact right (h.marked r' mark)

/-- What loads a constant mentions R0 and its register. -/
lemma registers_of_mem_loads {v : Value} {materialize : Bool} {r r' : Nat} {mi : Instruction Nat}
    (mem : mi ∈ loads materialize r v) (mention : r' ∈ mi.registers) : r' = 0 ∨ r' = r := by
  cases v with
  | constantInt w bits =>
    cases materialize with
    | false => cases mem
    | true =>
      obtain rfl := List.mem_singleton.mp mem
      simpa [Instruction.registers, Instruction.reads, Instruction.writes, loadConstant,
        Instruction.ofOp, Opcode.usesRs1, Opcode.usesRs2, Opcode.usesRd] using mention
  | argument | instruction | other => cases mem

lemma registers_mapRegs {Reg Reg' : Type} (φ : Reg → Reg') (mi : Instruction Reg) :
    (mi.mapRegs φ).registers = mi.registers.map φ := by
  rw [Instruction.registers, reads_mapRegs, writes_mapRegs, Instruction.registers, List.map_append]
  cases mi.writes <;> rfl

/-- An instruction and what follows it. -/
lemma StepAnswers.emit {mi : Instruction Nat} {rest : List PlanStep} {qs : List Request}
    (h : StepAnswers xs k regs rest qs out st') (small : ∀ p ∈ mi.registers, p ≤ regs.length) :
    StepAnswers xs k regs (.emit mi :: rest) qs ([mi.mapRegs (regAt regs)] ++ out) st' := by
  refine ⟨h.numbered, fun mi' mem r mention => ?_, fun p mem le => ?_, fun r mark => ?_⟩
  · obtain mem | mem := List.mem_append.mp mem
    · obtain rfl := List.mem_singleton.mp mem
      rw [registers_mapRegs] at mention
      obtain ⟨p, hp, rfl⟩ := List.mem_map.mp mention
      exact .inr (.inl ⟨p, List.mem_append_left _ hp, small p hp, rfl⟩)
    · obtain zero | ⟨p, hp, le, e⟩ | mark := h.only mi' mem r mention
      · exact .inl zero
      · exact .inr (.inl ⟨p, List.mem_append_right _ hp, le, e⟩)
      · exact .inr (.inr mark)
  · obtain mem | mem := List.mem_append.mp mem
    · refine ⟨_, List.mem_append_left _ (List.mem_singleton_self _), ?_⟩
      rw [registers_mapRegs]
      exact List.mem_map_of_mem mem
    · obtain ⟨mi', mem', mention⟩ := h.before p mem le
      exact ⟨mi', List.mem_append_right _ mem', mention⟩
  · obtain ⟨mi', mem', mention⟩ := h.marked r mark
    exact ⟨mi', List.mem_append_right _ mem', mention⟩

/-- The steps of a handler. -/
lemma runSteps_answers {steps : List PlanStep} (numbered : Numbered xs k st)
    (len : slots.length = regs.length) (wf : wellFormed slots steps = true)
    (reads : readsUses regs.length steps = true)
    (agree : ∀ p, regs.length < p → (p ∈ ps ↔ p ∈ positions steps))
    (h : runSteps own regs steps st = some ((), out, st')) :
    StepAnswers xs k regs steps (stepRequests own ps regs.length steps) out st' := by
  -- of the positions still to be obtained, ps has those that the remaining steps mention
  induction steps generalizing st regs slots xs k out with
  | nil =>
    obtain ⟨-, rfl, rfl⟩ := pure_eq_some.mp h
    exact ⟨by simpa [stepRequests, demandsFrom, temporaries] using numbered, nofun, nofun,
      by simp [NumberOf, stepRequests, demandsFrom]⟩
  | cons step rest ih =>
    have agree' : ∀ {r : Nat}, positions (step :: rest) = positions rest →
        ∀ p, (regs ++ [r]).length < p → (p ∈ ps ↔ p ∈ positions rest) := by
      intro r same p lt
      rw [List.length_append, List.length_singleton] at lt
      rw [← same]
      exact agree p (by omega)
    have next : ∀ r : Nat, (regs ++ [r]).length = regs.length + 1 := by simp
    have len' : ∀ (s : Slot) (r : Nat), (slots ++ [s]).length = (regs ++ [r]).length := by
      intro s r
      rw [next, List.length_append, List.length_singleton, len]
    cases step with
    | result =>
      obtain ⟨r, out₁, st₁, out₂, first, last, rfl⟩ := bind_eq_some.mp h
      obtain ⟨rfl, created⟩ := getOrCreateVReg_cases first
      obtain ⟨numbered', answered⟩ := numbered.value created
      have rest := ih numbered' (len' .result r) wf (next r ▸ reads) (agree' rfl) last
      rw [next] at rest
      exact rest.request rfl (agree _ (Nat.lt_succ_self _)) answered nofun
    | fresh =>
      obtain ⟨r, out₁, st₁, out₂, first, last, rfl⟩ := bind_eq_some.mp h
      obtain ⟨numbered', answered⟩ := numbered.temporary first
      have rest := ih numbered' (len' .fresh r) wf (next r ▸ reads) (agree' rfl) last
      simp only [allocateVReg, Option.some.injEq, Prod.mk.injEq] at first
      obtain ⟨-, rfl, -⟩ := first
      rw [next] at rest
      exact rest.request rfl (agree _ (Nat.lt_succ_self _)) answered nofun
    | use v materialize =>
      obtain ⟨r, out₁, st₁, out₂, first, last, rfl⟩ := bind_eq_some.mp h
      obtain ⟨read, reads⟩ := Bool.and_eq_true_iff.mp reads
      have found := lookup_cases first
      obtain ⟨numbered', answered⟩ := numbered.value (r := r) (by tauto)
      have rest' := ih numbered' (len' .use r) wf (next r ▸ reads) (agree' rfl) last
      rw [next] at rest'
      refine rest'.request rfl (agree _ (Nat.lt_succ_self _)) answered fun mi mem r' mention => ?_
      obtain ⟨-, -, rfl, -⟩ | ⟨-, -, rfl, -⟩ | ⟨-, -, -, rfl, -⟩ := found
      · cases mem
      · cases mem
      · refine (registers_of_mem_loads mem mention).imp_right fun e => ⟨e, ?_⟩
        exact positionsRead_subset rest (by simpa using read)
    | emit mi =>
      obtain ⟨_, out₁, st₁, out₂, first, last, rfl⟩ := bind_eq_some.mp h
      obtain ⟨rfl, rfl⟩ := push_eq_some.mp first
      obtain ⟨ok, wf⟩ := Bool.and_eq_true_iff.mp wf
      have small : ∀ p ∈ mi.registers, p ≤ regs.length := fun p mem => len ▸ le_of_emits ok mem
      refine (ih numbered len wf reads (fun p lt => ?_) last).emit small
      rw [agree p lt, positions, List.mem_append, or_iff_right fun mem => ?_]
      have := small p mem
      omega

/-- A handler mentions what its requests say. -/
lemma runSteps_answers_requests {steps : List PlanStep} (numbered : Numbered xs k st)
    (wf : wellFormed [] steps = true) (reads : readsUses 0 steps = true)
    (h : runSteps own [] steps st = some ((), out, st')) :
    Answers xs k (requestsOf own steps) out st' := by
  have follow : StepAnswers xs k [] steps (requestsOf own steps) out st' :=
    runSteps_answers numbered rfl wf reads (fun p _ => Iff.rfl) h
  refine ⟨follow.numbered, fun r nonzero => ⟨?_, follow.marked r⟩⟩
  rintro ⟨mi, mem, mention⟩
  obtain zero | ⟨p, -, le, e⟩ | mark := follow.only mi mem r mention
  · exact absurd zero nonzero
  · obtain rfl := Nat.le_zero.mp le
    exact absurd e nonzero
  · exact mark

end Steps

/-! ## Functions -/

section Functions

variable {dl : DataLayout} {f : Llvm.Function} {xs : List Demand} {k : Nat} {st st' : Selector}
variable {code : List Emitted}

/-- An item. -/
lemma selectItem_answers {item : Item} (numbered : Numbered xs k st)
    (h : selectItem dl f item st = some ((), code, st')) :
    Answers xs k (itemRequests dl f item) (code.map Emitted.mi) st' := by
  obtain ⟨out, stepped⟩ := selectItem_stepped h
  have answers := runSteps_answers_requests numbered stepped.wellFormed stepped.reads stepped.run
  have silent : ∀ mi ∈ (item.tail f).map Emitted.mi, ∀ r ∈ mi.registers, r = 0 := by
    intro mi mem r mention
    obtain ⟨e, he, rfl⟩ := List.mem_map.mp mem
    obtain ⟨-, reads, writes⟩ := Item.mem_tail he
    rw [Instruction.registers, reads, writes] at mention
    cases mention
  rw [requestsOf_item] at answers
  rw [stepped.code, List.map_append, map_mi_mk, ← List.append_nil (itemRequests dl f item)]
  exact answers.append (.nothing answers.numbered silent)

/-- The pieces of a function. -/
lemma PieceChain.answers {uses uses' : List (Value × Bool)} {ps : List Piece}
    (h : PieceChain dl f uses st ps uses' st') (numbered : Numbered xs k st) :
    Answers xs k ((ps.map Piece.item).flatMap (itemRequests dl f))
      ((ps.flatMap Piece.code).map Emitted.mi) st' := by
  induction h generalizing xs k with
  | nil => exact .nothing numbered nofun
  | cons select rest ih =>
    have answers := selectItem_answers numbered select
    rw [List.map_cons, List.flatMap_cons, List.flatMap_cons, List.map_append]
    exact answers.append (ih answers.numbered)

/-- Some instruction mentions a register. -/
def Mentioned (code : List SelectedBlock) (r : Nat) : Prop :=
  ∃ sb ∈ code, ∃ e ∈ sb.items, r ∈ e.mi.registers

/-- The code mentions the registers that the demands of the function say. -/
lemma selectFunction_mentioned {code : List SelectedBlock}
    (h : selectFunction dl f = some (code, st)) :
    (∃ k, Numbered ((demands dl f).map Prod.fst) k st) ∧ ∀ r, r ≠ 0 →
      (Mentioned code r ↔ ∃ d, (d, true) ∈ demands dl f ∧
        number ((demands dl f).map Prod.fst) d = r) := by
  obtain ⟨pieces, uses, chain, selected⟩ := selectFunction_pieces h
  have start : Numbered [] 0 Selector.start := ⟨rfl, fun _ => rfl, nofun⟩
  have answers := chain.answers start
  rw [selected.flatten_items] at answers
  refine ⟨⟨_, answers.numbered⟩, fun r nonzero => Iff.trans ?_ (answers.mentions r nonzero)⟩
  rw [← selected.flatMap_items]
  simp only [Mentioned, List.mem_map, List.mem_flatMap]
  constructor
  · rintro ⟨sb, hsb, e, he, mention⟩
    exact ⟨e.mi, ⟨e, ⟨sb, hsb, he⟩, rfl⟩, mention⟩
  · rintro ⟨mi, ⟨e, ⟨sb, hsb, he⟩, rfl⟩, mention⟩
    exact ⟨sb, hsb, e, he, mention⟩

end Functions

/-! ## Identity -/

/-- What a register stands for: a value, or a temporary of the selector. -/
inductive Occupant where
  | value (v : Value)
  | temporary (r : Nat)

/-- The register of an occupant. -/
def Occupant.HasRegister (st : Selector) : Occupant → Nat → Prop
  | .value v, r => st.valueToVReg v = some r
  | .temporary r', r => st.Temp r ∧ r' = r

/-- No field of an instruction holds R0 for an occupant, or one number for two of them. -/
structure IdentityKept (code : List SelectedBlock) (st : Selector) : Prop where
  nonzero : ∀ a r, Occupant.HasRegister st a r → Mentioned code r → narrow r ≠ 0
  apart : ∀ a a' r r', a ≠ a' → Occupant.HasRegister st a r → Occupant.HasRegister st a' r' →
    Mentioned code r → Mentioned code r' → narrow r ≠ narrow r'

/-- No number of a demand that is mentioned is a multiple of 256, and no two of them agree modulo
256. -/
def NumbersApart (ds : List (Demand × Bool)) : Prop :=
  (∀ d, (d, true) ∈ ds → ¬ 256 ∣ number (ds.map Prod.fst) d) ∧
    ∀ d d', (d, true) ∈ ds → (d', true) ∈ ds →
      number (ds.map Prod.fst) d ≡ number (ds.map Prod.fst) d' [MOD 256] → d = d'

section Identity

variable {st : Selector}

lemma Occupant.HasRegister.pos (valid : st.Valid) {a : Occupant} {r : Nat}
    (h : a.HasRegister st r) :
    r ≠ 0 := by
  cases a with
  | value v => exact Nat.ne_of_gt (valid.range h).1
  | temporary r' => exact Nat.ne_of_gt h.1.1

lemma Occupant.HasRegister.functional {a : Occupant} {r r' : Nat} (h : a.HasRegister st r)
    (h' : a.HasRegister st r') : r = r' := by
  cases a with
  | value v => exact Option.some.inj (h.symm.trans h')
  | temporary r'' => exact h.2.symm.trans h'.2

lemma Occupant.HasRegister.injective (valid : st.Valid) {a a' : Occupant} {r : Nat}
    (h : a.HasRegister st r) (h' : a'.HasRegister st r) : a = a' := by
  cases a with
  | value v =>
    cases a' with
    | value v' => rw [valid.inj h h']
    | temporary r' => exact absurd h (h'.1.2.2 v)
  | temporary r' =>
    cases a' with
    | value v' => exact absurd h' (h.1.2.2 v')
    | temporary r'' => rw [h.2, h'.2]

/-- Every register that was given out has an occupant. -/
lemma exists_occupant {r : Nat} (pos : 1 ≤ r) (lt : r < st.nextVReg) :
    ∃ a, Occupant.HasRegister st a r := by
  by_cases value : ∃ v, st.valueToVReg v = some r
  · obtain ⟨v, e⟩ := value
    exact ⟨.value v, e⟩
  · exact ⟨.temporary r, ⟨pos, lt, fun v e => value ⟨v, e⟩⟩, rfl⟩

lemma narrow_eq_iff {r r' : Nat} : narrow r = narrow r' ↔ r ≡ r' [MOD 256] := by
  rw [narrow, narrow, ← BitVec.toNat_inj, BitVec.toNat_ofNat, BitVec.toNat_ofNat]
  rfl

lemma narrow_eq_zero_iff {r : Nat} : narrow r = 0 ↔ 256 ∣ r := by
  rw [show (0 : RegField) = narrow 0 from rfl, narrow_eq_iff, Nat.modEq_zero_iff_dvd]

end Identity

/-- The fields keep registers apart exactly if the numbers of what is mentioned are apart. -/
theorem selectFunction_identity_iff {dl : DataLayout} {f : Llvm.Function}
    {code : List SelectedBlock} {st : Selector} (h : selectFunction dl f = some (code, st)) :
    IdentityKept code st ↔ NumbersApart (demands dl f) := by
  obtain ⟨pieces, selected⟩ := selectFunction_selected h
  obtain ⟨⟨k, numbered⟩, mentioned⟩ := selectFunction_mentioned h
  have valid := selected.valid
  -- every number below the next register belongs to a value or a temporary
  have occupied : ∀ d, (d, true) ∈ demands dl f → ∃ a, Occupant.HasRegister st a
      (number ((demands dl f).map Prod.fst) d) ∧
      Mentioned code (number ((demands dl f).map Prod.fst) d) := by
    intro d mem
    have listed : d ∈ (demands dl f).map Prod.fst := List.mem_map_of_mem mem
    have le := Numbering.number_le listed
    have next := numbered.next
    obtain ⟨a, reg⟩ := exists_occupant (Nat.le_add_left 1 _)
      (show number ((demands dl f).map Prod.fst) d < st.nextVReg by omega)
    exact ⟨a, reg, (mentioned _ (reg.pos valid)).mpr ⟨d, mem, rfl⟩⟩
  constructor
  · intro kept
    refine ⟨fun d mem dvd => ?_, fun d d' mem mem' same => ?_⟩
    · obtain ⟨a, reg, mention⟩ := occupied d mem
      exact kept.nonzero a _ reg mention (narrow_eq_zero_iff.mpr dvd)
    · obtain ⟨a, reg, mention⟩ := occupied d mem
      obtain ⟨a', reg', mention'⟩ := occupied d' mem'
      by_contra ne
      refine kept.apart a a' _ _ ?_ reg reg' mention mention' (narrow_eq_iff.mpr same)
      rintro rfl
      exact ne (Numbering.number_inj (List.mem_map_of_mem mem) (List.mem_map_of_mem mem')
        (reg.functional reg'))
  · rintro ⟨nonzero, apart⟩
    refine ⟨fun a r reg mention zero => ?_, fun a a' r r' ne reg reg' mention mention' same => ?_⟩
    · obtain ⟨d, mem, rfl⟩ := (mentioned r (reg.pos valid)).mp mention
      exact nonzero d mem (narrow_eq_zero_iff.mp zero)
    · obtain ⟨d, mem, rfl⟩ := (mentioned r (reg.pos valid)).mp mention
      obtain ⟨d', mem', rfl⟩ := (mentioned r' (reg'.pos valid)).mp mention'
      obtain rfl := apart d d' mem mem' (narrow_eq_iff.mp same)
      exact ne (reg.injective valid reg')

/-- A kernel of `n` arguments. -/
def manyArguments (n : Nat) : Llvm.Function where
  args := List.replicate n { name := "x".toList, ty := .int 32 }
  blocks := [{ name := "entry".toList, body := [], terminator := .ret none }]

/-- Its selected code. -/
def manyArgumentsCode (n : Nat) : List SelectedBlock × Selector :=
  (selectFunction words (manyArguments n)).getD ([], .start)

/-- The condition for two arguments. -/
theorem selectFunction_identity_two : IdentityKept (manyArgumentsCode 2).1 (manyArgumentsCode 2).2 ↔
    NumbersApart (demands words (manyArguments 2)) :=
  selectFunction_identity_iff (show selectFunction words (manyArguments 2) = some _ from rfl)

/-- With 129 arguments the first and the last one share a field value. -/
theorem selectFunction_confused : (selectFunction words (manyArguments 129)).isSome = true ∧
    ¬ IdentityKept (manyArgumentsCode 129).1 (manyArgumentsCode 129).2 := by
  refine ⟨by decide +kernel, fun kept => ?_⟩
  have first : (manyArgumentsCode 129).2.valueToVReg (.argument 0) = some 1 := by decide +kernel
  have last : (manyArgumentsCode 129).2.valueToVReg (.argument 128) = some 257 := by decide +kernel
  have mention : ∀ r ∈ [1, 257], Mentioned (manyArgumentsCode 129).1 r := by
    unfold Mentioned
    decide +kernel
  exact kept.apart (.value (.argument 0)) (.value (.argument 128)) 1 257 (by simp) first last
    (mention 1 (by simp)) (mention 257 (by simp)) rfl

end FpgaGpu

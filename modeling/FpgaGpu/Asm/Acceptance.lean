import FpgaGpu.Asm.Operands
import FpgaGpu.Asm.Concatenation

/-!
# What is assembled

The instructions of a source are those of its lines, one after the other, and a label points at the
number of instructions before it. So a source is accepted exactly if every line is read through and
every label that a line refers to is defined by one.
-/

namespace FpgaGpu

/-! ## Targets -/

/-- The operand that a mnemonic may read as a label. -/
def targetOperand (mnemonic : Text) (operands : List Text) : Option Text :=
  if mnemonic = "BR".toList then operands[1]?
  else if mnemonic = "SSY".toList then operands[0]?
  else none

/-- What is no number is a label. -/
def asLabel (target : Text) : Option Text :=
  match stoi 0 target with
  | .ok _ => none
  | .error _ => some target

/-- The label that a line refers to. -/
def lineTarget (rawLine : Text) : Option Text :=
  match lineTokens rawLine with
  | [] => none
  | mnemonic :: operands => (targetOperand (upper mnemonic) operands).bind asLabel

/-- The label that an instruction refers to. -/
def targetOf (mi : MachineInstruction) : Option Text :=
  if mi.hasTarget then some mi.labelTarget else none

/-- The label that a parsed instruction refers to. -/
def Refers (x : Outcome MachineInstruction) (target : Option Text) : Prop :=
  ∀ mi, x = .ok mi → targetOf mi = target

section Targets

variable {mnemonic : Text} {tokens : List Text} {target : Option Text}

lemma token_eq_ok {tokens : List Text} {i : Nat} {t : Text} :
    token tokens i = .ok t ↔ tokens[i]? = some t := by
  unfold token
  cases tokens[i]? <;> simp

lemma Refers.bind {α : Type} {x : Outcome α} {f : α → Outcome MachineInstruction}
    (h : ∀ a, Refers (f a) target) : Refers (x >>= f) target := by
  intro mi e
  obtain ⟨a, -, e⟩ := Outcome.bind_eq_ok.mp e
  exact h a mi e

lemma targetOf_eq_none {mi : MachineInstruction} (h : mi.labelTarget = []) :
    targetOf mi = none := by
  simp [targetOf, Instruction.hasTarget, h]

lemma targetOf_eq_some {mi : MachineInstruction} (op : mi.op = .br ∨ mi.op = .ssy)
    (ne : mi.labelTarget ≠ []) : targetOf mi = some mi.labelTarget := by
  simp [targetOf, Instruction.hasTarget, op, ne]

lemma Refers.none {mi : MachineInstruction} (h : mi.labelTarget = []) : Refers (pure mi) none := by
  rintro mi ⟨⟩
  exact targetOf_eq_none h

lemma Refers.ite {c : Prop} [Decidable c] {x y : Outcome MachineInstruction}
    (pos : c → Refers x target) (neg : Refers y target) :
    Refers (if c then x else y) target := by
  by_cases h : c
  · rw [if_pos h]
    exact pos h
  · rw [if_neg h]
    exact neg

lemma parseRType_refers (op : Opcode) : Refers (parseRType op tokens) none :=
  .bind fun _ => .bind fun _ => .bind fun _ => .bind fun _ => .bind fun _ =>
    .bind fun _ => .none rfl

lemma parseCmp_refers : Refers (parseCmp tokens) none :=
  .bind fun _ => .bind fun _ => .bind fun _ => .bind fun _ => .none rfl

lemma parseAddi_refers : Refers (parseAddi tokens) none :=
  .bind fun _ => .bind fun _ => .bind fun _ => .bind fun _ => .bind fun _ =>
    .bind fun _ => .none rfl

lemma parseLdr_refers : Refers (parseLdr tokens) none :=
  .bind fun _ => .bind fun _ => .bind fun _ => .bind fun _ => .none rfl

lemma parseStr_refers : Refers (parseStr tokens) none :=
  .bind fun _ => .bind fun _ => .bind fun _ => .bind fun _ => .none rfl

lemma parseS2r_refers : Refers (parseS2r tokens) none :=
  .bind fun _ => .bind fun _ => .bind fun _ => .bind fun _ => .none rfl

/-- `BR` refers to its second operand, if that does not convert. -/
lemma parseBr_refers (ne : ∀ t ∈ tokens, t ≠ []) :
    Refers (parseBr tokens) (tokens[2]?.bind asLabel) := by
  intro mi h
  obtain ⟨cond, -, h⟩ := Outcome.bind_eq_ok.mp h
  obtain ⟨t, there, h⟩ := Outcome.bind_eq_ok.mp h
  rw [token_eq_ok] at there
  rw [there, Option.bind_some, asLabel]
  cases read : stoi 0 t with
  | ok p =>
    rw [read] at h
    cases h
    exact targetOf_eq_none rfl
  | error err =>
    rw [read] at h
    cases h
    exact targetOf_eq_some (.inl rfl) (ne t (List.mem_of_getElem? there))

/-- `SSY` refers to its operand, if that does not convert. -/
lemma parseSsy_refers (ne : ∀ t ∈ tokens, t ≠ []) :
    Refers (parseSsy tokens) (tokens[1]?.bind asLabel) := by
  intro mi h
  unfold parseSsy at h
  split_ifs at h
  obtain ⟨t, there, h⟩ := Outcome.bind_eq_ok.mp h
  rw [token_eq_ok] at there
  rw [there, Option.bind_some, asLabel]
  cases read : stoi 0 t with
  | ok p =>
    simp only [read] at h
    split_ifs at h
    cases h
    exact targetOf_eq_none rfl
  | error err =>
    simp only [read] at h
    cases err with
    | invalidArgument =>
      cases h
      exact targetOf_eq_some (.inr rfl) (ne t (List.mem_of_getElem? there))
    | outOfRange => cases h

/-- The label that the instruction of a mnemonic refers to. -/
lemma parseInstruction_refers (first : Text) {operands : List Text}
    (ne : ∀ t ∈ first :: operands, t ≠ []) :
    Refers (parseInstruction mnemonic (first :: operands))
      ((targetOperand mnemonic operands).bind asLabel) := by
  unfold parseInstruction
  refine .ite (fun e => ?_) <| .ite (fun e => ?_) <| .ite (fun e => ?_) <| .ite (fun e => ?_) <|
    .ite (fun e => ?_) <| .ite (fun e => ?_) <| .ite (fun e => ?_) <| .ite (fun e => ?_) <|
    .ite (fun e => ?_) <| .ite (fun e => ?_) <| .ite (fun e => ?_) <| .ite (fun e => ?_) nofun
  · exact e ▸ parseRType_refers _
  · exact e ▸ parseRType_refers _
  · exact e ▸ parseRType_refers _
  · exact e ▸ parseCmp_refers
  · exact e ▸ parseAddi_refers
  · exact e ▸ parseLdr_refers
  · exact e ▸ parseStr_refers
  · exact e ▸ parseS2r_refers
  · exact e ▸ parseBr_refers ne
  · exact e ▸ .none rfl
  · exact e ▸ parseSsy_refers ne
  · exact e ▸ .none rfl

end Targets

section Lines

variable {rawLine : Text} {rawLines : List Text} {mis : List MachineInstruction}

/-- A line refers to what its instruction refers to. -/
lemma lineTarget_eq_some (h : lineCode rawLine = .ok mis) {t : Text} :
    lineTarget rawLine = some t ↔ ∃ mi ∈ mis, targetOf mi = some t := by
  rw [lineCode] at h
  rw [lineTarget]
  cases tokens : lineTokens rawLine with
  | nil =>
    rw [tokens] at h
    cases h
    simp
  | cons mnemonic operands =>
    simp only [tokens] at h
    obtain ⟨mi, parsed, h⟩ := Outcome.bind_eq_ok.mp h
    cases h
    have ne : ∀ t ∈ mnemonic :: operands, t ≠ [] := fun t ht =>
      ne_nil_of_mem_splitFrom (tokens ▸ ht : t ∈ lineTokens rawLine)
    simp [parseInstruction_refers mnemonic ne mi parsed]

/-- Lines refer to what their instructions refer to. -/
lemma exists_lineTarget (h : linesCode rawLines = .ok mis) {t : Text} :
    (∃ l ∈ rawLines, lineTarget l = some t) ↔ ∃ mi ∈ mis, targetOf mi = some t := by
  induction rawLines generalizing mis with
  | nil =>
    cases h
    simp
  | cons rawLine rawLines ih =>
    obtain ⟨here, code, h⟩ := Outcome.bind_eq_ok.mp h
    obtain ⟨rest, codes, h⟩ := Outcome.bind_eq_ok.mp h
    cases h
    simp [lineTarget_eq_some code, ih codes, or_and_right, exists_or]

/-- A line has instructions if it is read through. -/
lemma lineCode_eq_ok_iff : (∃ mis, lineCode rawLine = .ok mis) ↔ ReadsThrough rawLine := by
  rw [← (parseLine_cases rawLine .empty).2, parseLine_eq]
  cases lineCode rawLine <;> simp

/-- Lines have instructions if each of them is read through. -/
lemma linesCode_eq_ok_iff :
    (∃ mis, linesCode rawLines = .ok mis) ↔ ∀ l ∈ rawLines, ReadsThrough l := by
  induction rawLines with
  | nil => simp [linesCode]
  | cons rawLine rawLines ih =>
    rw [List.forall_mem_cons, ← lineCode_eq_ok_iff, ← ih, linesCode]
    cases lineCode rawLine <;> cases linesCode rawLines <;> simp

/-- A label is known if it was known before or a line defines it. -/
lemma isSome_linesLabels {pc : Nat} {labels : Text → Option Nat} {t : Text} :
    (linesLabels pc labels rawLines t).isSome = true ↔
      (labels t).isSome = true ∨ t ∈ rawLines.filterMap lineLabel := by
  induction rawLines generalizing pc labels with
  | nil => simp [linesLabels]
  | cons rawLine rawLines ih =>
    rw [linesLabels, ih, lineLabels_apply]
    by_cases e : lineLabel rawLine = some t
    · simp [e]
    · simp [e]

lemma length_linesCode (h : linesCode rawLines = .ok mis) :
    mis.length = (rawLines.map lineSize).sum := by
  induction rawLines generalizing mis with
  | nil =>
    cases h
    rfl
  | cons rawLine rawLines ih =>
    obtain ⟨here, code, h⟩ := Outcome.bind_eq_ok.mp h
    obtain ⟨rest, codes, h⟩ := Outcome.bind_eq_ok.mp h
    cases h
    simp [length_lineCode code, ih codes]

lemma linesCode_append {rawLines' : List Text} : linesCode (rawLines ++ rawLines') = .ok mis ↔
    ∃ x y, linesCode rawLines = .ok x ∧ linesCode rawLines' = .ok y ∧ mis = x ++ y := by
  induction rawLines generalizing mis with
  | nil => simp [linesCode]
  | cons rawLine rawLines ih =>
    simp only [List.cons_append, linesCode, Outcome.bind_eq_ok, ih]
    constructor
    · rintro ⟨here, code, _, ⟨x, y, hx, hy, rfl⟩, h⟩
      cases h
      exact ⟨here ++ x, y, ⟨here, code, x, hx, rfl⟩, hy, by simp⟩
    · rintro ⟨_, y, ⟨here, code, x, hx, h⟩, hy, rfl⟩
      cases h
      exact ⟨here, code, x ++ y, ⟨x, y, hx, hy, rfl⟩, by simp⟩

end Lines

/-! ## Sources -/

/-- One line, and the other lines. -/
lemma forall_mem_split {pre post : List Text} {rawLine : Text} {p : Text → Prop} :
    (∀ l ∈ pre ++ rawLine :: post, p l) ↔ (∀ l ∈ pre ++ post, p l) ∧ p rawLine := by
  simp only [List.forall_mem_append, List.forall_mem_cons]
  tauto

/-- An instruction is resolved if its label is known. -/
lemma resolveTarget_eq_ok_iff {labels : Text → Option Nat} {pc : Nat} {mi : MachineInstruction} :
    (∃ mi', resolveTarget labels pc mi = .ok mi') ↔
      ∀ t, targetOf mi = some t → (labels t).isSome = true := by
  unfold resolveTarget targetOf
  split_ifs
  · cases e : labels mi.labelTarget <;> simp [e]
  · simp

/-- Instructions are resolved if their labels are known. -/
lemma resolveLabels_eq_ok_iff {labels : Text → Option Nat} {pc : Nat}
    {mis : List MachineInstruction} : (∃ words, resolveLabels labels pc mis = .ok words) ↔
      ∀ mi ∈ mis, ∀ t, targetOf mi = some t → (labels t).isSome = true := by
  induction mis generalizing pc with
  | nil => simp [resolveLabels]
  | cons mi mis ih =>
    rw [List.forall_mem_cons, ← ih, ← @resolveTarget_eq_ok_iff labels pc mi]
    simp only [resolveLabels_cons]
    constructor
    · rintro ⟨words, mi', rest, resolved, later, -⟩
      exact ⟨⟨mi', resolved⟩, rest, later⟩
    · rintro ⟨⟨mi', resolved⟩, rest, later⟩
      exact ⟨_, mi', rest, resolved, later, rfl⟩

/-- A source is accepted just when its lines are read through and define the labels that they refer
to. -/
theorem assemble_accepts_iff {source : Text} : (∃ words, assemble source = .ok words) ↔
    (∀ l ∈ getlines source, ReadsThrough l) ∧
      ∀ l ∈ getlines source, ∀ t, lineTarget l = some t → t ∈ labelsOf source := by
  rw [assemble_eq, ← linesCode_eq_ok_iff]
  cases code : linesCode (getlines source) with
  | ok mis =>
    have known : ∀ t, (linesLabels 0 (fun _ => none) (getlines source) t).isSome = true ↔
        t ∈ labelsOf source := fun t => by
      rw [isSome_linesLabels, labelsOf]
      simp
    simp only [Outcome.ok_bind, resolveLabels_eq_ok_iff, known, Outcome.ok.injEq, exists_eq',
      true_and]
    constructor
    · intro resolved l hl t refers
      obtain ⟨mi, hmi, target⟩ := (exists_lineTarget code).mp ⟨l, hl, refers⟩
      exact resolved mi hmi t target
    · intro defined mi hmi t target
      obtain ⟨l, hl, refers⟩ := (exists_lineTarget code).mpr ⟨mi, hmi, target⟩
      exact defined l hl t refers
  | rejected => simp
  | undefined => simp

/-- The word of the instruction at an index. -/
lemma getElem?_resolveLabels {labels : Text → Option Nat} {pc i : Nat}
    {mis : List MachineInstruction} {words : List Word} {mi : MachineInstruction}
    (h : resolveLabels labels pc mis = .ok words) (here : mis[i]? = some mi) :
    ∃ mi', resolveTarget labels (pc + i) mi = .ok mi' ∧ words[i]? = some (encode mi') := by
  induction mis generalizing pc i words with
  | nil => cases here
  | cons first mis ih =>
    obtain ⟨mi', rest, resolved, later, rfl⟩ := resolveLabels_cons.mp h
    cases i with
    | zero =>
      obtain rfl := Option.some.inj here
      exact ⟨mi', resolved, rfl⟩
    | succ i =>
      have := ih later here
      rwa [Nat.add_assoc, Nat.add_comm 1] at this

/-- The word of a line is that of its instruction, as many words into the code as the lines before
it have instructions. -/
theorem assemble_line {source rawLine : Text} {pre post : List Text} {words : List Word}
    {mi : MachineInstruction} (h : assemble source = .ok words)
    (lines : getlines source = pre ++ rawLine :: post) (code : lineCode rawLine = .ok [mi]) :
    ∃ mi', resolveTarget (linesLabels 0 (fun _ => none) (getlines source))
        (pre.map lineSize).sum mi = .ok mi' ∧
      words[(pre.map lineSize).sum]? = some (encode mi') := by
  rw [assemble_eq] at h
  obtain ⟨mis, codes, resolved⟩ := Outcome.bind_eq_ok.mp h
  have split := codes
  rw [lines, linesCode_append] at split
  obtain ⟨x, y, hx, hy, rfl⟩ := split
  rw [linesCode, code, Outcome.ok_bind] at hy
  obtain ⟨rest, -, hy⟩ := Outcome.bind_eq_ok.mp hy
  cases hy
  have here : (x ++ ([mi] ++ rest))[(pre.map lineSize).sum]? = some mi := by
    rw [← length_linesCode hx]
    simp
  simpa using getElem?_resolveLabels resolved here

end FpgaGpu

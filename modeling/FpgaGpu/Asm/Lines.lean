import FpgaGpu.Asm.Assembler

/-!
# Lines

What one line adds to what was parsed before: its instructions behind the ones that are there, and
its label at the next instruction. Nothing else of the state matters to a line.
-/

namespace FpgaGpu

/-! ## Parts of a line -/

/-- The tokens of a line, after its comment and its label are cut off. -/
def lineTokens (rawLine : Text) : List Text :=
  let line := trim (before ';' rawLine)
  split (if ':' ∈ line then trim (after ':' line) else line)

/-- The label that a line defines. -/
def lineLabel (rawLine : Text) : Option Text :=
  let line := trim (before ';' rawLine)
  if ':' ∈ line then some (trim (before ':' line)) else none

/-- The labels that a source text defines. -/
def labelsOf (source : Text) : List Text := (getlines source).filterMap lineLabel

/-- The instructions of a line. -/
def lineCode (rawLine : Text) : Outcome (List MachineInstruction) :=
  match lineTokens rawLine with
  | [] => .ok []
  | mnemonic :: operands => do
    let mi ← parseInstruction (upper mnemonic) (mnemonic :: operands)
    return [mi]

/-- The instructions of lines. -/
def linesCode : List Text → Outcome (List MachineInstruction)
  | [] => .ok []
  | rawLine :: rawLines => do
    let mis ← lineCode rawLine
    let rest ← linesCode rawLines
    return mis ++ rest

/-- The number of instructions of a line. -/
def lineSize (rawLine : Text) : Nat := if lineTokens rawLine = [] then 0 else 1

/-- The labels after a line at the instruction `pc`. -/
def lineLabels (pc : Nat) (labels : Text → Option Nat) (rawLine : Text) : Text → Option Nat :=
  match lineLabel rawLine with
  | some l => Function.update labels l (some pc)
  | none => labels

/-- The labels after lines, the first of which is at the instruction `pc`. -/
def linesLabels (pc : Nat) (labels : Text → Option Nat) : List Text → Text → Option Nat
  | [] => labels
  | rawLine :: rawLines =>
    linesLabels (pc + lineSize rawLine) (lineLabels pc labels rawLine) rawLines

/-- The entry of a label behind a line. -/
lemma lineLabels_apply (pc : Nat) (labels : Text → Option Nat) (rawLine L : Text) :
    lineLabels pc labels rawLine L = if lineLabel rawLine = some L then some pc else labels L := by
  unfold lineLabels
  cases lineLabel rawLine with
  | none => rfl
  | some name =>
    by_cases eq : L = name
    · simp [eq]
    · simp [eq, Ne.symm eq]

/-- A label that no line defines keeps its entry. -/
lemma linesLabels_of_not_mem {rawLines : List Text} {L : Text} (pc : Nat)
    (labels : Text → Option Nat) (other : L ∉ rawLines.filterMap lineLabel) :
    linesLabels pc labels rawLines L = labels L := by
  induction rawLines generalizing pc labels with
  | nil => rfl
  | cons rawLine rawLines ih =>
    have later : L ∉ rawLines.filterMap lineLabel := by
      intro mem
      obtain ⟨l, hl, e⟩ := List.mem_filterMap.mp mem
      exact other (List.mem_filterMap.mpr ⟨l, List.mem_cons_of_mem _ hl, e⟩)
    rw [linesLabels, ih _ _ later, lineLabels_apply, if_neg]
    intro e
    exact other (List.mem_filterMap.mpr ⟨rawLine, List.mem_cons_self, e⟩)

/-- A line appends its instructions and defines its label. -/
lemma parseLine_eq (rawLine : Text) (st : Parse) : parseLine rawLine st =
    (lineCode rawLine >>= fun mis => pure
      { instructions := st.instructions ++ mis
        labels := lineLabels st.instructions.length st.labels rawLine }) := by
  have tokens (line : Text) (st : Parse) : parseTokens line st =
      ((match split line with
        | [] => .ok []
        | mnemonic :: operands => do
          let mi ← parseInstruction (upper mnemonic) (mnemonic :: operands)
          return [mi]) >>= fun mis => pure { st with instructions := st.instructions ++ mis }) := by
    unfold parseTokens
    cases split line with
    | nil => simp
    | cons mnemonic operands =>
      cases e : parseInstruction (upper mnemonic) (mnemonic :: operands) <;> simp [e, Parse.push]
  simp only [parseLine, lineCode, lineTokens, lineLabels, lineLabel]
  split_ifs with blank colon colon bare
  · rw [blank] at colon
    cases colon
  · rw [blank]
    simp
  · rw [bare]
    simp [Parse.define]
  · exact tokens _ _
  · exact tokens _ _

/-- The number of instructions of a line that is read. -/
lemma length_lineCode {rawLine : Text} {mis : List MachineInstruction}
    (h : lineCode rawLine = .ok mis) : mis.length = lineSize rawLine := by
  unfold lineCode at h
  unfold lineSize
  split at h
  · next e =>
    cases h
    rw [if_pos e]
    rfl
  · next e =>
    obtain ⟨mi, -, h⟩ := Outcome.bind_eq_ok.mp h
    cases h
    rw [if_neg (by simp [e])]
    rfl

/-- Lines append their instructions and define their labels. -/
lemma parseLines_eq (rawLines : List Text) (st : Parse) : parseLines rawLines st =
    (linesCode rawLines >>= fun mis => pure
      { instructions := st.instructions ++ mis
        labels := linesLabels st.instructions.length st.labels rawLines }) := by
  induction rawLines generalizing st with
  | nil => simp [parseLines, linesCode, linesLabels]
  | cons rawLine rawLines ih =>
    rw [parseLines, parseLine_eq, linesCode]
    cases e : lineCode rawLine with
    | ok mis =>
      simp only [Outcome.ok_bind, Outcome.pure_eq, ih, List.length_append, length_lineCode e]
      cases linesCode rawLines <;> simp [linesLabels]
    | rejected => rfl
    | undefined => rfl

/-- Assembling is collecting the instructions and resolving their targets. -/
theorem assemble_eq (source : Text) : assemble source = (linesCode (getlines source) >>=
    resolveLabels (linesLabels 0 (fun _ => none) (getlines source)) 0) := by
  rw [assemble, parseLines_eq]
  cases linesCode (getlines source) <;> simp [Parse.empty]

end FpgaGpu

import FpgaGpu.Asm.Acceptance
import FpgaGpu.Asm.Grammar
import FpgaGpu.Asm.Reading

/-!
# Targets of branches and reconvergence points

`BR` and `SSY` read their target with two parsers. Both take a number that is consumed to its end as
an offset and what is no number as a label. `BR` also takes a number with something behind it as an
offset, and a number that is out of range as a label; `SSY` refuses both.
-/

namespace FpgaGpu

/-! ## Printed lines -/

/-- A printed line has no label, and its tokens are what was printed. -/
lemma lineTokens_lineText {mnemonic : String} {ops : List Text} (hm : Printed mnemonic.toList)
    (hops : ∀ t ∈ ops, Printed t) (some : ops ≠ []) :
    lineTokens (lineText mnemonic ops) = mnemonic.toList :: ops ∧
      lineLabel (lineText mnemonic ops) = none := by
  obtain ⟨plain, trimmed, -, -⟩ := lineText_shape hm hops some
  have semi : ';' ∉ lineText mnemonic ops := fun m => (plain _ m).1 rfl
  have colon : ':' ∉ lineText mnemonic ops := fun m => (plain _ m).2 rfl
  have body : trim (before ';' (lineText mnemonic ops)) = lineText mnemonic ops := by
    rw [before_eq_self semi, trimmed]
  simp only [lineTokens, lineLabel, body, if_neg colon, and_true]
  exact split_lineText hm.solid hm.ne fun t ht => ⟨(hops t ht).solid, (hops t ht).ne⟩

/-- A target token is printed as one operand. -/
lemma Printed.of_token {t : Text} (ne : t ≠ []) (solid : Solid t) (plain : Plain t) :
    Printed t where
  solid := solid
  plain := plain
  ne := ne
  line hc := absurd (solid _ hc) (by decide)

/-- An instruction with an offset or, where the target is no number, a label. -/
def targetInstruction (op : Opcode) (t : Text) : MachineInstruction :=
  match stoi 0 t with
  | .ok (imm, _) => { MachineInstruction.ofOp op with imm := imm }
  | .error _ => { MachineInstruction.ofOp op with labelTarget := t }

section Target

variable {t : Text} (printed : Printed t)
include printed

lemma ssyLine_tokens : lineTokens (lineText "SSY" [t]) = ["SSY".toList, t] ∧
    lineLabel (lineText "SSY" [t]) = none :=
  lineTokens_lineText (.of_all (by decide) (by decide)) (by simpa using printed) (by simp)

lemma brLine_tokens :
    lineTokens (lineText "BR" ["NZP".toList, t]) = ["BR".toList, "NZP".toList, t] ∧
    lineLabel (lineText "BR" ["NZP".toList, t]) = none := by
  have nzp : Printed "NZP".toList := .of_all (by decide) (by decide)
  exact lineTokens_lineText (.of_all (by decide) (by decide))
    (List.forall_mem_cons.mpr ⟨nzp, by simpa using printed⟩) (by simp)

lemma ssyLine_readsThrough :
    ReadsThrough (lineText "SSY" [t]) ↔ ¬ HasTail t ∧ stoi 0 t ≠ .error .outOfRange := by
  have form : operandForm (upper "SSY".toList) = some [.offset] := by decide
  have read : Operand.offset.read t = .ok () ↔ ¬ HasTail t ∧ stoi 0 t ≠ .error .outOfRange := by
    rw [Operand.read, HasTail]
    cases stoi 0 t with
    | ok p =>
      obtain ⟨value, consumed⟩ := p
      simp
    | error e => cases e <;> simp
  rw [readsThrough_iff (ssyLine_tokens printed).1, ← read, form]
  simp [Convert]

lemma brLine_readsThrough : ReadsThrough (lineText "BR" ["NZP".toList, t]) := by
  have form : operandForm (upper "BR".toList) = some [.condition, .target] := by decide
  rw [readsThrough_iff (brLine_tokens printed).1, form]
  refine ⟨_, rfl, by simp, fun ssy => absurd ssy (by decide), fun p hp => ?_⟩
  obtain rfl | rfl : p = (.condition, "NZP".toList) ∨ p = (.target, t) := by simpa using hp
  · rfl
  · rfl

/-- The instruction of an `SSY` that is read. -/
lemma lineCode_ssyLine (read : ReadsThrough (lineText "SSY" [t])) :
    lineCode (lineText "SSY" [t]) = .ok [targetInstruction .ssy t] := by
  obtain ⟨bare, range⟩ := (ssyLine_readsThrough printed).mp read
  have ssy : parseInstruction (upper "SSY".toList) ["SSY".toList, t] =
      parseSsy ["SSY".toList, t] := rfl
  rw [lineCode, (ssyLine_tokens printed).1]
  simp only [ssy, parseSsy, token, targetInstruction]
  cases e : stoi 0 t with
  | ok p =>
    obtain ⟨value, consumed⟩ := p
    have all : consumed = t.length := by
      by_contra ne
      exact bare ⟨value, consumed, e, ne⟩
    simp [e, all]
  | error err =>
    cases err with
    | invalidArgument => simp [e]
    | outOfRange => exact absurd e range

/-- The instruction of a `BR`. -/
lemma lineCode_brLine :
    lineCode (lineText "BR" ["NZP".toList, t]) = .ok [targetInstruction .br t] := by
  have br : parseInstruction (upper "BR".toList) ["BR".toList, "NZP".toList, t] =
      parseBr ["BR".toList, "NZP".toList, t] := rfl
  have always : parseCondition ['N', 'Z', 'P'] = BranchCond.ALWAYS := by decide
  rw [lineCode, (brLine_tokens printed).1]
  simp only [br, parseBr, token, targetInstruction]
  cases e : stoi 0 t with
  | ok p =>
    obtain ⟨value, consumed⟩ := p
    simp [e, always, Instruction.ofOp]
  | error err => simp [e, always, Instruction.ofOp]

lemma lineTarget_ssyLine : lineTarget (lineText "SSY" [t]) = asLabel t := by
  rw [lineTarget, (ssyLine_tokens printed).1]
  rfl

lemma lineTarget_brLine : lineTarget (lineText "BR" ["NZP".toList, t]) = asLabel t := by
  rw [lineTarget, (brLine_tokens printed).1]
  rfl

end Target

/-! ## Replacing a line -/

/-- `S` and `S'` are both accepted or both not, and their words at `k` have the same low 19 bits. -/
structure ReadAlike (S S' : Text) (k : Nat) : Prop where
  accepted : (∃ words, assemble S = .ok words) ↔ ∃ words, assemble S' = .ok words
  offset : ∀ words words', assemble S = .ok words → assemble S' = .ok words' →
    ∃ w w', words[k]? = some w ∧ words'[k]? = some w' ∧ w.setWidth 19 = w'.setWidth 19

/-- Lines that are read through and define the labels that they refer to. -/
structure LinesAccepted (rawLines : List Text) : Prop where
  readsThrough : ∀ l ∈ rawLines, ReadsThrough l
  defined : ∀ l ∈ rawLines, ∀ t, lineTarget l = some t → t ∈ rawLines.filterMap lineLabel

/-- A source with one more line, which defines no label. -/
lemma accepts_insert_iff {S rawLine : Text} {pre post : List Text}
    (lines : getlines S = pre ++ rawLine :: post) (unlabeled : lineLabel rawLine = none) :
    (∃ words, assemble S = .ok words) ↔ LinesAccepted (pre ++ post) ∧ ReadsThrough rawLine ∧
      ∀ t, lineTarget rawLine = some t → t ∈ (pre ++ post).filterMap lineLabel := by
  have labels : labelsOf S = (pre ++ post).filterMap lineLabel := by
    simp [labelsOf, lines, unlabeled]
  rw [assemble_accepts_iff, labels, lines, forall_mem_split, forall_mem_split]
  constructor
  · rintro ⟨⟨reads, here⟩, defined, target⟩
    exact ⟨⟨reads, defined⟩, here, target⟩
  · rintro ⟨⟨reads, defined⟩, here, target⟩
    exact ⟨⟨reads, here⟩, defined, target⟩

/-- The labels do not depend on what the instructions are. -/
lemma linesLabels_congr {rawLine rawLine' : Text} (size : lineSize rawLine = lineSize rawLine')
    (label : lineLabel rawLine = lineLabel rawLine') (pre post : List Text) (pc : Nat)
    (labels : Text → Option Nat) : linesLabels pc labels (pre ++ rawLine :: post) =
      linesLabels pc labels (pre ++ rawLine' :: post) := by
  induction pre generalizing pc labels with
  | nil => simp only [List.nil_append, linesLabels, lineLabels, size, label]
  | cons l pre ih => exact ih _ _

/-- The low bits of a resolved instruction do not depend on which of the two it is. -/
lemma resolveTarget_targetInstruction {t : Text} (ne : t ≠ []) {op op' : Opcode}
    (use : op = .br ∨ op = .ssy) (use' : op' = .br ∨ op' = .ssy) {labels : Text → Option Nat}
    {pc : Nat} {mi mi' : MachineInstruction}
    (h : resolveTarget labels pc (targetInstruction op t) = .ok mi)
    (h' : resolveTarget labels pc (targetInstruction op' t) = .ok mi') :
    (encode mi).setWidth 19 = (encode mi').setWidth 19 := by
  have resolved : ∀ {op mi}, op = .br ∨ op = .ssy →
      resolveTarget labels pc (targetInstruction op t) = .ok mi → mi.op = op ∧ some mi.imm =
        match stoi 0 t with
        | .ok (imm, _) => some imm
        | .error _ => (labels t).map (pcOffset · pc) := by
    intro op mi use h
    unfold targetInstruction resolveTarget at h
    cases e : stoi 0 t with
    | ok p =>
      have bare : ({ MachineInstruction.ofOp op with imm := p.1 } : MachineInstruction).hasTarget =
          false := by simp [Instruction.hasTarget, Instruction.ofOp]
      simp only [e, bare, Bool.false_eq_true, if_false] at h
      cases h
      exact ⟨rfl, rfl⟩
    | error err =>
      have target :
          ({ MachineInstruction.ofOp op with labelTarget := t } : MachineInstruction).hasTarget =
            true := by
        simp [Instruction.hasTarget, Instruction.ofOp, use, ne]
      simp only [e, target, if_true] at h
      cases known : labels t with
      | none =>
        rw [known] at h
        cases h
      | some d =>
        rw [known] at h
        cases h
        exact ⟨rfl, rfl⟩
  obtain ⟨is, imm⟩ := resolved use h
  obtain ⟨is', imm'⟩ := resolved use' h'
  have uses : ∀ {op : Opcode}, op = .br ∨ op = .ssy → op.usesImm19 = true := by
    rintro op (rfl | rfl) <;> rfl
  rw [encode_setWidth19 (is ▸ uses use), encode_setWidth19 (is' ▸ uses use'),
    Option.some.inj (imm.trans imm'.symm)]

/-- Replacing `SSY t` by `BR NZP, t` changes nothing just when the rest of the source is refused or
`t` is one that both read: a number with nothing behind it, or no number; or a number out of range
that no line defines as a label, which both refuse. -/
theorem assemble_readAlike_iff {S S' t : Text} {pre post : List Text} (ne : t ≠ [])
    (solid : Solid t) (plain : Plain t) (ssy : getlines S = pre ++ lineText "SSY" [t] :: post)
    (br : getlines S' = pre ++ lineText "BR" ["NZP".toList, t] :: post) :
    ReadAlike S S' (pre.map lineSize).sum ↔ (LinesAccepted (pre ++ post) → ¬ HasTail t ∧
      (stoi 0 t = .error .outOfRange → t ∉ (pre ++ post).filterMap lineLabel)) := by
  have printed := Printed.of_token ne solid plain
  have accepts := accepts_insert_iff ssy (ssyLine_tokens printed).2
  have accepts' := accepts_insert_iff br (brLine_tokens printed).2
  rw [ssyLine_readsThrough printed, lineTarget_ssyLine printed] at accepts
  rw [lineTarget_brLine printed] at accepts'
  have reads := brLine_readsThrough printed
  constructor
  · intro alike rest
    have only : (∀ l, asLabel t = some l → l ∈ (pre ++ post).filterMap lineLabel) →
        ¬ HasTail t ∧ stoi 0 t ≠ .error .outOfRange := fun target =>
      (accepts.mp (alike.accepted.mpr (accepts'.mpr ⟨rest, reads, target⟩))).2.1
    refine ⟨fun tail => ?_, fun range mem => ?_⟩
    · -- a number is no label, whatever is behind it
      obtain ⟨value, consumed, e, -⟩ := id tail
      refine (only fun l hl => ?_).1 tail
      rw [asLabel, e] at hl
      cases hl
    · refine (only fun l hl => ?_).2 range
      rw [asLabel, range] at hl
      exact Option.some.inj hl ▸ mem
  · intro both
    refine ⟨?_, fun words words' h h' => ?_⟩
    · rw [accepts, accepts']
      constructor
      · rintro ⟨rest, -, target⟩
        exact ⟨rest, reads, target⟩
      · rintro ⟨rest, -, target⟩
        obtain ⟨bare, range⟩ := both rest
        exact ⟨rest, ⟨bare, fun e => range e (target t (by rw [asLabel, e]))⟩, target⟩
    · have read := (ssyLine_readsThrough printed).mpr (accepts.mp ⟨words, h⟩).2.1
      obtain ⟨mi, resolved, word⟩ := assemble_line h ssy (lineCode_ssyLine printed read)
      obtain ⟨mi', resolved', word'⟩ := assemble_line h' br (lineCode_brLine printed)
      have size : lineSize (lineText "SSY" [t]) = lineSize (lineText "BR" ["NZP".toList, t]) := by
        rw [lineSize, lineSize, (ssyLine_tokens printed).1, (brLine_tokens printed).1]
        rfl
      have label : lineLabel (lineText "SSY" [t]) =
          lineLabel (lineText "BR" ["NZP".toList, t]) := by
        rw [(ssyLine_tokens printed).2, (brLine_tokens printed).2]
      rw [ssy, linesLabels_congr size label, ← br] at resolved
      exact ⟨_, _, word, word',
        resolveTarget_targetInstruction ne (.inr rfl) (.inl rfl) resolved resolved'⟩

/-- A label, which both read. -/
theorem assemble_readAlike_label :
    ReadAlike "again: CMP R1, R2\nSSY again\nEXIT".toList
      "again: CMP R1, R2\nBR NZP, again\nEXIT".toList 1 := by
  have printed : Printed "again".toList := .of_all (by decide) (by decide)
  have ssy : getlines "again: CMP R1, R2\nSSY again\nEXIT".toList = ["again: CMP R1, R2".toList] ++
    lineText "SSY" ["again".toList] :: ["EXIT".toList] := by decide
  have br : getlines "again: CMP R1, R2\nBR NZP, again\nEXIT".toList =
    ["again: CMP R1, R2".toList] ++
      lineText "BR" ["NZP".toList, "again".toList] :: ["EXIT".toList] := by decide
  have label : stoi 0 "again".toList = .error .invalidArgument := by decide
  refine (assemble_readAlike_iff printed.ne printed.solid printed.plain ssy br).mpr fun _ =>
    ⟨?_, ?_⟩
  · rintro ⟨value, consumed, e, -⟩
    cases label.symm.trans e
  · intro e
    cases label.symm.trans e

/-- A number with letters behind it, which only `BR` reads. -/
theorem assemble_readApart :
    ¬ ∀ (S S' t : Text) (pre post : List Text), t ≠ [] → Solid t → Plain t →
    getlines S = pre ++ lineText "SSY" [t] :: post →
    getlines S' = pre ++ lineText "BR" ["NZP".toList, t] :: post →
    ReadAlike S S' (pre.map lineSize).sum := by
  intro h
  have printed : Printed "12abc".toList := .of_all (by decide) (by decide)
  have alike := h "SSY 12abc".toList "BR NZP, 12abc".toList "12abc".toList [] [] printed.ne
    printed.solid printed.plain (by decide) (by decide)
  obtain ⟨words, e⟩ := alike.accepted.mpr ⟨[0xc038000c], by decide⟩
  rw [show assemble "SSY 12abc".toList = .rejected by decide] at e
  cases e

end FpgaGpu

import FpgaGpu.Asm.Lines

/-!
# Concatenated sources

Assembled code does not depend on where it stands. Parsing from a state collects what it collects
from the start, moved behind that state, and the offset to a label does not change when the
instruction and the label move together.
-/

namespace FpgaGpu

/-! ## Lines -/

/-- The lines of two texts with a newline between them. There is a blank line in between if the
first text ends with a newline or is empty. -/
lemma linesFrom_append (current s t : Text) : ∃ blank : List Text, (∀ l ∈ blank, l = []) ∧
    linesFrom current (s ++ '\n' :: t) = linesFrom current s ++ (blank ++ getlines t) := by
  induction s generalizing current with
  | nil =>
    by_cases e : current = []
    · exact ⟨[[]], by simp, by simp [linesFrom, getlines, e]⟩
    · exact ⟨[], by simp, by simp [linesFrom, getlines, e]⟩
  | cons c s ih =>
    by_cases e : c = '\n'
    · obtain ⟨blank, empty, lines⟩ := ih []
      exact ⟨blank, empty, by simp [linesFrom, e, lines]⟩
    · obtain ⟨blank, empty, lines⟩ := ih (current ++ [c])
      exact ⟨blank, empty, by simp [linesFrom, e, lines]⟩

/-! ## Parsing from a state -/

/-- What a state collected, followed by what another one did. -/
def Parse.append (st st' : Parse) : Parse where
  instructions := st.instructions ++ st'.instructions
  labels := fun l => ((st'.labels l).map (st.instructions.length + ·)).or (st.labels l)

section Parsing

variable {st st' : Parse}

lemma Parse.append_empty : st.append .empty = st := by
  simp [Parse.append, Parse.empty]

/-- Parsing a line from a state moves what it gives behind it. -/
lemma parseLine_append (rawLine : Text) : parseLine rawLine (st.append st') =
    (parseLine rawLine st' >>= fun p => pure (st.append p)) := by
  have labels : lineLabels (st.append st').instructions.length (st.append st').labels rawLine =
      (st.append { st' with
        labels := lineLabels st'.instructions.length st'.labels rawLine }).labels := by
    unfold lineLabels
    cases lineLabel rawLine with
    | none => rfl
    | some name =>
      funext l
      by_cases e : l = name
      · simp [Parse.append, e]
      · simp [Parse.append, Function.update_of_ne e]
  rw [parseLine_eq, parseLine_eq, labels]
  cases lineCode rawLine <;> simp [Parse.append]

/-- Parsing lines from a state moves what they give behind it. -/
lemma parseLines_append (lines : List Text) : parseLines lines (st.append st') =
    (parseLines lines st' >>= fun p => pure (st.append p)) := by
  induction lines generalizing st' with
  | nil => rfl
  | cons line lines ih =>
    rw [parseLines, parseLines, parseLine_append]
    cases parseLine line st' with
    | ok p => exact ih
    | rejected => rfl
    | undefined => rfl

/-- Lines after lines. -/
lemma parseLines_concat {lines lines' : List Text} (h : parseLines lines st = .ok st') :
    parseLines (lines ++ lines') st = parseLines lines' st' := by
  induction lines generalizing st with
  | nil =>
    cases h
    rfl
  | cons line lines ih =>
    obtain ⟨p, parsed, h⟩ := Outcome.bind_eq_ok.mp h
    rw [List.cons_append, parseLines, parsed]
    exact ih h

/-- Blank lines do nothing. -/
lemma parseLines_blank {lines : List Text} (h : ∀ l ∈ lines, l = []) (st : Parse) :
    parseLines lines st = .ok st := by
  induction lines with
  | nil => rfl
  | cons line lines ih =>
    obtain ⟨rfl, rest⟩ := List.forall_mem_cons.mp h
    exact ih rest

end Parsing

/-! ## Labels -/

/-- Lines leave the labels alone that they do not define. -/
lemma parseLines_labels {lines : List Text} {st st' : Parse} (h : parseLines lines st = .ok st')
    {l : Text} (other : l ∉ lines.filterMap lineLabel) : st'.labels l = st.labels l := by
  rw [parseLines_eq] at h
  obtain ⟨mis, -, h⟩ := Outcome.bind_eq_ok.mp h
  cases h
  exact linesLabels_of_not_mem _ _ other

/-! ## Resolving -/

/-- An offset stays when both its ends move. -/
lemma pcOffset_add (n target pc : Nat) : pcOffset (n + target) (n + pc) = pcOffset target pc := by
  simp only [pcOffset, BitVec.ofNat_add]
  grind

/-- The instruction with its target resolved. -/
def resolveTarget (labels : Text → Option Nat) (pc : Nat) (mi : MachineInstruction) :
    Outcome MachineInstruction :=
  if mi.hasTarget then
    match labels mi.labelTarget with
    | some target => .ok { mi with imm := pcOffset target pc }
    | none => .rejected
  else .ok mi

lemma resolveLabels_cons {labels : Text → Option Nat} {pc : Nat} {mi : MachineInstruction}
    {mis : List MachineInstruction} {words : List Word} :
    resolveLabels labels pc (mi :: mis) = .ok words ↔ ∃ mi' rest,
      resolveTarget labels pc mi = .ok mi' ∧
      resolveLabels labels (pc + 1) mis = .ok rest ∧ encode mi' :: rest = words := by
  rw [resolveLabels, resolveTarget]
  split_ifs
  · cases labels mi.labelTarget <;> simp [Outcome.bind_eq_ok]
  · simp [Outcome.bind_eq_ok]

lemma resolveTarget_shift {labels labels' : Text → Option Nat} {n pc : Nat}
    {mi mi' : MachineInstruction} (moved : ∀ l t, labels l = some t → labels' l = some (n + t))
    (h : resolveTarget labels pc mi = .ok mi') : resolveTarget labels' (n + pc) mi = .ok mi' := by
  unfold resolveTarget at h ⊢
  split_ifs at h ⊢
  · cases e : labels mi.labelTarget with
    | none =>
      rw [e] at h
      cases h
    | some t =>
      rw [e] at h
      rw [moved _ _ e, ← h]
      simp only [pcOffset_add]
  · exact h

/-- Instructions that move together with their labels give the same words. -/
lemma resolveLabels_shift {labels labels' : Text → Option Nat} {n pc : Nat}
    {mis : List MachineInstruction} {words : List Word}
    (moved : ∀ l t, labels l = some t → labels' l = some (n + t))
    (h : resolveLabels labels pc mis = .ok words) :
    resolveLabels labels' (n + pc) mis = .ok words := by
  induction mis generalizing pc words with
  | nil => exact h
  | cons mi mis ih =>
    obtain ⟨mi', rest, resolved, later, rfl⟩ := resolveLabels_cons.mp h
    exact resolveLabels_cons.mpr ⟨mi', rest, resolveTarget_shift moved resolved, ih later, rfl⟩

lemma resolveLabels_append {labels : Text → Option Nat} {pc : Nat}
    {mis mis' : List MachineInstruction} {words words' : List Word}
    (h : resolveLabels labels pc mis = .ok words)
    (h' : resolveLabels labels (mis.length + pc) mis' = .ok words') :
    resolveLabels labels pc (mis ++ mis') = .ok (words ++ words') := by
  induction mis generalizing pc words with
  | nil =>
    cases h
    simpa using h'
  | cons mi mis ih =>
    obtain ⟨mi', rest, resolved, later, rfl⟩ := resolveLabels_cons.mp h
    rw [List.length_cons, Nat.add_assoc, Nat.add_comm 1] at h'
    exact resolveLabels_cons.mpr ⟨mi', rest ++ words', resolved, ih later h', rfl⟩

/-- Sources with different labels assemble one after the other to their words. -/
theorem assemble_append {S T : Text} {wordsS wordsT : List Word} (hS : assemble S = .ok wordsS)
    (hT : assemble T = .ok wordsT) (disjoint : (labelsOf S).Disjoint (labelsOf T)) :
    assemble (S ++ '\n' :: T) = .ok (wordsS ++ wordsT) := by
  obtain ⟨st, parseS, resolveS⟩ := Outcome.bind_eq_ok.mp hS
  obtain ⟨st', parseT, resolveT⟩ := Outcome.bind_eq_ok.mp hT
  obtain ⟨blank, empty, lines⟩ := linesFrom_append [] S T
  have parse : parseLines (getlines (S ++ '\n' :: T)) .empty = .ok (st.append st') := by
    have behind : parseLines (getlines T) (st.append .empty) = _ := parseLines_append _
    rw [parseT, Parse.append_empty] at behind
    rw [getlines, lines]
    refine (parseLines_concat parseS).trans ?_
    refine (parseLines_concat (parseLines_blank empty st)).trans behind
  have resolved : resolveLabels (st.append st').labels (0 + 0) st.instructions = .ok wordsS := by
    refine resolveLabels_shift (fun l t e => ?_) resolveS
    have mem : l ∈ labelsOf S := by
      by_contra other
      rw [parseLines_labels parseS other] at e
      cases e
    have other : st'.labels l = none := parseLines_labels parseT (disjoint mem)
    simp [Parse.append, other, e]
  have resolved' :
      resolveLabels (st.append st').labels (st.instructions.length + 0) st'.instructions =
        .ok wordsT := by
    refine resolveLabels_shift (fun l t e => ?_) resolveT
    simp [Parse.append, e]
  rw [assemble, parse]
  exact resolveLabels_append resolved resolved'

/-- A label at the end of the first source, and a branch back in the second one. -/
theorem assemble_append_loop :
    assemble ("SSY end\nSYNC\nend:".toList ++ '\n' :: "loop: CMP R1, R2\nBR NZ, loop".toList) =
      .ok ([0xe1000002, 0xe0000000] ++ [0x04004400, 0xc037ffff]) :=
  assemble_append (by decide) (by decide) (List.disjoint_iff_ne.mpr (by decide))

end FpgaGpu

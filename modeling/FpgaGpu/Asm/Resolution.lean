import FpgaGpu.Asm.Acceptance

/-!
# Labels resolved

A label points at the number of instruction lines before the line that defines it, and the word of a
branch to it holds the distance from the branch, whatever lines are in between.
-/

namespace FpgaGpu

section Labels

variable {rawLine : Text} {rawLines : List Text} {L : Text}

/-- The last line that defines a label decides where it points. -/
lemma linesLabels_last {pre post : List Text} (defines : lineLabel rawLine = some L)
    (last : L ∉ post.filterMap lineLabel) (pc : Nat) (labels : Text → Option Nat) :
    linesLabels pc labels (pre ++ rawLine :: post) L = some (pc + (pre.map lineSize).sum) := by
  induction pre generalizing pc labels with
  | nil =>
    rw [List.nil_append, linesLabels, linesLabels_of_not_mem _ _ last,
      lineLabels_apply, if_pos defines]
    rfl
  | cons l pre ih =>
    rw [List.cons_append, linesLabels, ih, List.map_cons, List.sum_cons, Nat.add_assoc]

/-- A label that is defined once is not defined again. -/
lemma not_mem_of_once {pre post : List Text} (lines : rawLines = pre ++ rawLine :: post)
    (once : (rawLines.filterMap lineLabel).Nodup) (defines : lineLabel rawLine = some L) :
    L ∉ post.filterMap lineLabel := by
  rw [lines, List.filterMap_append, List.filterMap_cons_some defines] at once
  exact (List.nodup_cons.mp (List.Nodup.of_append_right once)).1

end Labels

section Words

variable {source : Text} {words : List Word}

lemma length_resolveLabels {labels : Text → Option Nat} {pc : Nat} {mis : List MachineInstruction}
    (h : resolveLabels labels pc mis = .ok words) : words.length = mis.length := by
  induction mis generalizing pc words with
  | nil =>
    cases h
    rfl
  | cons mi mis ih =>
    obtain ⟨mi', rest, -, later, rfl⟩ := resolveLabels_cons.mp h
    rw [List.length_cons, ih later, List.length_cons]

/-- A word for each line that has an instruction. -/
lemma length_assemble (h : assemble source = .ok words) :
    words.length = ((getlines source).map lineSize).sum := by
  rw [assemble_eq] at h
  obtain ⟨mis, codes, resolved⟩ := Outcome.bind_eq_ok.mp h
  rw [length_resolveLabels resolved, length_linesCode codes]

/-- The instruction of a line that refers to a label. -/
lemma lineCode_of_lineTarget {rawLine L : Text} {pre post : List Text}
    (h : assemble source = .ok words) (lines : getlines source = pre ++ rawLine :: post)
    (refers : lineTarget rawLine = some L) :
    ∃ mi, lineCode rawLine = .ok [mi] ∧ targetOf mi = some L := by
  have reads := (assemble_accepts_iff.mp ⟨words, h⟩).1 rawLine (by simp [lines])
  obtain ⟨mis, code⟩ := lineCode_eq_ok_iff.mpr reads
  obtain ⟨mi, mem, target⟩ := (lineTarget_eq_some code).mp refers
  have one : mis.length ≤ 1 := by
    rw [length_lineCode code, lineSize]
    split_ifs <;> decide
  cases mis with
  | nil => cases mem
  | cons first rest =>
    obtain rfl : rest = [] := by
      cases rest with
      | nil => rfl
      | cons => simp at one
    obtain rfl := List.mem_singleton.mp mem
    exact ⟨mi, code, target⟩

/-- A target that is known is replaced by the distance to it. -/
lemma resolveTarget_of_targetOf {labels : Text → Option Nat} {pc target : Nat}
    {mi mi' : MachineInstruction} {L : Text} (refers : targetOf mi = some L)
    (known : labels L = some target) (h : resolveTarget labels pc mi = .ok mi') :
    mi'.op.usesImm19 ∧ mi'.imm = pcOffset target pc := by
  unfold targetOf at refers
  split_ifs at refers with has
  rw [resolveTarget, if_pos has, Option.some.inj refers, known] at h
  cases h
  refine ⟨?_, rfl⟩
  simp only [Instruction.hasTarget, Bool.and_eq_true, Bool.or_eq_true, decide_eq_true_eq] at has
  obtain ⟨br | ssy, -⟩ := has
  · rw [br]
    rfl
  · rw [ssy]
    rfl

/-- Labels are resolved exactly: of a source that assembles, the word of each line that refers to a
label holds the distance to the instruction lines that precede the definition of the label. -/
theorem assemble_resolves (h : assemble source = .ok words) (short : words.length < 2 ^ 18)
    (once : (labelsOf source).Nodup) : words.length = ((getlines source).map lineSize).sum ∧
      ∀ pre rawLine post L, getlines source = pre ++ rawLine :: post → lineTarget rawLine = some L →
        L ∈ labelsOf source ∧ ∀ preL definition postL,
          getlines source = preL ++ definition :: postL → lineLabel definition = some L →
          ∃ word, words[(pre.map lineSize).sum]? = some word ∧
            ((pre.map lineSize).sum : Int) + (imm19Field word).toInt = (preL.map lineSize).sum := by
  have length := length_assemble h
  refine ⟨length, fun pre rawLine post L lines refers => ?_⟩
  refine ⟨(assemble_accepts_iff.mp ⟨words, h⟩).2 rawLine (by simp [lines]) L refers, ?_⟩
  intro preL definition postL linesL defines
  obtain ⟨mi, code, target⟩ := lineCode_of_lineTarget h lines refers
  obtain ⟨mi', resolved, word⟩ := assemble_line h lines code
  have points : linesLabels 0 (fun _ => none) (getlines source) L =
      some (0 + (preL.map lineSize).sum) := by
    rw [linesL]
    exact linesLabels_last defines (not_mem_of_once linesL once defines) _ _
  rw [Nat.zero_add] at points
  obtain ⟨use, offset⟩ := resolveTarget_of_targetOf target points resolved
  have here : (pre.map lineSize).sum < words.length := (List.getElem?_eq_some_iff.mp word).1
  have there : (preL.map lineSize).sum ≤ words.length := by
    rw [length, linesL, List.map_append, List.sum_append]
    exact Nat.le_add_right ..
  refine ⟨_, word, ?_⟩
  rw [toInt_imm19Field_near use offset (by omega) (by omega)]
  omega

end Words

/-- Two labels at one place, the second on the line of an instruction, and one behind the last. -/
def labelledSource : Text := "top:\nnext: BR Z, end ; out\n\nSSY next\nend:".toList

/-- Its words. -/
def labelledWords : List Word := [0xC0100002, 0xE107FFFF]

/-- A branch out and a reference backwards. -/
theorem assemble_resolves_next :
    (∃ word, labelledWords[0]? = some word ∧ (0 : Int) + (imm19Field word).toInt = 2) ∧
    ∃ word, labelledWords[1]? = some word ∧ (1 : Int) + (imm19Field word).toInt = 0 := by
  have words : assemble labelledSource = .ok labelledWords := by decide
  obtain ⟨-, resolves⟩ := assemble_resolves words (by decide) (by decide)
  have out := resolves ["top:".toList] "next: BR Z, end ; out".toList
    [[], "SSY next".toList, "end:".toList] "end".toList (by decide) (by decide)
  have back := resolves ["top:".toList, "next: BR Z, end ; out".toList, []] "SSY next".toList
    ["end:".toList] "next".toList (by decide) (by decide)
  exact ⟨out.2 ["top:".toList, "next: BR Z, end ; out".toList, [], "SSY next".toList]
      "end:".toList [] (by decide) (by decide),
    back.2 ["top:".toList] "next: BR Z, end ; out".toList [[], "SSY next".toList, "end:".toList]
      (by decide) (by decide)⟩

end FpgaGpu

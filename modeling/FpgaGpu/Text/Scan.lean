import FpgaGpu.Isa.Instruction
import Mathlib.Data.List.DropRight

/-!
# Scanning text

The character and string routines of `src/FpgaGpuAssembler.cpp` (`trim`, `split`) and the parts of
the C and C++ libraries they use (`isspace`, `toupper` in the C locale, `std::getline`).
-/

namespace FpgaGpu

/-- `std::isspace` in the C locale. -/
def isspace (c : Char) : Bool :=
  c == ' ' || c == '\t' || c == '\n' || c == '\x0b' || c == '\x0c' || c == '\r'

/-- The characters `trim` removes. -/
def isBlank (c : Char) : Bool := c == ' ' || c == '\t' || c == '\r' || c == '\n'

/-- Removes the blanks at both ends. -/
def trim (s : Text) : Text := (s.dropWhile isBlank).rdropWhile isBlank

/-- The characters `split` separates tokens at. -/
def isSeparator (c : Char) : Bool := c == ',' || isspace c

/-- The loop of `split` from the token read so far: the tokens still to be pushed. -/
def splitFrom (current : Text) : Text → List Text
  | [] => if current = [] then [] else [current]
  | c :: s =>
    if isSeparator c then
      if current = [] then splitFrom [] s else current :: splitFrom [] s
    else splitFrom (current ++ [c]) s

/-- Splits a line into tokens at commas and white space. -/
def split (s : Text) : List Text := splitFrom [] s

/-- `std::transform(..., ::toupper)`. -/
def upper (s : Text) : Text := s.map Char.toUpper

/-- `std::transform(..., ::tolower)`. -/
def lower (s : Text) : Text := s.map Char.toLower

/-- `s.substr(0, s.find(c))`, the whole text when `c` does not occur. -/
def before (c : Char) (s : Text) : Text := s.takeWhile (· ≠ c)

/-- `s.substr(s.find(c) + 1)`, when `c` occurs. -/
def after (c : Char) (s : Text) : Text := (s.dropWhile (· ≠ c)).tail

/-- `s.find(sub) != npos`. -/
def contains (s sub : Text) : Bool :=
  match s with
  | [] => sub.isEmpty
  | c :: s => sub.isPrefixOf (c :: s) || contains s sub

/-- The lines `std::getline` reads, from the line read so far. -/
def linesFrom (current : Text) : Text → List Text
  | [] => if current = [] then [] else [current]
  | c :: s => if c = '\n' then current :: linesFrom [] s else linesFrom (current ++ [c]) s

/-- The lines of a stream, as a loop over `std::getline` reads them. -/
def getlines (s : Text) : List Text := linesFrom [] s

/-! ## Tokens -/

/-- A text without separators, as tokens are. -/
def Solid (s : Text) : Prop := ∀ c ∈ s, isSeparator c = false

@[simp] lemma solid_nil : Solid [] := by simp [Solid]

@[simp] lemma solid_cons {c : Char} {s : Text} :
    Solid (c :: s) ↔ isSeparator c = false ∧ Solid s := by
  simp [Solid]

@[simp] lemma solid_append {s t : Text} : Solid (s ++ t) ↔ Solid s ∧ Solid t := by
  simp [Solid, or_imp, forall_and]

/-- A solid prefix joins the token read so far. -/
lemma splitFrom_append {t : Text} (ht : Solid t) (current s : Text) :
    splitFrom current (t ++ s) = splitFrom (current ++ t) s := by
  induction t generalizing current with
  | nil => simp
  | cons c t ih =>
    obtain ⟨hc, ht⟩ := solid_cons.mp ht
    simp [splitFrom, hc, ih ht]

/-- A separator before any token is skipped. -/
@[simp] lemma split_separator {c : Char} (hc : isSeparator c = true) (s : Text) :
    split (c :: s) = split s := by
  simp [split, splitFrom, hc]

/-- A token is pushed at the separator that ends it. -/
lemma split_token {t : Text} (ht : Solid t) (ne : t ≠ []) {c : Char} (hc : isSeparator c = true)
    (s : Text) : split (t ++ c :: s) = t :: split s := by
  simp [split, splitFrom_append ht, splitFrom, hc, ne]

/-- A token is pushed at the end of the text. -/
lemma split_solid {t : Text} (ht : Solid t) (ne : t ≠ []) : split t = [t] := by
  have := splitFrom_append ht [] []
  simp only [List.append_nil, List.nil_append] at this
  simp [split, this, splitFrom, ne]

@[simp] lemma split_nil : split [] = [] := rfl

/-- A text splits at a separator. -/
lemma split_at {c : Char} (hc : isSeparator c = true) (s t : Text) :
    split (s ++ c :: t) = split s ++ split t := by
  have from' : ∀ current, splitFrom current (s ++ c :: t) =
      splitFrom current s ++ splitFrom [] t := by
    induction s with
    | nil =>
      intro current
      by_cases empty : current = [] <;> simp [splitFrom, hc, empty]
    | cons d s ih =>
      intro current
      rw [List.cons_append, splitFrom, splitFrom]
      split_ifs with sep empty
      · exact ih []
      · rw [ih, List.cons_append]
      · exact ih (current ++ [d])
  exact from' []

/-- Separators before a text are skipped. -/
lemma split_append_left {r : Text} (hr : ∀ c ∈ r, isSeparator c = true) (s : Text) :
    split (r ++ s) = split s := by
  induction r with
  | nil => rfl
  | cons c r ih =>
    obtain ⟨hc, hr⟩ := List.forall_mem_cons.mp hr
    rw [List.cons_append, split_separator hc, ih hr]

/-- A text splits at separators. -/
lemma split_run {r : Text} (hr : ∀ c ∈ r, isSeparator c = true) (ne : r ≠ []) (s t : Text) :
    split (s ++ r ++ t) = split s ++ split t := by
  obtain ⟨c, r, rfl⟩ := List.exists_cons_of_ne_nil ne
  obtain ⟨hc, hr⟩ := List.forall_mem_cons.mp hr
  rw [List.append_assoc, List.cons_append, split_at hc, split_append_left hr]

/-- Separators behind a text are skipped. -/
lemma split_append_right {r : Text} (hr : ∀ c ∈ r, isSeparator c = true) (s : Text) :
    split (s ++ r) = split s := by
  cases r with
  | nil => rw [List.append_nil]
  | cons c r =>
    obtain ⟨hc, hr⟩ := List.forall_mem_cons.mp hr
    have none := split_append_left hr []
    rw [List.append_nil] at none
    rw [split_at hc, none, split_nil, List.append_nil]

/-- Tokens are not empty. -/
lemma ne_nil_of_mem_splitFrom {current s t : Text} (h : t ∈ splitFrom current s) : t ≠ [] := by
  induction s generalizing current with
  | nil =>
    rw [splitFrom] at h
    split_ifs at h with empty
    · cases h
    · exact List.mem_singleton.mp h ▸ empty
  | cons c s ih =>
    rw [splitFrom] at h
    split_ifs at h with sep empty
    · exact ih h
    · obtain rfl | h := List.mem_cons.mp h
      · exact empty
      · exact ih h
    · exact ih h

/-- Tokens contain no separators. -/
lemma solid_of_mem_splitFrom {current s t : Text} (solid : Solid current)
    (h : t ∈ splitFrom current s) :
    Solid t := by
  induction s generalizing current with
  | nil =>
    rw [splitFrom] at h
    split_ifs at h
    · cases h
    · exact List.mem_singleton.mp h ▸ solid
  | cons c s ih =>
    rw [splitFrom] at h
    split_ifs at h with sep empty
    · exact ih solid_nil h
    · obtain rfl | h := List.mem_cons.mp h
      · exact solid
      · exact ih solid_nil h
    · exact ih (solid_append.mpr ⟨solid, solid_cons.mpr ⟨by simpa using sep, solid_nil⟩⟩) h

/-! ## Blanks -/

/-- A text that neither starts nor ends with a blank is its own trimming. -/
lemma trim_eq_self {s : Text} (hl : ∀ c ∈ s.head?, isBlank c = false)
    (hr : ∀ c ∈ s.getLast?, isBlank c = false) : trim s = s := by
  have e : s.dropWhile isBlank = s := by
    cases s with
    | nil => rfl
    | cons c s => simp [List.dropWhile, hl c (by simp)]
  rw [trim, e, List.rdropWhile_eq_self_iff]
  intro ne
  have := hr (s.getLast ne) (List.getLast?_eq_some_getLast ne)
  simp [this]

/-- Leading blanks are trimmed. -/
lemma trim_append_left {b s : Text} (hb : ∀ c ∈ b, isBlank c = true) : trim (b ++ s) = trim s := by
  rw [trim, trim, List.dropWhile_append_of_pos hb]

/-- Trailing blanks are trimmed. -/
lemma trim_append_right {b s : Text} (hb : ∀ c ∈ b, isBlank c = true) : trim (s ++ b) = trim s := by
  have drop : ∀ s : Text, (s ++ b).rdropWhile isBlank = s.rdropWhile isBlank := by
    intro s
    rw [List.rdropWhile, List.rdropWhile, List.reverse_append,
      List.dropWhile_append_of_pos (by simpa using hb)]
  rw [trim, trim]
  by_cases e : s.dropWhile isBlank = []
  · have all : ∀ c ∈ s ++ b, isBlank c = true := by
      intro c hc
      obtain hc | hc := List.mem_append.mp hc
      · exact List.dropWhile_eq_nil_iff.mp e c hc
      · exact hb c hc
    rw [e, List.dropWhile_eq_nil_iff.mpr all]
  · rw [List.dropWhile_append, if_neg (by simpa using e), drop]

/-- Blanks are separators. -/
lemma isSeparator_of_isBlank {c : Char} (h : isBlank c = true) : isSeparator c = true := by
  simp only [isBlank, Bool.or_eq_true] at h
  simp only [isSeparator, isspace, Bool.or_eq_true]
  tauto

/-- Trimming cuts off blanks at both ends. -/
lemma exists_trim (s : Text) : ∃ b b', (∀ c ∈ b, isBlank c = true) ∧ (∀ c ∈ b', isBlank c = true) ∧
    s = b ++ trim s ++ b' := by
  refine ⟨s.takeWhile isBlank, (s.dropWhile isBlank).rtakeWhile isBlank, fun c =>
    List.mem_takeWhile_imp, fun c => List.mem_rtakeWhile_imp, ?_⟩
  rw [trim, List.append_assoc, List.rdropWhile_append_rtakeWhile, List.takeWhile_append_dropWhile]

/-- Trimming does not change the tokens. -/
lemma split_trim (s : Text) : split (trim s) = split s := by
  obtain ⟨b, b', blank, blank', e⟩ := exists_trim s
  conv_rhs => rw [e]
  rw [split_append_right fun c hc => isSeparator_of_isBlank (blank' c hc),
    split_append_left fun c hc => isSeparator_of_isBlank (blank c hc)]

/-! ## Lines -/

/-- A line ends at its newline. -/
lemma getlines_line {l : Text} (hl : '\n' ∉ l) (s : Text) :
    getlines (l ++ '\n' :: s) = l :: getlines s := by
  have from' : ∀ current, linesFrom current (l ++ '\n' :: s) =
      (current ++ l) :: linesFrom [] s := by
    induction l with
    | nil => simp [linesFrom]
    | cons c l ih =>
      intro current
      simp only [List.mem_cons, not_or] at hl
      simp [linesFrom, Ne.symm hl.1, ih hl.2]
  simpa [getlines] using from' []

@[simp] lemma getlines_nil : getlines [] = [] := rfl

/-- The lines of a concatenation of newline-terminated lines. -/
lemma getlines_flatMap {ls : List Text} (h : ∀ l ∈ ls, '\n' ∉ l) :
    getlines (ls.flatMap (· ++ ['\n'])) = ls := by
  induction ls with
  | nil => rfl
  | cons l ls ih =>
    obtain ⟨hl, hls⟩ := List.forall_mem_cons.mp h
    rw [List.flatMap_cons, List.append_assoc, List.singleton_append, getlines_line hl, ih hls]

/-- A line that is read has no newline. -/
lemma newline_not_mem_linesFrom {current s l : Text} (read : '\n' ∉ current)
    (mem : l ∈ linesFrom current s) :
    '\n' ∉ l := by
  induction s generalizing current with
  | nil =>
    unfold linesFrom at mem
    split at mem
    · cases mem
    · exact List.mem_singleton.mp mem ▸ read
  | cons c s ih =>
    unfold linesFrom at mem
    split at mem
    · obtain rfl | mem := List.mem_cons.mp mem
      · exact read
      · exact ih List.not_mem_nil mem
    · next ne => exact ih (List.not_mem_append read (by simpa using Ne.symm ne)) mem

lemma newline_not_mem_getlines {s l : Text} (mem : l ∈ getlines s) : '\n' ∉ l :=
  newline_not_mem_linesFrom List.not_mem_nil mem

end FpgaGpu

import FpgaGpu.Asm.Acceptance
import FpgaGpu.Asm.Reading
import Mathlib

/-!
# Layout

How a source is laid out does not matter: comments and blank lines, the blanks around a line, how
the tokens of a line are kept apart, and the case of mnemonics and of the letter of a register.
-/

namespace FpgaGpu

/-! ## Marks -/

section Marks

variable {c : Char} {s : Text}

/-- Blanks contain no marks, so trimming keeps those that there are. -/
lemma mem_trim (mark : isBlank c = false) : c ∈ trim s ↔ c ∈ s := by
  obtain ⟨b, b', blank, blank', e⟩ := exists_trim s
  conv_rhs => rw [e]
  simp [not_mem_of_blank blank mark, not_mem_of_blank blank' mark]

/-- The text before a mark and the text behind it, when the whole is trimmed first. -/
lemma trim_before_trim (mark : isBlank c = false) (on : c ∈ s) :
    trim (before c (trim s)) = trim (before c s) := by
  obtain ⟨b, b', blank, blank', e⟩ := exists_trim s
  conv_rhs => rw [e]
  rw [before_append_of_mem (by simp [(mem_trim mark).mpr on]),
    before_append_of_not_mem (not_mem_of_blank blank mark), trim_append_left blank]

lemma split_after_trim (mark : isBlank c = false) (on : c ∈ s) :
    split (after c (trim s)) = split (after c s) := by
  obtain ⟨b, b', blank, blank', e⟩ := exists_trim s
  have inside : c ∈ trim s := (mem_trim mark).mpr on
  conv_rhs => rw [e]
  rw [after_append_of_mem (by simp [inside]), after_append_of_not_mem (not_mem_of_blank blank mark),
    split_append_right fun d hd => isSeparator_of_isBlank (blank' d hd)]

end Marks

/-! ## Letters -/

/-- Only letters have a case. -/
lemma toUpper_eq_iff {c d : Char} (mark : d.isAlpha = false) : c.toUpper = d.toUpper ↔ c = d := by
  have fixed : ∀ {c : Char}, c.isAlpha = false → c.toUpper = c := by
    intro c none
    refine Char.toUpper_eq_of_not_isLower fun lower => ?_
    have : c.isAlpha = true := Bool.or_eq_true_iff.mpr (.inr lower)
    exact Bool.false_ne_true (none.symm.trans this)
  constructor
  · intro same
    have none : c.isAlpha = false := by
      rw [← Char.isAlpha_toUpper_eq_isAlpha, same, Char.isAlpha_toUpper_eq_isAlpha, mark]
    rwa [fixed none, fixed mark] at same
  · rintro rfl
    rfl

lemma mem_of_upper {m m' : Text} (same : upper m = upper m') {d : Char} (mark : d.isAlpha = false)
    (mem : d ∈ m') : d ∈ m := by
  have there : d.toUpper ∈ upper m := same ▸ List.mem_map_of_mem mem
  obtain ⟨c, hc, e⟩ := List.mem_map.mp there
  exact (toUpper_eq_iff mark).mp e ▸ hc

lemma not_isAlpha_of_isSeparator {c : Char} (sep : isSeparator c = true) : c.isAlpha = false := by
  simp only [isSeparator, isspace, Bool.or_eq_true, beq_iff_eq] at sep
  obtain rfl | (((((rfl | rfl) | rfl) | rfl) | rfl) | rfl) := sep <;> decide

/-! ## Places in a line -/

/-- What is behind the label, if there is one. -/
def behindLabel (s : Text) : Text := if ':' ∈ s then after ':' s else s

/-- The tokens of a line are those behind its label. -/
lemma lineTokens_eq (rawLine : Text) :
    lineTokens rawLine = split (behindLabel (before ';' rawLine)) := by
  have mark : isBlank ':' = false := by decide
  unfold lineTokens behindLabel
  simp only [mem_trim mark]
  split_ifs with colon
  · rw [split_trim, split_after_trim mark colon]
  · exact split_trim _

/-- The label of a line is what is before its colon, without blanks. -/
lemma lineLabel_eq (rawLine : Text) : lineLabel rawLine =
    if ':' ∈ before ';' rawLine then some (trim (before ':' (before ';' rawLine))) else none := by
  have mark : isBlank ':' = false := by decide
  unfold lineLabel
  simp only [mem_trim mark]
  split_ifs with colon
  · rw [trim_before_trim mark colon]
  · rfl

/-- A place in a line behind its label and before its comment. -/
structure InBody (h t : Text) : Prop where
  code : ';' ∉ h
  labeled : ':' ∈ h ∨ ':' ∉ before ';' t

/-- A place in a label between two of its words. -/
structure InLabel (h t : Text) : Prop where
  code : ';' ∉ h
  unlabeled : ':' ∉ h
  mark : ':' ∈ before ';' t
  left : ∃ p c, h = p ++ [c] ∧ isSeparator c = false
  right : ∃ c q, t = c :: q ∧ isSeparator c = false ∧ c ≠ ':'

/-- The text `w` is a token of the line `h ++ w ++ t`. -/
structure IsToken (h w t : Text) : Prop where
  place : InBody h (w ++ t)
  ne : w ≠ []
  solid : Solid w
  code : ';' ∉ w
  left : ∀ c ∈ (behindLabel h).getLast?, isSeparator c = true
  right : ∀ c ∈ t.head?, isSeparator c = true ∨ c = ';'

section Places

variable {h w t : Text}

lemma InBody.lineTokens (place : InBody h t) :
    lineTokens (h ++ t) = split (behindLabel h ++ before ';' t) := by
  rw [lineTokens_eq, before_append_of_not_mem place.code]
  unfold behindLabel
  by_cases labeled : ':' ∈ h
  · rw [if_pos (List.mem_append_left _ labeled), if_pos labeled, after_append_of_mem labeled]
  · have unmarked := place.labeled.resolve_left labeled
    rw [if_neg (by simp [labeled, unmarked]), if_neg labeled]

lemma InBody.lineLabel (place : InBody h t) :
    lineLabel (h ++ t) = if ':' ∈ h then some (trim (before ':' h)) else none := by
  rw [lineLabel_eq, before_append_of_not_mem place.code]
  by_cases labeled : ':' ∈ h
  · rw [if_pos (List.mem_append_left _ labeled), if_pos labeled, before_append_of_mem labeled]
  · have unmarked := place.labeled.resolve_left labeled
    rw [if_neg (by simp [labeled, unmarked]), if_neg labeled]

/-- Text that ends with a separator, or is empty, splits apart from what is behind it. -/
lemma split_append_of_left {s : Text} (left : ∀ c ∈ s.getLast?, isSeparator c = true) (t : Text) :
    split (s ++ t) = split s ++ split t := by
  obtain rfl | ⟨p, c, rfl⟩ := List.eq_nil_or_concat s
  · rfl
  · have sep : isSeparator c = true := left c (by simp)
    rw [List.concat_eq_append, List.append_assoc, List.singleton_append, split_at sep,
      split_at sep, split_nil, List.append_nil]

/-- A token stands behind the tokens before it. -/
lemma IsToken.lineTokens (token : IsToken h w t) :
    lineTokens (h ++ w ++ t) = split (behindLabel h) ++ w :: split (before ';' t) := by
  rw [List.append_assoc, token.place.lineTokens, before_append_of_not_mem token.code,
    split_append_of_left token.left]
  congr 1
  cases t with
  | nil => rw [show before ';' [] = [] from rfl, List.append_nil,
      split_solid token.solid token.ne, split_nil]
  | cons c t =>
    by_cases semi : c = ';'
    · subst semi
      rw [show before ';' (';' :: t) = [] from rfl, List.append_nil,
        split_solid token.solid token.ne, split_nil]
    · have sep : isSeparator c = true := (token.right c rfl).resolve_right semi
      have keep : before ';' (c :: t) = c :: before ';' t := by simp [before, semi]
      rw [keep, split_token token.solid token.ne sep, split_separator sep]

end Places

/-! ## Operands -/

/-- Operands that read alike. -/
def Operand.Same : Operand → Text → Text → Prop
  | .register, t, t' => parseRegister t = parseRegister t'
  | .address, t, t' => parseAddress t = parseAddress t'
  | .literal, t, t' => stoi 0 t = stoi 0 t'
  | .sysReg, t, t' => parseSysReg t = parseSysReg t'
  | .condition, t, t' => parseCondition t = parseCondition t'
  | .target, t, t' | .offset, t, t' => t = t'

@[simp] lemma Operand.same_refl (kind : Operand) (t : Text) : kind.Same t t := by
  cases kind <;> rfl

/-- Tokens with as many operands, of which those of a form read alike. -/
structure SameOperands (tokens tokens' : List Text) (form : List Operand) : Prop where
  length : tokens.length = tokens'.length
  same : ∀ i kind, form[i]? = some kind → Option.Rel kind.Same tokens[i + 1]? tokens'[i + 1]?

/-- What is read is the same if the operands of a form read alike. -/
def ReadsAlike (tokens tokens' : List Text) (x y : Outcome MachineInstruction)
    (form : Option (List Operand)) : Prop :=
  (∀ f, form = some f → SameOperands tokens tokens' f) → x = y

section Operands

variable {α β : Type} {tokens tokens' : List Text}

lemma Outcome.bind_congr {x y : Outcome α} {f g : α → Outcome β} (same : x = y)
    (h : ∀ a, f a = g a) :
    (x >>= f) = (y >>= g) := by
  rw [same, funext h]

lemma token_congr {i : Nat} {S : Text → Text → Prop} {f g : Text → Outcome α}
    (rel : Option.Rel S tokens[i]? tokens'[i]?) (h : ∀ t t', S t t' → f t = g t') :
    (token tokens i >>= f) = (token tokens' i >>= g) := by
  unfold token
  generalize tokens[i]? = x at rel
  generalize tokens'[i]? = y at rel
  cases rel with
  | some same => exact h _ _ same
  | none => rfl

lemma parseRType_congr {op : Opcode}
    (same : SameOperands tokens tokens' [.register, .register, .register]) :
    parseRType op tokens = parseRType op tokens' :=
  token_congr (same.same 0 .register rfl) fun _ _ rd => Outcome.bind_congr rd fun _ =>
    token_congr (same.same 1 .register rfl) fun _ _ rs1 => Outcome.bind_congr rs1 fun _ =>
      token_congr (same.same 2 .register rfl) fun _ _ rs2 => Outcome.bind_congr rs2 fun _ => rfl

lemma parseCmp_congr (same : SameOperands tokens tokens' [.register, .register]) :
    parseCmp tokens = parseCmp tokens' :=
  token_congr (same.same 0 .register rfl) fun _ _ rs1 => Outcome.bind_congr rs1 fun _ =>
    token_congr (same.same 1 .register rfl) fun _ _ rs2 => Outcome.bind_congr rs2 fun _ => rfl

lemma parseAddi_congr (same : SameOperands tokens tokens' [.register, .register, .literal]) :
    parseAddi tokens = parseAddi tokens' :=
  token_congr (same.same 0 .register rfl) fun _ _ rd => Outcome.bind_congr rd fun _ =>
    token_congr (same.same 1 .register rfl) fun _ _ rs1 => Outcome.bind_congr rs1 fun _ =>
      token_congr (same.same 2 .literal rfl) fun t t' imm => by
        rw [show stoi 0 t = stoi 0 t' from imm]

lemma parseLdr_congr (same : SameOperands tokens tokens' [.register, .address]) :
    parseLdr tokens = parseLdr tokens' :=
  token_congr (same.same 0 .register rfl) fun _ _ rd => Outcome.bind_congr rd fun _ =>
    token_congr (same.same 1 .address rfl) fun _ _ rs1 => Outcome.bind_congr rs1 fun _ => rfl

lemma parseStr_congr (same : SameOperands tokens tokens' [.register, .address]) :
    parseStr tokens = parseStr tokens' :=
  token_congr (same.same 0 .register rfl) fun _ _ rs2 => Outcome.bind_congr rs2 fun _ =>
    token_congr (same.same 1 .address rfl) fun _ _ rs1 => Outcome.bind_congr rs1 fun _ => rfl

lemma parseS2r_congr (same : SameOperands tokens tokens' [.register, .sysReg]) :
    parseS2r tokens = parseS2r tokens' :=
  token_congr (same.same 0 .register rfl) fun _ _ rd => Outcome.bind_congr rd fun _ =>
    token_congr (same.same 1 .sysReg rfl) fun _ _ imm => Outcome.bind_congr imm fun _ => rfl

lemma parseBr_congr (same : SameOperands tokens tokens' [.condition, .target]) :
    parseBr tokens = parseBr tokens' :=
  token_congr (same.same 0 .condition rfl) fun t t' cond => by
    rw [show parseCondition t = parseCondition t' from cond]
    exact token_congr (same.same 1 .target rfl) fun u u' e => by rw [show u = u' from e]

lemma parseSsy_congr (same : SameOperands tokens tokens' [.offset]) :
    parseSsy tokens = parseSsy tokens' := by
  unfold parseSsy
  rw [same.length]
  split_ifs
  · rfl
  · exact token_congr (same.same 0 .offset rfl) fun t t' e => by rw [show t = t' from e]

lemma ReadsAlike.ite {c : Prop} [Decidable c] {x y x' y' : Outcome MachineInstruction}
    {form : List Operand} {form' : Option (List Operand)}
    (pos : SameOperands tokens tokens' form → x = y) (neg : ReadsAlike tokens tokens' x' y' form') :
    ReadsAlike tokens tokens' (if c then x else x') (if c then y else y')
      (if c then some form else form') := by
  by_cases h : c
  · rw [if_pos h, if_pos h, if_pos h]
    exact fun same => pos (same form rfl)
  · rw [if_neg h, if_neg h, if_neg h]
    exact neg

/-- A mnemonic reads the same from operands that read alike in its form. -/
lemma parseInstruction_congr (mnemonic : Text) :
    ReadsAlike tokens tokens' (parseInstruction mnemonic tokens)
    (parseInstruction mnemonic tokens') (operandForm mnemonic) := by
  unfold parseInstruction operandForm
  apply ReadsAlike.ite parseRType_congr
  apply ReadsAlike.ite parseRType_congr
  apply ReadsAlike.ite parseRType_congr
  apply ReadsAlike.ite parseCmp_congr
  apply ReadsAlike.ite parseAddi_congr
  apply ReadsAlike.ite parseLdr_congr
  apply ReadsAlike.ite parseStr_congr
  apply ReadsAlike.ite parseS2r_congr
  apply ReadsAlike.ite parseBr_congr
  apply ReadsAlike.ite fun _ => rfl
  apply ReadsAlike.ite parseSsy_congr
  apply ReadsAlike.ite fun _ => rfl
  exact fun _ => rfl

/-- One operand is replaced by one that reads alike. -/
lemma SameOperands.replace {mnemonic w w' : Text} {ops ops' : List Text} {form : List Operand}
    (same : ∀ kind, form[ops.length]? = some kind → kind.Same w w') :
    SameOperands (mnemonic :: ops ++ w :: ops') (mnemonic :: ops ++ w' :: ops') form := by
  refine ⟨by simp, fun i kind at_i => ?_⟩
  rw [List.cons_append, List.cons_append, List.getElem?_cons_succ, List.getElem?_cons_succ]
  obtain lt | rfl | gt := Nat.lt_trichotomy i ops.length
  · rw [List.getElem?_append_left lt, List.getElem?_append_left lt]
    cases ops[i]? with
    | none => exact .none
    | some t => exact .some (kind.same_refl t)
  · simpa using same kind at_i
  · obtain ⟨k, rfl⟩ : ∃ k, i = ops.length + (k + 1) := ⟨i - ops.length - 1, by omega⟩
    rw [List.getElem?_append_right (by omega), List.getElem?_append_right (by omega),
      Nat.add_sub_cancel_left, List.getElem?_cons_succ, List.getElem?_cons_succ]
    cases ops'[k]? with
    | none => exact .none
    | some t => exact .some (kind.same_refl t)

/-- The letter of a register may be written small. -/
lemma parseRegister_letter (digits : Text) :
    parseRegister ('R' :: digits) = parseRegister ('r' :: digits) := by
  simp [parseRegister]

/-- So may that of an address, behind its brackets. -/
lemma parseAddress_letter {u : Text} (brackets : ∀ c ∈ u, c = '[' ∨ c = ']') (v : Text) :
    parseAddress (u ++ 'R' :: v) = parseAddress (u ++ 'r' :: v) := by
  have erased : (u.filter (· ≠ '[')).filter (· ≠ ']') = [] := by
    rw [List.filter_filter, List.filter_eq_nil_iff]
    intro c hc
    obtain rfl | rfl := brackets c hc <;> decide
  have upper : (('R' :: v).filter (· ≠ '[')).filter (· ≠ ']') =
      'R' :: (v.filter (· ≠ '[')).filter (· ≠ ']') := by simp
  have lower : (('r' :: v).filter (· ≠ '[')).filter (· ≠ ']') =
      'r' :: (v.filter (· ≠ '[')).filter (· ≠ ']') := by simp
  unfold parseAddress
  rw [List.filter_append, List.filter_append, List.filter_append,
    List.filter_append, erased, upper, lower]
  exact parseRegister_letter _

/-- Where a register is expected the letter is the first character, but for the brackets of an
address. A target that looks like a register is a label. -/
def Operand.Letter (u : Text) : Operand → Prop
  | .address => ∀ c ∈ u, c = '[' ∨ c = ']'
  | .register | .literal | .sysReg | .condition => u = []
  | .target | .offset => False

/-- Operands read alike with a small letter. -/
lemma Operand.Letter.same {kind : Operand} {u : Text} (letter : kind.Letter u) (v : Text) :
    kind.Same (u ++ 'R' :: v) (u ++ 'r' :: v) := by
  cases kind with
  | register =>
    obtain rfl : u = [] := letter
    exact parseRegister_letter v
  | address => exact parseAddress_letter letter v
  | literal =>
    obtain rfl : u = [] := letter
    rfl
  | sysReg =>
    obtain rfl : u = [] := letter
    rfl
  | condition =>
    obtain rfl : u = [] := letter
    rfl
  | target => exact letter.elim
  | offset => exact letter.elim

end Operands

/-! ## Lines that are laid out differently -/

/-- Lines that are assembled alike: with the same instructions, and the same label if it can be
referred to. -/
structure LineAlike (l l' : Text) : Prop where
  code : lineCode l = lineCode l'
  size : lineSize l = lineSize l'
  label : ∀ L, Solid L → (lineLabel l = some L ↔ lineLabel l' = some L)

/-- Characters between tokens. -/
def IsRun (r : Text) : Prop := r ≠ [] ∧ ∀ c ∈ r, isSeparator c = true

/-- The letter between `h ++ u` and `v ++ t` is that of a register. -/
structure RegisterLetter (h u v t : Text) : Prop where
  token : IsToken h (u ++ 'R' :: v) t
  operand : ∃ mnemonic ops, split (behindLabel h) = mnemonic :: ops ∧
    ∀ form kind, operandForm (upper mnemonic) = some form →
      form[ops.length]? = some kind → kind.Letter u

/-- The edits of the layout of a line. -/
inductive LineEdit : Text → Text → Prop
  | comment (l c : Text) : LineEdit l (l ++ ';' :: c)
  | leading {b : Text} (blank : ∀ c ∈ b, isBlank c = true) (l : Text) : LineEdit l (b ++ l)
  | trailing {b : Text} (blank : ∀ c ∈ b, isBlank c = true) (l : Text) : LineEdit l (l ++ b)
  | run {h r r' t : Text} (place : InBody h t ∨ InLabel h t) (run : IsRun r) (run' : IsRun r') :
    LineEdit (h ++ r ++ t) (h ++ r' ++ t)
  -- before a colon there may be blanks, but no commas
  | colon {h r r' : Text} (code : ';' ∉ h) (label : ':' ∉ h) (blank : ∀ c ∈ r, isBlank c = true)
    (blank' : ∀ c ∈ r', isBlank c = true) (t : Text) :
    LineEdit (h ++ r ++ ':' :: t) (h ++ r' ++ ':' :: t)
  | mnemonic {h m m' t : Text} (token : IsToken h m t) (first : split (behindLabel h) = [])
    (same : upper m = upper m') : LineEdit (h ++ m ++ t) (h ++ m' ++ t)
  | register {h u v t : Text} (letter : RegisterLetter h u v t) :
    LineEdit (h ++ (u ++ 'R' :: v) ++ t) (h ++ (u ++ 'r' :: v) ++ t)

section Edits

variable {l l' h r r' t u v : Text}

lemma LineAlike.of_eq (tokens : lineTokens l = lineTokens l') (label : lineLabel l = lineLabel l') :
    LineAlike l l' where
  code := by rw [lineCode, lineCode, tokens]
  size := by rw [lineSize, lineSize, tokens]
  label L _ := by rw [label]

/-- A line is read without its comment and the blanks around it. -/
lemma LineAlike.of_trim (same : trim (before ';' l) = trim (before ';' l')) : LineAlike l l' :=
  .of_eq (by rw [FpgaGpu.lineTokens, FpgaGpu.lineTokens, same])
    (by rw [FpgaGpu.lineLabel, FpgaGpu.lineLabel, same])

lemma lineAlike_comment (l c : Text) : LineAlike l (l ++ ';' :: c) := by
  refine .of_trim ?_
  by_cases semi : ';' ∈ l
  · rw [before_append_of_mem semi]
  · rw [before_append semi, before_eq_self semi]

lemma lineAlike_leading {b : Text} (blank : ∀ c ∈ b, isBlank c = true) (l : Text) :
    LineAlike l (b ++ l) := by
  refine .of_trim ?_
  rw [before_append_of_not_mem (not_mem_of_blank blank (by decide)), trim_append_left blank]

lemma lineAlike_trailing {b : Text} (blank : ∀ c ∈ b, isBlank c = true) (l : Text) :
    LineAlike l (l ++ b) := by
  refine .of_trim ?_
  by_cases semi : ';' ∈ l
  · rw [before_append_of_mem semi]
  · rw [before_append_of_not_mem semi, before_eq_self semi,
      before_eq_self (not_mem_of_blank blank (by decide)), trim_append_right blank]

/-- Marks are no separators. -/
lemma IsRun.not_mem (run : IsRun r) {c : Char} (mark : isSeparator c = false) : c ∉ r :=
  fun mem => Bool.false_ne_true (mark.symm.trans (run.2 c mem))

lemma IsRun.not_mem_append (run : IsRun r) {c : Char} (mark : isSeparator c = false) (off : c ∉ h) :
    c ∉ h ++ r := by
  rw [List.mem_append]
  rintro (mem | mem)
  · exact off mem
  · exact run.not_mem mark mem

/-- A run stays behind the label. -/
lemma InBody.append_run (place : InBody h t) (run : IsRun r) : InBody h (r ++ t) where
  code := place.code
  labeled := place.labeled.imp_right fun unmarked => by
    rw [before_append_of_not_mem (run.not_mem (by decide)), List.mem_append, not_or]
    exact ⟨run.not_mem (by decide), unmarked⟩

/-- A run of separators behind the label. -/
lemma lineAlike_run_body (place : InBody h t) (run : IsRun r) (run' : IsRun r') :
    LineAlike (h ++ r ++ t) (h ++ r' ++ t) := by
  have tokens : ∀ {r : Text}, IsRun r →
      lineTokens (h ++ r ++ t) = split (behindLabel h) ++ split (before ';' t) := by
    intro r run
    rw [List.append_assoc, (place.append_run run).lineTokens,
      before_append_of_not_mem (run.not_mem (by decide)), ← List.append_assoc,
        split_run run.2 run.1]
  refine .of_eq ((tokens run).trans (tokens run').symm) ?_
  rw [List.append_assoc, List.append_assoc, (place.append_run run).lineLabel,
    (place.append_run run').lineLabel]

/-- Blanks are dropped up to a character that is none. -/
lemma exists_dropWhile {c : Char} (hc : isBlank c = false) (s t : Text) :
    ∃ s', (s ++ c :: t).dropWhile isBlank = s' ++ c :: t := by
  rw [List.dropWhile_append]
  split_ifs
  · exact ⟨[], by simp [hc]⟩
  · exact ⟨_, rfl⟩

/-- Trimming keeps what is between characters that are no blanks. -/
lemma mem_trim_between {c d e : Char} (hc : isBlank c = false)
    (hd : isBlank d = false) (mem : e ∈ r) (s t : Text) : e ∈ trim (s ++ c :: (r ++ d :: t)) := by
  obtain ⟨s', left⟩ := exists_dropWhile hc s (r ++ d :: t)
  obtain ⟨t', right⟩ := exists_dropWhile hd t.reverse (r.reverse ++ c :: s'.reverse)
  have turned : (s' ++ c :: (r ++ d :: t)).reverse =
      t.reverse ++ d :: (r.reverse ++ c :: s'.reverse) := by
    simp
  rw [trim, left, List.rdropWhile, turned, right]
  simp [mem]

section Label

variable (place : InLabel h t) (run : IsRun r)
include place run

lemma InLabel.lineTokens : lineTokens (h ++ r ++ t) = split (after ':' (before ';' t)) := by
  rw [lineTokens_eq, before_append_of_not_mem (run.not_mem_append (by decide) place.code),
    behindLabel, if_pos (List.mem_append_right _ place.mark),
    after_append_of_not_mem (run.not_mem_append (by decide) place.unlabeled)]

lemma InLabel.lineLabel :
    lineLabel (h ++ r ++ t) = some (trim (h ++ r ++ before ':' (before ';' t))) := by
  rw [lineLabel_eq, before_append_of_not_mem (run.not_mem_append (by decide) place.code),
    if_pos (List.mem_append_right _ place.mark),
    before_append_of_not_mem (run.not_mem_append (by decide) place.unlabeled)]

/-- The label keeps a separator of the run, so nothing refers to it. -/
lemma InLabel.lineLabel_ne {L : Text} (solid : Solid L) :
    FpgaGpu.lineLabel (h ++ r ++ t) ≠ some L := by
  intro e
  rw [place.lineLabel run] at e
  obtain ⟨-, -, mark, ⟨p, c, rfl, left⟩, d, q, rfl, right, notColon⟩ := place
  have notSemi : d ≠ ';' := by
    rintro rfl
    simp [before] at mark
  have keep : before ':' (before ';' (d :: q)) = d :: before ':' (before ';' q) := by
    simp [before, notSemi, notColon]
  obtain ⟨sep, mem⟩ := List.exists_mem_of_ne_nil r run.1
  have inside := mem_trim_between (not_isBlank left)
    (not_isBlank right) mem p (before ':' (before ';' q))
  have shape : p ++ [c] ++ r ++ d :: before ':' (before ';' q) =
      p ++ c :: (r ++ d :: before ':' (before ';' q)) := by simp
  rw [← shape, ← keep, Option.some.inj e] at inside
  exact Bool.false_ne_true ((solid sep inside).symm.trans (run.2 sep mem))

end Label

/-- A run of separators in a label, which cannot be referred to in either line. -/
lemma lineAlike_run_label (place : InLabel h t) (run : IsRun r) (run' : IsRun r') :
    LineAlike (h ++ r ++ t) (h ++ r' ++ t) where
  code := by rw [lineCode, lineCode, place.lineTokens run, place.lineTokens run']
  size := by rw [lineSize, lineSize, place.lineTokens run, place.lineTokens run']
  label _ solid := iff_of_false (place.lineLabel_ne run solid) (place.lineLabel_ne run' solid)

/-- Blanks between a label and its colon. -/
lemma lineAlike_colon (code : ';' ∉ h) (label : ':' ∉ h) (blank : ∀ c ∈ r, isBlank c = true)
    (blank' : ∀ c ∈ r', isBlank c = true) (t : Text) :
    LineAlike (h ++ r ++ ':' :: t) (h ++ r' ++ ':' :: t) := by
  have parts : ∀ {r : Text}, (∀ c ∈ r, isBlank c = true) →
      lineTokens (h ++ r ++ ':' :: t) = split (before ';' t) ∧
        lineLabel (h ++ r ++ ':' :: t) = some (trim h) := by
    intro r blank
    have semi : ';' ∉ h ++ r := by simp [code, not_mem_of_blank blank (c := ';') (by decide)]
    have colon : ':' ∉ h ++ r := by simp [label, not_mem_of_blank blank (c := ':') (by decide)]
    have cut : before ';' (h ++ r ++ ':' :: t) = h ++ r ++ ':' :: before ';' t := by
      rw [before_append_of_not_mem semi]
      rfl
    have mark : ':' ∈ h ++ r ++ ':' :: before ';' t := by simp
    constructor
    · rw [lineTokens_eq, cut, behindLabel, if_pos mark, after_append colon]
    · rw [lineLabel_eq, cut, if_pos mark, before_append colon, trim_append_right blank]
  obtain ⟨tokens, name⟩ := parts blank
  obtain ⟨tokens', name'⟩ := parts blank'
  exact .of_eq (tokens.trans tokens'.symm) (name.trans name'.symm)

/-- A token stays one if only its letters change. -/
lemma IsToken.letters {w w' : Text} (token : IsToken h w t) (ne : w' ≠ [])
    (marks : ∀ d, d.isAlpha = false → d ∈ w' → d ∈ w) : IsToken h w' t where
  place := by
    have semi' : ';' ∉ w' := fun mem => token.code (marks ';' (by decide) mem)
    refine ⟨token.place.code, token.place.labeled.imp_right fun unmarked => ?_⟩
    rw [before_append_of_not_mem token.code, List.mem_append, not_or] at unmarked
    rw [before_append_of_not_mem semi', List.mem_append, not_or]
    exact ⟨fun mem => unmarked.1 (marks ':' (by decide) mem), unmarked.2⟩
  ne := ne
  solid c mem := by
    by_contra sep
    have sep : isSeparator c = true := by simpa using sep
    exact Bool.false_ne_true
      ((token.solid c (marks c (not_isAlpha_of_isSeparator sep) mem)).symm.trans sep)
  code mem := token.code (marks ';' (by decide) mem)
  left := token.left
  right := token.right

/-- Lines with a different token at the same place. -/
lemma IsToken.lineAlike {w w' m m' : Text} {ops ops' : List Text} (token : IsToken h w t)
    (token' : IsToken h w' t) (tokens : FpgaGpu.lineTokens (h ++ w ++ t) = m :: ops)
    (tokens' : FpgaGpu.lineTokens (h ++ w' ++ t) = m' :: ops')
    (same : parseInstruction (upper m) (m :: ops) = parseInstruction (upper m') (m' :: ops')) :
    LineAlike (h ++ w ++ t) (h ++ w' ++ t) where
  code := by
    rw [lineCode, lineCode, tokens, tokens']
    dsimp only
    rw [same]
  size := by
    rw [lineSize, lineSize, tokens, tokens', if_neg (List.cons_ne_nil m ops),
      if_neg (List.cons_ne_nil m' ops')]
  label L _ := by
    rw [List.append_assoc, List.append_assoc, token.place.lineLabel, token'.place.lineLabel]

lemma lineAlike_mnemonic {m m' : Text} (token : IsToken h m t) (first : split (behindLabel h) = [])
    (same : upper m = upper m') : LineAlike (h ++ m ++ t) (h ++ m' ++ t) := by
  have ne : m' ≠ [] := by
    rintro rfl
    exact token.ne (List.map_eq_nil_iff.mp same)
  have token' := token.letters ne fun d mark mem => mem_of_upper same mark mem
  have tokens := token.lineTokens
  have tokens' := token'.lineTokens
  rw [first, List.nil_append] at tokens tokens'
  refine token.lineAlike token' tokens tokens' ?_
  rw [← same]
  refine parseInstruction_congr (upper m) fun form _ => ⟨rfl, fun i kind _ => ?_⟩
  rw [List.getElem?_cons_succ, List.getElem?_cons_succ]
  cases (split (before ';' t))[i]? with
  | none => exact .none
  | some t => exact .some (kind.same_refl t)

lemma lineAlike_register (letter : RegisterLetter h u v t) :
    LineAlike (h ++ (u ++ 'R' :: v) ++ t) (h ++ (u ++ 'r' :: v) ++ t) := by
  obtain ⟨token, mnemonic, ops, first, operand⟩ := letter
  have token' : IsToken h (u ++ 'r' :: v) t := token.letters (by simp) fun d mark mem => by
    rw [List.mem_append, List.mem_cons] at mem ⊢
    obtain mem | rfl | mem := mem
    · exact .inl mem
    · cases mark
    · exact .inr (.inr mem)
  have tokens := token.lineTokens
  have tokens' := token'.lineTokens
  rw [first, List.cons_append] at tokens tokens'
  refine token.lineAlike token' tokens tokens' ?_
  exact parseInstruction_congr (upper mnemonic) fun form known =>
    .replace fun kind there => (operand form kind known there).same v

/-- An edited line is assembled alike. -/
lemma LineEdit.lineAlike (edit : LineEdit l l') : LineAlike l l' := by
  cases edit with
  | comment => exact lineAlike_comment ..
  | leading blank => exact lineAlike_leading blank _
  | trailing blank => exact lineAlike_trailing blank _
  | run place run run' =>
    obtain place | place := place
    · exact lineAlike_run_body place run run'
    · exact lineAlike_run_label place run run'
  | colon code label blank blank' t => exact lineAlike_colon code label blank blank' t
  | mnemonic token first same => exact lineAlike_mnemonic token first same
  | register letter => exact lineAlike_register letter

end Edits

/-! ## Sources that are laid out differently -/

/-- Lines that are assembled alike, wherever they stand. -/
structure LinesAlike (x y : List Text) : Prop where
  code : linesCode x = linesCode y
  labels : ∀ pc labels L, Solid L → linesLabels pc labels x L = linesLabels pc labels y L

section Lines

variable {l l' : Text} {x y : List Text}

/-- The entry of a label behind lines comes from its entry before them. -/
lemma linesLabels_entry {labels labels' : Text → Option Nat} {L : Text}
    (same : labels L = labels' L) (pc : Nat) (rawLines : List Text) :
    linesLabels pc labels rawLines L = linesLabels pc labels' rawLines L := by
  induction rawLines generalizing pc labels labels' with
  | nil => exact same
  | cons rawLine rawLines ih =>
    refine ih ?_ _
    rw [lineLabels_apply, lineLabels_apply, same]

/-- Lines before those that differ. -/
lemma LinesAlike.append_left (alike : LinesAlike x y) (pre : List Text) :
    LinesAlike (pre ++ x) (pre ++ y) := by
  induction pre with
  | nil => exact alike
  | cons rawLine pre ih =>
      exact ⟨by simp [linesCode, ih.code], fun _ _ L solid => ih.labels _ _ L solid⟩

/-- A line in place of one that is assembled alike. -/
lemma LineAlike.lines (alike : LineAlike l l') (post : List Text) :
    LinesAlike (l :: post) (l' :: post) := by
  refine ⟨by simp [linesCode, alike.code], fun pc labels L solid => ?_⟩
  rw [linesLabels, linesLabels, alike.size]
  refine linesLabels_entry ?_ _ _
  rw [lineLabels_apply, lineLabels_apply]
  exact if_congr (alike.label L solid) rfl rfl

/-- A line of blanks and a comment adds nothing. -/
lemma linesAlike_idle {b : Text} (idle : ∀ c ∈ before ';' b, isBlank c = true) (post : List Text) :
    LinesAlike post (b :: post) := by
  have empty : trim (before ';' b) = [] := by
    rw [← List.append_nil (before ';' b), trim_append_left idle]
    rfl
  have tokens : lineTokens b = [] := by rw [lineTokens, empty]; rfl
  have label : lineLabel b = none := by rw [lineLabel, empty]; rfl
  constructor
  · rw [linesCode, lineCode, tokens]
    cases linesCode post <;> rfl
  · intro pc labels L _
    rw [linesLabels, lineLabels, label, lineSize, tokens]
    rfl

/-- The label that a line refers to is one of its tokens. -/
lemma solid_of_lineTarget {L : Text} (target : lineTarget l = some L) : Solid L := by
  unfold lineTarget at target
  split at target
  · cases target
  · next mnemonic operands tokens =>
    obtain ⟨t, there, name⟩ := Option.bind_eq_some_iff.mp target
    have mem : t ∈ operands := by
      unfold targetOperand at there
      split_ifs at there
      · exact List.mem_of_getElem? there
      · exact List.mem_of_getElem? there
    have same : t = L := by
      unfold asLabel at name
      split at name
      · cases name
      · exact Option.some.inj name
    have token : L ∈ lineTokens l := by
      rw [tokens, ← same]
      exact List.mem_cons_of_mem _ mem
    exact solid_of_mem_splitFrom solid_nil token

/-- The labels that instructions refer to are all that matters to their words. -/
lemma resolveLabels_congr {labels labels' : Text → Option Nat} {mis : List MachineInstruction}
    (same : ∀ mi ∈ mis, ∀ L, targetOf mi = some L → labels L = labels' L) (pc : Nat) :
    resolveLabels labels pc mis = resolveLabels labels' pc mis := by
  induction mis generalizing pc with
  | nil => rfl
  | cons mi mis ih =>
    obtain ⟨here, rest⟩ := List.forall_mem_cons.mp same
    rw [resolveLabels, resolveLabels, ih rest]
    by_cases target : mi.hasTarget
    · rw [here mi.labelTarget (if_pos target)]
    · rw [if_neg target, if_neg target]

/-- Sources whose lines are assembled alike give the same words, or none. -/
lemma assemble_congr {S S' : Text} (alike : LinesAlike (getlines S) (getlines S')) :
    assemble S = assemble S' := by
  rw [assemble_eq, assemble_eq, ← alike.code]
  cases code : linesCode (getlines S) with
  | ok mis =>
    refine resolveLabels_congr (fun mi mem L target => ?_) 0
    obtain ⟨l, -, refers⟩ := (exists_lineTarget code).mpr ⟨mi, mem, target⟩
    exact alike.labels 0 _ L (solid_of_lineTarget refers)
  | rejected => rfl
  | undefined => rfl

end Lines

/-- The edits of the layout of a source. -/
inductive SourceEdit : Text → Text → Prop
  | line {S S' l l' : Text} {pre post : List Text} (edit : LineEdit l l')
    (lines : getlines S = pre ++ l :: post) (lines' : getlines S' = pre ++ l' :: post) :
    SourceEdit S S'
  | insert {S S' b : Text} {pre post : List Text} (idle : ∀ c ∈ before ';' b, isBlank c = true)
    (lines : getlines S = pre ++ post) (lines' : getlines S' = pre ++ b :: post) : SourceEdit S S'

/-- An edit of the layout changes no word. -/
lemma SourceEdit.assemble_eq {S S' : Text} (edit : SourceEdit S S') : assemble S = assemble S' := by
  cases edit with
  | line edit lines lines' =>
    apply assemble_congr
    rw [lines, lines']
    exact (edit.lineAlike.lines _).append_left _
  | insert idle lines lines' =>
    apply assemble_congr
    rw [lines, lines']
    exact (linesAlike_idle idle _).append_left _

/-- Sources that differ only in their layout are both refused or give the same words. -/
theorem assemble_layout {S S' : Text} (edits : Relation.EqvGen SourceEdit S S') :
    assemble S = assemble S' := by
  induction edits with
  | rel _ _ edit => exact edit.assemble_eq
  | refl _ => rfl
  | symm _ _ _ ih => exact ih.symm
  | trans _ _ _ _ _ ih ih' => exact ih.trans ih'

/-- A comment line, the case of the letters, a tab for a space and a comment behind the operands
change nothing. -/
theorem assemble_layout_comment : assemble "LOOP: ADD R1, R2, R3\nBR P, LOOP\n".toList =
    assemble "; again\nLOOP: add r1,\tR2, R3;sum\nBR P, LOOP\n".toList := by
  have edit : ∀ {l l' : Text}, LineEdit l l' → '\n' ∉ l → '\n' ∉ l' → Relation.EqvGen SourceEdit
      (l ++ "\nBR P, LOOP\n".toList) (l' ++ "\nBR P, LOOP\n".toList) := by
    intro l l' edit nl nl'
    exact .rel _ _ (.line edit (show _ = [] ++ l :: _ from getlines_line nl _)
      (getlines_line nl' _))
  have mnemonic : LineEdit ("LOOP: ".toList ++ "ADD".toList ++ " R1, R2, R3".toList)
      ("LOOP: ".toList ++ "add".toList ++ " R1, R2, R3".toList) := by
    refine .mnemonic ⟨⟨by decide, .inl (by decide)⟩, by decide, ?_, by decide, ?_, ?_⟩ (by decide)
      (by decide)
    · exact (Printed.of_all (by decide) (by decide)).solid
    · rintro c ⟨⟩
      decide
    · rintro c ⟨⟩
      decide
  have register : LineEdit ("LOOP: add ".toList ++ ([] ++ 'R' :: "1".toList) ++ ", R2, R3".toList)
      ("LOOP: add ".toList ++ ([] ++ 'r' :: "1".toList) ++ ", R2, R3".toList) := by
    refine .register ⟨⟨⟨by decide, .inl (by decide)⟩, by decide, ?_, by decide, ?_, ?_⟩,
      "add".toList, [], by decide, ?_⟩
    · exact (Printed.of_all (by decide) (by decide)).solid
    · rintro c ⟨⟩
      decide
    · rintro c ⟨⟩
      decide
    · rintro form kind known there
      cases known
      cases there
      rfl
  have run : LineEdit ("LOOP: add r1".toList ++ ", ".toList ++ "R2, R3".toList)
      ("LOOP: add r1".toList ++ ",\t".toList ++ "R2, R3".toList) :=
    .run (.inl ⟨by decide, .inl (by decide)⟩) ⟨by decide, List.all_eq_true.mp (by decide)⟩
      ⟨by decide, List.all_eq_true.mp (by decide)⟩
  have comment : LineEdit "LOOP: add r1,\tR2, R3".toList "LOOP: add r1,\tR2, R3;sum".toList :=
    .comment _ "sum".toList
  apply assemble_layout
  refine .trans _ _ _ (edit mnemonic (by decide) (by decide)) ?_
  refine .trans _ _ _ (edit register (by decide) (by decide)) ?_
  refine .trans _ _ _ (edit run (by decide) (by decide)) ?_
  refine .trans _ _ _ (edit comment (by decide) (by decide)) (.rel _ _ ?_)
  have idle : ∀ c ∈ before ';' "; again".toList, isBlank c = true := List.all_eq_true.mp (by decide)
  exact .insert idle (List.nil_append _).symm (getlines_line (l := "; again".toList) (by decide) _)

end FpgaGpu

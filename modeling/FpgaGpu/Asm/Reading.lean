import FpgaGpu.Asm.Assembler

/-!
# Reading printed lines

What the parser makes of the lines that the emitter and the disassembler print: the operands come
back as tokens, a comment and an indentation do not matter, and each operand is read as the value it
was printed from.
-/

namespace FpgaGpu

/-! ## Lines -/

/-- A text that the comment and label marks do not occur in. -/
def Plain (s : Text) : Prop := ∀ c ∈ s, c ≠ ';' ∧ c ≠ ':'

@[simp] lemma plain_append {s t : Text} : Plain (s ++ t) ↔ Plain s ∧ Plain t :=
  List.forall_mem_append

@[simp] lemma plain_cons {c : Char} {s : Text} :
    Plain (c :: s) ↔ (c ≠ ';' ∧ c ≠ ':') ∧ Plain s := by
  simp [Plain]

@[simp] lemma plain_nil : Plain [] := by simp [Plain]

section Marks

variable {c : Char} {s : Text}

/-- A mark is not found in a text that it does not occur in. -/
lemma before_append_of_not_mem (off : c ∉ s) (t : Text) : before c (s ++ t) = s ++ before c t := by
  rw [before, List.takeWhile_append_of_pos]
  · rfl
  · intro d hd
    simpa using fun e : d = c => off (e ▸ hd)

lemma after_append_of_not_mem (off : c ∉ s) (t : Text) : after c (s ++ t) = after c t := by
  rw [after, List.dropWhile_append_of_pos]
  · rfl
  · intro d hd
    simpa using fun e : d = c => off (e ▸ hd)

/-- Without a mark there is nothing to cut off. -/
lemma before_eq_self (off : c ∉ s) : before c s = s := by
  rw [← List.append_nil s, before_append_of_not_mem off]
  rfl

/-- The text up to a mark. -/
lemma before_append (off : c ∉ s) (t : Text) : before c (s ++ c :: t) = s := by
  rw [before_append_of_not_mem off]
  simp [before]

/-- The text behind a mark. -/
lemma after_append (off : c ∉ s) (t : Text) : after c (s ++ c :: t) = t := by
  rw [after_append_of_not_mem off]
  simp [after]

/-- The first mark decides, whatever is behind it. -/
lemma before_append_of_mem (on : c ∈ s) (t : Text) : before c (s ++ t) = before c s := by
  obtain ⟨p, q, rfl, off⟩ := List.eq_append_cons_of_mem on
  rw [List.append_assoc, List.cons_append, before_append off, before_append off]

lemma after_append_of_mem (on : c ∈ s) (t : Text) : after c (s ++ t) = after c s ++ t := by
  obtain ⟨p, q, rfl, off⟩ := List.eq_append_cons_of_mem on
  rw [List.append_assoc, List.cons_append, after_append off, after_append off]

lemma not_mem_of_blank {b : Text} (blank : ∀ d ∈ b, isBlank d = true)
    (mark : isBlank c = false) : c ∉ b :=
  fun mem => Bool.false_ne_true (mark.symm.trans (blank c mem))

end Marks

/-- A comment with blanks before it, or nothing. -/
inductive Trailer : Text → Prop where
  | none : Trailer []
  | comment {b : Text} (c : Text) (blank : ∀ d ∈ b, isBlank d = true) : Trailer (b ++ ';' :: c)

/-- Stripping the comment and the blanks leaves the body of a line. -/
lemma trim_before_comment {indent body trailer : Text} (hi : ∀ c ∈ indent, isBlank c = true)
    (plain : Plain body) (trimmed : trim body = body) (ht : Trailer trailer) :
    trim (before ';' (indent ++ body ++ trailer)) = body := by
  have mark : isBlank ';' = false := by decide
  have semi : ';' ∉ indent ++ body := by
    rw [List.mem_append]
    rintro (m | m)
    · exact not_mem_of_blank hi mark m
    · exact (plain _ m).1 rfl
  cases ht with
  | none => rw [List.append_nil, before_eq_self semi, trim_append_left hi, trimmed]
  | @comment b c hb =>
    have semi' : ';' ∉ indent ++ body ++ b := by
      rw [List.mem_append]
      rintro (m | m)
      · exact semi m
      · exact not_mem_of_blank hb mark m
    rw [← List.append_assoc, before_append semi', trim_append_right hb,
      trim_append_left hi, trimmed]

/-- A line without a label is parsed as its tokens. -/
lemma parseLine_body {indent body trailer : Text} (hi : ∀ c ∈ indent, isBlank c = true)
    (plain : Plain body) (trimmed : trim body = body) (ne : body ≠ []) (ht : Trailer trailer)
    (st : Parse) : parseLine (indent ++ body ++ trailer) st = parseTokens body st := by
  have colon : ':' ∉ body := fun m => (plain _ m).2 rfl
  simp only [parseLine, trim_before_comment hi plain trimmed ht, if_neg ne, if_neg colon]

/-- A line that is a label and nothing else defines it. -/
lemma parseLine_label {name : Text} (plain : Plain name) (trimmed : trim name = name)
    (head : ∀ c ∈ name.head?, isBlank c = false) (st : Parse) :
    parseLine (name ++ [':']) st = .ok (st.define name) := by
  have semi : ';' ∉ name ++ [':'] := by
    rw [List.mem_append]
    rintro (m | m)
    · exact (plain _ m).1 rfl
    · simp at m
  have colon : ':' ∉ name := fun m => (plain _ m).2 rfl
  have whole : trim (name ++ [':']) = name ++ [':'] := by
    apply trim_eq_self
    · cases name with
      | nil => simp [isBlank]
      | cons c s => simpa using head
    · simp [isBlank]
  have ne : name ++ [':'] ≠ [] := by simp
  have mem : ':' ∈ name ++ [':'] := by simp
  simp only [parseLine, before_eq_self semi, whole, if_neg ne, if_pos mem, before_append colon,
    after_append colon, trimmed]
  rfl

/-! ## Tokens -/

/-- Comma-separated operands split into the operands. -/
lemma split_intercalate {ops : List Text} (h : ∀ t ∈ ops, Solid t ∧ t ≠ []) :
    split ((", ".toList).intercalate ops) = ops := by
  induction ops with
  | nil => rfl
  | cons t ops ih =>
    obtain ⟨⟨solid, ne⟩, h⟩ := List.forall_mem_cons.mp h
    cases ops with
    | nil => simpa using split_solid solid ne
    | cons u ops =>
      have comma : isSeparator ',' = true := by decide
      have space : isSeparator ' ' = true := by decide
      rw [List.intercalate_cons_cons]
      have : t ++ ", ".toList ++ (", ".toList).intercalate (u :: ops) =
          t ++ ',' :: ' ' :: (", ".toList).intercalate (u :: ops) := by simp
      rw [this, split_token solid ne comma, split_separator space, ih h]

/-- A printed line splits into its mnemonic and operands. -/
lemma split_lineText {mnemonic : String} {ops : List Text} (hm : Solid mnemonic.toList)
    (nm : mnemonic.toList ≠ []) (h : ∀ t ∈ ops, Solid t ∧ t ≠ []) :
    split (lineText mnemonic ops) = mnemonic.toList :: ops := by
  have space : isSeparator ' ' = true := by decide
  rw [lineText, split_token hm nm space, split_intercalate h]

/-- Printed operands are solid, plain and not empty. -/
structure Printed (t : Text) : Prop where
  solid : Solid t
  plain : Plain t
  ne : t ≠ []
  line : '\n' ∉ t

/-- A text whose characters neither separate nor mark is printed as one operand. -/
lemma Printed.of_forall {s : Text} (ne : s ≠ [])
    (h : ∀ c ∈ s, isSeparator c = false ∧ c ≠ ';' ∧ c ≠ ':' ∧ c ≠ '\n') : Printed s where
  solid c hc := (h c hc).1
  plain c hc := ⟨(h c hc).2.1, (h c hc).2.2.1⟩
  ne := ne
  line hc := (h _ hc).2.2.2 rfl

/-- The same of a closed text, whose characters can be tested. -/
lemma Printed.of_all {s : Text} (ne : s ≠ [])
    (h : s.all (fun c => !isSeparator c && c ≠ ';' && c ≠ ':' && c ≠ '\n') = true) : Printed s := by
  refine .of_forall ne fun c hc => ?_
  simpa [and_assoc] using List.all_eq_true.mp h c hc

lemma printed_decimal (z : Int) : Printed (decimal z) := by
  apply Printed.of_forall (decimal_ne_nil z)
  intro c hc
  obtain rfl | hc := mem_decimal hc
  · decide
  · obtain ⟨-, sep, -, -, semi, colon, nl⟩ := isDigitOf_ten hc
    exact ⟨sep, semi, colon, nl⟩

lemma printed_regText (r : RegField) : Printed (regText r) := by
  apply Printed.of_forall (by simp [regText])
  intro c hc
  obtain rfl | hc := List.mem_cons.mp hc
  · decide
  · obtain ⟨-, sep, -, -, semi, colon, nl⟩ := isDigitOf_ten (isDigitOf_decimalNat hc)
    exact ⟨sep, semi, colon, nl⟩

lemma printed_addressText (r : RegField) : Printed (addressText r) := by
  obtain ⟨solid, plain, ne, line⟩ := printed_regText r
  constructor
  · simp only [addressText, List.cons_append, solid_cons, solid_append]
    exact ⟨by decide, solid, by decide, solid_nil⟩
  · simp only [addressText, List.cons_append, plain_cons, plain_append]
    exact ⟨by decide, plain, by decide, plain_nil⟩
  · simp [addressText]
  · simpa [addressText] using line

/-! ## Operands -/

/-- A printed register is read back. -/
@[simp] lemma parseRegister_regText {r : RegField} (h : r.toNat < 32) :
    parseRegister (regText r) = .ok r := by
  have v : (r.setWidth 32).toInt = r.toNat := by
    rw [BitVec.toInt_setWidth, Int.bmod_eq_of_le] <;> push_cast <;> omega
  have e : decimalNat r.toNat = decimal ((r.setWidth 32).toInt) := by simp [decimal, v]
  have w : (r.setWidth 32).setWidth 8 = r := by simp
  have range : ¬ ((r.setWidth 32).toInt < 0 ∨ (r.setWidth 32).toInt ≥ numPhysicalRegs) := by
    rw [v, numPhysicalRegs]; omega
  simp only [regText, parseRegister, e, stoi_decimal _ (Or.inr rfl), Outcome.ofExcept,
    Outcome.ok_bind, if_neg range, w]
  rfl

/-- A printed address is read back. -/
@[simp] lemma parseAddress_addressText {r : RegField} (h : r.toNat < 32) :
    parseAddress (addressText r) = .ok r := by
  have digit : ∀ c ∈ regText r, c ≠ '[' ∧ c ≠ ']' := by
    intro c hc
    obtain rfl | hc := List.mem_cons.mp hc
    · decide
    · have d := isDigitOf_decimalNat hc
      exact ⟨ne_of_isDigitOf d (by decide), ne_of_isDigitOf d (by decide)⟩
  have keep : ∀ p : Char → Bool, (∀ c ∈ regText r, p c = true) →
      (regText r).filter p = regText r := fun p hp => List.filter_eq_self.mpr hp
  rw [parseAddress, addressText, List.cons_append, List.filter_cons_of_neg (by decide),
    List.filter_append, keep _ fun c hc => by simpa using (digit c hc).1]
  simp only [List.filter_append]
  rw [keep _ fun c hc => by simpa using (digit c hc).2]
  simpa using parseRegister_regText h

/-! ## Instructions -/

/-- A body of a line that the parser reads as one instruction. -/
structure Spells (body : Text) (mi : MachineInstruction) : Prop where
  tokens : ∀ st, parseTokens body st = .ok (st.push mi)
  plain : Plain body
  trimmed : trim body = body
  ne : body ≠ []
  line : '\n' ∉ body

lemma not_isBlank {c : Char} (solid : isSeparator c = false) : isBlank c = false :=
  Bool.eq_false_iff.mpr fun blank =>
    Bool.false_ne_true (solid.symm.trans (isSeparator_of_isBlank blank))

/-- Tokens contain no blanks. -/
lemma Solid.blank {s : Text} (h : Solid s) : ∀ c ∈ s, isBlank c = false :=
  fun c hc => not_isBlank (h c hc)

/-- The last character of comma-separated operands is the last character of an operand. -/
lemma getLast_intercalate {ops : List Text} (h : ∀ t ∈ ops, Solid t ∧ t ≠ []) :
    ∀ c ∈ ((", ".toList).intercalate ops).getLast?, isBlank c = false := by
  induction ops with
  | nil => simp
  | cons t ops ih =>
    obtain ⟨⟨solid, ne⟩, h⟩ := List.forall_mem_cons.mp h
    cases ops with
    | nil =>
      intro c hc
      simp only [List.intercalate_singleton] at hc
      exact solid.blank c (List.mem_of_getLast? hc)
    | cons u ops =>
      have neu : (", ".toList).intercalate (u :: ops) ≠ [] := by
        intro e
        have := split_intercalate h
        rw [e] at this
        cases this
      rw [List.intercalate_cons_cons, List.getLast?_append_of_ne_nil _ neu]
      exact ih h

/-- The characters of comma-separated operands. -/
lemma mem_intercalate {ops : List Text} {c : Char} (h : c ∈ (", ".toList).intercalate ops) :
    c = ' ' ∨ c = ',' ∨ ∃ t ∈ ops, c ∈ t := by
  induction ops with
  | nil => simp at h
  | cons t ops ih =>
    cases ops with
    | nil => exact .inr (.inr ⟨t, by simp, by simpa using h⟩)
    | cons u ops =>
      rw [List.intercalate_cons_cons, List.mem_append, List.mem_append] at h
      rcases h with (h | h) | h
      · exact .inr (.inr ⟨t, by simp, h⟩)
      · have : c = ',' ∨ c = ' ' := by simpa using h
        tauto
      · obtain h | h | ⟨v, hv, h⟩ := ih h
        · exact .inl h
        · exact .inr (.inl h)
        · exact .inr (.inr ⟨v, by simp [hv], h⟩)

/-- The shape of a printed line: its characters, its ends, no line break. -/
lemma lineText_shape {mnemonic : String} {ops : List Text} (hm : Printed mnemonic.toList)
    (hops : ∀ t ∈ ops, Printed t) (some : ops ≠ []) :
    Plain (lineText mnemonic ops) ∧ trim (lineText mnemonic ops) = lineText mnemonic ops ∧
      lineText mnemonic ops ≠ [] ∧ '\n' ∉ lineText mnemonic ops := by
  have solid : ∀ t ∈ ops, Solid t ∧ t ≠ [] := fun t ht => ⟨(hops t ht).solid, (hops t ht).ne⟩
  have ne : (", ".toList).intercalate ops ≠ [] := by
    intro e
    have := split_intercalate solid
    rw [e] at this
    exact some this.symm
  have mem : ∀ c ∈ lineText mnemonic ops,
      c ∈ mnemonic.toList ∨ c = ' ' ∨ c = ',' ∨ ∃ t ∈ ops, c ∈ t := by
    intro c hc
    simp only [lineText, List.mem_append, List.mem_cons] at hc
    rcases hc with hc | hc | hc
    · exact .inl hc
    · exact .inr (.inl hc)
    · exact .inr (mem_intercalate hc)
  refine ⟨fun c hc => ?_, ?_, by simp [lineText], fun hc => ?_⟩
  · rcases mem c hc with hc | rfl | rfl | ⟨t, ht, hc⟩
    · exact hm.plain c hc
    · decide
    · decide
    · exact (hops t ht).plain c hc
  · apply trim_eq_self
    · obtain ⟨c, m, e⟩ := List.exists_cons_of_ne_nil hm.ne
      have := hm.solid.blank c (by simp [e])
      simpa [lineText, e] using this
    · rw [lineText, List.getLast?_append_of_ne_nil _ (by simp), List.getLast?_cons_of_ne_nil ne]
      exact getLast_intercalate solid
  · rcases mem _ hc with hc | hc | hc | ⟨t, ht, hc⟩
    · exact hm.line hc
    · exact absurd hc (by decide)
    · exact absurd hc (by decide)
    · exact (hops t ht).line hc

/-- A mnemonic with printed operands spells what its tokens are parsed to. -/
lemma spells_lineText {mnemonic : String} {ops : List Text} {mi : MachineInstruction}
    (hm : Printed mnemonic.toList) (hops : ∀ t ∈ ops, Printed t) (some : ops ≠ [])
    (h : parseInstruction (upper mnemonic.toList) (mnemonic.toList :: ops) = .ok mi) :
    Spells (lineText mnemonic ops) mi := by
  have solid : ∀ t ∈ ops, Solid t ∧ t ≠ [] := fun t ht => ⟨(hops t ht).solid, (hops t ht).ne⟩
  obtain ⟨plain, trimmed, ne, line⟩ := lineText_shape hm hops some
  refine ⟨fun st => ?_, plain, trimmed, ne, line⟩
  rw [parseTokens, split_lineText hm.solid hm.ne solid]
  simp [h]

section Forms
variable {rd rs1 rs2 : RegField} (hrd : rd.toNat < 32) (hrs1 : rs1.toNat < 32)
  (hrs2 : rs2.toNat < 32)

include hrd hrs1 hrs2 in
/-- The three-register forms. -/
lemma spells_rType {mnemonic : String} {op : Opcode}
    (h : (mnemonic, op) ∈ [("ADD", .add), ("SUB", .sub), ("MUL", .mul)]) :
    Spells (lineText mnemonic [regText rd, regText rs1, regText rs2])
      { MachineInstruction.ofOp op with rd := rd, rs1 := rs1, rs2 := rs2 } := by
  have read : parseRType op [mnemonic.toList, regText rd, regText rs1, regText rs2] =
      .ok { MachineInstruction.ofOp op with rd := rd, rs1 := rs1, rs2 := rs2 } := by
    simp [parseRType, token, hrd, hrs1, hrs2]
  simp only [List.mem_cons, Prod.mk.injEq, List.not_mem_nil, or_false] at h
  rcases h with ⟨rfl, rfl⟩ | ⟨rfl, rfl⟩ | ⟨rfl, rfl⟩
  · exact spells_lineText (.of_all (by decide) (by decide)) (by simp [printed_regText])
      (by simp) read
  · exact spells_lineText (.of_all (by decide) (by decide)) (by simp [printed_regText])
      (by simp) read
  · exact spells_lineText (.of_all (by decide) (by decide)) (by simp [printed_regText])
      (by simp) read

include hrs1 hrs2 in
lemma spells_cmp : Spells (lineText "CMP" [regText rs1, regText rs2])
    { MachineInstruction.ofOp .cmp with rs1 := rs1, rs2 := rs2 } := by
  refine spells_lineText (.of_all (by decide) (by decide)) (by simp [printed_regText]) (by simp) ?_
  rw [show upper "CMP".toList = "CMP".toList by decide]
  simp [parseInstruction, parseCmp, token, hrs1, hrs2]

include hrd hrs1 in
lemma spells_addi (imm : BitVec 32) :
    Spells (lineText "ADDI" [regText rd, regText rs1, decimal imm.toInt])
      { MachineInstruction.ofOp .addi with rd := rd, rs1 := rs1, imm := imm &&& 0x3FFF } := by
  refine spells_lineText (.of_all (by decide) (by decide))
    (by simp [printed_regText, printed_decimal])
    (by simp) ?_
  rw [show upper "ADDI".toList = "ADDI".toList by decide]
  simp [parseInstruction, parseAddi, token, hrd, hrs1, stoi_decimal, Outcome.ofExcept]

include hrd hrs1 in
lemma spells_ldr : Spells (lineText "LDR" [regText rd, addressText rs1])
    { MachineInstruction.ofOp .ldr with rd := rd, rs1 := rs1 } := by
  refine spells_lineText (.of_all (by decide) (by decide))
    (by simp [printed_regText, printed_addressText]) (by simp) ?_
  rw [show upper "LDR".toList = "LDR".toList by decide]
  simp [parseInstruction, parseLdr, token, hrd, hrs1]

include hrs1 hrs2 in
lemma spells_str : Spells (lineText "STR" [regText rs2, addressText rs1])
    { MachineInstruction.ofOp .str with rs1 := rs1, rs2 := rs2 } := by
  refine spells_lineText (.of_all (by decide) (by decide))
    (by simp [printed_regText, printed_addressText]) (by simp) ?_
  rw [show upper "STR".toList = "STR".toList by decide]
  simp [parseInstruction, parseStr, token, hrs1, hrs2]

include hrd in
lemma spells_s2r {sr : Text} {imm : BitVec 32} (printed : Printed sr)
    (read : parseSysReg sr = .ok imm) :
    Spells (lineText "S2R" [regText rd, sr])
      { MachineInstruction.ofOp .s2r with rd := rd, imm := imm } := by
  refine spells_lineText (.of_all (by decide) (by decide)) (by simp [printed_regText, printed])
    (by simp) ?_
  rw [show upper "S2R".toList = "S2R".toList by decide]
  simp [parseInstruction, parseS2r, token, hrd, read]

end Forms

/-- A branch to an offset. -/
lemma spells_br_offset {cond : Text} (printed : Printed cond) (imm : BitVec 32) :
    Spells (lineText "BR" [cond, decimal imm.toInt])
      { MachineInstruction.ofOp .br with cond := parseCondition cond, imm := imm } := by
  refine spells_lineText (.of_all (by decide) (by decide)) (by simp [printed, printed_decimal])
    (by simp) ?_
  rw [show upper "BR".toList = "BR".toList by decide]
  simp [parseInstruction, parseBr, token, stoi_decimal]

/-- A branch to a label. -/
lemma spells_br_label {cond label : Text} (printed : Printed cond) (printed' : Printed label)
    {e : StoiError} (name : stoi 0 label = .error e) :
    Spells (lineText "BR" [cond, label])
      { MachineInstruction.ofOp .br with cond := parseCondition cond, labelTarget := label } := by
  refine spells_lineText (.of_all (by decide) (by decide))
    (by simp [printed, printed']) (by simp) ?_
  rw [show upper "BR".toList = "BR".toList by decide]
  simp [parseInstruction, parseBr, token, name]

/-- A reconvergence point at an offset. -/
lemma spells_ssy_offset (imm : BitVec 32) : Spells (lineText "SSY" [decimal imm.toInt])
    { MachineInstruction.ofOp .ssy with imm := imm } := by
  refine spells_lineText (.of_all (by decide) (by decide)) (by simp [printed_decimal]) (by simp) ?_
  rw [show upper "SSY".toList = "SSY".toList by decide]
  simp [parseInstruction, parseSsy, token, stoi_decimal]

/-- A reconvergence point at a label. -/
lemma spells_ssy_label {label : Text} (printed : Printed label)
    (name : stoi 0 label = .error .invalidArgument) : Spells (lineText "SSY" [label])
      { MachineInstruction.ofOp .ssy with labelTarget := label } := by
  refine spells_lineText (.of_all (by decide) (by decide)) (by simp [printed]) (by simp) ?_
  rw [show upper "SSY".toList = "SSY".toList by decide]
  simp [parseInstruction, parseSsy, token, name]

/-- The forms without operands. -/
lemma spells_bare {mnemonic : String} {op : Opcode}
    (h : (mnemonic, op) ∈ [("SYNC", .sync), ("EXIT", .exit)]) :
    Spells mnemonic.toList (MachineInstruction.ofOp op) := by
  simp only [List.mem_cons, Prod.mk.injEq, List.not_mem_nil, or_false] at h
  rcases h with ⟨rfl, rfl⟩ | ⟨rfl, rfl⟩
  · exact ⟨fun _ => rfl, (Printed.of_all (by decide) (by decide)).plain,
      by decide, by decide, by decide⟩
  · exact ⟨fun _ => rfl, (Printed.of_all (by decide) (by decide)).plain,
      by decide, by decide, by decide⟩

/-- A system register that is printed by name. -/
lemma sysRegName?_eq_some {sr : BitVec 16} {name : Text} (h : sysRegName? sr = some name) :
    Printed name ∧ parseSysReg name = .ok (sr.setWidth 32) := by
  unfold sysRegName? at h
  split at h
  · next e => cases h; subst e; exact ⟨.of_all (by decide) (by decide), by decide⟩
  · split at h
    · next e => cases h; subst e; exact ⟨.of_all (by decide) (by decide), by decide⟩
    · split at h
      · next e => cases h; subst e; exact ⟨.of_all (by decide) (by decide), by decide⟩
      · split at h
        · next e => cases h; subst e; exact ⟨.of_all (by decide) (by decide), by decide⟩
        · cases h

/-- A number that is no system register name. -/
lemma parseSysReg_decimal (imm : BitVec 32) :
    parseSysReg (decimal imm.toInt) = .ok (imm &&& 0x3FFF) := by
  have head : ∀ name : Text, name.head? = some 'S' → upper (decimal imm.toInt) ≠ name := by
    rintro name hname rfl
    rw [upper_decimal] at hname
    obtain e | e := mem_decimal (List.mem_of_head? hname)
    · exact absurd e (by decide)
    · exact absurd e (by decide)
  unfold parseSysReg
  rw [if_neg (head _ rfl), if_neg (head _ rfl), if_neg (head _ rfl), if_neg (head _ rfl)]
  simp [stoi_decimal, Outcome.ofExcept]

end FpgaGpu

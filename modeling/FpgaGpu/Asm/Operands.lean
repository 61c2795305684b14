import FpgaGpu.Asm.Lines

/-!
# Operands that are not there

The mnemonics read their operands by position, from left to right, and only `SSY` looks at how many
there are. A line is read past its end exactly if it has too few operands and those that it has all
convert: an operand that does not convert is an exception before that.
-/

namespace FpgaGpu

/-! ## Forms -/

/-- The kinds of operands. -/
inductive Operand where
  | register | address | literal | sysReg | condition | target | offset
  deriving DecidableEq

/-- How a piece of the assembler ends, without its result. -/
def Outcome.status {α : Type} (x : Outcome α) : Outcome Unit := x >>= fun _ => pure ()

/-- The conversion of an operand. -/
def Operand.read : Operand → Text → Outcome Unit
  | .register, t => (parseRegister t).status
  | .address, t => (parseAddress t).status
  | .literal, t => (Outcome.ofExcept (stoi 0 t)).status
  | .sysReg, t => (parseSysReg t).status
  | .condition, _ => .ok ()
  | .target, _ => .ok ()
  -- an offset is consumed to its end; what is no number is a label
  | .offset, t =>
    match stoi 0 t with
    | .ok (_, consumed) => if consumed ≠ t.length then .rejected else .ok ()
    | .error .invalidArgument => .ok ()
    | .error .outOfRange => .rejected

/-- The operands that a mnemonic needs. -/
def operandForm (mnemonic : Text) : Option (List Operand) :=
  if mnemonic = "ADD".toList then some [.register, .register, .register]
  else if mnemonic = "SUB".toList then some [.register, .register, .register]
  else if mnemonic = "MUL".toList then some [.register, .register, .register]
  else if mnemonic = "CMP".toList then some [.register, .register]
  else if mnemonic = "ADDI".toList then some [.register, .register, .literal]
  else if mnemonic = "LDR".toList then some [.register, .address]
  else if mnemonic = "STR".toList then some [.register, .address]
  else if mnemonic = "S2R".toList then some [.register, .sysReg]
  else if mnemonic = "BR".toList then some [.condition, .target]
  else if mnemonic = "SYNC".toList then some []
  else if mnemonic = "SSY".toList then some [.offset]
  else if mnemonic = "EXIT".toList then some []
  else none

/-- The operands that are there convert. -/
def Convert (form : List Operand) (operands : List Text) : Prop :=
  ∀ p ∈ form.zip operands, p.1.read p.2 = .ok ()

/-- A line with fewer operands than its mnemonic needs. -/
def Short (rawLine : Text) : Prop :=
  ∃ mnemonic operands form, lineTokens rawLine = mnemonic :: operands ∧
    operandForm (upper mnemonic) = some form ∧ operands.length < form.length

/-- A line whose missing operands are read. -/
def RunsOut (rawLine : Text) : Prop :=
  ∃ mnemonic operands form, lineTokens rawLine = mnemonic :: operands ∧
    operandForm (upper mnemonic) = some form ∧ upper mnemonic ≠ "SSY".toList ∧
    operands.length < form.length ∧ Convert form operands

/-- A line that is read to its end: nothing, or a mnemonic with its operands. -/
def ReadsThrough (rawLine : Text) : Prop :=
  ∀ mnemonic operands, lineTokens rawLine = mnemonic :: operands →
    ∃ form, operandForm (upper mnemonic) = some form ∧ form.length ≤ operands.length ∧
      (upper mnemonic = "SSY".toList → operands.length = 1) ∧ Convert form operands

/-! ## Reading operands -/

/-- Reads the operands of a form in order. -/
def readOperands : List Operand → List Text → Outcome Unit
  | [], _ => .ok ()
  | _ :: _, [] => .undefined
  | kind :: form, t :: operands => do
    kind.read t
    readOperands form operands

section Status

variable {α β : Type}

@[simp] lemma status_ok (a : α) : (Outcome.ok a).status = .ok () := rfl

@[simp] lemma status_rejected : (Outcome.rejected : Outcome α).status = .rejected := rfl

@[simp] lemma status_undefined : (Outcome.undefined : Outcome α).status = .undefined := rfl

lemma status_eq_undefined {x : Outcome α} : x.status = .undefined ↔ x = .undefined := by
  cases x <;> simp

lemma status_eq_ok {x : Outcome α} : x.status = .ok () ↔ ∃ a, x = .ok a := by
  cases x <;> simp

/-- The status of a sequence whose second part ends the same way for each result of the first. -/
lemma status_bind {x : Outcome α} {f : α → Outcome β} {y : Outcome Unit}
    (h : ∀ a, (f a).status = y) : (x >>= f).status = (x.status >>= fun _ => y) := by
  cases x with
  | ok a => exact h a
  | rejected => rfl
  | undefined => rfl

/-- Reading a token by its position. -/
lemma status_token {tokens : List Text} {i : Nat} {f : Text → Outcome α} {kind : Operand}
    {form : List Operand}
    (h : ∀ t, (f t).status = (kind.read t >>= fun _ => readOperands form (tokens.drop (i + 1)))) :
    (token tokens i >>= f).status = readOperands (kind :: form) (tokens.drop i) := by
  unfold token
  cases e : tokens[i]? with
  | none =>
    rw [List.drop_eq_nil_of_le (List.getElem?_eq_none_iff.mp e)]
    rfl
  | some t =>
    obtain ⟨lt, rfl⟩ := List.getElem?_eq_some_iff.mp e
    rw [List.drop_eq_getElem_cons lt]
    exact h _

end Status

lemma parseRegister_ne_undefined (t : Text) : parseRegister t ≠ .undefined := by
  cases t with
  | nil => nofun
  | cons c digits =>
    rw [parseRegister]
    split
    · nofun
    · cases stoi 10 digits with
      | error e => simp [Outcome.ofExcept]
      | ok p =>
        simp only [Outcome.ofExcept, Outcome.ok_bind]
        split <;> nofun

/-- A conversion reads nothing else. -/
lemma Operand.read_ne_undefined (kind : Operand) (t : Text) : kind.read t ≠ .undefined := by
  cases kind with
  | register => exact fun h => parseRegister_ne_undefined t (status_eq_undefined.mp h)
  | address => exact fun h => parseRegister_ne_undefined _ (status_eq_undefined.mp h)
  | literal => cases e : stoi 0 t <;> simp [Operand.read, e, Outcome.ofExcept]
  | sysReg =>
    intro h
    have undefined := status_eq_undefined.mp h
    unfold parseSysReg at undefined
    split_ifs at undefined
    cases e : stoi 0 t <;> simp [e, Outcome.ofExcept] at undefined
  | condition => nofun
  | target => nofun
  | offset =>
    rw [Operand.read]
    split
    · split_ifs <;> nofun
    · nofun
    · nofun

/-- Operands run out if there are too few and each one converts. -/
lemma readOperands_eq_undefined {form : List Operand} {operands : List Text} :
    readOperands form operands = .undefined ↔
      operands.length < form.length ∧ Convert form operands := by
  induction form generalizing operands with
  | nil => simp [readOperands]
  | cons kind form ih =>
    cases operands with
    | nil => simp [readOperands, Convert]
    | cons t operands =>
      have defined := kind.read_ne_undefined t
      cases e : kind.read t with
      | ok u => simp [readOperands, Convert, e, ih]
      | rejected => simp [readOperands, Convert, e]
      | undefined => exact absurd e defined

/-- Operands are read if there are enough and each one converts. -/
lemma readOperands_eq_ok {form : List Operand} {operands : List Text} :
    readOperands form operands = .ok () ↔
      form.length ≤ operands.length ∧ Convert form operands := by
  induction form generalizing operands with
  | nil => simp [readOperands, Convert]
  | cons kind form ih =>
    cases operands with
    | nil => simp [readOperands]
    | cons t operands =>
      have defined := kind.read_ne_undefined t
      cases e : kind.read t with
      | ok u => simp [readOperands, Convert, e, ih]
      | rejected => simp [readOperands, Convert, e]
      | undefined => exact absurd e defined

/-! ## Reading lines -/

/-- The operands of a form are read; without a form nothing is accepted. -/
def Follows (tokens : List Text) (x : Outcome MachineInstruction) : Option (List Operand) → Prop
  | some form => x.status = readOperands form (tokens.drop 1)
  | none => x = .rejected

section Lines

variable {tokens : List Text}

lemma parseRType_follows (op : Opcode) :
    Follows tokens (parseRType op tokens) (some [.register, .register, .register]) :=
  status_token fun _ => status_bind fun _ => status_token fun _ => status_bind fun _ =>
    status_token fun _ => status_bind fun _ => rfl

lemma parseCmp_follows :
    Follows tokens (parseCmp tokens) (some [.register, .register]) :=
  status_token fun _ => status_bind fun _ => status_token fun _ => status_bind fun _ => rfl

lemma parseAddi_follows :
    Follows tokens (parseAddi tokens) (some [.register, .register, .literal]) :=
  status_token fun _ => status_bind fun _ => status_token fun _ => status_bind fun _ =>
    status_token fun _ => status_bind fun _ => rfl

lemma parseLdr_follows :
    Follows tokens (parseLdr tokens) (some [.register, .address]) :=
  status_token fun _ => status_bind fun _ => status_token fun _ => status_bind fun _ => rfl

lemma parseStr_follows :
    Follows tokens (parseStr tokens) (some [.register, .address]) :=
  status_token fun _ => status_bind fun _ => status_token fun _ => status_bind fun _ => rfl

lemma parseS2r_follows :
    Follows tokens (parseS2r tokens) (some [.register, .sysReg]) :=
  status_token fun _ => status_bind fun _ => status_token fun _ => status_bind fun _ => rfl

lemma parseBr_follows :
    Follows tokens (parseBr tokens) (some [.condition, .target]) := by
  refine status_token fun _ => status_token fun t => ?_
  cases stoi 0 t <;> rfl

lemma parseSsy_follows (one : tokens.length = 2) :
    Follows tokens (parseSsy tokens) (some [.offset]) := by
  rw [parseSsy, if_neg (not_not.mpr one)]
  refine status_token fun t => ?_
  rw [Operand.read]
  cases stoi 0 t with
  | ok p =>
    simp only
    split <;> rfl
  | error e => cases e <;> rfl

lemma bare_follows (op : Opcode) :
    Follows tokens (pure (MachineInstruction.ofOp op)) (some []) :=
  rfl

lemma Follows.ite {c : Prop} [Decidable c] {x y : Outcome MachineInstruction}
    {form form' : Option (List Operand)} (pos : c → Follows tokens x form)
    (neg : Follows tokens y form') :
    Follows tokens (if c then x else y) (if c then form else form') := by
  by_cases h : c
  · rw [if_pos h, if_pos h]
    exact pos h
  · rw [if_neg h, if_neg h]
    exact neg

/-- A mnemonic reads the operands of its form, `SSY` if it has as many tokens as it wants. -/
lemma parseInstruction_follows (mnemonic : Text) (tokens : List Text)
    (counted : mnemonic = "SSY".toList → tokens.length = 2) :
    Follows tokens (parseInstruction mnemonic tokens) (operandForm mnemonic) := by
  unfold parseInstruction operandForm
  apply Follows.ite fun _ => parseRType_follows .add
  apply Follows.ite fun _ => parseRType_follows .sub
  apply Follows.ite fun _ => parseRType_follows .mul
  apply Follows.ite fun _ => parseCmp_follows
  apply Follows.ite fun _ => parseAddi_follows
  apply Follows.ite fun _ => parseLdr_follows
  apply Follows.ite fun _ => parseStr_follows
  apply Follows.ite fun _ => parseS2r_follows
  apply Follows.ite fun _ => parseBr_follows
  apply Follows.ite fun _ => bare_follows _
  apply Follows.ite fun e => parseSsy_follows (counted e)
  apply Follows.ite fun _ => bare_follows _
  rfl

lemma parseInstruction_uncounted (other : tokens.length ≠ 2) :
    parseInstruction "SSY".toList tokens = .rejected := by
  rw [show parseInstruction "SSY".toList tokens = parseSsy tokens from rfl, parseSsy, if_pos other]

/-- How a line ends does not depend on what was collected before. -/
lemma parseLine_status (rawLine : Text) (st : Parse) : (parseLine rawLine st).status =
    match lineTokens rawLine with
    | [] => .ok ()
    | mnemonic :: operands =>
        (parseInstruction (upper mnemonic) (mnemonic :: operands)).status := by
  rw [parseLine_eq, lineCode]
  cases lineTokens rawLine with
  | nil => rfl
  | cons mnemonic operands =>
    cases e : parseInstruction (upper mnemonic) (mnemonic :: operands) <;> simp [e]

lemma runsOut_iff {rawLine mnemonic : Text} {operands : List Text}
    (tokens : lineTokens rawLine = mnemonic :: operands) :
    RunsOut rawLine ↔ ∃ form, operandForm (upper mnemonic) = some form ∧
      upper mnemonic ≠ "SSY".toList ∧ operands.length < form.length ∧ Convert form operands := by
  simp [RunsOut, tokens]

lemma readsThrough_iff {rawLine mnemonic : Text} {operands : List Text}
    (tokens : lineTokens rawLine = mnemonic :: operands) :
    ReadsThrough rawLine ↔ ∃ form, operandForm (upper mnemonic) = some form ∧
      form.length ≤ operands.length ∧ (upper mnemonic = "SSY".toList → operands.length = 1) ∧
      Convert form operands := by
  simp [ReadsThrough, tokens]

/-- A line that runs out is undefined, and one that is read through succeeds. -/
lemma parseLine_cases (rawLine : Text) (st : Parse) :
    (parseLine rawLine st = .undefined ↔ RunsOut rawLine) ∧
      ((∃ st', parseLine rawLine st = .ok st') ↔ ReadsThrough rawLine) := by
  have status := parseLine_status rawLine st
  rw [← status_eq_undefined, ← status_eq_ok]
  cases tokens : lineTokens rawLine with
  | nil =>
    rw [tokens] at status
    simp [status, RunsOut, ReadsThrough, tokens]
  | cons mnemonic operands =>
    simp only [tokens] at status
    rw [status, runsOut_iff tokens, readsThrough_iff tokens]
    -- SSY checks the number of its operands before it reads one, and no other mnemonic does
    by_cases counted : upper mnemonic = "SSY".toList → operands.length = 1
    · have follows := parseInstruction_follows (upper mnemonic) (mnemonic :: operands) fun e => by
        simp [counted e]
      cases e : operandForm (upper mnemonic) with
      | none =>
        rw [e] at follows
        rw [show parseInstruction (upper mnemonic) (mnemonic :: operands) = .rejected from follows]
        simp
      | some form =>
        rw [e] at follows
        rw [show Outcome.status _ = readOperands form operands from follows,
          readOperands_eq_undefined, readOperands_eq_ok]
        simp only [Option.some.injEq, ↓existsAndEq, true_and]
        refine ⟨⟨fun h => ⟨fun ssy => ?_, h⟩, fun h => h.2⟩,
          fun h => ⟨h.1, counted, h.2⟩, fun h => ⟨h.1, h.2.2⟩⟩
        rw [ssy] at e
        obtain rfl : [.offset] = form := Option.some.inj e
        exact absurd h.1 (Nat.not_lt.mpr (counted ssy).ge)
    · obtain ⟨ssy, other⟩ := Classical.not_imp.mp counted
      rw [ssy, parseInstruction_uncounted (by simpa using other)]
      simp [other]

end Lines

/-! ## Reading a source -/

/-- A line that is read through is not short. -/
lemma ReadsThrough.not_short {rawLine : Text} (h : ReadsThrough rawLine) : ¬ Short rawLine := by
  rintro ⟨mnemonic, operands, form, tokens, e, short⟩
  obtain ⟨form', e', enough, -⟩ := h mnemonic operands tokens
  obtain rfl := Option.some.inj (e.symm.trans e')
  exact absurd short (Nat.not_lt.mpr enough)

/-- Assembling has a result, and a line with too few operands is rejected. -/
structure OperandsThere (source : Text) : Prop where
  defined : assemble source ≠ .undefined
  short : ∀ rawLine ∈ getlines source, Short rawLine → assemble source = .rejected

/-- The lines before one that runs out are not all read through. -/
def NeverRunsOut (rawLines : List Text) : Prop :=
  ∀ pre rawLine post, rawLines = pre ++ rawLine :: post → (∀ l ∈ pre, ReadsThrough l) →
    ¬ RunsOut rawLine

lemma NeverRunsOut.cons_iff {rawLine : Text} {rawLines : List Text} :
    NeverRunsOut (rawLine :: rawLines) ↔
      ¬ RunsOut rawLine ∧ (ReadsThrough rawLine → NeverRunsOut rawLines) := by
  constructor
  · intro h
    refine ⟨h [] rawLine rawLines rfl nofun, fun here pre l post split reads => ?_⟩
    refine h (rawLine :: pre) l post (by rw [split, List.cons_append]) fun l mem => ?_
    obtain rfl | mem := List.mem_cons.mp mem
    · exact here
    · exact reads l mem
  · rintro ⟨here, later⟩ pre l post split reads
    cases pre with
    | nil =>
      obtain ⟨rfl, -⟩ := List.cons.inj split
      exact here
    | cons first pre =>
      obtain ⟨rfl, split'⟩ := List.cons.inj split
      obtain ⟨reads, reads'⟩ := List.forall_mem_cons.mp reads
      exact later reads pre l post split' reads'

/-- Parsing has a result if no line is reached that runs out. -/
lemma parseLines_defined_iff {rawLines : List Text} (st : Parse) :
    parseLines rawLines st ≠ .undefined ↔ NeverRunsOut rawLines := by
  induction rawLines generalizing st with
  | nil => simp [parseLines, NeverRunsOut]
  | cons rawLine rawLines ih =>
    obtain ⟨undefined, ok⟩ := parseLine_cases rawLine st
    rw [NeverRunsOut.cons_iff, ← undefined, ← ok, parseLines]
    cases parseLine rawLine st with
    | ok st' => simpa using ih st'
    | rejected => simp
    | undefined => simp

/-- Lines that parse are read through. -/
lemma parseLines_readsThrough {rawLines : List Text} {st st' : Parse}
    (h : parseLines rawLines st = .ok st') : ∀ l ∈ rawLines, ReadsThrough l := by
  induction rawLines generalizing st with
  | nil => nofun
  | cons rawLine rawLines ih =>
    obtain ⟨p, parsed, h⟩ := Outcome.bind_eq_ok.mp h
    exact List.forall_mem_cons.mpr ⟨(parseLine_cases rawLine st).2.mp ⟨p, parsed⟩, ih h⟩

lemma resolveLabels_ne_undefined {labels : Text → Option Nat} {pc : Nat}
    {mis : List MachineInstruction} : resolveLabels labels pc mis ≠ .undefined := by
  induction mis generalizing pc with
  | nil => nofun
  | cons mi mis ih =>
    rw [resolveLabels]
    cases e : resolveLabels labels (pc + 1) mis with
    | undefined => exact absurd e ih
    | ok words => split_ifs <;> cases labels mi.labelTarget <;> simp
    | rejected => split_ifs <;> cases labels mi.labelTarget <;> simp

/-- Assembling is defined exactly if parsing is. -/
lemma assemble_ne_undefined {source : Text} :
    assemble source ≠ .undefined ↔ NeverRunsOut (getlines source) := by
  rw [← parseLines_defined_iff .empty]
  cases parsed : parseLines (getlines source) .empty with
  | ok st =>
    have result : assemble source = resolveLabels st.labels 0 st.instructions := by
      rw [assemble, parsed]
      rfl
    simp [result, resolveLabels_ne_undefined]
  | rejected =>
    have result : assemble source = .rejected := by
      rw [assemble, parsed]
      rfl
    simp [result]
  | undefined =>
    have result : assemble source = .undefined := by
      rw [assemble, parsed]
      rfl
    simp [result]

/-- Operands are there exactly if no line is reached that runs out. -/
theorem assemble_operandsThere_iff {source : Text} :
    OperandsThere source ↔ NeverRunsOut (getlines source) := by
  constructor
  · intro there
    exact assemble_ne_undefined.mp there.defined
  · intro never
    refine ⟨assemble_ne_undefined.mpr never, fun rawLine mem short => ?_⟩
    have defined := (parseLines_defined_iff .empty).mpr never
    cases parsed : parseLines (getlines source) .empty with
    | ok st => exact absurd short (parseLines_readsThrough parsed rawLine mem).not_short
    | rejected =>
      rw [assemble, parsed]
      rfl
    | undefined => exact absurd parsed defined

/-- An addition without operands. -/
theorem assemble_short : ¬ OperandsThere "ADD".toList :=
  fun there => there.defined (by decide)

end FpgaGpu

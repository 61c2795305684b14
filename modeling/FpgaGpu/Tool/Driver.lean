import FpgaGpu.Tool.Options

/-!
# Driver script

Model of `scripts/fpgagpu-clang` around the call of Clang: the loop over its arguments and the
command line that it runs `fpgagpu-llc` with. The tool has an argument loop of its own, and what it
reads from that command line is what it would have read from the arguments of the script.
-/

namespace FpgaGpu

/-- The variables of the script. -/
structure Driver where
  inputFile : Text
  outputFile : Text
  optLevel : Text
  emitFormat : Text
  saveTemps : Bool
  extraArgs : List Text
  deriving DecidableEq, Repr

/-- Before the first argument. -/
def Driver.start : Driver where
  inputFile := []
  outputFile := []
  optLevel := "-O2".toList
  emitFormat := "-x".toList
  saveTemps := false
  extraArgs := []

/-- How the loop ends: with `exit 0`, by `set -e` where `shift 2` fails, or after the last
argument. -/
inductive DriverParsed where
  | help
  | failed
  | args (d : Driver)
  deriving DecidableEq, Repr

/-- An argument that takes no value and is not `-h`. -/
def Driver.flag (d : Driver) (arg : Text) : Driver :=
  if arg = "-S".toList ∨ arg = "--emit-asm".toList then { d with emitFormat := "-S".toList }
  else if arg = "-x".toList ∨ arg = "--emit-hex".toList then { d with emitFormat := "-x".toList }
  else if arg = "-b".toList ∨ arg = "--emit-bin".toList then { d with emitFormat := "-b".toList }
  else if arg = "--save-temps".toList then { d with saveTemps := true }
  else if arg = "-O0".toList ∨ arg = "-O1".toList ∨ arg = "-O2".toList ∨ arg = "-O3".toList then
    { d with optLevel := arg }
  else if d.inputFile = [] ∧ arg.head? ≠ some '-' then { d with inputFile := arg }
  else { d with extraArgs := d.extraArgs ++ [arg] }

/-- The loop over the arguments. -/
def parseDriver (d : Driver) : List Text → DriverParsed
  | [] => .args d
  | [arg] => if arg = "-o".toList then .failed else if isHelp arg then .help else .args (d.flag arg)
  | arg :: value :: args =>
    if arg = "-o".toList then parseDriver { d with outputFile := value } args
    else if isHelp arg then .help
    else parseDriver (d.flag arg) (value :: args)

/-- The shortest suffix that starts with a dot is cut off, if there is one. -/
def cutSuffix : Text → Option Text
  | [] => none
  | c :: s =>
    match cutSuffix s with
    | some t => some (c :: t)
    | none => if c = '.' then some [] else none

/-- `${file%.*}`. -/
def stripSuffix (file : Text) : Text := (cutSuffix file).getD file

/-- `OUTPUT_FILE` behind the loop. -/
def Driver.outputName (d : Driver) : Text :=
  if d.outputFile = [] then
    if d.emitFormat = "-S".toList then stripSuffix d.inputFile ++ ".s".toList
    else if d.emitFormat = "-b".toList then stripSuffix d.inputFile ++ ".bin".toList
    else stripSuffix d.inputFile ++ ".hex".toList
  else d.outputFile

/-- The arguments of `fpgagpu-llc` in step 2, for the temporary file that Clang wrote; `none` where
the script ends before. -/
def llcCommand (tmp : Text) : DriverParsed → Option (List Text)
  | .args d =>
    if d.inputFile = [] then none
    else some [d.emitFormat, d.optLevel, "-o".toList, d.outputName, tmp]
  | .help | .failed => none

/-! ## Names without their extensions -/

/-- A text with a dot is cut at its last one. -/
lemma exists_last_dot {file : Text} (dot : '.' ∈ file) :
    ∃ base extension, file = base ++ '.' :: extension ∧ '.' ∉ extension := by
  obtain ⟨p, q, e, off⟩ := List.eq_append_cons_of_mem (List.mem_reverse.mpr dot)
  refine ⟨q.reverse, p.reverse, ?_, by simpa using off⟩
  rw [← List.reverse_reverse file, e]
  simp

lemma cutSuffix_of_not_mem {s : Text} (plain : '.' ∉ s) : cutSuffix s = none := by
  induction s with
  | nil => rfl
  | cons c s ih =>
    rw [List.mem_cons, not_or] at plain
    obtain ⟨ne, plain⟩ := plain
    rw [cutSuffix, ih plain]
    exact if_neg (Ne.symm ne)

lemma cutSuffix_append {base extension : Text} (plain : '.' ∉ extension) :
    cutSuffix (base ++ '.' :: extension) = some base := by
  induction base with
  | nil =>
    rw [List.nil_append, cutSuffix, cutSuffix_of_not_mem plain]
    rfl
  | cons c base ih => rw [List.cons_append, cutSuffix, ih]

/-- The script and the tool cut a name at the same place. -/
lemma stripSuffix_eq_baseName (file : Text) : stripSuffix file = baseName file := by
  by_cases dot : '.' ∈ file
  · obtain ⟨base, extension, rfl, plain⟩ := exists_last_dot dot
    rw [stripSuffix, cutSuffix_append plain, baseName_append plain]
    rfl
  · rw [stripSuffix, cutSuffix_of_not_mem dot, baseName, if_neg dot]
    rfl

/-! ## The two loops -/

/-- The flag of a format. -/
def OutputFormat.flag : OutputFormat → Text
  | .assembly => "-S".toList
  | .hex => "-x".toList
  | .binary => "-b".toList

/-- The levels that the script passes on. -/
def isLevel (level : Text) : Bool :=
  level = "-O0".toList || level = "-O1".toList || level = "-O2".toList || level = "-O3".toList

/-- What the script holds after some arguments can be passed on. -/
structure Driver.Valid (d : Driver) : Prop where
  format : ∃ format : OutputFormat, d.emitFormat = format.flag
  level : isLevel d.optLevel = true

/-- The variables of the tool and of the script stand for the same options. -/
structure Driver.Agrees (d : Driver) (o : Options) : Prop where
  input : o.inputFile = d.inputFile
  output : o.outputFile = d.outputFile
  format : d.emitFormat = o.format.flag
  optimize : o.optimize = decide (d.optLevel ≠ "-O0".toList)
  assemble : o.assembleMode = false
  disasm : o.disasmMode = false

lemma Driver.Valid.flag {d : Driver} (h : d.Valid) (arg : Text) : (d.flag arg).Valid := by
  unfold Driver.flag
  split_ifs with asm hex bin temps level
  · exact ⟨⟨.assembly, rfl⟩, h.level⟩
  · exact ⟨⟨.hex, rfl⟩, h.level⟩
  · exact ⟨⟨.binary, rfl⟩, h.level⟩
  · exact ⟨h.format, h.level⟩
  · refine ⟨h.format, ?_⟩
    obtain rfl | rfl | rfl | rfl := level <;> rfl
  · exact ⟨h.format, h.level⟩
  · exact ⟨h.format, h.level⟩

lemma Driver.Valid.parse {d d' : Driver} {args : List Text} (h : d.Valid)
    (parsed : parseDriver d args = .args d') :
    d'.Valid := by
  fun_induction parseDriver d args with
  | case1 d =>
    obtain rfl := DriverParsed.args.inj parsed
    exact h
  | case2 | case3 | case6 => cases parsed
  | case4 d arg =>
    obtain rfl := DriverParsed.args.inj parsed
    exact h.flag arg
  | case5 d value args ih => exact ih ⟨h.format, h.level⟩ parsed
  | case7 d arg value args _ _ ih => exact ih (h.flag arg) parsed

/-- Extra arguments are never dropped. -/
lemma extraArgs_flag (d : Driver) (arg : Text) : d.extraArgs <+: (d.flag arg).extraArgs := by
  unfold Driver.flag
  split_ifs <;> simp

lemma extraArgs_parse {d d' : Driver} {args : List Text} (parsed : parseDriver d args = .args d') :
    d.extraArgs <+: d'.extraArgs := by
  fun_induction parseDriver d args with
  | case1 d =>
    obtain rfl := DriverParsed.args.inj parsed
    exact List.prefix_rfl
  | case2 | case3 | case6 => cases parsed
  | case4 d arg =>
    obtain rfl := DriverParsed.args.inj parsed
    exact extraArgs_flag d arg
  | case5 d value args ih => exact ih parsed
  | case7 d arg value args _ _ ih => exact (extraArgs_flag d arg).trans (ih parsed)

/-- An argument that both take for the same. -/
lemma Driver.Agrees.flag {d : Driver} {o o' : Options} (h : d.Agrees o) {arg : Text}
    (none : (d.flag arg).extraArgs = []) (step : o.flag arg = some o') :
    (d.flag arg).Agrees o' := by
  obtain ⟨input, output, format, optimize, assemble, disasm⟩ := h
  unfold Options.flag at step
  unfold Driver.flag at none ⊢
  by_cases asm : arg = "-S".toList ∨ arg = "--emit-asm".toList
  · rw [if_pos asm] at step ⊢
    obtain rfl := Option.some.inj step
    exact ⟨input, output, rfl, optimize, assemble, disasm⟩
  rw [if_neg asm] at step none ⊢
  by_cases hex : arg = "-x".toList ∨ arg = "--emit-hex".toList
  · rw [if_pos hex] at step ⊢
    obtain rfl := Option.some.inj step
    exact ⟨input, output, rfl, optimize, assemble, disasm⟩
  rw [if_neg hex] at step none ⊢
  by_cases bin : arg = "-b".toList ∨ arg = "--emit-bin".toList
  · rw [if_pos bin] at step ⊢
    obtain rfl := Option.some.inj step
    exact ⟨input, output, rfl, optimize, assemble, disasm⟩
  rw [if_neg bin] at step none ⊢
  by_cases zero : arg = "-O0".toList
  · subst zero
    rw [if_pos rfl] at step
    obtain rfl := Option.some.inj step
    exact ⟨input, output, format, by simp, assemble, disasm⟩
  rw [if_neg zero] at step
  by_cases level : arg = "-O2".toList ∨ arg = "-O1".toList ∨ arg = "-O3".toList
  · rw [if_pos level] at step
    obtain rfl := Option.some.inj step
    have temps : arg ≠ "--save-temps".toList := by
      obtain rfl | rfl | rfl := level <;> decide
    rw [if_neg temps, if_pos (level.elim (.inr ∘ .inr ∘ .inl) (.inr ∘ Or.imp_right .inr))]
    exact ⟨input, output, format, (decide_eq_true zero).symm, assemble, disasm⟩
  rw [if_neg level] at step
  have unlevelled : ¬ (arg = "-O0".toList ∨ arg = "-O1".toList ∨ arg = "-O2".toList ∨
      arg = "-O3".toList) := by
    rintro (h | h | h | h)
    · exact zero h
    · exact level (.inr (.inl h))
    · exact level (.inl h)
    · exact level (.inr (.inr h))
  -- the other options are extra arguments of the script
  have extra : arg.head? = some '-' → arg ≠ "--save-temps".toList → False := by
    intro dash temps
    rw [if_neg temps, if_neg unlevelled, if_neg fun h => h.2 dash] at none
    exact List.append_ne_nil_of_right_ne_nil _ (List.cons_ne_nil _ _) none
  by_cases assembles : arg = "-a".toList ∨ arg = "--assemble".toList
  · exact (extra (by obtain rfl | rfl := assembles <;> rfl)
      (by obtain rfl | rfl := assembles <;> decide)).elim
  rw [if_neg assembles] at step
  by_cases disassembles : arg = "-d".toList ∨ arg = "--disasm".toList
  · exact (extra (by obtain rfl | rfl := disassembles <;> rfl)
      (by obtain rfl | rfl := disassembles <;> decide)).elim
  rw [if_neg disassembles] at step
  by_cases dash : arg.head? = some '-'
  · rw [if_pos dash] at step
    cases step
  rw [if_neg dash] at step
  obtain rfl := Option.some.inj step
  have temps : arg ≠ "--save-temps".toList := by
    rintro rfl
    exact dash rfl
  rw [if_neg temps, if_neg unlevelled] at none ⊢
  by_cases first : d.inputFile = [] ∧ arg.head? ≠ some '-'
  · rw [if_pos first]
    exact ⟨rfl, output, format, optimize, assemble, disasm⟩
  · rw [if_neg first] at none
    exact absurd none (List.append_ne_nil_of_right_ne_nil _ (List.cons_ne_nil _ _))

/-- The two loops over the same arguments. -/
lemma Driver.Agrees.parse {d d' : Driver} {o o' : Options} {args : List Text} (h : d.Agrees o)
    (parsed : parseDriver d args = .args d') (none : d'.extraArgs = [])
    (parsed' : parseArgs o args = .options o') :
    d'.Agrees o' := by
  fun_induction parseDriver d args generalizing o with
  | case1 d =>
    obtain rfl := DriverParsed.args.inj parsed
    obtain rfl := Parsed.options.inj parsed'
    exact h
  | case2 | case3 | case6 => cases parsed
  | case4 d arg _ help =>
    obtain rfl := DriverParsed.args.inj parsed
    rw [parseArgs, if_neg help] at parsed'
    split at parsed'
    · next step =>
      obtain rfl := Parsed.options.inj parsed'
      exact h.flag none step
    · cases parsed'
  | case5 d value args ih =>
    rw [parseArgs, if_neg (by decide), if_pos rfl] at parsed'
    exact ih (o := { o with outputFile := value })
      ⟨h.input, rfl, h.format, h.optimize, h.assemble, h.disasm⟩ parsed parsed'
  | case7 d arg value args output help ih =>
    rw [parseArgs, if_neg help, if_neg output] at parsed'
    split at parsed'
    · next o₁ step =>
      refine ih (h.flag ?_ step) parsed parsed'
      exact List.prefix_nil.mp (none ▸ extraArgs_parse parsed)
    · cases parsed'

/-- The names agree. -/
lemma Driver.Agrees.outputName {d : Driver} {o : Options} (h : d.Agrees o) :
    d.outputName = o.outputName := by
  obtain ⟨input, output, format, -⟩ := h
  unfold Driver.outputName Options.outputName
  rw [format, output, input, stripSuffix_eq_baseName]
  cases o.format <;> rfl

/-- A path from the root is no option. -/
lemma flag_path {tmp : Text} (path : tmp.head? = some '/') (o : Options) :
    isHelp tmp = false ∧ o.flag tmp = some { o with inputFile := tmp } := by
  have option : ∀ s : Text, s.head? = some '-' → tmp ≠ s := by
    rintro s dash rfl
    rw [path] at dash
    cases dash
  have dash : tmp.head? ≠ some '-' := by
    rw [path]
    decide
  constructor
  · rw [isHelp, decide_eq_false (option _ rfl), decide_eq_false (option _ rfl)]
    rfl
  · rw [Options.flag, if_neg (not_or.mpr ⟨option _ rfl, option _ rfl⟩),
      if_neg (not_or.mpr ⟨option _ rfl, option _ rfl⟩),
        if_neg (not_or.mpr ⟨option _ rfl, option _ rfl⟩),
      if_neg (option _ rfl),
        if_neg (not_or.mpr ⟨option _ rfl, not_or.mpr ⟨option _ rfl, option _ rfl⟩⟩),
      if_neg (not_or.mpr ⟨option _ rfl, option _ rfl⟩),
        if_neg (not_or.mpr ⟨option _ rfl, option _ rfl⟩), if_neg dash]

/-- What the tool reads from the command line of the script. -/
lemma parseArgs_llcCommand {d : Driver} (valid : d.Valid) {tmp : Text}
    (path : tmp.head? = some '/') :
    ∃ format : OutputFormat, d.emitFormat = format.flag ∧
      parseArgs .start [d.emitFormat, d.optLevel, "-o".toList, d.outputName, tmp] = .options
        { inputFile := tmp, outputFile := d.outputName, format := format
          optimize := decide (d.optLevel ≠ "-O0".toList), assembleMode := false
          disasmMode := false } := by
  obtain ⟨⟨format, flag⟩, level⟩ := valid
  refine ⟨format, flag, ?_⟩
  have last : ∀ o : Options, parseArgs o ["-o".toList, d.outputName, tmp] =
      .options { o with inputFile := tmp, outputFile := d.outputName } := by
    intro o
    obtain ⟨help, read⟩ := flag_path path { o with outputFile := d.outputName }
    rw [parseArgs, if_neg (by decide), if_pos rfl, parseArgs, help, read]
    rfl
  have second : ∀ o : Options, parseArgs o [d.optLevel, "-o".toList, d.outputName, tmp] = .options
      { o with inputFile := tmp, outputFile := d.outputName,
               optimize := decide (d.optLevel ≠ "-O0".toList) } := by
    intro o
    generalize d.optLevel = level' at level
    simp only [isLevel, Bool.or_eq_true, decide_eq_true_eq, or_assoc] at level
    obtain rfl | rfl | rfl | rfl := level <;> exact last _
  rw [flag]
  cases format <;> exact second _

/-- Whatever the arguments of the script are, the tool compiles the file that Clang wrote. Where the
script has nothing left for Clang and the tool itself would accept the arguments, it compiles with
the options and to the output file that it would have read from them. -/
theorem llcCommand_forwards {args command : List Text} {tmp : Text} (path : tmp.head? = some '/')
    (runs : llcCommand tmp (parseDriver .start args) = some command) :
    ∃ o, parseArgs .start command = .options o ∧ o.inputFile = tmp ∧ o.outputFile ≠ [] ∧
      o.assembleMode = false ∧ o.disasmMode = false ∧
      ∀ d o', parseDriver .start args = .args d → d.extraArgs = [] →
        parseArgs .start args = .options o' →
        o = { o' with inputFile := tmp, outputFile := o'.outputName } := by
  cases parsed : parseDriver .start args with
  | help | failed =>
    rw [parsed] at runs
    cases runs
  | args d =>
    rw [parsed, llcCommand] at runs
    split at runs
    · cases runs
    obtain rfl := Option.some.inj runs
    have valid : Driver.start.Valid := ⟨⟨.hex, rfl⟩, rfl⟩
    obtain ⟨format, flag, read⟩ := parseArgs_llcCommand (valid.parse parsed) path
    refine ⟨_, read, rfl, ?_, rfl, rfl, fun d' o' same none own => ?_⟩
    · show d.outputName ≠ []
      unfold Driver.outputName
      split
      · split_ifs <;> exact List.append_ne_nil_of_right_ne_nil _ (by decide)
      · assumption
    · obtain rfl := DriverParsed.args.inj same
      have start : Driver.start.Agrees .start := ⟨rfl, rfl, rfl, by decide, rfl, rfl⟩
      have agrees := start.parse parsed none own
      have format_eq : format = o'.format := by
        have := flag.symm.trans agrees.format
        revert this
        cases format <;> cases o'.format <;> decide
      rw [agrees.outputName, format_eq, ← agrees.optimize, agrees.assemble, agrees.disasm]

/-- An assembly file of an unoptimised kernel. -/
theorem llcCommand_forwards_listing : ∃ o,
    parseArgs .start
        ["-S".toList, "-O0".toList, "-o".toList, "a/k.s".toList, "/tmp/fpgagpu_0.ll".toList] =
      .options o ∧ o.inputFile = "/tmp/fpgagpu_0.ll".toList ∧ o.outputFile ≠ [] ∧
        o.assembleMode = false ∧
      o.disasmMode = false ∧
      ∀ d o', parseDriver .start ["-O0".toList, "a/k.c".toList, "-S".toList] = .args d →
        d.extraArgs = [] →
        parseArgs .start ["-O0".toList, "a/k.c".toList, "-S".toList] = .options o' →
        o = { o' with inputFile := "/tmp/fpgagpu_0.ll".toList, outputFile := o'.outputName } :=
  have runs : llcCommand "/tmp/fpgagpu_0.ll".toList
      (parseDriver .start ["-O0".toList, "a/k.c".toList, "-S".toList]) =
      some ["-S".toList, "-O0".toList, "-o".toList, "a/k.s".toList,
        "/tmp/fpgagpu_0.ll".toList] := by decide
  llcCommand_forwards (by decide) runs

end FpgaGpu

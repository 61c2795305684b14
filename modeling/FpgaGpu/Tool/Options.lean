import FpgaGpu.Text.Scan

/-!
# Command line

Model of the loop over the arguments in `src/main.cpp`, and of the name that the output file gets
without `-o`.
-/

namespace FpgaGpu

/-- `OutputFormat`. -/
inductive OutputFormat where
  | assembly | hex | binary
  deriving DecidableEq, Repr

/-- The variables that the loop fills. -/
structure Options where
  inputFile : Text
  outputFile : Text
  format : OutputFormat
  optimize : Bool
  assembleMode : Bool
  disasmMode : Bool
  deriving DecidableEq, Repr

/-- Before the first argument. -/
def Options.start : Options where
  inputFile := []
  outputFile := []
  format := .hex
  optimize := true
  assembleMode := false
  disasmMode := false

/-- How the loop ends. -/
inductive Parsed where
  | help
  | unknownOption (arg : Text)
  | options (o : Options)
  deriving DecidableEq, Repr

/-- `-h` and `--help`. -/
def isHelp (arg : Text) : Bool := arg = "-h".toList || arg = "--help".toList

/-- An argument that is neither `-h` nor takes a value; `none` for an unknown option. -/
def Options.flag (o : Options) (arg : Text) : Option Options :=
  if arg = "-S".toList ∨ arg = "--emit-asm".toList then some { o with format := .assembly }
  else if arg = "-x".toList ∨ arg = "--emit-hex".toList then some { o with format := .hex }
  else if arg = "-b".toList ∨ arg = "--emit-bin".toList then some { o with format := .binary }
  else if arg = "-O0".toList then some { o with optimize := false }
  else if arg = "-O2".toList ∨ arg = "-O1".toList ∨
    arg = "-O3".toList then some { o with optimize := true }
  else if arg = "-a".toList ∨ arg = "--assemble".toList then some { o with assembleMode := true }
  else if arg = "-d".toList ∨ arg = "--disasm".toList then some { o with disasmMode := true }
  else if arg.head? = some '-' then none
  else some { o with inputFile := arg }

/-- The loop over the arguments. A last `-o` has no value, and is an unknown option. -/
def parseArgs (o : Options) : List Text → Parsed
  | [] => .options o
  | [arg] =>
    if isHelp arg then .help
    else
      match o.flag arg with
      | some o => .options o
      | none => .unknownOption arg
  | arg :: value :: args =>
    if isHelp arg then .help
    else if arg = "-o".toList then parseArgs { o with outputFile := value } args
    else
      match o.flag arg with
      | some o => parseArgs o (value :: args)
      | none => .unknownOption arg

/-- A file name up to its last dot. -/
def baseName (file : Text) : Text :=
  if '.' ∈ file then (file.rdropWhile (· ≠ '.')).dropLast else file

/-- The extension of a format. -/
def OutputFormat.extension : OutputFormat → Text
  | .assembly => ".s".toList
  | .binary => ".bin".toList
  | .hex => ".hex".toList

/-- The name of the output file. -/
def Options.outputName (o : Options) : Text :=
  if o.outputFile = [] then baseName o.inputFile ++ o.format.extension else o.outputFile

/-- There is always a name. -/
lemma Options.outputName_ne_nil (o : Options) : o.outputName ≠ [] := by
  unfold Options.outputName
  split
  · exact List.append_ne_nil_of_right_ne_nil _ (by cases o.format <;> decide)
  · assumption

/-- A base name without a dot in the extension. -/
lemma baseName_append {base extension : Text} (plain : '.' ∉ extension) :
    baseName (base ++ '.' :: extension) = base := by
  have drop : (base ++ '.' :: extension).rdropWhile (· ≠ '.') = base ++ ['.'] := by
    have split : base ++ '.' :: extension = (base ++ ['.']) ++ extension := by simp
    have skip : extension.reverse.dropWhile (· ≠ '.') = [] := by
      rw [List.dropWhile_eq_nil_iff]
      intro c mem
      simpa using fun e : c = '.' => plain (e ▸ List.mem_reverse.mp mem)
    rw [split, List.rdropWhile, List.reverse_append, List.dropWhile_append, skip]
    simp
  rw [baseName, if_pos (by simp), drop, List.dropLast_concat]

end FpgaGpu

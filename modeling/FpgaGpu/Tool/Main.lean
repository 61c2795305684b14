import FpgaGpu.Asm.Normal
import FpgaGpu.Asm.Operands
import FpgaGpu.Backend.Listing
import FpgaGpu.Tool.Options

/-!
# The tool

Model of `main` in `src/main.cpp` and of `CompilerBackend::compileFile` over a file system. Reading
IR and the optimisation passes are LLVM's, and are parameters. The messages are left out. A file is
the text of its bytes.
-/

namespace FpgaGpu

/-- What the tool takes from LLVM and from the hash maps of the allocator. -/
structure Environment where
  /-- `llvm::parseIRFile`, on what is in the file. -/
  parseIR : Text → Option Llvm.Module
  /-- The passes that `-O0` switches off. -/
  optimize : Llvm.Module → Llvm.Module
  analyses : Analyses
  dataLayout : Llvm.Module → DataLayout
  order : SortOrder

/-- Files by name: what is in those that can be read, and which can be opened for writing. -/
structure Files where
  content : Text → Option Text
  writable : Text → Bool

/-- A file is written, from its start. -/
def Files.write (files : Files) (name text : Text) : Files :=
  { files with content := Function.update files.content name (some text) }

@[simp] lemma Files.content_write (files : Files) (name text : Text) :
    (files.write name text).content name = some text := Function.update_self ..

lemma Files.content_write_of_ne (files : Files) {name other : Text}
    (ne : other ≠ name) (text : Text) :
    (files.write name text).content other = files.content other := Function.update_of_ne ne ..

lemma Files.write_write (files : Files) (name text text' : Text) :
    (files.write name text).write name text' = files.write name text' := by
  simp [Files.write]

@[simp] lemma Files.writable_write (files : Files) (name text : Text) :
    (files.write name text).writable = files.writable := rfl

/-- How a run ends: with an exit status, or where C++ does not define it. -/
inductive Ended where
  | exit (status : Nat) (files : Files)
  | undefined

/-- Bytes as characters. -/
def bytesText (bytes : List (BitVec 8)) : Text := bytes.map fun b => Char.ofNat b.toNat

/-- What the assembly mode writes for machine words. -/
def wordsText (format : OutputFormat) (code : List Word) : Text :=
  if format = .binary then bytesText (writeBinary code) else writeHex code

/-- What `compileModule` writes for the blocks of a module. -/
def emitText : OutputFormat → List BasicBlockCode → Text
  | .assembly, blocks => emitAssembly blocks
  | .hex, blocks => emitHex blocks
  | .binary, blocks => bytesText (emitBinary blocks)

/-- Mode 1. Whether the output file could be opened is not asked. -/
def runAssemble (files : Files) (o : Options) : Ended :=
  match files.content o.inputFile with
  | none => .exit 1 files
  | some source =>
    match assemble source with
    | .ok code =>
      .exit 0 (if files.writable o.outputName
        then files.write o.outputName (wordsText o.format code) else files)
    | .rejected => .exit 1 files
    | .undefined => .undefined

/-- Mode 2. The output file is opened, and with that emptied, before the first line is read. -/
def runDisassemble (files : Files) (o : Options) : Ended :=
  if (files.content o.inputFile).isNone ∨ ¬ files.writable o.outputName then .exit 1 files
  else
    let opened := files.write o.outputName []
    .exit 0 (opened.write o.outputName (disassembleMode ((opened.content o.inputFile).getD [])))

/-- The module that is compiled. -/
def Environment.readModule (env : Environment) (files : Files) (o : Options) : Option Llvm.Module :=
  ((files.content o.inputFile).bind env.parseIR).map fun M =>
    if o.optimize then env.optimize M else M

/-- Mode 3, `compileFile`. -/
def runCompile (env : Environment) (files : Files) (o : Options) : Ended :=
  match env.readModule files o with
  | none => .exit 1 files
  | some M =>
    match selectFunctions (env.dataLayout M) (M.functions.map (runDivergencePass env.analyses)) with
    | none => .undefined
    | some _ =>
      match compileModule env.analyses (env.dataLayout M) env.order M with
      | none => .exit 1 files
      | some blocks =>
        if files.writable o.outputName then .exit 0
          (files.write o.outputName (emitText o.format blocks))
        else .exit 1 files

/-- The three modes. -/
def runOptions (env : Environment) (files : Files) (o : Options) : Ended :=
  if o.inputFile = [] then .exit 1 files
  else if o.assembleMode then runAssemble files o
  else if o.disasmMode then runDisassemble files o
  else runCompile env files o

/-- `main`, for the arguments behind the name of the program. -/
def main (env : Environment) (files : Files) (args : List Text) : Ended :=
  if args = [] then .exit 1 files
  else
    match parseArgs .start args with
    | .help => .exit 0 files
    | .unknownOption _ => .exit 1 files
    | .options o => runOptions env files o

section Runs

variable {env : Environment} {files files' : Files} {args : List Text} {o : Options} {status : Nat}

lemma main_of_options (parsed : parseArgs .start args = .options o) (input : o.inputFile ≠ []) :
    main env files args = runOptions env files o := by
  have some : args ≠ [] := by
    rintro rfl
    obtain rfl := Parsed.options.inj parsed
    exact input rfl
  rw [main, if_neg some, parsed]

/-- A file is compiled. -/
structure Options.Compiles (o : Options) : Prop where
  input : o.inputFile ≠ []
  assemble : o.assembleMode = false
  disasm : o.disasmMode = false

/-- A compilation that ends well. -/
lemma main_compile {M : Llvm.Module} {blocks : List BasicBlockCode}
    (parsed : parseArgs .start args = .options o) (mode : o.Compiles)
    (read : env.readModule files o = some M)
    (compiled : compileModule env.analyses (env.dataLayout M) env.order M = some blocks)
    (writable : files.writable o.outputName = true) :
    main env files args = .exit 0 (files.write o.outputName (emitText o.format blocks)) := by
  obtain ⟨codes, select, -⟩ := Option.bind_eq_some_iff.mp compiled
  rw [main_of_options parsed mode.input, runOptions, if_neg mode.input, mode.assemble,
    mode.disasm, runCompile, read]
  simp only [Bool.false_eq_true, if_false, select, compiled, writable, if_true]

/-- An assembly that ends well. -/
lemma main_assemble {source : Text} {code : List Word} (parsed : parseArgs .start args = .options o)
    (input : o.inputFile ≠ []) (asm : o.assembleMode = true)
    (read : files.content o.inputFile = some source) (accepted : assemble source = .ok code)
    (writable : files.writable o.outputName = true) :
    main env files args = .exit 0 (files.write o.outputName (wordsText o.format code)) := by
  rw [main_of_options parsed input, runOptions, if_neg input, asm, if_pos rfl, runAssemble, read]
  simp only [accepted, writable, if_true]

/-- A disassembly that ends well. -/
lemma main_disassemble {source : Text} (parsed : parseArgs .start args = .options o)
    (input : o.inputFile ≠ []) (asm : o.assembleMode = false) (dis : o.disasmMode = true)
    (read : files.content o.inputFile = some source) (writable : files.writable o.outputName = true)
    (apart : o.inputFile ≠ o.outputName) :
    main env files args = .exit 0 (files.write o.outputName (disassembleMode source)) := by
  rw [main_of_options parsed input, runOptions, if_neg input, asm, dis, runDisassemble]
  simp only [Bool.false_eq_true, if_false, if_true, read, Option.isNone_some,
    writable, not_true, or_self]
  rw [Files.write_write, Files.content_write_of_ne _ apart, read]
  rfl

/-- A run with options fails and changes nothing, or it succeeds and has written its output file.
Only the assembly mode also succeeds where that file cannot be opened. -/
def Written (files : Files) (o : Options) (status : Nat) (files' : Files) : Prop :=
  status = 1 ∧ files' = files ∨
    status = 0 ∧ files.writable o.outputName = true ∧
      (∃ text, files' = files.write o.outputName text) ∨
      status = 0 ∧ files.writable o.outputName = false ∧ o.assembleMode = true ∧ files' = files

lemma runAssemble_written (mode : o.assembleMode = true)
    (h : runAssemble files o = .exit status files') :
    Written files o status files' := by
  unfold runAssemble at h
  split at h
  · cases h
    exact .inl ⟨rfl, rfl⟩
  · split at h
    · split_ifs at h with writable
      · cases h
        exact .inr (.inl ⟨rfl, writable, _, rfl⟩)
      · cases h
        exact .inr (.inr ⟨rfl, Bool.not_eq_true _ ▸ writable, mode, rfl⟩)
    · cases h
      exact .inl ⟨rfl, rfl⟩
    · cases h

lemma runDisassemble_written (h : runDisassemble files o = .exit status files') :
    Written files o status files' := by
  unfold runDisassemble at h
  split_ifs at h with closed
  · cases h
    exact .inl ⟨rfl, rfl⟩
  · cases h
    rw [not_or, not_not] at closed
    exact .inr (.inl ⟨rfl, closed.2, _, Files.write_write ..⟩)

lemma runCompile_written (h : runCompile env files o = .exit status files') :
    Written files o status files' := by
  unfold runCompile at h
  split at h
  · cases h
    exact .inl ⟨rfl, rfl⟩
  split at h
  · cases h
  split at h
  · cases h
    exact .inl ⟨rfl, rfl⟩
  split_ifs at h with writable
  · cases h
    exact .inr (.inl ⟨rfl, writable, _, rfl⟩)
  · cases h
    exact .inl ⟨rfl, rfl⟩

/-- The runs that C++ does not define: assembling comes to a line that reads an operand which is not
there, or compiling to an instruction whose selection shifts `1` by 32 or more or reads an argument
which is not there. -/
def Undefined (env : Environment) (files : Files) (o : Options) : Prop :=
  o.inputFile ≠ [] ∧
    (o.assembleMode = true ∧
        (∃ source, files.content o.inputFile = some source ∧ ¬ NeverRunsOut (getlines source)) ∨
      o.assembleMode = false ∧ o.disasmMode = false ∧ ∃ M, env.readModule files o = some M ∧
        selectFunctions (env.dataLayout M)
          (M.functions.map (runDivergencePass env.analyses)) = none)

lemma runAssemble_eq_undefined : runAssemble files o = .undefined ↔
    ∃ source, files.content o.inputFile = some source ∧ ¬ NeverRunsOut (getlines source) := by
  unfold runAssemble
  cases files.content o.inputFile with
  | none => simp
  | some source =>
    simp only [Option.some.injEq, exists_eq_left', ← assemble_ne_undefined]
    cases assemble source <;> simp

lemma runDisassemble_ne_undefined : runDisassemble files o ≠ .undefined := by
  unfold runDisassemble
  split_ifs <;> nofun

lemma runCompile_eq_undefined : runCompile env files o = .undefined ↔
    ∃ M, env.readModule files o = some M ∧
      selectFunctions (env.dataLayout M)
        (M.functions.map (runDivergencePass env.analyses)) = none := by
  unfold runCompile
  cases env.readModule files o with
  | none => simp
  | some M =>
    simp only [Option.some.injEq, exists_eq_left']
    cases selectFunctions (env.dataLayout M) (M.functions.map (runDivergencePass env.analyses)) with
    | none => simp
    | some codes =>
      simp only [reduceCtorEq, iff_false]
      split
      · nofun
      · split_ifs <;> nofun

lemma runOptions_eq_undefined : runOptions env files o = .undefined ↔ Undefined env files o := by
  unfold runOptions Undefined
  by_cases input : o.inputFile = []
  · simp [input]
  cases asm : o.assembleMode with
  | true => simp [input, runAssemble_eq_undefined]
  | false =>
    cases dis : o.disasmMode with
    | true => simp [input, runDisassemble_ne_undefined]
    | false => simp [input, runCompile_eq_undefined]

lemma runOptions_written (h : runOptions env files o = .exit status files') :
    Written files o status files' := by
  unfold runOptions at h
  split_ifs at h with input asm dis
  · cases h
    exact .inl ⟨rfl, rfl⟩
  · exact runAssemble_written asm h
  · exact runDisassemble_written h
  · exact runCompile_written h

/-- Every run exits with 0 or 1, but for those that C++ does not define. It changes no file but its
output file, and none if it exits with 1. If it exits with 0 and is no request for help, the output
file was written, but in the assembly mode, where that file is not written if it cannot be
opened. -/
theorem main_written (env : Environment) (files : Files) (args : List Text) :
    (main env files args = .exit 1 files ∧
      (args = [] ∨ ∃ arg, parseArgs .start args = .unknownOption arg)) ∨
    (main env files args = .exit 0 files ∧ parseArgs .start args = .help) ∨
    ∃ o, parseArgs .start args = .options o ∧
      (Undefined env files o ∧ main env files args = .undefined ∨
        ¬ Undefined env files o ∧ ∃ status files', main env files args = .exit status files' ∧
          Written files o status files') := by
  by_cases empty : args = []
  · exact .inl ⟨if_pos empty, .inl empty⟩
  unfold main
  rw [if_neg empty]
  cases parsed : parseArgs .start args with
  | help => exact .inr (.inl ⟨rfl, rfl⟩)
  | unknownOption arg => exact .inl ⟨rfl, .inr ⟨arg, rfl⟩⟩
  | options o =>
    refine .inr (.inr ⟨o, rfl, ?_⟩)
    rw [← runOptions_eq_undefined]
    cases ran : runOptions env files o with
    | exit status files' => exact .inr ⟨nofun, status, files', ran, runOptions_written ran⟩
    | undefined => exact .inl ⟨rfl, ran⟩

end Runs

/-! ## Runs on an `if` -/

/-- LLVM reads the module of an `if` from every file. -/
def ifThenEnvironment : Environment where
  parseIR := fun _ => some (ifThenModule "join".toList)
  optimize := id
  analyses := ifThenAnalyses
  dataLayout := fun _ => FpgaGpu.words
  order := .stable

/-- A directory with one file that can be read. -/
def ifThenFiles : Files where
  content := fun name => if name = "k.ll".toList then some [] else none
  writable := fun _ => true

/-! ## Ways to machine words -/

section Ways

variable {env : Environment} {files : Files} {args₁ args₂ args₃ : List Text} {o₁ o₂ o₃ : Options}
variable {M : Llvm.Module} {blocks : List BasicBlockCode}

/-- Compiling to an assembly file and assembling that writes the file that compiling to machine
words writes, provided that every `SSY` names a block. -/
theorem main_listing (parsed₁ : parseArgs .start args₁ = .options o₁)
    (parsed₂ : parseArgs .start args₂ = .options o₂)
    (parsed₃ : parseArgs .start args₃ = .options o₃) (mode₁ : o₁.Compiles)
    (listing : o₁.format = .assembly) (mode₂ : o₂.assembleMode = true)
    (through : o₂.inputFile = o₁.outputName) (mode₃ : o₃.Compiles)
    (input : o₃.inputFile = o₁.inputFile) (optimize : o₃.optimize = o₁.optimize)
    (format : o₃.format = o₂.format) (words : o₃.format ≠ .assembly)
    (output : o₃.outputName = o₂.outputName) (open₁ : files.writable o₁.outputName = true)
    (open₂ : files.writable o₂.outputName = true) (read : env.readModule files o₁ = some M)
    (listable : M.Listable env.analyses)
    (compiled : compileModule env.analyses (env.dataLayout M) env.order M = some blocks)
    (found : JoinsFound env.analyses M blocks) :
    ∃ files₁ files₂ files₃, main env files args₁ = .exit 0 files₁ ∧
      main env files₁ args₂ = .exit 0 files₂ ∧
      main env files args₃ = .exit 0 files₃ ∧
      files₂.content o₂.outputName = files₃.content o₂.outputName := by
  obtain ⟨codes, select, -⟩ := Option.bind_eq_some_iff.mp compiled
  have accepted := (listable.listable_blocks select compiled).assemble.1
    ((listable.joinsFound_iff select compiled).mp found)
  have first := main_compile parsed₁ mode₁ read compiled open₁
  rw [listing] at first
  have second : main env (files.write o₁.outputName (emitAssembly blocks)) args₂ = .exit 0
      ((files.write o₁.outputName (emitAssembly blocks)).write o₂.outputName
        (wordsText o₂.format (emitWords blocks))) := by
    refine main_assemble parsed₂ ?_ mode₂ ?_ accepted open₂
    · rw [through]
      exact o₁.outputName_ne_nil
    · rw [through]
      exact Files.content_write ..
  have read₃ : env.readModule files o₃ = some M := by
    rw [Environment.readModule, input, optimize]
    exact read
  have third := main_compile parsed₃ mode₃ read₃ compiled (output ▸ open₂)
  refine ⟨_, _, _, first, second, third, ?_⟩
  rw [output, Files.content_write, Files.content_write, ← format]
  cases e : o₃.format with
  | assembly => exact absurd e words
  | hex | binary => rfl

/-- The words of an `if`, by way of a listing and directly. -/
theorem main_listing_ifThen : ∃ files₁ files₂ files₃,
    main ifThenEnvironment ifThenFiles ["-S".toList, "k.ll".toList] = .exit 0 files₁ ∧
      main ifThenEnvironment files₁ ["-a".toList, "k.s".toList, "-b".toList] = .exit 0 files₂ ∧
      main ifThenEnvironment ifThenFiles ["k.ll".toList, "--emit-bin".toList] = .exit 0 files₃ ∧
      files₂.content "k.bin".toList = files₃.content "k.bin".toList := by
  have parsed₁ : parseArgs .start ["-S".toList, "k.ll".toList] =
      .options { Options.start with inputFile := "k.ll".toList, format := .assembly } := by decide
  have parsed₂ : parseArgs .start ["-a".toList, "k.s".toList, "-b".toList] =
      .options { Options.start with
        inputFile := "k.s".toList, format := .binary, assembleMode := true } := by
    decide
  have parsed₃ : parseArgs .start ["k.ll".toList, "--emit-bin".toList] =
      .options { Options.start with inputFile := "k.ll".toList, format := .binary } := by decide
  exact main_listing parsed₁ parsed₂ parsed₃ ⟨by decide, rfl, rfl⟩ rfl rfl (by decide)
    ⟨by decide, rfl, rfl⟩ rfl rfl
    rfl (by decide) (by decide) rfl rfl rfl (ifThen_listable (by decide))
      (ifThen_compile (by decide))
    ifThen_joinsFound

/-- Compiling to a hexadecimal file, disassembling that and assembling the text writes the same file
again. -/
theorem main_disassembled (parsed₁ : parseArgs .start args₁ = .options o₁)
    (parsed₂ : parseArgs .start args₂ = .options o₂)
    (parsed₃ : parseArgs .start args₃ = .options o₃) (mode₁ : o₁.Compiles) (hex : o₁.format = .hex)
    (mode₂ : o₂.assembleMode = false ∧ o₂.disasmMode = true)
    (through : o₂.inputFile = o₁.outputName) (apart : o₂.outputName ≠ o₁.outputName)
    (mode₃ : o₃.assembleMode = true) (back : o₃.inputFile = o₂.outputName)
    (words : o₃.format ≠ .binary) (open₁ : files.writable o₁.outputName = true)
    (open₂ : files.writable o₂.outputName = true) (open₃ : files.writable o₃.outputName = true)
    (read : env.readModule files o₁ = some M)
    (compiled : compileModule env.analyses (env.dataLayout M) env.order M = some blocks) :
    ∃ files₁ files₂ files₃, main env files args₁ = .exit 0 files₁ ∧
      main env files₁ args₂ = .exit 0 files₂ ∧
      main env files₂ args₃ = .exit 0 files₃ ∧
      files₃.content o₃.outputName = files₁.content o₁.outputName := by
  have accepted : assemble (disassembleMode (emitHex blocks)) = .ok (emitWords blocks) := by
    rw [assemble_disassembleMode_eq, emitHex, readHex_writeHex,
      List.filterMap_map, Function.id_comp, List.filterMap_some,
      mapM_normalWord (compileModule_normal compiled)]
    rfl
  have first := main_compile parsed₁ mode₁ read compiled open₁
  rw [hex] at first
  have second : main env (files.write o₁.outputName (emitHex blocks)) args₂ = .exit 0
      ((files.write o₁.outputName (emitHex blocks)).write o₂.outputName
        (disassembleMode (emitHex blocks))) := by
    refine main_disassemble parsed₂ ?_ mode₂.1 mode₂.2 ?_ open₂ ?_
    · rw [through]
      exact o₁.outputName_ne_nil
    · rw [through]
      exact Files.content_write ..
    · rw [through]
      exact apart.symm
  have third : main env ((files.write o₁.outputName (emitHex blocks)).write o₂.outputName
      (disassembleMode (emitHex blocks))) args₃ = .exit 0
      (((files.write o₁.outputName (emitHex blocks)).write o₂.outputName
        (disassembleMode (emitHex blocks))).write
        o₃.outputName (wordsText o₃.format (emitWords blocks))) := by
    refine main_assemble parsed₃ ?_ mode₃ ?_ accepted open₃
    · rw [back]
      exact o₂.outputName_ne_nil
    · rw [back]
      exact Files.content_write ..
  refine ⟨_, _, _, first, second, third, ?_⟩
  rw [Files.content_write, wordsText, if_neg words]
  exact (Files.content_write ..).symm

/-- The hexadecimal file of an `if`, disassembled and assembled again. -/
theorem main_disassembled_ifThen : ∃ files₁ files₂ files₃,
    main ifThenEnvironment ifThenFiles ["k.ll".toList] = .exit 0 files₁ ∧
      main ifThenEnvironment files₁
        ["-d".toList, "k.hex".toList, "-o".toList, "k.s".toList] = .exit 0 files₂ ∧
      main ifThenEnvironment files₂
        ["-a".toList, "k.s".toList, "-o".toList, "j.hex".toList] = .exit 0 files₃ ∧
      files₃.content "j.hex".toList = files₁.content "k.hex".toList := by
  have parsed₁ : parseArgs .start ["k.ll".toList] =
      .options { Options.start with inputFile := "k.ll".toList } := by decide
  have parsed₂ : parseArgs .start ["-d".toList, "k.hex".toList, "-o".toList, "k.s".toList] =
      .options { Options.start with
        inputFile := "k.hex".toList, outputFile := "k.s".toList, disasmMode := true } := by
    decide
  have parsed₃ : parseArgs .start ["-a".toList, "k.s".toList, "-o".toList, "j.hex".toList] =
      .options { Options.start with
        inputFile := "k.s".toList, outputFile := "j.hex".toList, assembleMode := true } := by
    decide
  exact main_disassembled parsed₁ parsed₂ parsed₃ ⟨by decide, rfl, rfl⟩ rfl ⟨rfl, rfl⟩ (by decide)
    (by decide) rfl
    rfl (by decide) rfl rfl rfl rfl (ifThen_compile (by decide))

end Ways

end FpgaGpu

import FpgaGpu.Asm.Assembler

/-!
# Files of machine words

The assembly and disassembly modes of `src/main.cpp`: the hexadecimal and binary files that are
written for a list of words, and the disassembly of a hexadecimal file.
-/

namespace FpgaGpu

/-- One line of a hexadecimal file. -/
def hexLine (word : Word) : Text := hex8 word ++ ['\n']

/-- A hexadecimal file: eight digits and a newline a word. -/
def writeHex (code : List Word) : Text := code.flatMap hexLine

/-- The four bytes of a word, little-endian. -/
def wordBytes (word : Word) : List (BitVec 8) :=
  [(word &&& 0xFF).setWidth 8, ((word >>> 8) &&& 0xFF).setWidth 8,
    ((word >>> 16) &&& 0xFF).setWidth 8, ((word >>> 24) &&& 0xFF).setWidth 8]

/-- A binary file. -/
def writeBinary (code : List Word) : List (BitVec 8) := code.flatMap wordBytes

/-- Mode 1, `-a`: the words of an assembly file, if it assembles. -/
def assembleMode (file : Text) : Outcome Text := do
  let code ← assemble file
  return writeHex code

/-- Mode 1 with `-b`: the words in binary. -/
def assembleModeBinary (file : Text) : Outcome (List (BitVec 8)) := do
  let code ← assemble file
  return writeBinary code

/-- What mode 2 writes for one line of its input. -/
def disassembleLine (line : Text) : Text :=
  if line = [] then []
  else
    match stoul 16 line with
    | .ok word => disassemble (word.setWidth 32) ++ ['\n']
    | .error _ => "; Invalid hex line: ".toList ++ line ++ ['\n']

/-- Mode 2, `-d`: the disassembly of a hexadecimal file. -/
def disassembleMode (file : Text) : Text := (getlines file).flatMap disassembleLine

/-- A written word is no empty line and contains no newline. -/
lemma hex8_line (word : Word) : hex8 word ≠ [] ∧ '\n' ∉ hex8 word := by
  obtain ⟨k, e⟩ := hex8_eq word
  refine ⟨by simp [e, Nat.toDigits_ne_nil], fun m => ?_⟩
  exact absurd (isDigitOf_hex8 m) (by decide)

/-- The lines of a written hexadecimal file. -/
lemma getlines_writeHex (code : List Word) : getlines (writeHex code) = code.map hex8 := by
  have lines : writeHex code = (code.map hex8).flatMap (· ++ ['\n']) := by
    rw [writeHex, List.flatMap_map]
    rfl
  rw [lines, getlines_flatMap]
  intro l hl
  obtain ⟨word, -, rfl⟩ := List.mem_map.mp hl
  exact (hex8_line word).2

/-! ## Reading words back -/

/-- The word that mode 2 reads from a line; `none` for an invalid one. -/
def hexLineWord (line : Text) : Option Word :=
  match stoul 16 line with
  | .ok word => some (word.setWidth 32)
  | .error _ => none

/-- What mode 2 reads from a hexadecimal file, line by line without the empty ones. -/
def readHex (file : Text) : List (Option Word) :=
  ((getlines file).filter (· ≠ [])).map hexLineWord

/-- Four bytes as a word, little-endian. -/
def bytesWord (b0 b1 b2 b3 : BitVec 8) : Word :=
  b0.setWidth 32 ||| (b1.setWidth 32 <<< 8) ||| (b2.setWidth 32 <<< 16) ||| (b3.setWidth 32 <<< 24)

/-- The words of a binary file; `none` when it ends within one. -/
def readBinary : List (BitVec 8) → Option (List Word)
  | [] => some []
  | b0 :: b1 :: b2 :: b3 :: bytes => (readBinary bytes).map (bytesWord b0 b1 b2 b3 :: ·)
  | _ => none

lemma hexLineWord_hex8 (word : Word) : hexLineWord (hex8 word) = some word := by
  simp [hexLineWord, stoul_hex8]

/-- The words of a written hexadecimal file are read back. -/
lemma readHex_writeHex (code : List Word) : readHex (writeHex code) = code.map some := by
  have keep : (code.map hex8).filter (· ≠ []) = code.map hex8 := by
    refine List.filter_eq_self.mpr fun l hl => ?_
    obtain ⟨word, -, rfl⟩ := List.mem_map.mp hl
    simpa using (hex8_line word).1
  rw [readHex, getlines_writeHex, keep, List.map_map]
  exact List.map_congr_left fun word _ => hexLineWord_hex8 word

/-- The bytes of a word are a word again. -/
lemma bytesWord_wordBytes (word : Word) :
    bytesWord ((word &&& 0xFF).setWidth 8) (((word >>> 8) &&& 0xFF).setWidth 8)
      (((word >>> 16) &&& 0xFF).setWidth 8) (((word >>> 24) &&& 0xFF).setWidth 8) = word := by
  ext i hi
  simp only [bytesWord]
  interval_cases i <;> simp

/-- The words of a written binary file are read back. -/
lemma readBinary_writeBinary (code : List Word) : readBinary (writeBinary code) = some code := by
  induction code with
  | nil => rfl
  | cons word code ih =>
    have step : readBinary (writeBinary (word :: code)) =
        (readBinary (writeBinary code)).map (bytesWord _ _ _ _ :: ·) := rfl
    rw [step, ih, bytesWord_wordBytes]
    rfl

/-- Mode 2 disassembles the words that it reads. -/
lemma disassembleMode_of_readHex {file : Text} {code : List Word}
    (h : readHex file = code.map some) :
    disassembleMode file = (code.map disassemble).flatMap (· ++ ['\n']) := by
  rw [disassembleMode]
  unfold readHex at h
  generalize getlines file = lines at h ⊢
  induction lines generalizing code with
  | nil =>
    obtain rfl : code = [] := by simpa using h
    rfl
  | cons line lines ih =>
    by_cases empty : line = []
    · subst empty
      exact ih (by simpa using h)
    · rw [List.filter_cons_of_pos (by simpa using empty), List.map_cons] at h
      obtain ⟨word, code, rfl, read, rest⟩ := List.map_eq_cons_iff.mp h.symm
      rw [List.flatMap_cons, ih rest.symm, List.map_cons, List.flatMap_cons]
      congr 1
      unfold hexLineWord at read
      rw [disassembleLine, if_neg empty]
      cases conv : stoul 16 line with
      | ok value =>
        rw [conv] at read
        obtain rfl := Option.some.inj read
        rfl
      | error e =>
        rw [conv] at read
        cases read

/-- Disassembly mode writes one line for each word of a written file. -/
lemma disassembleMode_writeHex (code : List Word) :
    disassembleMode (writeHex code) = (code.map disassemble).flatMap (· ++ ['\n']) :=
  disassembleMode_of_readHex (readHex_writeHex code)

end FpgaGpu

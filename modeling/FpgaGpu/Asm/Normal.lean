import FpgaGpu.Asm.RoundTrip
import FpgaGpu.Isa.Fields

/-!
# Disassembling any file

Mode 2 reads any text: a line that is no hexadecimal number becomes a comment, a word with an
unassigned opcode becomes a `.word` line that the assembler knows no mnemonic for, and what an
instruction has no use for is not printed. Assembling the result gives the normal forms of the
words, and from then on nothing changes any more.
-/

namespace FpgaGpu

/-! ## Words without an assignment to their opcode -/

/-- The fields that an opcode reads are those of a word. -/
lemma readBack_decode {w : Word} {mi : MachineInstruction} (h : decode w = some mi) :
    mi.ReadBack w := by
  obtain ⟨op, assigned, rfl⟩ := Option.map_eq_some_iff.mp h
  have apart : op.usesImm19 → op.usesImm14 = false := by
    cases op <;> simp [Opcode.usesImm19, Opcode.usesImm14]
  exact ⟨assigned, fun u => (if_pos u).symm, fun u => (if_pos u).symm, fun u => (if_pos u).symm,
    fun u => (if_pos u).symm, fun u => by simp [apart u, show op.usesImm19 = true from u],
    fun u => (if_pos u).symm⟩

/-- A masked field is below the power of two. -/
lemma toNat_maskedField (w : Word) (s : Nat) :
    (((w >>> s) &&& 0x1F).setWidth 8).toNat < 32 ∧ (((w >>> s) &&& 0x7).setWidth 8).toNat < 8 := by
  have m5 : (w >>> s).toNat &&& 31 = (w >>> s).toNat % 32 := Nat.and_two_pow_sub_one_eq_mod _ 5
  have m3 : (w >>> s).toNat &&& 7 = (w >>> s).toNat % 8 := Nat.and_two_pow_sub_one_eq_mod _ 3
  constructor
  · rw [BitVec.toNat_setWidth, BitVec.toNat_and, show (0x1F : Word).toNat = 31 from rfl, m5]
    omega
  · rw [BitVec.toNat_setWidth, BitVec.toNat_and, show (0x7 : Word).toNat = 7 from rfl, m3]
    omega

/-- A sign-extended field is in the signed range of its width. -/
lemma toInt_signField (w : Word) (n : Nat) (small : n < 32) :
    -(2 ^ n : Int) ≤ ((w.setWidth (n + 1)).signExtend 32).toInt ∧
      ((w.setWidth (n + 1)).signExtend 32).toInt < 2 ^ n := by
  rw [BitVec.toInt_signExtend_of_le (by omega)]
  have low := BitVec.le_toInt (w.setWidth (n + 1))
  have high := BitVec.toInt_lt (x := w.setWidth (n + 1))
  exact ⟨low, high⟩

/-- A decoded instruction fits its format. -/
lemma fits_decode {w : Word} {mi : MachineInstruction} (h : decode w = some mi) : mi.Fits := by
  have back := readBack_decode h
  obtain ⟨op, -, rfl⟩ := Option.map_eq_some_iff.mp h
  have reg : ∀ (b : Bool) (r : RegField), r.toNat < 32 → (if b then r else 0).toNat < 32 := by
    intro b r lt
    cases b
    · exact (by decide : (0 : Nat) < 32)
    · exact lt
  refine ⟨reg _ _ (toNat_maskedField w 19).1, reg _ _ (toNat_maskedField w 14).1,
    reg _ _ (toNat_maskedField w 9).1, ?_, fun u => ?_, fun u => ?_⟩
  · change (if op.usesCond then condField w else BranchCond.ALWAYS).toNat < 8
    split
    · exact (toNat_maskedField w 19).2
    · decide
  · rw [← back.imm14 u, imm14Field_eq]
    exact toInt_signField w 13 (by decide)
  · rw [← back.imm19 u, imm19Field_eq]
    exact toInt_signField w 18 (by decide)

/-- Words that are read alike are printed alike. -/
lemma disassemble_congr {mi : MachineInstruction} {w w' : Word} (back : mi.ReadBack w)
    (back' : mi.ReadBack w') :
    disassemble w = disassemble w' := by
  unfold disassemble
  rw [back.op, back'.op]
  cases e : mi.op with
  | add | sub | mul =>
    simp only [back.rd (e ▸ rfl), back.rs1 (e ▸ rfl), back.rs2 (e ▸ rfl), back'.rd (e ▸ rfl),
      back'.rs1 (e ▸ rfl), back'.rs2 (e ▸ rfl)]
  | cmp | str =>
    simp only [back.rs1 (e ▸ rfl), back.rs2 (e ▸ rfl), back'.rs1 (e ▸ rfl), back'.rs2 (e ▸ rfl)]
  | addi =>
    simp only [back.rd (e ▸ rfl), back.rs1 (e ▸ rfl), back.imm14 (e ▸ rfl), back'.rd (e ▸ rfl),
      back'.rs1 (e ▸ rfl), back'.imm14 (e ▸ rfl)]
  | ldr => simp only [back.rd (e ▸ rfl), back.rs1 (e ▸ rfl),
      back'.rd (e ▸ rfl), back'.rs1 (e ▸ rfl)]
  | s2r => simp only [back.rd (e ▸ rfl), back.imm14 (e ▸ rfl), back'.rd (e ▸ rfl),
      back'.imm14 (e ▸ rfl)]
  | br => simp only [back.cond (e ▸ rfl), back.imm19 (e ▸ rfl), back'.cond (e ▸ rfl),
      back'.imm19 (e ▸ rfl)]
  | ssy => simp only [back.imm19 (e ▸ rfl), back'.imm19 (e ▸ rfl)]
  | sync | exit => rfl

/-- The disassembly of a word is read as the instruction that the hardware reads, up to `NEVER`. -/
lemma spells_decode {w : Word} {mi : MachineInstruction} (h : decode w = some mi) :
    Spells (disassemble w) (reread mi) := by
  rw [disassemble_congr (readBack_decode h) (readBack_encode (fits_decode h))]
  exact spells_disassemble (fits_decode h)

/-- The number of a word with an unassigned opcode is printed as one operand. -/
lemma printed_wordText (w : Word) : Printed ('0' :: 'x' :: hex8 w) := by
  refine .of_forall (by simp) fun c mem => ?_
  simp only [List.mem_cons] at mem
  obtain rfl | rfl | mem := mem
  · decide
  · decide
  · have digit := isDigitOf_hex8 mem
    have other : ∀ d, Numeral.isDigitOf 16 d = false → c ≠ d := fun d => ne_of_isDigitOf digit
    refine ⟨?_, other _ (by decide), other _ (by decide), other _ (by decide)⟩
    simp [isSeparator, isspace_of_isDigitOf digit, other ',' (by decide)]

/-- There is no mnemonic for a word with an unassigned opcode. -/
lemma parseLine_unassigned {w : Word} (h : decode w = none) (st : Parse) :
    parseLine (disassemble w) st = .rejected ∧ '\n' ∉ disassemble w := by
  have none : Opcode.ofVal? (opField w) = none := Option.map_eq_none_iff.mp h
  have text : disassemble w = lineText ".word" ['0' :: 'x' :: hex8 w] := by
    unfold disassemble
    rw [none]
    simp [lineText]
  have mnemonic : Printed ".word".toList := .of_all (by decide) (by decide)
  have operand : ∀ t ∈ ['0' :: 'x' :: hex8 w], Printed t := by
    rintro t mem
    obtain rfl := List.mem_singleton.mp mem
    exact printed_wordText w
  obtain ⟨plain, trimmed, ne, line⟩ := lineText_shape mnemonic operand (by simp)
  rw [text]
  refine ⟨?_, line⟩
  have body := parseLine_body (show ∀ c ∈ ([] : Text), _ by simp) plain trimmed ne .none st
  simp only [List.nil_append, List.append_nil] at body
  rw [body, parseTokens,
    split_lineText mnemonic.solid mnemonic.ne fun t mem =>
      ⟨(operand t mem).solid, (operand t mem).ne⟩]
  simp only []
  rw [show upper ".word".toList = ".WORD".toList by decide]
  rfl

/-! ## Files -/

/-- The line that mode 2 writes for a line that is not empty. -/
def disassembledLine (line : Text) : Text :=
  match hexLineWord line with
  | some w => disassemble w
  | none => "; Invalid hex line: ".toList ++ line

/-- Mode 2 writes a line for each line that is not empty. -/
lemma disassembleMode_eq (file : Text) : disassembleMode file =
    (((getlines file).filter (· ≠ [])).map disassembledLine).flatMap (· ++ ['\n']) := by
  rw [disassembleMode]
  generalize getlines file = lines
  induction lines with
  | nil => rfl
  | cons line lines ih =>
    rw [List.flatMap_cons, ih]
    by_cases empty : line = []
    · subst empty
      rfl
    · rw [List.filter_cons_of_pos (by simpa using empty), List.map_cons, List.flatMap_cons]
      congr 1
      rw [disassembleLine, if_neg empty, disassembledLine, hexLineWord]
      cases stoul 16 line with
      | ok value => rfl
      | error e => simp

/-- The instructions that the assembler reads from a disassembled file. -/
lemma parseLines_disassembled (lines : List Text) (st : Parse) :
    parseLines (lines.map disassembledLine) st =
      match ((lines.map hexLineWord).filterMap id).mapM decode with
      | some mis => .ok { st with instructions := st.instructions ++ mis.map reread }
      | none => .rejected := by
  induction lines generalizing st with
  | nil => simp [parseLines]
  | cons line lines ih =>
    rw [List.map_cons, List.map_cons, parseLines]
    cases read : hexLineWord line with
    | none =>
      have comment : parseLine (disassembledLine line) st = .ok st := by
        rw [disassembledLine, read]
        rfl
      rw [comment, Outcome.ok_bind, ih]
      rfl
    | some w =>
      have text : disassembledLine line = disassemble w := by rw [disassembledLine, read]
      rw [text, List.filterMap_cons, id, List.mapM_cons]
      cases e : decode w with
      | none =>
        rw [(parseLine_unassigned e st).1]
        rfl
      | some mi =>
        have spells := spells_decode e
        have body := parseLine_body (show ∀ c ∈ ([] : Text), _ by simp) spells.plain
          spells.trimmed spells.ne .none st
        simp only [List.nil_append, List.append_nil] at body
        rw [body, spells.tokens, Outcome.ok_bind, ih]
        cases ((lines.map hexLineWord).filterMap id).mapM decode with
        | none => rfl
        | some mis => simp [Parse.push]

/-! ## Normal forms -/

/-- An instruction with the condition that its condition letters spell: those of `NEVER` have an
`N`. -/
def Instruction.spelt (mi : MachineInstruction) : MachineInstruction :=
  { mi with cond := rereadCond mi.cond }

/-- The normal form of a word: what its opcode has no use for is cleared, and `NEVER` is `N`. An
unassigned opcode has none. -/
def normalWord (w : Word) : Option Word := (decode w).map fun mi => encode mi.spelt

/-- What is read back has the word of the spelt instruction. -/
lemma encode_reread_spelt (mi : MachineInstruction) : encode (reread mi) = encode mi.spelt := by
  obtain ⟨op, rd, rs1, rs2, imm, cond, l, c⟩ := mi
  cases op <;> simp [encode, reread, Instruction.spelt, Opcode.usesRd,
    Opcode.usesRs1, Opcode.usesRs2, Opcode.usesImm14, Opcode.usesImm19,
    Opcode.usesCond, BitVec.and_assoc]

lemma rereadCond_rereadCond (cond : BitVec 8) : rereadCond (rereadCond cond) = rereadCond cond := by
  unfold rereadCond
  split
  · rfl
  · rfl

/-- A normal form is read as the spelt instruction. -/
lemma decode_spelt {w : Word} {mi : MachineInstruction} (h : decode w = some mi) :
    decode (encode mi.spelt) = some mi.spelt := by
  have fits := fits_decode h
  have cond : (rereadCond mi.cond).toNat < 8 := by
    unfold rereadCond
    split
    · decide
    · exact fits.cond
  have fits' : mi.spelt.Fits := ⟨fits.rd, fits.rs1, fits.rs2, cond, fits.imm14, fits.imm19⟩
  rw [decode_encode fits']
  obtain ⟨op, -, rfl⟩ := Option.map_eq_some_iff.mp h
  cases op <;> rfl

/-- A normal form is its own. -/
lemma normalWord_normalWord {w w' : Word} (h : normalWord w = some w') :
    normalWord w' = some w' := by
  obtain ⟨mi, read, rfl⟩ := Option.map_eq_some_iff.mp h
  rw [normalWord, decode_spelt read, Option.map_some, Instruction.spelt, Instruction.spelt,
    rereadCond_rereadCond]

/-- Words with the same low bits have the same masked immediate, and sign extension keeps it. -/
lemma and_lowMask_congr {n : Nat} {w x : Word} (h : w.setWidth n = x.setWidth n) :
    w &&& lowMask n = x &&& lowMask n := by
  apply BitVec.eq_of_getLsbD_eq
  intro i hi
  have bit := congrArg (BitVec.getLsbD · i) h
  simp only [BitVec.getLsbD_setWidth] at bit
  rw [getLsbD_and_lowMask, getLsbD_and_lowMask]
  by_cases low : i < n
  · simpa [low] using bit
  · simp [low]

lemma setWidth_signExtend_self {n : Nat} (small : n ≤ 32) (x : BitVec n) :
    (x.signExtend 32).setWidth n = x := by
  apply BitVec.eq_of_getLsbD_eq
  intro i hi
  rw [BitVec.getLsbD_setWidth, BitVec.getLsbD_signExtend]
  simp [hi, show i < 32 by omega]

/-- Instructions that agree on the masked fields that are encoded have one word. -/
lemma encode_congr_masked {mi mi' : MachineInstruction} (op : mi'.op = mi.op)
    (rd : mi.op.usesRd → mi'.rd = mi.rd &&& 0x1F) (rs1 : mi.op.usesRs1 → mi'.rs1 = mi.rs1 &&& 0x1F)
    (rs2 : mi.op.usesRs2 → mi'.rs2 = mi.rs2 &&& 0x1F)
    (cond : mi.op.usesCond → mi'.cond = mi.cond &&& 0x7)
    (imm14 : mi.op.usesImm14 → mi'.imm &&& 0x3FFF = mi.imm &&& 0x3FFF)
    (imm19 : mi.op.usesImm19 → mi'.imm &&& 0x7FFFF = mi.imm &&& 0x7FFFF) :
    encode mi' = encode mi := by
  obtain ⟨o, d, s1, s2, i, c, l, t⟩ := mi
  obtain ⟨o', d', s1', s2', i', c', l', t'⟩ := mi'
  obtain rfl : o' = o := op
  cases o' <;> simp_all [encode, Opcode.usesRd, Opcode.usesRs1, Opcode.usesRs2, Opcode.usesCond,
    Opcode.usesImm14, Opcode.usesImm19, BitVec.setWidth_and, BitVec.and_assoc]

/-- An encoded instruction is a normal form, unless it is a branch whose condition has no
letters. -/
lemma normalWord_encode {mi : MachineInstruction} (letters : mi.op = .br → mi.cond &&& 0x7 ≠ 0) :
    normalWord (encode mi) = some (encode mi) := by
  have op : Opcode.ofVal? (opField (encode mi)) = some mi.op := by
    rw [opField_encode, Opcode.ofVal?_val]
  rw [normalWord, decode, op, Option.map_some, Option.map_some, Option.some.injEq]
  refine encode_congr_masked rfl (fun use => ?_) (fun use => ?_) (fun use => ?_)
    (fun use => ?_) (fun use => ?_) fun use => ?_
  · exact (if_pos use).trans (rdField_encode use)
  · exact (if_pos use).trans (rs1Field_encode use)
  · exact (if_pos use).trans (rs2Field_encode use)
  · have br : mi.op = .br := by cases e : mi.op <;> simp [e, Opcode.usesCond] at use ⊢
    show rereadCond (if mi.op.usesCond then condField (encode mi) else BranchCond.ALWAYS) = _
    rw [if_pos use, condField_encode use, rereadCond, if_neg (letters br)]
  · show (if mi.op.usesImm14 then imm14Field (encode mi) else _) &&& 0x3FFF = _
    rw [if_pos use]
    refine and_lowMask_congr (n := 14) ?_
    rw [imm14Field_eq, setWidth_signExtend_self (by decide), encode_setWidth14 use]
  · have apart : mi.op.usesImm14 = false := by
      cases e : mi.op <;> simp [e, Opcode.usesImm19] at use <;> rfl
    show (if mi.op.usesImm14 then _
      else if mi.op.usesImm19 then imm19Field (encode mi) else _) &&& 0x7FFFF = _
    rw [apart, if_neg Bool.false_ne_true, if_pos use]
    refine and_lowMask_congr (n := 19) ?_
    rw [imm19Field_eq, setWidth_signExtend_self (by decide), encode_setWidth19 use]

/-- The lines of a disassembled file have no line breaks. -/
lemma newline_not_mem_disassembledLine {line : Text} (h : '\n' ∉ line) :
    '\n' ∉ disassembledLine line := by
  unfold disassembledLine
  split
  · next w read =>
    cases e : decode w with
    | none => exact (parseLine_unassigned e .empty).2
    | some mi => exact (spells_decode e).line
  · exact List.not_mem_append (by decide) h

/-- Assembling the disassembly of any text gives the normal forms of the words in it. -/
lemma assemble_disassembleMode_eq (file : Text) : assemble (disassembleMode file) =
    (((readHex file).filterMap id).mapM normalWord).elim .rejected .ok := by
  have lines : getlines (disassembleMode file) =
      ((getlines file).filter (· ≠ [])).map disassembledLine := by
    rw [disassembleMode_eq, getlines_flatMap]
    intro l mem
    obtain ⟨line, read, rfl⟩ := List.mem_map.mp mem
    exact newline_not_mem_disassembledLine (newline_not_mem_getlines (List.mem_of_mem_filter read))
  have normal : ∀ ws : List Word, ws.mapM normalWord =
      (ws.mapM decode).map fun mis => (mis.map reread).map encode := by
    intro ws
    induction ws with
    | nil => rfl
    | cons w ws ih =>
      rw [List.mapM_cons, List.mapM_cons, ih, normalWord]
      cases decode w with
      | none => rfl
      | some mi =>
        rw [Option.map_some, ← encode_reread_spelt]
        cases ws.mapM decode <;> rfl
  rw [assemble, lines, parseLines_disassembled, normal, readHex]
  cases ((((getlines file).filter (· ≠ [])).map hexLineWord).filterMap id).mapM decode with
  | none => rfl
  | some mis =>
    have targets : ∀ mi ∈ mis.map reread, mi.hasTarget = false := by
      intro mi mem
      obtain ⟨mi, -, rfl⟩ := List.mem_map.mp mem
      simp [Instruction.hasTarget, reread]
    simp only [Outcome.ok_bind, Parse.empty, List.nil_append]
    rw [resolveLabels_of_not_hasTarget targets]
    rfl

/-- The words of a list that has normal forms. -/
lemma forall₂_normalWord {ws words : List Word} (h : ws.mapM normalWord = some words) :
    List.Forall₂ (fun w w' => normalWord w = some w') ws words := by
  induction ws generalizing words with
  | nil =>
    obtain rfl := Option.some.inj h
    exact .nil
  | cons w ws ih =>
    rw [List.mapM_cons] at h
    obtain ⟨w', one, h⟩ := Option.bind_eq_some_iff.mp h
    obtain ⟨words', rest, h⟩ := Option.bind_eq_some_iff.mp h
    obtain rfl := Option.some.inj h
    exact .cons one (ih rest)

/-- Normal forms are their own. -/
lemma mapM_normalWord {ws : List Word} (h : ∀ w ∈ ws, normalWord w = some w) :
    ws.mapM normalWord = some ws := by
  induction ws with
  | nil => rfl
  | cons w ws ih =>
    obtain ⟨one, h⟩ := List.forall_mem_cons.mp h
    rw [List.mapM_cons, one, ih h]
    rfl

/-- For every text that is disassembled and assembled again: lines without a number drop out, an
unassigned opcode is rejected, and every other word comes back as its normal form, which the
hardware reads as the same instruction up to `NEVER`. A second round changes nothing. -/
theorem assemble_disassembleMode_normal (file : Text) :
    assemble (disassembleMode file) =
      (((readHex file).filterMap id).mapM normalWord).elim .rejected .ok ∧
      ∀ words, assemble (disassembleMode file) = .ok words →
        words.map decode = ((readHex file).filterMap id).map
          (fun w => (decode w).map Instruction.spelt) ∧
        assemble (disassembleMode (writeHex words)) = .ok words := by
  refine ⟨assemble_disassembleMode_eq file, fun words accepted => ?_⟩
  rw [assemble_disassembleMode_eq] at accepted
  rw [assemble_disassembleMode_eq, readHex_writeHex, List.filterMap_map,
    Function.id_comp, List.filterMap_some]
  generalize (readHex file).filterMap id = ws at accepted
  have pairs : List.Forall₂ (fun w w' => normalWord w = some w') ws words := by
    cases e : ws.mapM normalWord with
    | none =>
      rw [e] at accepted
      cases accepted
    | some words' =>
      rw [e] at accepted
      obtain rfl := Outcome.ok.inj accepted
      exact forall₂_normalWord e
  clear accepted
  induction pairs with
  | nil => exact ⟨rfl, rfl⟩
  | @cons w w' ws words one _ ih =>
    obtain ⟨same, again⟩ := ih
    constructor
    · obtain ⟨mi, read, rfl⟩ := Option.map_eq_some_iff.mp one
      rw [List.map_cons, List.map_cons, same, decode_spelt read, read]
      rfl
    · rw [List.mapM_cons, normalWord_normalWord one]
      cases e : words.mapM normalWord with
      | none =>
        rw [e] at again
        cases again
      | some words' =>
        rw [e] at again
        obtain rfl := Outcome.ok.inj again
        rfl

/-- A branch that is never taken, with a bit set that branches have no use for, behind a line
without a number. -/
theorem assemble_disassembleMode_normal_never :
    [0xC0200005].map decode =
        ((readHex "kernel\n\nC0400005".toList).filterMap id).map
          (fun w => (decode w).map Instruction.spelt) ∧
      assemble (disassembleMode (writeHex [0xC0200005])) = .ok [0xC0200005] :=
  (assemble_disassembleMode_normal "kernel\n\nC0400005".toList).2 [0xC0200005] (by decide)

end FpgaGpu

import FpgaGpu.Isel.Definitions
import FpgaGpu.Isel.Shifts
import FpgaGpu.Lib.ByteMemory

/-!
# Widths of loads and stores

The selector does not look at the type of a load or a store. The hardware moves whole words, so
narrower integers take their neighbours along.
-/

namespace FpgaGpu

open ByteMemory
open Llvm (Value)
open Emission (bind_eq_some push_eq_some)

/-! ## Memory of bytes -/

/-- Hardware with a memory of bytes. `STR` moves `width` of them: first the word in the register,
then whatever `rest` says. -/
structure ByteHardware where
  width : Nat
  rest : Word → Word → Nat → BitVec 8
  sysReg : BitVec 32 → Word
  setsFlags : Opcode → Bool
  whole : 4 ≤ width

/-- As far as a thread sees it. -/
def ByteHardware.hardware (bh : ByteHardware) : Hardware where
  Mem := Memory 32
  load m addr := read m addr 4
  store m addr x := write m addr bh.width fun k => if k < 4 then byte x k else bh.rest addr x k
  sysReg := bh.sysReg
  setsFlags := bh.setsFlags

/-- LLVM's store of an integer of `n` bits. -/
def storeInt (n : Nat) (m : Memory 32) (addr x : Word) : Memory 32 := write m addr (n / 8) (byte x)

/-- LLVM's copy of an integer of `n` bits from one memory to another. -/
def copyInt (n : Nat) (m : Memory 32) (addr : Word) (source : Memory 32)
    (addr' : Word) : Memory 32 :=
  write m addr (n / 8) fun k => source (addr' + BitVec.ofNat 32 k)

/-- The widths of integers that kernels load and store. -/
def accessWidths : List Nat := [8, 16, 32]

/-- `STR` writes an integer in every memory exactly if both have the width of a word. -/
lemma ByteHardware.store_eq_write_iff (bh : ByteHardware) {n : Nat}
    (integer : n ∈ accessWidths) (addr : Word) {x : Word} {bytes : Nat → BitVec 8}
    (same : ∀ k < 4, bytes k = byte x k) :
    (∀ m, bh.hardware.store m addr x = write m addr (n / 8) bytes) ↔ n = 32 ∧ bh.width = 4 := by
  have whole := bh.whole
  simp only [accessWidths, List.mem_cons, List.not_mem_nil, or_false] at integer
  constructor
  · intro exact
    by_contra other
    have narrow : n / 8 < bh.width := by omega
    have inside : n / 8 < 2 ^ 32 := by omega
    obtain ⟨m, ne⟩ := exists_write_ne narrow inside addr bytes
      fun k => if k < 4 then byte x k else bh.rest addr x k
    exact ne (exact m)
  · rintro ⟨rfl, word⟩ m
    show write m addr bh.width (fun k => if k < 4 then byte x k else bh.rest addr x k) =
      write m addr 4 bytes
    rw [word]
    refine write_congr fun k lt => ?_
    rw [if_pos lt, same k lt]

/-! ## The code of loads and stores -/

section Code

variable {hw : Hardware} {value : Value → Word} {st st' : Selector} {out : List (Instruction Nat)}
variable {v ptr : Value} {r : Nat} {s : Thread hw Nat}

/-- A lookup does not write to memory. -/
lemma lookup_mem {g : Word → Word} (h : lookup v true st = some (r, out, st')) :
    (executeThrough g s out).mem = s.mem := by
  obtain ⟨-, -, rfl, -⟩ | ⟨-, -, rfl, -⟩ | ⟨-, -, -, rfl, -⟩ := lookup_cases h
  · rfl
  · rfl
  · cases v with
    | constantInt | argument | instruction | other => rfl

/-- Some thread holds the values in their registers, with any memory. -/
lemma exists_thread_mem (hw : Hardware) (valid : st.Valid) (constants : ConstantsValued value)
    (mem : hw.Mem) :
    ∃ s : Thread hw Nat, s.mem = mem ∧ ∀ v r, st.regOf v = some r → s.read r = value v := by
  obtain ⟨s, holds⟩ : ∃ s : Thread hw Nat, ∀ v r, st.regOf v = some r → s.read r = value v :=
    exists_thread valid constants mem
  exact ⟨{ s with mem := mem }, rfl, holds⟩

/-- The last instruction of a store. -/
def storeTo (rs1 rs2 : Nat) : Instruction Nat :=
  { newInstruction .str with rs1 := rs1, rs2 := rs2, comment := "str".toList }

/-- A store looks up its value, and moves it to its address. -/
lemma selectStore_eq_some (valid : st.Valid) (h : selectStore v ptr st = some ((), out, st')) :
    ∃ rs1 rs2 out₁ st₁, lookup v true st = some (rs2, out₁, st₁) ∧ out = out₁ ++ [storeTo rs1 rs2] ∧
      st'.Valid ∧ Grows st₁ st' ∧ st'.regOf v = some rs2 ∧ st'.regOf ptr = some rs1 := by
  obtain ⟨rs2, out₁, st₁, rest₁, first, h₁, rfl⟩ := bind_eq_some.mp h
  obtain ⟨rs1, out₂, st₂, rest₂, second, last, rfl⟩ := bind_eq_some.mp h₁
  obtain ⟨rfl, rfl⟩ := push_eq_some.mp last
  have first : lookup v true st = _ := first
  obtain ⟨valid₁, -, reg₂⟩ := lookup_valid valid first
  obtain ⟨rfl, valid₂, grows, reg₁⟩ := getOrCreateVReg_valid valid₁ second
  exact ⟨rs1, rs2, out₁, st₁, first, rfl, valid₂, grows, grows.regOf reg₂, reg₁⟩

/-- The code of a store moves the value to its address. -/
lemma selectStore_mem (valid : st.Valid) (pointer : isConstantInt ptr = false)
    (h : selectStore v ptr st = some ((), out, st')) (constants : ConstantsValued value)
    (held : Holding value st st' [v, ptr] s) :
    (executeAll s out).mem = hw.store s.mem (value ptr) (value v) := by
  obtain ⟨rs1, rs2, out₁, st₁, first, rfl, valid', grows, reg₂, reg₁⟩ := selectStore_eq_some valid h
  have data := read_lookup (g := id) valid constants first fun kept => held v (by simp) kept _ reg₂
  rw [id, ite_self] at data
  have address : (executeThrough id s out₁).read rs1 = value ptr := by
    rw [read_lookup_of_register valid first grows valid' pointer reg₁]
    exact held ptr (by simp) (not_loaded_of_register pointer) rs1 reg₁
  have mem : (executeThrough id s out₁).mem = s.mem := lookup_mem first
  rw [← executeThrough_id, executeThrough_append, ← data, ← address, ← mem]
  rfl

/-- The code of a store of an instruction moves its register. -/
lemma selectStore_instruction {n : Nat} (valid : st.Valid)
    (h : selectStore (.instruction n) ptr st = some ((), out, st')) : ∃ rs1 rs2,
    out = [storeTo rs1 rs2] ∧ st'.regOf (.instruction n) = some rs2 ∧ st'.regOf ptr = some rs1 := by
  obtain ⟨rs1, rs2, out₁, st₁, first, rfl, -, -, reg₂, reg₁⟩ := selectStore_eq_some valid h
  have none : out₁ = [] := by
    obtain ⟨-, -, rfl, -⟩ | ⟨-, -, rfl, -⟩ | ⟨-, -, -, rfl, -⟩ := lookup_cases first <;> rfl
  subst none
  exact ⟨rs1, rs2, rfl, reg₂, reg₁⟩

/-- The code of a load leaves the word at its address. -/
lemma selectLoad_read {n : Nat} (valid : st.Valid)
    (h : selectLoad (.instruction n) ptr st = some ((), out, st')) :
    ∃ rd, st'.regOf (.instruction n) = some rd ∧
      ∀ {hw : Hardware} {value : Value → Word} {s : Thread hw Nat},
      (∀ r, st'.regOf ptr = some r → s.read r = value ptr) →
        (executeAll s out).read rd = hw.load s.mem (value ptr) := by
  obtain ⟨rd, out₁, st₁, rest₁, first, h₁, rfl⟩ := bind_eq_some.mp h
  obtain ⟨rs1, out₂, st₂, rest₂, second, last, rfl⟩ := bind_eq_some.mp h₁
  obtain ⟨rfl, rfl⟩ := push_eq_some.mp last
  obtain ⟨rfl, valid₁, -, reg, pos⟩ := getOrCreateVReg_result valid first
  obtain ⟨rfl, -, grows, reg₁⟩ := getOrCreateVReg_valid valid₁ second
  refine ⟨rd, grows.regOf reg, fun {hw value s} held => ?_⟩
  rw [← executeThrough_id, List.nil_append, List.nil_append, ← List.nil_append [_],
    read_executeThrough_last rfl pos, ← held rs1 reg₁]
  rfl

end Code

/-! ## Exact accesses -/

/-- The code that is emitted for an instruction in the state in which the selector comes to it. -/
def LoweredTo (dl : DataLayout) (f : Llvm.Function) (code : List SelectedBlock)
    (i : Llvm.Instruction) (st : Selector) (out : List (Instruction Nat)) : Prop :=
  ∃ sb ∈ code, ∃ before after items st',
    sb.items = before ++ out.map (Emitted.mk (.instruction i.id)) ++ after ∧
      Selecting dl f st (.inst i :: items) ∧ selectInstruction dl f i st = some ((), out, st')

section Exact

variable (bh : ByteHardware) (n : Nat) (value : Value → Word) (st' : Selector)

/-- The code of a store changes what LLVM's store changes, in every memory. -/
def StoresExactly (st : Selector) (v ptr : Value) (out : List (Instruction Nat)) : Prop :=
  ∀ s : Thread bh.hardware Nat, Holding value st st' [v, ptr] s →
    (executeAll s out).mem = storeInt n s.mem (value ptr) (value v)

/-- The code of a store of what a load has left in its register copies what the load has read, in
every memory, and changes nothing else. -/
def CopiesExactly (ptr ptr' : Value) (rd : Nat) (out out' : List (Instruction Nat)) : Prop :=
  ∀ s s' : Thread bh.hardware Nat, (∀ r, st'.regOf ptr = some r → s.read r = value ptr) →
    (∀ r, st'.regOf ptr' = some r → s'.read r = value ptr') →
      s'.read rd = (executeAll s out).read rd →
    (executeAll s' out').mem = copyInt n s'.mem (value ptr') s.mem (value ptr)

end Exact

section Selected

variable {dl : DataLayout} {f : Llvm.Function} {code : List SelectedBlock} {st : Selector}
variable {pieces : List (List Piece)} {seen : List (Value × Bool)} {i j : Llvm.Instruction}
variable {n : Nat} {v ptr ptr' : Value}

/-- An instruction of a function is lowered in a valid state. -/
lemma Selected.lowered (selected : Selected dl f code st pieces)
    (chain : PieceChain dl f [] Selector.start pieces.flatten seen st) (mem : i ∈ bodyOf f) :
    ∃ st₀ out st₁, LoweredTo dl f code i st₀ out ∧ st₀.Valid ∧ Grows st₁ st ∧
      selectInstruction dl f i st₀ = some ((), out, st₁) := by
  obtain ⟨sb, at_block, before, out, after, st₀, items, st₁, split, selecting, grows, select⟩ :=
    selected.select_body chain mem
  exact ⟨st₀, out, st₁, ⟨sb, at_block, before, after, items, st₁, split, selecting, select⟩,
    selecting.valid, grows, select⟩

/-- A store of a function. -/
lemma Selected.stores_iff (selected : Selected dl f code st pieces)
    (chain : PieceChain dl f [] Selector.start pieces.flatten seen st) (bh : ByteHardware)
    (integer : n ∈ accessWidths) (mem : i ∈ bodyOf f) (store : i.operation = .store (.int n) v ptr)
    (pointer : isConstantInt ptr = false) :
    ∃ st₀ out, LoweredTo dl f code i st₀ out ∧ ∀ value, ConstantsValued value →
      (StoresExactly bh n value st st₀ v ptr out ↔ n = 32 ∧ bh.width = 4) := by
  obtain ⟨st₀, out, st₁, lowered, valid, grows, select⟩ := selected.lowered chain mem
  rw [selectInstruction, store] at select
  refine ⟨st₀, out, lowered, fun value constants => ?_⟩
  have leaves : ∀ s : Thread bh.hardware Nat, Holding value st₀ st [v, ptr] s →
      (executeAll s out).mem = bh.hardware.store s.mem (value ptr) (value v) := fun s held =>
    selectStore_mem valid pointer select constants fun u mem kept r e =>
      held u mem kept r (grows.regOf e)
  rw [← bh.store_eq_write_iff integer (value ptr) fun k _ => rfl]
  constructor
  · intro exact m
    obtain ⟨s, rfl, holds⟩ := exists_thread_mem bh.hardware selected.valid constants m
    have held : Holding value st₀ st [v, ptr] s := fun u _ _ r e => holds u r e
    exact (leaves s held).symm.trans (exact s held)
  · intro same s held
    rw [leaves s held]
    exact same s.mem

/-- A load of a function, and a store of what it has loaded. -/
lemma Selected.copies_iff (selected : Selected dl f code st pieces)
    (chain : PieceChain dl f [] Selector.start pieces.flatten seen st) (bh : ByteHardware)
    (integer : n ∈ accessWidths) (mem : i ∈ bodyOf f) (mem' : j ∈ bodyOf f)
    (load : i.operation = .load (.int n) ptr)
    (store : j.operation = .store (.int n) (.instruction i.id) ptr') :
    ∃ st₀ out st₁ out' rd, LoweredTo dl f code i st₀ out ∧ LoweredTo dl f code j st₁ out' ∧
      st.regOf (.instruction i.id) = some rd ∧ ∀ value, ConstantsValued value →
        (CopiesExactly bh n value st ptr ptr' rd out out' ↔ n = 32 ∧ bh.width = 4) := by
  obtain ⟨st₀, out, st₁, lowered, valid, grows, select⟩ := selected.lowered chain mem
  obtain ⟨st₂, out', st₃, lowered', valid', grows', select'⟩ := selected.lowered chain mem'
  rw [selectInstruction, load] at select
  rw [selectInstruction, store] at select'
  obtain ⟨rd, reg, leaves⟩ := selectLoad_read valid select
  obtain ⟨rs1, rs2, rfl, reg₂, reg₁⟩ := selectStore_instruction valid' select'
  obtain rfl : rd = rs2 := Option.some.inj ((grows.regOf reg).symm.trans (grows'.regOf reg₂))
  refine ⟨st₀, out, st₂, _, rd, lowered, lowered', grows.regOf reg, fun value constants => ?_⟩
  have moves : ∀ s s' : Thread bh.hardware Nat,
    (∀ r, st.regOf ptr = some r → s.read r = value ptr) →
      (∀ r, st.regOf ptr' = some r → s'.read r = value ptr') →
        s'.read rd = (executeAll s out).read rd →
      (executeAll s' [storeTo rs1 rd]).mem =
        bh.hardware.store s'.mem (value ptr') (read s.mem (value ptr) 4) := by
    intro s s' held held' same
    rw [← held' rs1 (grows'.regOf reg₁)]
    rw [leaves fun r e => held r (grows.regOf e)] at same
    exact congrArg (bh.hardware.store s'.mem (s'.read rs1)) same
  constructor
  · intro exact
    -- a memory from which the load takes what the threads have in its register
    obtain ⟨source, loaded, bytesAt⟩ : ∃ source : Memory 32,
        read source (value ptr) 4 = value (.instruction i.id) ∧ ∀ k < 4,
          source (value ptr + BitVec.ofNat 32 k) = byte (value (.instruction i.id)) k :=
      ⟨write (fun _ => 0) (value ptr) 4 (byte (value (.instruction i.id))), read_write (by decide),
        fun k lt => write_offset lt (by omega)⟩
    refine (bh.store_eq_write_iff integer (value ptr') bytesAt).mp fun m => ?_
    obtain ⟨s, rfl, holds⟩ := exists_thread_mem bh.hardware selected.valid constants source
    obtain ⟨s', rfl, holds'⟩ := exists_thread_mem bh.hardware selected.valid constants m
    have same : s'.read rd = (executeAll s out).read rd := by
      rw [holds' _ rd (grows.regOf reg), leaves fun r e => holds ptr r (grows.regOf e)]
      exact loaded.symm
    have copies := exact s s' (holds ptr) (holds' ptr') same
    rw [moves s s' (holds ptr) (holds' ptr') same, loaded] at copies
    exact copies
  · rintro word s s' held held' same
    rw [moves s s' held held' same]
    exact (bh.store_eq_write_iff integer (value ptr') fun k lt =>
      (byte_read lt).symm).mpr word s'.mem

end Selected

/-- Stores and copies of integers are exact if and only if they have the width of a word, and `STR`
moves no more than that. -/
theorem selectFunction_accesses_iff {dl : DataLayout} {f : Llvm.Function}
    {code : List SelectedBlock} {st : Selector} (h : selectFunction dl f = some (code, st))
    (bh : ByteHardware) {n : Nat} (integer : n ∈ accessWidths) :
    (∀ i ∈ bodyOf f, ∀ v ptr, i.operation = .store (.int n) v ptr → isConstantInt ptr = false →
      ∃ st₀ out, LoweredTo dl f code i st₀ out ∧ ∀ value, ConstantsValued value →
        (StoresExactly bh n value st st₀ v ptr out ↔ n = 32 ∧ bh.width = 4)) ∧
    (∀ i ∈ bodyOf f, ∀ j ∈ bodyOf f, ∀ ptr ptr', i.operation = .load (.int n) ptr →
      j.operation = .store (.int n) (.instruction i.id) ptr' →
      ∃ st₀ out st₁ out' rd, LoweredTo dl f code i st₀ out ∧ LoweredTo dl f code j st₁ out' ∧
        st.regOf (.instruction i.id) = some rd ∧ ∀ value, ConstantsValued value →
          (CopiesExactly bh n value st ptr ptr' rd out out' ↔ n = 32 ∧ bh.width = 4)) := by
  obtain ⟨pieces, seen, chain, selected⟩ := selectFunction_pieces h
  constructor
  · intro i mem v ptr store pointer
    exact selected.stores_iff chain bh integer mem store pointer
  · intro i mem j mem' ptr ptr' load store
    exact selected.copies_iff chain bh integer mem mem' load store

/-- Copies a byte. -/
def copiesByte : Llvm.Function where
  args := [{ name := "p".toList, ty := .ptr }, { name := "q".toList, ty := .ptr }]
  blocks :=
    [{ name := "entry".toList
       body := [⟨0, .load (.int 8) (.argument 0)⟩,
         ⟨1, .store (.int 8) (.instruction 0) (.argument 1)⟩]
       terminator := .ret none }]

/-- Its selected code. -/
def copiesByteCode : List SelectedBlock × Selector :=
  (selectFunction words copiesByte).getD ([], .start)

/-- `STR` moves words of 32 bits. -/
def ByteHardware.words : ByteHardware where
  width := 4
  rest _ _ _ := 0
  sysReg _ := 0
  setsFlags _ := false
  whole := le_rfl

/-- Copies a word. -/
def copiesWord : Llvm.Function where
  args := [{ name := "p".toList, ty := .ptr }, { name := "q".toList, ty := .ptr }]
  blocks :=
    [{ name := "entry".toList
       body := [⟨0, .load (.int 32) (.argument 0)⟩,
         ⟨1, .store (.int 32) (.instruction 0) (.argument 1)⟩]
       terminator := .ret none }]

/-- Its selected code. -/
def copiesWordCode : List SelectedBlock × Selector :=
  (selectFunction words copiesWord).getD ([], .start)

/-- The width decides whether a store and a copy of a byte are exact. Those of a word are. -/
theorem selectFunction_accesses_byte :
    (∃ st₀ out st₁ out₁ st₂ out₂ rd,
      LoweredTo words copiesByte copiesByteCode.1
        ⟨1, .store (.int 8) (.instruction 0) (.argument 1)⟩ st₀ out ∧
      (StoresExactly .words 8 (valued 1) copiesByteCode.2 st₀ (.instruction 0) (.argument 1) out ↔
        8 = 32 ∧ ByteHardware.words.width = 4) ∧
      LoweredTo words copiesByte copiesByteCode.1 ⟨0, .load (.int 8) (.argument 0)⟩ st₁ out₁ ∧
      LoweredTo words copiesByte copiesByteCode.1
        ⟨1, .store (.int 8) (.instruction 0) (.argument 1)⟩ st₂ out₂ ∧
      copiesByteCode.2.regOf (.instruction 0) = some rd ∧
      (CopiesExactly .words 8 (valued 1) copiesByteCode.2 (.argument 0) (.argument 1) rd out₁ out₂ ↔
        8 = 32 ∧ ByteHardware.words.width = 4)) ∧
    ∃ st₀ out st₁ out₁ st₂ out₂ rd,
      LoweredTo words copiesWord copiesWordCode.1
        ⟨1, .store (.int 32) (.instruction 0) (.argument 1)⟩ st₀ out ∧
      StoresExactly .words 32 (valued 1) copiesWordCode.2 st₀ (.instruction 0) (.argument 1) out ∧
      LoweredTo words copiesWord copiesWordCode.1 ⟨0, .load (.int 32) (.argument 0)⟩ st₁ out₁ ∧
      LoweredTo words copiesWord copiesWordCode.1
        ⟨1, .store (.int 32) (.instruction 0) (.argument 1)⟩ st₂ out₂ ∧
      copiesWordCode.2.regOf (.instruction 0) = some rd ∧
      CopiesExactly .words 32 (valued 1) copiesWordCode.2 (.argument 0) (.argument 1) rd
        out₁ out₂ := by
  have constants := constantsValued_valued 1
  constructor
  · have select : selectFunction words copiesByte = some copiesByteCode := rfl
    obtain ⟨stores, copies⟩ :=
      selectFunction_accesses_iff select .words (show 8 ∈ accessWidths by decide)
    have first : ⟨0, .load (.int 8) (.argument 0)⟩ ∈ bodyOf copiesByte := List.mem_cons_self
    have second : ⟨1, .store (.int 8) (.instruction 0) (.argument 1)⟩ ∈ bodyOf copiesByte :=
      List.mem_cons_of_mem _ List.mem_cons_self
    obtain ⟨st₀, out, lowered, exact⟩ := stores _ second _ _ rfl rfl
    obtain ⟨st₁, out₁, st₂, out₂, rd, lowered₁, lowered₂, reg, exact'⟩ :=
      copies _ first _ second _ _ rfl rfl
    exact ⟨st₀, out, st₁, out₁, st₂, out₂, rd, lowered, exact _ constants, lowered₁, lowered₂, reg,
      exact' _ constants⟩
  · have select : selectFunction words copiesWord = some copiesWordCode := rfl
    obtain ⟨stores, copies⟩ :=
      selectFunction_accesses_iff select .words (show 32 ∈ accessWidths by decide)
    have first : ⟨0, .load (.int 32) (.argument 0)⟩ ∈ bodyOf copiesWord := List.mem_cons_self
    have second : ⟨1, .store (.int 32) (.instruction 0) (.argument 1)⟩ ∈ bodyOf copiesWord :=
      List.mem_cons_of_mem _ List.mem_cons_self
    obtain ⟨st₀, out, lowered, exact⟩ := stores _ second _ _ rfl rfl
    obtain ⟨st₁, out₁, st₂, out₂, rd, lowered₁, lowered₂, reg, exact'⟩ :=
      copies _ first _ second _ _ rfl rfl
    exact ⟨st₀, out, st₁, out₁, st₂, out₂, rd, lowered,
      (exact _ constants).mpr ⟨rfl, rfl⟩, lowered₁,
      lowered₂, reg, (exact' _ constants).mpr ⟨rfl, rfl⟩⟩

/-- All registers hold 0, and all bytes of the memory 255. -/
def zerosThread : Thread ByteHardware.words.hardware Nat where
  pc := none
  regs := fun _ => 0
  mem := fun _ => 255
  flags := 0

/-- The store of a byte of 0 at address 0 also writes 0 at address 1. -/
theorem selectFunction_overwrites : ∃ (sb : SelectedBlock) (mi mi' : Instruction Nat),
    copiesByteCode.1[0]? = some sb ∧
    (sb.items.drop 4).take 2 = [⟨.instruction 0, mi⟩, ⟨.instruction 1, mi'⟩] ∧
    copiesByteCode.2.valueToVReg (.argument 1) = some 3 ∧
    copiesByteCode.2.valueToVReg (.instruction 0) = some 5 ∧
    zerosThread.read 3 = 0 ∧ zerosThread.read 5 = 0 ∧
      (executeAll zerosThread [mi']).mem (1 : Word) = 0 ∧
    storeInt 8 zerosThread.mem 0 0 1 = 255 :=
  ⟨_, _, _, rfl, rfl, rfl, rfl, rfl, rfl, rfl, rfl⟩

end FpgaGpu

import FpgaGpu.Backend.Placement
import FpgaGpu.Isel.Initialised

/-!
# No register is live at the start of a kernel

The laid out code of a kernel is entered at its first block and left by `EXIT` alone, and what it
reads it has written.
-/

namespace FpgaGpu

open Llvm (Value)

section Reaching

variable {dl : DataLayout} {f : Llvm.Function} {code : List SelectedBlock} {st : Selector}
variable {pieces : List (List Piece)} {seen : List (Value × Bool)} {blocks : List BasicBlockCode}
variable {first b : Nat} {done before rest : List Emitted} {e : Emitted} {pc pc' : Int}

/-- A path through the code has come to `pc`, behind the instructions `before` of the block `b`. -/
structure Reaches (code : List SelectedBlock) (blocks : List BasicBlockCode) (first : Nat)
    (done : List Emitted) (b : Nat) (before rest : List Emitted) (pc : Int) : Prop where
  path : ControlFlow.Path (codeFlow (code.map SelectedBlock.name))
    (code.map SelectedBlock.items) done b rest
  block : ∃ sb, code[b]? = some sb ∧ sb.items = before ++ rest
  more : rest ≠ []
  pc : pc = ((blockStart blocks (first + b) + before.length : Nat) : Int)

/-- The instruction that a path has come to. -/
lemma Reaches.fetch (embedded : Embedded f code blocks first)
    (reaches : Reaches code blocks first done b before (e :: rest) pc) :
    FpgaGpu.fetch (resolveBranchOffsets blocks) pc =
      some (resolveAt (blockToPC blocks) (blockStart blocks (first + b) + before.length)
        (e.mi.mapRegs narrow)) := by
  obtain ⟨sb, hb, split⟩ := reaches.block
  rw [reaches.pc]
  exact (embedded.fetch hb (by simp [split])).1

/-- The code of a block is not empty. -/
lemma Selected.items_ne_nil (selected : Selected dl f code st pieces)
    (lowered : ∀ bb ∈ f.blocks, isLowered bb.terminator = true) {sb : SelectedBlock}
    (hb : code[b]? = some sb) :
    sb.items ≠ [] := by
  obtain ⟨ps, hps, items⟩ := selected.code_block hb
  obtain ⟨bb, front, p, block, rfl, item, -⟩ := selected.last hps
  obtain ⟨spec, -⟩ := selected.spec _ (List.mem_of_getElem? hps) p (by simp)
  have shape := spec.shape
  rw [item] at shape
  obtain ⟨front', e', last, -⟩ := shape.last [] (lowered bb (List.mem_of_getElem? block))
  rw [items]
  simp [last]

/-- A path starts at the first block. -/
lemma Selected.reaches (selected : Selected dl f code st pieces)
    (lowered : ∀ bb ∈ f.blocks, isLowered bb.terminator = true) {sb : SelectedBlock}
    (hb : code[0]? = some sb) :
    Reaches code blocks first [] 0 [] sb.items (blockStart blocks first : Int) :=
  ⟨.entry (by simp [hb]), ⟨sb, hb, rfl⟩, selected.items_ne_nil lowered hb, rfl⟩

/-- A path goes on where the instruction goes: in its block, or in a successor. -/
lemma Reaches.next (embedded : Embedded f code blocks first)
    (selected : Selected dl f code st pieces) (closed : f.Closed)
    (lowered : ∀ bb ∈ f.blocks, isLowered bb.terminator = true)
    (reaches : Reaches code blocks first done b before (e :: rest) pc) {mi : MachineInstruction}
    (at_pc : FpgaGpu.fetch (resolveBranchOffsets blocks) pc = some mi) {flags : Word}
    (goes : nextPc mi pc flags = some pc') :
    ∃ b' before' rest', Reaches code blocks first (done ++ [e]) b' before' rest' pc' ∧
      ((b' = b ∧ pc' = pc + 1) ∨ b' ∈ f.successors b ∧ before' = []) := by
  obtain rfl := Option.some.inj ((reaches.fetch embedded).symm.trans at_pc)
  obtain ⟨path, ⟨sb, hb, split⟩, -, rfl⟩ := reaches
  obtain ⟨continues, more, rfl⟩ | ⟨d, sb', jumps, succ, hd, rfl⟩ :=
    embedded.next selected closed lowered hb split goes
  · refine ⟨b, before ++ [e], rest,
      ⟨path.next trivial continues, ⟨sb, hb, by simp [split]⟩, more, ?_⟩,
      .inl ⟨rfl, by push_cast; omega⟩⟩
    rw [List.length_append]
    rfl
  · exact ⟨d, [], sb'.items, ⟨path.jump trivial jumps (by simp [hd]), ⟨sb', hd, rfl⟩,
      selected.items_ne_nil lowered hd, rfl⟩, .inr ⟨succ, rfl⟩⟩

/-- A register that is live where a path has come to was written on the path. -/
theorem Reaches.live_written (sk : SelectedKernel dl f code st pieces seen)
    (embedded : Embedded f code blocks first) {v : RegField}
    (live : Live (FpgaGpu.fetch (resolveBranchOffsets blocks)) pc v)
    (reaches : Reaches code blocks first done b before rest pc) :
    ∃ e ∈ done, e.mi.writes.map narrow = some v := by
  have lowered : ∀ bb ∈ f.blocks, isLowered bb.terminator = true :=
    fun bb hbb => (sk.kernel.terminators bb hbb).lowered
  induction live generalizing done b before rest with
  | @read pc mi v at_pc mem ne =>
    obtain ⟨e, rest, rfl⟩ := List.exists_cons_of_ne_nil reaches.more
    obtain rfl := Option.some.inj ((reaches.fetch embedded).symm.trans at_pc)
    rw [reads_resolveAt, reads_mapRegs] at mem
    obtain ⟨r, read, rfl⟩ := List.mem_map.mp mem
    have nonzero : r ≠ 0 := by
      rintro rfl
      exact ne rfl
    obtain ⟨e', he', write⟩ := sk.written embedded.distinct reaches.path read nonzero
    exact ⟨e', he', by rw [write]; rfl⟩
  | @next pc pc' mi v flags at_pc keeps goes live ih =>
    obtain ⟨e, rest, rfl⟩ := List.exists_cons_of_ne_nil reaches.more
    obtain ⟨b', before', rest', reaches', -⟩ :=
      reaches.next embedded sk.selected sk.kernel.ssa.closed lowered at_pc goes
    obtain ⟨e', he', write⟩ := ih reaches'
    obtain he' | he' := List.mem_append.mp he'
    · exact ⟨e', he', write⟩
    · obtain rfl := List.mem_singleton.mp he'
      obtain rfl := Option.some.inj ((reaches.fetch embedded).symm.trans at_pc)
      rw [writes_resolveAt, writes_mapRegs] at keeps
      exact absurd write keeps

/-- No register is live where a path starts. -/
lemma SelectedKernel.not_live (sk : SelectedKernel dl f code st pieces seen)
    (embedded : Embedded f code blocks first) (nonempty : f.blocks ≠ []) (v : RegField) :
    ¬ Live (fetch (resolveBranchOffsets blocks)) (blockStart blocks first) v := by
  intro live
  obtain ⟨sb, hb⟩ := sk.selected.exists_code
    (List.getElem?_eq_getElem (List.length_pos_of_ne_nil nonempty))
  obtain ⟨e, mem, -⟩ := Reaches.live_written sk embedded live
    (sk.selected.reaches (fun bb hbb => (sk.kernel.terminators bb hbb).lowered) hb)
  cases mem

end Reaching

/-- No register is live where a kernel starts. -/
theorem selectFunction_not_live {dl : DataLayout} (lawful : dl.Lawful) {f : Llvm.Function}
    (kernel : FlowKernel dl f) {code : List SelectedBlock} {st : Selector}
    (select : selectFunction dl f = some (code, st)) {blocks : List BasicBlockCode} {first : Nat}
    (embedded : Embedded f code blocks first) (nonempty : f.blocks ≠ []) (v : RegField) :
    ¬ Live (fetch (resolveBranchOffsets blocks)) (blockStart blocks first) v := by
  obtain ⟨pieces, seen, chain, selected⟩ := selectFunction_pieces select
  exact SelectedKernel.not_live ⟨lawful, kernel, selected, chain⟩ embedded nonempty v

/-- No register is live before the loop that counts down. -/
theorem selectFunction_not_live_countdown : FlowKernel linear countdown ∧
    ∀ v, ¬ Live (fetch (resolveBranchOffsets (countdownCode.1.map SelectedBlock.code)))
      (blockStart (countdownCode.1.map SelectedBlock.code) 0) v := by
  refine ⟨countdown_flowKernel, fun v => ?_⟩
  exact selectFunction_not_live (fun _ _ _ => rfl) countdown_flowKernel
    countdown_select countdown_embedded
    (by decide) v

end FpgaGpu

import FpgaGpu.Alloc.Loops
import FpgaGpu.Backend.Words

/-!
# Kernels with loops

The ranges of the allocator cover every write of a kernel, if each register that is live around a
loop is mentioned before the loop and at its end or behind it. A block without registers that only
leads on counts as the block that it leads to.
-/

namespace FpgaGpu

open Llvm (Value Control)

/-- What is live at the start of the block `head` is mentioned before it, and at the end of the
block `latch` or behind it. -/
def SpansLoop (blocks : List BasicBlockCode) (head latch : Nat) : Prop :=
  ∀ v, Live (fetch (resolveBranchOffsets blocks)) (blockStart blocks head) v →
    (∃ k, k < blockStart blocks head ∧ Mentions (layout blocks) k v) ∧
      ∃ j, blockStart blocks (latch + 1) ≤ j + 1 ∧ Mentions (layout blocks) j v

/-- The block `b` counts as the block `place b`. -/
structure Places (f : Llvm.Function) (code : List SelectedBlock) (place : Nat → Nat) : Prop where
  bare : ∀ b sb, code[b]? = some sb → place b ≠ b → ∀ e ∈ sb.items, ∀ r ∈ e.mi.fields, r = 0
  leads : ∀ b, place b ≠ b → ∀ d ∈ f.successors b, place d = place b

section Loops

variable {dl : DataLayout} {f : Llvm.Function} {code : List SelectedBlock} {st : Selector}
variable {pieces : List (List Piece)} {seen : List (Value × Bool)} {blocks : List BasicBlockCode}
variable {first b : Nat} {done before rest : List Emitted} {e : Emitted}
  {pc : Int} {place : Nat → Nat}

lemma blockStart_mono {j k : Nat} (le : j ≤ k) : blockStart blocks j ≤ blockStart blocks k := by
  have same : blocks.take j = (blocks.take k).take j := by rw [List.take_take, Nat.min_eq_left le]
  rw [blockStart, same]
  exact blockStart_le (blocks.take k) j

/-- A block ends where the next one starts. -/
lemma Embedded.blockStart_succ (h : Embedded f code blocks first) {sb : SelectedBlock}
    (hb : code[b]? = some sb) :
    blockStart blocks (first + b + 1) = blockStart blocks (first + b) + sb.items.length := by
  rw [blockStart, layout_take_succ (h.stands b sb hb), List.length_append]
  simp [SelectedBlock.code, blockStart]

/-- A bare block mentions no register. -/
lemma Reaches.not_mentions (embedded : Embedded f code blocks first) (places : Places f code place)
    (reaches : Reaches code blocks first done b before rest pc) (moved : place b ≠ b)
    {i : Nat} (at_i : pc = i) (v : RegField) : ¬ Mentions (resolveBranchOffsets blocks) i v := by
  rintro ⟨ne, mi, at_mi, mem⟩
  obtain ⟨e, rest, rfl⟩ := List.exists_cons_of_ne_nil reaches.more
  have fetched := reaches.fetch embedded
  rw [at_i, fetch_natCast, at_mi] at fetched
  obtain rfl := Option.some.inj fetched
  obtain ⟨sb, hb, split⟩ := reaches.block
  have zero := places.bare b sb hb moved e (by simp [split])
  rw [fields_resolveAt] at mem
  obtain ⟨r, hr, rfl⟩ : ∃ r ∈ e.mi.fields, narrow r = v := by
    simpa [Instruction.fields, Instruction.mapRegs, eq_comm] using mem
  exact ne (zero r hr ▸ rfl)

/-- What is live in a bare block is live where it leads to. -/
lemma Reaches.live_of_bare (sk : SelectedKernel dl f code st pieces seen)
    (embedded : Embedded f code blocks first) (places : Places f code place)
    (moved : place b ≠ b) {v : RegField}
    (live : Live (FpgaGpu.fetch (resolveBranchOffsets blocks)) pc v)
    (reaches : Reaches code blocks first done b before rest pc) :
    Live (FpgaGpu.fetch (resolveBranchOffsets blocks)) (blockStart blocks (first + place b)) v := by
  induction live generalizing done b before rest with
  | @read pc mi v at_pc mem ne =>
    obtain ⟨i, rfl, at_i⟩ := exists_of_fetch at_pc
    exact absurd ⟨ne, mi, at_i, reads_subset_fields mem⟩
      (reaches.not_mentions embedded places moved rfl v)
  | @next pc pc' mi v flags at_pc keeps goes live ih =>
    obtain ⟨e, rest, rfl⟩ := List.exists_cons_of_ne_nil reaches.more
    obtain ⟨b', before', rest', reaches', ⟨rfl, rfl⟩ | ⟨succ, rfl⟩⟩ :=
      reaches.next embedded sk.selected sk.kernel.ssa.closed
        (fun bb hbb => (sk.kernel.terminators bb hbb).lowered) at_pc goes
    · exact ih moved reaches'
    · rw [← places.leads b moved b' succ]
      by_cases moved' : place b' = b'
      · rw [moved']
        have here := reaches'.pc
        rw [List.length_nil, Nat.add_zero] at here
        exact here ▸ live
      · exact ih moved' reaches'

/-- The allocator's ranges span the loops of a kernel. -/
lemma SelectedKernel.spansLoops (sk : SelectedKernel dl f code st pieces seen)
    (embedded : Embedded f code blocks first) (places : Places f code place)
    (loops : ∀ b, place b = b → ∀ d ∈ f.successors b,
      b < place d ∨ SpansLoop blocks (first + place d) (first + b)) :
    SpansLoops (resolveBranchOffsets blocks) fun pc q => ∃ done b before rest,
      Reaches code blocks first done b before rest pc ∧
        q = if place b = b then pc else (blockStart blocks (first + place b) : Int) where
  here {i q v} here mention := by
    obtain ⟨done, b, before, rest, reaches, rfl⟩ := here
    refine if_pos ?_
    by_contra moved
    exact reaches.not_mentions embedded places moved rfl v mention
  next {i q mi flags pc} here at_i goes := by
    obtain ⟨done, b, before, rest, reaches, rfl⟩ := here
    have at_pc : fetch (resolveBranchOffsets blocks) i = some mi := by rw [fetch_natCast, at_i]
    obtain ⟨e, rest, rfl⟩ := List.exists_cons_of_ne_nil reaches.more
    obtain ⟨b', before', rest', reaches', ⟨rfl, rfl⟩ | ⟨succ, rfl⟩⟩ :=
      reaches.next embedded sk.selected sk.kernel.ssa.closed
        (fun bb hbb => (sk.kernel.terminators bb hbb).lowered) at_pc goes
    · refine ⟨_, ⟨_, _, _, _, reaches', rfl⟩, .inl ?_⟩
      split
      · exact ⟨by omega, fun _ _ => by omega⟩
      · next moved =>
        exact ⟨Int.le_refl _, fun v mention =>
          absurd mention (reaches.not_mentions embedded places moved rfl v)⟩
    · -- control comes to the start of a block, which counts as the start of its place
      have start : (if place b' = b' then pc else (blockStart blocks (first + place b') : Int)) =
          blockStart blocks (first + place b') := by
        split
        · next same =>
          rw [reaches'.pc, same]
          rfl
        · rfl
      refine ⟨_, ⟨_, _, _, _, reaches', rfl⟩, ?_⟩
      rw [start]
      by_cases moved : place b = b
      · rw [if_pos moved]
        obtain ⟨sb, hb, split⟩ := reaches.block
        have next := embedded.blockStart_succ hb
        rw [split, List.length_append, List.length_cons] at next
        have at_i := reaches.pc
        obtain later | spans := loops b moved b' succ
        · have mono : blockStart blocks (first + b + 1) ≤ blockStart blocks (first + place b') :=
            blockStart_mono (by omega)
          exact .inl ⟨by omega, fun _ _ => by omega⟩
        · refine .inr fun v live => ?_
          have live' : Live (fetch (resolveBranchOffsets blocks))
              (blockStart blocks (first + place b')) v := by
            by_cases moved' : place b' = b'
            · rw [if_pos moved'] at start
              exact start ▸ live
            · exact reaches'.live_of_bare sk embedded places moved' live
          obtain ⟨⟨k, lt, mention⟩, j, le, mention'⟩ := spans v live'
          rw [← mentions_resolveBranchOffsets] at mention mention'
          exact ⟨⟨k, by omega, mention⟩, j, by omega, mention'⟩
      · rw [if_neg moved, places.leads b moved b' succ]
        exact .inl ⟨Int.le_refl _,
          fun v mention => absurd mention (reaches.not_mentions embedded places moved rfl v)⟩

/-- Every write of a run of the kernel is covered. -/
lemma SelectedKernel.covered (sk : SelectedKernel dl f code st pieces seen) {hw : Hardware}
    (embedded : Embedded f code blocks first) (nonempty : f.blocks ≠ [])
    (places : Places f code place) (loops : ∀ b, place b = b → ∀ d ∈ f.successors b,
      b < place d ∨ SpansLoop blocks (first + place d) (first + b))
    (s : Thread hw RegField) (n : Nat) (pc : s.pc = some (blockStart blocks first : Int)) :
    Machine.Along (fun s : Thread hw RegField =>
        ∀ pc, s.pc = some pc → Covered (resolveBranchOffsets blocks) pc)
      (threadStep (fetch (resolveBranchOffsets blocks))) n s := by
  obtain ⟨sb, hb⟩ := sk.selected.exists_code
    (List.getElem?_eq_getElem (List.length_pos_of_ne_nil nonempty))
  have reaches : Reaches code blocks first [] 0 [] sb.items (blockStart blocks first) :=
    sk.selected.reaches
    (fun bb hbb => (sk.kernel.terminators bb hbb).lowered) hb
  exact (sk.spansLoops embedded places loops).covered ⟨_, _, _, _, reaches, rfl⟩
    (sk.not_live embedded nonempty) pc n

end Loops

/-- The allocated words of a kernel stop exactly if the kernel returns, and leave its memory. -/
theorem emitWords_flowKernel {dl : DataLayout} (lawful : dl.Lawful) {f : Llvm.Function}
    (kernel : FlowKernel dl f) {code : List SelectedBlock} {st : Selector}
    (select : selectFunction dl f = some (code, st)) (few : st.nextVReg ≤ 256)
    (short : f.args.length ≤ 1024) {blocks blocks' : List BasicBlockCode} {first : Nat}
    (embedded : Embedded f code blocks first) (nonempty : f.blocks ≠ []) {order : SortOrder}
    (run : allocate order blocks = some blocks')
    (loops : ∀ b, ∀ d ∈ f.successors b, b < d ∨ SpansLoop blocks (first + d) (first + b))
    (hw : Hardware) (args : Nat → Word) (mem : hw.Mem)
    (stored : ArgumentsStored f (Control.enter args mem).state)
    (fits : ∀ n, Machine.Along (Fitting dl f) (f.step dl.typeAllocSize) n (Control.enter args mem))
    (t : Thread hw RegField) (pc : t.pc = some (blockStart blocks first : Int))
    (same : t.mem = mem) (mem' : hw.Mem) :
    f.Returns dl.typeAllocSize args mem mem' ↔
      ∃ t', Machine.Ends (threadStep (wordProgram (emitWords blocks'))) t t' ∧
        t'.pc = none ∧ t'.mem = mem' := by
  obtain ⟨pieces, seen, chain, selected⟩ := selectFunction_pieces select
  obtain ⟨φ, rfl, alloc⟩ := allocate_spec run
  have sk : SelectedKernel dl f code st pieces seen := ⟨lawful, kernel, selected, chain⟩
  have places : Places f code id :=
    ⟨fun b _ _ moved => absurd rfl moved, fun b moved => absurd rfl moved⟩
  exact sk.words_returns select few short embedded alloc nonempty stored fits
    (sk.covered embedded nonempty places fun b _ => loops b) pc same mem'

/-- The pointer is the only register that is live around the loop, and it is read behind it. -/
lemma countdown_spans : ∀ b, ∀ d ∈ countdown.successors b,
    b < d ∨ SpansLoop (countdownCode.1.map SelectedBlock.code) (0 + d) (0 + b) := by
  intro b d succ
  obtain ⟨bb, block, -⟩ := Llvm.Function.exists_of_mem_successors succ
  have edges : ∀ b < 3, ∀ d ∈ countdown.successors b, b < d ∨ b = 1 ∧ d = 1 := by decide
  obtain later | ⟨rfl, rfl⟩ := edges b (List.getElem?_eq_some_iff.mp block).1 d succ
  · exact .inl later
  · refine .inr fun v live => ?_
    have table : LiveTable [[], [2], [1], [1], [1, 3], [1, 4], [1, 4], [1], [1], [1], [1, 5], []]
        (resolveBranchOffsets (countdownCode.1.map SelectedBlock.code)) := by decide
    obtain ⟨i, e, mem⟩ := table.mem live
    obtain rfl : i = 3 := (Int.ofNat.inj e).symm
    obtain rfl := List.mem_singleton.mp mem
    exact ⟨⟨1, by decide, by decide, _, rfl, by decide⟩,
      10, by decide, by decide, _, rfl, by decide⟩

/-- The allocated words of the loop that counts down do what the loop does. -/
theorem emitWords_countdown :
    ∃ blocks, allocate .stable (countdownCode.1.map SelectedBlock.code) = some blocks ∧
    ∀ (mem : Hardware.words.Mem) (regs : RegField → Word) (mem' : Hardware.words.Mem),
      countdown.Returns linear.typeAllocSize (fun _ => mem 0) mem mem' ↔
        ∃ t', Machine.Ends (threadStep (wordProgram (emitWords blocks)))
          { pc := some 0, regs := regs, mem := mem, flags := 0 } t' ∧
            t'.pc = none ∧ t'.mem = mem' := by
  obtain ⟨blocks, alloc⟩ :
      ∃ blocks, allocate .stable (countdownCode.1.map SelectedBlock.code) = some blocks :=
    Option.isSome_iff_exists.mp (by decide)
  have few : countdownCode.2.nextVReg ≤ 256 := by decide
  refine ⟨blocks, alloc, fun mem regs mem' => ?_⟩
  refine emitWords_flowKernel (fun _ _ _ => rfl) countdown_flowKernel
    countdown_select few (by decide)
    countdown_embedded (by decide) alloc countdown_spans Hardware.words _ mem (fun k lt => ?_)
      (countdown_fits _) _
    rfl rfl mem'
  obtain rfl : k = 0 := Nat.lt_one_iff.mp lt
  rfl

end FpgaGpu

import FpgaGpu.Backend.Compiled
import FpgaGpu.Emit.Control

/-!
# Control stays in a function

Whatever the registers, the memory and the flags are, a thread that starts at a function of a
compiled module runs through blocks that its control-flow graph leads to from the entry, and stops
at an `EXIT` of the function only. No instruction needs to be lowered to what LLVM says of it for
that.
-/

namespace FpgaGpu

open Relation (ReflTransGen)

/-! ## Words and control -/

/-- Three bits of a condition are tested. -/
lemma takes_and_mask (cond : BitVec 8) (flags : Word) :
    takes (cond &&& 0x7) flags = takes cond flags := by
  have low : nzp flags &&& 0x7 = nzp flags := by
    unfold nzp
    split
    · rfl
    · split <;> rfl
  have masked : nzp flags &&& (cond &&& 0x7) = nzp flags &&& cond := by
    rw [BitVec.and_comm cond, ← BitVec.and_assoc, low]
  rw [takes, takes, masked]

/-- A word says where control goes as its instruction does, if the offset of a branch fits its
field. -/
lemma exists_decode {mi : MachineInstruction}
    (fits : mi.op = .br → -262144 ≤ mi.imm.toInt ∧ mi.imm.toInt < 262144) :
    ∃ mi', decode (encode mi) = some mi' ∧
      ∀ (pc : Int) (flags : Word), nextPc mi' pc flags = nextPc mi pc flags := by
  obtain ⟨mi', decoded, op, imm⟩ := decode_encode_op mi
  refine ⟨mi', decoded, fun pc flags => ?_⟩
  unfold nextPc
  rw [op]
  cases branch : mi.op with
  | br =>
    have cond : mi'.cond = mi.cond &&& 0x7 := by
      simp only [decode, opField_encode, Opcode.ofVal?_val, Option.map_some,
        Option.some.injEq] at decoded
      rw [← decoded, ← condField_encode (by rw [branch]; rfl)]
      exact if_pos (by rw [branch]; rfl)
    have offset : mi'.imm = mi.imm := by
      rw [imm (by rw [branch]; rfl), imm19Field_encode (by rw [branch]; rfl) (fits branch)]
    rw [cond, offset, takes_and_mask]
  | _ => rfl

section Control

variable {dl : DataLayout} {f g : Llvm.Function} {code : List SelectedBlock} {st : Selector}
variable {pieces : List (List Piece)} {blocks : List BasicBlockCode} {place : Nat → Nat}
variable {first b : Nat} {done before rest : List Emitted} {e : Emitted} {pc : Int}

/-- The offset of a branch of a function fits. -/
lemma Reaches.near (selected : Selected dl f code st pieces) (closed : f.Closed)
    (embedded : Embedded f code blocks first)
    (reaches : Reaches code blocks first done b before (e :: rest) pc) {mi : MachineInstruction}
    (at_pc : FpgaGpu.fetch (resolveBranchOffsets blocks) pc = some mi) (branch : mi.op = .br) :
    -262144 ≤ mi.imm.toInt ∧ mi.imm.toInt < 262144 := by
  obtain rfl := Option.some.inj ((reaches.fetch embedded).symm.trans at_pc)
  obtain ⟨sb, hb, split⟩ := reaches.block
  have near := (embedded.fetch hb (k := before.length) (e := e) (by simp [split])).2
  obtain ⟨ps, hps, items⟩ := selected.code_block hb
  have mem : e ∈ ps.flatMap Piece.code := by
    rw [← items, split]
    simp
  obtain ⟨p, hp, he⟩ := List.mem_flatMap.mp mem
  obtain ⟨spec, -⟩ := selected.spec _ (List.mem_of_getElem? hps) p hp
  rw [resolveAt_op, mapRegs_op] at branch
  obtain ⟨term, cond, d, comment, item, succ, rfl⟩ := spec.shape.branch he branch
  obtain ⟨bb, block, rfl⟩ := selected.terminator hps hp item
  obtain ⟨offset, resolved, target⟩ :=
    embedded.resolved (closed bb (List.mem_of_getElem? block) d succ) cond comment near
  have here := blockStart_le blocks (first + d)
  have short := embedded.short
  rw [resolved]
  dsimp only
  omega

/-- An edge behind the pass stays at a place, or leads along an edge of the function. -/
lemma Detours.edge {inserted : Text → Prop} (h : Detours inserted f g place) {c d : Nat}
    (edge : Edge g c d) : place d = place c ∨ Edge f (place c) (place d) := by
  obtain ⟨bb, here, succ⟩ := Llvm.Function.exists_of_mem_successors edge
  obtain old | created := Nat.lt_or_ge c f.blocks.length
  · have here' := List.getElem?_eq_getElem old
    obtain ⟨name, calls, r, e, -, sent⟩ := h.original here'
    obtain rfl := Option.some.inj (here.symm.trans e)
    rw [Llvm.Terminator.successors_mapSuccessors] at succ
    obtain ⟨d', succ', rfl⟩ := List.mem_map.mp succ
    refine .inr ?_
    rw [h.place_eq old, (sent d' succ').1]
    exact (congrArg (d' ∈ ·) (Llvm.Function.successors_of_getElem? here')).mpr succ'
  · obtain ⟨name, id, k, rfl, leads, -⟩ := h.created created here
    obtain rfl := List.mem_singleton.mp succ
    exact .inl leads

/-- The blocks that the pass leaves end as those of the function do. -/
lemma Detours.lowered {inserted : Text → Prop} (h : Detours inserted f g place)
    (lowered : ∀ bb ∈ f.blocks, isLowered bb.terminator = true) :
    ∀ bb ∈ g.blocks, isLowered bb.terminator = true := by
  intro bb' hbb
  obtain ⟨bb, old, name, calls, r, rfl, -⟩ | ⟨name, id, k, rfl, -⟩ := h.mem_blocks hbb
  · have same := lowered bb old
    show isLowered (bb.terminator.mapSuccessors r) = true
    cases term : bb.terminator <;> rw [term] at same <;> exact same
  · rfl

/-- A thread at the code of a function, in a block that the entry leads to. -/
def Confined {hw : Hardware} (f : Llvm.Function) (code : List SelectedBlock)
    (blocks : List BasicBlockCode) (first : Nat) (place : Nat → Nat)
    (t : Thread hw RegField) : Prop :=
  ∀ pc, t.pc = some pc → ∃ done b before rest, Reaches code blocks first done b before rest pc ∧
    ReflTransGen (Edge f) 0 (place b)

/-- A confined thread that has not stopped goes on, and stays confined. -/
lemma Confined.step {hw : Hardware} {inserted : Text → Prop} (h : Detours inserted f g place)
    (selected : Selected dl g code st pieces) (closed : g.Closed)
    (lowered : ∀ bb ∈ g.blocks, isLowered bb.terminator = true)
    (embedded : Embedded g code blocks first) (φ : RegField → RegField) {t : Thread hw RegField}
    (confined : Confined f code blocks first place t) (runs : t.pc.isSome) :
    ∃ shown t', threadStep (wordProgram (emitWords (blocks.map (BlockCode.mapRegs φ))))
      t = some (shown, t') ∧
      Confined f code blocks first place t' := by
  obtain ⟨pc, at_pc⟩ := Option.isSome_iff_exists.mp runs
  obtain ⟨done, b, before, rest, reaches, led⟩ := confined pc at_pc
  obtain ⟨e, rest, rfl⟩ := List.exists_cons_of_ne_nil reaches.more
  have fetched := reaches.fetch embedded
  obtain ⟨mi, hmi⟩ : ∃ mi, fetch (resolveBranchOffsets blocks) pc = some mi := ⟨_, fetched⟩
  have near := fun branch => reaches.near selected closed embedded hmi branch
  obtain ⟨mi', decoded, same⟩ := exists_decode (show (mi.mapRegs φ).op = .br → _ from near)
  have word : wordProgram (emitWords (blocks.map (BlockCode.mapRegs φ))) pc = some mi' := by
    rw [wordProgram, emitWords, resolveBranchOffsets_mapRegs, fetch_map, fetch_map, hmi]
    exact decoded
  refine ⟨_, _, threadStep_eq at_pc word, fun pc' goes => ?_⟩
  have goes : nextPc mi pc t.flags = some pc' := by
    rw [← nextPc_mapRegs φ, ← same]
    exact goes
  obtain ⟨b', before', rest', reaches', ⟨rfl, -⟩ | ⟨succ, -⟩⟩ :=
    reaches.next embedded selected closed lowered hmi goes
  · exact ⟨_, _, _, _, reaches', led⟩
  · refine ⟨_, _, _, _, reaches', ?_⟩
    obtain stays | edge := h.edge succ
    · exact stays ▸ led
    · exact led.tail edge

end Control

/-! ## Modules -/

section Modules

variable {llvm : Analyses} {dl : DataLayout} {order : SortOrder} {M : Llvm.Module}
variable {codes : List (List SelectedBlock)} {blocks : List BasicBlockCode}
  {i : Nat} {f : Llvm.Function}

/-- The function `i` of a module is `f` behind the pass. Its blocks end in `br` or `ret`, and its
labels lead to its blocks. -/
structure ModuleFunction (llvm : Analyses) (M : Llvm.Module)
    (codes : List (List SelectedBlock)) (i : Nat) (f : Llvm.Function) : Prop where
  defined : (definedFunctions llvm M)[i]? = some (runDivergencePass llvm f)
  nonempty : f.blocks ≠ []
  closed : f.Closed
  lowered : ∀ bb ∈ f.blocks, isLowered bb.terminator = true
  faithful : llvm.Faithful (nameBlocks llvm f)
  labels : ∀ d < (runDivergencePass llvm f).blocks.length,
    LastNamed (allBlocks codes) (blockNames (runDivergencePass llvm f) d) (blockIndex codes i d)
  short : (layout (allBlocks codes)).length < 2 ^ 18

/-- Every run from the start of a function is at an `EXIT` that it has executed, or in a block of
the function that the entry leads to, where it goes on. -/
theorem compileModule_stays
    (select : selectFunctions dl (M.functions.map (runDivergencePass llvm)) = some codes)
    (compile : compileModule llvm dl order M = some blocks) (mf : ModuleFunction llvm M codes i f)
    (hw : Hardware) (t : Thread hw RegField)
    (pc : t.pc = some (blockStart (allBlocks codes) (blockIndex codes i 0) : Int)) (n : Nat)
    (t' : Thread hw RegField)
    (run : Machine.after (threadStep (wordProgram (emitWords blocks))) n t = some t') :
    t'.pc = none ∨ (threadStep (wordProgram (emitWords blocks)) t').isSome ∧
      ∃ b k : Nat, ReflTransGen (Edge f) 0 (contract (runDivergencePass llvm f) f.blocks.length b) ∧
        blockStart (allBlocks codes) (blockIndex codes i b) + k <
          blockStart (allBlocks codes) (blockIndex codes i b + 1) ∧
        t'.pc = some ((blockStart (allBlocks codes) (blockIndex codes i b) + k : Nat) : Int) := by
  have detours := runDivergencePass_detours mf.closed mf.faithful
  have lt : i < codes.length := by
    rw [← (selectFunctions_forall₂ select).length_eq]
    exact (List.getElem?_eq_some_iff.mp mf.defined).1
  have hc := List.getElem?_eq_getElem lt
  obtain ⟨st, selectF⟩ := selectFunction_of_getElem? select mf.defined hc
  obtain ⟨pieces, seen, chain, selected⟩ := selectFunction_pieces selectF
  have embedded := embedded_allBlocks hc mf.labels mf.short
  obtain ⟨φ, rfl⟩ := compileModule_eq_some select compile
  have lowered : ∀ bb ∈ (runDivergencePass llvm f).blocks, isLowered bb.terminator = true :=
    detours.lowered mf.lowered
  -- the thread is confined at the entry
  have start : Confined f codes[i] (allBlocks codes) (blockIndex codes i 0)
      (contract (runDivergencePass llvm f) f.blocks.length) t := by
    intro pc' at_pc
    obtain rfl := Option.some.inj (pc.symm.trans at_pc)
    have entry := List.length_pos_of_ne_nil mf.nonempty
    obtain ⟨sb, hb⟩ := selected.exists_code
      (List.getElem?_eq_getElem (Nat.lt_of_lt_of_le entry detours.le))
    refine ⟨_, _, _, _, selected.reaches lowered hb, ?_⟩
    rw [detours.place_eq entry]
  have step : ∀ {s : Thread hw RegField} {shown s'},
      Confined f codes[i] (allBlocks codes) (blockIndex codes i 0)
        (contract (runDivergencePass llvm f) f.blocks.length) s →
      threadStep (wordProgram (emitWords ((allBlocks codes).map (BlockCode.mapRegs φ))))
        s = some (shown, s') →
      Confined f codes[i] (allBlocks codes) (blockIndex codes i 0)
        (contract (runDivergencePass llvm f) f.blocks.length) s' := by
    intro s shown s' confined stepped
    have runs : s.pc.isSome := by
      obtain ⟨pc, at_pc, -⟩ := Option.bind_eq_some_iff.mp stepped
      exact Option.isSome_iff_exists.mpr ⟨pc, at_pc⟩
    obtain ⟨_, _, stepped', confined'⟩ :=
      confined.step detours selected detours.closed lowered embedded φ runs
    obtain ⟨-, rfl⟩ := Prod.mk.inj (Option.some.inj (stepped'.symm.trans stepped))
    exact confined'
  have confined := (Machine.Along.of_invariant (n := n + 1) step start).after run
  cases at_pc : t'.pc with
  | none => exact .inl rfl
  | some pc' =>
    obtain ⟨shown, s, stepped, -⟩ :=
      confined.step detours selected detours.closed lowered embedded φ
      (by rw [at_pc]; rfl)
    obtain ⟨done, b, before, rest, reaches, led⟩ := confined pc' at_pc
    obtain ⟨sb, hb, split⟩ := reaches.block
    have index : blockIndex codes i 0 + b = blockIndex codes i b := rfl
    refine .inr ⟨by rw [stepped]; rfl, b, before.length, led, ?_, ?_⟩
    · have next := embedded.blockStart_succ hb
      have more := List.length_pos_of_ne_nil reaches.more
      rw [split, List.length_append, index] at next
      omega
    · rw [reaches.pc, index]

end Modules

/-- The words of the loop that counts down stay in its blocks. -/
theorem compileModule_stays_countdown : ∃ blocks,
    compileModule countdownAnalyses linear .stable { functions := [countdown] } = some blocks ∧
    ∀ (t t' : Thread Hardware.words RegField) (n : Nat), t.pc = some 0 →
      Machine.after (threadStep (wordProgram (emitWords blocks))) n t = some t' →
      t'.pc = none ∨ (threadStep (wordProgram (emitWords blocks)) t').isSome ∧
        ∃ b k : Nat,
          ReflTransGen (Edge countdown) 0
            (contract (runDivergencePass countdownAnalyses countdown) 3 b) ∧
          blockStart (allBlocks [countdownPassed.1]) (0 + b) + k <
            blockStart (allBlocks [countdownPassed.1]) (0 + b + 1) ∧
          t'.pc = some ((blockStart (allBlocks [countdownPassed.1]) (0 + b) + k : Nat) : Int) := by
  obtain ⟨blocks, compile⟩ : ∃ blocks,
      compileModule countdownAnalyses linear .stable { functions := [countdown] } = some blocks :=
    Option.isSome_iff_exists.mp (by decide)
  have select : selectFunctions linear ([countdown].map (runDivergencePass countdownAnalyses)) =
      some [countdownPassed.1] := rfl
  have mk := countdown_moduleKernel
  have mf : ModuleFunction countdownAnalyses { functions := [countdown] }
      [countdownPassed.1] 0 countdown :=
    ⟨mk.defined, mk.nonempty, mk.kernel.ssa.closed, by decide, mk.faithful, mk.labels, mk.short⟩
  exact ⟨blocks, compile, fun t t' n pc run =>
    compileModule_stays select compile mf Hardware.words t pc n t' run⟩

end FpgaGpu

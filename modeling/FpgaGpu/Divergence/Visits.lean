import FpgaGpu.Divergence.Shape
import FpgaGpu.Lib.Machine

/-!
# The divergence pass keeps the visited code

Contracting the created blocks gives back the terminators of the original function, so a run of the
result visits the original blocks that a run of the original function visits. A created block ends
in an unconditional branch, which has no outcome to be chosen.
-/

namespace FpgaGpu

open Llvm (BasicBlock Terminator)
open Machine

/-! ## Runs -/

/-- The block that a terminator goes to when its outcome is `slot`. -/
def follow (t : Terminator) (slot : Nat) : Option Nat :=
  match t with
  | .br dest => some dest
  | t => t.successors[slot]?

/-- An unconditional branch has no outcome. -/
def hasOutcome : Terminator → Bool
  | .br _ => false
  | _ => true

/-- The block where control is, and how many outcomes were used. -/
structure CfgState where
  block : Option Nat
  outcomes : Nat
  deriving DecidableEq, Repr

/-- Runs one block; the `k`-th outcome is the successor slot `choose k`. -/
def cfgStep (f : Llvm.Function) (choose : Nat → Nat) (s : CfgState) : Option (Nat × CfgState) := do
  let b ← s.block
  let bb ← f.blocks[b]?
  let next := follow bb.terminator (choose s.outcomes)
  let outcomes := if hasOutcome bb.terminator then s.outcomes + 1 else s.outcomes
  return (b, { block := next, outcomes := outcomes })

/-- The blocks that `m` steps from the entry visit. -/
def visits (f : Llvm.Function) (choose : Nat → Nat) (m : Nat) : List Nat :=
  trace (cfgStep f choose) m { block := some 0, outcomes := 0 }

@[simp] lemma follow_mapSuccessors (h : Nat → Nat) (t : Terminator) (slot : Nat) :
    follow (t.mapSuccessors h) slot = (follow t slot).map h := by
  cases t <;> simp [follow, Terminator.mapSuccessors, Terminator.successors]
  case condBr => cases slot with
    | zero => rfl
    | succ slot => cases slot <;> rfl
  case switch => cases slot <;> simp [Function.comp_def]

@[simp] lemma hasOutcome_mapSuccessors (h : Nat → Nat) (t : Terminator) :
    hasOutcome (t.mapSuccessors h) = hasOutcome t := by
  cases t <;> rfl

/-- An outcome leads to a successor. -/
lemma mem_of_follow {t : Terminator} {slot r : Nat} (h : follow t slot = some r) :
    r ∈ t.successors := by
  cases t with
  | br dest => simpa [follow, Terminator.successors, eq_comm] using h
  | _ => exact List.mem_of_getElem? h

/-! ## Contraction -/

/-- Follows unconditional branches from `c` to one of the first `n` blocks. -/
def contractFrom (f : Llvm.Function) (n : Nat) : Nat → Nat → Nat
  | 0, c => c
  | fuel + 1, c =>
    if c < n then c
    else
      match (f.blocks[c]?).map BasicBlock.terminator with
      | some (.br k) => contractFrom f n fuel k
      | _ => c

/-- Contracts the blocks from `n` on. -/
def contract (f : Llvm.Function) (n c : Nat) : Nat := contractFrom f n f.blocks.length c

/-- Contraction follows a chain to its end. -/
lemma Chain.contractFrom {f : Llvm.Function} {n d c r fuel : Nat} (h : Chain f n d c r)
    (enough : d ≤ fuel) : contractFrom f n fuel c = r := by
  induction d generalizing c fuel with
  | zero =>
    obtain ⟨rfl, lt⟩ := h
    cases fuel with
    | zero => rfl
    | succ fuel => rw [FpgaGpu.contractFrom, if_pos lt]
  | succ d ih =>
    obtain ⟨ge, bb, k, e, term, rest⟩ := h
    obtain ⟨fuel, rfl⟩ := Nat.exists_eq_succ_of_ne_zero (by omega : fuel ≠ 0)
    rw [FpgaGpu.contractFrom, if_neg (Nat.not_lt.mpr ge), e, Option.map_some, term]
    exact ih rest (by omega)

variable {llvm : Analyses}

/-- A chain has no more blocks than the function: the blocks of a chain are ever younger. -/
lemma Shape.chain_le {named f : Llvm.Function} {branches : List Nat}
    (shape : Shape llvm named branches f) {d c r : Nat}
    (h : Chain f named.blocks.length (d + 1) c r) : d + 1 + c ≤ f.blocks.length := by
  induction d generalizing c with
  | zero =>
    obtain ⟨-, bb, k, e, -⟩ := h
    have := (List.getElem?_eq_some_iff.mp e).1
    omega
  | succ d ih =>
    obtain ⟨ge, bb, k, e, term, rest⟩ := h
    obtain ⟨name, id, k', e', range⟩ := shape.created c ge (List.getElem?_eq_some_iff.mp e).1
    obtain rfl : bb = syncBlock name id k' := Option.some.inj (e.symm.trans e')
    obtain rfl : k' = k := Terminator.br.inj term
    have := ih rest
    have := rest.1
    omega

/-- Contracting the end of a rerouted edge gives the original target. -/
lemma Shape.contract_eq {named f : Llvm.Function} {branches : List Nat}
    (shape : Shape llvm named branches f) {q c r : Nat}
    (h : Rerouted llvm named branches f q c r) : contract f named.blocks.length c = r := by
  obtain ⟨d, chain, -⟩ := h
  refine chain.contractFrom ?_
  cases d with
  | zero => omega
  | succ d =>
    have := shape.chain_le chain
    omega

/-- A chain is hidden when only original blocks show. -/
lemma Chain.hidden {f : Llvm.Function} {n d c r : Nat} (h : Chain f n d c r) (choose : Nat → Nat)
    (k : Nat) : Hidden (fun b => decide (b < n)) (cfgStep f choose) d
      { block := some c, outcomes := k } { block := some r, outcomes := k } := by
  induction d generalizing c with
  | zero => rw [h.1]; rfl
  | succ d ih =>
    obtain ⟨ge, bb, j, e, term, rest⟩ := h
    refine ⟨c, { block := some j, outcomes := k }, ?_, by simpa using ge, ih rest⟩
    simp [cfgStep, e, term, follow, hasOutcome]

/-! ## The pass -/

/-- Control is at an original block, or nowhere. -/
def Inside (f f' : Llvm.Function) (s : CfgState) : Prop :=
  ∀ b, s.block = some b → b < f.blocks.length ∨ f.blocks[b]? = none ∧ f'.blocks[b]? = none

/-- The result `f'` of the pass is the function `f` with blocks put on its edges. -/
structure Contracts (llvm : Analyses) (f f' : Llvm.Function) : Prop where
  /-- The original blocks are still there. -/
  le : f.blocks.length ≤ f'.blocks.length
  /-- A created block is a `SYNC` and a jump. -/
  created : ∀ b bb, f.blocks.length ≤ b → f'.blocks[b]? = some bb →
    ∃ name id dest, bb = syncBlock name id dest
  /-- Contraction gives back the terminators, slot by slot. -/
  terminator : ∀ (b : Nat) (bb : BasicBlock), f.blocks[b]? = some bb → ∃ bb' : BasicBlock,
    f'.blocks[b]? = some bb' ∧
      bb'.terminator.mapSuccessors (contract f' f.blocks.length) = bb.terminator
  /-- One `SSY` before a conditional branch that has a reconvergence block, and nothing else. -/
  body : ∀ (b : Nat) (bb : BasicBlock), f.blocks[b]? = some bb →
    ∃ (bb' : BasicBlock) (calls : List Llvm.Instruction), f'.blocks[b]? = some bb' ∧
      bb'.body = bb.body ++ calls ∧
    calls.map Llvm.Instruction.operation =
      if bb.terminator.isCondBr then
        match llvm.ipdom (nameBlocks llvm f) b with
        | some ipd => [asmOperation (ssyAsm (nameBlocks llvm f) ipd)]
        | none => []
      else []
  /-- The runs visit the same original blocks. -/
  visits : ∀ choose,
    (∀ m, ∃ m', (visits f' choose m').filter (· < f.blocks.length) = visits f choose m) ∧
      ∀ m', ∃ m, (visits f' choose m').filter (· < f.blocks.length) = visits f choose m

/-- The code of an original block after the pass. -/
lemma runDivergencePass_original {f : Llvm.Function} (closed : f.Closed)
    (faithful : llvm.Faithful (nameBlocks llvm f)) {b bb} (hb : f.blocks[b]? = some bb) :
    ∃ name calls h, (runDivergencePass llvm f).blocks[b]? = some
        { name := name, body := bb.body ++ calls, terminator := bb.terminator.mapSuccessors h } ∧
      calls.map Llvm.Instruction.operation =
        ssyOperations llvm (nameBlocks llvm f) (condBranches (nameBlocks llvm f)) b ∧
      ∀ r ∈ bb.terminator.successors, Rerouted llvm (nameBlocks llvm f)
        (condBranches (nameBlocks llvm f)) (runDivergencePass llvm f) b (h r) r := by
  obtain ⟨name, e, -⟩ := (nameBlocks_spec llvm f).2 b bb hb
  obtain ⟨calls, h, e', ops, edges⟩ := (runDivergencePass_shape closed faithful).original b _ e
  exact ⟨name, calls, h, e', ops, edges⟩

/-- One original block of a run, and the created blocks after it. -/
lemma cfgStep_stutters {f : Llvm.Function} (closed : f.Closed)
    (faithful : llvm.Faithful (nameBlocks llvm f)) (choose : Nat → Nat) {s t : CfgState}
    (same : s = t ∧ Inside f (runDivergencePass llvm f) s) :
    Stutters (fun b => decide (b < f.blocks.length))
      (fun s t => s = t ∧ Inside f (runDivergencePass llvm f) s) (cfgStep f choose)
      (cfgStep (runDivergencePass llvm f) choose) s t := by
  obtain ⟨block, k⟩ := s
  obtain ⟨rfl, inside⟩ := same
  cases block with
  | none => exact .inl ⟨rfl, rfl⟩
  | some b =>
    obtain lt | ⟨stop, stop'⟩ := inside b rfl
    · have here := List.getElem?_eq_getElem lt
      generalize f.blocks[b] = bb at here
      obtain ⟨name, calls, h, e, -, edges⟩ := runDivergencePass_original closed faithful here
      right
      cases next : follow bb.terminator (choose k) with
      | none =>
        exact ⟨b, { block := none, outcomes := if hasOutcome bb.terminator then k + 1 else k },
          _, 0, _, by simp [cfgStep, here, next], by simp [cfgStep, e,
            next], by simpa using lt, rfl,
          rfl, fun _ no => by cases no⟩
      | some r =>
        obtain ⟨d, chain, -⟩ := edges r (mem_of_follow next)
        rw [(nameBlocks_spec llvm f).1] at chain
        refine ⟨b, { block := some r, outcomes := if hasOutcome bb.terminator then k + 1 else k },
          _, d, _, by simp [cfgStep, here, next], by simp [cfgStep, e, next], by simpa using lt,
          chain.hidden choose _, rfl, fun b' e' => ?_⟩
        obtain rfl := Option.some.inj e'
        exact .inl chain.lt
    · exact .inl ⟨by simp [cfgStep, stop], by simp [cfgStep, stop']⟩

/-- The divergence pass puts blocks on edges and `SSY`s before branches, and does not change which
code runs. -/
theorem runDivergencePass_contracts {f : Llvm.Function} (closed : f.Closed)
    (faithful : llvm.Faithful (nameBlocks llvm f)) :
    Contracts llvm f (runDivergencePass llvm f) := by
  have shape := runDivergencePass_shape closed faithful
  obtain ⟨len, names⟩ := nameBlocks_spec llvm f
  refine ⟨len ▸ shape.le, fun b bb ge hb => ?_, fun b bb hb => ?_,
    fun b bb hb => ?_, fun choose => ?_⟩
  · obtain ⟨name, id, k, e, -⟩ :=
      shape.created b (len.symm ▸ ge) (List.getElem?_eq_some_iff.mp hb).1
    exact ⟨name, id, k, Option.some.inj (hb.symm.trans e)⟩
  · obtain ⟨name, calls, h, e, -, edges⟩ := runDivergencePass_original closed faithful hb
    refine ⟨_, e, ?_⟩
    rw [Terminator.mapSuccessors_mapSuccessors]
    exact Terminator.mapSuccessors_eq_self fun r hr => len ▸ shape.contract_eq (edges r hr)
  · obtain ⟨name, calls, h, e, ops, -⟩ := runDivergencePass_original closed faithful hb
    refine ⟨_, calls, e, rfl, ?_⟩
    obtain ⟨name', e', -⟩ := names b bb hb
    have branch : b ∈ condBranches (nameBlocks llvm f) ↔ bb.terminator.isCondBr = true := by
      rw [(condBranches_spec _).2]
      simp [e']
    rw [ops, ssyOperations]
    exact if_congr branch rfl rfl
  · refine trace_stutters (cfgStep_stutters closed faithful choose) ⟨rfl, fun b e => ?_⟩
    obtain rfl : 0 = b := Option.some.inj e
    cases empty : f.blocks with
    | nil =>
      have same : runDivergencePass llvm f = f := by
        simp [runDivergencePass, Llvm.Function.isDeclaration, empty]
      exact .inr (by rw [same, empty]; exact ⟨rfl, rfl⟩)
    | cons bb bbs => exact .inl (Nat.succ_pos _)

/-- Two branches with one reconvergence block, the inner one before the outer one, and a loop behind
them. -/
def nestedBranches : Llvm.Function where
  args := []
  blocks :=
    [{ name := "entry".toList, body := [], terminator := .br 2 },
     { name := [], body := [], terminator := .condBr (.argument 0) 3 3 },
     { name := "outer".toList, body := [], terminator := .condBr (.argument 1) 1 3 },
     { name := "join".toList, body := []
       terminator := .switch (.argument 2) 4 [(.argument 3, 2)] },
     { name := "exit".toList, body := [], terminator := .ret none }]

/-- A name that no block has, for a wanted one that a block may have. -/
def suffixed (f : Llvm.Function) (name : Text) : Text :=
  if f.blocks.any (·.name = name) then name ++ decimalNat f.blocks.length else name

/-- What LLVM computes for `nestedBranches`. -/
def nestedAnalyses : Analyses where
  ipdom := fun _ b => [some 2, some 3, some 3, some 4, none][b]?.join
  dominates := fun _ a b =>
    decide (b ∈ [[0, 1, 2, 3, 4], [1], [1, 2, 3, 4], [3, 4], [4]].getD a []) || decide (5 ≤ b)
  predecessors := Llvm.Function.predecessors
  uniqueName := suffixed

/-- The pass on the nested branches. -/
theorem runDivergencePass_contracts_nested :
    Contracts nestedAnalyses nestedBranches (runDivergencePass nestedAnalyses nestedBranches) := by
  refine runDivergencePass_contracts (by decide) ⟨fun {b ipd} h => ?_, fun _ _ => .refl _⟩
  have entry := List.mem_of_getElem? (Option.join_eq_some_iff.mp h)
  rw [(nameBlocks_spec nestedAnalyses nestedBranches).1]
  simp only [List.mem_cons, Option.some.injEq, reduceCtorEq, List.not_mem_nil, or_false] at entry
  have len : nestedBranches.blocks.length = 5 := rfl
  omega

end FpgaGpu

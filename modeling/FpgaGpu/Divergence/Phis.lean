import FpgaGpu.Divergence.Balance

/-!
# Phis and the divergence pass

The pass sends edges into a reconvergence block through created blocks and leaves the phis there as
they were. So the phis name the edges into their block as long as no edge into it is sent away.
-/

namespace FpgaGpu

open Llvm (Terminator)
open Graph

/-! ## Phis -/

/-- A phi in the block `b`. -/
def HasPhi (f : Llvm.Function) (b id : Nat) (incoming : List (Llvm.Value × Nat)) : Prop :=
  ∃ bb, f.blocks[b]? = some bb ∧ ⟨id, .phi incoming⟩ ∈ bb.body

/-- Every phi has one entry for each edge into its block, which names the source of the edge. -/
def PhisConsistent (f : Llvm.Function) : Prop :=
  ∀ b id incoming, HasPhi f b id incoming → (incoming.map Prod.snd).Perm (f.predecessors b)

/-- The edge from the block `q` to `b` now comes to `b` from the block `z`, through created blocks;
the first `n` blocks are original. -/
inductive EntersFrom (g : Llvm.Function) (n b : Nat) : Nat → Nat → Prop
  | direct {q : Nat} : b ∈ g.successors q → EntersFrom g n b q q
  | through {q s z : Nat} : s ∈ g.successors q → n ≤ s → EntersFrom g n b s z → EntersFrom g n b q z

/-- The phis of `f` are still consistent in `g`, with the value that each edge had. -/
structure PhisKept (f g : Llvm.Function) : Prop where
  consistent : PhisConsistent g
  values : ∀ b id incoming, HasPhi f b id incoming → ∃ incoming', HasPhi g b id incoming' ∧
    ∀ v q, (v, q) ∈ incoming → ∃ z, EntersFrom g f.blocks.length b q z ∧ (v, z) ∈ incoming'

/-- The block of a phi. -/
lemma HasPhi.lt {f : Llvm.Function} {b id incoming} (h : HasPhi f b id incoming) :
    b < f.blocks.length := by
  obtain ⟨bb, e, -⟩ := h
  exact (List.getElem?_eq_some_iff.mp e).1

/-! ## Names -/

lemma Renamed.successors {f g : Llvm.Function} (h : Renamed f g) (b : Nat) :
    g.successors b = f.successors b := by
  cases e : f.blocks[b]? with
  | none =>
    have e' : g.blocks[b]? = none := by
      rw [List.getElem?_eq_none_iff] at e ⊢
      exact h.1 ▸ e
    simp [Llvm.Function.successors, e, e']
  | some bb =>
    obtain ⟨name, e', -⟩ := h.2 b bb e
    rw [Llvm.Function.successors_of_getElem? e, Llvm.Function.successors_of_getElem? e']

lemma Renamed.predecessors {f g : Llvm.Function} (h : Renamed f g) (b : Nat) :
    g.predecessors b = f.predecessors b := by
  simp only [Llvm.Function.predecessors, h.1, h.successors]

lemma Renamed.condBranches {f g : Llvm.Function} (h : Renamed f g) :
    condBranches g = condBranches f := by
  rw [FpgaGpu.condBranches, FpgaGpu.condBranches, h.1]
  refine List.filter_congr fun b hb => ?_
  have e := List.getElem?_eq_getElem (List.mem_range.mp hb)
  obtain ⟨name, e', -⟩ := h.2 b _ e
  rw [e, e']

/-! ## Edges into a block -/

variable {llvm : Analyses} {named f : Llvm.Function}

/-- The edges into `r` are the same if those of the first blocks are and the other blocks have
none. -/
lemma predecessors_eq {f g : Llvm.Function} {r : Nat} (le : f.blocks.length ≤ g.blocks.length)
    (old : ∀ q, q < f.blocks.length →
      (g.successors q).filter (· = r) = (f.successors q).filter (· = r))
    (new : ∀ q, f.blocks.length ≤ q → q < g.blocks.length → r ∉ g.successors q) :
    g.predecessors r = f.predecessors r := by
  obtain ⟨k, e⟩ := Nat.exists_eq_add_of_le le
  have none : (List.range k).flatMap (fun j => ((g.successors (f.blocks.length + j)).filter
      (· = r)).map fun _ => f.blocks.length + j) = [] := by
    refine List.flatMap_eq_nil_iff.mpr fun j hj => List.map_eq_nil_iff.mpr ?_
    refine List.filter_eq_nil_iff.mpr fun d hd eq => ?_
    have := List.mem_range.mp hj
    exact new _ (Nat.le_add_right _ _) (by omega) (of_decide_eq_true eq ▸ hd)
  rw [Llvm.Function.predecessors, e, List.range_add, List.flatMap_append, List.flatMap_map, none,
    List.append_nil, Llvm.Function.predecessors]
  exact List.flatMap_congr fun q hq => by rw [old q (List.mem_range.mp hq)]

/-- Only edges to `ipd` are sent away, and none is sent to an older block. -/
lemma redirect_eq_iff {ipd s r d : Nat} (ne : s ≠ r) : redirect ipd s d = r ↔ d = r ∧ r ≠ ipd := by
  unfold redirect
  split <;> grind

lemma le_processBranch (faithful : llvm.Faithful named)
    (le : named.blocks.length ≤ f.blocks.length) (b : Nat) :
    f.blocks.length ≤ (processBranch llvm named f b).blocks.length := by
  cases join : llvm.ipdom named b with
  | none => rw [processBranch, join]
  | some ipd => exact (processBranch_spec faithful join le).1

/-- A round leaves an edge, unless it goes to the reconvergence block from a dominated block. -/
lemma mem_successors_processBranch (faithful : llvm.Faithful named)
    (le : named.blocks.length ≤ f.blocks.length) {b q r : Nat} (hq : q < f.blocks.length)
    (hr : r < f.blocks.length) :
    r ∈ (processBranch llvm named f b).successors q ↔ r ∈ f.successors q ∧
      (llvm.ipdom named b = some r → llvm.dominates named b q = false) := by
  cases join : llvm.ipdom named b with
  | none => simp [processBranch, join]
  | some ipd =>
    obtain ⟨-, -, kept⟩ := processBranch_spec faithful join le
    have e := List.getElem?_eq_getElem hq
    obtain ⟨t, e', moved, same⟩ := kept q _ e
    rw [Llvm.Function.successors_of_getElem? e'] at *
    by_cases send : ipd ∈ f.successors q ∧ llvm.dominates named b q = true
    · obtain ⟨s, ge, -, rfl⟩ := moved send.1 send.2
      have ne : s ≠ r := by omega
      simp only [Terminator.successors_mapSuccessors, List.mem_map, redirect_eq_iff ne,
        Llvm.Function.successors_of_getElem? e, send.2, Option.some.injEq]
      grind
    · rw [same send, ← Llvm.Function.successors_of_getElem? e]
      refine ⟨fun h => ⟨h, fun eq => ?_⟩, And.left⟩
      obtain rfl := Option.some.inj eq
      simpa using fun d => send ⟨h, d⟩

/-- All rounds. -/
lemma mem_successors_foldl (faithful : llvm.Faithful named) {q r : Nat} (branches : List Nat)
    (le : named.blocks.length ≤ f.blocks.length) (hq : q < f.blocks.length)
    (hr : r < f.blocks.length) :
    r ∈ (branches.foldl (processBranch llvm named) f).successors q ↔ r ∈ f.successors q ∧
      ∀ b ∈ branches, llvm.ipdom named b = some r → llvm.dominates named b q = false := by
  induction branches generalizing f with
  | nil => simp
  | cons b branches ih =>
    have grows := le_processBranch faithful le b
    rw [List.foldl_cons, ih (le.trans grows) (by omega) (by omega),
      mem_successors_processBranch faithful le hq hr, List.forall_mem_cons, and_assoc]

/-- A round for a branch that dominates no edge into its reconvergence block inserts no block. -/
lemma processBranch_eq_insertSsy (faithful : llvm.Faithful named) {b ipd : Nat}
    (join : llvm.ipdom named b = some ipd)
    (away : ∀ q ∈ f.predecessors ipd, llvm.dominates named b q = false) :
    processBranch llvm named f b = insertSsy f b ipd := by
  have none : (llvm.predecessors (insertSsy f b ipd) ipd).filter (llvm.dominates named b) = [] := by
    refine List.filter_eq_nil_iff.mpr fun q hq => ?_
    rw [(faithful.predecessors _ _).mem_iff, Llvm.Function.mem_predecessors,
      successors_insertSsy, ← Llvm.Function.mem_predecessors] at hq
    rw [away q hq]
    exact Bool.false_ne_true
  simp only [processBranch, join, none, List.foldl_nil]

/-- A round that sends no edge into `r` away leaves the edges into `r` as they are. -/
lemma predecessors_processBranch (faithful : llvm.Faithful named)
    (le : named.blocks.length ≤ f.blocks.length) {b r : Nat} (hr : r < f.blocks.length)
    (away : llvm.ipdom named b = some r →
      ∀ q ∈ f.predecessors r, llvm.dominates named b q = false) :
    (processBranch llvm named f b).predecessors r = f.predecessors r := by
  cases join : llvm.ipdom named b with
  | none => rw [processBranch, join]
  | some ipd =>
    by_cases here : ipd = r
    · subst here
      have size : (insertSsy f b ipd).blocks.length = f.blocks.length := length_modifyBlock ..
      rw [processBranch_eq_insertSsy faithful join (away join)]
      refine predecessors_eq size.ge (fun q _ => by rw [successors_insertSsy]) fun q ge lt => ?_
      omega
    · obtain ⟨grows, created, kept⟩ := processBranch_spec faithful join le
      refine predecessors_eq grows (fun q hq => ?_) fun q ge lt => ?_
      · have e := List.getElem?_eq_getElem hq
        obtain ⟨t, e', moved, same⟩ := kept q _ e
        rw [Llvm.Function.successors_of_getElem? e', Llvm.Function.successors_of_getElem? e]
        by_cases send : ipd ∈ f.successors q ∧ llvm.dominates named b q = true
        · -- the sent edges went to another block before and go to a new one now
          obtain ⟨s, ge, -, rfl⟩ := moved send.1 send.2
          have ne : s ≠ r := by omega
          have fixed : ∀ d, decide (redirect ipd s d = r) = decide (d = r) := fun d => by
            simp [redirect_eq_iff ne, Ne.symm here]
          rw [Terminator.successors_mapSuccessors, List.filter_map]
          simp only [Function.comp_def, fixed]
          conv_rhs => rw [← List.map_id (List.filter _ _)]
          refine List.map_congr_left fun d hd => ?_
          obtain rfl := of_decide_eq_true (List.mem_filter.mp hd).2
          exact if_neg (Ne.symm here)
        · rw [same send]
      · obtain ⟨name, id, e⟩ := created q ge lt
        rw [Llvm.Function.successors_of_getElem? e]
        simpa [syncBlock, Terminator.successors] using Ne.symm here

/-- All rounds. -/
lemma predecessors_foldl (faithful : llvm.Faithful named) {r : Nat} (branches : List Nat)
    (le : named.blocks.length ≤ f.blocks.length) (hr : r < f.blocks.length)
    (away : ∀ b ∈ branches, llvm.ipdom named b = some r →
      ∀ q ∈ f.predecessors r, llvm.dominates named b q = false) :
    (branches.foldl (processBranch llvm named) f).predecessors r = f.predecessors r := by
  induction branches generalizing f with
  | nil => rfl
  | cons b branches ih =>
    obtain ⟨hb, away⟩ := List.forall_mem_cons.mp away
    have grows := le_processBranch faithful le b
    have same := predecessors_processBranch faithful le hr hb
    rw [List.foldl_cons, ih (le.trans grows) (by omega) (by rwa [same]), same]

/-! ## The pass -/

/-- An edge is left if no branch that dominates its source joins at its target. -/
lemma mem_successors_runDivergencePass (faithful : llvm.Faithful (nameBlocks llvm f)) {q r : Nat}
    (hq : q < f.blocks.length) (hr : r < f.blocks.length) :
    r ∈ (runDivergencePass llvm f).successors q ↔ r ∈ f.successors q ∧
      ∀ b ∈ condBranches f, llvm.ipdom (nameBlocks llvm f) b = some r →
        llvm.dominates (nameBlocks llvm f) b q = false := by
  have renamed := nameBlocks_spec llvm f
  rw [runDivergencePass, if_neg (by cases e : f.blocks <;> simp_all [Llvm.Function.isDeclaration]),
    mem_successors_foldl faithful _ (Nat.le_refl _) (renamed.1 ▸ hq) (renamed.1 ▸ hr),
    renamed.successors, renamed.condBranches]

/-- No edge into `r` is sent away. -/
lemma predecessors_runDivergencePass (faithful : llvm.Faithful (nameBlocks llvm f)) {r : Nat}
    (hr : r < f.blocks.length)
    (away : ∀ b ∈ condBranches f, llvm.ipdom (nameBlocks llvm f) b = some r →
      ∀ q ∈ f.predecessors r, llvm.dominates (nameBlocks llvm f) b q = false) :
    (runDivergencePass llvm f).predecessors r = f.predecessors r := by
  have renamed := nameBlocks_spec llvm f
  rw [runDivergencePass, if_neg (by cases e : f.blocks <;> simp_all [Llvm.Function.isDeclaration]),
    predecessors_foldl faithful _ (Nat.le_refl _) (renamed.1 ▸ hr), renamed.predecessors]
  rwa [renamed.condBranches, renamed.predecessors]

/-- The pass calls inline assembly and inserts nothing else. -/
lemma not_phi_of_ssyOperations {branches : List Nat} {b : Nat} {calls : List Llvm.Instruction}
    (ops : calls.map Llvm.Instruction.operation = ssyOperations llvm named branches b)
    {id incoming} : ⟨id, .phi incoming⟩ ∉ calls := by
  intro h
  have mem := List.mem_map_of_mem h (f := Llvm.Instruction.operation)
  rw [ops] at mem
  unfold ssyOperations at mem
  split at mem
  · split at mem <;> simp [asmOperation] at mem
  · cases mem

/-- The pass leaves the phis as they were, and creates none. -/
lemma hasPhi_runDivergencePass (closed : f.Closed) (faithful : llvm.Faithful (nameBlocks llvm f))
    {b id : Nat} {incoming : List (Llvm.Value × Nat)} :
    HasPhi (runDivergencePass llvm f) b id incoming ↔ HasPhi f b id incoming := by
  by_cases lt : b < f.blocks.length
  · have e := List.getElem?_eq_getElem lt
    obtain ⟨name, calls, h, e', ops, -⟩ := runDivergencePass_original closed faithful e
    simp [HasPhi, e, e', not_phi_of_ssyOperations ops]
  · refine iff_of_false ?_ fun h => lt h.lt
    rintro ⟨bb, e, mem⟩
    obtain ⟨name, id, dest, rfl⟩ :=
      (runDivergencePass_contracts closed faithful).created b bb (Nat.le_of_not_lt lt) e
    simp [syncBlock, asmOperation] at mem

/-- The phis are consistent after the pass just when no conditional branch dominates an edge into
its reconvergence block if that has a phi. -/
theorem runDivergencePass_phisKept_iff (closed : f.Closed)
    (faithful : llvm.Faithful (nameBlocks llvm f)) (consistent : PhisConsistent f) :
    PhisKept f (runDivergencePass llvm f) ↔
      ∀ r id incoming, HasPhi f r id incoming → ∀ b ∈ condBranches f,
        llvm.ipdom (nameBlocks llvm f) b = some r → ∀ q ∈ f.predecessors r,
          llvm.dominates (nameBlocks llvm f) b q = false := by
  constructor
  · intro kept r id incoming phi b hb join q hq
    have before := consistent r id incoming phi
    have after := kept.consistent r id incoming ((hasPhi_runDivergencePass closed faithful).mpr phi)
    -- the phi still names `q`, so the edge of `q` has to be there
    have still := (after.symm.trans before).mem_iff.mpr hq
    rw [Llvm.Function.mem_predecessors] at still hq
    obtain ⟨bb, e, -⟩ := Llvm.Function.exists_of_mem_successors hq
    have lt := (List.getElem?_eq_some_iff.mp e).1
    exact ((mem_successors_runDivergencePass faithful lt phi.lt).mp still).2 b hb join
  · intro away
    refine ⟨fun r id incoming phi => ?_, fun r id incoming phi => ?_⟩
    · rw [hasPhi_runDivergencePass closed faithful] at phi
      rw [predecessors_runDivergencePass faithful phi.lt (away r id incoming phi)]
      exact consistent r id incoming phi
    · refine ⟨incoming, (hasPhi_runDivergencePass closed faithful).mpr phi, fun v q mem => ?_⟩
      refine ⟨q, .direct ?_, mem⟩
      have named := (consistent r id incoming phi).mem_iff.mp (List.mem_map_of_mem mem)
      rwa [← predecessors_runDivergencePass faithful phi.lt (away r id incoming phi),
        Llvm.Function.mem_predecessors] at named

/-- A loop that runs its body once at least; the edge out of it is sent away, and its phi is not
there. -/
def doWhile : Llvm.Function where
  args := [{ name := "x".toList, ty := .int 32 }, { name := "c".toList, ty := .int 1 }]
  blocks :=
    [{ name := "entry".toList, body := [], terminator := .br 1 },
     { name := "loop".toList, body := [⟨0, .phi [(.argument 0, 0), (.instruction 0, 1)]⟩],
       terminator := .condBr (.argument 1) 1 2 },
     { name := "end".toList, body := [], terminator := .ret none }]

/-- What LLVM computes for `doWhile`. -/
def doWhileAnalyses : Analyses where
  ipdom := fun _ b => if b < 2 then some (b + 1) else none
  dominates := fun _ a b => decide (a ≤ b)
  predecessors := Llvm.Function.predecessors
  uniqueName := suffixed

lemma doWhile_faithful : doWhileAnalyses.Faithful (nameBlocks doWhileAnalyses doWhile) := by
  refine ⟨fun {b ipd} join => ?_, fun _ _ => .refl _⟩
  have len : (nameBlocks doWhileAnalyses doWhile).blocks.length = 3 := rfl
  simp only [doWhileAnalyses, Option.ite_none_right_eq_some, Option.some.injEq] at join
  omega

/-- The phi of the loop is kept. -/
theorem runDivergencePass_phisKept_doWhile :
    PhisKept doWhile (runDivergencePass doWhileAnalyses doWhile) := by
  have phis : ∀ {r id incoming}, HasPhi doWhile r id incoming →
      r = 1 ∧ incoming = [(.argument 0, 0), (.instruction 0, 1)] := by
    rintro r id incoming ⟨bb, e, mem⟩
    have lt : r < 3 := (List.getElem?_eq_some_iff.mp e).1
    interval_cases r <;> cases e <;> simp_all
  refine (runDivergencePass_phisKept_iff (by decide) doWhile_faithful
    fun r id incoming phi => ?_).mpr fun r id incoming phi b hb join => ?_
  · obtain ⟨rfl, rfl⟩ := phis phi
    decide
  · obtain ⟨rfl, rfl⟩ := phis phi
    have only : condBranches doWhile = [1] := by decide
    rw [only, List.mem_singleton] at hb
    subst hb
    exact absurd join (by decide)

/-! ## An `if` whose join has a phi -/

/-- An `if` without `else`, with a phi where it ends. -/
def ifThenPhi : Llvm.Function where
  args := [{ name := "c".toList, ty := .int 1 }, { name := "x".toList, ty := .int 32 },
    { name := "y".toList, ty := .int 32 }]
  blocks :=
    [{ name := "entry".toList, body := [], terminator := .condBr (.argument 0) 1 2 },
     { name := "then".toList, body := [], terminator := .br 2 },
     { name := "end".toList, body := [⟨0, .phi [(.argument 1, 0), (.argument 2, 1)]⟩],
       terminator := .ret none }]

/-- After the pass the phi still names the two blocks whose edges were sent to created blocks. -/
theorem runDivergencePass_phisLost :
    ¬ ∀ (llvm : Analyses) (f : Llvm.Function) (exit : Nat → Prop), f.Verified →
      llvm.Faithful (nameBlocks llvm f) → DominatorsCorrect llvm (nameBlocks llvm f) →
      PostDominatorsCorrect llvm (nameBlocks llvm f) exit → PhisConsistent f →
      PhisKept f (runDivergencePass llvm f) := by
  intro h
  have named : nameBlocks ifThenAnalyses ifThenPhi = ifThenPhi := rfl
  have one : OneExit ifThenPhi 2 := ⟨by decide, by decide, by decide⟩
  have consistent : PhisConsistent ifThenPhi := by
    rintro r id incoming ⟨bb, e, mem⟩
    have lt : r < 3 := (List.getElem?_eq_some_iff.mp e).1
    interval_cases r <;> cases e <;> simp at mem
    obtain ⟨rfl, rfl⟩ := mem
    decide
  have kept := h ifThenAnalyses ifThenPhi (· = 2) ⟨by decide, by decide⟩
    (named ▸ one.faithful (fun _ => rfl) fun _ _ => .refl _)
    (named ▸ ifThen_dominators rfl (by decide) (by decide) (by decide))
    (named ▸ one.correct fun _ => rfl) consistent
  have phi : HasPhi (runDivergencePass ifThenAnalyses ifThenPhi) 2 0
      [(.argument 1, 0), (.argument 2, 1)] := ⟨_, rfl, by decide⟩
  exact absurd (kept.consistent _ _ _ phi) (by decide)

end FpgaGpu

import FpgaGpu.Divergence.Stack

/-!
# Balance of the SIMT stack

On runs along structured edges the stack of the result of the pass is balanced. Where two branches
share their reconvergence block and the outer one comes first, it is not.
-/

namespace FpgaGpu

open Llvm (BasicBlock Terminator)
open Relation (ReflTransGen)
open Graph

variable {llvm : Analyses} {f : Llvm.Function} {exit : Nat → Prop}

/-! ## Runs of the result -/

/-- A structured edge of the original function, on the result of the pass. Edges of created blocks
are not choices. -/
def StructuredEdge (llvm : Analyses) (f : Llvm.Function) (q c : Nat) : Prop :=
  q < f.blocks.length →
    Structured llvm (nameBlocks llvm f) q (contract (runDivergencePass llvm f) f.blocks.length c)

/-- The stack when control arrives at any block: what the created blocks ahead pop, and below it
what is pending at the original block behind them, which the entry leads to. -/
def Arrived (llvm : Analyses) (f : Llvm.Function) (s : Arrival) : Prop :=
  ∃ d r top rest, Chain (runDivergencePass llvm f) f.blocks.length d s.block r ∧
    ReflTransGen (Edge (nameBlocks llvm f)) 0 r ∧
    s.warp.stack = top ++ rest ∧ top.length = d ∧ Settled llvm (nameBlocks llvm f) r rest

section Runs

variable (closed : f.Closed) (faithful : llvm.Faithful (nameBlocks llvm f))
  (quiet : ∀ bb ∈ f.blocks, ∀ i ∈ bb.body, stackEffect i.operation = .none)
include closed faithful quiet

/-- An original block runs, and leaves the branches in whose regions it lies on the stack. -/
lemma Arrived.exec_original {b : Nat} {bb' : BasicBlock} {w : Warp}
    (lt : b < f.blocks.length) (reached : ReflTransGen (Edge (nameBlocks llvm f)) 0 b)
    (e : (runDivergencePass llvm f).blocks[b]? = some bb')
    (settled : Settled llvm (nameBlocks llvm f) b w.stack) :
    ∃ w', execBody b bb'.body w = some w' ∧
      Pending llvm (nameBlocks llvm f) (Region llvm (nameBlocks llvm f) · b) w'.stack ∧
      (b ∈ condBranches (nameBlocks llvm f) → ∀ j, llvm.ipdom (nameBlocks llvm f) b = some j →
        w' = w.push b) := by
  have here := List.getElem?_eq_getElem lt
  obtain ⟨name, calls, h, e', ops, -⟩ := runDivergencePass_original closed faithful here
  have body : bb'.body = f.blocks[b].body ++ calls := by rw [Option.some.inj (e.symm.trans e')]
  obtain ⟨pushes, idle⟩ :=
    execBody_original (quiet _ (List.mem_of_getElem? here)) body ops w
  by_cases branch : b ∈ condBranches (nameBlocks llvm f) ∧
      ∃ j, llvm.ipdom (nameBlocks llvm f) b = some j
  · obtain ⟨mem, j, join⟩ := branch
    exact ⟨w.push b, pushes mem j join, settled.push mem reached join, fun _ _ _ => rfl⟩
  · exact ⟨w, idle branch, settled.noPush branch, fun mem j join => absurd ⟨mem, j, join⟩ branch⟩

/-- A block that control arrives at does not pop an empty stack. -/
lemma Arrived.exec {s : Arrival} {bb' : BasicBlock} (arrived : Arrived llvm f s)
    (e : (runDivergencePass llvm f).blocks[s.block]? = some bb') :
    ∃ w', execBody s.block bb'.body s.warp = some w' := by
  obtain ⟨d, r, top, rest, chain, reached, stack, len, settled⟩ := arrived
  cases d with
  | zero =>
    obtain ⟨rfl, lt⟩ := chain
    obtain rfl := List.length_eq_zero_iff.mp len
    rw [List.nil_append] at stack
    obtain ⟨w', run, -⟩ := exec_original closed faithful quiet lt reached e (stack ▸ settled)
    exact ⟨w', run⟩
  | succ d =>
    obtain ⟨name, id, dest, rfl⟩ :=
      (runDivergencePass_contracts closed faithful).created _ _ chain.1 e
    obtain ⟨p, top, rfl⟩ := List.exists_cons_of_length_eq_add_one len
    rw [execBody_syncBlock, stack]
    exact ⟨_, rfl⟩

/-- One step of a run. -/
lemma Arrived.step (unknown : llvm.TrueOfUnknown (nameBlocks llvm f))
    (correct : PostDominatorsCorrect llvm (nameBlocks llvm f) exit) {s t : Arrival}
    (arrived : Arrived llvm f s)
    (step : Step (runDivergencePass llvm f) (StructuredEdge llvm f) s t) : Arrived llvm f t := by
  obtain ⟨bb', e, run, succ, ok⟩ := step
  obtain ⟨d, r, top, rest, chain, reached, stack, len, settled⟩ := arrived
  cases d with
  | zero =>
    obtain ⟨rfl, lt⟩ := chain
    obtain rfl := List.length_eq_zero_iff.mp len
    rw [List.nil_append] at stack
    obtain ⟨w', run', pending, -⟩ :=
      exec_original closed faithful quiet lt reached e (stack ▸ settled)
    obtain rfl : t.warp = w' := Option.some.inj (run.symm.trans run')
    -- the slot leads through a chain to an original successor
    obtain ⟨size, names⟩ := nameBlocks_spec llvm f
    obtain ⟨name, here, -⟩ := names _ _ (List.getElem?_eq_getElem lt)
    obtain ⟨_, calls, h, e', -, edges⟩ :=
      runDivergencePass_original closed faithful (List.getElem?_eq_getElem lt)
    obtain rfl := Option.some.inj (e.symm.trans e')
    rw [Terminator.successors_mapSuccessors] at succ
    obtain ⟨r, hr, slot⟩ := List.mem_map.mp succ
    have shape := runDivergencePass_shape closed faithful
    have contracted := shape.contract_eq (edges r hr)
    obtain ⟨d, chain, count⟩ := edges r hr
    rw [size] at chain contracted
    have edge : r ∈ (nameBlocks llvm f).successors s.block := by
      rw [Llvm.Function.successors_of_getElem? here]
      exact hr
    have structured := ok lt
    rw [← slot, contracted] at structured
    obtain ⟨top, rest, cut, popped, settled'⟩ :=
      pending.pop correct edge (size ▸ chain.lt) structured
    exact ⟨d, r, top, rest, slot ▸ chain, reached.tail edge, cut, popped.trans (count unknown).symm,
      settled'⟩
  | succ d =>
    obtain ⟨name, id, dest, rfl⟩ :=
      (runDivergencePass_contracts closed faithful).created _ _ chain.1 e
    obtain ⟨p, top, rfl⟩ := List.exists_cons_of_length_eq_add_one len
    rw [execBody_syncBlock, stack] at run
    obtain ⟨-, bb, k, e', term, chain⟩ := chain
    obtain rfl := Option.some.inj (e.symm.trans e')
    obtain rfl : dest = k := Terminator.br.inj term
    obtain rfl : t.block = dest := by simpa [syncBlock, Terminator.successors] using succ
    refine ⟨d, r, top, rest, chain, reached, ?_, by simpa using len, settled⟩
    rw [← Option.some.inj run]
    rfl

/-- Control arrives only as `Arrived` says. -/
lemma Arrived.runs (unknown : llvm.TrueOfUnknown (nameBlocks llvm f))
    (correct : PostDominatorsCorrect llvm (nameBlocks llvm f) exit) {s t : Arrival}
    (arrived : Arrived llvm f s)
    (run : Runs (runDivergencePass llvm f) (StructuredEdge llvm f) s t) : Arrived llvm f t := by
  induction run with
  | refl => exact arrived
  | tail _ last ih => exact ih.step closed faithful quiet unknown correct last

end Runs

/-- Only an original block ends in anything but an unconditional branch. -/
lemma Arrived.original (closed : f.Closed) (faithful : llvm.Faithful (nameBlocks llvm f))
    {s : Arrival} {bb' : BasicBlock} (arrived : Arrived llvm f s)
    (e : (runDivergencePass llvm f).blocks[s.block]? = some bb')
    (noBr : ∀ dest, bb'.terminator ≠ .br dest) :
    s.block < f.blocks.length ∧ ReflTransGen (Edge (nameBlocks llvm f)) 0 s.block ∧
      Settled llvm (nameBlocks llvm f) s.block s.warp.stack ∧
        ∃ bb h, (nameBlocks llvm f).blocks[s.block]? = some bb ∧
        bb'.terminator = bb.terminator.mapSuccessors h := by
  obtain ⟨d, r, top, rest, chain, reached, stack, len, settled⟩ := arrived
  cases d with
  | zero =>
    obtain ⟨rfl, lt⟩ := chain
    obtain rfl := List.length_eq_zero_iff.mp len
    refine ⟨lt, reached, stack ▸ settled, ?_⟩
    rw [← (nameBlocks_spec llvm f).1] at lt
    have here := List.getElem?_eq_getElem lt
    obtain ⟨calls, h, e', -⟩ := (runDivergencePass_shape closed faithful).original _ _ here
    exact ⟨_, h, here, by rw [Option.some.inj (e.symm.trans e')]⟩
  | succ d =>
    obtain ⟨name, id, dest, rfl⟩ :=
      (runDivergencePass_contracts closed faithful).created _ _ chain.1 e
    exact absurd rfl (noBr dest)

/-- What the operations keep, a run keeps. -/
lemma runs_invariant {g : Llvm.Function} {ok : Nat → Nat → Prop} {P : Warp → Prop}
    (keep : ∀ {b op w w'}, P w → execOperation b op w = some w' → P w') {s t : Arrival}
    (h : P s.warp) (run : Runs g ok s t) : P t.warp := by
  induction run with
  | refl => exact h
  | tail _ last ih =>
    obtain ⟨bb, -, run, -⟩ := last
    exact execBody_invariant keep ih run

/-- Control arrives at the entry with nothing pending: no edge leads there. -/
lemma settled_entry (verified : f.Verified) : Settled llvm (nameBlocks llvm f) 0 [] := by
  refine ⟨List.nodup_nil, fun b => ⟨fun h => absurd h List.not_mem_nil, ?_⟩, .nil⟩
  rintro ⟨⟨-, -, j, -, path⟩, ne⟩
  exfalso
  cases path with
  | refl => exact ne rfl
  | @tail x _ _ last =>
    obtain ⟨size, names⟩ := nameBlocks_spec llvm f
    obtain ⟨bb, e, mem⟩ := Llvm.Function.exists_of_mem_successors last.1
    have lt := size ▸ (List.getElem?_eq_some_iff.mp e).1
    obtain ⟨name, e', -⟩ := names x _ (List.getElem?_eq_getElem lt)
    obtain rfl := Option.some.inj (e.symm.trans e')
    exact verified.entry _ (List.getElem_mem lt) mem

/-- A function without blocks does not run. -/
lemma balanced_of_empty {g : Llvm.Function} (empty : g.blocks = []) (ipdom : Nat → Option Nat)
    (ok : Nat → Nat → Prop) : Balanced g ipdom ok := by
  have still : ∀ {s}, Runs g ok .entry s → s = .entry := by
    intro s run
    induction run with
    | refl => rfl
    | tail _ last ih =>
      obtain ⟨bb, e, -⟩ := last
      simp [empty] at e
  refine ⟨fun s bb _ e => ?_, fun s t hs ht _ => ?_, fun s t bb j _ e => ?_,
    fun s bb v w _ e => ?_⟩
  · simp [empty] at e
  · rw [still hs, still ht]
  · simp [empty] at e
  · simp [empty] at e

/-- At a return nothing is pending. -/
lemma Pending.eq_nil_of_exit (correct : PostDominatorsCorrect llvm f exit) {b : Nat}
    {stack : List Push} (pending : Pending llvm f (Region llvm f · b) stack) (he : exit b) :
    stack = [] := by
  cases stack with
  | nil => rfl
  | cons p rest =>
    obtain ⟨-, -, j, join, path⟩ := (pending.mem p.branch).mp List.mem_cons_self
    have ipd := correct.ipdom_some join
    exact absurd path (ipd.postDominates.not_exit (Ne.symm ipd.ne) he)

/-- A serial number that is not on the stack was popped once. -/
lemma Accounted.count_popped {w : Warp} (accounted : Accounted w) {k : Nat} (lt : k < w.pushed)
    (off : ∀ p ∈ w.stack, p.serial ≠ k) : w.popped.count k = 1 := by
  have once : (List.range w.pushed).count k = 1 :=
    List.count_eq_one_of_mem List.nodup_range (List.mem_range.mpr lt)
  have none : (w.stack.map Push.serial).count k = 0 := by
    refine List.count_eq_zero.mpr fun mem => ?_
    obtain ⟨p, hp, e⟩ := List.mem_map.mp mem
    exact off p hp e
  have total := accounted.count_eq k
  rw [List.count_append, none, once, Nat.zero_add] at total
  exact total

/-- The `SSY` that a branch is about to execute gets the next serial number. -/
lemma Accounted.pushedBy {w : Warp} (accounted : Accounted w) (b : Nat) :
    PushedBy b w.pushed (w.push b) := by
  refine ⟨Nat.lt_succ_self _, fun p hp serial => ?_⟩
  obtain rfl | hp := List.mem_cons.mp hp
  · rfl
  · have old := accounted.mem_iff.mp (List.mem_append_left _ (List.mem_map_of_mem hp))
    exact absurd (List.mem_range.mp old) (serial ▸ Nat.lt_irrefl _)

/-- On runs along structured edges the stack is balanced. -/
theorem runDivergencePass_balanced (verified : f.Verified)
    (faithful : llvm.Faithful (nameBlocks llvm f))
    (unknown : llvm.TrueOfUnknown (nameBlocks llvm f))
    (correct : PostDominatorsCorrect llvm (nameBlocks llvm f) exit)
    (quiet : ∀ bb ∈ f.blocks, ∀ i ∈ bb.body, stackEffect i.operation = .none) :
    Balanced (runDivergencePass llvm f) (llvm.ipdom (nameBlocks llvm f))
      (StructuredEdge llvm f) := by
  have closed := verified.closed
  obtain empty | nonempty := Nat.eq_zero_or_pos f.blocks.length
  · have none : f.blocks = [] := List.length_eq_zero_iff.mp empty
    have same : runDivergencePass llvm f = f := by
      simp [runDivergencePass, Llvm.Function.isDeclaration, none]
    exact balanced_of_empty (by rw [same, none]) _ _
  have arrived : ∀ {s}, Runs (runDivergencePass llvm f) (StructuredEdge llvm f) .entry s →
      Arrived llvm f s := fun run =>
    Arrived.runs closed faithful quiet unknown correct
      ⟨0, 0, [], [], ⟨rfl, nonempty⟩, .refl, rfl, rfl, settled_entry verified⟩ run
  have size := (nameBlocks_spec llvm f).1
  refine ⟨fun s bb run e => ?_, fun s t hs ht same => ?_,
    fun s t bb j hs e branch join run at_j => ?_, fun s bb v w hs e ret run => ?_⟩
  · obtain ⟨w, exec⟩ := (arrived run).exec closed faithful quiet e
    rw [exec]
    rfl
  · obtain ⟨d, r, top, rest, chain, -, stack, len, settled⟩ := arrived hs
    obtain ⟨d', r', top', rest', chain', -, stack', len', settled'⟩ := arrived ht
    obtain ⟨rfl, rfl⟩ := (same ▸ chain).unique chain'
    rw [stack, stack', List.length_append, List.length_append, len, len',
      settled.length_eq settled']
  · have ipd := correct.ipdom_some join
    obtain ⟨lt, reached, settled, bb₀, h, e₀, term⟩ := (arrived hs).original closed faithful e
      (fun dest h => by rw [h] at branch; cases branch)
    have start : Accounted Arrival.entry.warp := .refl _
    have accounted : Accounted s.warp := runs_invariant execOperation_accounted start hs
    -- the first step executes the `SSY`
    obtain rfl | ⟨m, first, rest⟩ := ReflTransGen.cases_head run
    · exact absurd at_j.symm ipd.ne
    obtain ⟨bb', e', exec, -⟩ := first
    obtain ⟨w', exec', -, pushes⟩ :=
      Arrived.exec_original closed faithful quiet lt reached e' settled
    have isBranch : s.block ∈ condBranches (nameBlocks llvm f) := by
      refine ((condBranches_spec _).2 _).mpr ⟨bb₀, e₀, ?_⟩
      rwa [term, Terminator.isCondBr_mapSuccessors] at branch
    have pushed : PushedBy s.block s.warp.pushed m.warp := by
      rw [Option.some.inj (exec.symm.trans exec'), pushes isBranch j join]
      exact accounted.pushedBy _
    obtain ⟨lt', owner⟩ := runs_invariant execOperation_pushedBy pushed rest
    -- nothing of the branch is left at its reconvergence block
    have accounted' : Accounted t.warp := runs_invariant execOperation_accounted accounted run
    refine accounted'.count_popped lt' fun p hp serial => ?_
    obtain ⟨d, r, top, rest, chain, -, stack, len, settled'⟩ := arrived (hs.trans run)
    have direct : Chain (runDivergencePass llvm f) f.blocks.length 0 t.block j :=
      ⟨at_j, size ▸ faithful.ipdom_lt join⟩
    obtain ⟨rfl, rfl⟩ := chain.unique direct
    obtain rfl := List.length_eq_zero_iff.mp len
    rw [stack] at hp
    obtain ⟨⟨-, -, j', join', path⟩, -⟩ := (settled'.mem p.branch).mp (List.mem_map_of_mem hp)
    rw [owner p (stack ▸ hp) serial] at join' path
    obtain rfl : r = j' := Option.some.inj (join.symm.trans join')
    exact path.ne (Ne.symm ipd.ne) rfl
  · obtain ⟨lt, reached, settled, bb₀, h, e₀, term⟩ := (arrived hs).original closed faithful e
      (fun dest h => by rw [h] at ret; cases ret)
    obtain ⟨w', run', pending, -⟩ :=
      Arrived.exec_original closed faithful quiet lt reached e settled
    obtain rfl := Option.some.inj (run.symm.trans run')
    refine pending.eq_nil_of_exit correct (correct.exit_of_successors _ (size.symm ▸ lt) ?_)
    have none : (bb₀.terminator.mapSuccessors h).successors = [] := by rw [← term, ret]; rfl
    rw [Terminator.successors_mapSuccessors, List.map_eq_nil_iff] at none
    rw [Llvm.Function.successors_of_getElem? e₀, none]

/-! ## Functions with one exit, which every block can go to -/

/-- Every block but `x` has an edge to `x`, and `x` is the only exit. -/
structure OneExit (f : Llvm.Function) (x : Nat) : Prop where
  lt : x < f.blocks.length
  exit : f.successors x = []
  direct : ∀ b, b < f.blocks.length → b ≠ x → x ∈ f.successors b

/-- There the exit is the reconvergence block of every other block. -/
lemma OneExit.correct {x : Nat} (one : OneExit f x)
    (ipdom : ∀ b, llvm.ipdom f b = if b < f.blocks.length ∧ b ≠ x then some x else none) :
    PostDominatorsCorrect llvm f (· = x) := by
  have post : ∀ b, b ≠ x → PostDominates (Edge f) (· = x) x b := fun b ne =>
    .inr fun e he path => path.ne ne he
  have only : ∀ b, b < f.blocks.length → b ≠ x → ∀ k, k ≠ b →
      PostDominates (Edge f) (· = x) k b → k = x := by
    intro b lt ne k hk h
    by_contra off
    obtain e | h := h
    · exact hk e
    · exact h x rfl (Avoids.refl.tail (one.direct b lt ne) (Ne.symm off))
  refine ⟨fun b lt none => ?_, fun b lt => ⟨x, rfl, ?_⟩, fun {b j} join => ?_,
    fun b lt none k hk h => ?_⟩
  · by_contra ne
    have := one.direct b lt ne
    rw [none] at this
    cases this
  · by_cases e : b = x
    · exact e ▸ .refl
    · exact .single (one.direct b lt e)
  · rw [ipdom] at join
    split at join
    · next h =>
      obtain rfl := Option.some.inj join
      exact ⟨Ne.symm h.2, post b h.2, fun k hk pd => .inl (only b h.1 h.2 k hk pd)⟩
    · cases join
  · rw [ipdom] at none
    obtain e | paths := h
    · exact hk e
    · by_cases e : b = x
      · exact paths b e .refl
      · simp [lt, e] at none

/-- Those reconvergence blocks are blocks of the function. -/
lemma OneExit.faithful {x : Nat} (one : OneExit f x)
    (ipdom : ∀ b, llvm.ipdom f b = if b < f.blocks.length ∧ b ≠ x then some x else none)
    (preds : ∀ g b, (llvm.predecessors g b).Perm (g.predecessors b)) : llvm.Faithful f := by
  refine ⟨fun {b ipd} join => ?_, preds⟩
  rw [ipdom] at join
  split at join
  · exact Option.some.inj join ▸ one.lt
  · cases join

/-- An `if` without `else`. -/
def ifThen : Llvm.Function where
  args := []
  blocks :=
    [{ name := "entry".toList, body := [], terminator := .condBr (.argument 0) 1 2 },
     { name := "then".toList, body := [], terminator := .br 2 },
     { name := "end".toList, body := [], terminator := .ret none }]

/-- What LLVM computes for `ifThen`. -/
def ifThenAnalyses : Analyses where
  ipdom := fun _ b => if b < 3 ∧ b ≠ 2 then some 2 else none
  dominates := fun _ a b => decide (a = 0 ∨ a = b ∨ 3 ≤ b)
  predecessors := Llvm.Function.predecessors
  uniqueName := suffixed

/-- The dominators of an `if` without `else`. -/
lemma ifThen_dominators {f : Llvm.Function} (three : f.blocks.length = 3) (closed : f.Closed)
    (e01 : Edge f 0 1) (e02 : Edge f 0 2) : DominatorsCorrect ifThenAnalyses f := by
  refine ⟨fun a b lt reached => ?_, fun b c ge => decide_eq_true (.inr (.inr (three ▸ ge)))⟩
  have inside : b < 3 := by
    cases reached with
    | refl => decide
    | tail _ last =>
      obtain ⟨bb, e, mem⟩ := Llvm.Function.exists_of_mem_successors last
      exact three ▸ closed bb (List.mem_of_getElem? e) _ mem
  simp only [ifThenAnalyses, decide_eq_true_eq, Dominates]
  constructor
  · rintro (entry | self | far)
    · exact .inl entry
    · by_cases entry : a = 0
      · exact .inl entry
      · exact .inr fun path => path.ne (Ne.symm entry) self.symm
    · omega
  · rintro (entry | off)
    · exact .inl entry
    · by_contra no
      have cases : b = 0 ∨ (b = 1 ∧ 1 ≠ a) ∨ (b = 2 ∧ 2 ≠ a) := by omega
      obtain rfl | ⟨rfl, ne⟩ | ⟨rfl, ne⟩ := cases
      · exact off .refl
      · exact off (Avoids.refl.tail e01 ne)
      · exact off (Avoids.refl.tail e02 ne)

/-- The stack is balanced for an `if` without `else`. -/
theorem runDivergencePass_balanced_ifThen :
    Balanced (runDivergencePass ifThenAnalyses ifThen)
      (ifThenAnalyses.ipdom (nameBlocks ifThenAnalyses ifThen))
      (StructuredEdge ifThenAnalyses ifThen) := by
  have named : nameBlocks ifThenAnalyses ifThen = ifThen := rfl
  have one : OneExit ifThen 2 := ⟨by decide, by decide, by decide⟩
  exact runDivergencePass_balanced ⟨by decide, by decide⟩
    (named ▸ one.faithful (fun _ => rfl) fun _ _ => .refl _)
    (fun b c ge => decide_eq_true (.inr (.inr ge))) (named ▸ one.correct fun _ => rfl) (by decide)

/-! ## A join of two branches -/

/-- Two branches with one reconvergence block, the outer one before the inner one. -/
def sharedJoin : Llvm.Function where
  args := []
  blocks :=
    [{ name := "entry".toList, body := [], terminator := .condBr (.argument 0) 1 3 },
     { name := "inner".toList, body := [], terminator := .condBr (.argument 1) 2 3 },
     { name := "then".toList, body := [], terminator := .br 3 },
     { name := "join".toList, body := [], terminator := .ret none }]

/-- What LLVM computes for `sharedJoin`. -/
def sharedJoinAnalyses : Analyses where
  ipdom := fun _ b => if b < 4 ∧ b ≠ 3 then some 3 else none
  dominates := fun _ a b => decide (a = 0 ∨ a = b ∨ a = 1 ∧ b = 2 ∨ 4 ≤ b)
  predecessors := Llvm.Function.predecessors
  uniqueName := suffixed

/-- The dominators of the shared join. -/
lemma sharedJoin_dominators : DominatorsCorrect sharedJoinAnalyses sharedJoin := by
  have edge : ∀ {x y}, Edge sharedJoin x y → (x = 0 ∧ (y = 1 ∨ y = 3)) ∨
      (x = 1 ∧ (y = 2 ∨ y = 3)) ∨ (x = 2 ∧ y = 3) := by
    intro x y h
    obtain ⟨bb, e, mem⟩ := Llvm.Function.exists_of_mem_successors h
    have lt : x < 4 := (List.getElem?_eq_some_iff.mp e).1
    have all : ∀ x < 4, ∀ y ∈ sharedJoin.successors x, (x = 0 ∧ (y = 1 ∨ y = 3)) ∨
        (x = 1 ∧ (y = 2 ∨ y = 3)) ∨ (x = 2 ∧ y = 3) := by decide
    exact all x lt y h
  have e01 : Edge sharedJoin 0 1 := by decide
  have e03 : Edge sharedJoin 0 3 := by decide
  have e12 : Edge sharedJoin 1 2 := by decide
  refine ⟨fun a b lt reached => ?_, fun b c ge => decide_eq_true (.inr (.inr (.inr ge)))⟩
  have inside : b < 4 := by
    cases reached with
    | refl => decide
    | tail _ last => have := edge last; omega
  simp only [sharedJoinAnalyses, decide_eq_true_eq, Dominates]
  constructor
  · rintro (entry | self | ⟨rfl, rfl⟩ | far)
    · exact .inl entry
    · by_cases entry : a = 0
      · exact .inl entry
      · exact .inr fun path => path.ne (Ne.symm entry) self.symm
    · -- the block `2` is reached through the block `1` only
      refine .inr fun path => ?_
      have := path.mem_of_closed (S := fun x => x = 0 ∨ x = 3) (.inl rfl) fun x y hx hxy ne => by
        have := edge hxy
        omega
      omega
    · omega
  · rintro (entry | off)
    · exact .inl entry
    · by_contra no
      have cases : b = 0 ∨ (b = 1 ∧ a ≠ 1) ∨ (b = 3 ∧ a ≠ 3) ∨ (b = 2 ∧ a ≠ 1 ∧ a ≠ 2) := by omega
      obtain rfl | ⟨rfl, ne⟩ | ⟨rfl, ne⟩ | ⟨rfl, ne₁, ne₂⟩ := cases
      · exact off .refl
      · exact off (Avoids.refl.tail e01 (Ne.symm ne))
      · exact off (Avoids.refl.tail e03 (Ne.symm ne))
      · exact off ((Avoids.refl.tail e01 (Ne.symm ne₁)).tail e12 (Ne.symm ne₂))

/-- On the edge from the outer branch to the join there is a `SYNC` too many. -/
theorem runDivergencePass_unbalanced :
    ¬ ∀ (llvm : Analyses) (f : Llvm.Function) (exit : Nat → Prop), f.Verified →
      llvm.Faithful (nameBlocks llvm f) → DominatorsCorrect llvm (nameBlocks llvm f) →
      PostDominatorsCorrect llvm (nameBlocks llvm f) exit →
      (∀ bb ∈ f.blocks, ∀ i ∈ bb.body, stackEffect i.operation = .none) →
      Balanced (runDivergencePass llvm f) (llvm.ipdom (nameBlocks llvm f)) fun _ _ => True := by
  intro h
  have named : nameBlocks sharedJoinAnalyses sharedJoin = sharedJoin := rfl
  have one : OneExit sharedJoin 3 := ⟨by decide, by decide, by decide⟩
  have balanced := h sharedJoinAnalyses sharedJoin (· = 3) ⟨by decide, by decide⟩
    (named ▸ one.faithful (fun _ => rfl) fun _ _ => .refl _) (named ▸ sharedJoin_dominators)
    (named ▸ one.correct fun _ => rfl) (by decide)
  -- the outer branch pushes once, and two created blocks follow
  let s₁ : Arrival := ⟨4, { stack := [⟨0, 0⟩], pushed := 1, popped := [] }⟩
  let s₂ : Arrival := ⟨7, { stack := [], pushed := 1, popped := [0] }⟩
  have step₁ : Step (runDivergencePass sharedJoinAnalyses sharedJoin) (fun _ _ => True) .entry s₁ :=
    ⟨_, rfl, by decide, by decide, trivial⟩
  have step₂ : Step (runDivergencePass sharedJoinAnalyses sharedJoin) (fun _ _ => True) s₁ s₂ :=
    ⟨_, rfl, by decide, by decide, trivial⟩
  have isSome := balanced.noUnderflow s₂ _ (.tail (.single step₁) step₂) rfl
  exact absurd isSome (by decide)

end FpgaGpu

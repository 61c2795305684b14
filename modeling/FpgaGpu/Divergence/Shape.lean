import FpgaGpu.Divergence.Pass

/-!
# What the divergence pass builds

The function during the pass is the original one with some edges into a reconvergence block sent
through a chain of created blocks. `processBranch_spec` says once what one round of the loop does;
`Shape` is the invariant of the loop.
-/

namespace FpgaGpu

open Llvm (BasicBlock Terminator)

/-! ## Pieces of the pass -/

lemma getElem?_modifyBlock (f : Llvm.Function) (b c : Nat) (g : BasicBlock → BasicBlock) :
    (f.modifyBlock b g).blocks[c]? = if b = c then (f.blocks[c]?).map g else f.blocks[c]? := by
  rw [Llvm.Function.modifyBlock, List.getElem?_modify]
  split <;> simp

@[simp] lemma length_modifyBlock (f : Llvm.Function) (b : Nat) (g : BasicBlock → BasicBlock) :
    (f.modifyBlock b g).blocks.length = f.blocks.length := by
  simp [Llvm.Function.modifyBlock]

/-- The operation of a call of an inline assembly text. -/
def asmOperation (text : Text) : Llvm.Operation := .call (.inlineAsm text) []

/-- A block that the pass creates. -/
def syncBlock (name : Text) (id : Nat) (dest : Nat) : BasicBlock where
  name := name
  body := [{ id := id, operation := asmOperation "sync".toList }]
  terminator := .br dest

/-- Sends the edges to `ipd` to `s`. -/
def redirect (ipd s d : Nat) : Nat := if d = ipd then s else d

variable {llvm : Analyses}

/-- Only the names of unnamed blocks differ. -/
def Renamed (f g : Llvm.Function) : Prop :=
  g.blocks.length = f.blocks.length ∧
    ∀ (b : Nat) (bb : BasicBlock), f.blocks[b]? = some bb → ∃ name,
      g.blocks[b]? = some { bb with name := name } ∧ (bb.name ≠ [] → name = bb.name)

/-- Naming one block. -/
lemma nameBlock_spec (llvm : Analyses) (f : Llvm.Function) (i : Nat) :
    Renamed f (nameBlock llvm f i) := by
  unfold nameBlock
  split
  · next unnamed =>
    refine ⟨length_modifyBlock .., fun b bb hb => ?_⟩
    rw [getElem?_modifyBlock]
    split
    · next e =>
      subst e
      refine ⟨_, by rw [hb]; rfl, fun ne => ?_⟩
      simp [Llvm.Function.blockName, hb, ne] at unnamed
    · exact ⟨bb.name, hb, fun _ => rfl⟩
  · exact ⟨rfl, fun b bb hb => ⟨bb.name, hb, fun _ => rfl⟩⟩

lemma Renamed.trans {f g h : Llvm.Function} (fg : Renamed f g) (gh : Renamed g h) :
    Renamed f h := by
  refine ⟨gh.1.trans fg.1, fun b bb hb => ?_⟩
  obtain ⟨name, e, keep⟩ := fg.2 b bb hb
  obtain ⟨name', e', keep'⟩ := gh.2 b _ e
  refine ⟨name', e', fun ne => ?_⟩
  obtain rfl := keep ne
  exact keep' ne

/-- Naming the blocks. -/
lemma nameBlocks_spec (llvm : Analyses) (f : Llvm.Function) : Renamed f (nameBlocks llvm f) := by
  have all : ∀ (is : List Nat) (g : Llvm.Function), Renamed g (is.foldl (nameBlock llvm) g) := by
    intro is
    induction is with
    | nil => exact fun g => ⟨rfl, fun b bb hb => ⟨bb.name, hb, fun _ => rfl⟩⟩
    | cons i is ih => exact fun g => (nameBlock_spec llvm g i).trans (ih _)
  exact all _ f

/-- Edges that were sent away from `ipd` are not sent again. -/
lemma redirect_redirect {ipd s t : Nat} (h : t ≠ ipd) :
    redirect ipd s ∘ redirect ipd t = redirect ipd t := by
  funext d
  by_cases e : d = ipd <;> simp [redirect, e, h]

/-- What one round of the loop over the predecessors does: it appends a block, and sends the edges
of `pred` there. -/
lemma insertSync_spec (llvm : Analyses) (ipd : Nat) (f : Llvm.Function) {pred : Nat}
    (lt : pred < f.blocks.length) :
    (insertSync llvm ipd f pred).blocks.length = f.blocks.length + 1 ∧
      (∃ name id, (insertSync llvm ipd f pred).blocks[f.blocks.length]? =
        some (syncBlock name id ipd)) ∧
      ∀ b bb, f.blocks[b]? = some bb → (insertSync llvm ipd f pred).blocks[b]? =
        some (if pred = b then { bb with
          terminator := bb.terminator.mapSuccessors (redirect ipd f.blocks.length) } else bb) := by
  refine ⟨by simp [insertSync], ?_, fun b bb hb => ?_⟩
  · refine ⟨llvm.uniqueName f (f.blockName pred ++ ".sync".toList), f.freshId, ?_⟩
    rw [insertSync, getElem?_modifyBlock, if_neg (Nat.ne_of_lt lt)]
    simp only [List.getElem?_concat_length]
    rfl
  · have here : ∀ sync, (f.blocks ++ [sync])[b]? = some bb := fun sync => by
      rw [List.getElem?_append_left (List.getElem?_eq_some_iff.mp hb).1, hb]
    rw [insertSync, getElem?_modifyBlock, here]
    split <;> rfl

/-- What the loop over the predecessors does. -/
lemma insertSyncs_spec (llvm : Analyses) {ipd : Nat} (preds : List Nat)
    (f : Llvm.Function) (lt : ipd < f.blocks.length) (known : ∀ p ∈ preds, p < f.blocks.length) :
    let g := preds.foldl (insertSync llvm ipd) f
    f.blocks.length ≤ g.blocks.length ∧
      (∀ c, f.blocks.length ≤ c → c < g.blocks.length →
        ∃ name id, g.blocks[c]? = some (syncBlock name id ipd)) ∧
      ∀ b bb, f.blocks[b]? = some bb →
        (b ∈ preds → ∃ s, f.blocks.length ≤ s ∧ s < g.blocks.length ∧ g.blocks[b]? =
          some { bb with terminator := bb.terminator.mapSuccessors (redirect ipd s) }) ∧
        (b ∉ preds → g.blocks[b]? = some bb) := by
  induction preds generalizing f with
  | nil =>
    refine ⟨Nat.le_refl _, fun c ge lt => absurd lt (Nat.not_lt.mpr ge), fun b bb hb => ?_⟩
    exact ⟨fun h => absurd h List.not_mem_nil, fun _ => hb⟩
  | cons p preds ih =>
    obtain ⟨hp, known⟩ := List.forall_mem_cons.mp known
    obtain ⟨len, ⟨name, id, new⟩, old⟩ := insertSync_spec llvm ipd f hp
    obtain ⟨le, created, kept⟩ := ih (insertSync llvm ipd f p) (by omega)
      (fun q hq => by have := known q hq; omega)
    rw [List.foldl_cons]
    refine ⟨by omega, fun c ge lt' => ?_, fun b bb hb => ?_⟩
    -- the block created for p, or one created for a later predecessor
    · by_cases e : c = f.blocks.length
      · have : f.blocks.length ∉ preds := fun h => Nat.lt_irrefl _ (known _ h)
        exact ⟨name, id, e ▸ (kept _ _ new).2 this⟩
      · exact created c (by omega) lt'
    · obtain ⟨moved, same⟩ := kept b _ (old b bb hb)
      by_cases e : p = b
      · subst e
        refine ⟨fun _ => ?_, fun h => absurd List.mem_cons_self h⟩
        rw [if_pos rfl] at moved same
        refine ⟨f.blocks.length, Nat.le_refl _, by omega, ?_⟩
        -- a predecessor listed twice has no edge left to send elsewhere the second time
        by_cases again : p ∈ preds
        · obtain ⟨s, -, -, e⟩ := moved again
          rw [e, Terminator.mapSuccessors_mapSuccessors, redirect_redirect (by omega)]
        · exact same again
      · rw [if_neg e] at moved same
        refine ⟨fun h => ?_, fun h => same fun h' => h (List.mem_cons_of_mem _ h')⟩
        obtain ⟨s, ge, lt', e'⟩ := moved (List.mem_of_ne_of_mem (Ne.symm e) h)
        exact ⟨s, by omega, lt', e'⟩

/-- What the pass needs of LLVM for its edits to be well formed. -/
structure Analyses.Faithful (llvm : Analyses) (named : Llvm.Function) : Prop where
  ipdom_lt : ∀ {b ipd : Nat}, llvm.ipdom named b = some ipd → ipd < named.blocks.length
  predecessors : ∀ g b, (llvm.predecessors g b).Perm (g.predecessors b)

/-- `SSY` is inserted into one body. -/
lemma insertSsy_spec {f : Llvm.Function} (b ipd : Nat) {c bb} (h : f.blocks[c]? = some bb) :
    (insertSsy f b ipd).blocks[c]? = some (if b = c then
      { bb with body := bb.body ++ [asmCall f (ssyAsm f ipd)] } else bb) := by
  rw [insertSsy, getElem?_modifyBlock, h]
  split <;> rfl

/-- `SSY` leaves the edges alone. -/
lemma successors_insertSsy (f : Llvm.Function) (b ipd c : Nat) :
    (insertSsy f b ipd).successors c = f.successors c := by
  cases h : f.blocks[c]? with
  | none =>
    have : (insertSsy f b ipd).blocks[c]? = none := by
      simp [insertSsy, getElem?_modifyBlock, h]
    simp [Llvm.Function.successors, h, this]
  | some bb =>
    rw [Llvm.Function.successors, Llvm.Function.successors, insertSsy_spec b ipd h, h]
    dsimp only
    split <;> rfl

/-- What one round of the loop over the branches does: `SSY` before the branch, and the edges to the
reconvergence block that leave dominated blocks sent to new blocks. -/
lemma processBranch_spec {named f : Llvm.Function} (faithful : llvm.Faithful named) {b ipd : Nat}
    (join : llvm.ipdom named b = some ipd) (le : named.blocks.length ≤ f.blocks.length) :
    let g := processBranch llvm named f b
    f.blocks.length ≤ g.blocks.length ∧
      (∀ c, f.blocks.length ≤ c → c < g.blocks.length →
        ∃ name id, g.blocks[c]? = some (syncBlock name id ipd)) ∧
      ∀ c bb, f.blocks[c]? = some bb → ∃ t, g.blocks[c]? =
        some { bb with
          body := if b = c then bb.body ++ [asmCall f (ssyAsm f ipd)] else bb.body
          terminator := t } ∧
        (ipd ∈ f.successors c → llvm.dominates named b c = true →
          ∃ s, f.blocks.length ≤ s ∧ s < g.blocks.length ∧
            t = bb.terminator.mapSuccessors (redirect ipd s)) ∧
        (¬ (ipd ∈ f.successors c ∧ llvm.dominates named b c = true) → t = bb.terminator) := by
  intro g
  have mem : ∀ c, c ∈ (llvm.predecessors (insertSsy f b ipd) ipd).filter (llvm.dominates named b) ↔
      ipd ∈ f.successors c ∧ llvm.dominates named b c = true := by
    intro c
    rw [List.mem_filter, (faithful.predecessors _ _).mem_iff, Llvm.Function.mem_predecessors,
      successors_insertSsy]
  have len : (insertSsy f b ipd).blocks.length = f.blocks.length := length_modifyBlock ..
  have known : ∀ p ∈ (llvm.predecessors (insertSsy f b ipd) ipd).filter (llvm.dominates named b),
      p < (insertSsy f b ipd).blocks.length := by
    intro p hp
    obtain ⟨bb, e, -⟩ := Llvm.Function.exists_of_mem_successors ((mem p).mp hp).1
    exact len.symm ▸ (List.getElem?_eq_some_iff.mp e).1
  have spec := insertSyncs_spec llvm _ (insertSsy f b ipd)
    (len.symm ▸ Nat.lt_of_lt_of_le (faithful.ipdom_lt join) le) known
  have unfolded : g = ((llvm.predecessors (insertSsy f b ipd) ipd).filter
      (llvm.dominates named b)).foldl (insertSync llvm ipd) (insertSsy f b ipd) := by
    simp only [g, processBranch, join]
  rw [len] at spec
  simp only [← unfolded] at spec
  obtain ⟨ge, created, kept⟩ := spec
  refine ⟨ge, created, fun c bb hc => ?_⟩
  obtain ⟨moved, same⟩ := kept c _ (insertSsy_spec b ipd hc)
  rw [mem] at moved same
  by_cases h : ipd ∈ f.successors c ∧ llvm.dominates named b c = true
  · obtain ⟨s, ge', lt, e⟩ := moved h
    refine ⟨bb.terminator.mapSuccessors (redirect ipd s), ?_, fun _ _ => ⟨s, ge', lt, rfl⟩,
      fun no => absurd h no⟩
    rw [e]
    split <;> rfl
  · refine ⟨bb.terminator, ?_, fun h₁ h₂ => absurd ⟨h₁, h₂⟩ h, fun _ => rfl⟩
    rw [same h]
    split <;> rfl

/-! ## Chains of created blocks -/

/-- From `c`, `d` created blocks lead to the original block `r`; the first `n` blocks are
original. -/
def Chain (f : Llvm.Function) (n : Nat) : Nat → Nat → Nat → Prop
  | 0, c, r => c = r ∧ r < n
  | d + 1, c, r => n ≤ c ∧ ∃ bb k, f.blocks[c]? = some bb ∧ bb.terminator = .br k ∧ Chain f n d k r

/-- A chain ends at an original block. -/
lemma Chain.lt {f : Llvm.Function} {n d c r : Nat} (h : Chain f n d c r) : r < n := by
  induction d generalizing c with
  | zero => exact h.2
  | succ d ih =>
    obtain ⟨-, bb, k, -, -, rest⟩ := h
    exact ih rest

/-- A chain is determined by its first block. -/
lemma Chain.unique {f : Llvm.Function} {n d d' c r r' : Nat} (h : Chain f n d c r)
    (h' : Chain f n d' c r') : d = d' ∧ r = r' := by
  induction d generalizing c d' with
  | zero =>
    obtain ⟨rfl, lt⟩ := h
    cases d' with
    | zero => exact ⟨rfl, h'.1⟩
    | succ d' => exact absurd h'.1 (Nat.not_le.mpr lt)
  | succ d ih =>
    obtain ⟨ge, bb, k, e, t, rest⟩ := h
    cases d' with
    | zero => exact absurd ge (Nat.not_le.mpr (h'.1 ▸ h'.2))
    | succ d' =>
      obtain ⟨-, bb', k', e', t', rest'⟩ := h'
      obtain rfl : bb = bb' := Option.some.inj (e.symm.trans e')
      obtain rfl : k = k' := Terminator.br.inj (t.symm.trans t')
      obtain ⟨rfl, rfl⟩ := ih rest rest'
      exact ⟨rfl, rfl⟩

/-- The branches with the reconvergence block `ipd`. -/
def joinsAt (llvm : Analyses) (named : Llvm.Function) (branches : List Nat)
    (ipd : Nat) : List Nat :=
  branches.filter fun b => llvm.ipdom named b = some ipd

/-- How many blocks the rounds for `branches` put on an edge from `q` to `r`: a round does so if the
branch dominates `q`, and then every later round does, as the tree does not know the blocks. -/
def syncs (llvm : Analyses) (named : Llvm.Function) (branches : List Nat) (q r : Nat) : Nat :=
  ((joinsAt llvm named branches r).dropWhile fun b => !llvm.dominates named b q).length

/-- `DominatorTree::dominates` answers true for a block that is not in the tree. -/
def Analyses.TrueOfUnknown (llvm : Analyses) (named : Llvm.Function) : Prop :=
  ∀ b c : Nat, named.blocks.length ≤ c → llvm.dominates named b c = true

/-- A round for a branch with another reconvergence block, or none. -/
lemma syncs_of_ne {named : Llvm.Function} {b r : Nat} (h : llvm.ipdom named b ≠ some r)
    (branches : List Nat) (q : Nat) :
    syncs llvm named (branches ++ [b]) q r = syncs llvm named branches q r := by
  simp [syncs, joinsAt, h]

/-- A round for a branch with this reconvergence block. -/
lemma syncs_of_eq {named : Llvm.Function} {b r : Nat} (h : llvm.ipdom named b = some r)
    (branches : List Nat) (q : Nat) :
    syncs llvm named (branches ++ [b]) q r =
      if syncs llvm named branches q r = 0 then (if llvm.dominates named b q then 1 else 0)
      else syncs llvm named branches q r + 1 := by
  simp only [syncs, joinsAt, List.filter_append, List.dropWhile_append, h, List.length_eq_zero_iff,
    List.filter_cons, decide_true, if_true, List.filter_nil, List.isEmpty_iff]
  split
  · cases e : llvm.dominates named b q <;> simp [e]
  · simp

/-- A chain is as long after a round for another reconvergence block, and at least as long after one
for its own. -/
lemma Chain.processBranch {named f : Llvm.Function} (faithful : llvm.Faithful named) {b ipd : Nat}
    (join : llvm.ipdom named b = some ipd)
    (le : named.blocks.length ≤ f.blocks.length) {d c r : Nat}
    (h : Chain f named.blocks.length (d + 1) c r) :
    ∃ d', Chain (processBranch llvm named f b) named.blocks.length (d' + 1) c r ∧
      (llvm.TrueOfUnknown named → d' = if ipd = r then d + 1 else d) := by
  obtain ⟨-, new, kept⟩ := processBranch_spec faithful join le
  have ipd_lt := faithful.ipdom_lt join
  induction d generalizing c with
  | zero =>
    obtain ⟨ge, bb, k, e, term, rfl, lt⟩ := h
    obtain ⟨t, e', moved, same⟩ := kept c bb e
    have succ : f.successors c = [k] := by
      rw [Llvm.Function.successors_of_getElem? e, term]
      rfl
    by_cases send : ipd ∈ f.successors c ∧ llvm.dominates named b c = true
    · -- the last block of the chain was sent to a new one
      obtain rfl : ipd = k := by simpa [succ] using send.1
      obtain ⟨s, ge', lt', rfl⟩ := moved send.1 send.2
      obtain ⟨name, id, es⟩ := new s ge' lt'
      refine ⟨1, ⟨ge, _, s, e', ?_, by omega, _, ipd, es, rfl, rfl, lt⟩, fun _ => by simp⟩
      simp [term, Terminator.mapSuccessors, redirect]
    · refine ⟨0, ⟨ge, _, k, e', by rw [same send, term], rfl, lt⟩, fun unknown => ?_⟩
      have : ipd ≠ k := fun eq => send ⟨by simp [succ, eq], unknown b c ge⟩
      rw [if_neg this]
  | succ d ih =>
    obtain ⟨ge, bb, k, e, term, rest⟩ := h
    obtain ⟨t, e', moved, same⟩ := kept c bb e
    obtain ⟨d', chain, count⟩ := ih rest
    have ne : ¬ (ipd ∈ f.successors c ∧ llvm.dominates named b c = true) := by
      rintro ⟨mem, -⟩
      rw [Llvm.Function.successors_of_getElem? e, term] at mem
      obtain rfl : ipd = k := by simpa [Terminator.successors] using mem
      exact absurd rest.1 (Nat.not_le.mpr ipd_lt)
    refine ⟨d' + 1, ⟨ge, _, k, e', by rw [same ne, term], chain⟩, fun unknown => ?_⟩
    rw [count unknown]
    split <;> rfl

/-- The edge slot of `q` that was at `r` is at `c`: a chain leads back to `r`, with a block for each
of its `SYNC`s. -/
def Rerouted (llvm : Analyses) (named : Llvm.Function) (branches : List Nat) (f : Llvm.Function)
    (q c r : Nat) : Prop :=
  ∃ d, Chain f named.blocks.length d c r ∧
    (llvm.TrueOfUnknown named → d = syncs llvm named branches q r)

/-- A slot that is at the head of a chain. -/
lemma Rerouted.of_chain {named f : Llvm.Function} (faithful : llvm.Faithful named) {b ipd : Nat}
    (join : llvm.ipdom named b = some ipd) (le : named.blocks.length ≤ f.blocks.length)
    {branches : List Nat} {d q c r : Nat} (chain : Chain f named.blocks.length (d + 1) c r)
    (count : llvm.TrueOfUnknown named → d + 1 = syncs llvm named branches q r) :
    Rerouted llvm named (branches ++ [b]) (processBranch llvm named f b) q c r := by
  obtain ⟨d', chain', count'⟩ := chain.processBranch faithful join le
  refine ⟨d' + 1, chain', fun unknown => ?_⟩
  rw [count' unknown]
  by_cases eq : ipd = r
  · rw [syncs_of_eq (eq ▸ join), ← count unknown, if_pos eq]
    simp
  · rw [syncs_of_ne (by simpa [join] using eq), ← count unknown, if_neg eq]

/-- A slot of a block whose edges to `ipd` are not sent away. -/
lemma Rerouted.kept {named f : Llvm.Function} (faithful : llvm.Faithful named) {b ipd : Nat}
    (join : llvm.ipdom named b = some ipd) (le : named.blocks.length ≤ f.blocks.length)
    {branches : List Nat} {q c r : Nat} (h : Rerouted llvm named branches f q c r)
    (stay : c = ipd → llvm.dominates named b q = false) :
    Rerouted llvm named (branches ++ [b]) (processBranch llvm named f b) q c r := by
  obtain ⟨d, chain, count⟩ := h
  cases d with
  | zero =>
    refine ⟨0, chain, fun unknown => ?_⟩
    by_cases direct : r = ipd
    · rw [syncs_of_eq (direct ▸ join), ← count unknown, if_pos rfl, stay (chain.1.trans direct)]
      rfl
    · rw [syncs_of_ne (by simpa [join] using Ne.symm direct), ← count unknown]
  | succ d => exact .of_chain faithful join le chain count

/-- A slot of a block whose edges to `ipd` are sent to `s`. -/
lemma Rerouted.sent {named f : Llvm.Function} (faithful : llvm.Faithful named) {b ipd : Nat}
    (join : llvm.ipdom named b = some ipd) (le : named.blocks.length ≤ f.blocks.length)
    {branches : List Nat} {q c r s : Nat} (h : Rerouted llvm named branches f q c r)
    (dominates : llvm.dominates named b q = true) (ge : named.blocks.length ≤ s) {name id}
    (new : (processBranch llvm named f b).blocks[s]? = some (syncBlock name id ipd)) :
    Rerouted llvm named (branches ++ [b])
      (processBranch llvm named f b) q (redirect ipd s c) r := by
  by_cases here : c = ipd
  · have lt := faithful.ipdom_lt join
    obtain ⟨d, chain, count⟩ := h
    cases d with
    | zero =>
      obtain rfl : r = ipd := chain.1.symm.trans here
      refine ⟨1, ⟨?_, syncBlock name id r, r, ?_, rfl, rfl, lt⟩, fun unknown => ?_⟩
      · rwa [redirect, if_pos here]
      · rw [redirect, if_pos here, new]
      · rw [syncs_of_eq join, ← count unknown, if_pos rfl, if_pos dominates]
    | succ d => exact absurd (here ▸ chain.1) (Nat.not_le.mpr lt)
  · rw [redirect, if_neg here]
    exact h.kept faithful join le fun e => absurd e here

/-! ## The loop over the branches -/

/-- The operations that the rounds for `branches` insert into the block `b`. -/
def ssyOperations (llvm : Analyses) (named : Llvm.Function) (branches : List Nat) (b : Nat) :
    List Llvm.Operation :=
  if b ∈ branches then
    match llvm.ipdom named b with
    | some ipd => [asmOperation (ssyAsm named ipd)]
    | none => []
  else []

/-- The function after the rounds for `branches`. -/
structure Shape (llvm : Analyses) (named : Llvm.Function) (branches : List Nat)
    (f : Llvm.Function) : Prop where
  le : named.blocks.length ≤ f.blocks.length
  created : ∀ c, named.blocks.length ≤ c → c < f.blocks.length →
    ∃ name id k, f.blocks[c]? = some (syncBlock name id k) ∧
      (k < named.blocks.length ∨ c < k ∧ k < f.blocks.length)
  original : ∀ b bb, named.blocks[b]? = some bb → ∃ calls h,
    f.blocks[b]? = some { bb with
      body := bb.body ++ calls
      terminator := bb.terminator.mapSuccessors h } ∧
    calls.map Llvm.Instruction.operation = ssyOperations llvm named branches b ∧
    ∀ r ∈ bb.terminator.successors, Rerouted llvm named branches f b (h r) r

/-- Before the first round. -/
lemma Shape.init {named : Llvm.Function} (closed : named.Closed) : Shape llvm named [] named where
  le := Nat.le_refl _
  created := fun c ge lt => absurd lt (Nat.not_lt.mpr ge)
  original := by
    intro b bb hb
    refine ⟨[], fun r => r, ?_, rfl, fun r hr => ⟨0, ⟨rfl, ?_⟩, fun _ => rfl⟩⟩
    · rw [hb, List.append_nil, Terminator.mapSuccessors_eq_self fun _ _ => rfl]
    · exact closed bb (List.mem_of_getElem? hb) r hr

/-- The names stay. -/
lemma Shape.blockName {named f : Llvm.Function} {branches : List Nat}
    (shape : Shape llvm named branches f) {b : Nat} (lt : b < named.blocks.length) :
    f.blockName b = named.blockName b := by
  have e := List.getElem?_eq_getElem lt
  obtain ⟨calls, h, e', -⟩ := shape.original b _ e
  rw [Llvm.Function.blockName, Llvm.Function.blockName, e, e']

/-- A branch without reconvergence block changes nothing. -/
lemma Shape.skip {named f : Llvm.Function} {branches : List Nat}
    (shape : Shape llvm named branches f) {b : Nat} (fresh : b ∉ branches)
    (join : llvm.ipdom named b = none) :
    Shape llvm named (branches ++ [b]) (processBranch llvm named f b) := by
  have same : processBranch llvm named f b = f := by rw [processBranch, join]
  have ssy : ∀ c, ssyOperations llvm named (branches ++ [b]) c =
      ssyOperations llvm named branches c := by
    intro c
    by_cases e : c = b
    · subst e
      simp [ssyOperations, join, fresh]
    · simp [ssyOperations, e]
  have count : ∀ q r, syncs llvm named (branches ++ [b]) q r = syncs llvm named branches q r :=
    fun q r => syncs_of_ne (by simp [join]) branches q
  rw [same]
  refine ⟨shape.le, shape.created, fun c bb hc => ?_⟩
  simpa only [ssy, Rerouted, count] using shape.original c bb hc

/-- A branch with a reconvergence block. -/
lemma Shape.join {named f : Llvm.Function} (faithful : llvm.Faithful named) {branches : List Nat}
    (shape : Shape llvm named branches f) {b ipd : Nat} (inside : b < named.blocks.length)
    (fresh : b ∉ branches) (join : llvm.ipdom named b = some ipd) :
    Shape llvm named (branches ++ [b]) (processBranch llvm named f b) := by
  obtain ⟨ge, new, kept⟩ := processBranch_spec faithful join shape.le
  have ipd_lt := faithful.ipdom_lt join
  refine ⟨shape.le.trans ge, fun c hn hlt => ?_, fun c bb hc => ?_⟩
  · obtain old | young := Nat.lt_or_ge c f.blocks.length
    -- a block created for an earlier branch may itself be a predecessor of the join
    · obtain ⟨name, id, k, e, range⟩ := shape.created c hn old
      obtain ⟨t, e', moved, same⟩ := kept c _ e
      have body : ¬ b = c := by omega
      by_cases send : ipd ∈ f.successors c ∧ llvm.dominates named b c = true
      · obtain ⟨s, ge', lt', rfl⟩ := moved send.1 send.2
        obtain rfl : ipd = k := by
          simpa [Llvm.Function.successors_of_getElem? e, syncBlock, Terminator.successors]
            using send.1
        refine ⟨name, id, s, ?_, .inr ⟨by omega, lt'⟩⟩
        rw [e', if_neg body]
        simp [syncBlock, Terminator.mapSuccessors, redirect]
      · refine ⟨name, id, k, ?_, by omega⟩
        rw [e', if_neg body, same send]
    · obtain ⟨name, id, e⟩ := new c young hlt
      exact ⟨name, id, ipd, e, .inl ipd_lt⟩
  · obtain ⟨calls, h, e, ops, chains⟩ := shape.original c bb hc
    obtain ⟨t, e', moved, same⟩ := kept c _ e
    have succ : f.successors c = bb.terminator.successors.map h := by
      rw [Llvm.Function.successors_of_getElem? e, Terminator.successors_mapSuccessors]
    have body : ∃ calls', (if b = c then bb.body ++ calls ++ [asmCall f (ssyAsm f ipd)]
        else bb.body ++ calls) = bb.body ++ calls' ∧
        calls'.map Llvm.Instruction.operation = ssyOperations llvm named (branches ++ [b]) c := by
      by_cases here : b = c
      · subst here
        rw [ssyOperations, if_neg fresh, List.map_eq_nil_iff] at ops
        subst ops
        refine ⟨[asmCall f (ssyAsm f ipd)], by simp, ?_⟩
        simp [ssyOperations, join, asmCall, asmOperation, ssyAsm, shape.blockName ipd_lt]
      · refine ⟨calls, by rw [if_neg here], ?_⟩
        simp [ops, ssyOperations, Ne.symm here]
    obtain ⟨calls', body, ops'⟩ := body
    by_cases send : ipd ∈ f.successors c ∧ llvm.dominates named b c = true
    · obtain ⟨s, ge', lt', rfl⟩ := moved send.1 send.2
      obtain ⟨name, id, new⟩ := new s ge' lt'
      refine ⟨calls', redirect ipd s ∘ h, ?_, ops', fun r hr => ?_⟩
      · rw [e', body, Terminator.mapSuccessors_mapSuccessors]
      · exact (chains r hr).sent faithful join shape.le send.2 (shape.le.trans ge') new
    · refine ⟨calls', h, ?_, ops', fun r hr => ?_⟩
      · rw [e', body, same send]
      · refine (chains r hr).kept faithful join shape.le fun e => ?_
        by_contra dominates
        refine send ⟨?_, by simpa using dominates⟩
        rw [succ, ← e]
        exact List.mem_map_of_mem hr

/-- One round. -/
lemma Shape.step {named f : Llvm.Function} (faithful : llvm.Faithful named) {branches : List Nat}
    (shape : Shape llvm named branches f) {b : Nat} (inside : b < named.blocks.length)
    (fresh : b ∉ branches) : Shape llvm named (branches ++ [b]) (processBranch llvm named f b) := by
  cases join : llvm.ipdom named b with
  | none => exact shape.skip fresh join
  | some ipd => exact shape.join faithful inside fresh join

/-- All rounds. -/
lemma Shape.foldl {named f : Llvm.Function} (faithful : llvm.Faithful named)
    {branches : List Nat} (shape : Shape llvm named branches f) (more : List Nat)
    (inside : ∀ b ∈ more, b < named.blocks.length) (nodup : (branches ++ more).Nodup) :
    Shape llvm named (branches ++ more) (more.foldl (processBranch llvm named) f) := by
  induction more generalizing branches f with
  | nil => simpa using shape
  | cons b more ih =>
    obtain ⟨hb, inside⟩ := List.forall_mem_cons.mp inside
    have fresh : b ∉ branches := fun h =>
      (List.nodup_append.mp nodup).2.2 b h b List.mem_cons_self rfl
    have := ih (shape.step faithful hb fresh) inside (by simpa using nodup)
    simpa using this

/-- The conditional branches are blocks of the function, each listed once. -/
lemma condBranches_spec (f : Llvm.Function) :
    (condBranches f).Nodup ∧ ∀ b, b ∈ condBranches f ↔
      ∃ bb, f.blocks[b]? = some bb ∧ bb.terminator.isCondBr = true := by
  refine ⟨List.Nodup.filter _ List.nodup_range, fun b => ?_⟩
  rw [condBranches, List.mem_filter, List.mem_range]
  constructor
  · rintro ⟨lt, h⟩
    rw [List.getElem?_eq_getElem lt] at h
    exact ⟨_, List.getElem?_eq_getElem lt, h⟩
  · rintro ⟨bb, e, h⟩
    exact ⟨(List.getElem?_eq_some_iff.mp e).1, by rw [e]; exact h⟩

/-- The shape of the result of the pass. -/
theorem runDivergencePass_shape {f : Llvm.Function} (closed : f.Closed)
    (faithful : llvm.Faithful (nameBlocks llvm f)) :
    Shape llvm (nameBlocks llvm f) (condBranches (nameBlocks llvm f))
      (runDivergencePass llvm f) := by
  obtain ⟨len, names⟩ := nameBlocks_spec llvm f
  have closed' : (nameBlocks llvm f).Closed := by
    intro bb hbb d hd
    obtain ⟨b, lt, rfl⟩ := List.mem_iff_getElem.mp hbb
    have e := List.getElem?_eq_getElem (len ▸ lt)
    obtain ⟨name, e', -⟩ := names b _ e
    rw [List.getElem?_eq_getElem lt, Option.some.injEq] at e'
    rw [e'] at hd
    exact len ▸ closed _ (List.mem_of_getElem? e) d hd
  obtain ⟨nodup, branch⟩ := condBranches_spec (nameBlocks llvm f)
  have inside : ∀ b ∈ condBranches (nameBlocks llvm f), b < (nameBlocks llvm f).blocks.length := by
    intro b hb
    obtain ⟨bb, e, -⟩ := (branch b).mp hb
    exact (List.getElem?_eq_some_iff.mp e).1
  rw [runDivergencePass]
  split
  · next empty =>
    have none : f.blocks = [] := List.isEmpty_iff.mp empty
    have same : nameBlocks llvm f = f := by simp [nameBlocks, none]
    have noBranch : condBranches f = [] := by simp [condBranches, none]
    rw [same, noBranch]
    exact .init closed
  · exact (Shape.init closed').foldl faithful _ inside nodup

end FpgaGpu

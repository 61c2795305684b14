import FpgaGpu.Divergence.Phis
import FpgaGpu.Divergence.Visits
import FpgaGpu.Isel.Definitions

/-!
# Functions with detours

Behind the pass a function has its own blocks, with calls at their ends that no instruction uses,
and blocks that lead on to them.
-/

namespace FpgaGpu

open Llvm (BasicBlock)

/-! ## Identities -/

section Identities

variable {α β : Type} {F : α → List β} {g : α → α}

lemma flatMap_modify (same : ∀ a, F (g a) = F a) (l : List α) (i : Nat) :
    (l.modify i g).flatMap F = l.flatMap F := by
  induction l generalizing i with
  | nil => simp
  | cons a l ih => cases i <;> simp [same, ih]

lemma subset_flatMap_modify (grows : ∀ a, F a ⊆ F (g a)) (l : List α) (i : Nat) :
    l.flatMap F ⊆ (l.modify i g).flatMap F := by
  induction l generalizing i with
  | nil => simp
  | cons a l ih =>
    cases i with
    | zero =>
      simp only [List.modify_zero_cons, List.flatMap_cons]
      exact List.append_subset.mpr ⟨fun x h => List.mem_append_left _ (grows a h),
        fun x h => List.mem_append_right _ h⟩
    | succ i =>
      simp only [List.modify_succ_cons, List.flatMap_cons]
      exact List.append_subset.mpr ⟨fun x h => List.mem_append_left _ h,
        fun x h => List.mem_append_right _ (ih i h)⟩

/-- An item that is put behind what one place yields. -/
lemma subperm_flatMap_modify {x : β} (append : ∀ a, F (g a) = F a ++ [x]) (l : List α) (i : Nat) :
    ((l.modify i g).flatMap F).Subperm (x :: l.flatMap F) := by
  induction l generalizing i with
  | nil => simp
  | cons a l ih =>
    cases i with
    | zero =>
      simp only [List.modify_zero_cons, List.flatMap_cons, append]
      rw [List.append_assoc]
      exact List.perm_middle.subperm
    | succ i =>
      simp only [List.modify_succ_cons, List.flatMap_cons]
      exact ((List.subperm_append_left _).mpr (ih i)).trans List.perm_middle.subperm

end Identities

/-- The identity of a new instruction is new. -/
lemma freshId_notMem (f : Llvm.Function) : f.freshId ∉ f.instIds := by
  have bound : ∀ (l : List Nat), ∀ id ∈ l, id ≤ l.foldr max 0 := by
    intro l
    induction l with
    | nil => nofun
    | cons a l ih =>
      refine List.forall_mem_cons.mpr ⟨Nat.le_max_left .., fun id mem => ?_⟩
      exact (ih id mem).trans (Nat.le_max_right ..)
  intro mem
  have := bound _ _ mem
  rw [Llvm.Function.freshId] at this
  omega

lemma id_mem_instIds {f : Llvm.Function} {i : Llvm.Instruction} (h : i ∈ bodyOf f) :
    i.id ∈ f.instIds := by
  obtain ⟨bb, hbb, mem⟩ := List.mem_flatMap.mp h
  exact List.mem_flatMap.mpr ⟨bb, hbb, List.mem_append_left _ (List.mem_map_of_mem mem)⟩

/-- The function `g` has the instructions of `f`, and others with identities of their own. -/
structure Grown (f g : Llvm.Function) : Prop where
  args : g.args = f.args
  ids : f.instIds ⊆ g.instIds
  fresh : ∀ i ∈ bodyOf g, i ∈ bodyOf f ∨ i.id ∉ f.instIds
  nodup : ((bodyOf f).map Llvm.Instruction.id).Nodup → ((bodyOf g).map Llvm.Instruction.id).Nodup

namespace Grown

variable {llvm : Analyses} {f g h : Llvm.Function}

lemma refl (f : Llvm.Function) : Grown f f :=
  ⟨rfl, List.Subset.refl _, fun _ mem => .inl mem, fun nodup => nodup⟩

lemma trans (fg : Grown f g) (gh : Grown g h) : Grown f h where
  args := gh.args.trans fg.args
  ids := List.Subset.trans fg.ids gh.ids
  fresh i mem := by
    obtain old | new := gh.fresh i mem
    · exact fg.fresh i old
    · exact .inr fun mem' => new (fg.ids mem')
  nodup nodup := gh.nodup (fg.nodup nodup)

lemma foldl {α : Type} {step : Llvm.Function → α → Llvm.Function}
    (grows : ∀ f a, Grown f (step f a)) (l : List α) (f : Llvm.Function) :
    Grown f (l.foldl step f) := by
  induction l generalizing f with
  | nil => exact refl f
  | cons a l ih => exact (grows f a).trans (ih (step f a))

/-- A new instruction. -/
lemma of_subperm {x : Llvm.Instruction} (args : g.args = f.args) (ids : f.instIds ⊆ g.instIds)
    (new : x.id = f.freshId) (body : (bodyOf g).Subperm (x :: bodyOf f)) : Grown f g where
  args := args
  ids := ids
  fresh i mem := by
    obtain rfl | mem := List.mem_cons.mp (body.subset mem)
    · exact .inr (new ▸ freshId_notMem f)
    · exact .inl mem
  nodup nodup := by
    obtain ⟨l, perm, sub⟩ := body
    refine (perm.map Llvm.Instruction.id).nodup_iff.mp (List.Nodup.sublist (sub.map _) ?_)
    rw [List.map_cons, List.nodup_cons]
    refine ⟨fun mem => ?_, nodup⟩
    obtain ⟨i, hi, same⟩ := List.mem_map.mp mem
    exact freshId_notMem f (new ▸ same ▸ id_mem_instIds hi)

lemma nameBlock (f : Llvm.Function) (b : Nat) : Grown f (nameBlock llvm f b) := by
  unfold FpgaGpu.nameBlock
  split
  · let named (bb : BasicBlock) : BasicBlock :=
      { bb with name := llvm.uniqueName f ("bb.".toList ++ decimalNat b) }
    have body : bodyOf (f.modifyBlock b named) = bodyOf f :=
      flatMap_modify (g := named) (fun _ => rfl) ..
    have ids : (f.modifyBlock b named).instIds = f.instIds :=
      flatMap_modify (g := named) (fun _ => rfl) ..
    exact ⟨rfl, ids.symm ▸ List.Subset.refl _, fun i mem => .inl (body ▸ mem),
      fun nodup => body.symm ▸ nodup⟩
  · exact refl f

lemma insertSsy (f : Llvm.Function) (b ipd : Nat) : Grown f (insertSsy f b ipd) := by
  refine of_subperm (x := asmCall f (ssyAsm f ipd)) rfl
    (subset_flatMap_modify (fun bb => ?_) ..) rfl
    (subperm_flatMap_modify (fun _ => rfl) ..)
  dsimp only
  rw [List.map_append, List.append_assoc]
  exact List.append_subset.mpr ⟨List.subset_append_left .., fun x h => by simp [h]⟩

lemma insertSync (ipd : Nat) (f : Llvm.Function) (pred : Nat) :
    Grown f (insertSync llvm ipd f pred) := by
  refine of_subperm (x := asmCall f "sync".toList) rfl ?_ rfl ?_
  · refine List.Subset.trans ?_ (subset_flatMap_modify (fun bb => ?_) ..)
    · rw [List.flatMap_append]
      exact List.subset_append_left ..
    · cases bb.terminator <;> exact List.Subset.refl _
  · have body : bodyOf (FpgaGpu.insertSync llvm ipd f pred) =
        bodyOf f ++ [asmCall f "sync".toList] := by
      let sent (bb : BasicBlock) : BasicBlock :=
        { bb with terminator := bb.terminator.mapSuccessors (redirect ipd f.blocks.length) }
      refine (flatMap_modify (g := sent) (fun _ => rfl) ..).trans ?_
      rw [List.flatMap_append]
      rfl
    rw [body]
    exact List.perm_append_singleton .. |>.subperm

lemma processBranch (named f : Llvm.Function) (b : Nat) :
    Grown f (processBranch llvm named f b) := by
  unfold FpgaGpu.processBranch
  split
  · exact refl f
  · next ipd _ => exact (insertSsy f b ipd).trans (foldl (insertSync ipd) _ _)

/-- The pass keeps the arguments and the instructions. -/
lemma runDivergencePass (llvm : Analyses) (f : Llvm.Function) :
    Grown f (runDivergencePass llvm f) := by
  unfold FpgaGpu.runDivergencePass
  split
  · exact refl f
  · exact (foldl nameBlock _ f).trans (foldl (processBranch _) _ _)

end Grown

/-! ## Detours -/

/-- The function `g` is `f` with calls of inserted texts at the ends of its blocks, and behind them
blocks that lead on to it: the block `c` of `g` leads to the block `place c` of `f`. -/
structure Detours (inserted : Text → Prop) (f g : Llvm.Function) (place : Nat → Nat) : Prop where
  grown : Grown f g
  le : f.blocks.length ≤ g.blocks.length
  place_eq : ∀ {b}, b < f.blocks.length → place b = b
  place_lt : ∀ {c}, c < g.blocks.length → place c < f.blocks.length
  original : ∀ {b : Nat} {bb : BasicBlock}, f.blocks[b]? = some bb → ∃ name calls h,
    g.blocks[b]? = some
        { name := name, body := bb.body ++ calls, terminator := bb.terminator.mapSuccessors h } ∧
      (∀ i ∈ calls, ∃ text, inserted text ∧ i.operation = asmOperation text) ∧
      ∀ r ∈ bb.terminator.successors, place (h r) = r ∧ h r < g.blocks.length
  created : ∀ {c : Nat} {bb : BasicBlock}, f.blocks.length ≤ c →
    g.blocks[c]? = some bb → ∃ name id k,
    bb = syncBlock name id k ∧ place k = place c ∧ k < g.blocks.length ∧
      (k < f.blocks.length ∨ c < k)

/-- A block is one of the function, with calls at its end, or leads on. -/
lemma Detours.mem_blocks {inserted : Text → Prop} {f g : Llvm.Function} {place : Nat → Nat}
    (h : Detours inserted f g place) {bb' : BasicBlock} (mem : bb' ∈ g.blocks) :
    (∃ bb ∈ f.blocks, ∃ name calls r,
      bb' = { name := name, body := bb.body ++ calls,
              terminator := bb.terminator.mapSuccessors r } ∧
        (∀ i ∈ calls, ∃ text, inserted text ∧ i.operation = asmOperation text) ∧
        ∀ d ∈ bb.terminator.successors, place (r d) = d ∧ r d < g.blocks.length) ∨
      ∃ name id k, bb' = syncBlock name id k ∧ k < g.blocks.length := by
  obtain ⟨c, e⟩ := List.getElem?_of_mem mem
  obtain old | created := Nat.lt_or_ge c f.blocks.length
  · obtain ⟨name, calls, r, e', new, sent⟩ := h.original (List.getElem?_eq_getElem old)
    exact .inl ⟨_, List.getElem_mem old, name, calls, r,
      Option.some.inj (e.symm.trans e'), new, sent⟩
  · obtain ⟨name, id, k, e', -, inside, -⟩ := h.created created e
    exact .inr ⟨name, id, k, e', inside⟩

variable {llvm : Analyses}

/-- A chain starts at a block. -/
lemma Chain.lt_length {f : Llvm.Function} {n d c r : Nat} (h : Chain f n d c r)
    (le : n ≤ f.blocks.length) :
    c < f.blocks.length := by
  cases d with
  | zero => exact Nat.lt_of_lt_of_le (h.1 ▸ h.2) le
  | succ d =>
    obtain ⟨-, bb, k, e, -⟩ := h
    exact (List.getElem?_eq_some_iff.mp e).1

/-- A chain leads on from every created block. -/
lemma Shape.exists_chain {named f : Llvm.Function} {branches : List Nat}
    (shape : Shape llvm named branches f) {c : Nat} (lt : c < f.blocks.length) :
    ∃ d r, Chain f named.blocks.length d c r := by
  induction h : f.blocks.length - c using Nat.strongRecOn generalizing c with
  | ind n ih =>
    obtain old | new := Nat.lt_or_ge c named.blocks.length
    · exact ⟨0, c, rfl, old⟩
    · obtain ⟨name, id, k, created, range⟩ := shape.created c new lt
      have chain : ∃ d r, Chain f named.blocks.length d k r := by
        obtain old | ⟨later, lt'⟩ := range
        · exact ⟨0, k, rfl, old⟩
        · exact ih _ (by omega) lt' rfl
      obtain ⟨d, r, chain⟩ := chain
      exact ⟨d + 1, r, new, _, k, created, rfl, chain⟩

/-- Contraction leads to the end of a chain. -/
lemma Shape.contract_chain {named f : Llvm.Function} {branches : List Nat}
    (shape : Shape llvm named branches f) {d c r : Nat}
    (chain : Chain f named.blocks.length d c r) : contract f named.blocks.length c = r := by
  refine chain.contractFrom ?_
  cases d with
  | zero => omega
  | succ d =>
    have := shape.chain_le chain
    omega

/-- The texts that the pass inserts before branches. -/
def ReconvergenceText (llvm : Analyses) (named : Llvm.Function) (text : Text) : Prop :=
  ∃ b ipd, llvm.ipdom named b = some ipd ∧ text = ssyAsm named ipd

/-- The detours of the pass. -/
theorem runDivergencePass_detours {f : Llvm.Function} (closed : f.Closed)
    (faithful : llvm.Faithful (nameBlocks llvm f)) :
    Detours (ReconvergenceText llvm (nameBlocks llvm f)) f (runDivergencePass llvm f)
      (contract (runDivergencePass llvm f) f.blocks.length) := by
  have shape := runDivergencePass_shape closed faithful
  have len := (nameBlocks_spec llvm f).1
  have le : f.blocks.length ≤ (runDivergencePass llvm f).blocks.length := len ▸ shape.le
  refine ⟨.runDivergencePass llvm f, le, fun {b} lt => ?_, fun {c} lt => ?_, fun {b bb} hb => ?_,
    fun {c bb} ge hc => ?_⟩
  · exact len ▸ shape.contract_chain (d := 0) ⟨rfl, len.symm ▸ lt⟩
  · obtain ⟨d, r, chain⟩ := shape.exists_chain lt
    rw [← len, shape.contract_chain chain]
    exact chain.lt
  · obtain ⟨name, calls, h, e, ops, edges⟩ := runDivergencePass_original closed faithful hb
    refine ⟨name, calls, h, e, fun i mem => ?_, fun r succ => ?_⟩
    · have op : i.operation ∈ ssyOperations llvm (nameBlocks llvm f)
          (condBranches (nameBlocks llvm f)) b :=
        ops ▸ List.mem_map_of_mem mem
      unfold ssyOperations at op
      split at op
      · split at op
        · next ipd join => exact ⟨_, ⟨b, ipd, join, rfl⟩, List.mem_singleton.mp op⟩
        · cases op
      · cases op
    · obtain ⟨d, chain, -⟩ := edges r succ
      exact ⟨len ▸ shape.contract_chain chain, chain.lt_length shape.le⟩
  · have lt := (List.getElem?_eq_some_iff.mp hc).1
    obtain ⟨name, id, k, created, range⟩ := shape.created c (len.symm ▸ ge) lt
    obtain rfl := Option.some.inj (hc.symm.trans created)
    have inside : k < (runDivergencePass llvm f).blocks.length := by omega
    obtain ⟨d, r, chain⟩ := shape.exists_chain inside
    have longer : Chain (runDivergencePass llvm f) (nameBlocks llvm f).blocks.length (d + 1) c r :=
      ⟨len.symm ▸ ge, _, k, created, rfl, chain⟩
    refine ⟨name, id, k, rfl, ?_, inside, by omega⟩
    rw [← len, shape.contract_chain chain, shape.contract_chain longer]

/-- The pass puts nothing on the way into the entry block. -/
lemma runDivergencePass_entry {f : Llvm.Function} (faithful : llvm.Faithful (nameBlocks llvm f))
    (entry : ∀ bb ∈ f.blocks, 0 ∉ bb.terminator.successors) (nonempty : f.blocks ≠ []) :
    ∀ bb ∈ (runDivergencePass llvm f).blocks, 0 ∉ bb.terminator.successors := by
  have none : f.predecessors 0 = [] := by
    refine List.eq_nil_iff_forall_not_mem.mpr fun p mem => ?_
    obtain ⟨bb, e, succ⟩ :=
      Llvm.Function.exists_of_mem_successors (Llvm.Function.mem_predecessors.mp mem)
    exact entry bb (List.mem_of_getElem? e) succ
  have same := predecessors_runDivergencePass faithful (List.length_pos_of_ne_nil nonempty)
    fun b _ _ q mem => by rw [none] at mem; cases mem
  intro bb hbb succ
  obtain ⟨b, lt, rfl⟩ := List.mem_iff_getElem.mp hbb
  have mem : b ∈ (runDivergencePass llvm f).predecessors 0 := by
    rw [Llvm.Function.mem_predecessors,
      Llvm.Function.successors_of_getElem? (List.getElem?_eq_getElem lt)]
    exact succ
  rw [same, none] at mem
  cases mem

end FpgaGpu

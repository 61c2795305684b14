import FpgaGpu.Divergence.Returns
import FpgaGpu.Isel.Flow
import FpgaGpu.Isel.Local
import FpgaGpu.Lib.Contraction

/-!
# Kernels behind the divergence pass

Detours change neither the instructions that use values nor the paths to them, so that a kernel is
still one behind the pass.
-/

namespace FpgaGpu

open Llvm (BasicBlock Terminator Value)
open ControlFlow (Interleaved Path Contracted)

section Items

variable {inserted : Text → Prop} {f g : Llvm.Function} {place : Nat → Nat} {dl : DataLayout}

/-- The item of a function with detours that an item of the function is there. -/
inductive SameItem (place : Nat → Nat) : Item → Item → Prop
  | argument (k arg) : SameItem place (.argument k arg) (.argument k arg)
  | inst (i) : SameItem place (.inst i) (.inst i)
  | term {t : Terminator} {h : Nat → Nat} (sent : ∀ r ∈ t.successors, place (h r) = r) :
    SameItem place (.term t) (.term (t.mapSuccessors h))

/-- A call of an inserted text. -/
def InsertedItem (inserted : Text → Prop) (a : Item) : Prop :=
  ∃ i text, a = .inst i ∧ inserted text ∧ i.operation = asmOperation text

lemma SameItem.operands_eq {a b : Item} (h : SameItem place a b) : b.operands = a.operands := by
  cases h with
  | argument | inst => rfl
  | @term t h sent => cases t <;>
      simp [Item.operands, Terminator.mapSuccessors, Terminator.operands]

lemma SameItem.defines_eq {a b : Item} (h : SameItem place a b) : b.defines = a.defines := by
  cases h with
  | argument | inst => rfl
  | @term t h sent => cases t <;> rfl

lemma InsertedItem.operands_eq {a : Item} (h : InsertedItem inserted a) : a.operands = [] := by
  obtain ⟨⟨id, operation⟩, text, rfl, -, call⟩ := h
  obtain rfl : operation = _ := call
  rfl

/-- The items of a block are there, and inserted calls before the terminator. -/
lemma interleaved_itemsOf {bb : BasicBlock} {name : Text} {calls : List Llvm.Instruction}
    {h : Nat → Nat} {b : Nat} (args : g.args = f.args)
    (new : ∀ i ∈ calls, ∃ text, inserted text ∧ i.operation = asmOperation text)
    (sent : ∀ r ∈ bb.terminator.successors, place (h r) = r) :
    Interleaved (SameItem place) (InsertedItem inserted) (itemsOf f b bb)
      (itemsOf g b { name := name, body := bb.body ++ calls,
                     terminator := bb.terminator.mapSuccessors h }) := by
  have arguments : ∀ n args, List.Forall₂ (SameItem place) (argumentItems n args)
      (argumentItems n args) := by
    intro n args
    induction args generalizing n with
    | nil => exact .nil
    | cons arg args ih => exact .cons (.argument n arg) (ih (n + 1))
  have body : List.Forall₂ (SameItem place) (bb.body.map Item.inst) (bb.body.map Item.inst) :=
    List.forall₂_same.mpr fun a mem => by
      obtain ⟨i, -, rfl⟩ := List.mem_map.mp mem
      exact .inst i
  have put : Interleaved (SameItem place) (InsertedItem inserted) [] (calls.map Item.inst) :=
    .of_putIn fun a mem => by
      obtain ⟨i, hi, rfl⟩ := List.mem_map.mp mem
      obtain ⟨text, new, call⟩ := new i hi
      exact ⟨i, text, rfl, new, call⟩
  simp only [itemsOf, args, List.map_append]
  refine .append ?_ (.append ?_ (.kept (.term sent) .nil))
  · split
    · exact .of_forall₂ (arguments _ _)
    · exact .nil
  · simpa using (Interleaved.of_forall₂ body).append put

lemma getElem?_functionItems {b : Nat} {items : List Item}
    (h : (functionItems f)[b]? = some items) :
    ∃ bb, f.blocks[b]? = some bb ∧ items = itemsOf f b bb := by
  rw [functionItems, List.getElem?_mapIdx, Option.map_eq_some_iff] at h
  obtain ⟨bb, block, rfl⟩ := h
  exact ⟨bb, block, rfl⟩

/-- The items of a block that the pass creates. -/
lemma itemsOf_syncBlock {c : Nat} (ne : c ≠ 0) (name : Text) (id k : Nat) :
    itemsOf g c (syncBlock name id k) =
      [.inst ⟨id, asmOperation "sync".toList⟩, .term (.br k)] := by
  simp [itemsOf, syncBlock, ne]

lemma Detours.exists_block (h : Detours inserted f g place) {c : Nat} {bb : BasicBlock}
    (hc : g.blocks[c]? = some bb) (ne : place c ≠ c) :
    ∃ name id k, bb = syncBlock name id k ∧ c ≠ 0 ∧
      place k = place c := by
  have ge : f.blocks.length ≤ c := by
    by_contra lt
    exact ne (h.place_eq (by omega))
  obtain ⟨name, id, k, rfl, leads, -⟩ := h.created ge hc
  have := h.place_lt (List.getElem?_eq_some_iff.mp hc).1
  exact ⟨name, id, k, rfl, by omega, leads⟩

/-- The blocks with detours have those of the function. -/
lemma Detours.contracted (h : Detours inserted f g place) (nonempty : f.blocks ≠ []) :
    Contracted cfgFlow cfgFlow (SameItem place) (InsertedItem inserted) place (functionItems f)
      (functionItems g) where
  entry := h.place_eq (List.length_pos_of_ne_nil nonempty)
  block {c items'} e := by
    obtain ⟨bb', hc, rfl⟩ := getElem?_functionItems e
    have lt := (List.getElem?_eq_some_iff.mp hc).1
    have old := h.place_lt lt
    refine ⟨itemsOf f (place c) f.blocks[place c],
      by simp [functionItems, List.getElem?_eq_getElem old], fun same => ?_⟩
    rw [same] at old
    have here := List.getElem?_eq_getElem old
    obtain ⟨name, calls, r, e', new, sent⟩ := h.original here
    obtain rfl := Option.some.inj (hc.symm.trans e')
    simp only [same]
    exact interleaved_itemsOf h.grown.args new fun r succ => (sent r succ).1
  leads {c items' b d} e moved mem jumps := by
    obtain ⟨bb', hc, rfl⟩ := getElem?_functionItems e
    obtain ⟨name, id, k, rfl, ne, leads⟩ := h.exists_block hc moved
    rw [itemsOf_syncBlock ne] at mem
    simp only [List.mem_cons, List.not_mem_nil, or_false] at mem
    obtain rfl | rfl := mem
    · cases jumps
    · obtain rfl := List.mem_singleton.mp (show d ∈ [k] from jumps)
      exact leads
  stays {b d} new jumps := by
    obtain ⟨i, text, rfl, -⟩ := new
    cases jumps
  continues {a b} same continues := by
    cases same with
    | argument | inst => trivial
    | term => cases continues
  jumps {a b d} same jumps := by
    cases same with
    | argument | inst => cases jumps
    | @term t h sent =>
      have jumps : d ∈ (t.mapSuccessors h).successors := jumps
      rw [Terminator.successors_mapSuccessors] at jumps
      obtain ⟨r, succ, rfl⟩ := List.mem_map.mp jumps
      exact show place (h r) ∈ t.successors from (sent r succ).symm ▸ succ
  nonempty {c items'} e := by
    obtain ⟨bb, -, rfl⟩ := getElem?_functionItems e
    simp [itemsOf]
  stops {c items' b} e continues := by
    obtain ⟨bb, -, last⟩ := getElem?_functionItems e
    rw [itemsOf, ← List.append_assoc] at last
    obtain ⟨-, rfl⟩ := List.append_singleton_inj.mp last
    cases continues

/-- A path to an item that uses a value is one to the item of the function. -/
lemma Detours.path (h : Detours inserted f g place) (nonempty : f.blocks ≠ [])
    {done' rest' : List Item} {c : Nat} {b : Item}
    (path : Path cfgFlow (functionItems g) done' c (b :: rest')) (uses : b.operands ≠ []) :
    ∃ done a rest, Path cfgFlow (functionItems f) done c (a :: rest) ∧ SameItem place a b ∧
      ∀ x ∈ done, ∃ y ∈ done', SameItem place x y := by
  obtain ⟨-, done, items, contracted, passed, same, -⟩ := path.contract (h.contracted nonempty)
  have kept : place c = c := by
    by_contra moved
    obtain ⟨before, block⟩ := path.suffix
    obtain ⟨bb, hc, items⟩ := getElem?_functionItems block
    obtain ⟨name, id, k, rfl, ne, -⟩ := h.exists_block hc moved
    have mem : b ∈ before ++ b :: rest' := by simp
    rw [items, itemsOf_syncBlock ne] at mem
    simp only [List.mem_cons, List.not_mem_nil, or_false] at mem
    obtain rfl | rfl := mem <;> exact uses rfl
  rw [kept] at contracted
  cases same kept with
  | kept same rest => exact ⟨_, _, _, contracted, same, passed⟩
  | put new rest => exact absurd new.operands_eq uses

/-- An item that uses a value is one of the function. -/
lemma Detours.mem_items (h : Detours inserted f g place) (nonempty : f.blocks ≠ [])
    {items' : List Item} (mem : items' ∈ functionItems g) {b : Item} (hb : b ∈ items')
    (uses : b.operands ≠ []) :
    ∃ items ∈ functionItems f, ∃ a ∈ items, SameItem place a b := by
  obtain ⟨c, lt, rfl⟩ := List.mem_iff_getElem.mp mem
  have e := List.getElem?_eq_getElem lt
  obtain ⟨items, block, same⟩ := (h.contracted nonempty).block e
  by_cases kept : place c = c
  · obtain ⟨a, ha, same⟩ | new := (same kept).mem hb
    · exact ⟨items, List.mem_of_getElem? block, a, ha, same⟩
    · exact absurd new.operands_eq uses
  · obtain ⟨bb, hc, items⟩ := getElem?_functionItems e
    obtain ⟨name, id, k, rfl, ne, -⟩ := h.exists_block hc kept
    rw [items, itemsOf_syncBlock ne] at hb
    simp only [List.mem_cons, List.not_mem_nil, or_false] at hb
    obtain rfl | rfl := hb <;> exact absurd rfl uses

/-- The instructions are those of the function, and calls of inserted texts and of `SYNC`. -/
lemma Detours.mem_body (h : Detours inserted f g place) {i : Llvm.Instruction}
    (mem : i ∈ bodyOf g) :
    i ∈ bodyOf f ∨ ∃ text, (inserted text ∨ text = "sync".toList) ∧
      i.operation = asmOperation text := by
  obtain ⟨bb', hbb, mem⟩ := List.mem_flatMap.mp mem
  obtain ⟨bb, old, name, calls, r, rfl, new, -⟩ | ⟨name, id, k, rfl, -⟩ := h.mem_blocks hbb
  · obtain mem | mem := List.mem_append.mp mem
    · exact .inl (List.mem_flatMap.mpr ⟨_, old, mem⟩)
    · obtain ⟨text, new, call⟩ := new i mem
      exact .inr ⟨text, .inl new, call⟩
  · obtain rfl := List.mem_singleton.mp mem
    exact .inr ⟨_, .inr rfl, rfl⟩

lemma Detours.subset_body (h : Detours inserted f g place) : bodyOf f ⊆ bodyOf g := by
  intro i mem
  obtain ⟨bb, hbb, mem⟩ := List.mem_flatMap.mp mem
  obtain ⟨b, lt, rfl⟩ := List.mem_iff_getElem.mp hbb
  obtain ⟨name, calls, r, e, -⟩ := h.original (List.getElem?_eq_getElem lt)
  exact List.mem_flatMap.mpr ⟨_, List.mem_of_getElem? e, List.mem_append_left _ mem⟩

/-- The edges stay in the function. -/
lemma Detours.closed (h : Detours inserted f g place) : g.Closed := by
  intro bb' hbb d succ
  obtain ⟨bb, -, name, calls, r, rfl, -, sent⟩ | ⟨name, id, k, rfl, inside⟩ := h.mem_blocks hbb
  · rw [Terminator.successors_mapSuccessors] at succ
    obtain ⟨d', succ', rfl⟩ := List.mem_map.mp succ
    exact (sent d' succ').2
  · obtain rfl := List.mem_singleton.mp succ
    exact inside

/-- Terminators that are values are those of the function. -/
lemma Detours.terminator_mem_instIds (h : Detours inserted f g place) {bb' : BasicBlock}
    (hbb : bb' ∈ g.blocks) {id : Nat} (defines : (Item.term bb'.terminator).defines = some id) :
    id ∈ f.instIds ∧ ∃ bb ∈ f.blocks, (Item.term bb.terminator).defines = some id := by
  obtain ⟨bb, mem, name, calls, r, rfl, -⟩ | ⟨name, id', k, rfl, -⟩ := h.mem_blocks hbb
  · have same : (Item.term (bb.terminator.mapSuccessors r)).defines =
        (Item.term bb.terminator).defines := by
      cases bb.terminator <;> rfl
    rw [same] at defines
    refine ⟨List.mem_flatMap.mpr ⟨_, mem, List.mem_append_right _ ?_⟩, _, mem, defines⟩
    cases term : bb.terminator with
    | other id' operands dests =>
      rw [term] at defines
      obtain rfl := Option.some.inj defines
      exact List.mem_singleton_self _
    | br | condBr | switch | ret | unreachable =>
      rw [term] at defines
      cases defines
  · cases defines

/-- Each value still has one definition, which every path to a use passes. -/
theorem Detours.ssa (h : Detours inserted f g place) (ssa : Ssa f)
    (nonempty : f.blocks ≠ []) : Ssa g where
  closed := h.closed
  ids := h.grown.nodup ssa.ids
  terminators bb hbb id defines i mem := by
    obtain ⟨known, bb', hbb', defines'⟩ := h.terminator_mem_instIds hbb defines
    obtain old | new := h.grown.fresh i mem
    · exact ssa.terminators bb' hbb' id defines' i old
    · exact fun same => new (same ▸ known)
  arguments items hitems b hb k mem := by
    obtain ⟨items', hitems', a, ha, same⟩ := h.mem_items nonempty hitems hb (List.ne_nil_of_mem mem)
    rw [h.grown.args]
    exact ssa.arguments items' hitems' a ha k (same.operands_eq ▸ mem)
  dominated done b a rest id path mem := by
    obtain ⟨done', a', rest', path', same, passed⟩ := h.path nonempty path (List.ne_nil_of_mem mem)
    obtain ⟨d, hd, defines⟩ := ssa.dominated _ _ _ _ id path' (same.operands_eq ▸ mem)
    obtain ⟨d', hd', same'⟩ := passed d hd
    exact ⟨d', hd', same'.defines_eq.trans defines⟩

/-- The values that the `phi`s of a function take from its blocks: each is there, and defined on
every path to the end of the block that it comes from. -/
structure SsaPhis (f : Llvm.Function) : Prop where
  blocks : ∀ i incoming, i ∈ bodyOf f → i.operation = .phi incoming → ∀ v p, (v, p) ∈ incoming →
    p < f.blocks.length
  arguments : ∀ i incoming, i ∈ bodyOf f → i.operation = .phi incoming → ∀ k p,
    (.argument k, p) ∈ incoming → k < f.args.length
  dominated : ∀ i incoming, i ∈ bodyOf f → i.operation = .phi incoming → ∀ id p,
    (.instruction id, p) ∈ incoming → ∀ done t, Path cfgFlow (functionItems f) done p [.term t] →
      ∃ d ∈ done ++ [.term t], d.defines = some id

/-- A path to the end of a block is one to its end in the function. -/
lemma Detours.path_end (h : Detours inserted f g place) (nonempty : f.blocks ≠ [])
    {done' : List Item} {b : Nat} {t' : Terminator} (old : b < f.blocks.length)
    (path : Path cfgFlow (functionItems g) done' b [.term t']) :
    ∃ done t, Path cfgFlow (functionItems f) done b [.term t] ∧
      ∀ x ∈ done ++ [.term t], ∃ y ∈ done' ++ [.term t'], SameItem place x y := by
  obtain ⟨-, done, items, contracted, passed, same, -⟩ := path.contract (h.contracted nonempty)
  have kept := h.place_eq old
  rw [kept] at contracted
  cases same kept with
  | put new _ =>
    obtain ⟨i, text, e, -⟩ := new
    cases e
  | @kept a _ items _ stands rest =>
    cases rest
    cases stands with
    | @term t r sent =>
      refine ⟨done, t, contracted, fun x mem => ?_⟩
      obtain mem | mem := List.mem_append.mp mem
      · obtain ⟨y, hy, same⟩ := passed x mem
        exact ⟨y, List.mem_append_left _ hy, same⟩
      · obtain rfl := List.mem_singleton.mp mem
        exact ⟨_, by simp, .term sent⟩

/-- The values that `phi`s take are still defined. -/
theorem Detours.ssaPhis (h : Detours inserted f g place) (phis : SsaPhis f)
    (nonempty : f.blocks ≠ []) :
    SsaPhis g := by
  have old : ∀ {i incoming}, i ∈ bodyOf g → i.operation = .phi incoming → i ∈ bodyOf f := by
    intro i incoming mem phi
    obtain old | ⟨text, -, call⟩ := h.mem_body mem
    · exact old
    · rw [phi] at call
      cases call
  refine ⟨fun i incoming mem phi v p use => ?_, fun i incoming mem phi k p use => ?_,
    fun i incoming mem phi id p use done t path => ?_⟩
  · exact Nat.lt_of_lt_of_le (phis.blocks i incoming (old mem phi) phi v p use) h.le
  · rw [h.grown.args]
    exact phis.arguments i incoming (old mem phi) phi k p use
  · have there := phis.blocks i incoming (old mem phi) phi _ p use
    obtain ⟨done', t', path', passed⟩ := h.path_end nonempty there path
    obtain ⟨d, hd, defines⟩ := phis.dominated i incoming (old mem phi) phi id p use _ _ path'
    obtain ⟨d', hd', same⟩ := passed d hd
    exact ⟨d', hd', same.defines_eq.trans defines⟩

/-! ## Uses -/

/-- Inserted calls do not use a result. -/
lemma Detours.branchOnly_eq (h : Detours inserted f g place) (id : Nat) :
    branchOnly g id = branchOnly f id := by
  have same : ∀ (t : Terminator) r, (t.mapSuccessors r).operands = t.operands := by
    intro t r
    cases t <;> simp [Terminator.mapSuccessors, Terminator.operands]
  rw [Bool.eq_iff_iff, branchOnly, branchOnly, List.all_eq_true, List.all_eq_true]
  constructor
  · intro all bb hbb
    obtain ⟨b, lt, rfl⟩ := List.mem_iff_getElem.mp hbb
    obtain ⟨name, calls, r, e, -⟩ := h.original (List.getElem?_eq_getElem lt)
    have here := all _ (List.mem_of_getElem? e)
    rw [Bool.and_eq_true, List.all_append, Bool.and_eq_true,
      Terminator.isCondBr_mapSuccessors, same] at here
    exact (Bool.and_eq_true ..).mpr ⟨here.1.1, here.2⟩
  · intro all bb' hbb
    obtain ⟨bb, old, name, calls, r, rfl, new, -⟩ | ⟨name, id, k, rfl, -⟩ := h.mem_blocks hbb
    · have unused := (Bool.and_eq_true ..).mp (all _ old)
      rw [Bool.and_eq_true, List.all_append, Bool.and_eq_true,
        Terminator.isCondBr_mapSuccessors, same]
      refine ⟨⟨unused.1, List.all_eq_true.mpr fun i mem => ?_⟩, unused.2⟩
      obtain ⟨text, -, call⟩ := new i mem
      rw [call]
      rfl
    · rfl

/-- A comparison by its result. -/
lemma icmp?_iff (ids : ((bodyOf f).map Llvm.Instruction.id).Nodup) {v op0 op1 : Value}
    {predicate : Llvm.Predicate} : icmp? f v = some (predicate, op0, op1) ↔
      ∃ id, v = .instruction id ∧ ⟨id, .icmp predicate op0 op1⟩ ∈ bodyOf f := by
  constructor
  · intro compares
    obtain ⟨id, mem, rfl⟩ := icmp?_eq_some compares
    exact ⟨id, rfl, mem⟩
  · rintro ⟨id, rfl, mem⟩
    have found : (bodyOf f).find? (·.id = id) = some ⟨id, .icmp predicate op0 op1⟩ := by
      cases found : (bodyOf f).find? (·.id = id) with
      | none => simpa using List.find?_eq_none.mp found _ mem
      | some i =>
        have same : i.id = id := by simpa using List.find?_some found
        exact congrArg some (List.inj_on_of_nodup_map ids
          (List.mem_of_find?_eq_some found) mem same)
    rw [bodyOf] at found
    simp only [icmp?, found]

/-- Conditions are the same. -/
lemma Detours.icmp?_eq (h : Detours inserted f g place)
    (ids : ((bodyOf f).map Llvm.Instruction.id).Nodup) (v : Value) : icmp? g v = icmp? f v := by
  refine Option.ext fun ⟨predicate, op0, op1⟩ => ?_
  rw [icmp?_iff ids, icmp?_iff (h.grown.nodup ids)]
  refine exists_congr fun id => and_congr_right fun _ =>
    ⟨fun mem => ?_, fun mem => h.subset_body mem⟩
  obtain old | ⟨text, -, call⟩ := h.mem_body mem
  · exact old
  · cases call

/-- An item has the uses that it had. -/
lemma Detours.usesOf_eq (dl : DataLayout) (h : Detours inserted f g place)
    (ids : ((bodyOf f).map Llvm.Instruction.id).Nodup) {a b : Item} (same : SameItem place a b) :
    usesOf dl g b = usesOf dl f a := by
  cases same with
  | argument => rfl
  | inst i => simp only [usesOf, uses, h.branchOnly_eq]
  | @term t r sent =>
    cases t with
    | condBr cond ifTrue ifFalse =>
      simp only [usesOf, Terminator.mapSuccessors, terminatorUses, conditionUses, h.icmp?_eq ids]
    | br | switch | ret | unreachable | other => rfl

/-- An inserted call has no uses. -/
lemma InsertedItem.usesOf_eq {a : Item} (h : InsertedItem inserted a) : usesOf dl g a = [] := by
  obtain ⟨⟨id, operation⟩, text, rfl, -, call⟩ := h
  obtain rfl : operation = _ := call
  simp only [usesOf, uses, asmOperation]
  cases asmForm (lower text) <;> rfl

/-! ## First uses -/

lemma markBlocks_append (seen : List (Value × Bool)) (blocks more : List (List Item)) :
    ∃ more', markBlocks dl f seen (blocks ++ more) = markBlocks dl f seen blocks ++ more' := by
  induction blocks generalizing seen with
  | nil => exact ⟨_, rfl⟩
  | cons items blocks ih =>
    obtain ⟨more', e⟩ := ih (seen ++ items.flatMap (usesOf dl f))
    exact ⟨more', by rw [List.cons_append, markBlocks, markBlocks, e, List.cons_append]⟩

/-- The same item, with the same uses before it. -/
def SameMark (place : Nat → Nat) (m m' : Marked) : Prop :=
  SameItem place m.item m'.item ∧ m'.seen = m.seen

/-- The marks of a block are there. -/
lemma Detours.mark (dl : DataLayout) (h : Detours inserted f g place)
    (ids : ((bodyOf f).map Llvm.Instruction.id).Nodup) {items items' : List Item}
    (same : Interleaved (SameItem place) (InsertedItem inserted) items items')
    (seen : List (Value × Bool)) :
    Interleaved (SameMark place) (fun m => InsertedItem inserted m.item) (mark dl f seen items)
        (FpgaGpu.mark dl g seen items') ∧
      items'.flatMap (usesOf dl g) = items.flatMap (usesOf dl f) := by
  induction same generalizing seen with
  | nil => exact ⟨.nil, rfl⟩
  | kept same _ ih =>
    have uses := h.usesOf_eq dl ids same
    obtain ⟨marks, rest⟩ := ih (seen ++ usesOf dl f _)
    refine ⟨.kept ⟨same, rfl⟩ (uses ▸ marks), ?_⟩
    rw [List.flatMap_cons, List.flatMap_cons, uses, rest]
  | put new _ ih =>
    have none : usesOf dl g _ = [] := new.usesOf_eq
    obtain ⟨marks, rest⟩ := ih seen
    refine ⟨.put new ?_, ?_⟩
    · rwa [none, List.append_nil]
    · rwa [List.flatMap_cons, none, List.nil_append]

/-- The marks of the blocks are there. -/
lemma Detours.markBlocks (dl : DataLayout) (h : Detours inserted f g place)
    (ids : ((bodyOf f).map Llvm.Instruction.id).Nodup) {blocks blocks' : List (List Item)}
    (same : List.Forall₂ (Interleaved (SameItem place) (InsertedItem inserted)) blocks blocks')
    (seen : List (Value × Bool)) :
    List.Forall₂ (Interleaved (SameMark place) fun m => InsertedItem inserted m.item)
      (markBlocks dl f seen blocks) (FpgaGpu.markBlocks dl g seen blocks') := by
  induction same generalizing seen with
  | nil => exact .nil
  | cons same _ ih =>
    obtain ⟨marks, uses⟩ := h.mark dl ids same seen
    refine .cons marks ?_
    rw [uses]
    exact ih _

/-- The marked blocks with detours have those of the function. -/
lemma Detours.contracted_marks (h : Detours inserted f g place)
    (ids : ((bodyOf f).map Llvm.Instruction.id).Nodup) (nonempty : f.blocks ≠ []) :
    Contracted markedFlow markedFlow (SameMark place) (fun m => InsertedItem inserted m.item) place
      (markedItems dl f) (markedItems dl g) := by
  have items := h.contracted nonempty
  have unmark : ∀ {f : Llvm.Function} {c : Nat} {ms : List Marked},
    (markedItems dl f)[c]? = some ms →
      (functionItems f)[c]? = some (ms.map Marked.item) := by
    intro f c ms e
    rw [← item_markBlocks dl f [] (functionItems f), List.getElem?_map]
    exact congrArg (Option.map _) e
  -- the blocks of the function are the first ones
  have front : ∃ more, markedItems dl g =
      FpgaGpu.markBlocks dl g [] ((functionItems g).take f.blocks.length) ++ more := by
    rw [markedItems]
    conv => enter [1, more, 1]; rw [← List.take_append_drop f.blocks.length (functionItems g)]
    exact markBlocks_append ..
  obtain ⟨more, front⟩ := front
  have same : List.Forall₂ (Interleaved (SameItem place) (InsertedItem inserted)) (functionItems f)
      ((functionItems g).take f.blocks.length) := by
    have le := h.le
    refine List.forall₂_iff_get.mpr ⟨by simp [functionItems, le], fun b lt lt' => ?_⟩
    have old : b < f.blocks.length := by simpa [functionItems] using lt
    have new : b < (functionItems g).length := by simp [functionItems]; omega
    obtain ⟨as, block, same⟩ := items.block (List.getElem?_eq_getElem new)
    rw [h.place_eq old, List.getElem?_eq_getElem lt] at block
    obtain rfl := Option.some.inj block
    simpa using same (h.place_eq old)
  have marks := h.markBlocks dl ids same []
  refine ⟨items.entry, fun {c ms'} e => ?_, fun {c ms' m d} e moved mem => ?_,
    fun new => items.stays new,
    fun {m m'} same continues => ?_, fun same => items.jumps same.1, fun {c ms'} e => ?_,
    fun {c ms' m} e continues => ?_⟩
  · obtain ⟨as, block, -⟩ := items.block (unmark e)
    have lt : place c < (markedItems dl f).length := by
      have lt := (List.getElem?_eq_some_iff.mp block).1
      rwa [← item_markBlocks dl f [] (functionItems f), List.length_map] at lt
    refine ⟨_, List.getElem?_eq_getElem lt, fun kept => ?_⟩
    simp only [kept] at lt ⊢
    have here := (List.forall₂_iff_get.mp marks).2 c lt (marks.length_eq ▸ lt)
    rw [front, List.getElem?_append_left (marks.length_eq ▸ lt),
      List.getElem?_eq_getElem (marks.length_eq ▸ lt)] at e
    obtain rfl := Option.some.inj e
    exact here
  · exact items.leads (unmark e) moved (List.mem_map_of_mem mem)
  · obtain ⟨item, seen⟩ := m
    obtain ⟨item', seen'⟩ := m'
    obtain ⟨same, -⟩ := same
    cases same with
    | argument => trivial
    | inst i => exact continues
    | term => cases continues
  · have ne := items.nonempty (unmark e)
    simpa using ne
  · refine items.stops (by simpa using unmark e) (b := m.item) ?_
    obtain ⟨item, seen⟩ := m
    cases item with
    | argument | inst => trivial
    | term => cases continues

/-- Constants are still loaded by their first uses. -/
lemma Detours.firstUsesLoad (h : Detours inserted f g place)
    (ids : ((bodyOf f).map Llvm.Instruction.id).Nodup) (nonempty : f.blocks ≠ [])
    (loads : FirstUsesLoad dl f) :
    FirstUsesLoad dl g := by
  intro done c m rest path w bits loaded nonzero used
  obtain ⟨-, done', ms, contracted, passed, same, -⟩ :=
    path.contract (h.contracted_marks ids nonempty)
  have kept : place c = c := by
    by_contra moved
    obtain ⟨before, block⟩ := path.suffix
    have block : (functionItems g)[c]? = some ((before ++ m :: rest).map Marked.item) := by
      rw [← item_markBlocks dl g [] (functionItems g), List.getElem?_map]
      exact congrArg (Option.map _) block
    obtain ⟨bb, hc, items⟩ := getElem?_functionItems block
    obtain ⟨name, id, k, rfl, ne, -⟩ := h.exists_block hc moved
    have mem : m.item ∈ (before ++ m :: rest).map Marked.item := by simp
    rw [items, itemsOf_syncBlock ne] at mem
    simp only [List.mem_cons, List.not_mem_nil, or_false] at mem
    obtain e | e := mem
    · rw [e] at used
      cases used
    · rw [e] at used
      cases used
  rw [kept] at contracted
  cases same kept with
  | put new rest =>
    rw [new.usesOf_eq] at used
    cases used
  | @kept m₀ _ ms _ same rest =>
    rw [h.usesOf_eq dl ids same.1] at used
    obtain ⟨x, hx, unseen, load⟩ := loads _ c m₀ _ contracted w bits loaded nonzero used
    have there : ∃ y ∈ done ++ [m], SameMark place x y := by
      obtain hx | hx := List.mem_append.mp hx
      · obtain ⟨y, hy, same⟩ := passed x hx
        exact ⟨y, List.mem_append_left _ hy, same⟩
      · obtain rfl := List.mem_singleton.mp hx
        exact ⟨m, by simp, same⟩
    obtain ⟨y, hy, same', seen⟩ := there
    refine ⟨y, hy, seen ▸ unseen, ?_⟩
    rw [h.usesOf_eq dl ids same', load]

/-! ## Kernels -/

lemma Detours.wordIds_subset (h : Detours inserted f g place) : wordIds f ⊆ wordIds g := by
  intro id mem
  obtain ⟨i, hi, rfl⟩ := List.mem_map.mp mem
  obtain ⟨hi, produces⟩ := List.mem_filter.mp hi
  exact List.mem_map_of_mem (List.mem_filter.mpr ⟨h.subset_body hi, produces⟩)

/-- An instruction of a kernel is one with detours. -/
lemma Detours.flowInstruction (h : Detours inserted f g place) {i : Llvm.Instruction}
    (flow : FlowInstruction dl f i) : FlowInstruction dl g i := by
  have known : ∀ id ∈ wordIds f, id ∈ wordIds g := fun id mem => h.wordIds_subset mem
  have args := h.grown.args
  cases flow with
  | kernel operation => exact .kernel (args ▸ operation.restrict fun id mem _ => known id mem)
  | compare icmp word0 word1 branch =>
    exact .compare icmp (args ▸ word0.restrict fun id mem _ => known id mem)
      (args ▸ word1.restrict fun id mem _ => known id mem) ((h.branchOnly_eq i.id).trans branch)
  | read asm device => exact .read asm device
  | load asm device operand =>
      exact .load asm device (args ▸ operand.restrict fun id mem _ => known id mem)
  | store asm device word operand =>
    exact .store asm device (args ▸ word.restrict fun id mem _ => known id mem)
      (args ▸ operand.restrict fun id mem _ => known id mem)
  | marker asm device form => exact .marker asm device form

/-- A kernel with detours over calls that mark is a kernel. -/
theorem Detours.flowKernel (h : Detours inserted f g place) (kernel : FlowKernel dl f)
    (nonempty : f.blocks ≠ []) (entry : ∀ bb ∈ g.blocks, 0 ∉ bb.terminator.successors)
    (marks : ∀ text, inserted text → Llvm.deviceAsm? text = some .marker ∧
      (asmForm (lower text) = .ssy ∨ asmForm (lower text) = .sync)) : FlowKernel dl g where
  ssa := h.ssa kernel.ssa nonempty
  entry := entry
  instructions i mem := by
    obtain old | ⟨text, new, call⟩ := h.mem_body mem
    · exact h.flowInstruction (kernel.instructions i old)
    · obtain new | rfl := new
      · obtain ⟨marker, form⟩ := marks text new
        exact .marker call marker form
      · exact .marker call (by decide) (.inr (by decide))
  terminators bb' hbb := by
    obtain ⟨bb, old, name, calls, r, rfl, -⟩ | ⟨name, id, k, rfl, -⟩ := h.mem_blocks hbb
    · have flow := kernel.terminators bb old
      show FlowTerminator g (bb.terminator.mapSuccessors r)
      cases term : bb.terminator with
      | br | ret => trivial
      | condBr cond ifTrue ifFalse =>
        rw [term] at flow
        obtain ⟨predicate, op0, op1, compares⟩ := flow
        exact ⟨predicate, op0, op1, (h.icmp?_eq kernel.ssa.ids cond).trans compares⟩
      | switch | unreachable | other =>
        rw [term] at flow
        cases flow
    · trivial
  loads := h.firstUsesLoad kernel.ssa.ids nonempty kernel.loads

end Items

/-- A label without `s2r` survives as a marker. -/
lemma asmForm_ssyAsm_marker {name : Text} (plain : contains (lower name) "s2r".toList = false) :
    asmForm (lower ("ssy ".toList ++ name)) = .ssy ∨
      asmForm (lower ("ssy ".toList ++ name)) = .sync := by
  have split : lower ("ssy ".toList ++ name) = 's' :: 's' :: 'y' :: ' ' :: lower name := by
    rw [lower, List.map_append]
    rfl
  have s2r : contains ('s' :: 's' :: 'y' :: ' ' :: lower name) "s2r".toList =
      contains (lower name) "s2r".toList := rfl
  have sync : contains ('s' :: 's' :: 'y' :: ' ' :: lower name) "sync".toList =
      contains (lower name) "sync".toList := rfl
  cases there : contains (lower name) "sync".toList with
  | false => exact .inl ((asmForm_ssyAsm name).mpr ⟨plain, there⟩)
  | true =>
    right
    rw [split, asmForm, s2r, plain, sync, there]
    rfl

/-- The pass keeps kernels, if no name of a reconvergence block is taken for `S2R`. -/
theorem runDivergencePass_flowKernel {llvm : Analyses} {dl : DataLayout} {f : Llvm.Function}
    (kernel : FlowKernel dl f) (faithful : llvm.Faithful (nameBlocks llvm f))
    (nonempty : f.blocks ≠ []) (names : ∀ b ipd, llvm.ipdom (nameBlocks llvm f) b = some ipd →
      contains (lower ((nameBlocks llvm f).blockName ipd)) "s2r".toList = false) :
    FlowKernel dl (runDivergencePass llvm f) := by
  refine (runDivergencePass_detours kernel.ssa.closed faithful).flowKernel kernel nonempty
    (runDivergencePass_entry faithful kernel.entry nonempty) ?_
  rintro text ⟨b, ipd, join, rfl⟩
  exact ⟨deviceAsm?_ssyAsm _ ipd, asmForm_ssyAsm_marker (names b ipd join)⟩

/-- The pass keeps that each value has one definition, which every path to a use passes, and for a
use by a `phi` every path to the end of the block that the `phi` names. -/
theorem runDivergencePass_ssa {llvm : Analyses} {f : Llvm.Function} (ssa : Ssa f) (phis : SsaPhis f)
    (faithful : llvm.Faithful (nameBlocks llvm f)) :
    Ssa (runDivergencePass llvm f) ∧ SsaPhis (runDivergencePass llvm f) := by
  by_cases empty : f.blocks = []
  · have declaration : f.isDeclaration = true := List.isEmpty_iff.mpr empty
    rw [runDivergencePass, if_pos declaration]
    exact ⟨ssa, phis⟩
  · have detours := runDivergencePass_detours ssa.closed faithful
    exact ⟨detours.ssa ssa empty, detours.ssaPhis phis empty⟩

/-- A conditional branch stands behind the definition of a value. -/
def definedAtBranch (id : Nat) (passed : List Item) : Item → Bool
  | .term (.condBr ..) => passed.any fun d => d.defines = some id
  | _ => true

/-- The result of the `phi` of a loop is defined at the end of the loop. -/
lemma doWhile_ssaPhis : SsaPhis doWhile := by
  have only : ∀ {i incoming}, i ∈ bodyOf doWhile → i.operation = .phi incoming →
      incoming = [(.argument 0, 0), (.instruction 0, 1)] := by
    intro i incoming mem phi
    obtain rfl : i = ⟨0, .phi [(.argument 0, 0), (.instruction 0, 1)]⟩ := List.mem_singleton.mp mem
    exact (Llvm.Operation.phi.inj phi).symm
  refine ⟨fun i incoming mem phi v p use => ?_, fun i incoming mem phi k p use => ?_,
    fun i incoming mem phi id p use done t path => ?_⟩ <;> rw [only mem phi] at use
  · have bounds : ∀ use ∈ [(Value.argument 0, 0), (.instruction 0, 1)], use.2 < 3 := by decide
    exact bounds _ use
  · obtain ⟨rfl, -⟩ : k = 0 ∧ p = 0 := by simpa using use
    decide
  · obtain ⟨rfl, rfl⟩ : id = 0 ∧ p = 1 := by simpa using use
    -- the loop ends in the only conditional branch
    obtain ⟨before, block⟩ := path.suffix
    have last := congrArg (Option.bind · List.getLast?) block
    rw [Option.bind_some, List.getLast?_concat] at last
    obtain rfl : .condBr (.argument 1) 1 2 = t := Item.term.inj (Option.some.inj last)
    have check : definedAtBranch 0 done (.term (.condBr (.argument 1) 1 2)) = true := by
      refine path.check_of_path (fun {passed done a} sub h => ?_)
        (fun items h a mem d => straight_entry h mem d) (by decide)
      unfold definedAtBranch at h ⊢
      split at h
      · obtain ⟨d, mem, same⟩ := List.any_eq_true.mp h
        exact List.any_eq_true.mpr ⟨d, sub mem, same⟩
      · rfl
    obtain ⟨d, mem, same⟩ := List.any_eq_true.mp check
    exact ⟨d, List.mem_append_left _ mem, of_decide_eq_true same⟩

/-- The pass on a loop with a `phi`. -/
theorem runDivergencePass_ssa_doWhile : Ssa (runDivergencePass doWhileAnalyses doWhile) ∧
    SsaPhis (runDivergencePass doWhileAnalyses doWhile) := by
  have ssa : Ssa doWhile := .of_checks (by decide) (by decide) (by decide) (by decide) (by decide)
  exact runDivergencePass_ssa ssa doWhile_ssaPhis doWhile_faithful

end FpgaGpu

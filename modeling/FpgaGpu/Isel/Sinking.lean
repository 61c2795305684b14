import FpgaGpu.Isel.Comparison
import FpgaGpu.Isel.Execution

/-!
# Comparisons that are sunk to their branches

A branch on a comparison compares the operands once more, wherever the comparison stands. Control
that comes to the branch has passed the comparison, and an operand that was written again since then
would give a path to the branch that avoids the comparison.
-/

namespace FpgaGpu

open Llvm (Value Terminator)
open ControlFlow (Path)

/-! ## The place of a value -/

section Places

variable {α β : Type} {g : α → Option β}

/-- What has a value stands at one place of a list whose values are distinct. -/
lemma place_in_list {l x y x' y' : List α} {a a' : α} {v : β} (distinct : (l.filterMap g).Nodup)
    (h : l = x ++ a :: y) (h' : l = x' ++ a' :: y') (ha : g a = some v) (ha' : g a' = some v) :
    a = a' ∧ y = y' := by
  subst h
  have twice : ∀ {x y z : List α} {a a' : α}, ((x ++ a :: (y ++ a' :: z)).filterMap g).Nodup →
      g a = some v → g a' = some v → False := by
    intro x y z a a' nodup ha ha'
    simp [List.filterMap_append, ha, ha', List.nodup_append] at nodup
  have parts : (x ++ [a]) ++ y = x' ++ a' :: y' := by simpa using h'
  obtain ⟨t, rfl, e⟩ | ⟨t, e⟩ := split_parts parts
  · subst e
    exact (twice distinct ha ha').elim
  · cases t using List.reverseRecOn with
    | nil =>
      obtain ⟨rfl, same⟩ := List.append_inj' e rfl
      obtain rfl := List.singleton_inj.mp same
      exact ⟨rfl, by simpa using h'⟩
    | append_singleton t b =>
      rw [← List.cons_append, ← List.append_assoc] at e
      obtain ⟨rfl, e⟩ := List.append_inj' e rfl
      rw [List.append_assoc, List.cons_append] at distinct
      exact (twice distinct ha' ha).elim

/-- What has a value stands at one place of blocks whose values are distinct. -/
lemma place_in_blocks {blocks : List (List α)} {b b' : Nat} {x y x' y' : List α} {a a' : α} {v : β}
    (distinct : (blocks.flatten.filterMap g).Nodup) (h : blocks[b]? = some (x ++ a :: y))
    (h' : blocks[b']? = some (x' ++ a' :: y')) (ha : g a = some v) (ha' : g a' = some v) :
    b = b' ∧ a = a' ∧ y = y' := by
  induction blocks generalizing b b' with
  | nil => cases h
  | cons items blocks ih =>
    rw [List.flatten_cons, List.filterMap_append, List.nodup_append] at distinct
    obtain ⟨here, rest, apart⟩ := distinct
    have mem : ∀ {l : List α} {x y a}, l = x ++ a :: y → g a = some v → v ∈ l.filterMap g :=
      fun e ha => List.mem_filterMap.mpr ⟨_, e ▸ by simp, ha⟩
    have mem_rest : ∀ {k x y a}, blocks[k]? = some (x ++ a :: y) → g a = some v →
        v ∈ blocks.flatten.filterMap g :=
      fun e ha => List.mem_filterMap.mpr
        ⟨_, List.mem_flatten.mpr ⟨_, List.mem_of_getElem? e, by simp⟩, ha⟩
    cases b <;> cases b'
    · exact ⟨rfl, place_in_list here (Option.some.inj h) (Option.some.inj h') ha ha'⟩
    · exact absurd rfl (apart v (mem (Option.some.inj h) ha) v (mem_rest h' ha'))
    · exact absurd rfl (apart v (mem (Option.some.inj h') ha') v (mem_rest h ha))
    · obtain ⟨rfl, same⟩ := ih rest h h'
      exact ⟨rfl, same⟩

end Places

section Sinking

variable {hw : Hardware} {dl : DataLayout} {f : Llvm.Function} {code : List SelectedBlock}
  {st : Selector}
variable {pieces : List (List Piece)} {seen : List (Value × Bool)}

/-- Every path to an instruction passes what defines its operands. -/
lemma Ssa.passes (ssa : Ssa f) {done rest items : List Item} {b : Nat} {i : Llvm.Instruction}
    (path : Path cfgFlow (functionItems f) done b (.inst i :: rest)) {v : Value}
    (operand : v ∈ (Item.inst i).operands) {d : Item} (hitems : items ∈ functionItems f)
    (hd : d ∈ items) (result : d.result = some v) : d ∈ done := by
  cases d with
  | term t => cases result
  | inst j =>
    obtain rfl := Option.some.inj result
    obtain ⟨d, mem, defines⟩ := ssa.dominated done b _ rest j.id path operand
    obtain ⟨done', b', rest', path', -⟩ := path.mem_done mem
    obtain ⟨before, block⟩ := path'.suffix
    obtain rfl := ssa.defines_eq (List.mem_of_getElem? block) (by simp)
      (mem_bodyOf hitems hd) defines
    exact mem
  | argument k arg =>
    obtain ⟨b', lt, rfl⟩ := List.mem_mapIdx.mp hitems
    -- the argument is one of those at the start of the first block
    have first : b' = 0 ∧ Item.argument k arg ∈ argumentItems 0 f.args := by
      obtain mem | mem := List.mem_append.mp hd
      · split at mem
        · exact ⟨‹_›, mem⟩
        · cases mem
      · obtain mem | mem := List.mem_append.mp mem
        · obtain ⟨j, -, e⟩ := List.mem_map.mp mem
          cases e
        · cases List.mem_singleton.mp mem
    obtain ⟨rfl, mem⟩ := first
    have entry : (functionItems f)[0]? = some (itemsOf f 0 f.blocks[0]) := by
      simp [functionItems, List.getElem?_mapIdx, List.getElem?_eq_getElem lt]
    rw [itemsOf, if_pos rfl] at entry
    have straight : ∀ a ∈ argumentItems 0 f.args, ∀ d, ¬ cfgFlow.jumps a d := by
      intro a ha d jump
      obtain ⟨k, arg, rfl⟩ := not_term_of_mem_argumentItems ha
      exact jump
    obtain ⟨as, split, e⟩ | all := path.first entry straight
    · cases as with
      | nil =>
        rw [List.append_nil] at split
        exact split ▸ mem
      | cons a as =>
        obtain ⟨rfl, -⟩ := List.cons.inj e
        obtain ⟨k, arg, e⟩ := not_term_of_mem_argumentItems
          (split ▸ List.mem_append_right _ List.mem_cons_self)
        cases e
    · exact all _ mem

/-- A path to what defines an operand of an instruction can do without the instruction. -/
lemma Ssa.avoid (ssa : Ssa f) {done rest : List Item} {b : Nat} {d : Item}
    {i : Llvm.Instruction} {v : Value} (operand : v ∈ (Item.inst i).operands)
    (result : d.result = some v) (path : Path cfgFlow (functionItems f) done b (d :: rest)) :
    ∃ done, Path cfgFlow (functionItems f) done b (d :: rest) ∧ .inst i ∉ done := by
  obtain ⟨before, block⟩ := path.suffix
  refine ControlFlow.Walk.avoid (fun done' b' rest' path' => ?_)
    (fun done' b' rest' path' => ?_) path
  · exact ssa.passes path' operand (List.mem_of_getElem? block) (by simp) result
  · obtain ⟨before', block'⟩ := path'.suffix
    obtain ⟨rfl, -, rfl⟩ := place_in_blocks (nodup_results ssa.ids) block' block result result
    exact ⟨rfl, rfl⟩

/-- What writes the register of a value that is no constant is a piece of this value. -/
lemma PieceChain.result_of_write (chain : PieceChain dl f [] Selector.start pieces.flatten seen st)
    {p : Piece} (hp : p ∈ pieces.flatten) {e : Emitted} (he : e ∈ p.code) {r : Nat}
    (write : e.mi.writes = some r) {v : Value} (reg : st.valueToVReg v = some r)
    (notConstant : isConstantInt v = false) : p.item.result = some v := by
  obtain ⟨valid, select⟩ := chain.select Selector.valid_start p hp
  obtain ⟨valid', -, spec⟩ := chain.spec Selector.valid_start
  obtain ⟨-, grows⟩ := spec p hp
  obtain ⟨-, all⟩ := destinations_piece valid select
  obtain ⟨lt, ⟨w, result, reg'⟩ | ⟨-, anonymous⟩⟩ :=
    all r (mem_destinations.mpr ⟨e.mi, List.mem_map_of_mem he, write⟩)
  · obtain rfl := valid'.inj (grows.keeps reg') reg
    exact result
  · have constant := grows.anonymous anonymous lt v reg
    rw [notConstant] at constant
    cases constant

/-! ## Moments -/

/-- Control is behind the own position of an instruction and before what follows it. -/
def Past (f : Llvm.Function) (code : List SelectedBlock) (i : Llvm.Instruction)
    (s : Running hw) : Prop :=
  ∃ bb before after sb executed, f.blocks[s.block]? = some bb ∧ bb.body = before ++ i :: after ∧
    code[s.block]? = some sb ∧ sb.items = executed ++ s.rest ∧
    (∀ e ∈ executed, (∃ k, e.origin = .argument k) ∨
      ∃ j ∈ before ++ [i], e.origin = .instruction j.id) ∧
    ∀ e ∈ s.rest, (∃ j ∈ after, e.origin = .instruction j.id) ∨ e.origin = .terminator ∨
      ∃ d, e.origin = .edge d

/-- The registers of those of the values that are no constants are, after `n` steps, what they were
when control was last past the instruction. -/
def HeldSince (f : Llvm.Function) (code : List SelectedBlock) (st : Selector)
    (thread : Thread hw RegField) (i : Llvm.Instruction) (values : List Value) (n : Nat)
    (s : Running hw) : Prop :=
  ∃ m s₀, m ≤ n ∧ stateAt code thread m = some s₀ ∧ Past f code i s₀ ∧
    (∀ m' s', m < m' → m' ≤ n → stateAt code thread m' = some s' → ¬ Past f code i s') ∧
    ∀ v ∈ values, isConstantInt v = false → ∀ r, st.regOf v = some r →
      s.thread.regs (narrow r) = s₀.thread.regs (narrow r)

/-- What the code of a terminator is emitted for. -/
lemma CodeShape.origin_term {after : Selector} {t : Terminator} {code : List Emitted}
    (shape : CodeShape f after (.term t) code) {e : Emitted} (he : e ∈ code) :
    e.origin = .terminator ∨ ∃ d, e.origin = .edge d := by
  cases t with
  | br dest =>
    rw [show code = _ from shape] at he
    obtain rfl := List.mem_singleton.mp he
    exact .inr ⟨_, rfl⟩
  | condBr c s s' =>
    obtain ⟨cmp, cond, rfl, -, plain⟩ := shape
    obtain he | he := List.mem_append.mp he
    · exact .inl (plain e he).1
    · obtain rfl | rfl : e = _ ∨ e = _ := by simpa using he
      · exact .inr ⟨_, rfl⟩
      · exact .inr ⟨_, rfl⟩
  | ret value =>
    obtain ⟨e', rfl, origin, -⟩ := shape
    obtain rfl := List.mem_singleton.mp he
    exact .inl origin
  | switch | unreachable | other =>
    rw [show code = [] from shape] at he
    cases he

/-- The items of a block around an instruction. -/
lemma itemsOf_split {b : Nat} {bb : Llvm.BasicBlock} {before after : List Item}
    {i : Llvm.Instruction} (h : itemsOf f b bb = before ++ .inst i :: after) :
    ∃ args body body', before = args ++ body.map .inst ∧
      (∀ a ∈ args, ∃ k arg, a = .argument k arg) ∧
      after = body'.map .inst ++ [.term bb.terminator] ∧ bb.body = body ++ i :: body' := by
  have arguments : ∀ a ∈ (if b = 0 then argumentItems 0 f.args else []), ∃ k arg,
      a = .argument k arg := by
    intro a ha
    split at ha
    · exact not_term_of_mem_argumentItems ha
    · cases ha
  obtain ⟨t, rfl, rest⟩ | ⟨t, split⟩ := split_parts h
  · obtain ⟨t', -, last⟩ | ⟨t', split⟩ := split_parts rest
    · cases t' with
      | nil => cases last
      | cons a t' => simp at last
    · obtain ⟨body, rest', e, rfl, e'⟩ := List.map_eq_append_iff.mp split
      obtain ⟨j, body', rfl, same, rfl⟩ := List.map_eq_cons_iff.mp e'
      obtain rfl := Item.inst.inj same
      refine ⟨_, body, body', rfl, arguments, ?_, e⟩
      rw [split, List.append_assoc] at rest
      exact (List.cons.inj (List.append_cancel_left rest)).2.symm
  · obtain ⟨k, arg, e⟩ := arguments (.inst i) (split ▸ by simp)
    cases e

/-- A block of pieces has its code. -/
lemma Selected.block_code (selected : Selected dl f code st pieces) {b : Nat} {ps : List Piece}
    (h : pieces[b]? = some ps) : ∃ sb, code[b]? = some sb ∧ sb.items = ps.flatMap Piece.code := by
  have items : (code.map SelectedBlock.items)[b]? = some (ps.flatMap Piece.code) := by
    rw [selected.blocks, ControlFlow.expand, List.getElem?_map, h]
    rfl
  rw [List.getElem?_map, Option.map_eq_some_iff] at items
  exact items

/-- Behind the code of a piece control is past its instruction. -/
lemma Selected.past (selected : Selected dl f code st pieces) {s : Running hw}
    {before after : List Piece} {p : Piece} {i : Llvm.Instruction} (item : p.item = .inst i)
    (block : pieces[s.block]? = some (before ++ p :: after))
    (rest : s.rest = after.flatMap Piece.code) :
    Past f code i s := by
  obtain ⟨bb, at_block, items⟩ := selected.block block
  obtain ⟨sb, at_code, all⟩ := selected.block_code block
  rw [List.map_append, List.map_cons, item] at items
  obtain ⟨args, body, body', first, arguments, last, split⟩ := itemsOf_split items.symm
  have spec : ∀ q ∈ before ++ p :: after, CodeShape f q.after q.item q.code := fun q hq =>
    (selected.spec _ (List.mem_of_getElem? block) q hq).1.shape
  have instruction : ∀ q ∈ before ++ p :: after, ∀ j, q.item = .inst j → ∀ e ∈ q.code,
      e.origin = .instruction j.id := by
    intro q hq j hj e he
    have shape := spec q hq
    rw [hj] at shape
    exact (shape.1 e he).1
  refine ⟨bb, body, body', sb, (before ++ [p]).flatMap Piece.code, at_block, split, at_code, ?_,
    fun e he => ?_, fun e he => ?_⟩
  · rw [all, rest, ← List.flatMap_append, List.append_assoc]
    rfl
  · obtain ⟨q, mem, he⟩ := List.mem_flatMap.mp he
    obtain hq | hq := List.mem_append.mp mem
    · have mem : q.item ∈ args ++ body.map .inst := first ▸ List.mem_map_of_mem hq
      obtain mem | mem := List.mem_append.mp mem
      · obtain ⟨k, arg, e'⟩ := arguments _ mem
        have shape := spec q (by simp [hq])
        rw [e'] at shape
        exact .inl ⟨k, (shape.1 e he).1⟩
      · obtain ⟨j, hj, e'⟩ := List.mem_map.mp mem
        exact .inr ⟨j, by simp [hj], instruction q (by simp [hq]) j e'.symm e he⟩
    · obtain rfl := List.mem_singleton.mp hq
      exact .inr ⟨i, by simp, instruction _ (by simp) i item e ‹_›⟩
  · rw [rest] at he
    obtain ⟨q, hq, he⟩ := List.mem_flatMap.mp he
    have mem : q.item ∈ body'.map .inst ++ [.term bb.terminator] := last ▸ List.mem_map_of_mem hq
    obtain mem | mem := List.mem_append.mp mem
    · obtain ⟨j, hj, e'⟩ := List.mem_map.mp mem
      exact .inl ⟨j, hj, instruction q (by simp [hq]) j e'.symm e he⟩
    · have shape := spec q (by simp [hq])
      rw [List.mem_singleton.mp mem] at shape
      exact .inr (shape.origin_term he)

/-! ## The invariant of a run -/

/-- A state is at a piece, to which a path through the function leads. -/
structure Placed (f : Llvm.Function) (code : List SelectedBlock) (pieces : List (List Piece))
    (s : Running hw) (passed : List Item) (p : Piece) (after : List Piece) : Prop where
  block : ∃ before, pieces[s.block]? = some (before ++ p :: after)
  inside : ControlFlow.Inside (codeFlow (code.map SelectedBlock.name)) Piece.code s.rest p after
  path : Path cfgFlow (functionItems f) passed s.block (p.item :: after.map Piece.item)

/-- At the start of a block. -/
lemma Placed.enter (selected : Selected dl f code st pieces) {s : Running hw} {sb : SelectedBlock}
    (at_block : code[s.block]? = some sb) (rest : s.rest = sb.items) {passed : List Item}
    (path : ∀ items, (functionItems f)[s.block]? = some items →
      Path cfgFlow (functionItems f) passed s.block items) :
    ∃ p after, Placed f code pieces s passed p after := by
  obtain ⟨ps, block, items⟩ := selected.code_block at_block
  obtain ⟨bb, before, q, -, rfl, -⟩ := selected.last block
  obtain ⟨p, after, e⟩ := List.exists_cons_of_ne_nil (l := before ++ [q]) (by simp)
  have same : (functionItems f)[s.block]? = some ((p :: after).map Piece.item) := by
    rw [← selected.items, List.getElem?_map, block, ← e]
    rfl
  refine ⟨p, after, ⟨[], by rw [block, e]; rfl⟩, ⟨[], p.code, rfl, ?_, nofun⟩, path _ same⟩
  rw [rest, items, e, List.flatMap_cons]

/-- A state with code to come is at a piece that has some of it. Where it is not past an
instruction, it does not pass it on the way there. -/
lemma Placed.at_item (selected : Selected dl f code st pieces) {s : Running hw} {passed : List Item}
    {p : Piece} {after : List Piece} (placed : Placed f code pieces s passed p after) {e : Emitted}
    {rest : List Emitted} (cons : s.rest = e :: rest) :
    ∃ passed' p' after' pre post before, pieces[s.block]? = some (before ++ p' :: after') ∧
      p'.code = pre ++ e :: post ∧ rest = post ++ after'.flatMap Piece.code ∧
      (∀ x ∈ pre, (codeFlow (code.map SelectedBlock.name)).continues x) ∧
      Path cfgFlow (functionItems f) passed' s.block (p'.item :: after'.map Piece.item) ∧
      ∀ i, ¬ Past f code i s → .inst i ∉ passed → .inst i ∉ passed' := by
  obtain ⟨⟨before, block⟩, inside, path⟩ := placed
  rw [cons] at inside
  obtain ⟨skipped, p', after', pre, post, split, items, eq, all, -, ends⟩ := inside.at_item
  have block' : pieces[s.block]? = some (before ++ skipped ++ p' :: after') := by
    rw [block, split, List.append_assoc]
  -- what is skipped does not end the block
  have straight : ∀ q ∈ skipped, cfgFlow.continues q.item := by
    intro q hq
    obtain ⟨bb, before', last, -, e', -, none⟩ := selected.last block'
    have mem : q ∈ before' := by
      obtain ⟨l, l', rfl⟩ := List.append_of_mem hq
      have dropped := congrArg List.dropLast e'
      rw [List.dropLast_concat, List.dropLast_append_cons] at dropped
      rw [← dropped]
      simp
    cases item : q.item with
    | argument | inst => trivial
    | term t => exact absurd item (none q mem t)
  refine ⟨passed ++ skipped.map Piece.item, p', after', pre, post, _, block', items, eq, all, ?_,
    fun i notPast avoided mem => ?_⟩
  · refine ControlFlow.Walk.run ?_ fun a ha => ?_
    · have joined := congrArg (List.map Piece.item) split
      rw [List.map_cons, List.map_append, List.map_cons] at joined
      rw [← joined]
      exact path
    · obtain ⟨q, hq, rfl⟩ := List.mem_map.mp ha
      exact ⟨trivial, straight q hq⟩
  · obtain mem | mem := List.mem_append.mp mem
    · exact avoided mem
    · obtain ⟨q, hq, item⟩ := List.mem_map.mp mem
      obtain ⟨l, l', rfl⟩ := List.append_of_mem hq
      have here : pieces[s.block]? = some ((before ++ l) ++ q :: (l' ++ p' :: after')) := by
        simpa using block'
      refine notPast (selected.past item here ?_)
      rw [cons]
      exact ends l q l' rfl

/-- A state at the end of a block would have passed its terminator. -/
lemma Placed.not_end (selected : Selected dl f code st pieces)
    (lowered : ∀ bb ∈ f.blocks, isLowered bb.terminator = true)
    {s : Running hw} {passed : List Item} {p : Piece} {after : List Piece}
    (placed : Placed f code pieces s passed p after) : s.rest ≠ [] := by
  intro none
  obtain ⟨⟨before, block⟩, inside, -⟩ := placed
  rw [none] at inside
  have all := inside.at_end
  obtain ⟨bb, before', last, at_block, split, item, -⟩ := selected.last block
  obtain ⟨spec, -⟩ := selected.spec _ (List.mem_of_getElem? block) last (by simp [split])
  obtain ⟨e, he, stops⟩ : ∃ e ∈ last.code, ¬ (codeFlow (code.map SelectedBlock.name)).continues e :=
    exists_not_continues (item ▸ spec.shape) (lowered bb (List.mem_of_getElem? at_block))
  have mem : last ∈ p :: after := by
    have e := congrArg List.getLast? split
    rw [List.getLast?_append_cons, List.getLast?_concat] at e
    exact List.mem_of_getLast? e
  exact stops (all last mem e he)

/-- A step leads to a piece, and passes no instruction on the way. -/
lemma Placed.step (selected : Selected dl f code st pieces) (closed : f.Closed)
    (distinct : NamesDistinct f) {s s' : Running hw} {passed : List Item} {p : Piece}
    {before after : List Piece} {e : Emitted} {pre post : List Emitted}
    (block : pieces[s.block]? = some (before ++ p :: after)) (items : p.code = pre ++ e :: post)
    (all : ∀ x ∈ pre, (codeFlow (code.map SelectedBlock.name)).continues x)
    (path : Path cfgFlow (functionItems f) passed s.block (p.item :: after.map Piece.item))
    (moved : (s'.block = s.block ∧ s'.rest = post ++ after.flatMap Piece.code ∧
        (codeFlow (code.map SelectedBlock.name)).continues e) ∨
      ∃ sb, (codeFlow (code.map SelectedBlock.name)).jumps e s'.block ∧
        code[s'.block]? = some sb ∧ s'.rest = sb.items) :
    ∃ passed' p' after', Placed f code pieces s' passed' p' after' ∧
      ∀ i, .inst i ∉ passed → .inst i ∉ passed' := by
  obtain ⟨same, rest, continues⟩ | ⟨sb, jumps, at_block, rest⟩ := moved
  · refine ⟨passed, p, after,
      ⟨⟨before, same ▸ block⟩, ⟨pre ++ [e], post, by simpa using items, rest,
      fun x hx => ?_⟩, same ▸ path⟩, fun _ => id⟩
    obtain hx | hx := List.mem_append.mp hx
    · exact all x hx
    · obtain rfl := List.mem_singleton.mp hx
      exact continues
  · have mem : e ∈ p.code := items ▸ by simp
    have jump := selected.jumps closed (selected.names ▸ distinct) block (p := p)
      (by simp) mem jumps
    have entered : ∀ items, (functionItems f)[s'.block]? = some items →
        Path cfgFlow (functionItems f) (passed ++ [p.item]) s'.block items :=
      fun items at_items => path.jump trivial jump at_items
    obtain ⟨p', after', placed⟩ := Placed.enter selected at_block rest entered
    refine ⟨_, p', after', placed, fun i avoided mem => ?_⟩
    obtain mem | mem := List.mem_append.mp mem
    · exact avoided mem
    · rw [← List.mem_singleton.mp mem] at jump
      exact jump

/-- An instruction that does not write a register of the values keeps what they hold. -/
lemma HeldSince.next {thread : Thread hw RegField} {i : Llvm.Instruction}
    {values : List Value} {n : Nat} {s s' : Running hw}
    (held : HeldSince f code st thread i values n s) (run : stateAt code thread (n + 1) = some s')
    (notPast : ¬ Past f code i s')
    (same : ∀ v ∈ values, isConstantInt v = false → ∀ r, st.regOf v = some r →
      s'.thread.regs (narrow r) = s.thread.regs (narrow r)) :
    HeldSince f code st thread i values (n + 1) s' := by
  obtain ⟨m, s₀, le, at_m, past, last, kept⟩ := held
  refine ⟨m, s₀, by omega, at_m, past, fun m' s'' lt le' at_m' => ?_, fun v hv constant r reg => ?_⟩
  · obtain lt' | rfl := Nat.lt_or_eq_of_le le'
    · exact last m' s'' lt (by omega) at_m'
    · obtain rfl := Option.some.inj (at_m'.symm.trans run)
      exact notPast
  · exact (same v hv constant r reg).trans (kept v hv constant r reg)

/-- Control that is past the instruction now was last past it now. -/
lemma HeldSince.now {thread : Thread hw RegField} {i : Llvm.Instruction}
    {values : List Value} {n : Nat} {s : Running hw} (run : stateAt code thread n = some s)
    (past : Past f code i s) :
    HeldSince f code st thread i values n s :=
  ⟨n, s, Nat.le_refl n, run, past, fun m' s' lt le => by omega, fun _ _ _ _ _ => rfl⟩

lemma regOf_variable {v : Value} (constant : isConstantInt v = false) :
    st.regOf v = st.valueToVReg v := by
  cases v with
  | constantInt w bits => cases constant
  | argument | instruction | other => rfl

/-- An instruction keeps the registers that it does not write, where no two share a register
field. -/
lemma regs_execute_narrow {mi : Instruction Nat} {r : Nat}
    (small : ∀ r', mi.writes = some r' → r' < 256) (lt : r < 256) (other : mi.writes ≠ some r)
    (s : Thread hw RegField) (pc : Int) :
    (execute s pc (mi.mapRegs narrow)).regs (narrow r) = s.regs (narrow r) := by
  by_cases writes : mi.op.usesRd
  · have write : mi.writes = some mi.rd := if_pos writes
    have ne : narrow r ≠ narrow mi.rd := by
      intro same
      have same := congrArg BitVec.toNat same
      have lt' := small mi.rd write
      simp only [narrow, BitVec.toNat_ofNat] at same
      rw [Nat.mod_eq_of_lt (by omega), Nat.mod_eq_of_lt (by omega)] at same
      exact other (same ▸ write)
    show (if mi.op.usesRd then Function.update s.regs (narrow mi.rd) _ else s.regs) _ = _
    rw [if_pos writes, Function.update_of_ne ne]
  · show (if mi.op.usesRd then Function.update s.regs (narrow mi.rd) _ else s.regs) _ = _
    rw [if_neg writes]

/-- In every state control has passed the instruction, and its operands are kept since, or there is
a path to the place that control is at which avoids the instruction. -/
theorem stateAt_held (ssa : Ssa f) (lowered : ∀ bb ∈ f.blocks, isLowered bb.terminator = true)
    (distinct : NamesDistinct f) (few : st.nextVReg ≤ 256) (selected : Selected dl f code st pieces)
    (chain : PieceChain dl f [] Selector.start pieces.flatten seen st) {thread : Thread hw RegField}
    (i : Llvm.Instruction) {values : List Value}
    (operands : ∀ v ∈ values, v ∈ (Item.inst i).operands) {n : Nat} {s : Running hw}
    (run : stateAt code thread n = some s) :
    ∃ passed p after, Placed f code pieces s passed p after ∧
      (HeldSince f code st thread i values n s ∨ (¬ Past f code i s ∧ .inst i ∉ passed)) := by
  induction n generalizing s with
  | zero =>
    obtain ⟨start, entered, e⟩ := Option.bind_eq_some_iff.mp run
    obtain rfl : start = s := Option.some.inj e
    obtain ⟨sb, at_block, rfl⟩ := Running.enter_eq_some entered
    have start : ∀ items, (functionItems f)[0]? = some items →
        Path cfgFlow (functionItems f) [] 0 items :=
      fun items at_items => .entry at_items
    obtain ⟨p, after, placed⟩ :=
      Placed.enter selected (s := ⟨0, sb.items, thread⟩) at_block rfl start
    refine ⟨[], p, after, placed, ?_⟩
    by_cases past : Past f code i (⟨0, sb.items, thread⟩ : Running hw)
    · exact .inl (.now run past)
    · exact .inr ⟨past, List.not_mem_nil⟩
  | succ n ih =>
    obtain ⟨s₀, shown, before, step⟩ := stateAt_succ run
    obtain ⟨passed, p, after, placed, state⟩ := ih before
    obtain ⟨none, -⟩ | ⟨e, rest, cons, executed, moved⟩ := codeStep_cases step
    · exact absurd none (placed.not_end selected lowered)
    obtain ⟨passed, p, after, pre, post, front, block, items, rfl, all, path, avoids⟩ :=
      placed.at_item selected cons
    have hp : p ∈ pieces.flatten :=
      List.mem_flatten.mpr ⟨_, List.mem_of_getElem? block, by simp⟩
    have go : ∀ {passed}, Path cfgFlow (functionItems f) passed s₀.block
        (p.item :: after.map Piece.item) → _ := fun path =>
      Placed.step selected ssa.closed distinct block items all path moved
    by_cases past : Past f code i s
    · obtain ⟨passed', p', after', placed', -⟩ := go path
      exact ⟨passed', p', after', placed', .inl (.now run past)⟩
    by_cases written : ∃ v ∈ values, isConstantInt v = false ∧ ∃ r, st.regOf v = some r ∧
      e.mi.writes = some r
    · -- an operand is written: its definition is reached without the instruction
      obtain ⟨v, hv, constant, r, reg, write⟩ := written
      have result := chain.result_of_write hp (items ▸ by simp) write
        (regOf_variable constant ▸ reg) constant
      obtain ⟨passed, path, avoided⟩ := ssa.avoid (operands v hv) result path
      obtain ⟨passed', p', after', placed', keep⟩ := go path
      exact ⟨passed', p', after', placed', .inr ⟨past, keep i avoided⟩⟩
    · obtain ⟨passed', p', after', placed', keep⟩ := go path
      refine ⟨passed', p', after', placed', ?_⟩
      obtain held | ⟨notPast, avoided⟩ := state
      · refine .inl (held.next run past fun v hv constant r reg => ?_)
        obtain ⟨spec, grows⟩ := selected.spec _ (List.mem_of_getElem? block) p (by simp)
        rw [executed]
        refine regs_execute_narrow (fun r' write => ?_)
          ((selected.valid.lt_of_regOf reg).trans_le few)
          (fun write => written ⟨v, hv, constant, r, reg, write⟩) ..
        exact (spec.writes e (items ▸ by simp) r' write).trans_le (grows.next.trans few)
      · exact .inr ⟨past, keep i (avoids i notPast avoided)⟩

/-- A path to a branch passes the instruction that it tests. -/
lemma Ssa.passes_test (ssa : Ssa f) {i : Llvm.Instruction} (hi : i ∈ bodyOf f)
    {passed rest : List Item} {b ifTrue ifFalse : Nat}
    (path : Path cfgFlow (functionItems f) passed b
      (.term (.condBr (.instruction i.id) ifTrue ifFalse) :: rest)) : .inst i ∈ passed := by
  obtain ⟨d, passes, defines⟩ := ssa.dominated passed b _ _ i.id path List.mem_cons_self
  obtain ⟨done, b', rest', path', -⟩ := path.mem_done passes
  obtain ⟨front, at_d⟩ := path'.suffix
  obtain rfl := ssa.defines_eq (List.mem_of_getElem? at_d) (by simp) hi defines
  exact passes

/-- What is before the branch on a condition code. -/
lemma CodeShape.before_conditional {after : Selector} {condVal : Value} {ifTrue ifFalse : Nat}
    {items cmp pre post : List Emitted} {cond : BitVec 8} {e : Emitted}
    (shape : CodeShape f after (.term (.condBr condVal ifTrue ifFalse)) items)
    (split : items = cmp ++ [branchTo f cond ifTrue "branch taken",
      branchTo f BranchCond.ALWAYS ifFalse "branch fallthrough/else"])
    (here : items = pre ++ e :: post) (branch : e.mi.op = .br)
    (conditional : e.mi.cond ≠ BranchCond.ALWAYS) : pre = cmp := by
  obtain ⟨cmp', cond', split', -, plain⟩ := shape
  obtain rfl : cmp' = cmp := (List.append_inj' (split'.symm.trans split) rfl).1
  obtain ⟨t, rfl, e'⟩ | ⟨t, e'⟩ := split_parts (split'.symm.trans here)
  · cases t with
    | nil => rw [List.append_nil]
    | cons x t =>
      obtain ⟨rfl, tail⟩ := List.cons.inj e'
      cases t with
      | nil =>
        obtain ⟨rfl, -⟩ := List.cons.inj tail
        exact absurd rfl conditional
      | cons y t => simp at tail
  · exact absurd branch (plain e (e' ▸ by simp)).2.1

/-- A comparison is sunk to its branch: before a branch that is taken on a condition code its
operands are compared, and hold what they held when control was last past the comparison. -/
theorem selectFunction_sinks (h : selectFunction dl f = some (code, st)) (ssa : Ssa f)
    (lowered : ∀ bb ∈ f.blocks, isLowered bb.terminator = true) (distinct : NamesDistinct f)
    (few : st.nextVReg ≤ 256) {thread : Thread hw RegField} {n : Nat} {s : Running hw}
    (run : stateAt code thread n = some s) {e : Emitted} {rest : List Emitted}
    (next : s.rest = e :: rest) (branch : e.mi.op = .br)
    (conditional : e.mi.cond ≠ BranchCond.ALWAYS) {bb : Llvm.BasicBlock}
    (block : f.blocks[s.block]? = some bb) {condVal : Value} {ifTrue ifFalse : Nat}
    (terminator : bb.terminator = .condBr condVal ifTrue ifFalse) {predicate : Llvm.Predicate}
    {op0 op1 : Value} (compared : icmp? f condVal = some (predicate, op0, op1)) :
    ∃ m s₀ cmp id, n = m + 1 ∧ stateAt code thread m = some s₀ ∧ s₀.block = s.block ∧
      s₀.rest = cmp :: s.rest ∧ cmp.mi.op = .cmp ∧ st.regOf op0 = some cmp.mi.rs1 ∧
      st.regOf op1 = some cmp.mi.rs2 ∧
      s.thread.flags = s.thread.read (narrow cmp.mi.rs1) - s.thread.read (narrow cmp.mi.rs2) ∧
      condVal = .instruction id ∧ ⟨id, .icmp predicate op0 op1⟩ ∈ bodyOf f ∧
      HeldSince f code st thread ⟨id, .icmp predicate op0 op1⟩ [op0, op1] n s := by
  obtain ⟨pieces, seen, chain, selected⟩ := selectFunction_pieces h
  obtain ⟨id, hi, rfl⟩ := icmp?_eq_some compared
  obtain ⟨passed, p, after, placed, state⟩ := stateAt_held ssa lowered distinct few selected chain
    ⟨id, .icmp predicate op0 op1⟩ (fun v (hv : v ∈ [op0, op1]) => hv) run
  obtain ⟨passed', p', after', pre, post, before, at_piece, items, eq, -, path, avoids⟩ :=
    placed.at_item selected next
  have mem : e ∈ p'.code := items ▸ by simp
  have here : p' ∈ before ++ p' :: after' := by simp
  obtain ⟨spec, grows⟩ := selected.spec _ (List.mem_of_getElem? at_piece) p' here
  -- the piece is that of the branch of the block
  obtain ⟨t, -, -, -, item, -, -⟩ := spec.shape.branch mem branch
  obtain ⟨bb', at_bb, rfl⟩ := selected.terminator at_piece here item
  obtain rfl := Option.some.inj (at_bb.symm.trans block)
  rw [terminator] at item
  obtain ⟨valid, select⟩ := chain.select Selector.valid_start p'
    (List.mem_flatten.mpr ⟨_, List.mem_of_getElem? at_piece, here⟩)
  rw [item] at select
  obtain ⟨loaded, rs1, rs2, split, reg₁, reg₂⟩ := selectCondBranch_eq_some valid compared select
  have last : pre = loaded ++ [compare rs1 rs2] :=
    CodeShape.before_conditional (item ▸ spec.shape)
      (split.trans (List.append_cons ..)) items branch
      conditional
  obtain ⟨sb, at_code, all⟩ := selected.block_code at_piece
  have suffix : sb.items = (before.flatMap Piece.code ++ loaded) ++ compare rs1 rs2 :: s.rest := by
    rw [all, List.flatMap_append, List.flatMap_cons, items, last, next, eq]
    simp
  obtain ⟨m, s₀, e₀, at_m, same, rest₀, executed⟩ := stateAt_last run at_code suffix
  refine ⟨m, s₀, compare rs1 rs2, id, e₀, at_m, same, rest₀, rfl,
    grows.regOf reg₁, grows.regOf reg₂, ?_, rfl, hi, ?_⟩
  · rw [executed]
    rfl
  · obtain held | ⟨notPast, avoided⟩ := state
    · exact held
    -- the path would avoid what the branch tests
    · exact absurd (ssa.passes_test hi (item ▸ path)) (avoids _ notPast avoided)

end Sinking

/-! ## A loop on a comparison outside it -/

/-- Loops while the first argument is below the second. -/
def loopsBelow : Llvm.Function where
  args := [{ name := "x".toList, ty := .int 32 }, { name := "y".toList, ty := .int 32 }]
  blocks :=
    [{ name := "entry".toList, body := [⟨0, .icmp .slt (.argument 0) (.argument 1)⟩]
       terminator := .br 1 },
     { name := "loop".toList, body := [], terminator := .condBr (.instruction 0) 1 2 },
     { name := "done".toList, body := [], terminator := .ret none }]

lemma loopsBelow_ssa : Ssa loopsBelow := by
  refine ⟨by decide, by decide, ?_, ?_, ?_⟩
  · rintro bb mem id e
    simp only [loopsBelow, List.mem_cons, List.not_mem_nil, or_false] at mem
    obtain rfl | rfl | rfl := mem <;> cases e
  · simp [functionItems, itemsOf, argumentItems, Item.operands, Llvm.Operation.operands,
      Terminator.operands, loopsBelow]
  · intro done b a rest id path mem
    let entry : List Item := [.argument 0 { name := "x".toList, ty := .int 32 },
      .argument 1 { name := "y".toList, ty := .int 32 },
      .inst ⟨0, .icmp .slt (.argument 0) (.argument 1)⟩]
    have items : functionItems loopsBelow = [entry ++ [.term (.br 1)],
      [.term (.condBr (.instruction 0) 1 2)], [.term (.ret none)]] := rfl
    rw [items] at path
    have straight : ∀ a ∈ entry, ∀ d, ¬ cfgFlow.jumps a d := by
      intro a ha d jump
      simp only [entry, List.mem_cons, List.not_mem_nil, or_false] at ha
      obtain rfl | rfl | rfl := ha <;> exact jump
    have unused : ∀ a ∈ entry ++ [.term (.br 1)], .instruction id ∉ a.operands := by
      intro a ha
      simp only [entry, List.cons_append, List.nil_append, List.mem_cons,
        List.not_mem_nil, or_false] at ha
      obtain rfl | rfl | rfl | rfl := ha <;>
        simp [Item.operands, Llvm.Operation.operands, Terminator.operands]
    -- only the branch of the second block uses a result, and the first block comes before it
    obtain ⟨before, block⟩ := path.suffix
    have here : a ∈ entry ++ [.term (.br 1)] ∨ a = .term (.condBr (.instruction 0) 1 2) ∨
        a = .term (.ret none) := by
      have here := List.mem_flatten.mpr ⟨_, List.mem_of_getElem? block, List.mem_append_right before
        List.mem_cons_self⟩
      simpa [or_assoc] using here
    obtain here | rfl | rfl := here
    · exact absurd mem (unused a here)
    · obtain rfl : id = 0 := by simpa [Item.operands, Terminator.operands] using mem
      obtain ⟨as, split, e⟩ | all := path.first (show _ = some (entry ++ _) from rfl) straight
      · have here : Item.term (.condBr (.instruction 0) 1 2) ∈ entry ++ [.term (.br 1)] := by
          rw [split, List.append_assoc, ← e]
          simp
        exact absurd mem (unused _ here)
      · exact ⟨.inst ⟨0, .icmp .slt (.argument 0) (.argument 1)⟩, all _ (by simp [entry]), rfl⟩
    · simp [Item.operands, Terminator.operands] at mem

/-- The selected code, with the state after the selection. -/
def loopsBelowCode : List SelectedBlock × Selector :=
  (selectFunction words loopsBelow).getD ([], Selector.start)

/-- A thread before it runs. -/
def idle : Thread Hardware.plain RegField where
  pc := none
  regs := fun _ => 0
  mem := ()
  flags := 0

/-- At the first branch on the comparison. -/
theorem selectFunction_sinks_loop : ∃ s, stateAt loopsBelowCode.1 idle 6 = some s ∧
    HeldSince loopsBelow loopsBelowCode.1 loopsBelowCode.2 idle
      ⟨0, .icmp .slt (.argument 0) (.argument 1)⟩ [.argument 0, .argument 1] 6 s := by
  obtain ⟨-, -, -, id, -, -, -, -, -, -, -, -, e, -, held⟩ := selectFunction_sinks
    (show selectFunction words loopsBelow = some loopsBelowCode from rfl) loopsBelow_ssa (by decide)
    (by decide) (by decide)
    (show stateAt loopsBelowCode.1 idle 6 = some _ from rfl) rfl rfl (by decide)
    rfl rfl rfl
  obtain rfl := Value.instruction.inj e
  exact ⟨_, rfl, held⟩

end FpgaGpu

import FpgaGpu.Lib.Walk

/-!
# Blocks on edges

A list of blocks has the blocks of another one, with items put between theirs, and further blocks
that only lead on to them. Every walk through it is a walk through the other one, once what was put
in is left out.
-/

namespace ControlFlow

variable {α β : Type}

/-- The list `bs` has the items of `as`, and items put in between them. -/
inductive Interleaved (rel : α → β → Prop) (putIn : β → Prop) : List α → List β → Prop
  | nil : Interleaved rel putIn [] []
  | kept {a b as bs} (same : rel a b) (rest : Interleaved rel putIn as bs) :
    Interleaved rel putIn (a :: as) (b :: bs)
  | put {b as bs} (new : putIn b) (rest : Interleaved rel putIn as bs) :
      Interleaved rel putIn as (b :: bs)

/-- What is put in at the end. -/
lemma Interleaved.of_putIn {rel : α → β → Prop} {putIn : β → Prop} {bs : List β}
    (h : ∀ b ∈ bs, putIn b) :
    Interleaved rel putIn [] bs := by
  induction bs with
  | nil => exact .nil
  | cons b bs ih =>
    obtain ⟨new, rest⟩ := List.forall_mem_cons.mp h
    exact .put new (ih rest)

/-- Items that are all kept. -/
lemma Interleaved.of_forall₂ {rel : α → β → Prop} {putIn : β → Prop} {as : List α} {bs : List β}
    (h : List.Forall₂ rel as bs) : Interleaved rel putIn as bs := by
  induction h with
  | nil => exact .nil
  | cons same _ ih => exact .kept same ih

lemma Interleaved.append {rel : α → β → Prop} {putIn : β → Prop} {as as' : List α} {bs bs' : List β}
    (h : Interleaved rel putIn as bs) (h' : Interleaved rel putIn as' bs') :
    Interleaved rel putIn (as ++ as') (bs ++ bs') := by
  induction h with
  | nil => exact h'
  | kept same _ ih => exact .kept same ih
  | put new _ ih => exact .put new ih

/-- An item stands for one of the others, or was put in. -/
lemma Interleaved.mem {rel : α → β → Prop} {putIn : β → Prop} {as : List α} {bs : List β}
    (h : Interleaved rel putIn as bs) {b : β} (mem : b ∈ bs) : (∃ a ∈ as, rel a b) ∨ putIn b := by
  induction h with
  | nil => cases mem
  | @kept a b' as bs same _ ih =>
    obtain rfl | mem := List.mem_cons.mp mem
    · exact .inl ⟨a, List.mem_cons_self, same⟩
    · exact (ih mem).imp_left fun ⟨a, mem, same⟩ => ⟨a, List.mem_cons_of_mem _ mem, same⟩
  | @put b' as bs new _ ih =>
    obtain rfl | mem := List.mem_cons.mp mem
    · exact .inr new
    · exact ih mem

/-- The blocks `blocks'` are `blocks` with items put in, and further blocks: the block `c` of
`blocks'` leads to the block `place c` of `blocks`, and is that block where the two are the same. -/
structure Contracted (F : ControlFlow α) (G : ControlFlow β) (rel : α → β → Prop) (putIn : β → Prop)
    (place : Nat → Nat) (blocks : List (List α)) (blocks' : List (List β)) : Prop where
  entry : place 0 = 0
  block : ∀ {c : Nat} {items'}, blocks'[c]? = some items' → ∃ items, blocks[place c]? = some items ∧
    (place c = c → Interleaved rel putIn items items')
  leads : ∀ {c : Nat} {items' b d}, blocks'[c]? = some items' → place c ≠ c →
    b ∈ items' → G.jumps b d →
    place d = place c
  stays : ∀ {b d}, putIn b → ¬ G.jumps b d
  continues : ∀ {a b}, rel a b → G.continues b → F.continues a
  jumps : ∀ {a b d}, rel a b → G.jumps b d → F.jumps a (place d)
  nonempty : ∀ {c : Nat} {items'}, blocks'[c]? = some items' → items' ≠ []
  stops : ∀ {c : Nat} {items' b}, blocks'[c]? = some (items' ++ [b]) → ¬ G.continues b

/-- A walk of the blocks with detours is a walk of the others. -/
theorem Walk.contract {F : ControlFlow α} {G : ControlFlow β}
    {rel : α → β → Prop} {putIn : β → Prop} {place : Nat → Nat} {blocks : List (List α)}
    {blocks' : List (List β)} (h : Contracted F G rel putIn place blocks blocks')
    {done' rest' : List β} {c : Nat} (walk : Path G blocks' done' c rest') :
    rest' ≠ [] ∧ ∃ done items, Path F blocks done (place c) items ∧
      (∀ a ∈ done, ∃ b ∈ done', rel a b) ∧
      (place c = c → Interleaved rel putIn items rest') ∧
      (place c ≠ c → blocks[place c]? = some items) := by
  induction walk with
  | @entry items' first =>
    obtain ⟨items, block, same⟩ := h.block first
    refine ⟨h.nonempty first, [], items, ?_, nofun, same, fun _ => block⟩
    rw [h.entry] at block ⊢
    exact .entry block
  | @next done' c b rest' walk _ continues ih =>
    obtain ⟨-, done, items, path, passed, same, start⟩ := ih
    refine ⟨fun last => ?_, ?_⟩
    · obtain ⟨before, block⟩ := walk.suffix
      exact h.stops (last ▸ block) continues
    · by_cases kept : place c = c
      · cases same kept with
        | kept rel rest =>
          refine ⟨_, _, path.next trivial (h.continues rel continues),
            fun a mem => ?_, fun _ => rest, absurd kept⟩
          obtain mem | mem := List.mem_append.mp mem
          · obtain ⟨b, hb, same⟩ := passed a mem
            exact ⟨b, List.mem_append_left _ hb, same⟩
          · obtain rfl := List.mem_singleton.mp mem
            exact ⟨b, by simp, rel⟩
        | put new rest =>
          refine ⟨_, _, path, fun a mem => ?_, fun _ => rest, absurd kept⟩
          obtain ⟨b, hb, same⟩ := passed a mem
          exact ⟨b, List.mem_append_left _ hb, same⟩
      · refine ⟨_, _, path, fun a mem => ?_, fun same => absurd same kept, start⟩
        obtain ⟨b, hb, same⟩ := passed a mem
        exact ⟨b, List.mem_append_left _ hb, same⟩
  | @jump done' c b rest' d items' walk _ jumps block' ih =>
    obtain ⟨-, done, items, path, passed, same, start⟩ := ih
    refine ⟨h.nonempty block', ?_⟩
    by_cases kept : place c = c
    · -- the item that jumps was not put in, and jumps to the place
      cases same kept with
      | kept rel rest =>
        obtain ⟨items, block, same⟩ := h.block block'
        refine ⟨_, _, path.jump trivial (h.jumps rel jumps) block,
          fun a mem => ?_, same, fun _ => block⟩
        obtain mem | mem := List.mem_append.mp mem
        · obtain ⟨b, hb, same⟩ := passed a mem
          exact ⟨b, List.mem_append_left _ hb, same⟩
        · obtain rfl := List.mem_singleton.mp mem
          exact ⟨b, by simp, rel⟩
      | put new rest => exact absurd jumps (h.stays new)
    · -- the walk is at the start of the place all the while
      obtain ⟨before, here⟩ := walk.suffix
      have place_eq := h.leads here kept (by simp) jumps
      obtain ⟨items₁, block, same'⟩ := h.block block'
      have start := start kept
      rw [← place_eq] at path start
      obtain rfl : items = items₁ := Option.some.inj (start.symm.trans block)
      refine ⟨done, items, path, fun a mem => ?_, same', fun _ => block⟩
      obtain ⟨b, hb, same⟩ := passed a mem
      exact ⟨b, List.mem_append_left _ hb, same⟩
  | fall _ _ _ ih => exact absurd rfl ih.1

end ControlFlow

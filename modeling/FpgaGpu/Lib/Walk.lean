import Mathlib.Data.List.Basic
import Mathlib.Tactic.Common

/-!
# Walks through blocks of items

A list of blocks, each a list of items, and for each item whether control can go on to the next item
and to the start of which blocks it can go. Where each item of one list of blocks stands for a chunk
of items of another, the walks of the two correspond.
-/

/-- Where control goes from an item. -/
structure ControlFlow (α : Type) where
  continues : α → Prop
  jumps : α → Nat → Prop

namespace ControlFlow

variable {α β : Type}

/-- A walk from the start of the first block: the items it passed, the block it is in, and the items
of that block that are still to come. It only leaves an item, or the end of a block, where `ok`
holds. -/
inductive Walk (F : ControlFlow α) (ok : Nat → Option α → Prop) (blocks : List (List α)) :
    List α → Nat → List α → Prop
  | entry {items} (h : blocks[0]? = some items) : Walk F ok blocks [] 0 items
  | next {done b a rest} (walk : Walk F ok blocks done b (a :: rest)) (allowed : ok b (some a))
    (continues : F.continues a) : Walk F ok blocks (done ++ [a]) b rest
  | jump {done b a rest d items} (walk : Walk F ok blocks done b (a :: rest))
    (allowed : ok b (some a)) (jumps : F.jumps a d) (h : blocks[d]? = some items) :
    Walk F ok blocks (done ++ [a]) d items
  | fall {done b items} (walk : Walk F ok blocks done b []) (allowed : ok b none)
    (h : blocks[b + 1]? = some items) : Walk F ok blocks done (b + 1) items

/-- Walks without a condition. -/
abbrev Path (F : ControlFlow α) (blocks : List (List α)) : List α → Nat → List α → Prop :=
  Walk F (fun _ _ => True) blocks

variable {F : ControlFlow α} {G : ControlFlow β} {ok : Nat → Option α → Prop}
  {blocks : List (List α)}

/-- A walk is in a block. -/
lemma Walk.suffix {done rest : List α} {b : Nat} (walk : Walk F ok blocks done b rest) :
    ∃ before, blocks[b]? = some (before ++ rest) := by
  induction walk with
  | entry h => exact ⟨[], h⟩
  | next _ _ _ ih =>
    obtain ⟨before, h⟩ := ih
    exact ⟨before ++ [_], by simpa using h⟩
  | jump _ _ _ h _ => exact ⟨[], h⟩
  | fall _ _ h _ => exact ⟨[], h⟩

/-- A walk has a block to start in. -/
lemma Walk.entered {done rest : List α} {b : Nat} (walk : Walk F ok blocks done b rest) :
    ∃ items, blocks[0]? = some items := by
  induction walk with
  | entry h => exact ⟨_, h⟩
  | next _ _ _ ih => exact ih
  | jump _ _ _ _ ih => exact ih
  | fall _ _ _ ih => exact ih

/-- A walk through one block, which nothing jumps in, goes straight through it. -/
lemma Walk.single {items done rest : List α} {b : Nat} (straight : ∀ a ∈ items, ∀ d, ¬ F.jumps a d)
    (walk : Walk F ok [items] done b rest) : done ++ rest = items := by
  induction walk with
  | entry h => simpa [eq_comm] using h
  | next _ _ _ ih => simpa using ih
  | @jump done b a rest d items' _ _ jumps _ ih =>
    exact absurd jumps (straight a (ih ▸ by simp) d)
  | fall _ _ h _ => simp at h

/-- A walk under a condition is one under a weaker condition. -/
lemma Walk.mono {ok' : Nat → Option α → Prop} (h : ∀ b a, ok b a → ok' b a) {done rest : List α}
    {b : Nat} (walk : Walk F ok blocks done b rest) : Walk F ok' blocks done b rest := by
  induction walk with
  | entry h => exact .entry h
  | next _ allowed continues ih => exact ih.next (h _ _ allowed) continues
  | jump _ allowed jumps h' ih => exact ih.jump (h _ _ allowed) jumps h'
  | fall _ allowed h' ih => exact ih.fall (h _ _ allowed) h'

/-- A walk cut at an item it passed. -/
lemma Walk.cut {done rest : List α} {b : Nat} (walk : Walk F ok blocks done b rest) {a : α}
    (h : a ∈ done) : ∃ done' more b' rest', done = done' ++ a :: more ∧
      Walk F ok blocks done' b' (a :: rest') ∧ ok b' (some a) := by
  induction walk with
  | entry _ => cases h
  | @next done b a' rest walk allowed _ ih | @jump done b a' rest _ _ walk allowed _ _ ih =>
    obtain h | h := List.mem_append.mp h
    · obtain ⟨done', more, b', rest', rfl, walk', allowed'⟩ := ih h
      exact ⟨done', more ++ [a'], b', rest', by simp, walk', allowed'⟩
    · obtain rfl := List.mem_singleton.mp h
      exact ⟨done, [], b, rest, rfl, walk, allowed⟩
  | fall _ _ _ ih => exact ih h

/-- A walk to an item it passed. -/
lemma Walk.mem_done {done rest : List α} {b : Nat} (walk : Walk F ok blocks done b rest) {a : α}
    (h : a ∈ done) : ∃ done' b' rest', Walk F ok blocks done' b' (a :: rest') ∧
      ok b' (some a) ∧ ∀ x ∈ done', x ∈ done := by
  obtain ⟨done', more, b', rest', rfl, walk', allowed⟩ := walk.cut h
  exact ⟨done', b', rest', walk', allowed, fun x hx => List.mem_append_left _ hx⟩

/-- If each walk to `c` passed `d`, a walk to `d` can do without `c`. -/
lemma Walk.avoid {c d : α} {b : Nat} {rest : List α}
    (first : ∀ done b' rest', Walk F ok blocks done b' (c :: rest') → d ∈ done)
    (place : ∀ done b' rest', Walk F ok blocks done b' (d :: rest') → b' = b ∧ rest' = rest)
    {done : List α} (walk : Walk F ok blocks done b (d :: rest)) :
    ∃ done, Walk F ok blocks done b (d :: rest) ∧ c ∉ done := by
  -- a walk that passed `c` is longer than one to `d`
  induction h : done.length using Nat.strongRecOn generalizing done with
  | ind n ih =>
    by_cases passed : c ∈ done
    · obtain ⟨done₁, more, b₁, rest₁, rfl, walk₁, -⟩ := walk.cut passed
      obtain ⟨done₂, more₂, b₂, rest₂, rfl, walk₂, -⟩ := walk₁.cut (first _ _ _ walk₁)
      obtain ⟨rfl, rfl⟩ := place _ _ _ walk₂
      exact ih done₂.length (by rw [← h]; simp) walk₂ rfl
    · exact ⟨done, walk, passed⟩

/-- A walk passes the items at the start, which do not jump, before any other. -/
lemma Walk.first {as items : List α} (entry : blocks[0]? = some (as ++ items))
    (straight : ∀ a ∈ as, ∀ d, ¬ F.jumps a d) {done rest : List α} {b : Nat}
    (walk : Walk F ok blocks done b rest) :
    (∃ as', as = done ++ as' ∧ rest = as' ++ items) ∨ ∀ a ∈ as, a ∈ done := by
  induction walk with
  | entry h =>
    rw [entry] at h
    exact .inl ⟨as, rfl, (Option.some.inj h).symm⟩
  | @next done b a rest _ _ _ ih =>
    obtain ⟨as', rfl, e⟩ | all := ih
    · cases as' with
      | nil => exact .inr fun x hx => List.mem_append_left _ (by simpa using hx)
      | cons a' as' =>
        obtain ⟨rfl, rfl⟩ := List.cons.inj e
        exact .inl ⟨as', by simp, rfl⟩
    · exact .inr fun x hx => List.mem_append_left _ (all x hx)
  | @jump done b a rest d items _ _ jumps _ ih =>
    obtain ⟨as', rfl, e⟩ | all := ih
    · cases as' with
      | nil => exact .inr fun x hx => List.mem_append_left _ (by simpa using hx)
      | cons a' as' =>
        obtain ⟨rfl, -⟩ := List.cons.inj e
        exact absurd jumps (straight a (by simp) d)
    · exact .inr fun x hx => List.mem_append_left _ (all x hx)
  | fall _ _ _ ih =>
    obtain ⟨as', rfl, e⟩ | all := ih
    · obtain ⟨rfl, -⟩ := List.append_eq_nil_iff.mp e.symm
      exact .inr fun x hx => by simpa using hx
    · exact .inr all

/-- A walk continues through items that continue. -/
lemma Walk.run {done l rest : List α} {b : Nat} (walk : Walk F ok blocks done b (l ++ rest))
    (h : ∀ a ∈ l, ok b (some a) ∧ F.continues a) : Walk F ok blocks (done ++ l) b rest := by
  induction l generalizing done with
  | nil => simpa using walk
  | cons a l ih =>
    obtain ⟨⟨allowed, continues⟩, h⟩ := List.forall_mem_cons.mp h
    simpa using ih (walk.next allowed continues) h

/-- A walk of items is a walk of what a function makes of them. -/
lemma Walk.map {g : α → β} {done rest : List α} {b : Nat}
    (continues : ∀ a, F.continues a → G.continues (g a))
    (jumps : ∀ a d, F.jumps a d → G.jumps (g a) d) (walk : Walk F ok blocks done b rest) :
    Path G (blocks.map (List.map g)) (done.map g) b (rest.map g) := by
  have block : ∀ {d : Nat} {items}, blocks[d]? = some items →
      (blocks.map (List.map g))[d]? = some (items.map g) := fun h => by simp [h]
  induction walk with
  | entry h => exact .entry (block h)
  | next _ _ h ih =>
    rw [List.map_append]
    exact ih.next trivial (continues _ h)
  | jump _ _ h h' ih =>
    rw [List.map_append]
    exact ih.jump trivial (jumps _ _ h) (block h')
  | fall _ _ h ih => exact ih.fall trivial (block h)

/-- A walk of what a function makes of items is a walk of items. -/
lemma Walk.lift {g : α → β} (continues : ∀ a, G.continues (g a) → F.continues a)
    (jumps : ∀ a d, G.jumps (g a) d → F.jumps a d) {done rest : List β} {b : Nat}
    (walk : Path G (blocks.map (List.map g)) done b rest) :
    ∃ done' rest', Path F blocks done' b rest' ∧ done = done'.map g ∧ rest = rest'.map g := by
  have block : ∀ {d : Nat} {items}, (blocks.map (List.map g))[d]? = some items →
      ∃ as, blocks[d]? = some as ∧ items = as.map g := by
    intro d items h
    rw [List.getElem?_map, Option.map_eq_some_iff] at h
    obtain ⟨as, h, rfl⟩ := h
    exact ⟨as, h, rfl⟩
  induction walk with
  | entry h =>
    obtain ⟨as, h₀, rfl⟩ := block h
    exact ⟨[], as, .entry h₀, rfl, rfl⟩
  | next _ _ h ih =>
    obtain ⟨done', rest', path, rfl, e⟩ := ih
    obtain ⟨a, rest', rfl, rfl, rfl⟩ := List.map_eq_cons_iff.mp e.symm
    exact ⟨done' ++ [a], rest', path.next trivial (continues a h), by simp, rfl⟩
  | jump _ _ h h' ih =>
    obtain ⟨done', rest', path, rfl, e⟩ := ih
    obtain ⟨a, rest', rfl, rfl, rfl⟩ := List.map_eq_cons_iff.mp e.symm
    obtain ⟨as, h₀, rfl⟩ := block h'
    exact ⟨done' ++ [a], as, path.jump trivial (jumps a _ h) h₀, by simp, rfl⟩
  | fall _ _ h ih =>
    obtain ⟨done', rest', path, rfl, e⟩ := ih
    obtain rfl := List.map_eq_nil_iff.mp e.symm
    obtain ⟨as, h₀, rfl⟩ := block h
    exact ⟨done', as, path.fall trivial h₀, rfl, rfl⟩

/-! ## Checks -/

/-- Every item passes the check against `passed` and the items before it. -/
def checkBlock (check : List α → α → Bool) : List α → List α → Bool
  | _, [] => true
  | passed, a :: rest => check passed a && checkBlock check (passed ++ [a]) rest

/-- Every item passes the check against the items before it in its block and, behind the first
block, the items of that block but the last one. -/
def checkBlocks (check : List α → α → Bool) : List (List α) → Bool
  | [] => true
  | entry :: others => checkBlock check [] entry && others.all (checkBlock check entry.dropLast)

/-- What passes the checks passes them against the items of every walk. -/
theorem Walk.checked {check : List α → α → Bool}
    {entry : List α} {others : List (List α)} (straight : ∀ a ∈ entry.dropLast, ∀ d, ¬ F.jumps a d)
    (checked : checkBlocks check (entry :: others) = true) {done rest : List α} {b : Nat}
    (walk : Walk F ok (entry :: others) done b rest) :
    (∃ passed ⊆ done, checkBlock check passed rest = true) ∧
      (b = 0 → ∃ before ⊆ done, entry = before ++ rest) ∧ (b ≠ 0 → entry.dropLast ⊆ done) := by
  obtain ⟨first, rest'⟩ := (Bool.and_eq_true ..).mp checked
  have other : ∀ {d : Nat} {items}, (entry :: others)[d]? = some items → d ≠ 0 →
      checkBlock check entry.dropLast items = true := by
    intro d items h ne
    obtain ⟨d, rfl⟩ := Nat.exists_eq_succ_of_ne_zero ne
    exact List.all_eq_true.mp rest' items (List.mem_of_getElem? h)
  -- a walk that comes to the start of a block has passed the entry but its last item
  have enter : ∀ {done : List α} {d : Nat} {items}, (entry :: others)[d]? = some items →
      entry.dropLast ⊆ done → (∃ passed ⊆ done, checkBlock check passed items = true) ∧
        (d = 0 → ∃ before ⊆ done, entry = before ++ items) ∧ (d ≠ 0 → entry.dropLast ⊆ done) := by
    intro done d items h passed
    by_cases zero : d = 0
    · subst zero
      obtain rfl := Option.some.inj h
      exact ⟨⟨[], List.nil_subset _, first⟩, fun _ => ⟨[], List.nil_subset _, rfl⟩, fun _ => passed⟩
    · exact ⟨⟨_, passed, other h zero⟩, fun e => absurd e zero, fun _ => passed⟩
  have grow : ∀ {l done : List α} {a : α}, l ⊆ done → l ++ [a] ⊆ done ++ [a] := fun h =>
    List.append_subset.mpr
      ⟨fun x mem => List.mem_append_left _ (h mem), fun x mem => List.mem_append_right _ mem⟩
  have wider : ∀ {l done : List α} {a : α}, l ⊆ done → l ⊆ done ++ [a] :=
    fun h x mem => List.mem_append_left _ (h mem)
  induction walk with
  | entry h =>
    obtain rfl := Option.some.inj h
    exact ⟨⟨[], List.nil_subset _, first⟩, fun _ => ⟨[], List.nil_subset _, rfl⟩, absurd rfl⟩
  | next _ _ _ ih =>
    obtain ⟨⟨passed, sub, check⟩, first, behind⟩ := ih
    refine ⟨⟨_, grow sub, ((Bool.and_eq_true ..).mp check).2⟩, fun zero => ?_,
      fun ne => wider (behind ne)⟩
    obtain ⟨before, sub, split⟩ := first zero
    exact ⟨_, grow sub, by rw [split, List.append_assoc]; rfl⟩
  | @jump done b a rest d items _ _ jumps h ih =>
    refine enter h ?_
    by_cases zero : b = 0
    · obtain ⟨before, sub, split⟩ := ih.2.1 zero
      obtain rfl | ⟨rest, last, rfl⟩ := List.eq_nil_or_concat rest
      · rw [split, List.dropLast_concat]
        exact wider sub
      · refine absurd jumps (straight a ?_ d)
        rw [List.concat_eq_append] at split
        rw [split, ← List.cons_append, ← List.append_assoc, List.dropLast_concat]
        simp
    · exact wider (ih.2.2 zero)
  | @fall done b items _ _ h ih =>
    refine enter h ?_
    by_cases zero : b = 0
    · obtain ⟨before, sub, split⟩ := ih.2.1 zero
      rw [List.append_nil] at split
      rw [split]
      exact fun x mem => sub ((List.dropLast_sublist before).subset mem)
    · exact ih.2.2 zero

/-- An item that a walk has come to passes the check against what the walk has passed. -/
theorem Walk.check_of_path {check : List α → α → Bool}
    (mono : ∀ {passed done : List α} {a}, passed ⊆ done →
      check passed a = true → check done a = true)
    (straight : ∀ items, blocks[0]? = some items → ∀ a ∈ items.dropLast, ∀ d, ¬ F.jumps a d)
    (checked : checkBlocks check blocks = true) {done rest : List α} {b : Nat} {a : α}
    (walk : Walk F ok blocks done b (a :: rest)) : check done a = true := by
  cases blocks with
  | nil =>
    obtain ⟨before, h⟩ := walk.suffix
    cases h
  | cons entry others =>
    obtain ⟨⟨passed, sub, check⟩, -⟩ := walk.checked (straight entry rfl) checked
    exact mono sub ((Bool.and_eq_true ..).mp check).1

/-! ## Chunks -/

section Chunks

variable {chunk : α → List β} {ok' : Nat → Option β → Prop}

/-- The blocks of chunks. -/
def expand (chunk : α → List β) (blocks : List (List α)) : List (List β) :=
  blocks.map (List.flatMap chunk)

lemma getElem?_expand {b : Nat} {items : List β} (h : (expand chunk blocks)[b]? = some items) :
    ∃ as, blocks[b]? = some as ∧ items = as.flatMap chunk := by
  rw [expand, List.getElem?_map, Option.map_eq_some_iff] at h
  obtain ⟨as, h, rfl⟩ := h
  exact ⟨as, h, rfl⟩

/-- An item of a list before which nothing jumps, nor it. -/
def Straight (G : ControlFlow β) (l : List β) (e : β) : Prop :=
  ∃ before after, l = before ++ e :: after ∧ ∀ x ∈ before ++ [e], ∀ d, ¬ G.jumps x d

/-- A walk of chunks follows the flow of the items. -/
structure Follows (F : ControlFlow α) (G : ControlFlow β) (chunk : α → List β)
    (blocks : List (List α)) (ok' : Nat → Option β → Prop) : Prop where
  jumps : ∀ (b : Nat) items a e d, blocks[b]? = some items → a ∈ items → e ∈ chunk a → G.jumps e d →
    F.jumps a d
  inner : ∀ (b : Nat) before a a' after, blocks[b]? = some (before ++ a :: a' :: after) →
    (∀ e ∈ chunk a, G.continues e) → F.continues a
  last : ∀ (b : Nat) before a, blocks[b]? = some (before ++ [a]) → ok' b none →
    ∃ e ∈ chunk a, ¬ G.continues e
  nonempty : ∀ (b : Nat) items, blocks[b]? = some items → items ≠ []

/-- A walk of chunks at the walk of items it follows: the rest of the chunk of the item the walk is
at, and the chunks after it. -/
def Shadow (F : ControlFlow α) (G : ControlFlow β) (chunk : α → List β)
    (blocks : List (List α)) (done : List β) (b : Nat) (rest : List β) (passed : List α) (a : α)
    (after : List α) : Prop :=
  Path F blocks passed b (a :: after) ∧
    (∀ x ∈ passed, ∀ e, Straight G (chunk x) e → e ∈ done) ∧
    ∃ before behind, chunk a = before ++ behind ∧ rest = behind ++ after.flatMap chunk ∧
      ∀ e ∈ before, e ∈ done ∧ G.continues e

/-- At the start of a block. -/
lemma Shadow.start {done : List β} {b : Nat} {rest : List β} {passed : List α}
    (follows : Follows F G chunk blocks ok') {as : List α} (h : blocks[b]? = some as)
    (path : Path F blocks passed b as)
    (straight : ∀ x ∈ passed, ∀ e, Straight G (chunk x) e → e ∈ done)
    (eq : rest = as.flatMap chunk) :
    ∃ a after, Shadow F G chunk blocks done b rest passed a after := by
  obtain ⟨a, after, rfl⟩ := List.exists_cons_of_ne_nil (follows.nonempty b as h)
  exact ⟨a, after, path, straight, [], chunk a, rfl, eq, by simp⟩

/-- A walk at the end of a chunk is at the start of the next one. -/
lemma Shadow.forward {done : List β} {b : Nat} {rest : List β} {passed : List α} {a a' : α}
    {after : List α} (follows : Follows F G chunk blocks ok')
    (shadow : Shadow F G chunk blocks done b rest passed a (a' :: after))
    (eq : rest = (a' :: after).flatMap chunk) (all : ∀ e ∈ chunk a, e ∈ done ∧ G.continues e) :
    Shadow F G chunk blocks done b rest (passed ++ [a]) a' after := by
  obtain ⟨path, straight, -⟩ := shadow
  obtain ⟨before, h⟩ := path.suffix
  refine ⟨path.next trivial (follows.inner b before a a' after h fun e he => (all e he).2),
    fun x hx e he => ?_, [], chunk a', rfl, eq, by simp⟩
  obtain hx | hx := List.mem_append.mp hx
  · exact straight x hx e he
  · obtain rfl := List.mem_singleton.mp hx
    obtain ⟨p, s, split, -⟩ := he
    exact (all e (by simp [split])).1

/-- A walk with chunk items to come is at an item whose chunk has some of them. -/
lemma Shadow.at_item {done : List β} {b : Nat} {e : β} {rest : List β} {passed : List α} {a : α}
    {after : List α} (follows : Follows F G chunk blocks ok')
    (shadow : Shadow F G chunk blocks done b (e :: rest) passed a after) :
    ∃ passed a after before behind, Path F blocks passed b (a :: after) ∧
      (∀ x ∈ passed, ∀ e, Straight G (chunk x) e → e ∈ done) ∧
      chunk a = before ++ e :: behind ∧ rest = behind ++ after.flatMap chunk ∧
      ∀ e ∈ before, e ∈ done ∧ G.continues e := by
  induction after generalizing passed a with
  | nil =>
    obtain ⟨path, straight, before, behind, split, eq, all⟩ := shadow
    cases behind with
    | nil => simp at eq
    | cons e' behind =>
      obtain ⟨rfl, rfl⟩ := List.cons.inj eq
      exact ⟨passed, a, [], before, behind, path, straight, split, rfl, all⟩
  | cons a' after ih =>
    obtain ⟨path, straight, before, behind, split, eq, all⟩ := id shadow
    cases behind with
    | nil =>
      rw [List.append_nil] at split
      subst split
      exact ih (shadow.forward follows eq all)
    | cons e' behind =>
      obtain ⟨rfl, rfl⟩ := List.cons.inj eq
      exact ⟨passed, a, _, before, behind, path, straight, split, rfl, all⟩

/-- A walk at the end of a block is at the end of the last chunk. -/
lemma Shadow.at_end {done : List β} {b : Nat} {passed : List α} {a : α} {after : List α}
    (follows : Follows F G chunk blocks ok')
    (shadow : Shadow F G chunk blocks done b [] passed a after) :
    ∃ passed a before, Path F blocks passed b [a] ∧ blocks[b]? = some (before ++ [a]) ∧
      ∀ e ∈ chunk a, G.continues e := by
  induction after generalizing passed a with
  | nil =>
    obtain ⟨path, -, before, behind, split, eq, all⟩ := shadow
    obtain ⟨pre, h⟩ := path.suffix
    obtain ⟨rfl, -⟩ := List.append_eq_nil_iff.mp eq.symm
    rw [List.append_nil] at split
    exact ⟨passed, a, pre, path, h, fun e he => (all e (split ▸ he)).2⟩
  | cons a' after ih =>
    obtain ⟨-, -, before, behind, split, eq, all⟩ := id shadow
    obtain ⟨rfl, -⟩ := List.append_eq_nil_iff.mp eq.symm
    rw [List.append_nil] at split
    subst split
    exact ih (shadow.forward follows eq all)

/-- Every walk of chunks follows a walk of items. -/
theorem Walk.shadow (follows : Follows F G chunk blocks ok') {done : List β} {b : Nat}
    {rest : List β} (walk : Walk G ok' (expand chunk blocks) done b rest) :
    ∃ passed a after, Shadow F G chunk blocks done b rest passed a after := by
  induction walk with
  | entry h =>
    obtain ⟨as, h, eq⟩ := getElem?_expand h
    exact ⟨[], Shadow.start follows h (.entry h) (by simp) eq⟩
  | @next done b e rest _ _ continues ih =>
    obtain ⟨passed, a, after, shadow⟩ := ih
    obtain ⟨passed, a, after, before, behind, path, straight, split, eq, all⟩ :=
      shadow.at_item follows
    refine ⟨passed, a, after, path, fun x hx e' he => List.mem_append_left _ (straight x hx e' he),
      before ++ [e], behind, by simpa using split, eq, fun e' he => ?_⟩
    obtain he | he := List.mem_append.mp he
    · exact ⟨List.mem_append_left _ (all e' he).1, (all e' he).2⟩
    · obtain rfl := List.mem_singleton.mp he
      exact ⟨List.mem_append_right _ he, continues⟩
  | @jump done b e rest d items _ _ jumps h ih =>
    obtain ⟨passed, a, after, shadow⟩ := ih
    obtain ⟨passed, a, after, before, behind, path, straight, split, -, all⟩ :=
      shadow.at_item follows
    obtain ⟨as, h, eq⟩ := getElem?_expand h
    obtain ⟨pre, h'⟩ := path.suffix
    have jump := follows.jumps b _ a e d h' (by simp) (by simp [split]) jumps
    refine ⟨passed ++ [a],
      Shadow.start follows h (path.jump trivial jump h) (fun x hx e' he => ?_) eq⟩
    obtain hx | hx := List.mem_append.mp hx
    · exact List.mem_append_left _ (straight x hx e' he)
    · -- what is straight in a chunk that is left by a jump comes before the item that jumps
      obtain rfl := List.mem_singleton.mp hx
      obtain ⟨p, s, split', none⟩ := he
      rw [split] at split'
      obtain ⟨t, rfl, e₂⟩ | ⟨t, rfl, e₂⟩ := List.append_eq_append_iff.mp split'
      · cases t with
        | nil =>
          obtain ⟨rfl, -⟩ := List.cons.inj e₂
          exact absurd jumps (none e (by simp) d)
        | cons y t =>
          obtain ⟨rfl, -⟩ := List.cons.inj e₂
          exact absurd jumps (none e (by simp) d)
      · cases t with
        | nil =>
          obtain ⟨rfl, -⟩ := List.cons.inj e₂
          exact absurd jumps (none e' (by simp) d)
        | cons y t =>
          obtain ⟨rfl, -⟩ := List.cons.inj e₂
          exact List.mem_append_left _ (all e' (by simp)).1
  | @fall done b items _ allowed h ih =>
    obtain ⟨passed, a, after, shadow⟩ := ih
    obtain ⟨passed, a, before, -, h', all⟩ := shadow.at_end follows
    obtain ⟨e, he, stops⟩ := follows.last b before a h' allowed
    exact absurd (all e he) stops

/-! ## Places within chunks -/

/-- The rest of a block of chunks at the rest of a block of items: what is still to come of the
chunk of `a`, and the chunks after it. -/
def Inside (G : ControlFlow β) (chunk : α → List β) (rest : List β) (a : α)
    (after : List α) : Prop :=
  ∃ before behind, chunk a = before ++ behind ∧ rest = behind ++ after.flatMap chunk ∧
    ∀ e ∈ before, G.continues e

/-- The place before an element: the items between are passed at their ends. -/
lemma Inside.at_item {e : β} {rest : List β} {a : α} {after : List α}
    (inside : Inside G chunk (e :: rest) a after) :
    ∃ skipped a' after' before behind, a :: after = skipped ++ a' :: after' ∧
      chunk a' = before ++ e :: behind ∧ rest = behind ++ after'.flatMap chunk ∧
      (∀ x ∈ before, G.continues x) ∧ (∀ x ∈ skipped, ∀ y ∈ chunk x, G.continues y) ∧
      ∀ l x l', skipped = l ++ x :: l' → e :: rest = (l' ++ a' :: after').flatMap chunk := by
  induction after generalizing a with
  | nil =>
    obtain ⟨before, behind, split, eq, all⟩ := inside
    cases behind with
    | nil => simp at eq
    | cons e' behind =>
      obtain ⟨rfl, rfl⟩ := List.cons.inj eq
      exact ⟨[], a, [], before, behind, rfl, split, rfl, all, nofun, by simp⟩
  | cons a₁ after ih =>
    obtain ⟨before, behind, split, eq, all⟩ := inside
    cases behind with
    | nil =>
      rw [List.append_nil] at split
      subst split
      obtain ⟨skipped, a', after', before, behind, items, split, eq', all', passed, ends⟩ :=
        ih ⟨[], chunk a₁, rfl, eq, nofun⟩
      refine ⟨a :: skipped, a', after', before, behind, congrArg (a :: ·) items, split, eq', all',
        List.forall_mem_cons.mpr ⟨all, passed⟩, fun l x l' e' => ?_⟩
      cases l with
      | nil =>
        obtain ⟨rfl, rfl⟩ := List.cons.inj e'
        rw [← items]
        exact eq
      | cons y l => exact ends l x l' (List.cons.inj e').2
    | cons e' behind =>
      obtain ⟨rfl, rfl⟩ := List.cons.inj eq
      exact ⟨[], a, _, before, behind, rfl, split, rfl, all, nofun, by simp⟩

/-- The end of a block is the end of its last chunk. -/
lemma Inside.at_end {a : α} {after : List α} (inside : Inside G chunk [] a after) :
    ∀ x ∈ a :: after, ∀ e ∈ chunk x, G.continues e := by
  induction after generalizing a with
  | nil =>
    obtain ⟨before, behind, split, eq, all⟩ := inside
    obtain ⟨rfl, -⟩ := List.append_eq_nil_iff.mp eq.symm
    rw [List.append_nil] at split
    subst split
    simpa using all
  | cons a₁ after ih =>
    obtain ⟨before, behind, split, eq, all⟩ := inside
    obtain ⟨rfl, none⟩ := List.append_eq_nil_iff.mp eq.symm
    rw [List.append_nil] at split
    subst split
    exact List.forall_mem_cons.mpr ⟨all, ih ⟨[], chunk a₁, rfl, none.symm, nofun⟩⟩

/-- The items can be walked where their chunks can. -/
structure Leads (F : ControlFlow α) (G : ControlFlow β) (chunk : α → List β)
    (blocks : List (List α)) : Prop where
  continues : ∀ (b : Nat) items a, blocks[b]? = some items → a ∈ items → F.continues a →
    ∀ e ∈ chunk a, G.continues e
  jumps : ∀ (b : Nat) items a d, blocks[b]? = some items → a ∈ items → F.jumps a d →
    ∃ before e after, chunk a = before ++ e :: after ∧ (∀ x ∈ before, G.continues x) ∧ G.jumps e d

/-- Every walk of items is followed by a walk of chunks that passes nothing else. -/
theorem Walk.expand (leads : Leads F G chunk blocks) {done rest : List α} {b : Nat}
    (walk : Path F blocks done b rest) :
    ∃ passed, Path G (expand chunk blocks) passed b (rest.flatMap chunk) ∧
      ∀ e ∈ passed, ∃ a ∈ done, e ∈ chunk a := by
  have block : ∀ {d : Nat} {items}, blocks[d]? = some items →
      (ControlFlow.expand chunk blocks)[d]? = some (items.flatMap chunk) := fun h => by
    simp [ControlFlow.expand, h]
  induction walk with
  | entry h => exact ⟨[], .entry (block h), by simp⟩
  | @next done b a rest walk _ continues ih =>
    obtain ⟨passed, path, sub⟩ := ih
    obtain ⟨before, h⟩ := walk.suffix
    -- the chunk is run through
    have all := leads.continues b _ a h (by simp) continues
    rw [List.flatMap_cons] at path
    refine ⟨passed ++ chunk a, path.run fun e he => ⟨trivial, all e he⟩, fun e he => ?_⟩
    obtain he | he := List.mem_append.mp he
    · obtain ⟨x, hx, he⟩ := sub e he
      exact ⟨x, List.mem_append_left _ hx, he⟩
    · exact ⟨a, by simp, he⟩
  | @jump done b a rest d items walk _ jumps h ih =>
    obtain ⟨passed, path, sub⟩ := ih
    obtain ⟨before, h'⟩ := walk.suffix
    -- the chunk is left at the element that jumps, and the rest of it is not passed
    obtain ⟨p, e, s, split, all, jump⟩ := leads.jumps b _ a d h' (by simp) jumps
    rw [List.flatMap_cons, split, List.append_assoc] at path
    refine ⟨passed ++ p ++ [e],
      (path.run fun x hx => ⟨trivial, all x hx⟩).jump trivial jump (block h), fun x hx => ?_⟩
    rw [List.append_assoc] at hx
    obtain hx | hx := List.mem_append.mp hx
    · obtain ⟨y, hy, hx⟩ := sub x hx
      exact ⟨y, List.mem_append_left _ hy, hx⟩
    · refine ⟨a, by simp, ?_⟩
      rw [split]
      simp only [List.mem_append, List.mem_cons, List.not_mem_nil, or_false] at hx ⊢
      exact hx.imp_right .inl
  | fall walk _ h ih =>
    obtain ⟨passed, path, sub⟩ := ih
    exact ⟨passed, path.fall trivial (block h), sub⟩

end Chunks

end ControlFlow

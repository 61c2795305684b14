import FpgaGpu.Isel.Contents
import FpgaGpu.Lib.Offset

/-!
# How long the code is

The number of instructions that each item of a function is lowered to, from the function alone: the
instructions of its steps and its tail, and one for each constant that it loads because nothing
before it in the layout used the constant.
-/

namespace FpgaGpu

open Llvm (Value)
open Emission (bind_eq_some pure_eq_some push_eq_some)

/-! ## Sizes -/

/-- A use that loads a constant if nothing before it used the value. -/
def mayLoad (u : Value × Bool) : Bool := u.2 && isConstantInt u.1 && !isZero u.1

/-- The number of constants that uses load after the values `seen` were used. -/
def loadCount (seen : List Value) : List (Value × Bool) → Nat
  | [] => 0
  | u :: us => (if mayLoad u ∧ u.1 ∉ seen then 1 else 0) + loadCount (seen ++ [u.1]) us

/-- The number of instructions of steps. -/
def emitCount : List PlanStep → Nat
  | [] => 0
  | .emit _ :: steps => emitCount steps + 1
  | _ :: steps => emitCount steps

/-- The number of instructions that an item is lowered to. -/
def Marked.size (dl : DataLayout) (f : Llvm.Function) (x : Marked) : Nat :=
  loadCount (x.seen.map Prod.fst) (usesOf dl f x.item) + emitCount (x.item.steps dl f) +
    (x.item.tail f).length

/-- The sizes of the items of each block. -/
def itemSizes (dl : DataLayout) (f : Llvm.Function) : List (List Nat) :=
  (markedItems dl f).map (List.map (Marked.size dl f))

/-- The names of the blocks, and how many instructions each has. -/
def outline (dl : DataLayout) (f : Llvm.Function) : List (Text × Nat) :=
  (itemSizes dl f).mapIdx fun b sizes => (blockNames f b, sizes.sum)

/-! ## Lengths -/

lemma firstUse_eq_none {c : Value} {us : List (Value × Bool)} :
    firstUse c us = none ↔ c ∉ us.map Prod.fst := by
  simp only [firstUse, Option.map_eq_none_iff, List.find?_eq_none, decide_eq_true_eq, List.mem_map,
    not_exists, not_and]

section Lengths

variable {st st' : Selector} {seen : List Value}

/-- A lookup loads a constant that was not used before. -/
lemma lookup_length {v : Value} {materialize : Bool} {r : Nat} {out : List (Instruction Nat)}
    (known : Seen st seen) (h : lookup v materialize st = some (r, out, st')) :
    Seen st' (seen ++ [v]) ∧
      out.length = if mayLoad (v, materialize) ∧ v ∉ seen then 1 else 0 := by
  obtain ⟨known', rfl⟩ := known.lookup h
  refine ⟨fun c constant nonzero => ?_, ?_⟩
  · rw [known' c constant nonzero]
    simp [and_comm]
  · cases v with
    | constantInt w bits =>
      cases materialize with
      | false => simp [loads, mayLoad]
      | true =>
        simp only [loads, mayLoad, isConstantInt, Bool.true_and,
          Bool.not_eq_eq_eq_not, Bool.not_true]
        split <;> rfl
    | argument | instruction | other => simp [loads, mayLoad, isConstantInt]

/-- The steps of an item push their instructions and the constants that they load. -/
lemma runSteps_length {own : Value} {regs : List Nat} {steps : List PlanStep}
    {out : List (Instruction Nat)} (own_const : isConstantInt own = false) (known : Seen st seen)
    (h : runSteps own regs steps st = some ((), out, st')) :
    out.length = loadCount seen (stepUses steps) + emitCount steps := by
  induction steps generalizing st regs out seen with
  | nil =>
    obtain ⟨-, rfl, -⟩ := pure_eq_some.mp h
    rfl
  | cons step steps ih =>
    cases step with
    | result =>
      obtain ⟨r, out₁, st₁, out₂, first, rest, rfl⟩ := bind_eq_some.mp h
      obtain ⟨known₁, rfl⟩ := known.result own_const first
      exact ih known₁ rest
    | fresh =>
      obtain ⟨r, out₁, st₁, out₂, first, rest, rfl⟩ := bind_eq_some.mp h
      simp only [allocateVReg, Option.some.injEq, Prod.mk.injEq] at first
      obtain ⟨-, rfl, rfl⟩ := first
      have known₁ : Seen { st with nextVReg := st.nextVReg + 1 } seen := known
      exact ih known₁ rest
    | use v materialize =>
      obtain ⟨r, out₁, st₁, out₂, first, rest, rfl⟩ := bind_eq_some.mp h
      obtain ⟨known', length⟩ := lookup_length known first
      rw [List.length_append, length, ih known' rest, ← Nat.add_assoc]
      rfl
    | emit mi =>
      obtain ⟨_, out₁, st₁, out₂, first, rest, rfl⟩ := bind_eq_some.mp h
      obtain ⟨rfl, rfl⟩ := push_eq_some.mp first
      rw [List.length_append, ih known rest, Nat.add_comm]
      rfl

/-- Every item has its size. -/
lemma selectItem_length {dl : DataLayout} {f : Llvm.Function} {x : Marked} {code : List Emitted}
    (known : Seen st (x.seen.map Prod.fst))
    (h : selectItem dl f x.item st = some ((), code, st')) : code.length = x.size dl f := by
  obtain ⟨out, stepped⟩ := selectItem_stepped h
  rw [stepped.code, List.length_append, List.length_map,
    runSteps_length x.item.isConstantInt_own known stepped.run, stepped.uses]
  rfl

end Lengths

section Functions

variable {dl : DataLayout} {f : Llvm.Function} {code : List SelectedBlock} {st : Selector}

/-- The pieces of a function are selected one by one, and have the sizes of their items. -/
lemma selectFunction_sizes (h : selectFunction dl f = some (code, st)) :
    ∃ pieces, Selected dl f code st pieces ∧
      (∀ ps ∈ pieces, ∀ p ∈ ps, selectItem dl f p.item p.before = some ((), p.code, p.after)) ∧
      pieces.map (List.map fun p => p.code.length) = itemSizes dl f := by
  obtain ⟨pieces, seen, chain, selected⟩ := selectFunction_pieces h
  have select := fun ps hps p hp =>
    (chain.select Selector.valid_start p (List.mem_flatten.mpr ⟨ps, hps, hp⟩)).2
  refine ⟨pieces, selected, select, ?_⟩
  rw [itemSizes, ← selected.marks, List.map_map]
  refine List.map_congr_left fun ps hps => ?_
  rw [Function.comp_apply, List.map_map]
  refine List.map_congr_left fun p hp => ?_
  have known : Seen p.before (p.mark.seen.map Prod.fst) := by
    intro c constant nonzero
    rw [selected.seen c constant nonzero ps hps p hp, firstUse_eq_none]
    rfl
  exact selectItem_length known (select ps hps p hp)

/-- The blocks of a function have the names and lengths of its outline. -/
lemma selectFunction_outline (h : selectFunction dl f = some (code, st)) :
    code.map (fun sb => (sb.name, sb.items.length)) = outline dl f := by
  obtain ⟨pieces, selected, -, sizes⟩ := selectFunction_sizes h
  apply List.ext_getElem?
  intro b
  have items := congrArg (·[b]?) selected.blocks
  have names := congrArg (·[b]?) selected.names
  simp only [ControlFlow.expand, List.getElem?_map, List.getElem?_mapIdx] at items names
  rw [outline, ← sizes, List.getElem?_map, List.getElem?_mapIdx, List.getElem?_map]
  cases e : code[b]? with
  | none =>
    rw [e, Option.map_none, eq_comm, Option.map_eq_none_iff] at items
    rw [items]
    rfl
  | some sb =>
    rw [e, Option.map_some, eq_comm, Option.map_eq_some_iff] at items names
    obtain ⟨ps, hps, items⟩ := items
    obtain ⟨-, -, name⟩ := names
    rw [hps]
    simp [← items, name, List.length_flatMap]

end Functions

end FpgaGpu

import FpgaGpu.Isel.Constants

/-!
# Values and constants, block by block

Where every value is used in its block or defined in the entry block, and every constant is loaded
in the block that uses it or in the entry block, the promises that speak of paths are checks of the
text.
-/

namespace FpgaGpu

variable {dl : DataLayout} {f : Llvm.Function}

/-- The arguments that items use are those of the function. -/
def argumentsExist (f : Llvm.Function) : Bool :=
  (functionItems f).all fun items => items.all fun a => a.operands.all fun
    | .argument k => decide (k < f.args.length)
    | _ => true

/-- The results that an item uses are defined by the items before it. -/
def definesBefore (passed : List Item) (a : Item) : Bool :=
  a.operands.all fun
    | .instruction id => passed.any fun d => d.defines = some id
    | _ => true

/-- The constants that an item uses are loaded by their first uses, which are the item and the items
before it. -/
def loadsBefore (dl : DataLayout) (f : Llvm.Function) (passed : List Marked) (a : Marked) : Bool :=
  (usesOf dl f a.item).all fun u =>
    !isConstantInt u.1 || isZero u.1 || (passed ++ [a]).any fun x =>
      firstUse u.1 x.seen = none && firstUse u.1 (usesOf dl f x.item) = some true

/-- Only the last item of the entry block leads away. -/
lemma straight_entry {items : List Item} (h : (functionItems f)[0]? = some items) {a : Item}
    (mem : a ∈ items.dropLast) (d : Nat) : ¬ cfgFlow.jumps a d := by
  rw [functionItems, List.getElem?_mapIdx, Option.map_eq_some_iff] at h
  obtain ⟨bb, -, rfl⟩ := h
  rw [itemsOf, ← List.append_assoc, List.dropLast_concat] at mem
  have plain : ∀ {k : Nat} {args : List Llvm.Argument}, a ∈ argumentItems k args →
      ¬ cfgFlow.jumps a d := by
    intro k args mem
    induction args generalizing k with
    | nil => cases mem
    | cons arg args ih =>
      obtain rfl | mem := List.mem_cons.mp mem
      · rintro ⟨⟩
      · exact ih mem
  obtain mem | mem := List.mem_append.mp mem
  · split at mem
    · exact plain mem
    · cases mem
  · obtain ⟨i, -, rfl⟩ := List.mem_map.mp mem
    rintro ⟨⟩

/-- The promises of the verifier from checks of the text. -/
theorem Ssa.of_checks (closed : f.Closed) (ids : ((bodyOf f).map Llvm.Instruction.id).Nodup)
    (terminators : ∀ bb ∈ f.blocks, (Item.term bb.terminator).defines = none)
    (arguments : argumentsExist f = true)
    (defines : ControlFlow.checkBlocks definesBefore (functionItems f) = true) : Ssa f where
  closed := closed
  ids := ids
  terminators bb mem id defines := by
    rw [terminators bb mem] at defines
    cases defines
  arguments items hi a ha k operand :=
    of_decide_eq_true (List.all_eq_true.mp
      (List.all_eq_true.mp (List.all_eq_true.mp arguments items hi) a ha) _
      operand)
  dominated done b a rest id path operand := by
    have check : definesBefore done a = true := path.check_of_path (fun {passed done a} sub h => ?_)
      (fun items h a mem d => straight_entry h mem d) defines
    · obtain ⟨d, mem, same⟩ := List.any_eq_true.mp (List.all_eq_true.mp check _ operand)
      exact ⟨d, mem, of_decide_eq_true same⟩
    · refine List.all_eq_true.mpr fun v mem => ?_
      have here := List.all_eq_true.mp h v mem
      cases v with
      | instruction id =>
        obtain ⟨d, mem, same⟩ := List.any_eq_true.mp here
        exact List.any_eq_true.mpr ⟨d, sub mem, same⟩
      | argument | constantInt | other => rfl

/-- The first uses of constants load them, from a check of the text. -/
theorem FirstUsesLoad.of_checks
    (loads : ControlFlow.checkBlocks (loadsBefore dl f) (markedItems dl f) = true) :
    FirstUsesLoad dl f := by
  intro done b a rest path w bits m nonzero used
  have check : loadsBefore dl f done a = true :=
    path.check_of_path (fun {passed done a} sub h => ?_)
    (fun marks block m mem d => ?_) loads
  · have here := List.all_eq_true.mp check _ used
    simp only [isConstantInt, isZero, nonzero, decide_false, Bool.not_true, Bool.false_or] at here
    obtain ⟨x, mem, first⟩ := List.any_eq_true.mp here
    simp only [Bool.and_eq_true, decide_eq_true_eq] at first
    exact ⟨x, mem, first⟩
  · refine List.all_eq_true.mpr fun u mem => ?_
    have here := List.all_eq_true.mp h u mem
    simp only [Bool.or_eq_true] at here ⊢
    refine here.imp_right fun any => ?_
    obtain ⟨x, mem, first⟩ := List.any_eq_true.mp any
    exact List.any_eq_true.mpr ⟨x, by simpa using (List.mem_append.mp mem).imp_left (sub ·), first⟩
  · have block' : (functionItems f)[0]? = some (marks.map Marked.item) := by
      rw [← item_markBlocks dl f [] (functionItems f), List.getElem?_map]
      exact congrArg (Option.map _) block
    refine straight_entry block' ?_ d
    rw [← List.map_dropLast]
    exact List.mem_map_of_mem mem

end FpgaGpu

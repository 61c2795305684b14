import FpgaGpu.Alloc.Pressure
import FpgaGpu.Backend.Module

/-!
# Functions that are allocated together

The selector of each function counts its registers from 1, and the allocator takes equal numbers of
different functions for one register.
-/

namespace FpgaGpu

/-- Two functions that can be allocated alone can be allocated together unless the joined ranges are
crowded. -/
theorem allocate_together_iff (order : SortOrder) (code code' : List SelectedBlock) :
    ((allocate order (allBlocks [code])).isSome = true →
        (allocate order (allBlocks [code'])).isSome = true →
        (allocate order (allBlocks [code, code'])).isSome = true) ↔
      Crowded (layout (allBlocks [code])) ∨ Crowded (layout (allBlocks [code'])) ∨
        ¬ CrowdedTogether (layout (allBlocks [code])) (layout (allBlocks [code'])) := by
  have alone : ∀ blocks, (allocate order blocks).isSome = true ↔ ¬ Crowded (layout blocks) := by
    intro blocks
    rw [← allocate_eq_none_iff order, Option.isSome_iff_ne_none]
  have together : Crowded (layout (allBlocks [code, code'])) ↔
      CrowdedTogether (layout (allBlocks [code])) (layout (allBlocks [code'])) := by
    rw [← crowded_append, ← layout_append]
    simp [allBlocks]
  rw [alone, alone, alone, together]
  tauto

/-- Reads the word that its argument points to, 30 times. -/
def readMany : Llvm.Function where
  args := [{ name := "p".toList, ty := .ptr }]
  blocks :=
    [{ name := "entry".toList
       body := (List.range 30).map fun i => ⟨i, .load (.int 32) (.argument 0)⟩
       terminator := .ret none }]

/-- One such kernel can be allocated alone, and two cannot be allocated together. -/
theorem allocate_readMany : ∃ code st, selectFunction words readMany = some (code, st) ∧
    (allocate SortOrder.stable (allBlocks [code])).isSome = true ∧
    allocate SortOrder.stable (allBlocks [code, code]) = none := by
  have run : (selectFunction words readMany).map (fun p =>
      ((allocate SortOrder.stable (allBlocks [p.1])).isSome,
        (allocate SortOrder.stable (allBlocks [p.1, p.1])).isSome)) = some (true, false) := by
    decide +kernel
  obtain ⟨⟨code, st⟩, select, allocated⟩ := Option.map_eq_some_iff.mp run
  obtain ⟨alone, together⟩ := Prod.mk.inj allocated
  exact ⟨code, st, select, alone, by simpa using together⟩

end FpgaGpu

import FpgaGpu.Ir.Syntax
import FpgaGpu.Text.Number

/-!
# Divergence pass

Model of `runDivergencePass` in `src/FpgaGpuBackend.cpp`. What LLVM computes for the pass is a
parameter: the post-dominator and dominator trees, built once on the named function, the order of
`llvm::predecessors`, and the name that a block gets when the wanted one is taken.
-/

namespace FpgaGpu

open Llvm (BasicBlock)

/-- What the pass takes from LLVM. -/
structure Analyses where
  /-- `PDT.getNode(BB)->getIDom()->getBlock()` on the tree of a function. -/
  ipdom : Llvm.Function → Nat → Option Nat
  /-- `DT.dominates(A, B)` on the tree of a function. -/
  dominates : Llvm.Function → Nat → Nat → Bool
  /-- `llvm::predecessors(BB)`. -/
  predecessors : Llvm.Function → Nat → List Nat
  /-- The name given for a wanted one. -/
  uniqueName : Llvm.Function → Text → Text

/-- Changes one block of a function. -/
def Llvm.Function.modifyBlock (f : Llvm.Function) (b : Nat) (g : BasicBlock → BasicBlock) :
    Llvm.Function :=
  { f with blocks := f.blocks.modify b g }

/-- A new call of an inline assembly text. -/
def asmCall (f : Llvm.Function) (text : Text) : Llvm.Instruction where
  id := f.freshId
  operation := .call (.inlineAsm text) []

variable (llvm : Analyses)

/-- Names the block `bbIdx` if it has no name. -/
def nameBlock (f : Llvm.Function) (bbIdx : Nat) : Llvm.Function :=
  if f.blockName bbIdx = [] then
    f.modifyBlock bbIdx fun bb =>
      { bb with name := llvm.uniqueName f ("bb.".toList ++ decimalNat bbIdx) }
  else f

/-- Step 1: names all blocks. -/
def nameBlocks (f : Llvm.Function) : Llvm.Function :=
  (List.range f.blocks.length).foldl (nameBlock llvm) f

/-- The blocks that end in a conditional branch, in order. -/
def condBranches (f : Llvm.Function) : List Nat :=
  (List.range f.blocks.length).filter fun b =>
    match f.blocks[b]? with
    | some bb => bb.terminator.isCondBr
    | none => false

/-- The text of the call that marks the reconvergence block of a branch. -/
def ssyAsm (f : Llvm.Function) (ipd : Nat) : Text := "ssy ".toList ++ f.blockName ipd

/-- Inserts `SSY ipd` before the branch of a block. -/
def insertSsy (f : Llvm.Function) (b ipd : Nat) : Llvm.Function :=
  f.modifyBlock b fun bb => { bb with body := bb.body ++ [asmCall f (ssyAsm f ipd)] }

/-- Creates the block that synchronises on the way from `pred` to `ipd`, and sends the edges
there. -/
def insertSync (ipd : Nat) (f : Llvm.Function) (pred : Nat) : Llvm.Function :=
  let syncBB : BasicBlock :=
    { name := llvm.uniqueName f (f.blockName pred ++ ".sync".toList)
      body := [asmCall f "sync".toList]
      terminator := .br ipd }
  let redirect : Nat → Nat := fun d => if d = ipd then f.blocks.length else d
  { f with blocks := f.blocks ++ [syncBB] }.modifyBlock pred fun bb =>
    { bb with terminator := bb.terminator.mapSuccessors redirect }

/-- The body of the loop over the conditional branches. The trees are those of `named`. -/
def processBranch (named f : Llvm.Function) (b : Nat) : Llvm.Function :=
  match llvm.ipdom named b with
  | none => f
  | some ipd =>
    let f := insertSsy f b ipd
    let preds := (llvm.predecessors f ipd).filter (llvm.dominates named b)
    preds.foldl (insertSync llvm ipd) f

/-- Inserts `SSY` and `SYNC` into a function. -/
def runDivergencePass (f : Llvm.Function) : Llvm.Function :=
  if f.isDeclaration then f
  else
    let named := nameBlocks llvm f
    (condBranches named).foldl (processBranch llvm named) named

end FpgaGpu

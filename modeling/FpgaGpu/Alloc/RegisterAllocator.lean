import FpgaGpu.Emit.Emitter
import Mathlib.Data.List.Sort

/-!
# Register allocator

Model of `RegisterAllocator::allocate` in `src/FpgaGpuRegAlloc.cpp`: a linear scan over the ranges
from the first to the last instruction that mentions a register, in layout order. A failed
allocation leaves the blocks as they are, and is `none`. Global instruction indices are unbounded.
-/

namespace FpgaGpu

/-- The first and the last instruction that mention a register. -/
structure LiveRange where
  birth : Nat
  death : Nat
  deriving DecidableEq, Repr

/-- A register with its range. -/
abbrev Interval := RegField × LiveRange

/-- `recordUse` for a register other than R0. -/
def extend (globalIdx : Nat) (vreg : RegField) : List Interval → List Interval
  | [] => [(vreg, { birth := globalIdx, death := globalIdx })]
  | (u, range) :: rest =>
    if u = vreg then
      (u, { birth := min range.birth globalIdx, death := max range.death globalIdx }) :: rest
    else (u, range) :: extend globalIdx vreg rest

/-- `recordUse`. -/
def recordUse (globalIdx : Nat) (intervals : List Interval) (vreg : RegField) : List Interval :=
  if vreg = 0 then intervals else extend globalIdx vreg intervals

/-- The three register fields, whether or not the opcode uses them. -/
def Instruction.fields {Reg : Type} (mi : Instruction Reg) : List Reg := [mi.rd, mi.rs1, mi.rs2]

/-- Step 1: the ranges of the registers, from the instruction `globalIdx` on. -/
def liveRanges (globalIdx : Nat) (intervals : List Interval) :
    List MachineInstruction → List Interval
  | [] => intervals
  | mi :: code => liveRanges (globalIdx + 1) (mi.fields.foldl (recordUse globalIdx) intervals) code

/-- The comparison of step 2. -/
def Earlier (a b : Interval) : Prop :=
  if a.2.birth ≠ b.2.birth then a.2.birth < b.2.birth else a.2.death < b.2.death

instance (a b : Interval) : Decidable (Earlier a b) := by
  unfold Earlier
  infer_instance

/-- Step 2: the order in which `std::sort` leaves the entries of a `std::unordered_map`. It is
sorted, and arbitrary among intervals of which none is earlier. -/
structure SortOrder where
  sort : List Interval → List Interval
  perm : ∀ l, (sort l).Perm l
  sorted : ∀ l, (sort l).Pairwise fun a b => ¬ Earlier b a

/-- The state of step 3. -/
structure Scan where
  freePool : List RegField
  active : List (Nat × RegField)
  vregToPhys : RegField → RegField

/-- `freePool.insert`. -/
def insertFree (phys : RegField) (freePool : List RegField) : List RegField :=
  if phys ∈ freePool then freePool else freePool.orderedInsert (· ≤ ·) phys

/-- Expires the intervals that end before `birth`. -/
def expire (vregToPhys : RegField → RegField) (birth : Nat) :
    List (Nat × RegField) → List RegField → List (Nat × RegField) × List RegField
  | [], freePool => ([], freePool)
  | (death, vreg) :: active, freePool =>
    if death < birth then expire vregToPhys birth active (insertFree (vregToPhys vreg) freePool)
    else
      let (kept, freePool) := expire vregToPhys birth active freePool
      ((death, vreg) :: kept, freePool)

/-- Allocates one interval; `none` when there is no free register. -/
def scanStep (st : Scan) (interval : Interval) : Option Scan :=
  let (vreg, range) := interval
  let (active, freePool) := expire st.vregToPhys range.birth st.active st.freePool
  match freePool with
  | [] => none
  | phys :: freePool =>
    some { freePool := freePool
           active := active ++ [(range.death, vreg)]
           vregToPhys := Function.update st.vregToPhys vreg phys }

/-- Step 3: the linear scan. -/
def linearScan : List Interval → Scan → Option Scan
  | [], st => some st
  | interval :: rest, st => (scanStep st interval).bind (linearScan rest)

/-- Step 3 as far as it gets, and whether it gets to the end. -/
def scanAll : List Interval → Scan → Bool × Scan
  | [], st => (true, st)
  | interval :: rest, st =>
    match scanStep st interval with
    | none => (false, st)
    | some st => scanAll rest st

/-- R1..R31 are free. -/
def Scan.start : Scan where
  freePool := (List.range' 1 (numPhysicalRegs - 1)).map (BitVec.ofNat 8)
  active := []
  vregToPhys := fun _ => 0

/-- Step 4 for one field: R0 stays. -/
def assign (vregToPhys : RegField → RegField) (r : RegField) : RegField :=
  if r = 0 then 0 else vregToPhys r

/-- Replaces the registers of a block. -/
def BlockCode.mapRegs {Reg Reg' : Type} (φ : Reg → Reg') (bb : BlockCode Reg) : BlockCode Reg' where
  name := bb.name
  instructions := bb.instructions.map (Instruction.mapRegs φ)

/-- Allocates physical registers for a list of blocks. -/
def allocate (order : SortOrder) (blocks : List BasicBlockCode) : Option (List BasicBlockCode) := do
  let sortedRegs := order.sort (liveRanges 0 [] (layout blocks))
  let st ← linearScan sortedRegs Scan.start
  return blocks.map (BlockCode.mapRegs (assign st.vregToPhys))

/-- `allocate` as its caller sees it: whether it succeeds, and the blocks that it leaves. -/
def allocateInPlace (order : SortOrder) (blocks : List BasicBlockCode) :
    Bool × List BasicBlockCode :=
  match linearScan (order.sort (liveRanges 0 [] (layout blocks))) Scan.start with
  -- the blocks are written in step 4 only
  | none => (false, blocks)
  | some st => (true, blocks.map (BlockCode.mapRegs (assign st.vregToPhys)))

/-- `vregToPhys` when `allocate` returns, whether or not it succeeds. -/
def vregToPhys (order : SortOrder) (blocks : List BasicBlockCode) : RegField → RegField :=
  (scanAll (order.sort (liveRanges 0 [] (layout blocks))) Scan.start).2.vregToPhys

/-- `getPhysReg` after `allocate`: R1 for a register that was not given one. No register but R0 is
given R0. -/
def getPhysReg (order : SortOrder) (blocks : List BasicBlockCode) (vreg : RegField) : RegField :=
  if vreg = 0 then 0
  else if vregToPhys order blocks vreg = 0 then 1
  else vregToPhys order blocks vreg

/-- The order in which a `std::unordered_map` is enumerated. -/
structure Enumeration where
  enumerate : List Interval → List Interval
  perm : ∀ l, (enumerate l).Perm l

/-- The order in which `std::sort` leaves the entries when they are enumerated so. -/
def SortOrder.after (order : SortOrder) (e : Enumeration) : SortOrder where
  sort l := order.sort (e.enumerate l)
  perm l := (order.perm (e.enumerate l)).trans (e.perm l)
  sorted l := order.sorted (e.enumerate l)

end FpgaGpu

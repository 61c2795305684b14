import FpgaGpu.Isa.Fields
import FpgaGpu.Asm.RoundTrip
import FpgaGpu.Asm.Resolution
import FpgaGpu.Asm.Targets
import FpgaGpu.Asm.Literals
import FpgaGpu.Asm.Layout
import FpgaGpu.Emit.Agreement
import FpgaGpu.Emit.Control
import FpgaGpu.Alloc.Determinism
import FpgaGpu.Divergence.Phis
import FpgaGpu.Isel.Definitions
import FpgaGpu.Isel.Constants
import FpgaGpu.Isel.Comparison
import FpgaGpu.Isel.Operators
import FpgaGpu.Isel.Immediates
import FpgaGpu.Isel.Identity
import FpgaGpu.Isel.Sinking
import FpgaGpu.Isel.Transfers
import FpgaGpu.Isel.Conditions
import FpgaGpu.Isel.Shifts
import FpgaGpu.Isel.Addresses
import FpgaGpu.Isel.Casts
import FpgaGpu.Isel.WorkItems
import FpgaGpu.Isel.AccessWidth
import FpgaGpu.Backend.Kernel
import FpgaGpu.Backend.Together
import FpgaGpu.Backend.Reconvergence
import FpgaGpu.Isel.Following
import FpgaGpu.Isel.Initialised
import FpgaGpu.Backend.Placement
import FpgaGpu.Backend.Flow
import FpgaGpu.Backend.Liveness
import FpgaGpu.Alloc.Loops
import FpgaGpu.Backend.Words
import FpgaGpu.Backend.Loops
import FpgaGpu.Divergence.Returns
import FpgaGpu.Lib.Contraction
import FpgaGpu.Divergence.Detours
import FpgaGpu.Backend.Passed
import FpgaGpu.Backend.Compiled
import FpgaGpu.Isel.Local
import FpgaGpu.Alloc.Fewest
import FpgaGpu.Backend.Confinement
import FpgaGpu.Asm.Normal
import FpgaGpu.Backend.Listing
import FpgaGpu.Tool.Driver
import FpgaGpu.Tool.Main

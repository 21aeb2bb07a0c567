/-
# Instructions

An instruction is an opcode with the registers it writes, the operands it reads and a payload:
what the wait analysis has to know about instructions of its format.
-/
import GpuWaits.Dependency
import GpuWaits.Generation
import GpuWaits.Register
import GpuWaits.Sync
import GpuWaits.Wait

namespace GpuWaits

/-- An access of shared memory. -/
structure DsAccess where
  sync : Sync := {}
  /-- The access goes to the memory that all workgroups share. -/
  gds : Bool := false
  offset0 : UInt16 := 0
  offset1 : UInt8 := 0
deriving DecidableEq

/-- An export of up to four components. -/
structure Export where
  /-- The target. -/
  dest : UInt8
  /-- The components that are written, lowest bit first. -/
  enabled : UInt8
  /-- Two components share a data operand. -/
  compressed : Bool
deriving DecidableEq

/-- A flat, global or scratch access. -/
structure FlatAccess where
  sync : Sync := {}
  /-- The address may point into shared memory. -/
  mayUseLds : Bool := false
deriving DecidableEq

/-- A barrier that the program asks for. -/
structure BarrierRequest where
  sync : Sync := {}
  /-- The scope of the control barrier; `invocation` for a barrier of memory alone. -/
  execScope : Scope := .invocation
deriving DecidableEq

/-- What the analysis knows about an instruction, by the sort of its format. -/
inductive Payload where
  | salu
  | sopp (imm : UInt16)
  | valu
  /-- An interpolation, which waits for the export counter by itself. -/
  | interp (waitExp : UInt8)
  | smem (sync : Sync)
  | ds (access : DsAccess)
  | ldsDir (sync : Sync)
  | exp (data : Export)
  | flat (access : FlatAccess)
  /-- A buffer, typed buffer or image access. -/
  | vmem (sync : Sync)
  | barrier (request : BarrierRequest)
  | wait (targets : Wait)
  | dependencyWait (targets : DependencyWait)
deriving DecidableEq

/-- The payload is of the sort that the format calls for. -/
def Payload.fits : Payload → Format → Bool
  | .salu, .sop1 | .salu, .sop2 => true
  | .sopp _, .sopp | .wait _, .sopp | .dependencyWait _, .sopp => true
  | .valu, .valu => true
  | .interp _, .vinterpInreg => true
  | .smem _, .smem => true
  | .ds _, .ds => true
  | .ldsDir _, .ldsDir => true
  | .exp _, .exp => true
  | .flat _, .flat | .flat _, .global | .flat _, .scratch => true
  | .vmem _, .mubuf | .vmem _, .mtbuf | .vmem _, .mimg => true
  | .barrier _, .pseudoBarrier => true
  | _, _ => false

/-- The order in which vector memory loads write their results: loads of one type write in the
order in which they issued. -/
inductive VmemType where
  | plain
  | sampler
  | bvh
deriving DecidableEq, Repr

instance : Flag VmemType where
  members := [.plain, .sampler, .bvh]
  bit
    | .plain => 0
    | .sampler => 1
    | .bvh => 2
  label
    | .plain => "plain"
    | .sampler => "sampler"
    | .bvh => "bvh"

/-- A set of types of vector memory loads. -/
abbrev VmemTypeSet := Flags VmemType 8

/-- A half of a register unit, of 16 bits. -/
inductive Half where
  | low
  | high
deriving DecidableEq, Repr

instance : Flag Half where
  members := [.low, .high]
  bit
    | .low => 0
    | .high => 1
  label
    | .low => "low"
    | .high => "high"

/-- A set of halves of a register unit. -/
abbrev HalfSet := Flags Half 2

/-- The halves of unit `j` of a range, where a word gives two bits per unit. -/
def HalfSet.ofWord (word : BitVec 32) (j : Nat) : HalfSet := ⟨(word >>> (2 * j)).setWidth 2⟩

/-- An instruction. -/
structure Instruction where
  opcode : Opcode
  /-- The registers that the instruction writes. -/
  definitions : List RegRange
  /-- What the instruction reads. -/
  operands : List Operand
  payload : Payload
deriving DecidableEq

namespace Instruction

/-- A wait for the counters. -/
def ofWait (w : Wait) : Instruction := ⟨.sWaitcnt, [], [], .wait w⟩

/-- A wait for the dependency counters. -/
def ofDependencyWait (w : DependencyWait) : Instruction := ⟨.sWaitcntDepctr, [], [], .dependencyWait w⟩

/-- An instruction with an immediate and no operands. -/
def ofImmediate (opcode : Opcode) (imm : UInt16) : Instruction := ⟨opcode, [], [], .sopp imm⟩

/-- The message that releases the vector registers. -/
def releaseMessage : UInt16 := 3

/-- The message that ends a geometry shader. -/
def geometryDone : UInt16 := 3

/-- The encoding format. -/
def format (i : Instruction) : Format := i.opcode.format

/-- The payload is of the sort that the opcode calls for, and the two sorts of waits stand
exactly under their own opcodes. -/
def isCoherent (i : Instruction) : Bool :=
  i.payload.fits i.format
    && (i.payload matches .wait _) == (i.opcode == .sWaitcnt)
    && (i.payload matches .dependencyWait _) == (i.opcode == .sWaitcntDepctr)

/-- A buffer, typed buffer or image access. -/
def isVmem (i : Instruction) : Bool := i.format matches .mubuf | .mtbuf | .mimg

/-- A flat, global or scratch access. -/
def isFlatLike (i : Instruction) : Bool := i.format matches .flat | .global | .scratch

/-- An access of shared memory. -/
def isDs (i : Instruction) : Bool := i.format == .ds

/-- A scalar load. -/
def isSmem (i : Instruction) : Bool := i.format == .smem

/-- A barrier that the program asks for. -/
def isBarrier (i : Instruction) : Bool := i.format == .pseudoBarrier

/-- A wait, of either sort. -/
def isWait (i : Instruction) : Bool := i.payload matches .wait _ | .dependencyWait _

/-- What an access of shared memory says. -/
def ds? (i : Instruction) : Option DsAccess :=
  match i.payload with
  | .ds access => some access
  | _ => none

/-- A flat access whose address may point into shared memory. -/
def mayUseLds (i : Instruction) : Bool :=
  match i.payload with
  | .flat access => access.mayUseLds
  | _ => false

/-- Whether the instruction may touch the memory shared by a workgroup. -/
def accessesLds (i : Instruction) : Bool :=
  match i.payload with
  | .ds access => !access.gds
  | .ldsDir _ => true
  | .flat access => access.mayUseLds
  | _ => false

/-- The synchronization that the instruction asks for. -/
def sync (i : Instruction) : Sync :=
  match i.payload with
  | .smem sync | .ldsDir sync | .vmem sync => sync
  | .ds access => access.sync
  | .flat access => access.sync
  | .barrier request => request.sync
  | _ => {}

/-- The immediate of an instruction that has one. -/
def immediate? (i : Instruction) : Option UInt16 :=
  match i.payload with
  | .sopp imm => some imm
  | _ => none

/-- The type of a vector memory load.  A flat access has none, since it may go to shared memory
and then completes there. -/
def vmemType? (i : Instruction) (g : Generation) : Option VmemType :=
  match i.opcode with
  | .imageBvh64IntersectRay => some .bvh
  | .imageSample | .imageSampleLz => some .sampler
  | .imageMsaaLoad => if .gfx12 ≤ g then some .sampler else some .plain
  | _ => if i.isVmem || i.format matches .global | .scratch then some .plain else none

/-- The form of an ordered count that lets the next wave go on.  A bit of either offset marks
it. -/
def isOrderedRelease (i : Instruction) : Bool :=
  match i.opcode, i.payload with
  | .dsOrderedCount, .ds access => (access.offset1.toNat ||| access.offset0.toNat / 256) % 2 == 1
  | _, _ => false

/-- The form of an ordered count that waits for its turn. -/
def isOrderedAcquire (i : Instruction) : Bool :=
  i.opcode == .dsOrderedCount && !i.isOrderedRelease

end Instruction

end GpuWaits

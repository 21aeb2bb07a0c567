/-
# Memory accesses and exports

What an instruction means for the memory system: the event that an export or a vector memory
access raises, the register halves that a load writes, and the storage classes for which an
instruction takes part in barriers.
-/
import GpuWaits.Hardware
import GpuWaits.Setting

namespace GpuWaits

namespace Export

/-- The event that an export to a target raises: colours and depth, positions, primitives, the
second source of a blend, or parameters. -/
def eventOf (dest : UInt8) : Except Fault Event :=
  if dest ≤ 9 then .ok .expMrtNull
  else if dest ≤ 16 then .ok .expPos
  else if dest = 20 then .ok .expPrim
  else if dest = 21 ∨ dest = 22 then .ok .expDualSrcBlend
  else if 32 ≤ dest then .ok .expParam
  else .error (.unknownExport dest)

/-- The target exists. -/
def isTarget (dest : UInt8) : Bool :=
  dest ≤ 9 || 12 ≤ dest && dest ≤ 16 || 20 ≤ dest && dest ≤ 22 || 32 ≤ dest && dest ≤ 63

/-- An export of a position or a primitive, after which other stages may read the memory that the
program wrote. -/
def isVisible (e : Export) : Bool := 12 ≤ e.dest && e.dest ≤ 16 || e.dest == 20

/-- Component `i` is written. -/
def enables (e : Export) (i : Nat) : Bool := e.enabled.toBitVec.getLsbD i

/-- The data operand of component `i`. -/
def operandOf (e : Export) (i : Nat) : Nat := if e.compressed then i / 2 else i

end Export

namespace Instruction

/-- The event that a vector memory access of a given type raises. -/
def vmemEvent (i : Instruction) (s : Setting) (type : Option VmemType) : Event :=
  if i.definitions.isEmpty ∧ .gfx10 ≤ s.generation then .vmemStore
  else if .gfx12 ≤ s.generation then
    match type with
    | some .plain => .vmem
    | some .bvh => .vmemBvh
    | some .sampler | none => .vmemSample
  else .vmem

/-- The halves of registers that a load writes, two bits per unit. -/
def loadedHalves (i : Instruction) (s : Setting) : BitVec 32 :=
  if s.config.sramEcc then BitVec.allOnes 32 else i.opcode.writtenHalves

/-- A control barrier, where invocations wait for each other. -/
def isControlBarrier (i : Instruction) : Bool :=
  match i.payload with
  | .barrier request => .invocation < request.execScope
  | _ => i.opcode == .sBarrier

/-- The message that tells later stages that the geometry is complete. -/
def endsGeometry (i : Instruction) (s : Setting) : Bool :=
  i.opcode == .sSendmsg && s.generation < .gfx11
    && i.immediate?.any fun imm => imm &&& 0xf == geometryDone

/-- An export of a position or a primitive. -/
def exportsVisibly (i : Instruction) : Bool :=
  match i.payload with
  | .exp data => data.isVisible
  | _ => false

/-- The message that releases the vector registers before the program ends. -/
def isRegisterRelease (i : Instruction) (s : Setting) : Bool :=
  .gfx11 ≤ s.generation && i.opcode == .sSendmsg && i.immediate? == some releaseMessage

/-- The storage classes for which the instruction, with the synchronization `sync`, is an atomic
access or a control barrier with one of the semantics `asked`.  A loading atomic acquires and a
storing one releases; a control barrier does both for all storage, and what makes results visible
to later stages releases all storage. -/
def orderedStorage (i : Instruction) (s : Setting) (sync : Sync) (asked : SemanticSet) :
    StorageSet :=
  let acquires := decide (.acquire ∈ asked)
  let releases := decide (.release ∈ asked)
  if .atomic ∈ sync.semantics then
    let rmw := decide (.rmw ∈ sync.semantics)
    let loads := !i.definitions.isEmpty || rmw
    let stores := i.definitions.isEmpty || rmw
    if loads && acquires || stores && releases then sync.storage else ∅
  else if i.isControlBarrier && (acquires || releases) then .all
  else if releases && (i.endsGeometry s || i.exportsVisibly) then .all
  else ∅

end Instruction

end GpuWaits

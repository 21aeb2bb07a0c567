/-
# The checker

Checks that a program never uses a register while an asynchronous access of it may be in flight.
The checker knows the rules of the hardware and none of the shortcuts of the analysis that inserts
waits.  It follows the accesses in flight through the blocks, round after round, until nothing
changes, and then looks at every instruction once.

Where several logical paths merge, some lanes arrive along one of the logical predecessors.  Around
these, only accesses of blocks without any lanes can come in.  Elsewhere the accesses come in along
the linear edges, and the lanes that they touch along the logical ones.
-/
import GpuWaits.Checker.Finding
import GpuWaits.Checker.Started

namespace GpuWaits

namespace Checker

/-- The access can get in the way of an instruction of the current logical path.  Scalar registers
have no lanes, and from generation 11 on loads write inactive lanes as well. -/
def isVisible (g : Generation) (key : AccessKey) (a : InFlight) : Bool :=
  a.lanes || !key.unit.isVector
    || decide (.gfx11 ≤ g) && key.event matches .lds | .gds | .vmem | .vmemSample | .vmemBvh

/-- Everything that is in flight where the program is left. -/
def exitFindings (p : Pending) (place : Place) : List Finding :=
  p.toList.map fun (k, _) => .hazard .leftPending place k.unit k.origin

/-- How a use of registers runs into one access. -/
def conflicts (i : Instruction) (k : AccessKey) (a : InFlight) : List Hazard :=
  let reads := i.operands.any fun op => op.units.contains k.unit
  let writes := i.definitions.any fun d => d.units.contains k.unit
  (if a.write && reads then [.readDuringWrite] else [])
    ++ if writes then
      if !a.write then [.writeDuringRead]
      else if i.writesLate then [] else [.writeDuringWrite]
    else []

/-- How the registers of an instruction run into the accesses in flight. -/
def useFindings (g : Generation) (p : Pending) (place : Place) (i : Instruction) : List Finding :=
  (p.toList.filter fun (k, a) => isVisible g k a).flatMap fun (k, a) =>
    (conflicts i k a).map fun kind => .hazard kind place k.unit k.origin

/-- The register ranges of an instruction can be counted through. -/
def checkRanges (p : Pending) (i : Instruction) : Except Fault Unit :=
  if p.isEmpty then .ok ()
  else (i.operands.map Operand.range ++ i.definitions).forM RegRange.checkFits

/-- What an instruction waits for by itself. -/
def ownWait (i : Instruction) : Wait :=
  match i.payload with
  | .wait w => w
  | .interp waitExp => .single .exp waitExp.toUInt16
  | _ => .none

/-- The state after the accesses of an instruction have started. -/
def startAccesses (s : Setting) (p : Pending) (place : Place) (i : Instruction) :
    Except Fault Pending := do
  let g := s.generation
  let started ← i.started s
  started.accesses.forM fun a => a.range.checkFits
  let ordered (event : Event) := !i.isUnorderedFlat g && !decide (event ∈ Event.unordered)
  let issued := started.events.foldl (fun p event => p.issue g event (ordered event)) p
  let units := started.accesses.flatMap fun a => a.range.units.map fun unit => (unit, a)
  units.foldlM (fun p (unit, a) => p.start g ⟨place, unit, a.event⟩ a.write (ordered a.event)) issued

/-- Steps over an instruction: the state behind it, and what is found. -/
def step (s : Setting) (p : Pending) (place : Place) (i : Instruction) :
    Except Fault (Pending × List Finding) := do
  let p := p.wait (ownWait i)
  match i.payload with
  | .wait _ => return (p, [])
  | _ =>
    checkRanges p i
    let uses := useFindings s.generation p place i
    let exits := if i.opcode = .sSetpcB64 then exitFindings p place else []
    return (← startAccesses s p place i, uses ++ exits)

/-- Steps over the instructions of block `block` from place `index` on. -/
def steps (s : Setting) (block : Nat) :
    Nat → List Instruction → Pending → Except Fault (Pending × List Finding)
  | _, [], p => .ok (p, [])
  | index, i :: rest, p => do
    let (p, found) ← step s p (.code block index) i
    let (p, later) ← steps s block (index + 1) rest p
    return (p, found ++ later)

/-- Steps over a block. -/
def stepBlock (s : Setting) (place : Nat) (b : Block) (p : Pending) :
    Except Fault (Pending × List Finding) := do
  let (p, found) ← steps s place 0 b.instructions p
  let exits :=
    if .endWithRegs ∈ b.kind then exitFindings p (.code place b.instructions.length) else []
  return (p, found ++ exits)

/-- The accesses that start at a place run without lanes, in a block that only the linear control
flow reaches. -/
def isLaneless (blocks : List Block) : Place → Bool
  | .argument _ => false
  | .code block _ => block != 0 && blocks[block]?.any fun b => b.logicalPreds.isEmpty

/-- What is in flight at the two ends of a block. -/
structure Flow where
  entry : Pending := ∅
  exit : Pending := ∅
deriving DecidableEq

/-- What is in flight at the end of a predecessor. -/
def exitOf (flows : List Flow) (pred : UInt32) : Except Fault Pending :=
  match flows[pred.toNat]? with
  | some flow => .ok flow.exit
  | none => .error .outOfBounds

/-- Lets the accesses at the ends of some predecessors come in. -/
def meetAll (flows : List Flow) (lanes : Bool) (accepts : AccessKey → Bool) (preds : List UInt32)
    (p : Pending) : Except Fault Pending :=
  preds.foldlM (fun p pred => return p.meet (← exitOf flows pred) lanes accepts) p

/-- Takes over the lanes at the ends of some predecessors. -/
def takeAllLanes (flows : List Flow) (preds : List UInt32) (p : Pending) : Except Fault Pending :=
  preds.foldlM (fun p pred => return p.takeLanes (← exitOf flows pred)) p

/-- What is in flight at the entry of a block; `start` is what was in flight before the program. -/
def blockEntry (p : Program) (flows : List Flow) (start : Pending) (place : Nat) (b : Block) :
    Except Fault Pending := do
  let first : Pending := if place = 0 then start else ∅
  if 1 < b.logicalPreds.length then
    let merged ← meetAll flows true (fun _ => true) b.logicalPreds first
    let around := b.linearPreds.filter fun pred => !b.logicalPreds.contains pred
    meetAll flows false (fun k => isLaneless p.blocks k.origin) around merged
  else
    let linear ← meetAll flows false (fun _ => true) b.linearPreds first
    takeAllLanes flows b.logicalPreds linear

/-- What is in flight when the program starts. -/
def startState (p : Program) : Except Fault Pending :=
  p.pendingVmem.zipIdx.foldlM (fun q (range, index) => do
    range.checkFits
    range.units.foldlM
      (fun q unit => q.start p.config.generation ⟨.argument index, unit, .vmem⟩ true true)
      (q.issue p.config.generation .vmem true)) ∅

/-- The blocks that are gone through, with their places.  Lanes jump to an early exit from the middle
of blocks, so it is left out. -/
def visited (p : Program) : List (Block × Nat) :=
  p.blocks.zipIdx.filter fun (b, _) => .discardEarlyExit ∉ b.kind

/-- The setting of the check. -/
def setting (p : Program) : Setting := { config := p.config }

/-- Goes through a block. -/
def flowBlock (p : Program) (start : Pending) (flows : List Flow) (place : Nat) (b : Block) :
    Except Fault (List Flow) := do
  let entry ← blockEntry p flows start place b
  let (exit, _) ← stepBlock (setting p) place b entry
  return flows.set place { entry, exit }

/-- Goes through all blocks once. -/
def round (p : Program) (start : Pending) (flows : List Flow) : Except Fault (List Flow) :=
  (visited p).foldlM (fun flows (b, place) => flowBlock p start flows place b) flows

/-- The states at the ends of the blocks. -/
def exits (flows : List Flow) : List Pending := flows.map Flow.exit

/-- Goes through the blocks, at most the given number of times, until the ends of all blocks stay as
they are. -/
def settle (p : Program) (start : Pending) :
    Nat → List Flow → Except Fault (Option (List Flow))
  | 0, _ => .ok none
  | rounds + 1, flows => do
    let next ← round p start flows
    if exits next = exits flows then return some next else settle p start rounds next

/-- The number of rounds after which the checker gives up. -/
def maxRounds (p : Program) : Nat := (p.blocks.length + 2) * 8

/-- What is found when every block is gone through from the state at its entry. -/
def findings (p : Program) (flows : List Flow) : Except Fault (List Finding) := do
  let found ← (visited p).mapM fun (b, place) => do
    let entry := (flows[place]?.getD {}).entry
    return (← stepBlock (setting p) place b entry).2
  return found.flatten

end Checker

/-- Checks a program for uses of registers that are still in use by an asynchronous access. -/
def Program.check (p : Program) : Except Fault (List Finding) := do
  let start ← Checker.startState p
  match ← Checker.settle p start (Checker.maxRounds p) (p.blocks.map fun _ => {}) with
  | some flows => Checker.findings p flows
  | none => return [.unsettled (Checker.maxRounds p)]

end GpuWaits

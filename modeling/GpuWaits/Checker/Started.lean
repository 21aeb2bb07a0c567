/-
# What an instruction starts

The events that an instruction raises and the registers that it leaves in use, read off the
instruction alone.  The analysis that inserts waits has a description of its own, in
`GpuWaits.Transfer.Issue`; this one is for the checker.
-/
import GpuWaits.Access

namespace GpuWaits

/-- A range that stays in use until an event completes. -/
structure StartedAccess where
  range : RegRange
  event : Event
  /-- The range is written, not read. -/
  write : Bool
deriving DecidableEq

/-- The events that an instruction raises, in order, and the ranges that it leaves in use. -/
structure Started where
  events : List Event := []
  accesses : List StartedAccess := []
deriving DecidableEq

namespace Instruction

/-- All definitions are being written. -/
def writesStarted (i : Instruction) (event : Event) : List StartedAccess :=
  i.definitions.map fun range => ⟨range, event, true⟩

/-- Operands are being read. -/
def readsStarted (ops : List Operand) (event : Event) : List StartedAccess :=
  ops.map fun op => ⟨op.range, event, false⟩

/-- What a vector memory access starts.  The oldest generation reads the data of a store, or the
address of an image access, late. -/
def vmemStarted (i : Instruction) (s : Setting) : Started :=
  let event := i.vmemEvent s (i.vmemType? s.generation)
  let late : Option Operand :=
    if s.generation = .gfx6 then
      match i.format with
      | .mimg => i.operands[2]?.filter (· != .undef)
      | _ => if i.operands.length = 4 then i.operands[3]? else none
    else none
  match late with
  | some op => ⟨[event, .vmemGprLock], i.writesStarted event ++ readsStarted [op] .vmemGprLock⟩
  | none => ⟨[event], i.writesStarted event⟩

/-- What the instruction starts. -/
def started (i : Instruction) (s : Setting) : Except Fault Started :=
  match i.payload with
  | .exp data => do
    let event ← Export.eventOf data.dest
    let components := (List.range 4).filter data.enables
    let ops := components.filterMap fun component => i.operands[data.operandOf component]?
    return ⟨[event], readsStarted ops event ++ [⟨.exec, event, false⟩]⟩
  | .flat access =>
    if i.format = .flat then
      let event := i.vmemEvent s (some .plain)
      let shared := if access.mayUseLds then i.writesStarted .lds else []
      .ok ⟨[event, .lds], i.writesStarted event ++ shared⟩
    else .ok (i.vmemStarted s)
  | .vmem _ => .ok (i.vmemStarted s)
  | .smem _ => .ok ⟨[.smem], i.writesStarted .smem⟩
  | .ds access =>
    if access.gds then
      .ok ⟨[.gds, .gdsGprLock],
        i.writesStarted .gds ++ readsStarted i.operands .gdsGprLock ++ [⟨.exec, .gdsGprLock, false⟩]⟩
    else .ok ⟨[.lds], i.writesStarted .lds⟩
  | .ldsDir _ => .ok ⟨[.ldsdir], i.writesStarted .ldsdir⟩
  | .sopp _ =>
    if i.opcode = .sSendmsg ∨ i.opcode = .sSendmsghalt then .ok ⟨[.sendmsg], []⟩ else .ok {}
  | .salu =>
    if i.opcode = .sSendmsgRtnB32 ∨ i.opcode = .sSendmsgRtnB64 then
      .ok ⟨[.sendmsgRtn], i.writesStarted .sendmsgRtn⟩
    else .ok {}
  | .valu | .interp _ | .barrier _ | .wait _ | .dependencyWait _ => .ok {}

/-- The result of the instruction lands later.  Its order against earlier writes of the same
register is up to the memory system. -/
def writesLate (i : Instruction) : Bool :=
  i.payload matches .smem _ | .ds _ | .ldsDir _ | .flat _ | .vmem _

/-- A flat load that may have gone to shared memory completed out of order on both counters before
generation 10. -/
def isUnorderedFlat (i : Instruction) (g : Generation) : Bool :=
  g < .gfx10 && i.format == .flat && i.mayUseLds && !i.definitions.isEmpty

end Instruction

end GpuWaits

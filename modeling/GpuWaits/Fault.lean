/-
# Faults

Machine code that breaks the rules of its format stops the analysis: an export to a target that
does not exist, a load without a destination, a register past the end of the register file.
`Fault` lists the causes, and every function that can meet one returns an `Except Fault`.
-/
import GpuWaits.Event
import GpuWaits.Opcode

namespace GpuWaits

/-- Why a program cannot be processed. -/
inductive Fault where
  /-- An export to a target that belongs to no class of exports. -/
  | unknownExport (dest : UInt8)
  /-- An instruction that returns a value without a destination to put it in. -/
  | missingDefinition (opcode : Opcode) (index : Nat)
  /-- An export that enables a component it has no operand for. -/
  | missingExportData (index : Nat)
  /-- A block that leaves a loop while no loop is open. -/
  | exitOutsideLoop (block : Nat)
  /-- An event that no counter of the generation counts. -/
  | uncounted (event : Event)
  /-- A condition that the caller has to guarantee does not hold. -/
  | brokenPromise
  /-- A register or a block past the end of its table. -/
  | outOfBounds
  /-- A number that leaves its word. -/
  | overflow
deriving DecidableEq, Repr

namespace Fault

/-- What is reported about a fault; the last three have no text of their own. -/
def message? : Fault → Option String
  | .unknownExport dest => some s!"invalid export destination {dest.toNat}"
  | .missingDefinition opcode index => some s!"{opcode.mnemonic} is missing definition {index}"
  | .missingExportData index => some s!"export data operand {index} missing"
  | .exitOutsideLoop block => some s!"loop exit block {block} outside of any loop"
  | .uncounted event => some ("event " ++ EventSet.text {event} ++ " has no counter")
  | .brokenPromise | .outOfBounds | .overflow => none

end Fault

end GpuWaits

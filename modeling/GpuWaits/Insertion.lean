/-
# Inserting waits

The waits that a program needs are inserted into its blocks, and what stands there already is merged
with them.  On request the result is checked for hazards that are left.
-/
import GpuWaits.Checker
import GpuWaits.Insertion.Sweep
import GpuWaits.Validation

namespace GpuWaits

/-- How waits are inserted. -/
structure Options where
  /-- Wait for every counter before each instruction. -/
  drainAll : Bool := false
  /-- Check the result. -/
  check : Bool := false
deriving DecidableEq

/-- The result of inserting waits. -/
structure Outcome where
  /-- The program with its waits. -/
  program : Program
  /-- How often a block was visited. -/
  visits : Nat
  /-- The number of waits beyond those that stood in the code before. -/
  inserted : Nat
  /-- What the checker found, if it was asked. -/
  findings : List Finding := []

/-- The program with the blocks of a finished sweep. -/
def Program.withNodes (p : Program) (nodes : List Node) : Program :=
  { p with blocks := nodes.map Node.block }

/-- Inserts the waits that a program needs. -/
def Program.insertWaits (p : Program) (o : Options := {}) : Except Fault Outcome := do
  let sweep ← p.solve o.drainAll
  let program := p.withNodes sweep.nodes
  let findings ← if o.check then program.check else pure []
  return {
    program
    visits := sweep.visits
    inserted := program.countWaits - p.countWaits
    findings }

/-- Inserts the waits that a program needs, if it is valid. -/
def Program.insertValidated (p : Program) (o : Options) : Except Rejection Outcome := do
  p.validate
  match p.insertWaits o with
  | .ok outcome => return outcome
  | .error fault => throw (.fault fault)

/-- Why an outcome is a failure: the checker found something. -/
def Outcome.failure? (o : Outcome) : Option String :=
  if o.findings.isEmpty then none else some ("checker failed: " ++ Finding.report o.findings)

end GpuWaits

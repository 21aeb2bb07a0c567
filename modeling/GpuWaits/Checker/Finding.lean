/-
# Findings of the checker
-/
import GpuWaits.Checker.InFlight

namespace GpuWaits

/-- What is wrong about the use of a register. -/
inductive Hazard where
  /-- The register is read while an access may still write it. -/
  | readDuringWrite
  /-- The register is overwritten while an access may still read it. -/
  | writeDuringRead
  /-- The register is overwritten while an access may still write it. -/
  | writeDuringWrite
  /-- The program is left while an access is in flight. -/
  | leftPending
deriving DecidableEq, Repr

/-- What the checker reports. -/
inductive Finding where
  /-- At `place`, a use of `unit` runs into the access that started at `origin`. -/
  | hazard (kind : Hazard) (place : Place) (unit : Reg) (origin : Place)
  /-- The analysis did not come to rest. -/
  | unsettled (rounds : Nat)
deriving DecidableEq

namespace Finding

/-- A finding in words. -/
def message : Finding → String
  | .hazard .readDuringWrite place unit origin =>
    s!"{place.text}: reads {unit.text} before the write by {origin.text} completed"
  | .hazard .writeDuringRead place unit origin =>
    s!"{place.text}: overwrites {unit.text} before the read by {origin.text} completed"
  | .hazard .writeDuringWrite place unit origin =>
    s!"{place.text}: overwrites {unit.text} before the write by {origin.text} completed"
  | .hazard .leftPending place unit origin =>
    s!"{place.text}: leaves the program with the access of {unit.text} by {origin.text} in flight"
  | .unsettled rounds => s!"no fixpoint after {rounds} rounds"

/-- The messages of some findings, in the order of their texts. -/
def messages (findings : List Finding) : List String :=
  (findings.map message).mergeSort fun a b => !(b < a : Bool)

/-- A report of some findings: how many there are, and a line for each of them. -/
def report (findings : List Finding) : String :=
  s!"{findings.length} checker error(s)" ++ .join ((messages findings).map ("\n  " ++ ·))

end Finding

end GpuWaits

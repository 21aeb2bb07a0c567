/-
# Printouts

A program that breaks the rules may hold a register range that has no name.  Writing such a
program stops there: a printout is the text written so far, together with the fault that stopped
the writing, if one did.
-/
import GpuWaits.Fault

namespace GpuWaits

/-- Text that is being written. -/
structure Printout where
  /-- What has been written. -/
  text : String := ""
  /-- Why the writing stopped early. -/
  fault? : Option Fault := none

namespace Printout

instance : Inhabited Printout := ⟨{}⟩

/-- Text without a fault. -/
def ofString (text : String) : Printout := { text }

instance : Coe String Printout := ⟨ofString⟩

/-- The text of a part that may have none. -/
def ofExcept : Except Fault String → Printout
  | .ok text => { text }
  | .error fault => { fault? := some fault }

/-- Goes on writing, unless a fault stopped it before. -/
protected def append (a b : Printout) : Printout :=
  match a.fault? with
  | some _ => a
  | none => { text := a.text ++ b.text, fault? := b.fault? }

instance : Append Printout := ⟨Printout.append⟩

/-- Writes one part after the other. -/
def concat (parts : List Printout) : Printout := parts.foldl (· ++ ·) {}

/-- The parts with a divider between any two of them. -/
def separated (divider : String) (parts : List Printout) : Printout :=
  match parts with
  | [] => {}
  | part :: rest => concat (part :: rest.map fun p => divider ++ p)

/-- The whole text, if nothing stopped the writing. -/
def finish (p : Printout) : Except Fault String :=
  match p.fault? with
  | some fault => .error fault
  | none => .ok p.text

end Printout

end GpuWaits

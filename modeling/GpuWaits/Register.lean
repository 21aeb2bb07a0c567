/-
# Registers and operands

A register unit holds 32 bits.  Units below 256 form the scalar register file and the units from
256 on the vector register file.  Operands and definitions name ranges of consecutive units.
-/
import GpuWaits.Fault

namespace GpuWaits

/-- A register unit. -/
structure Reg where
  unit : UInt16
deriving DecidableEq

namespace Reg

instance : Inhabited Reg := ⟨⟨0⟩⟩

/-- Units are ordered by their numbers. -/
instance : Ord Reg := ⟨compareOn Reg.unit⟩

instance : Std.TransOrd Reg := inferInstanceAs (Std.TransCmp (compareOn Reg.unit))

instance : Std.LawfulEqOrd Reg where
  eq_of_compare {a b} h := by
    cases a
    cases b
    exact congrArg Reg.mk (Std.LawfulEqOrd.eq_of_compare h)

/-- The scalar register `n`. -/
def sgpr (n : UInt16) : Reg := ⟨n⟩

/-- The vector register `n`. -/
def vgpr (n : UInt16) : Reg := ⟨256 + n⟩

/-- The first unit of the execution mask, a pair of scalar registers. -/
def exec : Reg := ⟨126⟩

/-- The number of units of both register files together. -/
def fileSize : Nat := 512

/-- Whether a unit lies in the vector register file. -/
def isVector (r : Reg) : Bool := 256 ≤ r.unit

/-- The letter of the register file and the number of the unit in it. -/
def place (r : Reg) : String × Nat :=
  if r.isVector then ("v", r.unit.toNat - 256) else ("s", r.unit.toNat)

/-- The name of a unit in the textual format. -/
def text (r : Reg) : String := r.place.1 ++ toString r.place.2

end Reg

/-- Consecutive register units. -/
structure RegRange where
  first : Reg
  /-- The number of units. -/
  size : UInt8
deriving DecidableEq

namespace RegRange

instance : Inhabited RegRange := ⟨⟨default, 0⟩⟩

/-- The execution mask. -/
def exec : RegRange := ⟨Reg.exec, 2⟩

/-- Whether the number of every unit of the range fits a 16-bit word. -/
def fits (r : RegRange) : Bool := r.first.unit.toNat + r.size.toNat ≤ UInt16.size

/-- The units of the range, up to the last number of a 16-bit word. -/
def units (r : RegRange) : List Reg :=
  (List.range (min r.size.toNat (UInt16.size - r.first.unit.toNat))).map fun i =>
    ⟨UInt16.ofNat (r.first.unit.toNat + i)⟩

/-- Counting through a range that does not fit fails. -/
def checkFits (r : RegRange) : Except Fault Unit :=
  if r.fits then .ok () else .error .overflow

/-- The name of a range in the textual format.  There is none for an empty range that starts at
the first register of a file, since its last register would be number minus one. -/
def text (r : RegRange) : Except Fault String :=
  if r = exec then .ok "exec"
  else
    let (letter, n) := r.first.place
    if r.size = 1 then .ok s!"{letter}{n}"
    else if n + r.size.toNat = 0 then .error .overflow
    else .ok s!"{letter}[{n}:{n + r.size.toNat - 1}]"

end RegRange

/-- What an instruction reads. -/
inductive Operand where
  | reg (range : RegRange)
  | const (value : UInt32)
  | undef
deriving DecidableEq

namespace Operand

instance : Inhabited Operand := ⟨.undef⟩

/-- The registers of an operand; an empty range for anything else. -/
def range : Operand → RegRange
  | .reg r => r
  | .const _ | .undef => default

/-- The number of register units that an operand takes. -/
def size (op : Operand) : UInt8 := op.range.size

/-- The register units of an operand. -/
def units (op : Operand) : List Reg := op.range.units

/-- The name of an operand in the textual format. -/
def text : Operand → Except Fault String
  | .reg r => r.text
  | .const value => .ok s!"#{value.toNat}"
  | .undef => .ok "undef"

end Operand

end GpuWaits

/-
# Wait counters

Every asynchronous operation raises one of seven hardware counters when it issues and lowers it
again when it completes.  A program waits by asking for a counter to fall to a given value.
-/
import GpuWaits.Flags

namespace GpuWaits

/-- A hardware counter of outstanding operations. -/
inductive Counter where
  /-- Exports, and operations that keep reading their operands after they issued. -/
  | exp
  /-- Shared memory, and also scalar memory and messages before gfx12. -/
  | lgkm
  /-- Vector memory loads (and stores, before gfx10). -/
  | vm
  /-- Vector memory stores. -/
  | vs
  /-- Image samples, from gfx12 on. -/
  | sample
  /-- Ray intersections, from gfx12 on. -/
  | bvh
  /-- Scalar memory and messages, from gfx12 on. -/
  | km
deriving DecidableEq, Repr

namespace Counter

/-- Every counter, in slot order. -/
def all : List Counter := [.exp, .lgkm, .vm, .vs, .sample, .bvh, .km]

/-- The slot of a counter in a wait, which is also its bit in a set of counters. -/
def slot : Counter → Nat
  | .exp => 0
  | .lgkm => 1
  | .vm => 2
  | .vs => 3
  | .sample => 4
  | .bvh => 5
  | .km => 6

/-- The name of a counter in the textual format. -/
def name : Counter → String
  | .exp => "exp"
  | .lgkm => "lgkm"
  | .vm => "vm"
  | .vs => "vs"
  | .sample => "sample"
  | .bvh => "bvh"
  | .km => "km"

instance : Flag Counter := ⟨all, slot, name⟩

/-- The counter with a given name. -/
def ofName? (name : String) : Option Counter := Flag.ofLabel? name

theorem mem_all (c : Counter) : c ∈ all := by cases c <;> decide

end Counter

/-- A set of counters. -/
abbrev CounterSet := Flags Counter 7

end GpuWaits

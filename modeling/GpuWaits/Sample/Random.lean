/-
# Random sample programs

A list of bytes decides how a program is drawn: every choice takes the next byte, and zero once the
bytes have run out.  The programs have structured control flow (straight lines, diamonds on uniform
or divergent lanes, nested loops) and few registers, so that accesses collide often.
-/
import GpuWaits.Hardware
import GpuWaits.Sample.Code

namespace GpuWaits

/-- A choice that depends on the bytes that are left. -/
abbrev Draw := StateM (List UInt8)

namespace Draw

/-- The next byte, or zero if there is none. -/
def byte : Draw Nat := fun
  | [] => (0, [])
  | b :: rest => (b.toNat, rest)

/-- A number between two bounds, both included.  No byte is taken where there is no choice. -/
def between (lo hi : Nat) : Draw Nat :=
  if lo = hi then pure lo else do return lo + (← byte) % (hi - lo + 1)

/-- A member of a list that starts with `first`. -/
def choose {α : Type} (first : α) (rest : List α) : Draw α := do
  let i ← between 0 rest.length
  return (first :: rest)[i]?.getD first

/-- A truth value. -/
def bool : Draw Bool := return (← byte) % 2 == 1

/-- A list of a given length. -/
def times {α : Type} (draw : Draw α) : Nat → Draw (List α)
  | 0 => pure []
  | n + 1 => do return (← draw) :: (← draw.times n)

end Draw

namespace Sample

/-- A program that is being drawn. -/
structure Sketch where
  blocks : List Block := []
  /-- The block that control flow goes on from. -/
  current : Nat := 0
  /-- The number of open loops. -/
  depth : Nat := 0

/-- A step of drawing a program. -/
abbrev Sketching := StateT Sketch Draw

/-- Puts a block at the end. -/
def addBlock (kind : BlockKind) (linear logical : List Nat) (instructions : List Instruction) :
    Sketching Nat := do
  let sketch ← get
  let index := sketch.blocks.length
  let b := { divergent index kind linear logical instructions with loopDepth := .ofNat sketch.depth }
  set { sketch with blocks := sketch.blocks ++ [b], current := index }
  return index

end Sample

end GpuWaits

/-
# Queued waits

Waits that have been asked for and not been placed yet.  They are placed in front of the next
instruction that stays in the block.
-/
import GpuWaits.Instruction

namespace GpuWaits

/-- Waits that are still to be placed. -/
structure Queue where
  wait : Wait := .none
  dependency : DependencyWait := .none
deriving DecidableEq

namespace Queue

instance : Inhabited Queue := ⟨{}⟩

/-- The waits of both queues. -/
def both (p q : Queue) : Queue := ⟨p.wait.both q.wait, p.dependency.both q.dependency⟩

/-- The queue with one more wait. -/
def add (q : Queue) (w : Wait) : Queue := { q with wait := q.wait.both w }

/-- The instructions that carry the waits out. -/
def instructions (q : Queue) : List Instruction :=
  (if q.wait.isNone then [] else [.ofWait q.wait])
    ++ if q.dependency.isNone then [] else [.ofDependencyWait q.dependency]

/-- What a wait that stands in the code asks for; nothing for any other instruction. -/
def ofInstruction (i : Instruction) : Queue :=
  match i.payload with
  | .wait w => { wait := w }
  | .dependencyWait w => { dependency := w }
  | _ => {}

end Queue

end GpuWaits

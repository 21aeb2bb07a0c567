/-
# Waits in a block

The instructions of a block are gone through in order.  Waits that stand in the code and barriers
that the program asks for are taken out and queued, and every other instruction is put back behind
the waits that are queued for it.
-/
import GpuWaits.Clause
import GpuWaits.Transfer.Issue

namespace GpuWaits

/-- The state between two instructions of a block. -/
structure Walk where
  context : Context
  queue : Queue := {}
  /-- The number of instructions that still belong to the clause of the last one. -/
  clauseLeft : Nat := 0

namespace Walk

/-- The wait for everything that has to be complete before the vector registers are released:
accesses of scratch memory, which is released along with them, and what is queued. -/
def releaseWait (c : Context) (q : Queue) : Wait :=
  ((c.releaseDependency.demand .scratch).wait.both (c.releaseDependency.demand .vgprSpill).wait).both
    q.wait

/-- The vector registers are released before the program ends, so that waves which are waiting for
registers can start while the last stores complete.  This is worth a message only if the program
uses many registers, stores are outstanding and no export is, since an export takes as long. -/
def releasesRegisters (s : Setting) (c : Context) (q : Queue) : Bool :=
  decide (.gfx11 ≤ s.generation)
    && decide (s.config.physicalVgprs / max s.config.maxWavesPerSimd 1 < s.config.numVgprs)
    && decide (.vs ∈ c.nonzero)
    && !(c.regs.toList.any fun (_, e) => e.events.meets EventSet.exports)
    && (releaseWait c q).vs != 0

/-- What is put in front of the end of the program to release the vector registers. -/
def release (s : Setting) (c : Context) (q : Queue) : List Instruction × Queue :=
  if releasesRegisters s c q then
    ((Queue.instructions { wait := releaseWait c q })
      ++ [.ofImmediate .sSendmsg Instruction.releaseMessage], { q with wait := .none })
  else ([], q)

/-- An interpolation takes over the queued wait for the export counter. -/
def absorb (i : Instruction) (q : Queue) : Instruction × Queue :=
  match i.payload with
  | .interp waitExp =>
    if q.wait.isSet .exp then
      ({ i with payload := .interp (min waitExp.toUInt16 q.wait.exp).toUInt8 },
        { q with wait := q.wait.clear .exp })
    else (i, q)
  | _ => (i, q)

/-- What is queued behind an instruction that was put back: an ordered count that waited for its
turn lets nothing pass that was not complete before. -/
def turnQueue (c : Context) (i : Instruction) : Queue :=
  if i.isOrderedAcquire then { wait := (c.releaseDependency.demand .gds).wait } else {}

/-- The instruction `i`, in front of `rest`: the instructions that are put in its place and the
next state. -/
def step (s : Setting) (i : Instruction) (rest : List Instruction) (w : Walk) :
    Except Fault (List Instruction × Walk) := do
  let left := w.clauseLeft - 1
  let queue := w.queue.both (.ofInstruction i)
  if i.isRegisterRelease s then return ([], { w with queue, clauseLeft := left })
  let (c, q) ← w.context.await s i queue
  let opensClause := (w.clauseLeft == 0 || !q.wait.isNone) && !i.isDs
  let (left, c, q) ← if opensClause then c.awaitClause s i rest q else pure (left, c, q)
  let (released, q) := if i.opcode = .sEndpgm then release s c q else ([], q)
  let c ← c.start s i
  if i.isBarrier || i.isWait then
    return (released, { context := c, queue := q, clauseLeft := left })
  let (kept, q) := absorb i q
  let c := if .acquire ∈ i.sync.semantics then c.deferAcquire s i.sync else c
  return (released ++ q.instructions ++ [kept],
    { context := c, queue := turnQueue c i, clauseLeft := left })

/-- Goes through a list of instructions. -/
def steps (s : Setting) : List Instruction → Walk → Except Fault (List Instruction × Walk)
  | [], w => .ok ([], w)
  | i :: rest, w => do
    let (emitted, w) ← step s i rest w
    let (later, w) ← steps s rest w
    return (emitted ++ later, w)

end Walk

namespace Block

/-- What is still to be waited for at the end of a block.  The next part of a shader expects all
memory operations to be complete. -/
def finalQueue (b : Block) (w : Walk) : Queue :=
  if .endWithRegs ∈ b.kind then w.queue.add (.drain w.context.nonzero) else w.queue

/-- The block with the waits that it needs when it is entered in the context `c`, and the context
at its end. -/
def insertWaits (s : Setting) (b : Block) (c : Context) : Except Fault (Block × Context) := do
  let (instructions, w) ← Walk.steps s b.instructions { context := c }
  return ({ b with instructions := instructions ++ (b.finalQueue w).instructions }, w.context)

end Block

end GpuWaits

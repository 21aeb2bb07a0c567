/-
# Memory clauses

Memory accesses that issue back to back form a clause, and a clause is faster when nothing splits
it.  So the first access of a clause also waits for what the others need.  A clause ends before an
access that reads what the clause has written.
-/
import GpuWaits.Transfer.Await

namespace GpuWaits

namespace Instruction

/-- The instruction `next` may issue back to back with `i` in one clause: both load or both store,
by the same format, and they may touch nearby addresses because they need no descriptor or have the
same one. -/
def sharesClause (i next : Instruction) : Bool :=
  if i.definitions.isEmpty != next.definitions.isEmpty || i.format != next.format then false
  else match i.operands, next.operands with
    | op :: _, op' :: _ =>
      i.isFlatLike || i.accessesLds
        || i.isSmem && op.size == 2 && op'.size == 2
        || (i.isVmem || i.isSmem) && op == op'
    | _, _ => false

end Instruction

/-- The register units that a clause has written so far. -/
abbrev ClauseWrites := List Reg

namespace ClauseWrites

/-- Some unit of a list has been written.  Units past the register file have no place in the
table of written units. -/
def hits (written : ClauseWrites) : List Reg → Except Fault Bool
  | [] => .ok false
  | r :: rest =>
    if Reg.fileSize ≤ r.unit.toNat then .error .outOfBounds
    else if written.contains r then .ok true
    else written.hits rest

/-- The units that are written after one more instruction; nothing if it reads one of them. -/
def extend? (written : ClauseWrites) (i : Instruction) : Except Fault (Option ClauseWrites) := do
  if ← written.hits (i.operands.flatMap Operand.units) then return none
  let units := i.definitions.flatMap RegRange.units
  if units.any fun r => Reg.fileSize ≤ r.unit.toNat then throw .outOfBounds
  return some (written ++ units)

end ClauseWrites

namespace Context

/-- Waits for the instructions that follow in the clause of `i`.  Also tells how many there are. -/
def awaitRest (s : Setting) (i : Instruction) :
    List Instruction → ClauseWrites → Context → Queue → Except Fault (Nat × Context × Queue)
  | [], _, c, q => .ok (0, c, q)
  | next :: rest, written, c, q =>
    if i.sharesClause next then do
      match ← written.extend? next with
      | none => return (0, c, q)
      | some written =>
        let (c, q) ← c.await s next q
        let (count, c, q) ← awaitRest s i rest written c q
        return (count + 1, c, q)
    else .ok (0, c, q)

/-- Waits for what follows `i` in its clause, if `rest` goes on with one. -/
def awaitClause (c : Context) (s : Setting) (i : Instruction) (rest : List Instruction)
    (q : Queue) : Except Fault (Nat × Context × Queue) := do
  if rest.head?.any i.sharesClause then
    let written ← ClauseWrites.extend? [] i
    awaitRest s i rest (written.getD []) c q
  else return (0, c, q)

end Context

end GpuWaits

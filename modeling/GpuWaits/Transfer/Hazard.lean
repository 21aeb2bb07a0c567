/-
# Register hazards

Before an instruction issues, its operands must have been written and nothing may still be writing
or reading the registers that it overwrites.  The wait for that is read off the context.  Writing
over the result of a load needs no wait where the hardware keeps the order by itself.
-/
import GpuWaits.Access
import GpuWaits.Context

namespace GpuWaits

/-- The accesses that write inactive lanes as well, from generation 11 on. -/
def EventSet.wholeRegister : EventSet := .ofList [.lds, .gds, .vmem, .vmemSample, .vmemBvh]

/-- The wait that completes the accesses which matter for an instruction of the current logical
path that uses the unit `r`.  Scalar registers have no lanes, so all of them matter. -/
def Entry.waitFor (e : Entry) (g : Generation) (r : Reg) : Wait :=
  if r.isVector then
    let lanes := if .gfx11 ≤ g then e.laneEvents ∪ .wholeRegister else e.laneEvents
    e.wait.only (e.counters ∩ g.countersOf (e.events ∩ lanes))
  else e.wait

/-- The load `i` of type `type` may write unit `j` of its destination while the accesses of the
entry on the same counter are outstanding: they write in order, or other halves, or other lanes. -/
def Entry.permitsLoad (e : Entry) (s : Setting) (i : Instruction) (type : VmemType) (j : Nat) :
    Except Fault (Option Counter) := do
  let event := i.vmemEvent s (some type)
  let c ← s.generation.counterOf event
  let events := s.generation.eventsOn c
  let sameEvent := e.events ∩ events == {event}
  let sameType := c != .vm || e.vmemTypes == {type}
  let inOrder := sameEvent && sameType && s.generation < .gfx12
  let otherLanes := e.laneEvents ∩ events == ∅
  if event = .vmem ∧ sameEvent then
    if 16 ≤ j then throw .overflow
    let otherHalves := !(HalfSet.ofWord (i.loadedHalves s) j).meets e.halves
    return if inOrder || otherHalves || otherLanes then some c else none
  else return if inOrder || otherLanes then some c else none

/-- An access of shared memory returns after the accesses of the entry, which are all of its
sort. -/
def Entry.permitsDs (e : Entry) (g : Generation) (access : DsAccess) : Bool :=
  e.events ∩ g.eventsOn .lgkm == {if access.gds then .gds else .lds}

/-- The wait before the instruction `i` may write the unit `r`, unit `j` of a definition. -/
def Entry.overwriteWait (e : Entry) (s : Setting) (i : Instruction) (r : Reg) (j : Nat) :
    Except Fault Wait := do
  let wait := e.waitFor s.generation r
  let wait ← match i.vmemType? s.generation with
    | some type => do
      match ← e.permitsLoad s i type j with
      | some c => pure (wait.clear c)
      | none => pure wait
    | none => pure wait
  return match i.ds? with
    | some access => if e.permitsDs s.generation access then wait.clear .lgkm else wait
    | none => wait

namespace Context

/-- The wait before the unit `r` may be read. -/
def readWait (c : Context) (g : Generation) (r : Reg) : Wait :=
  match c.regs[r]? with
  | some e => if e.blocksReads then e.waitFor g r else .none
  | none => .none

/-- The wait before the instruction `i` may write the unit `r`, unit `j` of a definition. -/
def writeWait (c : Context) (s : Setting) (i : Instruction) (r : Reg) (j : Nat) :
    Except Fault Wait :=
  match c.regs[r]? with
  | some e => e.overwriteWait s i r j
  | none => .ok .none

/-- The wait before the operands of an instruction may be read and its definitions written. -/
def hazardWait (c : Context) (s : Setting) (i : Instruction) : Except Fault Wait := do
  (i.operands.map Operand.range ++ i.definitions).forM RegRange.checkFits
  let reads := i.operands.flatMap fun op => op.units.map (c.readWait s.generation)
  let writes ← i.definitions.mapM fun d =>
    d.units.zipIdx.mapM fun (r, j) => c.writeWait s i r j
  return .allOf (reads ++ writes.flatten)

end Context

end GpuWaits

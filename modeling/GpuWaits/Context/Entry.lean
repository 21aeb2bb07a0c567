/-
# Outstanding accesses of a register

An entry sums up all accesses of one register unit that may still be outstanding.  Its wait
completes every one of them.  Accesses that write the unit block readers and writers; accesses
that read it (an export still fetching its data) block writers only.
-/
import GpuWaits.Instruction
import GpuWaits.Text.Number

namespace GpuWaits

/-- The outstanding accesses of a register unit. -/
structure Entry where
  /-- The targets that complete every access. -/
  wait : Wait
  /-- The events of the accesses. -/
  events : EventSet
  /-- The events of the accesses that may touch the lanes of the current logical path. -/
  laneEvents : EventSet
  /-- The counters that count the accesses. -/
  counters : CounterSet
  /-- Some access writes the unit, so that readers have to wait as well. -/
  blocksReads : Bool
  /-- The types of the vector memory loads among the accesses. -/
  vmemTypes : VmemTypeSet := ∅
  /-- The halves of the unit that those loads write. -/
  halves : HalfSet := ∅
deriving DecidableEq

namespace Entry

/-- A single access that has just issued. -/
def ofEvent (event : Event) (counters : CounterSet) (blocksReads : Bool) : Entry where
  wait := .drain counters
  events := {event}
  laneEvents := {event}
  counters := counters
  blocksReads := blocksReads

/-- The accesses of both entries.  The lanes are those of the first one: how they flow depends on
the edge along which the second one comes in. -/
def join (e other : Entry) : Entry where
  wait := e.wait.both other.wait
  events := e.events ∪ other.events
  laneEvents := e.laneEvents
  counters := e.counters ∪ other.counters
  blocksReads := e.blocksReads || other.blocksReads
  vmemTypes := e.vmemTypes ∪ other.vmemTypes
  halves := e.halves ∪ other.halves

/-- Joining `other` would change the entry. -/
def grows (e other : Entry) : Bool :=
  e.events.lacks other.events
    || e.counters.lacks other.counters
    || other.blocksReads && !e.blocksReads
    || e.vmemTypes.lacks other.vmemTypes
    || e.halves.lacks other.halves
    || other.wait.exceeds e.wait

/-- The entry with more lanes. -/
def addLanes (e : Entry) (events : EventSet) : Entry :=
  { e with laneEvents := e.laneEvents ∪ events }

/-- The accesses that are left when all accesses on the counter `c`, which counts `events`, are
complete. -/
def forget (e : Entry) (c : Counter) (events : EventSet) : Entry where
  wait := e.wait.clear c
  events := e.events \ events
  laneEvents := e.laneEvents ∩ (e.events \ events)
  counters := e.counters \ {c}
  blocksReads := e.blocksReads
  vmemTypes := if c = .vm then ∅ else e.vmemTypes
  halves := if .vmem ∈ events then ∅ else e.halves

/-- An entry on one line. -/
def text (e : Entry) : String :=
  s!"{e.wait.braced} events={e.events.text}"
    ++ (if e.laneEvents = e.events then "" else s!" logical={e.laneEvents.text}")
    ++ (if e.blocksReads then "" else " write-only")
    ++ (if e.vmemTypes.isEmpty then "" else " vmem_types=" ++ Number.hex e.vmemTypes.toNat)
    ++ (if e.halves.isEmpty then "" else " vm_mask=" ++ Number.hex e.halves.toNat)

end Entry

end GpuWaits

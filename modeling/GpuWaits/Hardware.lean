/-
# The hardware model

For every generation: the largest target that a wait can ask each counter for, the events that
each counter counts, and the events that complete out of order.
-/
import GpuWaits.Fault
import GpuWaits.Generation
import GpuWaits.Wait

namespace GpuWaits

namespace Generation

/-- The largest target that can be encoded for each counter, zero for a counter that the
generation does not have. -/
def largestWait (g : Generation) : Wait where
  exp := 7
  lgkm := if .gfx10 ≤ g then 63 else 15
  vm := if .gfx9 ≤ g then 63 else 15
  vs := if .gfx10 ≤ g then 63 else 0
  sample := if .gfx12 ≤ g then 63 else 0
  bvh := if .gfx12 ≤ g then 7 else 0
  km := if .gfx12 ≤ g then 31 else 0

/-- The number of younger operations that is still told apart from more, one below the largest
target. -/
def horizon (g : Generation) : Wait :=
  .ofFn fun c => .ofNat ((g.largestWait.get c).toNat - 1)

/-- The target that still completes an operation after one more of its kind has issued.  Past the
horizon operations are no longer told apart. -/
def oneMore (g : Generation) (c : Counter) (target : UInt16) : UInt16 :=
  if target < g.horizon.get c then target + 1 else g.horizon.get c

/-- The events that a counter counts. -/
def eventsOn (g : Generation) : Counter → EventSet
  | .exp => .exports ∪ .ofList [.gdsGprLock, .vmemGprLock, .ldsdir]
  | .lgkm =>
    if .gfx12 ≤ g then .ofList [.lds, .gds]
    else .ofList [.smem, .lds, .gds, .sendmsg, .sendmsgRtn]
  | .vm => {.vmem}
  | .vs => {.vmemStore}
  | .sample => if .gfx12 ≤ g then {.vmemSample} else ∅
  | .bvh => if .gfx12 ≤ g then {.vmemBvh} else ∅
  | .km => if .gfx12 ≤ g then .ofList [.smem, .sendmsg, .sendmsgRtn] else ∅

/-- The counters that count some event of a set. -/
def countersOf (g : Generation) (events : EventSet) : CounterSet :=
  .ofList (Counter.all.filter fun c => events.meets (g.eventsOn c))

/-- The counter that an event lowers on completion. -/
def counterOf (g : Generation) (event : Event) : Except Fault Counter :=
  match (g.countersOf {event}).toList with
  | c :: _ => .ok c
  | [] => .error (.uncounted event)

end Generation

namespace Event

/-- Scalar loads complete in any order. -/
def unordered : EventSet := {.smem}

/-- The event that a word with a single bit stands for. -/
def ofWord (word : UInt32) : Except Fault Event :=
  match (List.range 32).filter word.toBitVec.getLsbD with
  | [i] => match all[i]? with
    | some event => .ok event
    | none => .error .outOfBounds
  | _ => .error .brokenPromise

end Event

namespace EventSet

/-- Some event of the set completes out of order. -/
def isUnordered (s : EventSet) : Bool := s.meets Event.unordered

/-- The set of events that a word stands for. -/
def ofWord (word : UInt32) : Except Fault EventSet :=
  if word.toNat < 0x20000 then .ok (.ofNat word.toNat) else .error .outOfBounds

end EventSet

end GpuWaits

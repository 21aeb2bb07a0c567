/-
# Contexts

A context is what the analysis knows at a point of the program: the counters that may not be zero,
the outstanding accesses of each register unit, and the barriers that are still to be paid.
Contexts of several predecessors are joined.  Linear edges carry the register entries, and logical
edges carry the lanes that the accesses may touch and the barriers.  At a merge of divergent paths
the entries come in along the logical edges instead: an access may have been waited for on every
logical path and still be outstanding on the linear one.
-/
import GpuWaits.Context.Barrier
import GpuWaits.Context.Entry
import Std.Data.ExtTreeMap

namespace GpuWaits

/-- The outstanding accesses of the register units, by unit. -/
abbrev RegMap := Std.ExtTreeMap Reg Entry

/-- What is known at a point of the program. -/
structure Context where
  /-- The counters that may not be zero. -/
  nonzero : CounterSet := ∅
  /-- A flat access that may have gone to shared memory is outstanding, so that `lgkm` orders
  nothing until it drains. -/
  flatLgkm : Bool := false
  /-- The same for `vm`. -/
  flatVm : Bool := false
  /-- The memories of deferred barriers. -/
  releaseDependency : Barrier := {}
  acquireDependency : Barrier := {}
  release : Barrier := {}
  acquire : Barrier := {}
  /-- The outstanding accesses. -/
  regs : RegMap := ∅
deriving DecidableEq

namespace RegMap

/-- The accesses of both maps.  An access that is new to `m` touches none of its lanes so far. -/
def join (m other : RegMap) : RegMap :=
  other.map (fun _ e => { e with laneEvents := ∅ }) ∪
    m.map fun r e => match other[r]? with
      | some o => e.join o
      | none => e

/-- Joining `other` would change the map. -/
def grows (m other : RegMap) : Bool :=
  other.toList.any fun (r, o) => match m[r]? with
    | some e => e.grows o
    | none => true

/-- The map with the lanes that the accesses of `other` may touch. -/
def joinLanes (m other : RegMap) : RegMap :=
  m.map fun r e => match other[r]? with
    | some o => e.addLanes o.laneEvents
    | none => e

/-- Joining the lanes of `other` would change the map. -/
def lanesGrow (m other : RegMap) : Bool :=
  other.toList.any fun (r, o) => match m[r]? with
    | some e => e.laneEvents.lacks o.laneEvents
    | none => false

end RegMap

namespace Context

instance : Inhabited Context := ⟨{}⟩

/-- A memory of deferred barriers. -/
def barrier (c : Context) : BarrierRole → Barrier
  | .releaseDependency => c.releaseDependency
  | .acquireDependency => c.acquireDependency
  | .release => c.release
  | .acquire => c.acquire

/-- The context with another memory of deferred barriers. -/
def setBarrier (c : Context) (role : BarrierRole) (b : Barrier) : Context :=
  match role with
  | .releaseDependency => { c with releaseDependency := b }
  | .acquireDependency => { c with acquireDependency := b }
  | .release => { c with release := b }
  | .acquire => { c with acquire := b }

/-- The sort of edge along which a context comes in, and the sort of block it comes into. -/
structure Edge where
  /-- The edge is a logical one. -/
  logical : Bool
  /-- Divergent paths merge in the block. -/
  merge : Bool
deriving DecidableEq

/-- The register entries flow along this sort of edge. -/
def Edge.carriesEntries (edge : Edge) : Bool := edge.logical == edge.merge

/-- The context `c` when `other` comes in along an edge. -/
def join (c other : Context) (edge : Edge) : Context :=
  let regs := if edge.carriesEntries then c.regs.join other.regs else c.regs
  let c :=
    { c with
      nonzero := c.nonzero ∪ other.nonzero
      flatLgkm := c.flatLgkm || other.flatLgkm
      flatVm := c.flatVm || other.flatVm
      regs := if edge.logical then regs.joinLanes other.regs else regs }
  if edge.logical then
    { c with
      releaseDependency := c.releaseDependency.join other.releaseDependency
      acquireDependency := c.acquireDependency.join other.acquireDependency
      release := c.release.join other.release
      acquire := c.acquire.join other.acquire }
  else c

/-- The join changes the context.  The storage classes of a barrier are not looked at: a class
enters along with the demand for it. -/
def grows (c other : Context) (edge : Edge) : Bool :=
  c.nonzero.lacks other.nonzero
    || other.flatLgkm && !c.flatLgkm
    || other.flatVm && !c.flatVm
    || edge.carriesEntries && c.regs.grows other.regs
    || edge.logical &&
      (c.regs.lanesGrow other.regs
        || BarrierRole.all.any fun role => (c.barrier role).grows (other.barrier role))

/-- A context, line by line. -/
def textLines (c : Context) : List String :=
  ["nonzero=" ++ Number.hex c.nonzero.toNat
    ++ s!" pending_flat_lgkm={c.flatLgkm} pending_flat_vm={c.flatVm}"]
  ++ c.regs.toList.map (fun (r, e) => s!"  {r.text}: {e.text}")
  ++ (BarrierRole.all.filter fun role => (c.barrier role).live).map fun role =>
    s!"  bar[{role.place}]: {(c.barrier role).text}"

end Context

end GpuWaits

/-
# Waiting for an instruction

Before an instruction issues, the wait that it needs is added to the queue, and everything that the
queue now completes is dropped from the context.
-/
import GpuWaits.Transfer.Hazard
import GpuWaits.Transfer.Ordering

namespace GpuWaits

namespace Entry

/-- The accesses that are left once every counter has fallen to its target. -/
def settle (e : Entry) (g : Generation) (w : Wait) : Entry :=
  w.targets.foldl
    (fun e (c, target) => if target ≤ e.wait.get c then e.forget c (g.eventsOn c) else e) e

end Entry

namespace Demand

/-- What is left of a demand once the counters have fallen to the given targets; nothing when all
of its accesses are complete, and then it has no target left either. -/
def settle (g : Generation) : List (Counter × UInt16) → Demand → Except Fault (Option Demand)
  | [], d => .ok (some d)
  | (c, target) :: rest, d =>
    if d.wait.isSet c && target ≤ d.wait.get c then
      let left := { d with wait := d.wait.clear c, events := d.events \ g.eventsOn c }
      if left.events.isEmpty then
        if left.wait.isNone then .ok none else .error .brokenPromise
      else settle g rest left
    else settle g rest d

end Demand

namespace PerStorage

/-- The table with the values that `f` gives, if it gives all of them. -/
def ofFnM {α : Type} (f : Storage → Except Fault α) : Except Fault (PerStorage α) :=
  return ⟨← f .buffer, ← f .gds, ← f .image, ← f .shared, ← f .vmemOutput, ← f .taskPayload,
    ← f .scratch, ← f .vgprSpill⟩

end PerStorage

namespace Barrier

/-- The demands that are left once every counter has fallen to its target. -/
def settle (b : Barrier) (g : Generation) (w : Wait) : Except Fault Barrier := do
  let left ← PerStorage.ofFnM fun k =>
    if k ∈ b.storage then (b.demand k).settle g w.targets
    else .ok (some (b.demand k))
  let storage := b.storage \ .ofList (Storage.all.filter fun k => (left.get k).isNone)
  return {
    demands := .ofFn fun k => (left.get k).getD {}
    storage
    live := b.live && !storage.isEmpty }

end Barrier

namespace Context

/-- An outstanding flat access is counted twice, and only a full drain is known to complete it. -/
def coverFlat (c : Context) (w : Wait) : Wait :=
  let w := if c.flatVm && w.isSet .vm then w.set .vm 0 else w
  if c.flatLgkm && w.isSet .lgkm then w.set .lgkm 0 else w

/-- A memory of deferred barriers once every counter has fallen to its target. -/
def settleBarrier (c : Context) (g : Generation) (w : Wait) (role : BarrierRole) :
    Except Fault Barrier :=
  if (c.barrier role).live then (c.barrier role).settle g w else .ok (c.barrier role)

/-- The context once every counter has fallen to its target. -/
def settle (c : Context) (g : Generation) (w : Wait) : Except Fault Context := do
  if w.isNone then return c
  return {
    nonzero := c.nonzero \ .ofList (Counter.all.filter fun counter => w.get counter == 0)
    flatLgkm := c.flatLgkm && w.lgkm != 0
    flatVm := c.flatVm && w.vm != 0
    releaseDependency := ← c.settleBarrier g w .releaseDependency
    acquireDependency := ← c.settleBarrier g w .acquireDependency
    release := ← c.settleBarrier g w .release
    acquire := ← c.settleBarrier g w .acquire
    regs := c.regs.filterMap fun _ e =>
      let e := e.settle g w
      if e.counters.isEmpty then none else some e }

/-- The wait for every counter to drain, before a jump to code that was compiled apart. -/
def drainBefore (c : Context) (s : Setting) (i : Instruction) : Wait :=
  if i.opcode = .sSetpcB64 ∨ s.drainAll then .drain c.nonzero else .none

/-- The wait of an ordered count for the accesses that it lets the next wave see. -/
def turnWait (c : Context) (i : Instruction) : Wait :=
  if i.isOrderedRelease then (c.releaseDependency.demand .gds).wait else .none

/-- Adds to the queue what the instruction has to wait for, and drops what the queue completes. -/
def await (c : Context) (s : Setting) (i : Instruction) (q : Queue) :
    Except Fault (Context × Queue) := do
  let hazard ← c.hazardWait s i
  let needed := (((c.drainBefore s i).both hazard).both (c.turnWait i))
  let deferred := c.deferBefore s i
  let q := (q.add needed).both (deferred.payment s i)
  let q := { q with wait := deferred.coverFlat q.wait }
  let settled ← deferred.settle s.generation q.wait
  return (settled, q)

end Context

end GpuWaits

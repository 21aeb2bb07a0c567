/-
# Barriers

A release asks that the accesses before it are complete when a later instruction makes results
visible, and an acquire asks the same of the atomic accesses before it when a later instruction
touches the memory.  The wait is moved from the memory of dependencies to the memory of deferred
barriers, and paid there by the first instruction that depends on it.
-/
import GpuWaits.Access
import GpuWaits.Context
import GpuWaits.Queue

namespace GpuWaits

/-- The widest scope within which a wave is alone, so that a barrier of it needs no wait. -/
def Setting.aloneScope (s : Setting) : Scope :=
  if s.config.workgroupSize ≤ s.config.waveSize then .workgroup else .subgroup

namespace Context

/-- Moves the demands on behalf of the storage of `sync` from the memory `source` to the memory
`target`.  Accesses of shared memory do not reach past the workgroup. -/
def defer (c : Context) (s : Setting) (sync : Sync) (source target : BarrierRole) : Context :=
  if sync.scope ≤ s.aloneScope then c
  else
    let src := c.barrier source
    let demands := ((sync.storage ∩ src.storage).toList.map src.demand).filter fun d =>
      !(d.events == {.lds} && decide (sync.scope.narrowest .workgroup ≤ s.aloneScope))
    let moved : Demand := demands.foldl Demand.join {}
    if moved.events.isEmpty then c
    else
      let dst := c.barrier target
      c.setBarrier target
        { demands := .ofFn fun k =>
            let d := dst.demand k
            if k ∈ sync.storage then
              { wait := d.wait.both moved.wait
                events := d.events ∪ moved.events
                scope := d.scope.widest sync.scope }
            else d
          storage := dst.storage ∪ sync.storage
          live := true }

/-- Defers a release. -/
def deferRelease (c : Context) (s : Setting) (sync : Sync) : Context :=
  c.defer s sync .releaseDependency .release

/-- Defers an acquire. -/
def deferAcquire (c : Context) (s : Setting) (sync : Sync) : Context :=
  c.defer s sync .acquireDependency .acquire

/-- Defers what the instruction asks for before it issues: both sides of a barrier, and the
release of any other instruction. -/
def deferBefore (c : Context) (s : Setting) (i : Instruction) : Context :=
  let released := if .release ∈ i.sync.semantics then c.deferRelease s i.sync else c
  match i.payload with
  | .barrier _ => if .acquire ∈ i.sync.semantics then released.deferAcquire s i.sync else released
  | _ => released

end Context

namespace Demand

/-- The events of vector memory that a shared cache keeps in order. -/
def cached : EventSet := .ofList [.vmem, .vmemStore]

/-- The waits that the instruction `i` has to pay for the demand.  Within a workgroup the order of
accesses that go through one cache, and of accesses of shared memory, is kept by the hardware; a
barrier then only has to wait until the addresses and the data have been read. -/
def payment (d : Demand) (s : Setting) (i : Instruction) : Queue :=
  let inGroup := decide (d.scope ≤ .workgroup)
  let oneCache := !s.config.wgpMode
  let sinceGfx10 := decide (.gfx10 ≤ s.generation)
  let isVmem := i.isVmem || i.isFlatLike && !i.mayUseLds
  let isLds := i.ds?.any fun access => !access.gds
  let skipVmem := inGroup && d.events.meets cached && (isVmem || i.isBarrier) && oneCache
  let skipLds := inGroup && decide (.lds ∈ d.events)
    && (isLds || i.isBarrier && sinceGfx10 && oneCache)
  let events := (d.events \ if skipVmem then cached else ∅) \ if skipLds then {.lds} else ∅
  let reads := i.isBarrier && (skipVmem && sinceGfx10 || skipLds)
  { wait := if events.isEmpty then .none else d.wait
    dependency := if reads then DependencyWait.none.set .vmVsrc 0 else .none }

end Demand

namespace Barrier

/-- The waits that the instruction `i` has to pay on behalf of some storage classes. -/
def payment (b : Barrier) (s : Setting) (i : Instruction) (storage : StorageSet) : Queue :=
  if b.live then
    (storage ∩ b.storage).toList.foldl (fun q k => q.both ((b.demand k).payment s i)) {}
  else {}

end Barrier

/-- The waits that an instruction has to pay for deferred barriers: releases where it makes results
visible, and acquires where it touches memory that others share. -/
def Context.payment (c : Context) (s : Setting) (i : Instruction) : Queue :=
  let released := i.orderedStorage s i.sync {.release}
  let acquired := if .unshared ∈ i.sync.semantics then ∅ else i.sync.storage
  (c.release.payment s i released).both (c.acquire.payment s i acquired)

end GpuWaits

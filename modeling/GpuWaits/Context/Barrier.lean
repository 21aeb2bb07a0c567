/-
# Deferred barriers

A barrier does not wait by itself.  What it has to wait for is remembered for each storage class
and paid by the first later instruction that depends on the barrier, so that as much time as
possible passes before.  A `Barrier` is such a memory: one demand per storage class, and the set
of the classes whose demand is not empty.
-/
import GpuWaits.Event
import GpuWaits.Sync
import GpuWaits.Wait

namespace GpuWaits

/-- A value for every storage class. -/
structure PerStorage (α : Type) where
  buffer : α
  gds : α
  image : α
  shared : α
  vmemOutput : α
  taskPayload : α
  scratch : α
  vgprSpill : α
deriving DecidableEq

namespace PerStorage

variable {α : Type}

/-- The table with the values that `f` gives. -/
def ofFn (f : Storage → α) : PerStorage α :=
  ⟨f .buffer, f .gds, f .image, f .shared, f .vmemOutput, f .taskPayload, f .scratch, f .vgprSpill⟩

/-- The value for a storage class. -/
def get (t : PerStorage α) : Storage → α
  | .buffer => t.buffer
  | .gds => t.gds
  | .image => t.image
  | .shared => t.shared
  | .vmemOutput => t.vmemOutput
  | .taskPayload => t.taskPayload
  | .scratch => t.scratch
  | .vgprSpill => t.vgprSpill

@[simp] theorem get_ofFn (f : Storage → α) (s : Storage) : (ofFn f).get s = f s := by
  cases s <;> rfl

theorem ext_get {t u : PerStorage α} (h : ∀ s, t.get s = u.get s) : t = u := by
  cases t
  cases u
  simp only [PerStorage.mk.injEq]
  exact ⟨h .buffer, h .gds, h .image, h .shared, h .vmemOutput, h .taskPayload, h .scratch,
    h .vgprSpill⟩

end PerStorage

/-- What has to be waited for on behalf of one storage class. -/
structure Demand where
  /-- The targets that complete the accesses. -/
  wait : Wait := .none
  /-- The events of the accesses. -/
  events : EventSet := ∅
  /-- The widest scope of the barriers that ask for it. -/
  scope : Scope := .invocation
deriving DecidableEq

namespace Demand

/-- Both demands together. -/
def join (d other : Demand) : Demand where
  wait := d.wait.both other.wait
  events := d.events ∪ other.events
  scope := d.scope.widest other.scope

/-- Joining `other` would change the demand. -/
def grows (d other : Demand) : Bool :=
  other.wait.exceeds d.wait || d.events.lacks other.events || d.scope < other.scope

end Demand

/-- The four memories of the analysis. -/
inductive BarrierRole where
  /-- All accesses that a release has to wait for. -/
  | releaseDependency
  /-- All atomic accesses, which an acquire has to wait for. -/
  | acquireDependency
  /-- Releases that are waiting to be paid, at the next atomic, control barrier, end of geometry
  or export of a position or a primitive. -/
  | release
  /-- Acquires that are waiting to be paid, at the next access that is not private. -/
  | acquire
deriving DecidableEq, Repr

namespace BarrierRole

/-- The memories, in the order in which they are shown. -/
def all : List BarrierRole := [.releaseDependency, .acquireDependency, .release, .acquire]

/-- The place of a memory in that order. -/
def place : BarrierRole → Nat
  | .releaseDependency => 0
  | .acquireDependency => 1
  | .release => 2
  | .acquire => 3

end BarrierRole

/-- One demand per storage class. -/
structure Barrier where
  demands : PerStorage Demand := .ofFn fun _ => {}
  /-- The classes with a demand. -/
  storage : StorageSet := ∅
  /-- There may be a demand. -/
  live : Bool := false
deriving DecidableEq

namespace Barrier

instance : Inhabited Barrier := ⟨{}⟩

/-- The demand on behalf of a storage class. -/
def demand (b : Barrier) (s : Storage) : Demand := b.demands.get s

/-- The storage classes with a demand. -/
def classes (b : Barrier) : List Storage := b.storage.toList

/-- Both memories together; a memory that is not live adds nothing. -/
def join (b other : Barrier) : Barrier :=
  if other.live then
    { demands := .ofFn fun s => (b.demand s).join (other.demand s)
      storage := b.storage ∪ other.storage
      live := true }
  else b

/-- Joining `other` would change a demand. -/
def grows (b other : Barrier) : Bool :=
  other.live && Storage.all.any fun s => (b.demand s).grows (other.demand s)

/-- A memory on one line: the demands by class, between braces. -/
def text (b : Barrier) : String :=
  let parts := b.classes.map fun s =>
    let d := b.demand s
    "\"" ++ s.name ++ "\": " ++ s!"{d.wait.braced} {d.events.text} {d.scope.name}"
  "\x7b" ++ ", ".intercalate parts ++ "\x7d"

end Barrier

end GpuWaits

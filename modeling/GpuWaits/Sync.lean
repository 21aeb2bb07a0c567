/-
# Memory synchronization

What an access says about the memory it touches: the storage classes, how it takes part in
barriers, and how far its effects have to be visible.
-/
import GpuWaits.Flags

namespace GpuWaits

/-- A class of memory. -/
inductive Storage where
  | buffer
  | gds
  | image
  | shared
  | vmemOutput
  | taskPayload
  | scratch
  | vgprSpill
deriving DecidableEq, Repr

namespace Storage

/-- Every storage class, lowest bit first. -/
def all : List Storage :=
  [.buffer, .gds, .image, .shared, .vmemOutput, .taskPayload, .scratch, .vgprSpill]

/-- The bit of a storage class. -/
def bit : Storage → Nat
  | .buffer => 0
  | .gds => 1
  | .image => 2
  | .shared => 3
  | .vmemOutput => 4
  | .taskPayload => 5
  | .scratch => 6
  | .vgprSpill => 7

/-- The name of a storage class in the textual format. -/
def name : Storage → String
  | .buffer => "buffer"
  | .gds => "gds"
  | .image => "image"
  | .shared => "shared"
  | .vmemOutput => "vmem_output"
  | .taskPayload => "task_payload"
  | .scratch => "scratch"
  | .vgprSpill => "vgpr_spill"

instance : Flag Storage := ⟨all, bit, name⟩

end Storage

/-- A set of storage classes. -/
abbrev StorageSet := Flags Storage 16

/-- Every storage class. -/
def StorageSet.all : StorageSet := .ofList Storage.all

/-- How an access takes part in barriers. -/
inductive Semantic where
  | acquire
  | release
  | volatile
  /-- The memory belongs to the invocation alone. -/
  | unshared
  | canReorder
  | atomic
  /-- Reads, modifies and writes in one step. -/
  | rmw
deriving DecidableEq, Repr

namespace Semantic

/-- Every semantic, lowest bit first. -/
def all : List Semantic :=
  [.acquire, .release, .volatile, .unshared, .canReorder, .atomic, .rmw]

/-- The bit of a semantic. -/
def bit : Semantic → Nat
  | .acquire => 0
  | .release => 1
  | .volatile => 2
  | .unshared => 3
  | .canReorder => 4
  | .atomic => 5
  | .rmw => 6

/-- The name of a semantic in the textual format. -/
def name : Semantic → String
  | .acquire => "acquire"
  | .release => "release"
  | .volatile => "volatile"
  | .unshared => "private"
  | .canReorder => "can_reorder"
  | .atomic => "atomic"
  | .rmw => "rmw"

instance : Flag Semantic := ⟨all, bit, name⟩

end Semantic

/-- A set of semantics. -/
abbrev SemanticSet := Flags Semantic 8

/-- Acquire and release together. -/
def SemanticSet.acquireRelease : SemanticSet := .ofList [.acquire, .release]

/-- How far the effects of an access have to be visible, narrowest first. -/
inductive Scope where
  | invocation
  | subgroup
  | workgroup
  | queueFamily
  | device
deriving DecidableEq, Repr

namespace Scope

/-- Every scope, narrowest first. -/
def all : List Scope := [.invocation, .subgroup, .workgroup, .queueFamily, .device]

/-- The place of a scope in the order. -/
def width : Scope → Nat
  | .invocation => 0
  | .subgroup => 1
  | .workgroup => 2
  | .queueFamily => 3
  | .device => 4

instance : LE Scope := ⟨fun a b => a.width ≤ b.width⟩

instance : LT Scope := ⟨fun a b => a.width < b.width⟩

instance (a b : Scope) : Decidable (a ≤ b) := inferInstanceAs (Decidable (a.width ≤ b.width))

instance (a b : Scope) : Decidable (a < b) := inferInstanceAs (Decidable (a.width < b.width))

/-- The wider of two scopes. -/
def widest (a b : Scope) : Scope := if a ≤ b then b else a

/-- The narrower of two scopes. -/
def narrowest (a b : Scope) : Scope := if a ≤ b then a else b

/-- The name of a scope in the textual format. -/
def name : Scope → String
  | .invocation => "invocation"
  | .subgroup => "subgroup"
  | .workgroup => "workgroup"
  | .queueFamily => "queuefamily"
  | .device => "device"

/-- The scope with a given name. -/
def ofName? (name : String) : Option Scope := all.find? fun s => s.name == name

theorem mem_all (s : Scope) : s ∈ all := by cases s <;> decide

end Scope

/-- The synchronization that an access asks for. -/
structure Sync where
  /-- The storage classes that the access touches. -/
  storage : StorageSet := ∅
  /-- How the access takes part in barriers. -/
  semantics : SemanticSet := ∅
  /-- How far its effects have to be visible. -/
  scope : Scope := .invocation
deriving DecidableEq

instance : Inhabited Sync := ⟨{}⟩

end GpuWaits

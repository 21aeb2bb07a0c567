/-
# Events

An event is a class of asynchronous operations that complete in the same way.  The generation
decides which counter an event lowers on completion.
-/
import GpuWaits.Flags

namespace GpuWaits

/-- A class of asynchronous operations. -/
inductive Event where
  /-- A scalar memory load. -/
  | smem
  /-- An access of the memory shared by a workgroup. -/
  | lds
  /-- An access of the memory shared by all workgroups. -/
  | gds
  /-- A vector memory access. -/
  | vmem
  /-- A vector memory store, told apart from loads from gfx10 on. -/
  | vmemStore
  /-- An export of a position. -/
  | expPos
  /-- An export of a parameter. -/
  | expParam
  /-- An export to a render target, or to nowhere. -/
  | expMrtNull
  /-- An export of a primitive. -/
  | expPrim
  /-- An export for blending with two sources. -/
  | expDualSrcBlend
  /-- A `gds` access that still reads its operands. -/
  | gdsGprLock
  /-- A vector memory access that still reads its data. -/
  | vmemGprLock
  /-- A message. -/
  | sendmsg
  /-- A message that returns a value. -/
  | sendmsgRtn
  /-- A direct load from shared memory. -/
  | ldsdir
  /-- An image sample, told apart from gfx12 on. -/
  | vmemSample
  /-- A ray intersection, told apart from gfx12 on. -/
  | vmemBvh
deriving DecidableEq, Repr

namespace Event

/-- Every event, lowest bit first. -/
def all : List Event :=
  [.smem, .lds, .gds, .vmem, .vmemStore, .expPos, .expParam, .expMrtNull, .expPrim,
    .expDualSrcBlend, .gdsGprLock, .vmemGprLock, .sendmsg, .sendmsgRtn, .ldsdir, .vmemSample,
    .vmemBvh]

/-- The bit of an event in a set of events. -/
def bit : Event → Nat
  | .smem => 0
  | .lds => 1
  | .gds => 2
  | .vmem => 3
  | .vmemStore => 4
  | .expPos => 5
  | .expParam => 6
  | .expMrtNull => 7
  | .expPrim => 8
  | .expDualSrcBlend => 9
  | .gdsGprLock => 10
  | .vmemGprLock => 11
  | .sendmsg => 12
  | .sendmsgRtn => 13
  | .ldsdir => 14
  | .vmemSample => 15
  | .vmemBvh => 16

/-- The name of an event. -/
def name : Event → String
  | .smem => "smem"
  | .lds => "lds"
  | .gds => "gds"
  | .vmem => "vmem"
  | .vmemStore => "vmem_store"
  | .expPos => "exp_pos"
  | .expParam => "exp_param"
  | .expMrtNull => "exp_mrt_null"
  | .expPrim => "exp_prim"
  | .expDualSrcBlend => "exp_dual_src_blend"
  | .gdsGprLock => "gds_gpr_lock"
  | .vmemGprLock => "vmem_gpr_lock"
  | .sendmsg => "sendmsg"
  | .sendmsgRtn => "sendmsg_rtn"
  | .ldsdir => "ldsdir"
  | .vmemSample => "vmem_sample"
  | .vmemBvh => "vmem_bvh"

instance : Flag Event := ⟨all, bit, name⟩

theorem mem_all (e : Event) : e ∈ all := by cases e <;> decide

theorem all_getElem?_bit (e : Event) : all[e.bit]? = some e := by cases e <;> rfl

theorem bit_injective {d e : Event} (h : d.bit = e.bit) : d = e := by
  have := all_getElem?_bit d
  rw [h, all_getElem?_bit e] at this
  exact (Option.some.inj this).symm

end Event

/-- A set of events. -/
abbrev EventSet := Flags Event 17

namespace EventSet

/-- The exports. -/
def exports : EventSet :=
  .ofList [.expPos, .expParam, .expMrtNull, .expPrim, .expDualSrcBlend]

/-- The names of the events between braces, divided by bars. -/
def text (s : EventSet) : String := "\x7b" ++ "|".intercalate s.labels ++ "\x7d"

end EventSet

end GpuWaits

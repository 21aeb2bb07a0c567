/-
# Programs

A program is a list of blocks in layout order.  Control flow is given by the predecessors of each
block, once as the wave runs through them (linear) and once as a single lane sees them under the
execution mask (logical).
-/
import GpuWaits.Instruction

namespace GpuWaits

/-- The role of a block in the control flow. -/
inductive BlockRole where
  | topLevel
  | loopPreheader
  | loopHeader
  | loopExit
  | branch
  | merge
  | invert
  | uniform
  /-- A block that lanes jump to when they are discarded, from anywhere in a block. -/
  | discardEarlyExit
  /-- The program ends here and hands its registers to the next part. -/
  | endWithRegs
deriving DecidableEq, Repr

namespace BlockRole

/-- Every role, lowest bit first. -/
def all : List BlockRole :=
  [.topLevel, .loopPreheader, .loopHeader, .loopExit, .branch, .merge, .invert, .uniform,
    .discardEarlyExit, .endWithRegs]

/-- The bit of a role. -/
def bit : BlockRole → Nat
  | .topLevel => 0
  | .loopPreheader => 1
  | .loopHeader => 2
  | .loopExit => 3
  | .branch => 4
  | .merge => 5
  | .invert => 6
  | .uniform => 7
  | .discardEarlyExit => 8
  | .endWithRegs => 9

/-- The name of a role in the textual format. -/
def name : BlockRole → String
  | .topLevel => "top_level"
  | .loopPreheader => "loop_preheader"
  | .loopHeader => "loop_header"
  | .loopExit => "loop_exit"
  | .branch => "branch"
  | .merge => "merge"
  | .invert => "invert"
  | .uniform => "uniform"
  | .discardEarlyExit => "discard_early_exit"
  | .endWithRegs => "end_with_regs"

instance : Flag BlockRole := ⟨all, bit, name⟩

end BlockRole

/-- The roles of a block. -/
abbrev BlockKind := Flags BlockRole 16

/-- A basic block. -/
structure Block where
  index : UInt32
  kind : BlockKind := ∅
  linearPreds : List UInt32 := []
  logicalPreds : List UInt32 := []
  /-- The number of loops around the block. -/
  loopDepth : UInt32 := 0
  instructions : List Instruction := []
deriving DecidableEq

/-- What the analysis depends on beside the code. -/
structure Config where
  generation : Generation := .gfx10
  waveSize : UInt32 := 64
  workgroupSize : UInt32 := 64
  /-- A workgroup may span two compute units. -/
  wgpMode : Bool := false
  /-- Registers are protected by a code, so that loads write them whole. -/
  sramEcc : Bool := false
  physicalVgprs : UInt32 := 512
  maxWavesPerSimd : UInt32 := 16
  /-- The vector registers that the program uses. -/
  numVgprs : UInt32 := 0
deriving DecidableEq

/-- A program. -/
structure Program where
  config : Config := {}
  blocks : List Block := []
  /-- Accesses of shared memory by an earlier part may still be outstanding. -/
  pendingLds : Bool := false
  /-- Arguments that vector memory is still loading when the program starts. -/
  pendingVmem : List RegRange := []
deriving DecidableEq

namespace Program

/-- The instructions of all blocks. -/
def instructions (p : Program) : List Instruction := p.blocks.flatMap Block.instructions

/-- The number of instructions. -/
def size (p : Program) : Nat := p.instructions.length

/-- The number of waits for the counters. -/
def countWaits (p : Program) : Nat := p.instructions.countP fun i => i.payload matches .wait _

/-- Every wait for the counters, with its block and its place in the block. -/
def waits (p : Program) : List (UInt32 × Nat × Wait) :=
  p.blocks.flatMap fun b => b.instructions.zipIdx.filterMap fun (i, place) =>
    match i.payload with
    | .wait w => some (b.index, place, w)
    | _ => none

/-- The program without its waits. -/
def withoutWaits (p : Program) : Program :=
  { p with
    blocks := p.blocks.map fun b => { b with instructions := b.instructions.filter (!·.isWait) } }

end Program

end GpuWaits

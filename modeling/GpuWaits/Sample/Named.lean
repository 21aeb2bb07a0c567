/-
# Named sample programs

Small programs that each show one thing about waits.
-/
import GpuWaits.Sample.Code

namespace GpuWaits

namespace Sample

/-- A program for generation 10 that is a single block. -/
def straight (instructions : List Instruction) : Program where
  blocks := [block 0 {.topLevel} [] 0 instructions]

/-- Loads that feed operations. -/
def straightLine : Program := straight [
  bufferLoad (v 0) (v 10),
  bufferLoad (v 1) (v 11),
  scalarLoad (s 20) (s 4) 0,
  vectorOp (v 2) [v 0, v 0],
  scalarOp (s 21) [s 20],
  vectorOp (v 3) [v 1, v 2],
  endProgram]

/-- Two loads on one counter that are read in the order in which they issued. -/
def loadsReadInOrder : Program := straight [
  bufferLoad (v 0) (v 10),
  bufferLoad (v 1) (v 11),
  vectorOp (v 2) [v 0],
  vectorOp (v 3) [v 1],
  endProgram]

/-- A program that has all its waits already. -/
def alreadyWaited : Program := straight [
  bufferLoad (v 0) (v 10),
  .ofWait (.single .vm 0),
  vectorOp (v 1) [v 0],
  endProgram]

/-- A load that is carried around a loop, and one that is carried out of it. -/
def simpleLoop : Program where
  blocks := [
    block 0 (.ofList [.topLevel, .loopPreheader]) [] 0 [bufferLoad (v 0) (v 10)],
    block 1 {.loopHeader} [0, 2] 1 [vectorOp (v 1) [v 0, v 1]],
    block 2 {.uniform} [1] 1 [bufferLoad (v 0) (v 1), branch],
    block 3 (.ofList [.topLevel, .loopExit]) [2] 0 [vectorOp (v 2) [v 0], endProgram]]

/-- A loop inside a loop, each with a load that is carried around. -/
def nestedLoops : Program where
  blocks := [
    block 0 (.ofList [.topLevel, .loopPreheader]) [] 0 [bufferLoad (v 0) (v 10)],
    block 1 (.ofList [.loopHeader, .loopPreheader]) [0, 5] 1 [vectorOp (v 4) [v 1]],
    block 2 {.loopHeader} [1, 3] 2 [vectorOp (v 5) [v 2]],
    block 3 {.uniform} [2] 2 [bufferLoad (v 2) (v 10), bufferLoad (v 3) (v 11), branch],
    block 4 {.loopExit} [3] 1 [vectorOp (v 6) [v 0], bufferLoad (v 1) (v 12)],
    block 5 {.uniform} [4] 1 [vectorOp (v 7) [v 3], branch],
    block 6 (.ofList [.topLevel, .loopExit]) [5] 0 [vectorOp (v 8) [v 1], endProgram]]

/-- Two sides of a condition on divergent lanes: the load of one side reaches the merge only along
the logical edges. -/
def divergentIf : Program where
  blocks := [
    block 0 (.ofList [.topLevel, .branch]) [] 0 [scalarLoad (s 20) (s 4) 0],
    divergent 1 ∅ [0] [0] [bufferLoad (v 0) (v 10)],
    divergent 2 ∅ [0] [] [],
    divergent 3 {.invert} [1, 2] [] [],
    divergent 4 ∅ [3] [0] [vectorOp (v 1) [v 11]],
    divergent 5 ∅ [3] [] [],
    divergent 6 (.ofList [.topLevel, .merge]) [4, 5] [1, 4]
      [vectorOp (v 2) [v 0, v 1], scalarOp (s 21) [s 20], endProgram]]

/-- Shared memory that is written before a barrier and read after it. -/
def ldsBarrier : Program :=
  { straight [
      sharedStore (v 1) (v 2),
      askBarrier (.ofList [.shared, .buffer]) .workgroup,
      barrier,
      sharedLoad (v 3) (v 1),
      vectorOp (v 4) [v 3],
      endProgram] with
    config := { workgroupSize := 256, wgpMode := true } }

/-- An exported register that is overwritten while the export is outstanding. -/
def exports : Program := straight [
  vectorOp (v 0) [v 5],
  exportOne 12 (v 0),
  vectorOp (v 0) [v 6],
  exportOne 32 (v 0),
  endProgram]

/-- A program that uses many registers and ends with outstanding stores. -/
def vgprDealloc : Program :=
  { straight [
      globalStore (v 2) (v 0) scratchSync,
      globalStore (v 4) (v 1) { storage := {.buffer} },
      endProgram] with
    config := { generation := .gfx11, numVgprs := 256 } }

/-- A part of a shader that hands its registers to the next part. -/
def endWithRegs : Program where
  config := { generation := .gfx10_3 }
  blocks := [
    block 0 (.ofList [.topLevel, .endWithRegs]) [] 0 [
      bufferLoad (v 0) (v 10),
      scalarLoad (s 20) (s 4) 0,
      imageSample (v 4) (v 12)]]

/-- Arguments that are still being loaded when the program starts. -/
def pendingArgs : Program :=
  { straight [
      vectorOp (v 4) [v 1],
      sharedLoad (v 5) (v 4),
      vectorOp (v 6) [v 5],
      endProgram] with
    pendingLds := true
    pendingVmem := [⟨v 0, 2⟩] }

/-- The oldest generation keeps reading the data of a store. -/
def gfx6StoreData : Program :=
  { straight [
      bufferStore (v 10) (v 0),
      vectorOp (v 0) [v 1],
      endProgram] with
    config := { generation := .gfx6 } }

/-- The named programs. -/
def named : List (String × Program) := [
  ("straight_line", straightLine),
  ("loads_read_in_order", loadsReadInOrder),
  ("already_waited", alreadyWaited),
  ("simple_loop", simpleLoop),
  ("nested_loops", nestedLoops),
  ("divergent_if", divergentIf),
  ("lds_barrier", ldsBarrier),
  ("exports", exports),
  ("vgpr_dealloc", vgprDealloc),
  ("end_with_regs", endWithRegs),
  ("pending_args", pendingArgs),
  ("gfx6_store_data", gfx6StoreData)]

end Sample

end GpuWaits

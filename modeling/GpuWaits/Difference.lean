/-
# Differences between programs

Two programs are compared block by block, and the first difference is described.  What is pending at
the start of the programs is not compared.
-/
import GpuWaits.Text.Printer

namespace GpuWaits

/-- A difference between two programs. -/
inductive Difference where
  | config (expected found : Config)
  | blockCount (expected found : Nat)
  | instruction (block : UInt32) (place : Nat) (expected found : Instruction)
  | instructionCount (block : UInt32) (expected found : Nat)
  | header (block : UInt32)
deriving DecidableEq

/-- All settings of a configuration by name. -/
def Config.description (c : Config) : String :=
  let generation := "Gfx" ++ String.ofList
    (c.generation.name.toList.drop 3 |>.map fun d => if d = '.' then '_' else d)
  "ProgramConfig \x7b "
    ++ s!"gfx_level: {generation}, wave_size: {c.waveSize.toNat}, "
    ++ s!"workgroup_size: {c.workgroupSize.toNat}, wgp_mode: {c.wgpMode}, "
    ++ s!"sram_ecc_enabled: {c.sramEcc}, physical_vgprs: {c.physicalVgprs.toNat}, "
    ++ s!"max_waves_per_simd: {c.maxWavesPerSimd.toNat}, num_vgprs: {c.numVgprs.toNat}"
    ++ " \x7d"

namespace Difference

/-- The text of a difference. -/
def message : Difference → Except Fault String
  | .config expected found =>
    .ok s!"config differs: {expected.description} vs {found.description}"
  | .blockCount expected found => .ok s!"expected {expected} blocks, found {found}"
  | .instruction block place expected found => do
    let expected ← expected.text
    let found ← found.text
    return s!"block {block.toNat} instruction {place}: expected `{expected}`, found `{found}`"
  | .instructionCount block expected found =>
    .ok s!"block {block.toNat}: expected {expected} instructions, found {found}"
  | .header block => .ok s!"block {block.toNat}: header differs"

end Difference

/-- The first place where two lists of instructions differ. -/
def firstMismatch? : List Instruction → List Instruction → Option (Nat × Instruction × Instruction)
  | i :: is, j :: js =>
    if i = j then (firstMismatch? is js).map fun (place, pair) => (place + 1, pair)
    else some (0, i, j)
  | _, _ => none

/-- The first difference between two blocks. -/
def Block.difference? (expected found : Block) : Option Difference :=
  match firstMismatch? expected.instructions found.instructions with
  | some (place, i, j) => some (.instruction expected.index place i j)
  | none =>
    if expected.instructions.length ≠ found.instructions.length then
      some (.instructionCount expected.index expected.instructions.length found.instructions.length)
    else if expected ≠ found then some (.header expected.index)
    else none

/-- The first difference between two programs. -/
def Program.difference? (expected found : Program) : Option Difference :=
  if expected.config ≠ found.config then some (.config expected.config found.config)
  else if expected.blocks.length ≠ found.blocks.length then
    some (.blockCount expected.blocks.length found.blocks.length)
  else (expected.blocks.zip found.blocks).findSome? fun (e, f) => e.difference? f

end GpuWaits

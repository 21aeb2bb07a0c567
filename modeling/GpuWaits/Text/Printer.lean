/-
# The textual format: writing

A program is written as a line with its configuration, lines for what is pending at its start,
and then its blocks: a line with the block's place in the control flow and one line per
instruction.  Reading is in `GpuWaits.Text.Parser`.
-/
import GpuWaits.Program
import GpuWaits.Text.Number
import GpuWaits.Text.Printout

namespace GpuWaits

/-- An attribute that lists the names of a set. -/
def Flags.attribute {α : Type} [Flag α] {w : Nat} (key : String) (s : Flags α w) : String :=
  s!" {key}=" ++ ",".intercalate s.labels

/-- The attributes of an access; what has its default value is left out. -/
def Sync.text (s : Sync) : String :=
  (if s.storage.isEmpty then "" else s.storage.attribute "storage")
    ++ (if s.semantics.isEmpty then "" else s.semantics.attribute "semantics")
    ++ (if s.scope = .invocation then "" else s!" scope={s.scope.name}")

/-- The attributes of an instruction; most of those with their default value are left out. -/
def Payload.text : Payload → String
  | .salu | .valu => ""
  | .sopp imm => if imm = 0 then "" else s!" imm={imm.toNat}"
  | .interp waitExp => s!" wait_exp={waitExp.toNat}"
  | .smem sync | .ldsDir sync | .vmem sync => sync.text
  | .ds access =>
    access.sync.text
      ++ (if access.gds then " gds" else "")
      ++ (if access.offset0 = 0 then "" else s!" offset0={access.offset0.toNat}")
      ++ (if access.offset1 = 0 then "" else s!" offset1={access.offset1.toNat}")
  | .exp data =>
    s!" dest={data.dest.toNat} en=" ++ Number.hex data.enabled.toNat
      ++ (if data.compressed then " compr" else "")
  | .flat access => access.sync.text ++ (if access.mayUseLds then " lds" else "")
  | .barrier request =>
    request.sync.text
      ++ (if request.execScope = .invocation then "" else s!" exec_scope={request.execScope.name}")
  | .wait w => if w.isNone then "" else " " ++ w.text
  | .dependencyWait w => if w.isNone then "" else " " ++ w.text

/-- An instruction on a line of its own, without the end of the line. -/
def Instruction.printout (i : Instruction) : Printout :=
  let definitions := .separated ", " (i.definitions.map fun d => .ofExcept d.text)
  let operands := .separated ", " (i.operands.map fun op => .ofExcept op.text)
  definitions
    ++ (if i.definitions.isEmpty then "" else " = " : String)
    ++ (i.opcode.mnemonic : String)
    ++ (if i.operands.isEmpty then "" else " " : String)
    ++ operands
    ++ (i.payload.text : String)

/-- The text of an instruction. -/
def Instruction.text (i : Instruction) : Except Fault String := i.printout.finish

/-- An attribute that lists blocks. -/
def Block.predsAttribute (key : String) (preds : List UInt32) : String :=
  if preds.isEmpty then ""
  else s!" {key}=" ++ ",".intercalate (preds.map fun p => toString p.toNat)

/-- The line that opens a block, without its end. -/
def Block.header (b : Block) : String :=
  s!"block {b.index.toNat}"
    ++ (if b.kind.isEmpty then "" else b.kind.attribute "kind")
    ++ predsAttribute "preds" b.linearPreds
    ++ predsAttribute "logical" b.logicalPreds
    ++ (if b.loopDepth = 0 then "" else s!" depth={b.loopDepth.toNat}")
    ++ ":"

/-- The lines of a block. -/
def Block.printout (b : Block) : Printout :=
  (b.header ++ "\n" : String)
    ++ .concat (b.instructions.map fun i => ("  " : String) ++ i.printout ++ ("\n" : String))

/-- The line with the configuration, without its end. -/
def Config.text (c : Config) : String :=
  s!"config {c.generation.name} wave={c.waveSize.toNat} workgroup={c.workgroupSize.toNat}"
    ++ (if c.wgpMode then " wgp" else "")
    ++ (if c.sramEcc then " sram_ecc" else "")
    ++ s!" vgprs={c.numVgprs.toNat} physical_vgprs={c.physicalVgprs.toNat}"
    ++ s!" max_waves={c.maxWavesPerSimd.toNat}"

namespace Program

/-- The lines of a program. -/
def printout (p : Program) : Printout :=
  (p.config.text ++ "\n" : String)
    ++ (if p.pendingLds then "pending_lds\n" else "" : String)
    ++ .concat (p.pendingVmem.map fun r =>
      ("pending_vmem " : String) ++ .ofExcept r.text ++ ("\n" : String))
    ++ .concat (p.blocks.map Block.printout)

/-- The text of a program. -/
def text (p : Program) : Except Fault String := p.printout.finish

end Program

end GpuWaits

/-
# Valid programs

The insertion of waits relies on rules that a program has to keep: register ranges lie inside one
register file, instructions have the operands that their payload calls for, predecessors exist, back
edges lead to loop headers, and headers and exits bracket the loops.  `Program.validate` finds the
first rule that is broken.
-/
import GpuWaits.Access
import GpuWaits.Text.Number

namespace GpuWaits

/-- What is wrong with an instruction. -/
inductive InstructionDefect where
  | operandRange
  | definitionRange
  | exportTarget (dest : UInt8)
  | exportMask (enabled : UInt8)
  | exportData
  | notOneDefinition
  | noAddress
  | unexpectedOperands
deriving DecidableEq

/-- What is wrong with a program. -/
inductive Defect where
  | waveSize (size : UInt32)
  | argument (name : String)
  | blockIndex (place : Nat) (index : UInt32)
  | entryPreds
  | unreachable (block : Nat)
  | predOutOfRange (block pred : UInt32)
  | predTwice (block pred : UInt32)
  | backEdge (block pred : UInt32)
  | noBackEdge (header : Nat)
  | exitOutsideLoop (exit : Nat)
  | exitDepth (exit : Nat) (depth header headerDepth : UInt32)
  | wrongDepth (block : Nat) (depth : UInt32) (loops : Nat)
  | instruction (block : UInt32) (place : Nat) (opcode : Opcode) (defect : InstructionDefect)
  | neverExited (header : UInt32)
deriving DecidableEq

namespace InstructionDefect

/-- The text of a defect. -/
def message : InstructionDefect → String
  | .operandRange => "invalid operand register range"
  | .definitionRange => "invalid definition register range"
  | .exportTarget dest => s!"unknown export destination {dest.toNat}"
  | .exportMask enabled => "invalid export mask " ++ Number.hex enabled.toNat
  | .exportData => "missing export data"
  | .notOneDefinition => "expected a single definition"
  | .noAddress => "memory access without an address"
  | .unexpectedOperands => "unexpected operands"

end InstructionDefect

namespace Defect

/-- The text of a defect. -/
def message : Defect → String
  | .waveSize size => s!"invalid wave size {size.toNat}"
  | .argument name => s!"argument {name} is not a vector register range"
  | .blockIndex place index => s!"block at position {place} has index {index.toNat}"
  | .entryPreds => "the entry block has predecessors"
  | .unreachable block => s!"block {block} is unreachable"
  | .predOutOfRange block pred =>
    s!"block {block.toNat}: predecessor {pred.toNat} out of range"
  | .predTwice block pred => s!"block {block.toNat}: duplicate predecessor {pred.toNat}"
  | .backEdge block pred =>
    s!"block {block.toNat}: back edge from block {pred.toNat} into a block that is not a loop header"
  | .noBackEdge header => s!"loop header {header} has no back edge"
  | .exitOutsideLoop exit => s!"loop exit {exit} outside of any loop"
  | .exitDepth exit depth header headerDepth =>
    s!"loop exit {exit} at depth {depth.toNat} closes header {header.toNat}"
      ++ s!" at depth {headerDepth.toNat}"
  | .wrongDepth block depth loops =>
    s!"block {block} has depth {depth.toNat}, but is inside {loops} loops"
  | .instruction block place opcode defect =>
    s!"block {block.toNat} instruction {place} ({opcode.mnemonic}): {defect.message}"
  | .neverExited header => s!"loop header {header.toNat} is never exited"

end Defect

/-- Why a program is not accepted. -/
inductive Rejection where
  /-- The program breaks a rule. -/
  | defect (defect : Defect)
  /-- The program cannot be looked at. -/
  | fault (fault : Fault)
deriving DecidableEq

/-- The range has between one and 32 units, all in one register file. -/
def RegRange.isValid (r : RegRange) : Bool :=
  let last := r.first.unit.toNat + r.size.toNat - 1
  1 ≤ r.size && r.size ≤ 32 && decide (last < Reg.fileSize)
    && r.first.isVector == decide (256 ≤ last)

/-- The registers of the operand form a valid range; other operands are always valid. -/
def Operand.isValid : Operand → Bool
  | .reg range => range.isValid
  | .const _ | .undef => true

namespace Instruction

/-- The payload finds the operands and definitions that it calls for. -/
def payloadDefect? (i : Instruction) : Option InstructionDefect :=
  match i.payload with
  | .exp data =>
    if !Export.isTarget data.dest then some (.exportTarget data.dest)
    else if 0xf < data.enabled then some (.exportMask data.enabled)
    else if i.operands.length < (if data.compressed then 2 else 4) then some .exportData
    else none
  | .ldsDir _ | .interp _ => if i.definitions.length ≠ 1 then some .notOneDefinition else none
  | .smem _ | .vmem _ | .flat _ | .ds _ => if i.operands.isEmpty then some .noAddress else none
  | .wait _ | .dependencyWait _ | .barrier _ =>
    if i.operands.isEmpty && i.definitions.isEmpty then none else some .unexpectedOperands
  | .salu | .sopp _ | .valu => none

/-- The first thing that is wrong with an instruction. -/
def defect? (i : Instruction) : Option InstructionDefect :=
  if !i.operands.all Operand.isValid then some .operandRange
  else if !i.definitions.all RegRange.isValid then some .definitionRange
  else i.payloadDefect?

end Instruction

namespace Block

/-- The first thing that is wrong with a list of predecessors, where `seen` are those before it. -/
def predsDefect? (b : Block) (count : Nat) : List UInt32 → List UInt32 → Option Defect
  | _, [] => none
  | seen, pred :: rest =>
    if count ≤ pred.toNat then some (.predOutOfRange b.index pred)
    else if seen.contains pred then some (.predTwice b.index pred)
    else if b.index ≤ pred ∧ .loopHeader ∉ b.kind then some (.backEdge b.index pred)
    else predsDefect? b count (pred :: seen) rest

/-- The first thing that is wrong with the edges into the block at the place `place`. -/
def edgesDefect? (b : Block) (count place : Nat) : Option Defect :=
  if b.index.toNat ≠ place then some (.blockIndex place b.index)
  else if place = 0 ∧ !(b.linearPreds.isEmpty && b.logicalPreds.isEmpty) then some .entryPreds
  else if 0 < place ∧ b.linearPreds.isEmpty then some (.unreachable place)
  else (predsDefect? b count [] b.linearPreds).or (predsDefect? b count [] b.logicalPreds)

/-- The headers of the open loops, innermost first, once the block at the place `place` has been
entered. -/
def openLoops (b : Block) (place : Nat) (headers : List Block) : Except Rejection (List Block) :=
  if .loopHeader ∈ b.kind then
    if b.linearPreds.any fun pred => b.index ≤ pred then .ok (b :: headers)
    else .error (.defect (.noBackEdge place))
  else if .loopExit ∈ b.kind then
    match headers with
    | [] => .error (.defect (.exitOutsideLoop place))
    | header :: rest =>
      if b.loopDepth.toNat + 1 = UInt32.size then .error (.fault .overflow)
      else if header.loopDepth.toNat ≠ b.loopDepth.toNat + 1 then
        .error (.defect (.exitDepth place b.loopDepth header.index header.loopDepth))
      else .ok rest
  else .ok headers

/-- The first defect of an instruction, with its place. -/
def instructionDefect? (b : Block) : Option Defect :=
  b.instructions.zipIdx.findSome? fun (i, place) =>
    i.defect?.map fun defect => .instruction b.index place i.opcode defect

/-- Rejects with a defect, if there is one. -/
def reject : Option Defect → Except Rejection Unit
  | some defect => .error (.defect defect)
  | none => .ok ()

/-- Checks the block at the place `place`.  Gives the headers of the loops that are open in it. -/
def validate (b : Block) (count place : Nat) (headers : List Block) :
    Except Rejection (List Block) := do
  reject (b.edgesDefect? count place)
  let headers ← b.openLoops place headers
  if b.loopDepth.toNat ≠ headers.length then
    throw (.defect (.wrongDepth place b.loopDepth headers.length))
  reject b.instructionDefect?
  return headers

end Block

namespace Program

/-- Checks an argument that is still being loaded when the program starts. -/
def validateArgument (r : RegRange) : Except Rejection Unit :=
  if r.first.isVector && r.isValid then .ok ()
  else match r.text with
    | .ok name => .error (.defect (.argument name))
    | .error fault => .error (.fault fault)

/-- Accepts a program that keeps all rules, and rejects any other with the first defect. -/
def validate (p : Program) : Except Rejection Unit := do
  if p.config.waveSize ≠ 32 ∧ p.config.waveSize ≠ 64 then
    throw (.defect (.waveSize p.config.waveSize))
  p.pendingVmem.forM validateArgument
  let headers ← p.blocks.zipIdx.foldlM
    (fun headers (b, place) => b.validate p.blocks.length place headers) []
  match headers with
  | header :: _ => throw (.defect (.neverExited header.index))
  | [] => return

end Program

end GpuWaits

/-
# Instructions for sample programs

Short names for instructions with the operands that sample programs use.
-/
import GpuWaits.Program

namespace GpuWaits

namespace Sample

/-- Scalar register `n`. -/
def s (n : UInt16) : Reg := .sgpr n

/-- Vector register `n`. -/
def v (n : UInt16) : Reg := .vgpr n

/-- A register as an operand. -/
def one (r : Reg) : Operand := .reg ⟨r, 1⟩

/-- Several registers as an operand. -/
def many (r : Reg) (size : UInt8) : Operand := .reg ⟨r, size⟩

/-- A vector operation: a move of one source or a sum of several. -/
def vectorOp (dst : Reg) (sources : List Reg) : Instruction where
  opcode := if sources.length = 1 then .vMovB32 else .vAddF32
  definitions := [⟨dst, 1⟩]
  operands := sources.map one
  payload := .valu

/-- A scalar operation: a move of one source or a sum of several. -/
def scalarOp (dst : Reg) (sources : List Reg) : Instruction where
  opcode := if sources.length = 1 then .sMovB32 else .sAddU32
  definitions := [⟨dst, 1⟩]
  operands := sources.map one
  payload := .salu

/-- A buffer load through the descriptor in the first four scalar registers. -/
def bufferLoad (dst address : Reg) : Instruction where
  opcode := .bufferLoadDword
  definitions := [⟨dst, 1⟩]
  operands := [many (s 0) 4, one address, .const 0]
  payload := .vmem { storage := {.buffer} }

/-- A buffer store through the same descriptor. -/
def bufferStore (address data : Reg) (sync : Sync := { storage := {.buffer} }) : Instruction where
  opcode := .bufferStoreDword
  definitions := []
  operands := [many (s 0) 4, one address, .const 0, one data]
  payload := .vmem sync

/-- A load from the address in a pair of vector registers. -/
def globalLoad (dst address : Reg) : Instruction where
  opcode := .globalLoadDword
  definitions := [⟨dst, 1⟩]
  operands := [many address 2, .undef]
  payload := .flat { sync := { storage := {.buffer} } }

/-- A store to the address in a pair of vector registers. -/
def globalStore (address data : Reg) (sync : Sync) : Instruction where
  opcode := .globalStoreDword
  definitions := []
  operands := [many address 2, .undef, one data]
  payload := .flat { sync }

/-- An image sample of four components. -/
def imageSample (dst coordinates : Reg) : Instruction where
  opcode := .imageSample
  definitions := [⟨dst, 4⟩]
  operands := [many (s 8) 8, many (s 16) 4, .undef, many coordinates 2]
  payload := .vmem { storage := {.image} }

/-- A scalar load from the address in a pair of scalar registers. -/
def scalarLoad (dst base : Reg) (offset : UInt32) : Instruction where
  opcode := .sLoadDword
  definitions := [⟨dst, 1⟩]
  operands := [many base 2, .const offset]
  payload := .smem { storage := {.buffer} }

/-- A load from shared memory. -/
def sharedLoad (dst address : Reg) : Instruction where
  opcode := .dsReadB32
  definitions := [⟨dst, 1⟩]
  operands := [one address]
  payload := .ds { sync := { storage := {.shared} } }

/-- A store to shared memory. -/
def sharedStore (address data : Reg) : Instruction where
  opcode := .dsWriteB32
  definitions := []
  operands := [one address, one data]
  payload := .ds { sync := { storage := {.shared} } }

/-- An export of one component. -/
def exportOne (dest : UInt8) (data : Reg) : Instruction where
  opcode := .exp
  definitions := []
  operands := [one data, .undef, .undef, .undef]
  payload := .exp { dest, enabled := 1, compressed := false }

/-- A barrier that the program asks for, at which the workgroup meets. -/
def askBarrier (storage : StorageSet) (scope : Scope) : Instruction where
  opcode := .pBarrier
  definitions := []
  operands := []
  payload := .barrier
    { sync := { storage, semantics := .acquireRelease, scope }, execScope := .workgroup }

/-- The machine barrier. -/
def barrier : Instruction := .ofImmediate .sBarrier 0

/-- The end of the program. -/
def endProgram : Instruction := .ofImmediate .sEndpgm 0

/-- A branch. -/
def branch : Instruction := .ofImmediate .sBranch 0

/-- The synchronization of a private access of scratch memory. -/
def scratchSync : Sync := { storage := {.scratch}, semantics := {.unshared} }

/-- A block with the same linear and logical predecessors. -/
def block (index : Nat) (kind : BlockKind) (preds : List Nat) (depth : Nat)
    (instructions : List Instruction) : Block where
  index := .ofNat index
  kind := kind
  linearPreds := preds.map .ofNat
  logicalPreds := preds.map .ofNat
  loopDepth := .ofNat depth
  instructions := instructions

/-- A block outside of loops whose linear and logical predecessors differ. -/
def divergent (index : Nat) (kind : BlockKind) (linear logical : List Nat)
    (instructions : List Instruction) : Block where
  index := .ofNat index
  kind := kind
  linearPreds := linear.map .ofNat
  logicalPreds := logical.map .ofNat
  instructions := instructions

end Sample

end GpuWaits

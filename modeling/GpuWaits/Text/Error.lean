/-
# The textual format: errors

Why a text is not a program.  The wording of every error stands in `ParseError.message`.
-/
import GpuWaits.Opcode

namespace GpuWaits

/-- What is wrong with a line. -/
inductive Misreading where
  | expectedSign (sign : Char)
  | expectedWord
  | trailingInput
  | expectedInteger (word : String)
  | outOfRange (value : UInt32)
  | expectedRegister (word : String)
  | invalidRange (word : String)
  | unknownName (name : String)
  | unknownScope (name : String)
  | unknownCounter (name : String)
  | invalidDependency (name : String)
  | exportWithoutDest
  | unexpectedAttribute (key : String) (opcode : Opcode)
  | unknownOpcode (name : String)
  | unknownGeneration (name : String)
  | unknownConfigKey (key : String)
  | invalidWaveSize
  | wrongBlock (expected : Nat) (found : UInt32)
  | unknownBlockAttribute (key : String)
  | outsideBlock
deriving DecidableEq

namespace Misreading

/-- The text of an error. -/
def message : Misreading → String
  | .expectedSign sign => s!"expected char '{sign}'"
  | .expectedWord => "expected a word"
  | .trailingInput => "unexpected trailing input"
  | .expectedInteger word => s!"expected an integer, found '{word}'"
  | .outOfRange value => s!"value {value.toNat} out of range"
  | .expectedRegister word => s!"expected a register, found '{word}'"
  | .invalidRange word => s!"invalid register range '{word}'"
  | .unknownName name => s!"unknown name '{name}'"
  | .unknownScope name => s!"unknown scope '{name}'"
  | .unknownCounter name => s!"unknown counter '{name}'"
  | .invalidDependency name => s!"invalid dependency counter '{name}'"
  | .exportWithoutDest => "export without dest"
  | .unexpectedAttribute key opcode => s!"unexpected attribute '{key}' for {opcode.mnemonic}"
  | .unknownOpcode name => s!"unknown opcode '{name}'"
  | .unknownGeneration name => s!"unknown hardware generation '{name}'"
  | .unknownConfigKey key => s!"unknown config key '{key}'"
  | .invalidWaveSize => "wave size must be 32 or 64"
  | .wrongBlock expected found => s!"expected block {expected}, found block {found.toNat}"
  | .unknownBlockAttribute key => s!"unknown block attribute '{key}'"
  | .outsideBlock => "instruction outside of a block"

end Misreading

/-- A line that cannot be read; the first line is number one. -/
structure ParseError where
  line : Nat
  cause : Misreading
deriving DecidableEq

/-- The text of an error. -/
def ParseError.message (e : ParseError) : String := s!"error at line {e.line}: {e.cause.message}"

end GpuWaits

/-
# The setting of a run

What every step of one run over a program looks at and none changes.
-/
import GpuWaits.Program

namespace GpuWaits

/-- The parameters of a run. -/
structure Setting where
  config : Config
  /-- Drain every counter before each instruction. -/
  drainAll : Bool := false
deriving DecidableEq

namespace Setting

/-- The generation of the hardware. -/
def generation (s : Setting) : Generation := s.config.generation

end Setting

end GpuWaits

/-
# Hardware generations

What a wait may ask for, and which operations complete in order, changed from one generation of
the hardware to the next.  Generations are compared by age: `.gfx10 ≤ g` reads "`g` is at least
as recent as gfx10".
-/

namespace GpuWaits

/-- A hardware generation, oldest first. -/
inductive Generation where
  | gfx6
  | gfx7
  | gfx8
  | gfx9
  | gfx10
  | gfx10_3
  | gfx11
  | gfx11_5
  | gfx12
deriving DecidableEq, Repr

namespace Generation

/-- Every generation, oldest first. -/
def all : List Generation :=
  [.gfx6, .gfx7, .gfx8, .gfx9, .gfx10, .gfx10_3, .gfx11, .gfx11_5, .gfx12]

/-- The place of a generation in the order of release. -/
def age : Generation → Nat
  | .gfx6 => 0
  | .gfx7 => 1
  | .gfx8 => 2
  | .gfx9 => 3
  | .gfx10 => 4
  | .gfx10_3 => 5
  | .gfx11 => 6
  | .gfx11_5 => 7
  | .gfx12 => 8

instance : LE Generation := ⟨fun a b => a.age ≤ b.age⟩

instance : LT Generation := ⟨fun a b => a.age < b.age⟩

instance (a b : Generation) : Decidable (a ≤ b) := inferInstanceAs (Decidable (a.age ≤ b.age))

instance (a b : Generation) : Decidable (a < b) := inferInstanceAs (Decidable (a.age < b.age))

/-- The name of a generation in the textual format. -/
def name : Generation → String
  | .gfx6 => "gfx6"
  | .gfx7 => "gfx7"
  | .gfx8 => "gfx8"
  | .gfx9 => "gfx9"
  | .gfx10 => "gfx10"
  | .gfx10_3 => "gfx10.3"
  | .gfx11 => "gfx11"
  | .gfx11_5 => "gfx11.5"
  | .gfx12 => "gfx12"

/-- The generation with a given name. -/
def ofName? (name : String) : Option Generation := all.find? fun g => g.name == name

theorem mem_all (g : Generation) : g ∈ all := by cases g <;> decide

end Generation

end GpuWaits

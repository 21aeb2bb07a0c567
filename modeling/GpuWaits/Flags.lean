/-
# Sets of flags

Storage classes, block kinds, events and counters are small enumerations, and machine code
stores a set of them as a word in which every member owns one bit.  `Flags α w` is such a word
of `w` bits, read as a set: `a ∈ s` looks at the bit that `a` owns.  A word may also have bits
that belong to no member.  They are kept, so that a word that came out of an image goes back
unchanged, but nothing is named after them.
-/

namespace GpuWaits

/-- An enumeration whose members own the low bits of a word. -/
class Flag (α : Type) where
  /-- Every member, lowest bit first. -/
  members : List α
  /-- The bit that a member owns. -/
  bit : α → Nat
  /-- The name of a member in the textual format. -/
  label : α → String

/-- The member whose name is `name`. -/
def Flag.ofLabel? {α : Type} [Flag α] (name : String) : Option α :=
  (Flag.members : List α).find? fun a => Flag.label a == name

/-- A set of flags, stored as a word of `w` bits. -/
structure Flags (α : Type) (w : Nat) where
  /-- The word. -/
  bits : BitVec w
deriving DecidableEq

namespace Flags

variable {α : Type} {w : Nat}

instance : EmptyCollection (Flags α w) := ⟨⟨0#w⟩⟩

instance : Inhabited (Flags α w) := ⟨∅⟩

instance : Union (Flags α w) := ⟨fun s t => ⟨s.bits ||| t.bits⟩⟩

instance : Inter (Flags α w) := ⟨fun s t => ⟨s.bits &&& t.bits⟩⟩

instance : SDiff (Flags α w) := ⟨fun s t => ⟨s.bits &&& ~~~t.bits⟩⟩

/-- The word as a number, for printing. -/
def toNat (s : Flags α w) : Nat := s.bits.toNat

/-- The set that a word stands for; bits past the width are dropped. -/
def ofNat (n : Nat) : Flags α w := ⟨BitVec.ofNat w n⟩

/-- No bit is set, named or not. -/
def isEmpty (s : Flags α w) : Bool := s.bits == 0#w

/-- Some bit of `t` is missing in `s`, so that joining `t` would make `s` larger. -/
def lacks (s t : Flags α w) : Bool := !(t \ s).isEmpty

variable [Flag α]

instance : Singleton α (Flags α w) := ⟨fun a => ⟨BitVec.twoPow w (Flag.bit a)⟩⟩

instance : Membership α (Flags α w) := ⟨fun s a => s.bits.getLsbD (Flag.bit a) = true⟩

instance (a : α) (s : Flags α w) : Decidable (a ∈ s) :=
  inferInstanceAs (Decidable (s.bits.getLsbD (Flag.bit a) = true))

/-- The members of a list, as a set. -/
def ofList (l : List α) : Flags α w := l.foldl (fun s a => s ∪ {a}) ∅

/-- The named members of a set, lowest bit first. -/
def toList (s : Flags α w) : List α := Flag.members.filter fun a => decide (a ∈ s)

/-- The names of the members of a set, lowest bit first. -/
def labels (s : Flags α w) : List String := s.toList.map Flag.label

/-- Two sets have a named member in common. -/
def meets (s t : Flags α w) : Bool := !(s ∩ t).isEmpty

/-! ### Membership -/

theorem mem_def (a : α) (s : Flags α w) : a ∈ s ↔ s.bits.getLsbD (Flag.bit a) = true := Iff.rfl

@[simp] theorem not_mem_empty (a : α) : a ∉ (∅ : Flags α w) := by
  simp [mem_def, EmptyCollection.emptyCollection]

@[simp] theorem mem_union (a : α) (s t : Flags α w) : a ∈ s ∪ t ↔ a ∈ s ∨ a ∈ t := by
  simp [mem_def, Union.union]

@[simp] theorem mem_inter (a : α) (s t : Flags α w) : a ∈ s ∩ t ↔ a ∈ s ∧ a ∈ t := by
  simp [mem_def, Inter.inter]

@[simp] theorem mem_sdiff (a : α) (s t : Flags α w) : a ∈ s \ t ↔ a ∈ s ∧ a ∉ t := by
  simp only [mem_def, SDiff.sdiff, BitVec.getLsbD_and, BitVec.getLsbD_not, Bool.and_eq_true,
    decide_eq_true_eq, Bool.not_eq_true', Bool.not_eq_true]
  exact ⟨fun h => ⟨h.1, h.2.2⟩, fun h => ⟨h.1, BitVec.lt_of_getLsbD h.1, h.2⟩⟩

end Flags

end GpuWaits

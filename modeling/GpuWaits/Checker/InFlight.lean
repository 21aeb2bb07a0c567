/-
# Accesses in flight

The checker follows every asynchronous access of a register unit by itself.  An access is told by
the instruction that started it, the unit and the event, and it is in flight until a wait on its
counter allows no more operations than have issued behind it.
-/
import GpuWaits.Hardware
import GpuWaits.Register
import Std.Data.ExtTreeMap

namespace GpuWaits

/-- Where an access starts. -/
inductive Place where
  /-- Before the program, on behalf of an argument. -/
  | argument (index : Nat)
  /-- At an instruction, given by its block and its place in the block. -/
  | code (block index : Nat)
deriving DecidableEq, Repr

namespace Place

/-- The number of the block in the order of places; arguments come first. -/
def blockRank : Place → Nat
  | .argument _ => 0
  | .code block _ => block + 1

/-- The number within the block, or of the argument. -/
def index : Place → Nat
  | .argument index => index
  | .code _ index => index

/-- A place in words. -/
def text : Place → String
  | .argument index => s!"argument {index}"
  | .code block index => s!"block {block} instruction {index}"

theorem ext_rank {p q : Place} (hb : p.blockRank = q.blockRank) (hi : p.index = q.index) :
    p = q := by
  cases p <;> cases q <;> simp_all [blockRank, index]

end Place

/-- What tells an access from others. -/
structure AccessKey where
  /-- Where it started. -/
  origin : Place
  unit : Reg
  event : Event
deriving DecidableEq

namespace AccessKey

instance : Ord AccessKey where
  compare :=
    compareLex (compareOn fun k => k.origin.blockRank)
      (compareLex (compareOn fun k => k.origin.index)
        (compareLex (compareOn AccessKey.unit) (compareOn fun k => k.event.bit)))

instance : Std.TransOrd AccessKey :=
  inferInstanceAs (Std.TransCmp
    (compareLex (compareOn fun k : AccessKey => k.origin.blockRank)
      (compareLex (compareOn fun k => k.origin.index)
        (compareLex (compareOn AccessKey.unit) (compareOn fun k => k.event.bit)))))

instance : Std.LawfulEqOrd AccessKey where
  eq_of_compare {a b} h := by
    obtain ⟨hb, hi, hu, he⟩ := by
      simpa only [compare, compareLex_eq_eq] using h
    cases a
    cases b
    congr
    · exact Place.ext_rank (Std.LawfulEqOrd.eq_of_compare hb) (Std.LawfulEqOrd.eq_of_compare hi)
    · exact Std.LawfulEqOrd.eq_of_compare hu
    · exact Event.bit_injective (Std.LawfulEqOrd.eq_of_compare he)

end AccessKey

/-- An access in flight. -/
structure InFlight where
  /-- The access writes the unit. -/
  write : Bool
  /-- The counter that falls when it completes. -/
  counter : Counter
  /-- The number of operations that issued behind it and complete after it. -/
  younger : UInt16
  /-- The access completes in order.  One that does not is complete only when the counter has
  drained. -/
  ordered : Bool
  /-- The access may touch the lanes of the current logical path. -/
  lanes : Bool
deriving DecidableEq

/-- The accesses in flight at a point of the program. -/
abbrev Pending := Std.ExtTreeMap AccessKey InFlight

namespace Pending

/-- The accesses of both states, each with the smaller number of younger operations.  Of `other`
only those that `accepts` accepts come in, and their lanes only if `lanes` holds. -/
def meet (p other : Pending) (lanes : Bool) (accepts : AccessKey → Bool) : Pending :=
  (other.filter fun k _ => accepts k).map (fun _ a => { a with lanes := lanes && a.lanes }) ∪
    p.map fun k a => match other[k]? with
      | some o =>
        if accepts k then
          { a with younger := min a.younger o.younger, lanes := a.lanes || lanes && o.lanes }
        else a
      | none => a

/-- The accesses of `p`, with the lanes that `other` gives them. -/
def takeLanes (p other : Pending) : Pending :=
  p.map fun k a => match other[k]? with
    | some o => { a with lanes := a.lanes || o.lanes }
    | none => a

/-- What is in flight after a wait. -/
def wait (p : Pending) (w : Wait) : Pending :=
  p.filter fun _ a => !(w.isSet a.counter && w.get a.counter ≤ a.younger)

/-- What is in flight after an event has issued. -/
def issue (p : Pending) (g : Generation) (event : Event) (ordered : Bool) : Pending :=
  if ordered then
    p.map fun k a =>
      if k.event = event ∧ a.ordered then { a with younger := g.oneMore a.counter a.younger } else a
  else p

/-- What is in flight after one more access has started. -/
def start (p : Pending) (g : Generation) (key : AccessKey) (write ordered : Bool) :
    Except Fault Pending := do
  let counter ← g.counterOf key.event
  return p.insert key { write, counter, younger := 0, ordered, lanes := true }

end Pending

end GpuWaits

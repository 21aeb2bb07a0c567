/-
# Waits

A wait asks every counter to fall to its target before the next instruction issues.  Targets are
16-bit words, and the largest word asks for nothing: a counter never holds more, so `unset` is
simply the weakest target.  With this reading the wait that satisfies two demands is the
slot-wise minimum, and a wait that asks for nothing is its neutral element.
-/
import GpuWaits.Counter

namespace GpuWaits

/-- One target per counter. -/
structure Wait where
  exp : UInt16
  lgkm : UInt16
  vm : UInt16
  vs : UInt16
  sample : UInt16
  bvh : UInt16
  km : UInt16
deriving DecidableEq

namespace Wait

/-- The target that asks for nothing. -/
def unset : UInt16 := 0xffff

/-- The wait with the targets that `f` gives. -/
def ofFn (f : Counter → UInt16) : Wait :=
  ⟨f .exp, f .lgkm, f .vm, f .vs, f .sample, f .bvh, f .km⟩

/-- The target of a counter. -/
def get (w : Wait) : Counter → UInt16
  | .exp => w.exp
  | .lgkm => w.lgkm
  | .vm => w.vm
  | .vs => w.vs
  | .sample => w.sample
  | .bvh => w.bvh
  | .km => w.km

/-- The wait that asks for nothing. -/
def none : Wait := ofFn fun _ => unset

instance : Inhabited Wait := ⟨none⟩

/-- The wait `w` with another target for the counter `c`. -/
def set (w : Wait) (c : Counter) (target : UInt16) : Wait :=
  ofFn fun d => if d = c then target else w.get d

/-- The wait `w` without its target for the counter `c`. -/
def clear (w : Wait) (c : Counter) : Wait := w.set c unset

/-- A wait on a single counter. -/
def single (c : Counter) (target : UInt16) : Wait := none.set c target

/-- The wait for every counter of a set to drain. -/
def drain (cs : CounterSet) : Wait := ofFn fun c => if c ∈ cs then 0 else unset

/-- The targets of the counters of a set, and no others. -/
def only (w : Wait) (cs : CounterSet) : Wait := ofFn fun c => if c ∈ cs then w.get c else unset

/-- The wait that satisfies both demands. -/
def both (v w : Wait) : Wait := ofFn fun c => min (v.get c) (w.get c)

/-- The wait that satisfies every demand of a list. -/
def allOf (ws : List Wait) : Wait := ws.foldl both none

/-- Whether `w` asks for more than `v` on some counter. -/
def exceeds (w v : Wait) : Bool := Counter.all.any fun c => w.get c < v.get c

/-- Whether the wait has a target for the counter `c`. -/
def isSet (w : Wait) (c : Counter) : Bool := w.get c != unset

/-- Whether the wait asks for nothing. -/
def isNone (w : Wait) : Bool := Counter.all.all fun c => w.get c == unset

/-- The targets that are set, in slot order. -/
def targets (w : Wait) : List (Counter × UInt16) :=
  (Counter.all.filter w.isSet).map fun c => (c, w.get c)

/-- The targets in slot order, each with the name of its counter. -/
def text (w : Wait) : String :=
  " ".intercalate (w.targets.map fun (c, target) => c.name ++ "=" ++ toString target.toNat)

/-- The targets between braces. -/
def braced (w : Wait) : String := "\x7b" ++ w.text ++ "\x7d"

/-! ### Slots -/

@[simp] theorem get_ofFn (f : Counter → UInt16) (c : Counter) : (ofFn f).get c = f c := by
  cases c <;> rfl

theorem ext_get {v w : Wait} (h : ∀ c, v.get c = w.get c) : v = w := by
  cases v
  cases w
  simp only [Wait.mk.injEq]
  exact ⟨h .exp, h .lgkm, h .vm, h .vs, h .sample, h .bvh, h .km⟩

@[simp] theorem get_none (c : Counter) : none.get c = unset := get_ofFn _ c

@[simp] theorem get_set (w : Wait) (c d : Counter) (target : UInt16) :
    (w.set c target).get d = if d = c then target else w.get d := get_ofFn _ d

@[simp] theorem get_clear (w : Wait) (c d : Counter) :
    (w.clear c).get d = if d = c then unset else w.get d := get_ofFn _ d

@[simp] theorem get_drain (cs : CounterSet) (c : Counter) :
    (drain cs).get c = if c ∈ cs then 0 else unset := get_ofFn _ c

@[simp] theorem get_only (w : Wait) (cs : CounterSet) (c : Counter) :
    (w.only cs).get c = if c ∈ cs then w.get c else unset := get_ofFn _ c

@[simp] theorem get_both (v w : Wait) (c : Counter) :
    (v.both w).get c = min (v.get c) (w.get c) := get_ofFn _ c

end Wait

end GpuWaits

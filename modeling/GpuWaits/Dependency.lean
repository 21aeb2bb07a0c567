/-
# Dependency waits

Beside the wait counters the hardware has seven small dependency counters, which an instruction
of their own waits for.  Its 16-bit operand gives each of them a field of bits; a field whose
bits are all set asks for nothing.
-/

namespace GpuWaits

/-- A dependency counter. -/
inductive Dependency where
  | vaVdst
  | vaSdst
  | vaSsrc
  | holdCnt
  | vmVsrc
  | vaVcc
  | saSdst
deriving DecidableEq, Repr

namespace Dependency

/-- Every dependency counter, in the order of the fields. -/
def all : List Dependency := [.vaVdst, .vaSdst, .vaSsrc, .holdCnt, .vmVsrc, .vaVcc, .saSdst]

/-- The name of a dependency counter in the textual format. -/
def name : Dependency → String
  | .vaVdst => "va_vdst"
  | .vaSdst => "va_sdst"
  | .vaSsrc => "va_ssrc"
  | .holdCnt => "hold_cnt"
  | .vmVsrc => "vm_vsrc"
  | .vaVcc => "va_vcc"
  | .saSdst => "sa_sdst"

/-- What the lowest bit of the field counts in the operand. -/
def unit : Dependency → Nat
  | .vaVdst => 0x1000
  | .vaSdst => 0x200
  | .vaSsrc => 0x100
  | .holdCnt => 0x80
  | .vmVsrc => 4
  | .vaVcc => 2
  | .saSdst => 1

/-- The largest value of the field, which asks for nothing.  Fields have four, three or one bits. -/
def limit : Dependency → Nat
  | .vaVdst => 15
  | .vaSdst => 7
  | .vaSsrc => 1
  | .holdCnt => 1
  | .vmVsrc => 7
  | .vaVcc => 1
  | .saSdst => 1

end Dependency

/-- One target per dependency counter. -/
structure DependencyWait where
  vaVdst : UInt8
  vaSdst : UInt8
  vaSsrc : UInt8
  holdCnt : UInt8
  vmVsrc : UInt8
  vaVcc : UInt8
  saSdst : UInt8
deriving DecidableEq

namespace DependencyWait

/-- The wait with the targets that `f` gives. -/
def ofFn (f : Dependency → UInt8) : DependencyWait :=
  ⟨f .vaVdst, f .vaSdst, f .vaSsrc, f .holdCnt, f .vmVsrc, f .vaVcc, f .saSdst⟩

/-- The target of a dependency counter. -/
def get (w : DependencyWait) : Dependency → UInt8
  | .vaVdst => w.vaVdst
  | .vaSdst => w.vaSdst
  | .vaSsrc => w.vaSsrc
  | .holdCnt => w.holdCnt
  | .vmVsrc => w.vmVsrc
  | .vaVcc => w.vaVcc
  | .saSdst => w.saSdst

/-- The wait that asks for nothing. -/
def none : DependencyWait := ofFn fun d => UInt8.ofNat d.limit

instance : Inhabited DependencyWait := ⟨none⟩

/-- The wait `w` with another target for the counter `d`. -/
def set (w : DependencyWait) (d : Dependency) (target : UInt8) : DependencyWait :=
  ofFn fun e => if e = d then target else w.get e

/-- The wait `w` with a target for the counter named `name`, if there is such a counter and the
target fits its field. -/
def setByName? (w : DependencyWait) (name : String) (target : UInt8) : Option DependencyWait := do
  let d ← Dependency.all.find? fun d => d.name == name
  if target.toNat ≤ d.limit then some (w.set d target) else Option.none

/-- The wait that satisfies both demands. -/
def both (v w : DependencyWait) : DependencyWait := ofFn fun d => min (v.get d) (w.get d)

/-- Whether `w` asks for more than `v` on some counter. -/
def exceeds (w v : DependencyWait) : Bool := Dependency.all.any fun d => w.get d < v.get d

/-- Whether the wait asks for nothing. -/
def isNone (w : DependencyWait) : Bool := w == none

/-- The operand that stands for the wait; bits that belong to no field are set. -/
def pack (w : DependencyWait) : UInt16 :=
  Dependency.all.foldl
    (fun word d => word ||| UInt16.ofNat ((w.get d).toNat % (d.limit + 1) * d.unit)) 0x0060

/-- The wait that an operand stands for. -/
def unpack (word : UInt16) : DependencyWait :=
  ofFn fun d => UInt8.ofNat (word.toNat / d.unit % (d.limit + 1))

/-- The targets that ask for something, in the order of the fields. -/
def text (w : DependencyWait) : String :=
  " ".intercalate <|
    (Dependency.all.filter fun d => (w.get d).toNat < d.limit).map fun d =>
      d.name ++ "=" ++ toString (w.get d).toNat

/-! ### Fields -/

@[simp] theorem get_ofFn (f : Dependency → UInt8) (d : Dependency) : (ofFn f).get d = f d := by
  cases d <;> rfl

theorem ext_get {v w : DependencyWait} (h : ∀ d, v.get d = w.get d) : v = w := by
  cases v
  cases w
  simp only [DependencyWait.mk.injEq]
  exact ⟨h .vaVdst, h .vaSdst, h .vaSsrc, h .holdCnt, h .vmVsrc, h .vaVcc, h .saSdst⟩

@[simp] theorem get_set (w : DependencyWait) (d e : Dependency) (target : UInt8) :
    (w.set d target).get e = if e = d then target else w.get e := get_ofFn _ e

@[simp] theorem get_both (v w : DependencyWait) (d : Dependency) :
    (v.both w).get d = min (v.get d) (w.get d) := get_ofFn _ d

end DependencyWait

end GpuWaits

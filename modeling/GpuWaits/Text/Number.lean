/-
# Numbers in text

Numbers are written in decimal, masks in hexadecimal behind `0x`.  Both forms are read back, and
a number that does not fit 32 bits is not read at all.
-/

namespace GpuWaits

namespace Number

/-- A number in lower-case hexadecimal behind `0x`. -/
def hex (n : Nat) : String := "0x" ++ String.ofList (Nat.toDigits 16 n)

/-- The value of a hexadecimal digit, in either case. -/
def digit? (c : Char) : Option Nat :=
  if '0' ≤ c ∧ c ≤ '9' then some (c.toNat - '0'.toNat)
  else if 'a' ≤ c ∧ c ≤ 'f' then some (c.toNat - 'a'.toNat + 10)
  else if 'A' ≤ c ∧ c ≤ 'F' then some (c.toNat - 'A'.toNat + 10)
  else none

/-- The number that a list of digits stands for, if all of them are digits of the base. -/
def ofDigits? (base : Nat) (digits : List Char) : Option Nat :=
  digits.foldlM (fun n c => do
    let d ← digit? c
    if d < base then some (n * base + d) else none) 0

/-- The number that a word stands for, in decimal or in hexadecimal behind `0x`. -/
def read? (word : String) : Option UInt32 := do
  let (base, digits) := match word.toList with
    | '0' :: 'x' :: digits => (16, digits)
    | digits => (10, digits)
  if digits.isEmpty then none
  let n ← ofDigits? base digits
  if n < UInt32.size then some (.ofNat n) else none

end Number

end GpuWaits

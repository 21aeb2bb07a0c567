/-
# Codecs

A codec writes values as bytes and reads them back.  A reader takes the bytes that it needs from the
front and leaves the rest, so that codecs can be put one behind the other.
-/
import GpuWaits.Flags

namespace GpuWaits

/-- A way to write values of a type as bytes, and to read them back. -/
structure Codec (α : Type) where
  encode : α → List UInt8
  /-- Reads a value from the front.  Nothing comes out if the bytes do not start with one. -/
  decode : List UInt8 → Option (α × List UInt8)

namespace Codec

variable {α β : Type}

/-- The values of another type that stand for those of a codec, where `f` and `g` lead from one to
the other.  Where `f` gives nothing there is no value to read. -/
def partialMap (c : Codec α) (f : α → Option β) (g : β → α) : Codec β where
  encode b := c.encode (g b)
  decode bytes := do
    let (a, rest) ← c.decode bytes
    let b ← f a
    return (b, rest)

/-- The values of another type that stand for those of a codec. -/
def map (c : Codec α) (f : α → β) (g : β → α) : Codec β := c.partialMap (fun a => some (f a)) g

/-- Two values, one behind the other. -/
def pair (c : Codec α) (d : Codec β) : Codec (α × β) where
  encode p := c.encode p.1 ++ d.encode p.2
  decode bytes := do
    let (a, rest) ← c.decode bytes
    let (b, rest) ← d.decode rest
    return ((a, b), rest)

/-- A number in a given count of bytes, lowest byte first. -/
def littleEndian : Nat → Codec Nat
  | 0 => ⟨fun _ => [], fun bytes => some (0, bytes)⟩
  | width + 1 =>
    { encode := fun n => UInt8.ofNat n :: (littleEndian width).encode (n / 256)
      decode := fun
        | [] => none
        | byte :: rest => do
          let (high, rest) ← (littleEndian width).decode rest
          return (byte.toNat + 256 * high, rest) }

/-- A byte. -/
def byte : Codec UInt8 := (littleEndian 1).map .ofNat UInt8.toNat

/-- A word of 16 bits. -/
def word16 : Codec UInt16 := (littleEndian 2).map .ofNat UInt16.toNat

/-- A word of 32 bits. -/
def word32 : Codec UInt32 := (littleEndian 4).map .ofNat UInt32.toNat

/-- A truth value, as a byte that is zero or one. -/
def bool : Codec Bool :=
  byte.partialMap (fun b => if b = 0 then some false else if b = 1 then some true else none)
    fun b => if b then 1 else 0

/-- A set of flags, as a word of 16 bits. -/
def flags16 : Codec (Flags α 16) := word16.map (fun n => ⟨n.toBitVec⟩) fun s => ⟨s.bits⟩

/-- A set of flags, as a byte. -/
def flags8 : Codec (Flags α 8) := byte.map (fun n => ⟨n.toBitVec⟩) fun s => ⟨s.bits⟩

/-- A member of an enumeration, as its place in the list of all members. -/
def oneOf [DecidableEq α] (all : List α) : Codec α :=
  (littleEndian 4).partialMap (fun n => all[n]?) fun a => all.idxOf a

/-- As many values as a number says. -/
def decodeMany (c : Codec α) : Nat → List UInt8 → Option (List α × List UInt8)
  | 0, bytes => some ([], bytes)
  | n + 1, bytes => do
    let (a, rest) ← c.decode bytes
    let (as, rest) ← c.decodeMany n rest
    return (a :: as, rest)

/-- A list, as its length in eight bytes and then its members. -/
def list (c : Codec α) : Codec (List α) where
  encode as := (littleEndian 8).encode as.length ++ as.flatMap c.encode
  decode bytes := do
    let (n, rest) ← (littleEndian 8).decode bytes
    c.decodeMany n rest

end Codec

end GpuWaits

import BeamDisasm.Bytes

/-!
# Bit streams

Compressed data are read bit by bit, from the least significant bit of each byte. Reading stops for one of two
reasons, which are kept apart: the data end, or they are damaged.
-/
namespace BeamDisasm.Compression

/-- Why the reading of compressed data stopped. -/
inductive Stop where
  | truncated
  | corrupt
  deriving Repr, DecidableEq

/-- Bytes of which the first has had `used` bits taken, fewer than eight. -/
structure Bits where
  used : Nat
  bytes : Bytes
  deriving Repr

/-- A way to read a value from a bit stream. -/
abbrev BitReader := StateT Bits (Except Stop)

namespace Bits

/-- The stream of all bits of a byte string. -/
def ofBytes (b : Bytes) : Bits := ⟨0, b⟩

/-- The bytes after the one that has been begun. -/
def aligned (s : Bits) : Bytes :=
  if s.used = 0 then s.bytes else s.bytes.drop 1

/-- No value can take more turns to read than this. -/
def fuel (s : Bits) : Nat :=
  8 * s.bytes.length + 1

/-- The next bit as a number. -/
def bit : BitReader Nat := fun s =>
  match s.bytes with
  | [] => .error .truncated
  | b :: rest =>
    let v := (b.toNat >>> s.used) % 2
    if s.used = 7 then .ok (v, ⟨0, rest⟩) else .ok (v, ⟨s.used + 1, b :: rest⟩)

/-- The next `n` bits as a number, the least significant bit first. -/
def number : Nat → BitReader Nat
  | 0 => pure 0
  | n + 1 => do
    let b ← bit
    let r ← number n
    return b + 2 * r

end Bits

end BeamDisasm.Compression

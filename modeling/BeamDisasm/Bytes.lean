import BeamDisasm.Fault

/-!
# Byte strings

Byte strings are lists of bytes. A byte string is read as a number with the most significant byte first,
unless a definition says otherwise.
-/
namespace BeamDisasm

/-- A string of bytes. -/
abbrev Bytes := List UInt8

namespace Bytes

/-- The number written by a byte string, the most significant byte first: each byte is shifted in. -/
def toNat (b : Bytes) : Nat :=
  b.foldl (fun n d => (n <<< 8) ||| d.toNat) 0

/-- The bits of either of two numbers, in two's complement without end. -/
def eitherBits : Int → Int → Int
  | .ofNat a, .ofNat b => .ofNat (a ||| b)
  | .ofNat a, .negSucc b => .negSucc (b - (b &&& a))
  | .negSucc a, .ofNat b => .negSucc (a - (a &&& b))
  | .negSucc a, .negSucc b => .negSucc (a &&& b)

/-- The number that digits of any size make when each is shifted in by eight bits. -/
def joined (digits : List Int) : Int :=
  digits.foldl (fun n d => eitherBits (256 * n) d) 0

/-- The number written by a byte string as a sum of powers of 256, the highest power first. -/
def powerSum : Bytes → Nat
  | [] => 0
  | d :: ds => Nat.pow 256 ds.length * d.toNat + powerSum ds

/-- The number written by a byte string whose first byte is the least significant one. -/
def littleEndian : Bytes → Nat
  | [] => 0
  | d :: ds => d.toNat + 256 * littleEndian ds

/-- The signed number written by four bytes in two's complement. -/
def toSigned (b : Bytes) : Int :=
  let n := b.toNat
  if n < 0x80000000 then n else (n : Int) - 0x100000000

/-- The last `width` bytes of the number `n`, the most significant byte first. -/
def ofNat : Nat → Nat → Bytes
  | 0, _ => []
  | width + 1, n => ofNat width (n / 256) ++ [UInt8.ofNat (n % 256)]

/-- The shortest byte string that writes `n`; zero is written by no bytes. -/
def shortest (n : Nat) : Bytes :=
  if n = 0 then [] else shortest (n / 256) ++ [UInt8.ofNat (n % 256)]
termination_by n
decreasing_by omega

/-- The number `n` in `width` bytes, the least significant byte first. -/
def ofNatLittle : Nat → Nat → Bytes
  | 0, _ => []
  | width + 1, n => UInt8.ofNat (n % 256) :: ofNatLittle width (n / 256)

/-- The bytes of an ASCII text. -/
def ofAscii (s : String) : Bytes :=
  s.toList.map fun c => UInt8.ofNat c.toNat

/-- The bytes of a text in UTF-8. -/
def ofText (s : String) : Bytes :=
  s.toUTF8.toList

end Bytes

/-- The entry of `xs` at a signed position: positions below zero count from the end. -/
def signedGet? {α : Type} (xs : List α) (i : Int) : Option α :=
  if 0 ≤ i then xs[i.toNat]?
  else if (xs.length : Int) + i < 0 then none
  else xs[((xs.length : Int) + i).toNat]?

/-- The entry of `xs` at a signed position, or the fault that there is none. -/
def signedGet {α : Type} (xs : List α) (i : Int) : Except Fault α :=
  match signedGet? xs i with
  | some a => .ok a
  | none => .error .noSuchEntry

end BeamDisasm

import BeamDisasm.Bytes

/-!
# Numbers as text

Decimal and hexadecimal forms of whole numbers, and the reading of a decimal numeral from bytes. Numbers with very many
decimal digits are neither written nor read; hexadecimal digits have no such limit.
-/
namespace BeamDisasm.Text

/-- A whole number in decimal digits, with a minus sign below zero. -/
def digits (n : Int) : String :=
  match n with
  | .ofNat m => String.ofList (Nat.toDigits 10 m)
  | .negSucc m => "-" ++ String.ofList (Nat.toDigits 10 (m + 1))

/-- The most decimal digits that a number is written in or read from. -/
def maxDigits : Nat := 4300

/-- The number has few enough decimal digits to be written in them. -/
def Short (n : Int) : Prop :=
  (Nat.toDigits 10 n.natAbs).length ≤ maxDigits

instance (n : Int) : Decidable (Short n) :=
  inferInstanceAs (Decidable (_ ≤ _))

/-- A whole number in decimal digits, if these are not too many. -/
def decimal (n : Int) : Except Fault String :=
  if Short n then .ok (digits n) else .error .numeralTooLong

/-- A whole number in hexadecimal digits `0` to `f`, with a minus sign below zero. -/
def hex (n : Int) : String :=
  match n with
  | .ofNat m => String.ofList (Nat.toDigits 16 m)
  | .negSucc m => "-" ++ String.ofList (Nat.toDigits 16 (m + 1))

/-- A whole number in hexadecimal digits `0` to `F`, with a minus sign below zero. -/
def hexUpper (n : Int) : String :=
  String.ofList ((hex n).toList.map Char.toUpper)

/-- A text followed by the blanks that make it at least `width` characters long. -/
def padRight (width : Nat) (s : String) : String :=
  String.ofList (s.toList ++ List.replicate (width - s.toList.length) ' ')

/-- Blanks around a numeral: space, and the control characters from tab to carriage return. -/
def isBlank (b : UInt8) : Bool :=
  b == 32 || (9 ≤ b && b ≤ 13)

/-- A decimal digit in ASCII. -/
def isDigit (b : UInt8) : Bool :=
  48 ≤ b && b ≤ 57

/-- The value of a run of digits after the value `n`; one underscore may stand between two digits. -/
def digitsValue? (n : Nat) : Bytes → Option Nat
  | [] => some n
  | 95 :: d :: ds => if isDigit d then digitsValue? (n * 10 + (d.toNat - 48)) ds else none
  | d :: ds => if isDigit d then digitsValue? (n * 10 + (d.toNat - 48)) ds else none

/-- The value of a non-empty run of digits that are not too many, with single underscores between digits. -/
def magnitude? : Bytes → Option Nat
  | [] => none
  | d :: ds =>
    if isDigit d && (ds.filter isDigit).length < maxDigits then digitsValue? (d.toNat - 48) ds else none

/-- The number that the bytes spell: blanks around it are skipped and one sign may stand before the digits. -/
def numeral? (b : Bytes) : Option Int :=
  match ((b.dropWhile isBlank).reverse.dropWhile isBlank).reverse with
  | 45 :: ds => (magnitude? ds).map fun n => -(n : Int)
  | 43 :: ds => (magnitude? ds).map Int.ofNat
  | ds => (magnitude? ds).map Int.ofNat

end BeamDisasm.Text

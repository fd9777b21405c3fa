import BeamDisasm.Bytes

/-!
# Decoding text

Strict decoding of UTF-8, where over-long forms, surrogates and values beyond the last code point are
refused, and the reading of bytes as the first 256 characters.
-/
namespace BeamDisasm.Text

/-- A byte that continues a sequence. -/
def isContinuation (b : UInt8) : Bool :=
  0x80 ≤ b && b ≤ 0xBF

/-- The six bits that a continuation byte carries. -/
def sixBits (b : UInt8) : Nat :=
  b.toNat % 64

/-- The second byte that may follow the first byte of a sequence of three. -/
def secondOfThree (a b : UInt8) : Bool :=
  if a == 0xE0 then 0xA0 ≤ b && b ≤ 0xBF
  else if a == 0xED then 0x80 ≤ b && b ≤ 0x9F
  else isContinuation b

/-- The second byte that may follow the first byte of a sequence of four. -/
def secondOfFour (a b : UInt8) : Bool :=
  if a == 0xF0 then 0x90 ≤ b && b ≤ 0xBF
  else if a == 0xF4 then 0x80 ≤ b && b ≤ 0x8F
  else isContinuation b

/-- The characters that a byte string encodes in UTF-8, if it does. -/
def utf8Chars? : Bytes → Option (List Char)
  | [] => some []
  | a :: rest =>
    if a < 0x80 then (utf8Chars? rest).map (Char.ofNat a.toNat :: ·)
    else match rest with
      | [] => none
      | b :: rest =>
        if 0xC2 ≤ a && a ≤ 0xDF then
          if isContinuation b then
            (utf8Chars? rest).map (Char.ofNat (a.toNat % 32 * 64 + sixBits b) :: ·)
          else none
        else match rest with
          | [] => none
          | c :: rest =>
            if 0xE0 ≤ a && a ≤ 0xEF then
              if secondOfThree a b && isContinuation c then
                (utf8Chars? rest).map
                  (Char.ofNat (a.toNat % 16 * 4096 + sixBits b * 64 + sixBits c) :: ·)
              else none
            else match rest with
              | [] => none
              | d :: rest =>
                if 0xF0 ≤ a && a ≤ 0xF4 then
                  if secondOfFour a b && isContinuation c && isContinuation d then
                    (utf8Chars? rest).map
                      (Char.ofNat (a.toNat % 8 * 262144 + sixBits b * 4096 + sixBits c * 64 + sixBits d) :: ·)
                  else none
                else none

/-- The text that a byte string encodes in UTF-8. -/
def utf8 (b : Bytes) : Except Fault String :=
  match utf8Chars? b with
  | some cs => .ok (String.ofList cs)
  | none => .error .invalidText

/-- Each byte as the character of the same number. -/
def latin1 (b : Bytes) : List Char :=
  b.map fun d => Char.ofNat d.toNat

end BeamDisasm.Text

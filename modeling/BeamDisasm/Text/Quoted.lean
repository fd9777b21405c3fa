import BeamDisasm.Bytes

/-!
# Quoted bytes

The printable form of a byte string: `b'…'`, or `b"…"` when the bytes hold an apostrophe and no quotation
mark. Backslashes, the quote in use, tab, line feed and carriage return are escaped by a backslash; all
other bytes outside printable ASCII are written by two hexadecimal digits.
-/
namespace BeamDisasm.Text

/-- The hexadecimal digit of a number below sixteen. -/
def hexDigit (n : Nat) : Char :=
  Nat.digitChar n

/-- The mark around a quoted byte string. -/
def quoteMark (b : Bytes) : UInt8 :=
  if b.contains 39 && !b.contains 34 then 34 else 39

/-- One byte inside the marks `quote`. -/
def quotedByte (quote d : UInt8) : List Char :=
  if d == 92 || d == quote then ['\\', Char.ofNat d.toNat]
  else if d == 9 then ['\\', 't']
  else if d == 10 then ['\\', 'n']
  else if d == 13 then ['\\', 'r']
  else if d < 32 || 127 ≤ d then
    ['\\', 'x', hexDigit (d.toNat / 16), hexDigit (d.toNat % 16)]
  else [Char.ofNat d.toNat]

/-- The printable form of a byte string. -/
def quoted (b : Bytes) : String :=
  let mark := quoteMark b
  let quote := Char.ofNat mark.toNat
  String.ofList ('b' :: quote :: (b.flatMap (quotedByte mark) ++ [quote]))

/-- The mark around a quoted text. -/
def textMark (cs : List Char) : Char :=
  if cs.contains '\'' && !cs.contains '"' then '"' else '\''

/-- One character inside the marks `quote`. Control characters are written by two hexadecimal digits. -/
def quotedChar (quote c : Char) : List Char :=
  if c == '\\' || c == quote then ['\\', c]
  else if c == '\t' then ['\\', 't']
  else if c == '\n' then ['\\', 'n']
  else if c == '\r' then ['\\', 'r']
  else if c.toNat < 32 || (127 ≤ c.toNat && c.toNat ≤ 160) || c.toNat == 173 then
    ['\\', 'x', hexDigit (c.toNat / 16), hexDigit (c.toNat % 16)]
  else [c]

/-- A text between marks. -/
def quotedText (s : String) : String :=
  let quote := textMark s.toList
  String.ofList (quote :: (s.toList.flatMap (quotedChar quote) ++ [quote]))

end BeamDisasm.Text

/-!
# Faults

Every operation of the library that can go wrong says why with a `Fault`. A fault names a cause in the
data or in the request; how it is reported is left to the caller.
-/
namespace BeamDisasm

/-- Why an operation gave no result. -/
inductive Fault where
  /-- The data end inside a compact term. -/
  | endOfData
  /-- A field of fixed width is cut short. -/
  | shortField
  /-- A compact term has a tag or a value that has no meaning. -/
  | unsupportedTerm
  /-- An external term has a tag that has no reader. -/
  | unsupportedTag (tag : UInt8)
  /-- No instruction has this opcode. -/
  | unknownOpcode (code : Nat)
  /-- A declared length is at least `2 ^ 63`. -/
  | lengthTooLarge
  /-- A number does not fit a machine word. -/
  | wordOverflow
  /-- A number does not fit the field that it is written to. -/
  | fieldOverflow
  /-- Bytes used as a count do not spell a number. -/
  | notANumber
  /-- A number has more decimal digits than are written. -/
  | numeralTooLong
  /-- A number does not fit a byte. -/
  | byteOutOfRange
  /-- A number is not the code point of a character. -/
  | notACharacter
  /-- A template has a brace that means nothing. -/
  | brokenTemplate
  /-- Text stands where a template wants a number. -/
  | notNumeric
  /-- A value is of a kind that the operation cannot use. -/
  | unusableKind
  /-- A value or a module lacks the part that is asked for. -/
  | noSuchPart
  /-- A table, a list or a code section has no such entry. -/
  | noSuchEntry
  /-- Two fields of the data contradict each other. -/
  | inconsistent
  /-- Bytes that should be text are not UTF-8. -/
  | invalidText
  /-- A compressed stream is damaged or incomplete. -/
  | corruptStream
  /-- An archive is damaged or is none. -/
  | corruptArchive
  /-- An archive has no member of this name. -/
  | noSuchMember
  /-- A member of an archive is stored in a way that cannot be read. -/
  | unsupportedMethod
  /-- A member of an archive is encrypted. -/
  | encrypted
  /-- A place is beyond all that data can have. -/
  | placeOverflow
  /-- A place lies before the start of the data. -/
  | unusablePlace
  /-- A path does not lead to a file. -/
  | noSuchFile
  /-- A path goes through something that is no directory. -/
  | notADirectory
  /-- A directory stands where a file is wanted. -/
  | isADirectory
  /-- Something is at the place of a new directory. -/
  | alreadyThere
  /-- A path holds a character that no path can hold. -/
  | unusablePath
  /-- A path or a name in it is longer than any can be. -/
  | pathTooLong
  /-- The data are no module file. -/
  | unknownFormat
  deriving Repr, DecidableEq, Inhabited

/-- How a tag without a reader is told. -/
def Fault.tagText (tag : UInt8) : String :=
  "UnsupportedBeamExt(" ++ String.ofList (Nat.toDigits 10 tag.toNat) ++ ")"

end BeamDisasm

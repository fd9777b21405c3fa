import BeamDisasm.Text.CodePage437
import BeamDisasm.Text.Utf8

/-!
# Directories of archives

An archive ends with a record that says where its directory is. The directory lists the members, each with the
place of its own header. Where a field of an archive is too narrow for its number, the number stands elsewhere: that
of an entry in an extra field behind its name, those of the record at the end in a wide record before it.
-/
namespace BeamDisasm

namespace Archive

/-- The sizes of a member and the place of its header. -/
structure Extent where
  size : Nat
  packedSize : Nat
  offset : Nat
  deriving Repr

/-- A member as the directory lists it. -/
structure Entry where
  /-- The name up to the first zero character. -/
  name : String
  /-- The name as it is written. -/
  writtenName : String
  flags : Nat
  method : Nat
  checksum : Nat
  packedSize : Nat
  size : Nat
  /-- Where the header of the member is. -/
  offset : Int
  /-- Where the room of the member ends: at the next header or at the directory. -/
  limit : Int
  deriving Repr

/-- The bytes of a part of the data. -/
def slice (data : Bytes) (start n : Nat) : Bytes :=
  (data.drop start).take n

/-- A field in a record, the least significant byte first. -/
def fieldAt (record : Bytes) (start n : Nat) : Nat :=
  Bytes.littleEndian (slice record start n)

/-- The place of the last occurrence of a pattern. -/
def lastPlace (pattern : Bytes) : Bytes → Option Nat
  | [] => none
  | b :: bs =>
    match lastPlace pattern bs with
    | some i => some (i + 1)
    | none => if pattern.isPrefixOf (b :: bs) then some 0 else none

/-- The mark of the record at the end. -/
def endMark : Bytes := [0x50, 0x4B, 5, 6]

/-- The length of the record at the end without its comment. -/
def endLength : Nat := 22

/-- Where the record at the end starts: at the very end without a comment, or else at its last mark. -/
def endPlace? (data : Bytes) : Option Nat :=
  if data.length < endLength then none
  else
    let place := data.length - endLength
    let record := data.drop place
    if record.take 4 = endMark ∧ record.drop 20 = [0, 0] then some place
    else
      let start := data.length - (65536 + endLength)
      match lastPlace endMark (data.drop start) with
      | some i => if start + i + endLength ≤ data.length then some (start + i) else none
      | none => none

/-- Where a directory ends, its size, and where it starts as the archive counts. -/
structure Bounds where
  stop : Int
  size : Nat
  offset : Nat
  deriving Repr

/-- The length of the record that announces a wide one. -/
def locatorLength : Nat := 20

/-- The length of a wide record. -/
def wideLength : Nat := 56

/-- The bounds that the record at `place` gives. -/
def narrowBounds (data : Bytes) (place : Nat) : Bounds :=
  let record := data.drop place
  ⟨place, fieldAt record 12 4, fieldAt record 16 4⟩

/-- The bounds of the directory of an archive whose record at the end is at `place`. A wide record stands right
before the one that announces it, and an archive in several parts is refused. -/
def bounds (data : Bytes) (place : Nat) : Except Fault Bounds :=
  let locator := slice data (place - locatorLength) locatorLength
  if place < locatorLength ∨ locator.take 4 ≠ [0x50, 0x4B, 6, 7] then .ok (narrowBounds data place)
  else if fieldAt locator 4 4 ≠ 0 ∨ 1 < fieldAt locator 16 4 then .error .corruptArchive
  else if place < locatorLength + wideLength then .error .corruptArchive
  else
    let start := place - locatorLength - wideLength
    let record := slice data start wideLength
    if record.take 4 ≠ [0x50, 0x4B, 6, 6] then .ok (narrowBounds data place)
    else .ok ⟨start, fieldAt record 40 8, fieldAt record 48 8⟩

/-- The text of a name. -/
def nameText (flags : Nat) (b : Bytes) : Except Fault String :=
  if flags / 2048 % 2 = 1 then Text.utf8 b else .ok (Text.codePage437 b)

/-- A number too large for a field of four bytes leaves this one there. -/
def tooWide : Nat := 0xFFFFFFFF

/-- A number of eight bytes and what stands behind it. -/
def takeWide (b : Bytes) : Except Fault (Nat × Bytes) :=
  if 8 ≤ b.length then .ok (Bytes.littleEndian (b.take 8), b.drop 8) else .error .corruptArchive

/-- The number `n`, or the next wide one if it stands elsewhere. -/
def widened (n : Nat) (b : Bytes) : Except Fault (Nat × Bytes) :=
  if n = tooWide then takeWide b else .ok (n, b)

/-- The extent with the numbers that an extra field gives. -/
def Extent.widen (x : Extent) (b : Bytes) : Except Fault Extent := do
  let (size, b) ← if x.size = 0xFFFFFFFFFFFFFFFF then takeWide b else widened x.size b
  let (packedSize, b) ← widened x.packedSize b
  let (offset, _) ← widened x.offset b
  return { size, packedSize, offset }

/-- The extent after all extra fields, which have to be whole. Each takes four bytes at least. -/
def readExtra : Nat → Bytes → Extent → Except Fault Extent
  | 0, _, x => .ok x
  | fuel + 1, b, x =>
    if b.length < 4 then .ok x
    else do
      let n := fieldAt b 2 2
      if b.length < n + 4 then .error .corruptArchive
      else do
        let x ← if fieldAt b 0 2 = 1 then x.widen (slice b 4 n) else pure x
        readExtra fuel (b.drop (n + 4)) x

/-- The length of an entry of the directory without its variable parts. -/
def entryLength : Nat := 46

/-- The latest version of the format that can be read. -/
def latestVersion : Nat := 63

/-- The entries of a directory; `shift` is added to the places that they give. The room of an entry is not known
yet. -/
def readEntries (shift : Int) : Nat → Bytes → Except Fault (List Entry)
  | 0, _ => .ok []
  | _ + 1, [] => .ok []
  | fuel + 1, b :: bs => do
    let record := (b :: bs).take entryLength
    if record.length < entryLength ∨ record.take 4 ≠ [0x50, 0x4B, 1, 2] then .error .corruptArchive
    else do
      let nameLength := fieldAt record 28 2
      let extraLength := fieldAt record 30 2
      let commentLength := fieldAt record 32 2
      let rest := (b :: bs).drop entryLength
      let flags := fieldAt record 8 2
      let name ← nameText flags (rest.take nameLength)
      if latestVersion < fieldAt record 6 1 then .error .unsupportedMethod
      else do
        let x ← readExtra extraLength (slice rest nameLength extraLength)
          ⟨fieldAt record 24 4, fieldAt record 20 4, fieldAt record 42 4⟩
        let entry : Entry :=
          { name := String.ofList (name.toList.takeWhile (· ≠ Char.ofNat 0))
            writtenName := name
            flags
            method := fieldAt record 10 2
            checksum := fieldAt record 16 4
            packedSize := x.packedSize
            size := x.size
            offset := shift + x.offset
            limit := 0 }
        let entries ← readEntries shift fuel (rest.drop (nameLength + extraLength + commentLength))
        return entry :: entries

/-- Where the room of an entry ends: at the header that follows its own, or at `start`, where the directory is. Of
entries with one header only the first has room. -/
def limitOf (start : Int) (all before : List Entry) (e : Entry) : Int :=
  if before.any (fun f => f.offset = e.offset) then e.offset
  else (((all.map Entry.offset).filter (e.offset < ·)).min?).getD start

/-- Entries with their rooms; `before` are those that come earlier. -/
def withLimits (start : Int) (all : List Entry) : List Entry → List Entry → List Entry
  | _, [] => []
  | before, e :: es =>
    { e with limit := limitOf start all before e } :: withLimits start all (e :: before) es

/-- The entries of an archive. -/
def entries (data : Bytes) : Except Fault (List Entry) :=
  match endPlace? data with
  | none => .error .corruptArchive
  | some place => do
    let d ← bounds data place
    let start := d.stop - d.size
    if start < 0 then .error .corruptArchive
    else do
      let es ← readEntries (start - d.offset) d.size (slice data start.toNat d.size)
      return withLimits start es [] es

/-- The last entry with a name. -/
def find (es : List Entry) (name : String) : Except Fault Entry :=
  match es.reverse.find? fun e => e.name == name with
  | some e => .ok e
  | none => .error .noSuchMember

/-- The entry is a directory. -/
def Entry.isDirectory (e : Entry) : Bool :=
  e.name.toList.getLast? == some '/'

end Archive

end BeamDisasm

import BeamDisasm.Archive.Directory
import BeamDisasm.Compression.Content
import BeamDisasm.Compression.Crc32
import BeamDisasm.Compression.Inflate

/-!
# Members of archives

A member has a header of its own, which has to agree with the directory, and data that are stored or deflated. The
content of a member is sound, or it is damaged: the deflated data are, or the content does not fit its checksum.
-/
namespace BeamDisasm.Archive.Entry

open Compression

/-- The place of the header of a member, if it can be one. -/
def start (e : Entry) : Except Fault Nat :=
  if e.offset < -0x8000000000000000 ∨ 0x8000000000000000 ≤ e.offset then .error .placeOverflow
  else if e.offset < 0 then .error .unusablePlace
  else .ok e.offset.toNat

/-- Bit `i` of the flags. -/
def hasFlag (e : Entry) (i : Nat) : Bool :=
  e.flags.testBit i

/-- The packed bytes of a member, whose own header has to give the same name and which have to end within the room
of the member. -/
def packed (e : Entry) (data : Bytes) : Except Fault Bytes := do
  let start ← e.start
  let header := slice data start 30
  if header.length < 30 ∨ header.take 4 ≠ [0x50, 0x4B, 3, 4] then .error .corruptArchive
  else do
    let nameLength := fieldAt header 26 2
    let extraLength := fieldAt header 28 2
    if e.hasFlag 5 || e.hasFlag 6 then .error .unsupportedMethod
    else do
      let name ← nameText (fieldAt header 6 2) (slice data (start + 30) nameLength)
      let body := min (start + 30 + nameLength + extraLength) data.length
      if name ≠ e.writtenName then .error .corruptArchive
      else if e.limit < (body : Int) + e.packedSize then .error .corruptArchive
      else if e.hasFlag 0 then .error .encrypted
      else return slice data body e.packedSize

/-- What packed bytes stand for: as much as the directory says, or all that comes before the damage. -/
def unpack (e : Entry) (b : Bytes) : Except Fault Content :=
  if e.method = 0 then .ok ⟨b.take e.size, none⟩
  else if e.method = 8 then
    let r := inflate b
    match r.rest with
    | .error .corrupt => .ok ⟨r.output.toList, some .corruptStream⟩
    | _ => .ok ⟨r.output.toList.take e.size, none⟩
  else .error .unsupportedMethod

/-- What a reader gets of bytes that have to fit a checksum. -/
def checked (summed : Handout) (e : Entry) (b : Bytes) : Content :=
  if crc32 b = e.checksum then ⟨b, none⟩ else Content.handedOut ⟨b, some .corruptArchive⟩ summed

/-- What a reader gets of content with damaged data. Where more is handed out than the directory says there is, the
damage does not show. -/
def past (inflated summed : Handout) (e : Entry) (c : Content) : Content :=
  let handed := c.handedOut inflated
  if e.size ≤ handed.bytes.length then e.checked summed (handed.bytes.take e.size) else handed

/-- The content of a member. A reader that takes it bit by bit gets all of it, or some of it where it is damaged. -/
inductive Member where
  | sound (bytes : Bytes)
  | damaged (handed : Content) (fault : Fault)

namespace Member

/-- What a reader gets bit by bit. -/
def content : Member → Content
  | .sound b => ⟨b, none⟩
  | .damaged c _ => c

/-- The content at once, for which it has to be sound. -/
def whole : Member → Except Fault Bytes
  | .sound b => .ok b
  | .damaged _ f => .error f

end Member

/-- The member with unpacked content. -/
def member (inflated summed : Handout) (e : Entry) (c : Content) : Member :=
  match c.stop with
  | some f => .damaged (e.past inflated summed c) f
  | none => if crc32 c.bytes = e.checksum then .sound c.bytes else .damaged (e.checked summed c.bytes) .corruptArchive

/-- The content of a member. -/
def content (inflated summed : Handout) (e : Entry) (data : Bytes) : Except Fault Member := do
  let b ← e.packed data
  let c ← e.unpack b
  return e.member inflated summed c

end BeamDisasm.Archive.Entry

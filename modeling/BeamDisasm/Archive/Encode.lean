import BeamDisasm.Archive

/-!
# Writing archives

Members are stored as they are, each behind a header of its own. The directory and the record at the end follow.
-/
namespace BeamDisasm.Archive

/-- A member to be written: its name and its content. -/
abbrev Member := Bytes × Bytes

/-- The fields that the header of a member shares with its entry in the directory: no flags, no packing, no time,
the checksum and the lengths. -/
def commonFields (m : Member) : Bytes :=
  Bytes.ofNatLittle 2 20 ++ List.replicate 8 0 ++ Bytes.ofNatLittle 4 (Compression.crc32 m.2) ++
    Bytes.ofNatLittle 4 m.2.length ++ Bytes.ofNatLittle 4 m.2.length ++ Bytes.ofNatLittle 2 m.1.length ++
    Bytes.ofNatLittle 2 0

/-- A member behind its header. -/
def encodeMember (m : Member) : Bytes :=
  [0x50, 0x4B, 3, 4] ++ commonFields m ++ m.1 ++ m.2

/-- The entry of a member that starts at `offset`. -/
def encodeEntry (offset : Nat) (m : Member) : Bytes :=
  [0x50, 0x4B, 1, 2] ++ Bytes.ofNatLittle 2 20 ++ commonFields m ++ List.replicate 10 0 ++
    Bytes.ofNatLittle 4 offset ++ m.1

/-- The entries of members, the first of which starts at `offset`. -/
def encodeEntries (offset : Nat) : List Member → Bytes
  | [] => []
  | m :: ms => encodeEntry offset m ++ encodeEntries (offset + (encodeMember m).length) ms

/-- An archive with the given members. -/
def encode (members : List Member) : Bytes :=
  let body := members.flatMap encodeMember
  let directory := encodeEntries 0 members
  body ++ directory ++ endMark ++ List.replicate 4 0 ++ Bytes.ofNatLittle 2 members.length ++
    Bytes.ofNatLittle 2 members.length ++ Bytes.ofNatLittle 4 directory.length ++
    Bytes.ofNatLittle 4 body.length ++ [0, 0]

end BeamDisasm.Archive

import BeamDisasm.Compression.Content
import BeamDisasm.Compression.Crc32
import BeamDisasm.Compression.Zlib

/-!
# Gzip files

A gzip file is a sequence of members, each with a header, deflated data, a checksum and a length. Zero bytes may
stand between members. The contents of the members are one content. A file that ends too early hands out all that it
has. Damaged data hand out a part of what comes before the damage.
-/
namespace BeamDisasm.Compression

namespace Gzip

/-- What stands behind the next zero byte. -/
def afterZero : Bytes → Bytes
  | [] => []
  | b :: bs => if b = 0 then bs else afterZero bs

/-- What stands behind `n` bytes that have to be there. -/
def skip? (n : Nat) (b : Bytes) : Option Bytes :=
  if n ≤ b.length then some (b.drop n) else none

/-- Bit `i` of the flags. -/
def hasFlag (flags : UInt8) (i : Nat) : Bool :=
  flags.toNat.testBit i

/-- What stands behind the parts of a header that the flags announce. -/
def skipOptional? (flags : UInt8) (b : Bytes) : Option Bytes := do
  let b ← if hasFlag flags 2 then
      (match b with
      | lo :: hi :: rest => skip? (Bytes.littleEndian [lo, hi]) rest
      | _ => none)
    else some b
  let b := if hasFlag flags 3 then afterZero b else b
  let b := if hasFlag flags 4 then afterZero b else b
  if hasFlag flags 1 then skip? 2 b else some b

/-- What stands behind the header of a member. -/
def skipHeader? : Bytes → Option Bytes
  | 0x1F :: 0x8B :: 8 :: flags :: rest => (skip? 6 rest).bind (skipOptional? flags)
  | _ => none

/-- The checksum and the length behind a member fit its content. -/
def trailerFits (content trailer : Bytes) : Bool :=
  trailer.length == 8 && Bytes.littleEndian (trailer.take 4) == crc32 content &&
    Bytes.littleEndian (trailer.drop 4) == content.length % 0x100000000

/-- What can be read of a member that gives `out` before it stops. -/
def readable (handout : Handout) (out : Bytes) : Stop → Content
  | .truncated => ⟨out, some .corruptStream⟩
  | .corrupt => Content.handedOut ⟨out, some .corruptStream⟩ handout

/-- The content of members. Each takes more than one byte, so the number of bytes is turns enough. -/
def members (handout : Handout) : Nat → Bytes → Content
  | 0, _ => ⟨[], none⟩
  | _ + 1, [] => ⟨[], none⟩
  | fuel + 1, b :: bs =>
    match skipHeader? (b :: bs) with
    | none => ⟨[], some .corruptStream⟩
    | some body =>
      let r := inflate body
      match r.rest with
      | .error e => readable handout r.output.toList e
      | .ok s =>
        let out := r.output.toList
        if trailerFits out (s.aligned.take 8) then
          let next := members handout fuel ((s.aligned.drop 8).dropWhile (· == 0))
          { next with bytes := out ++ next.bytes }
        else ⟨out, some .corruptStream⟩

end Gzip

/-- The content of a gzip file, of which `handout` is handed out where the data of a member are damaged. -/
def gunzip (handout : Handout) (b : Bytes) : Content :=
  Gzip.members handout b.length b

/-- The header of a member without optional parts. -/
def gzipHeader : Bytes :=
  [0x1F, 0x8B, 8, 0, 0, 0, 0, 0, 0, 0xFF]

/-- A gzip file of one member that holds the given bytes and saves no space. -/
def gzip (b : Bytes) : Bytes :=
  gzipHeader ++ (storedBlocks (b.length + 1) b ++
    (Bytes.ofNatLittle 4 (crc32 b) ++ Bytes.ofNatLittle 4 (b.length % 0x100000000)))

end BeamDisasm.Compression

import BeamDisasm.Bytes

/-!
# The cyclic checksum

The checksum of archive members and of gzip members.
-/
namespace BeamDisasm.Compression

/-- Divides the state by the generator, one bit at a time. -/
def crcBits : Nat → UInt32 → UInt32
  | 0, s => s
  | n + 1, s => crcBits n (if s &&& 1 = 1 then (s >>> 1) ^^^ 0xEDB88320 else s >>> 1)

/-- Takes a byte into the state. -/
def crcByte (s : UInt32) (b : UInt8) : UInt32 :=
  crcBits 8 (s ^^^ b.toUInt32)

/-- The checksum of a byte string. -/
def crc32 (b : Bytes) : Nat :=
  ((b.foldl crcByte 0xFFFFFFFF) ^^^ 0xFFFFFFFF).toNat

end BeamDisasm.Compression

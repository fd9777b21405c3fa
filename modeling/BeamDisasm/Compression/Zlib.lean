import BeamDisasm.Compression.Inflate

/-!
# Compressed streams

A compressed stream is a header of two bytes, deflated data and a checksum of what they stand for. Bytes after
the stream are not looked at.
-/
namespace BeamDisasm.Compression

/-- The checksum of a byte string: the sum of the bytes and the sum of these sums, both modulo 65521. -/
def adler32 (b : Bytes) : Nat :=
  let (s, t) := b.foldl (fun (s, t) d =>
    let s := (s + d.toNat) % 65521
    (s, (t + s) % 65521)) (1, 0)
  t * 65536 + s

/-- The two bytes that begin a stream of the only method, with a window that is not too large and without a
dictionary. -/
def isZlibHeader (method flags : UInt8) : Bool :=
  method.toNat % 16 == 8 && method.toNat / 16 ≤ 7 &&
    (method.toNat * 256 + flags.toNat) % 31 == 0 && flags.toNat / 32 % 2 == 0

/-- The bytes that a compressed stream stands for. -/
def decompress : Bytes → Except Fault Bytes
  | method :: flags :: body =>
    if isZlibHeader method flags then
      let r := inflate body
      match r.rest with
      | .error _ => .error .corruptStream
      | .ok s =>
        let out := r.output.toList
        let sum := s.aligned.take 4
        if sum.length = 4 ∧ Bytes.toNat sum = adler32 out then .ok out else .error .corruptStream
    else .error .corruptStream
  | _ => .error .corruptStream

/-- Stored blocks of at most 65535 bytes each, the last one marked. -/
def storedBlocks : Nat → Bytes → Bytes
  | 0, _ => []
  | fuel + 1, b =>
    let n := min b.length 65535
    let frame := fun (last : UInt8) =>
      last :: (Bytes.ofNatLittle 2 n ++ Bytes.ofNatLittle 2 (65535 - n) ++ b.take n)
    if b.length ≤ 65535 then frame 1 else frame 0 ++ storedBlocks fuel (b.drop n)

/-- A compressed stream that stands for the given bytes and saves no space. -/
def compress (b : Bytes) : Bytes :=
  0x78 :: 0x01 :: (storedBlocks (b.length + 1) b ++ Bytes.ofNat 4 (adler32 b))

end BeamDisasm.Compression

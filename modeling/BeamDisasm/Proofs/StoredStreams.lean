import BeamDisasm.Compression.Gzip
import BeamDisasm.Proofs.Bytes
import Mathlib.Algebra.Order.Ring.Nat

/-!
# Streams of stored blocks

Decompressing undoes compressing. A stored block is told by the three bits in front of it, and starts at the next
byte: its length, the length with every bit turned, and the bytes themselves. The last block is followed by the
checksum of all bytes. A gzip file has another checksum and a length there, and its content is handed out also when
they are missing.
-/
namespace BeamDisasm

theorem Bytes.littleEndian_ofNatLittle {width n : Nat} (h : n < 256 ^ width) :
    littleEndian (ofNatLittle width n) = n := by
  induction width generalizing n with
  | zero =>
      have hn : n = 0 := by simpa using h
      subst hn
      rfl
  | succ width ih =>
      have hdiv : n / 256 < 256 ^ width := by
        rw [Nat.pow_succ] at h
        omega
      rw [ofNatLittle, littleEndian, ih hdiv, toNat_ofNat_mod]
      omega

namespace Compression

open Inflate (block blocks stored)

/-! ## Checksums -/

/-- Both sums of a checksum stay below their modulus, so the checksum fits its field. -/
theorem adler32_lt (b : Bytes) : adler32 b < 256 ^ 4 := by
  have hfield : ∀ p : Nat × Nat, p.1 < 65521 ∧ p.2 < 65521 → p.2 * 65536 + p.1 < 256 ^ 4 := by
    intro p hp
    omega
  refine hfield _ (List.foldlRecOn (motive := fun p : Nat × Nat => p.1 < 65521 ∧ p.2 < 65521) b _
    ⟨by omega, by omega⟩ ?_)
  intro p _ d _
  exact ⟨Nat.mod_lt _ (by omega), Nat.mod_lt _ (by omega)⟩

/-! ## Blocks -/

/-- A stored block. -/
def frame (last : UInt8) (b : Bytes) : Bytes :=
  last :: (Bytes.ofNatLittle 2 b.length ++ Bytes.ofNatLittle 2 (65535 - b.length) ++ b)

theorem storedBlocks_last {fuel : Nat} {b : Bytes} (h : b.length ≤ 65535) : storedBlocks (fuel + 1) b = frame 1 b := by
  simp [storedBlocks, frame, h]

theorem storedBlocks_more {fuel : Nat} {b : Bytes} (h : ¬ b.length ≤ 65535) :
    storedBlocks (fuel + 1) b = frame 0 (b.take 65535) ++ storedBlocks fuel (b.drop 65535) := by
  have hmin : min b.length 65535 = 65535 := by omega
  have hlength : (b.take 65535).length = 65535 := by
    rw [List.length_take]
    omega
  simp [storedBlocks, frame, h, hmin, hlength]

/-- A stored block is written behind what there is, and the stream goes on behind it. -/
theorem stored_frame (out : Array UInt8) (last : UInt8) {b : Bytes} (h : b.length ≤ 65535) (rest : Bytes) :
    stored out ⟨3, frame last b ++ rest⟩ = ⟨out ++ b, .ok (Bits.ofBytes rest)⟩ := by
  have hlength : Bytes.littleEndian (Bytes.ofNatLittle 2 b.length) = b.length :=
    Bytes.littleEndian_ofNatLittle (by omega)
  have hturned : Bytes.littleEndian (Bytes.ofNatLittle 2 (65535 - b.length)) = 65535 - b.length :=
    Bytes.littleEndian_ofNatLittle (by omega)
  have haligned : Bits.aligned ⟨3, frame last b ++ rest⟩ =
      Bytes.ofNatLittle 2 b.length ++ (Bytes.ofNatLittle 2 (65535 - b.length) ++ (b ++ rest)) := by
    simp [Bits.aligned, frame]
  simp only [Bytes.ofNatLittle] at haligned hlength hturned
  simp only [stored, haligned, List.cons_append, List.nil_append, hlength, hturned]
  rw [if_neg (by omega), List.take_left' rfl, List.drop_left' rfl, if_neg (by omega)]

/-- The three bits in front of a stored block. -/
theorem blockBits_frame {last : UInt8} (hlast : last = 0 ∨ last = 1) (b rest : Bytes) :
    (do
      let last ← Bits.number 1
      let kind ← Bits.number 2
      return (last, kind) : BitReader (Nat × Nat)) (Bits.ofBytes (frame last b ++ rest)) =
      .ok ((last.toNat, 0), ⟨3, frame last b ++ rest⟩) := by
  have hpure : ∀ {α : Type} (a : α) (s : Bits), (pure a : BitReader α) s = .ok (a, s) := fun _ _ => rfl
  rcases hlast with rfl | rfl <;>
    simp [Bits.number, Bits.bit, Bits.ofBytes, frame, bind, StateT.bind, Except.bind, hpure]

theorem blocks_last (fuel : Nat) (out : Array UInt8) {b : Bytes} (h : b.length ≤ 65535) (rest : Bytes) :
    blocks (fuel + 1) out (Bits.ofBytes (frame 1 b ++ rest)) = ⟨out ++ b, .ok (Bits.ofBytes rest)⟩ := by
  rw [blocks, blockBits_frame (.inr rfl)]
  simp [block, stored_frame out 1 h]

theorem blocks_more (fuel : Nat) (out : Array UInt8) {b : Bytes} (h : b.length ≤ 65535) (rest : Bytes) :
    blocks (fuel + 1) out (Bits.ofBytes (frame 0 b ++ rest)) = blocks fuel (out ++ b) (Bits.ofBytes rest) := by
  rw [blocks, blockBits_frame (.inl rfl)]
  simp [block, stored_frame out 0 h]

/-- Stored blocks one after the other are written one after the other, up to the last one. -/
theorem blocks_storedBlocks {turns : Nat} {b : Bytes} (hturns : b.length < turns) {fuel : Nat}
    (hfuel : (storedBlocks turns b).length ≤ fuel) (out : Array UInt8) (rest : Bytes) :
    blocks fuel out (Bits.ofBytes (storedBlocks turns b ++ rest)) = ⟨out ++ b, .ok (Bits.ofBytes rest)⟩ := by
  induction turns generalizing b fuel out with
  | zero => omega
  | succ turns ih =>
      obtain ⟨fuel, rfl⟩ : ∃ k, fuel = k + 1 := by
        refine ⟨fuel - 1, ?_⟩
        by_cases hlast : b.length ≤ 65535
        · rw [storedBlocks_last hlast, frame, List.length_cons] at hfuel
          omega
        · rw [storedBlocks_more hlast, frame, List.cons_append, List.length_cons] at hfuel
          omega
      by_cases hlast : b.length ≤ 65535
      · rw [storedBlocks_last hlast, blocks_last fuel out hlast]
      · have htake : (b.take 65535).length ≤ 65535 := List.length_take_le _ _
        rw [storedBlocks_more hlast, frame, List.cons_append, List.length_cons, List.length_append] at hfuel
        rw [storedBlocks_more hlast, List.append_assoc, blocks_more fuel out htake, ih]
        · have hjoin : out ++ b.take 65535 ++ b.drop 65535 = out ++ b := Array.toList_inj.mp (by simp)
          rw [hjoin]
        · rw [List.length_drop]
          omega
        · omega

/-- All bytes of stored blocks are written, and what follows the blocks is left. -/
theorem inflate_storedBlocks (b rest : Bytes) :
    inflate (storedBlocks (b.length + 1) b ++ rest) = ⟨(#[] : Array UInt8) ++ b, .ok (Bits.ofBytes rest)⟩ := by
  have hfuel : (storedBlocks (b.length + 1) b).length ≤
      (Bits.ofBytes (storedBlocks (b.length + 1) b ++ rest)).fuel := by
    simp [Bits.fuel, Bits.ofBytes]
    omega
  exact blocks_storedBlocks (Nat.lt_succ_self _) hfuel #[] rest

/-- Decompressing undoes compressing. -/
theorem decompress_compress (b : Bytes) : decompress (compress b) = .ok b := by
  have hinflate := inflate_storedBlocks b (Bytes.ofNat 4 (adler32 b))
  have hheader : isZlibHeader 0x78 0x01 = true := by decide
  have hsum : (Bits.ofBytes (Bytes.ofNat 4 (adler32 b))).aligned.take 4 = Bytes.ofNat 4 (adler32 b) :=
    List.take_of_length_le (by simp [Bits.ofBytes, Bits.aligned])
  simp only [compress, decompress, hheader, hinflate, if_true, hsum, Bytes.toNat_ofNat (adler32_lt b)]
  simp

/-! ## Gzip files -/

namespace Gzip

theorem skipHeader?_gzipHeader (b : Bytes) : skipHeader? (gzipHeader ++ b) = some b := by
  simp [skipHeader?, gzipHeader, skip?, skipOptional?, hasFlag]

/-- A member of stored blocks. Its content is there whether the trailer fits or not. -/
theorem members_storedBlocks (handout : Handout) (fuel : Nat) (b rest : Bytes) :
    members handout (fuel + 1) (gzipHeader ++ (storedBlocks (b.length + 1) b ++ rest)) =
      if trailerFits b (rest.take 8) then
        { members handout fuel ((rest.drop 8).dropWhile (· == 0)) with
          bytes := b ++ (members handout fuel ((rest.drop 8).dropWhile (· == 0))).bytes }
      else ⟨b, some .corruptStream⟩ := by
  have haligned : (Bits.ofBytes rest).aligned = rest := rfl
  have hheader := skipHeader?_gzipHeader (storedBlocks (b.length + 1) b ++ rest)
  rw [gzipHeader, List.cons_append] at hheader ⊢
  rw [members, hheader]
  simp only [inflate_storedBlocks, haligned]
  simp

end Gzip

theorem crc32_lt (b : Bytes) : crc32 b < 256 ^ 4 :=
  UInt32.toNat_lt _

/-- The checksum and the length behind a member of a gzip file. -/
def trailer (b : Bytes) : Bytes :=
  Bytes.ofNatLittle 4 (crc32 b) ++ Bytes.ofNatLittle 4 (b.length % 0x100000000)

theorem length_trailer (b : Bytes) : (trailer b).length = 8 := rfl

theorem trailerFits_trailer (b : Bytes) : Gzip.trailerFits b (trailer b) = true := by
  have hsum : Bytes.littleEndian ((trailer b).take 4) = crc32 b := Bytes.littleEndian_ofNatLittle (crc32_lt b)
  have hlength : Bytes.littleEndian ((trailer b).drop 4) = b.length % 0x100000000 :=
    Bytes.littleEndian_ofNatLittle (Nat.mod_lt _ (by decide))
  simp [Gzip.trailerFits, length_trailer, hsum, hlength]

/-- The content of a gzip file is what it was made of. -/
theorem gunzip_gzip (handout : Handout) (b : Bytes) : gunzip handout (gzip b) = ⟨b, none⟩ := by
  have hend : ∀ fuel, Gzip.members handout fuel [] = ⟨[], none⟩ := by
    intro fuel
    cases fuel <;> rfl
  have htake : (trailer b).take 8 = trailer b := rfl
  have hdrop : ((trailer b).drop 8).dropWhile (· == 0) = [] := rfl
  have hmember := Gzip.members_storedBlocks handout (gzip b).tail.length b (trailer b)
  rw [htake, hdrop, trailerFits_trailer, if_pos rfl, hend, List.append_nil] at hmember
  exact hmember

/-- Without the trailer all content can be read still, but nothing behind it. -/
theorem gunzip_without_trailer (handout : Handout) (b : Bytes) :
    gunzip handout (gzipHeader ++ storedBlocks (b.length + 1) b) = ⟨b, some .corruptStream⟩ := by
  have hmembers := Gzip.members_storedBlocks handout (gzipHeader ++ storedBlocks (b.length + 1) b).tail.length b []
  simpa [gunzip, gzipHeader, Gzip.trailerFits] using hmembers

end Compression

end BeamDisasm

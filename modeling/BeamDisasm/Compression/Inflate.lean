import BeamDisasm.Compression.Huffman

/-!
# Deflated data

Deflated data are a sequence of blocks. A block is stored, or made of the words of two prefix codes: literal
bytes and lengths, and distances back into what has been written. What was written before the data end or turn
out damaged is kept.
-/
namespace BeamDisasm.Compression

/-- The bytes written, and what is left of the stream or why it was left. -/
structure Inflated where
  output : Array UInt8
  rest : Except Stop Bits

namespace Inflate

/-- The least length of each symbol from 257 on, and the number of bits added to it. -/
def lengthTable : List (Nat × Nat) :=
  [(3, 0), (4, 0), (5, 0), (6, 0), (7, 0), (8, 0), (9, 0), (10, 0), (11, 1), (13, 1), (15, 1), (17, 1),
    (19, 2), (23, 2), (27, 2), (31, 2), (35, 3), (43, 3), (51, 3), (59, 3), (67, 4), (83, 4), (99, 4),
    (115, 4), (131, 5), (163, 5), (195, 5), (227, 5), (258, 0)]

/-- The least distance of each symbol, and the number of bits added to it. -/
def distanceTable : List (Nat × Nat) :=
  [(1, 0), (2, 0), (3, 0), (4, 0), (5, 1), (7, 1), (9, 2), (13, 2), (17, 3), (25, 3), (33, 4), (49, 4),
    (65, 5), (97, 5), (129, 6), (193, 6), (257, 7), (385, 7), (513, 8), (769, 8), (1025, 9), (1537, 9),
    (2049, 10), (3073, 10), (4097, 11), (6145, 11), (8193, 12), (12289, 12), (16385, 13), (24577, 13)]

/-- Damaged data. -/
def damaged {α : Type} : BitReader α := fun _ => .error .corrupt

/-- The amount that a symbol of a table stands for. -/
def amount (table : List (Nat × Nat)) (symbol : Nat) : BitReader Nat :=
  match table[symbol]? with
  | some (least, extra) => do
    let n ← Bits.number extra
    return least + n
  | none => damaged

/-- What a word of a block stands for. -/
inductive Token where
  | literal (byte : UInt8)
  | copy (length distance : Nat)
  | endOfBlock

/-- The next token. -/
def token (literals distances : Huffman) : BitReader Token := do
  let s ← literals.decode
  if s < 256 then return .literal (UInt8.ofNat s)
  else if s = 256 then return .endOfBlock
  else do
    let length ← amount lengthTable (s - 257)
    let d ← distances.decode
    let distance ← amount distanceTable d
    return .copy length distance

/-- Writes `n` bytes again, each from `distance` bytes back. -/
def repeatBack (distance : Nat) : Nat → Array UInt8 → Array UInt8
  | 0, out => out
  | n + 1, out => repeatBack distance n (out.push (out.getD (out.size - distance) 0))

/-- The tokens of a block, written after `out`. -/
def tokens (literals distances : Huffman) : Nat → Array UInt8 → Bits → Inflated
  | 0, out, _ => ⟨out, .error .truncated⟩
  | fuel + 1, out, s =>
    match token literals distances s with
    | .error e => ⟨out, .error e⟩
    | .ok (.literal b, t) => tokens literals distances fuel (out.push b) t
    | .ok (.endOfBlock, t) => ⟨out, .ok t⟩
    | .ok (.copy length distance, t) =>
      if out.size < distance then ⟨out, .error .corrupt⟩
      else tokens literals distances fuel (repeatBack distance length out) t

/-- A stored block, written after `out`: its length twice, the second time with every bit turned, and its
bytes. -/
def stored (out : Array UInt8) (s : Bits) : Inflated :=
  match s.aligned with
  | a :: b :: c :: d :: rest =>
    let n := Bytes.littleEndian [a, b]
    if n + Bytes.littleEndian [c, d] ≠ 65535 then ⟨out, .error .corrupt⟩
    else
      let part := rest.take n
      let out := out ++ part
      if part.length < n then ⟨out, .error .truncated⟩ else ⟨out, .ok (Bits.ofBytes (rest.drop n))⟩
  | _ => ⟨out, .error .truncated⟩

/-- The lengths of the fixed code for literals. -/
def fixedLengths : List Nat :=
  List.replicate 144 8 ++ List.replicate 112 9 ++ List.replicate 24 7 ++ List.replicate 8 8

/-- The fixed code for literals. -/
def fixedLiterals : Huffman := Huffman.ofLengths fixedLengths

/-- The fixed code for distances. -/
def fixedDistances : Huffman := Huffman.ofLengths (List.replicate 32 5)

/-- The order in which the lengths of the code for lengths are given. -/
def lengthOrder : List Nat :=
  [16, 17, 18, 0, 8, 7, 9, 6, 10, 5, 11, 4, 12, 3, 13, 2, 14, 1, 15]

/-- `n` lengths of three bits. -/
def shortLengths : Nat → BitReader (List Nat)
  | 0 => pure []
  | n + 1 => do
    let l ← Bits.number 3
    let ls ← shortLengths n
    return l :: ls

/-- `n` lengths read by a code, after the lengths in `done`, the last one first. Three symbols repeat the
length before or zero. -/
def codedLengths (code : Huffman) (n : Nat) : Nat → List Nat → BitReader (List Nat)
  | 0, done => if done.length = n then pure done.reverse else damaged
  | fuel + 1, done =>
    if n ≤ done.length then (if done.length = n then pure done.reverse else damaged)
    else do
      let s ← code.decode
      if s < 16 then codedLengths code n fuel (s :: done)
      else if s = 16 then
        match done with
        | [] => damaged
        | l :: _ => do
          let k ← Bits.number 2
          codedLengths code n fuel (List.replicate (k + 3) l ++ done)
      else if s = 17 then do
        let k ← Bits.number 3
        codedLengths code n fuel (List.replicate (k + 3) 0 ++ done)
      else do
        let k ← Bits.number 7
        codedLengths code n fuel (List.replicate (k + 11) 0 ++ done)

/-- The two codes that a block brings along. -/
def codes : BitReader (Huffman × Huffman) := do
  let hlit ← Bits.number 5
  let hdist ← Bits.number 5
  let hclen ← Bits.number 4
  if 29 < hlit ∨ 29 < hdist then damaged
  else do
    let short ← shortLengths (hclen + 4)
    let pairs := lengthOrder.zip short
    let lengths := (List.range 19).map fun i => ((pairs.find? fun p => p.1 == i).map Prod.snd).getD 0
    let code := Huffman.ofLengths lengths
    if !code.isComplete then damaged
    else do
      let all ← codedLengths code (hlit + 257 + (hdist + 1)) (hlit + 257 + (hdist + 1)) []
      let literals := Huffman.ofLengths (all.take (hlit + 257))
      let distances := Huffman.ofLengths (all.drop (hlit + 257))
      if all.getD 256 0 = 0 ∨ !literals.isUsable ∨ !distances.isUsable then damaged
      else return (literals, distances)

/-- A block of the given kind, written after `out`. -/
def block (kind : Nat) (out : Array UInt8) (s : Bits) : Inflated :=
  match kind with
  | 0 => stored out s
  | 1 => tokens fixedLiterals fixedDistances s.fuel out s
  | 2 => match codes s with
    | .ok ((literals, distances), t) => tokens literals distances t.fuel out t
    | .error e => ⟨out, .error e⟩
  | _ => ⟨out, .error .corrupt⟩

/-- The blocks up to the one marked as the last, written after `out`. -/
def blocks : Nat → Array UInt8 → Bits → Inflated
  | 0, out, _ => ⟨out, .error .truncated⟩
  | fuel + 1, out, s =>
    match (do
        let last ← Bits.number 1
        let kind ← Bits.number 2
        return (last, kind) : BitReader (Nat × Nat)) s with
    | .error e => ⟨out, .error e⟩
    | .ok ((last, kind), t) =>
      let r := block kind out t
      match r.rest with
      | .error _ => r
      | .ok u => if last = 1 then r else blocks fuel r.output u

end Inflate

/-- The bytes that deflated data stand for. Each block takes at least three bits, so the number of bits is turns
enough. -/
def inflate (b : Bytes) : Inflated :=
  Inflate.blocks (Bits.ofBytes b).fuel #[] (Bits.ofBytes b)

end BeamDisasm.Compression

import BeamDisasm.Compression.Bits

/-!
# Prefix codes

A code is given by the lengths of its words: words of one length are consecutive numbers, and shorter words
come first. It is decoded by walking down the lengths.
-/
namespace BeamDisasm.Compression

/-- A prefix code: how many words have length 1, 2, and so on, and the symbols in the order of their words. -/
structure Huffman where
  counts : List Nat
  symbols : Array Nat

namespace Huffman

/-- The longest word of a code. -/
def maxLength : Nat := 15

/-- How many of the lengths are each of 1 to 15. -/
def countLengths (lengths : List Nat) : List Nat :=
  (List.range maxLength).map fun n => lengths.count (n + 1)

/-- The symbols whose words have the length `n`, in ascending order. -/
def symbolsOfLength (lengths : List Nat) (n : Nat) : List Nat :=
  (lengths.zipIdx.filter fun p => p.1 == n).map Prod.snd

/-- The code with the given lengths; a length of zero gives the symbol no word. -/
def ofLengths (lengths : List Nat) : Huffman where
  counts := countLengths lengths
  symbols := ((List.range maxLength).flatMap fun n => symbolsOfLength lengths (n + 1)).toArray

/-- The words left over after the lengths in `counts`, when `left` words are free at the length before; none
if there are too many words. -/
def spare : List Nat → Nat → Option Nat
  | [], left => some left
  | c :: cs, left => if c ≤ 2 * left then spare cs (2 * left - c) else none

/-- Every bit string begins with a word, and no word begins another. -/
def isComplete (h : Huffman) : Bool :=
  spare h.counts 1 == some 0

/-- A complete code, or one with no word longer than a single bit. -/
def isUsable (h : Huffman) : Bool :=
  h.isComplete || ((spare h.counts 1).isSome && (h.counts.drop 1).all (· == 0))

/-- Walks down the lengths. The word so far is `code`, the first word of this length is `first`, and the symbols
from `index` on belong to it. -/
def walk (symbols : Array Nat) : List Nat → Nat → Nat → Nat → BitReader Nat
  | [], _, _, _ => fun _ => .error .corrupt
  | c :: cs, code, first, index => do
    let b ← Bits.bit
    let code := 2 * code + b
    let first := 2 * first
    if code < first + c then
      match symbols[index + (code - first)]? with
      | some s => return s
      | none => fun _ => .error .corrupt
    else walk symbols cs code (first + c) (index + c)

/-- The symbol of the next word. -/
def decode (h : Huffman) : BitReader Nat :=
  walk h.symbols h.counts 0 0 0

end Huffman

end BeamDisasm.Compression

import BeamDisasm.ExtTerm.Encode
import BeamDisasm.Table.Entry
import BeamDisasm.Term.Encode

/-!
# Writing tables
-/
namespace BeamDisasm

/-- Numbers in four bytes each. -/
def encodeWords (ns : List Nat) : Bytes :=
  ns.flatMap (Bytes.ofNat 4)

/-- A number in four bytes, which it has to fit. -/
def encodeWord? (n : Int) : Except Fault Bytes :=
  if 0 ≤ n ∧ n < 0x100000000 then .ok (Bytes.ofNat 4 n.toNat) else .error .fieldOverflow

/-- A signed number in four bytes, which it has to fit. -/
def encodeSigned? (n : Int) : Except Fault Bytes :=
  if -0x80000000 ≤ n ∧ n < 0x80000000 then .ok (Bytes.ofNat 4 (n % 0x100000000).toNat) else .error .fieldOverflow

namespace AtomTable

/-- Names behind their count, each with its length in one byte. -/
def encodeClassic (names : List Bytes) : Bytes :=
  Bytes.ofNat 4 names.length ++ names.flatMap fun n => UInt8.ofNat n.length :: n

/-- Names behind their count below zero, each with its length in a compact literal. -/
def encodeLiteral (names : List Bytes) : Bytes :=
  Bytes.ofNat 4 ((0x100000000 - names.length) % 0x100000000) ++ names.flatMap fun n => Term.encode 0 n.length ++ n

end AtomTable

namespace LiteralTable

/-- Literals behind their count, each behind its length. -/
def encodeBody (terms : List ExtTerm) : Bytes :=
  Bytes.ofNat 4 terms.length ++ terms.flatMap fun t => ExtTerm.lengthFirst 4 t.encodeMarked

/-- The table as it is stored. -/
def encodeStored (terms : List ExtTerm) : Bytes :=
  Bytes.ofNat 4 0 ++ encodeBody terms

/-- The table in a stream that `pack` compresses, behind its size. -/
def encodeCompressed (pack : Bytes → Bytes) (terms : List ExtTerm) : Bytes :=
  Bytes.ofNat 4 (encodeBody terms).length ++ pack (encodeBody terms)

end LiteralTable

namespace LineTable

/-- A line table with references that are written already, `count` in number, and the names of files. -/
def encode (count : Nat) (refs : Bytes) (files : List Bytes) : Bytes :=
  encodeWords [0, 0, 0, count, files.length] ++ refs ++ files.flatMap (ExtTerm.lengthFirst 2)

end LineTable

end BeamDisasm

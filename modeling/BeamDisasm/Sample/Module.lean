import BeamDisasm.Compression.Zlib
import BeamDisasm.Instruction.Encode
import BeamDisasm.Module.Encode
import BeamDisasm.Sample.Operands
import BeamDisasm.Table.Encode

/-!
# Sample modules

A sample module has any number of functions of one shape, which call each other, switch and jump, and a last
function with every operation in it. Its tables cover what the functions refer to.
-/
namespace BeamDisasm.Sample

open TermForm

/-- An instruction as it is written. -/
abbrev Line := Nat × List TermForm

/-- A function of the common shape. It owns four labels from `4 * i + 1` on. -/
def functionLines (i : Nat) : List Line :=
  let base := 4 * i
  [(1, [literal (base + 1)]),
    (153, [literal 1]),
    (2, [atom 1, atom (2 + i % 3), literal 1]),
    (1, [literal (base + 2)]),
    (1, [literal (base + 3)]),
    (1, [literal (base + 4)]),
    (4, [literal 1, label (base + 2)]),
    (6, [literal 1, label (base + 2)]),
    (5, [literal 1, label (base + 2), literal 0]),
    (7, [literal 1, literal 0]),
    (8, [literal 1, literal 0, literal 0]),
    (78, [literal 1, literal 0]),
    (59, [xreg 0, label (base + 2), valueCases base]),
    (60, [xreg 0, label (base + 2), sizeCases base]),
    (43, [label (base + 3), xreg 0, atom 2]),
    (61, [label 2000]),
    (64, [.extLiteral 0, xreg 0]),
    (19, [])]

/-- Every operation from the calls on, with its sample operands. -/
def everyOperation : List Line :=
  (Operation.table.drop 3).map fun op => (op.code, operands op)

/-- Operations with operands of other kinds than the usual ones. -/
def unusualLines : List Line :=
  [(16, [xreg 0, integer 2]),
    (23, [label 2, literal 3]),
    (52, [integer 2, literal 1]),
    (153, [literal 2]),
    (13, [integer 1, .alloc [(literal 0, literal 2)], integer 2]),
    (64, [.typed (xreg 1) (literal 3), yreg 2]),
    (64, [.extLiteral 500, xreg 0]),
    (3, [])]

/-- The last function, behind `n` others. -/
def lastLines (n : Nat) : List Line :=
  [(1, [literal (4 * n + 1)]), (2, [atom 1, atom 5, literal 0]), (1, [literal (4 * n + 2)])] ++
    everyOperation ++ unusualLines

/-- The instructions of a sample with `n` functions of the common shape. -/
def codeLines (n : Nat) : List Line :=
  (List.range n).flatMap functionLines ++ lastLines n

/-- The written instructions. -/
def codeBody (n : Nat) : Bytes :=
  (codeLines n).flatMap fun (code, ops) => Instruction.encodeForms code ops

/-- The code chunk. -/
def code (n : Nat) : Bytes :=
  encodeWords [0, 0, 184, 4 * n + 2, n + 1] ++ codeBody n

/-- The names of atoms. -/
def atomNames (n : Nat) : List Bytes :=
  (List.range n).map fun (i : Nat) => Bytes.ofText ("atom" ++ Text.digits i)

/-- The atom chunk, in the form with compact lengths or in the classic one. -/
def atoms (n : Nat) (compactLengths : Bool) : Bytes :=
  if compactLengths then AtomTable.encodeLiteral (atomNames n) else AtomTable.encodeClassic (atomNames n)

/-- A count and rows of numbers. -/
def rows (n : Nat) (row : Nat → List Nat) : Bytes :=
  encodeWords (n :: (List.range n).flatMap row)

/-- The import chunk. -/
def imports (n : Nat) : Bytes := rows n fun i => [1, 2 + i % 3, 1]

/-- The export chunk. -/
def exports (n : Nat) : Bytes := rows n fun i => [2 + i % 3, i % 4, 2]

/-- The function chunk. -/
def functions (n : Nat) : Bytes := rows n fun i => [2 + i % 3, i % 3, 2, i, 0, 0]

/-- An atom in its shortest form. -/
def smallAtom (s : String) : ExtTerm := .atom .smallUtf8 (Bytes.ofAscii s)

/-- One literal of every kind. -/
def literals : List ExtTerm :=
  [.smallInteger 42,
    .integer 123456,
    .string (Bytes.ofAscii "he\nlo"),
    .binary (Bytes.ofAscii "bin"),
    .smallTuple [smallAtom "mod", .smallInteger 1],
    .largeTuple [.smallInteger 1, .smallInteger 2],
    .map [(smallAtom "mod", .smallInteger 9)],
    .list [.smallInteger 1, .smallInteger 2],
    .smallBig 0 [1, 2, 3],
    .newFloat [0, 0, 0, 0, 0, 0, 0, 0],
    .atom .utf8 (Bytes.ofAscii "atom"),
    .atom .latin (Bytes.ofAscii "atom"),
    .remoteFun (.raw (Bytes.ofAscii "mod")) (.raw (Bytes.ofAscii "fun")) (.number 2),
    .nil,
    .cacheRef 5]

/-- The literal chunk, stored or in a stream that `pack` compresses. -/
def literalChunkBy (pack : Bytes → Bytes) (compressed : Bool) : Bytes :=
  if compressed then LiteralTable.encodeCompressed pack literals else LiteralTable.encodeStored literals

/-- The literal chunk, stored or in a compressed stream. -/
def literalChunk (compressed : Bool) : Bytes :=
  literalChunkBy Compression.compress compressed

/-- The line chunk. -/
def lines : Bytes :=
  LineTable.encode 3 ([integer 10, atom 2, integer 20, integer 30].flatMap TermForm.encode)
    [Bytes.ofAscii "test.ex", Bytes.ofAscii "other.ex"]

/-- The chunks of a sample, the last of which is of no known kind. -/
def chunksBy (pack : Bytes → Bytes) (n : Nat) (compactLengths compressed : Bool) : List (Bytes × Bytes) :=
  [(Bytes.ofAscii "AtU8", atoms 16 compactLengths),
    (Bytes.ofAscii "ImpT", imports 4),
    (Bytes.ofAscii "ExpT", exports 4),
    (Bytes.ofAscii "FunT", functions 3),
    (Bytes.ofAscii "LitT", literalChunkBy pack compressed),
    (Bytes.ofAscii "Line", lines),
    (Bytes.ofAscii "Code", code n),
    (Bytes.ofAscii "StrT", Bytes.ofAscii "ignored")]

/-- A sample module with `n` functions of the common shape. -/
def file (n : Nat) (compactLengths compressed : Bool) : Bytes :=
  Module.encodeFile (chunksBy Compression.compress n compactLengths compressed)

/-!
A size may be asked for that no sample can have. It is refused where a field of the sample would have to hold it, and
counts as zero elsewhere if it is below zero.
-/

/-- The atom chunk of any size. The form with compact lengths has the count below zero. -/
def atoms? (n : Int) (compactLengths : Bool) : Except Fault Bytes := do
  let count ← encodeSigned? (if compactLengths then -n else n)
  return count ++ (atoms n.toNat compactLengths).drop 4

/-- A chunk that starts with its size. -/
def counted? (chunk : Nat → Bytes) (n : Int) : Except Fault Bytes := do
  let _ ← encodeWord? n
  return chunk n.toNat

/-- The number of labels of the code can be written. -/
def checkSize (n : Int) : Except Fault Unit := do
  let _ ← encodeWord? (4 * n + 2)
  let _ ← encodeWord? (n + 1)

/-- The code chunk of any size. -/
def code? (n : Int) : Except Fault Bytes := do
  checkSize n
  return code n.toNat

/-- A sample module of any size, with a stream that `pack` compresses. The file is refused as well when it is too
long for the field of its length. -/
def fileBy? (pack : Bytes → Bytes) (n : Int) (compactLengths compressed : Bool) : Except Fault Bytes := do
  checkSize n
  Module.encodeFile? (chunksBy pack n.toNat compactLengths compressed)

/-- A sample module of any size. -/
def file? (n : Int) (compactLengths compressed : Bool) : Except Fault Bytes :=
  fileBy? Compression.compress n compactLengths compressed

end BeamDisasm.Sample

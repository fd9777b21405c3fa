import BeamDisasm.Term.Decode

/-!
# The line table

A reference is a line in a file. Files are numbered from one by their names; the number zero means that no file
is given. References are written as integers, with an atom in front whenever the file changes.
-/
namespace BeamDisasm

/-- A file by its number, and a line in it. -/
structure LineRef where
  file : Int
  line : Int
  deriving Repr, DecidableEq

/-- References, and the names of files with a placeholder first. -/
structure LineTable where
  refs : List LineRef
  files : List Scalar
  deriving Repr, DecidableEq

namespace LineTable

/-- The table without references and names. -/
def empty : LineTable := ⟨[], [.text "invalid location"]⟩

/-- The table with one more name of a file. -/
def addFile (t : LineTable) (name : Scalar) : LineTable := { t with files := t.files ++ [name] }

/-- The table with one more reference. -/
def addRef (t : LineTable) (file line : Int) : LineTable := { t with refs := t.refs ++ [⟨file, line⟩] }

/-- The file, if one is given, and the line of a reference. -/
def resolve (t : LineTable) (r : LineRef) : Except Fault (Option Scalar × Int) :=
  if r.file = 0 then .ok (none, r.line)
  else do
    let name ← signedGet t.files r.file
    return (some name, r.line)

/-- The file and the line at an index, which has to be a number. -/
def get (t : LineTable) (i : Index) : Except Fault (Option Scalar × Int) := do
  let n ← i.toNumber
  let r ← signedGet t.refs n
  t.resolve r

/-- All references with the names of their files. -/
def all (t : LineTable) : Except Fault (List (Scalar × Int)) :=
  t.refs.mapM fun r => do
    let name ← signedGet t.files r.file
    return (name, r.line)

/-- Reads `count` references for files numbered below `files`, where `file` is the current one. Terms that are
neither integers nor atoms are passed over, so there are at most `fuel` terms, the number of bytes. -/
def readRefs (files : Nat) : Nat → Nat → Int → Reader (List LineRef)
  | 0, 0, _ => pure []
  | 0, _ + 1, _ => Reader.fail .endOfData
  | _ + 1, 0, _ => pure []
  | fuel + 1, count + 1, file => do
    let t ← Term.read
    match t with
    | .integer line => do
      let rs ← readRefs files fuel count file
      return ⟨file, line⟩ :: rs
    | .atom i =>
      if i = 0 then Reader.fail .unusableKind
      else if i - 1 < files then readRefs files fuel (count + 1) (i - 1)
      else Reader.fail .inconsistent
    | _ => readRefs files fuel (count + 1) file

/-- The name of a file behind its length in two bytes. -/
def fileName : Reader Scalar := do
  let n ← Reader.number 2
  let b ← Reader.upTo n
  return .raw b

/-- Two counts behind three fields that are not used. -/
def readHeader : Reader (Nat × Nat) := do
  let b ← Reader.exactly 20
  return (Bytes.toNat ((b.drop 12).take 4), Bytes.toNat (b.drop 16))

/-- The counts, the references and the names. The first reference is to no line of no file. -/
def read : Reader LineTable := do
  let (refCount, fileCount) ← readHeader
  let refs ← fun s => readRefs fileCount s.length refCount 0 s
  let names ← Reader.times fileCount fileName
  return { refs := ⟨0, 0⟩ :: refs, files := .text "invalid location" :: names }

end LineTable

end BeamDisasm

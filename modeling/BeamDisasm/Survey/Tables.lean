import BeamDisasm.Sample.Module
import BeamDisasm.Survey.Basic
import BeamDisasm.Table.Atom
import BeamDisasm.Table.Code
import BeamDisasm.Table.Line
import BeamDisasm.Table.Literal

/-!
# Surveys of tables

Every table of a sample is written and read back. Their entries are reported, with a mark for one that is missing.
-/
namespace BeamDisasm.Survey

open Report

/-- The atoms of a survey of `n` entries: a fourth of them, and at least eight. -/
def atomCount (n : Int) : Nat := max 8 (n / 4).toNat

/-- The functions of a survey of `n` entries: an eighth of them, and at least four. -/
def functionCount (n : Int) : Nat := max 4 (n / 8).toNat

/-- The functions in the code of a survey of `n` entries: one of fifty, and at least two. -/
def codeCount (n : Int) : Nat := max 2 (n / 50).toNat

/-- The size of an atom table, the name put in the first place and the name behind it. -/
def atomEntries (n : Int) : Except Fault (List Report) := do
  let t ← AtomTable.read.run (Sample.atoms (atomCount n) false)
  let named := t.setModuleName (Bytes.ofAscii "modname")
  let other ← AtomTable.read.run (Sample.atoms (atomCount n) true)
  return [.list [number t.names.length, bytes (← named.get (.number 0)), bytes (← named.get (.number 1))],
    mark "ie" (t.get (.number (t.names.length + 1))),
    number other.names.length]

/-- The first imported functions, and the sums of the numbers of each. -/
def importEntries (n : Int) : Except Fault (List Report) := do
  let es ← (countedEntries ImportEntry.read).run (← Sample.counted? Sample.imports n)
  let sums := es.map fun e => number (e.module + e.function + e.arity)
  return [Report.texts (← (es.take 3).mapM ImportEntry.shown), .list sums, mark "ie" (entryAt es (.number (n + 1)))]

/-- The first exported functions, and the sums of the numbers of each. -/
def exportEntries (n : Int) : Except Fault (List Report) := do
  let es ← (countedEntries ExportEntry.read).run (← Sample.counted? Sample.exports n)
  let sums := es.map fun e => number (e.name + e.arity + e.label)
  return [Report.texts (← (es.take 3).mapM ExportEntry.shown), .list sums, mark "ie" (entryAt es (.number (n + 1)))]

/-- The local functions. -/
def functionEntries (n : Int) : Except Fault (List Report) := do
  let es ← (countedEntries FunctionEntry.read).run (Sample.functions (functionCount n))
  return [Report.texts (← es.mapM FunctionEntry.shown)]

/-- The texts of the first twenty literals, with a word for those that are missing. -/
def literalEntries : Except Fault (List Report) := do
  let t ← LiteralTable.parse (Sample.literalChunk true)
  let ss ← (List.range 20).mapM fun (i : Nat) => do
    match ← t.get i with
    | some e => e.text
    | none => return "None"
  return [Report.texts ss]

/-- A place in the source. -/
def place (p : Option Scalar × Int) : Report :=
  match p.1 with
  | some file => .list [scalar file, number p.2]
  | none => .list [.nothing, number p.2]

/-- The names and references of a line table, and the places that they stand for. -/
def lineEntries : Except Fault (List Report) := do
  let t ← LineTable.read.run Sample.lines
  let places ← t.all
  let found ← (List.range t.refs.length).mapM fun (i : Nat) => t.get (.number i)
  return [.list [.list (t.files.map scalar),
      .list (t.refs.map fun r => .list [number r.file, number r.line]),
      .list (places.map fun (file, line) => .list [scalar file, number line])],
    .list (found.map place),
    mark "ie" (t.get (.number (t.refs.length + 1)))]

/-- The number of instructions of the code. -/
def codeSize (n : Int) : Except Fault (List Report) := do
  let is ← Code.read.run (Sample.code (codeCount n))
  return [number is.length]

/-- The tables of a survey of `n` entries. -/
def tables (n : Int) : Except Fault Report := do
  let parts ← [atomEntries n, importEntries n, exportEntries n, functionEntries n, literalEntries, lineEntries,
    codeSize n].mapM id
  return .list parts.flatten

end BeamDisasm.Survey

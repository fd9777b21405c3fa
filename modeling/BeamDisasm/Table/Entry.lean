import BeamDisasm.Reader
import BeamDisasm.Term.Basic
import BeamDisasm.Text.Number

/-!
# Tables of functions

The tables of imported, exported and local functions have entries of a fixed number of fields, each of four
bytes.
-/
namespace BeamDisasm

/-- A function of another module, by the atoms of its module and its name. -/
structure ImportEntry where
  module : Int
  function : Int
  arity : Int
  deriving Repr, DecidableEq

/-- A function that other modules can call, by the atom of its name, and the label where it starts. -/
structure ExportEntry where
  name : Int
  arity : Int
  label : Int
  deriving Repr, DecidableEq

/-- A local function, by the atom of its name. -/
structure FunctionEntry where
  name : Int
  arity : Int
  offset : Int
  index : Int
  free : Int
  unique : Int
  deriving Repr, DecidableEq

/-- The entry at an index, which has to be a number. -/
def entryAt {α : Type} (es : List α) (i : Index) : Except Fault α := do
  let n ← i.toNumber
  signedGet es n

/-- A field of four bytes. -/
def word : Reader Int := do
  let n ← Reader.number 4
  return n

/-- A count of four bytes and as many entries. -/
def countedEntries {α : Type} (entry : Reader α) : Reader (List α) := do
  let n ← Reader.number 4
  Reader.times n entry

/-- Consecutive fields of four bytes each. They are taken together, so the whole entry is short when one of
them is. -/
def words (n : Nat) : Reader (List Int) := do
  let b ← Reader.exactly (4 * n)
  Reader.lift ((Reader.times n word).run b)

/-- An entry that consecutive fields make. -/
def entryOfWords {α : Type} (n : Nat) (ofWords : List Int → Option α) : Reader α := do
  match ofWords (← words n) with
  | some e => return e
  | none => Reader.fail .shortField

namespace ImportEntry

def ofWords : List Int → Option ImportEntry
  | [module, function, arity] => some { module, function, arity }
  | _ => none

/-- The next entry. -/
def read : Reader ImportEntry := entryOfWords 3 ofWords

/-- The entry with its fields named. -/
def shown (e : ImportEntry) : Except Fault String := do
  return "BeamImportEntry(module:" ++ (← Text.decimal e.module) ++ ", function:" ++ (← Text.decimal e.function) ++
    ", arity:" ++ (← Text.decimal e.arity) ++ ")"

end ImportEntry

namespace ExportEntry

def ofWords : List Int → Option ExportEntry
  | [name, arity, label] => some { name, arity, label }
  | _ => none

/-- The next entry. -/
def read : Reader ExportEntry := entryOfWords 3 ofWords

/-- The entry with its fields named. -/
def shown (e : ExportEntry) : Except Fault String := do
  return "BeamExportEntry(name:" ++ (← Text.decimal e.name) ++ ", arity:" ++ (← Text.decimal e.arity) ++
    ", label:" ++ (← Text.decimal e.label) ++ ")"

end ExportEntry

namespace FunctionEntry

def ofWords : List Int → Option FunctionEntry
  | [name, arity, offset, index, free, unique] => some { name, arity, offset, index, free, unique }
  | _ => none

/-- The next entry. -/
def read : Reader FunctionEntry := entryOfWords 6 ofWords

/-- The entry with its fields named. -/
def shown (e : FunctionEntry) : Except Fault String := do
  return "BeamFunctionEntry(atom:" ++ (← Text.decimal e.name) ++ ", arity:" ++ (← Text.decimal e.arity) ++
    ", offset:" ++ (← Text.decimal e.offset) ++ ", index:" ++ (← Text.decimal e.index) ++
    ", nfree:" ++ (← Text.decimal e.free) ++ ", ouniq:" ++ (← Text.decimal e.unique) ++ ")"

end FunctionEntry

end BeamDisasm

import BeamDisasm.Archive.Encode
import BeamDisasm.Loading.Basic
import BeamDisasm.Sample.Module
import BeamDisasm.Survey.Basic

/-!
# Surveys of loading

A sample is loaded from a plain file, a gzip file and an archive, and data that are no module are refused.
-/
namespace BeamDisasm.Survey

open Report

/-- The module that is loaded in all forms. -/
def loadedSample : Bytes := Sample.file 1 false false

/-- Data that are no module. -/
def noModule : Bytes := Bytes.ofAscii "this is no module at all"

/-- The name of a loaded module. -/
def loadedName (a : Attempt Module) : Except Fault Report := do
  let m ← a.result
  return text? (← m.name)

/-- A member of an archive with the number `i`. -/
def memberName (i : Nat) : Bytes :=
  Bytes.ofText ("lib/ebin/m" ++ Text.digits (i : Nat) ++ ".beam")

/-- An archive of a gzip file and `n` plain copies of the sample. -/
def copies (n : Nat) : Bytes :=
  Archive.encode ((memberName 0, Compression.gzip loadedSample) ::
    (List.range n).map fun i => (memberName (i + 1), loadedSample))

/-- An archive with a member that is no module. -/
def badArchive : Bytes :=
  Archive.encode [(memberName 0, loadedSample), (memberName 1, noModule)]

/-- The number of modules of an archive; nothing if one of its members is no module. -/
def archiveSize (b : Bytes) : Except Fault Report := do
  match ← (Loading.loadArchive .pieces b).result with
  | some ms => return number ms.length
  | none => return .nothing

/-- A local function with its name. -/
def functionViews (e : Option String × FunctionEntry) : Report :=
  .list (text? e.1 :: [e.2.arity, e.2.offset, e.2.index, e.2.free, e.2.unique].map number)

/-- The sample and `n` copies of it, loaded in every form. -/
def loading (n : Int) : Except Fault Report := do
  let m ← Module.parse loadedSample
  let zipped := Compression.gzip loadedSample
  let fs ← m.functionList
  return .list [← loadedName (Loading.load .pieces loadedSample),
    ← loadedName (Loading.load .pieces zipped),
    ← archiveSize (copies n.toNat),
    ← archiveSize badArchive,
    mark "bad" (Loading.load .pieces noModule).result,
    ← loadedName (Loading.gzipped .pieces zipped),
    .list (fs.map functionViews),
    mark "imp-bug" m.importList,
    mark "exp-bug" m.exportList]

end BeamDisasm.Survey

import BeamDisasm.Archive.Encode
import BeamDisasm.Command.Run
import BeamDisasm.Survey.Loading

/-!
# Surveys of the command

The command is run on a small file tree with module files and an archive.
-/
namespace BeamDisasm.Survey

open Report

/-- An archive of two modules. -/
def smallArchive : Bytes :=
  Archive.encode [(memberName 0, loadedSample), (memberName 1, loadedSample)]

/-- Three module files and an archive in one directory. -/
def smallTree : FileTree :=
  FileTree.ofFiles ["work"] [("in/a.beam", loadedSample), ("in/b.beam", loadedSample), ("in/c.beam", loadedSample),
    ("in/pack.ez", smallArchive)]

/-- The number of modules that a session gives on the small tree. -/
def moduleCount (s : Session (List Module)) : Except Fault Report :=
  (s.run { tree := smallTree }).1.map fun ms => number ms.length

/-- The numbers of modules below a directory and in an archive, and the listings that are written of them. -/
def command : Except Fault Report := do
  let found ← moduleCount (Command.searchModules "in")
  let packed ← moduleCount (do return (← Command.loadModules "in/pack.ez").getD [])
  let (status, w) := Command.run ["-s", "in", "-o", "out"] smallTree
  let _ ← status
  return .list [found, packed, Report.texts (FileTree.namesBelow ["work", "out"] (w.tree.files.map Prod.fst))]

end BeamDisasm.Survey

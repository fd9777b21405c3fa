import BeamDisasm.Command.Run

/-!
# The program

The parts of the disk that a command line names are taken into a file tree, the command runs on the tree, and what it
has changed there is changed on the disk.
-/
namespace BeamDisasm.Command

/-- The file has a name by which its content may matter. -/
def isOfInterest (name : String) : Bool :=
  Loading.isModulePath name || Loading.isArchivePath name || Path.hasEnding ".beamc" name

/-- Takes what is at a location into the tree. -/
def take (content : Bool) (t : FileTree) (l : Location) : IO FileTree := do
  let path := (← IO.currentDir) / FileTree.pathOf l
  if ← path.isDir then return t.withDirectory l
  else if ← path.pathExists then
    let b : Bytes ← if content then (do return (← IO.FS.readBinFile path).toList) else pure []
    return t.withFile l b
  else return t

/-- Takes all that is below a location into the tree. -/
partial def takeBelow (t : FileTree) (l : Location) : IO FileTree := do
  let path := (← IO.currentDir) / FileTree.pathOf l
  if ← path.isDir then
    let mut t := t.withDirectory l
    for entry in ← path.readDir do
      t ← takeBelow t (l ++ [entry.fileName])
    return t
  else take (isOfInterest (l.getLastD "")) t l

/-- Takes what is on the way to a location into the tree. -/
def takeWay (t : FileTree) (l : Location) : IO FileTree :=
  ((List.range l.length).map fun n => l.take n).foldlM (take false) t

/-- The part of the disk that options name. -/
def gather (here : Location) (o : Options) : IO FileTree := do
  let output := FileTree.destination here o.outputDir
  let mut t := FileTree.ofFiles here []
  t ← takeBelow (← takeWay t output) output
  if let some dir := o.searchDir then
    let l := FileTree.destination here dir
    t ← takeBelow (← takeWay t l) l
  if let some file := o.file then
    let l := FileTree.destination here file
    t ← take true (← takeWay t l) l
  return t

/-- Changes the disk as the tree was changed. -/
def store (before after : FileTree) : IO Unit := do
  for l in after.newDirectories before do
    IO.FS.createDirAll (FileTree.pathOf l)
  for (l, b) in after.changedSince before do
    IO.FS.writeBinFile (FileTree.pathOf l) ⟨b.toArray⟩

/-- Runs a command line and tells its status. -/
def execute (words : List String) : IO UInt32 := do
  let here := FileTree.destination [] (← IO.currentDir).toString
  let before ← match Arguments.parse words with
    | .options o => gather here o
    | _ => pure (FileTree.ofFiles here [])
  let (status, world) := run words before
  IO.print world.output
  store before world.tree
  match status with
  | .ok n =>
    if n ≠ 0 then IO.eprintln (helpLines.headD "")
    return UInt32.ofNat n
  | .error fault =>
    IO.eprintln ("error: " ++ reprStr fault)
    return 1

end BeamDisasm.Command

/-- Disassembles the modules that the command line names. -/
def main (words : List String) : IO UInt32 :=
  BeamDisasm.Command.execute words

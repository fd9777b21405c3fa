import BeamDisasm.Analysis.Annotation
import BeamDisasm.Command.Arguments
import BeamDisasm.Command.FileTree
import BeamDisasm.Loading.Basic

/-!
# Running a command

A command loads modules, analyses and annotates them, and writes one listing for each. It works on a file tree
and an output, and both are as far as it got when it ends with a fault.
-/
namespace BeamDisasm

/-- What a command works on, and what it has done so far. -/
structure World where
  tree : FileTree
  output : String := ""
  /-- The paths of the files that were opened for writing, in order. -/
  opened : List String := []
  /-- How damaged files are handed out. -/
  buffering : Buffering := .pieces

/-- A part of a command. -/
abbrev Session := ExceptT Fault (StateM World)

namespace Session

/-- Prints a text. -/
def say (s : String) : Session Unit :=
  modify fun w => { w with output := w.output ++ s }

/-- A result that changes nothing. -/
def ofResult {α : Type} : Except Fault α → Session α
  | .ok a => pure a
  | .error e => throw e

/-- An attempt to load; its notices are printed. -/
def ofAttempt {α : Type} (a : Attempt α) : Session α := do
  say a.notices
  ofResult a.result

/-- An attempt whose fault counts as nothing. -/
def tolerate {α : Type} (a : Attempt (List α)) : Session (List α) := do
  say a.notices
  match a.result with
  | .ok as => return as
  | .error _ => return []

/-- The content of the file at a path. -/
def readFile (path : String) : Session Bytes := do
  let w ← get
  ofResult (w.tree.read path)

/-- Opens the file at a path for writing. -/
def createFile (path : String) : Session Location := do
  let w ← get
  let (tree, l) ← ofResult (w.tree.create path)
  set { w with tree, opened := w.opened ++ [path] }
  return l

/-- Writes a file that is open. -/
def writeFile (l : Location) (text : String) : Session Unit :=
  modify fun w => { w with tree := w.tree.put l (Bytes.ofText text) }

/-- Makes a directory if nothing is at its path. -/
def ensureDirectory (path : String) : Session Unit := do
  let w ← get
  if w.tree.pathLeads path then return ()
  else
    let tree ← ofResult (w.tree.makeDirectories path.toList.length path.toList)
    set { w with tree }

end Session

namespace Command

open Session

/-- The modules of a file that was found by its ending. Faults count as no modules. -/
def loadFound (path name : String) : Session (List Module) := do
  let w ← get
  if Loading.isModulePath path then
    say (" - loading beam " ++ name ++ " ...\n")
    tolerate (Attempt.ofFile (w.tree.read path) fun b => (Loading.load w.buffering b).map fun m => [m])
  else if Loading.isArchivePath path then
    say (" - loading beam pack " ++ name ++ " ...\n")
    tolerate (Attempt.ofFile (w.tree.read path) fun b =>
      (Loading.loadArchive w.buffering b).map fun ms => ms.getD [])
  else return []

/-- The modules of files that were found. -/
def loadAllFound : List (String × String) → Session (List Module)
  | [] => return []
  | (path, name) :: rest => do
    let ms ← loadFound path name
    let more ← loadAllFound rest
    return ms ++ more

/-- The modules of all files below a directory. -/
def searchModules (dir : String) : Session (List Module) := do
  let w ← get
  loadAllFound (w.tree.search dir)

/-- The modules of the file at a path. -/
def loadModules (path : String) : Session (Option (List Module)) := do
  let w ← get
  let content ← readFile path
  ofAttempt (Loading.loadFile w.buffering path content)

/-- The name of a module in messages. -/
def nameOf (m : Module) : Session String := do
  let name ← ofResult m.name
  return Module.orNone name

/-- Analyses modules one after the other. -/
def analyseAll : List Module → Session (List Analysis)
  | [] => return []
  | m :: ms => do
    let name ← nameOf m
    say (" - analyzing module " ++ name ++ " ...\n")
    let (a, n) ← ofResult (Analysis.build m)
    say (Analysis.warnings n)
    let as ← analyseAll ms
    return a :: as

/-- Annotates the modules at the given places, each among all. -/
def annotateAll : List Nat → List Analysis → Session (List Analysis)
  | [], as => return as
  | i :: is, as => do
    match as[i]? with
    | none => annotateAll is as
    | some a =>
      let name ← nameOf a.module
      say (" - annotating module " ++ name ++ " ...\n")
      let (marked, e) := Analysis.annotate as i (List.range as.length)
      match e with
      | some e => throw e
      | none => annotateAll is marked

/-- The path of the listing of a module. -/
def listingPath (dir name : String) : String :=
  Path.join dir (name ++ ".beamc")

/-- Writes the listing of a module. The file is opened before the listing is made. -/
def writeListing (dir : String) (a : Analysis) : Session Unit := do
  let name ← nameOf a.module
  let path := listingPath dir name
  say ("[i] Writing disassembled code from module " ++ name ++ " to " ++ path ++ "\n")
  let l ← createFile path
  let text ← ofResult a.text
  writeFile l text

/-- Writes the listings of modules. -/
def writeAll (dir : String) : List Analysis → Session Unit
  | [] => return ()
  | a :: as => do
    writeListing dir a
    writeAll dir as

/-- Disassembles modules into a directory. -/
def disassemble (ms : List Module) (dir : String) : Session Unit := do
  let as ← analyseAll ms
  let as ← annotateAll (List.range as.length) as
  ensureDirectory dir
  writeAll dir as

/-- Disassembles the modules that were loaded, if any were. -/
def disassembleLoaded (ms : Option (List Module)) (dir : String) : Session Unit := do
  match ms with
  | none => throw .unusableKind
  | some ms =>
    say ("[i] Found " ++ Text.digits ms.length ++ " BEAM modules\n")
    say "[i] Disassembling ...\n"
    disassemble ms dir

/-- How to use the command, line by line. -/
def helpLines : List String :=
  ["usage: erlang-prism [-h] [-o OUTPUT_DIR] [-s SEARCH_DIR] [-f BEAM_FILE]",
    "",
    "options:",
    "  -h, --help            show this help message and exit",
    "  -o OUTPUT_DIR, --output-dir OUTPUT_DIR",
    "                        Output directory",
    "  -s SEARCH_DIR, --search SEARCH_DIR",
    "                        Search this directory for BEAM files",
    "  -f BEAM_FILE, --file BEAM_FILE",
    "                        BEAM or EZ file to disassemble"]

/-- How to use the command. -/
def helpText : String :=
  String.join (helpLines.map (· ++ "\n"))

/-- Does what options ask for. A search comes before a file. -/
def perform (o : Options) : Session Unit :=
  match o.searchDir, o.file with
  | some dir, _ => do
    say ("[i] Searching directory " ++ dir ++ " ...\n")
    let ms ← searchModules dir
    disassembleLoaded (some ms) o.outputDir
  | none, some file => do
    say ("[i] Loading BEAM modules from " ++ file ++ " ...\n")
    let ms ← loadModules file
    disassembleLoaded ms o.outputDir
  | none, none => say helpText

/-- The status with which a command ends. -/
def session (words : List String) : Session Nat :=
  match Arguments.parse words with
  | .invalid => return 2
  | .help => do
    say helpText
    return 0
  | .options o => do
    perform o
    return 0

/-- Runs a command on a file tree: its status or the fault that ended it, and what it has done. -/
def run (words : List String) (tree : FileTree) : Except Fault Nat × World :=
  (session words).run { tree }

end Command

end BeamDisasm

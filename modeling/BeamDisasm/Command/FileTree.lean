import BeamDisasm.Bytes
import BeamDisasm.Command.Path

/-!
# File trees

The part of a file system that a command works on: directories and files by their locations, and the directory
in which paths start that do not start with a slash. A location is the list of names on the way from the top.
-/
namespace BeamDisasm

/-- The names on the way from the top to a file or a directory. -/
abbrev Location := List String

/-- Directories and files. -/
structure FileTree where
  directories : List Location
  files : List (Location × Bytes)
  /-- Where relative paths start. -/
  here : Location
  deriving Repr

namespace FileTree

/-- The location is a directory. The top always is. -/
def isDirectory (t : FileTree) (l : Location) : Bool :=
  l.isEmpty || t.directories.contains l

/-- The content of the file at a location. -/
def contentAt? (t : FileTree) (l : Location) : Option Bytes :=
  t.files.lookup l

/-- A path goes on only from a directory. -/
def checkDirectory (t : FileTree) (l : Location) : Except Fault Unit :=
  if t.isDirectory l then .ok ()
  else if (t.contentAt? l).isSome then .error .notADirectory
  else .error .noSuchFile

/-- The number of bytes that a name can have. -/
def longestName : Nat := 255

/-- The number of bytes that a path can have. -/
def longestPath : Nat := 4095

/-- The location that components lead to from `l`. All but the last have to lead to directories. -/
def follow (t : FileTree) (l : Location) : List String → Except Fault Location
  | [] => .ok l
  | c :: cs => do
    t.checkDirectory l
    if c = "" ∨ c = "." then t.follow l cs
    else if c = ".." then t.follow l.dropLast cs
    else if longestName < c.utf8ByteSize then .error .pathTooLong
    else t.follow (l ++ [c]) cs

/-- The location of a path. -/
def locate (t : FileTree) (path : String) : Except Fault Location :=
  if path.toList.contains (Char.ofNat 0) then .error .unusablePath
  else if path = "" then .error .noSuchFile
  else if longestPath < path.utf8ByteSize then .error .pathTooLong
  else if path.toList.head? = some '/' then t.follow [] (Path.components path)
  else t.follow t.here (Path.components path)

/-- The location that components lead to from `l`, whatever there is. -/
def walk (l : Location) : List String → Location
  | [] => l
  | c :: cs =>
    if c = "" ∨ c = "." then walk l cs
    else if c = ".." then walk l.dropLast cs
    else walk (l ++ [c]) cs

/-- The location that a path names, whatever there is. -/
def destination (here : Location) (path : String) : Location :=
  walk (if path.toList.head? = some '/' then [] else here) (Path.components path)

/-- The path of a location from the top. -/
def pathOf (l : Location) : String :=
  "/" ++ "/".intercalate l

/-- Something is at the location of a path. -/
def pathLeads (t : FileTree) (path : String) : Bool :=
  match t.locate path with
  | .ok l => t.isDirectory l || (t.contentAt? l).isSome
  | .error _ => false

/-- The content of the file at a path. -/
def read (t : FileTree) (path : String) : Except Fault Bytes := do
  let l ← t.locate path
  if t.isDirectory l then .error .isADirectory
  else match t.contentAt? l with
    | some b => return b
    | none => .error .noSuchFile

/-- The tree with a file at a location. -/
def put (t : FileTree) (l : Location) (b : Bytes) : FileTree :=
  if (t.contentAt? l).isSome then
    { t with files := t.files.map fun f => if f.1 = l then (l, b) else f }
  else { t with files := t.files ++ [(l, b)] }

/-- The tree with a directory and all those on the way to it. -/
def withDirectory (t : FileTree) (l : Location) : FileTree :=
  let way := (List.range l.length).map fun n => l.take (n + 1)
  { t with directories := t.directories ++ way.filter fun d => !t.directories.contains d }

/-- The tree with a file at a location and the directories on the way to it. -/
def withFile (t : FileTree) (l : Location) (b : Bytes) : FileTree :=
  (t.withDirectory l.dropLast).put l b

/-- The tree in which files are given by their paths from `here`. -/
def ofFiles (here : Location) (files : List (String × Bytes)) : FileTree :=
  files.foldl (fun t (path, b) => t.withFile (destination here path) b) (withDirectory ⟨[], [], here⟩ here)

/-- Opens the file at a path for writing: it is there and empty afterwards. -/
def create (t : FileTree) (path : String) : Except Fault (FileTree × Location) := do
  let l ← t.locate path
  if t.isDirectory l then .error .isADirectory
  else return (t.put l [], l)

/-- Makes the directory at a path; nothing may be there before. -/
def makeDirectory (t : FileTree) (path : List Char) : Except Fault FileTree := do
  let bare := (path.reverse.dropWhile (· == '/')).reverse
  let l ← t.locate (String.ofList (if bare = [] then path else bare))
  if t.isDirectory l ∨ (t.contentAt? l).isSome then .error .alreadyThere
  else return { t with directories := t.directories ++ [l] }

/-- A path without its last component and this component. A slash at the end counts for nothing. -/
def splitLast (path : List Char) : List Char × List Char :=
  if Path.baseChars path = [] then
    (Path.directoryChars (Path.directoryChars path), Path.baseChars (Path.directoryChars path))
  else (Path.directoryChars path, Path.baseChars path)

/-- Makes the directory at a path and those on the way to it. What is on the way already may stay. There are no more
components than characters, so the length of the path is turns enough. -/
def makeDirectories (t : FileTree) : Nat → List Char → Except Fault FileTree
  | 0, path => t.makeDirectory path
  | fuel + 1, path => do
    let (head, tail) := splitLast path
    if head ≠ [] ∧ tail ≠ [] ∧ !t.pathLeads (String.ofList head) then
      match t.makeDirectories fuel head with
      | .error e =>
        if e = .alreadyThere then (if tail = ['.'] then return t else t.makeDirectory path)
        else .error e
      | .ok t => if tail = ['.'] then return t else t.makeDirectory path
    else t.makeDirectory path

/-- The names directly below a location, in ascending order. -/
def namesBelow (l : Location) (ls : List Location) : List String :=
  (ls.filterMap fun m =>
    if m.dropLast = l then m.getLast? else none).mergeSort (fun a b => decide (¬ b < a))

/-- The files below a location that is reached by a path: first those of the directory itself, then those of its
directories, all in ascending order. Each comes with its path and its name. -/
def filesBelow (t : FileTree) : Nat → String → Location → List (String × String)
  | 0, _, _ => []
  | fuel + 1, path, l =>
    (namesBelow l (t.files.map Prod.fst)).map (fun n => (Path.join path n, n)) ++
      (namesBelow l t.directories).flatMap fun n =>
        t.filesBelow fuel (Path.join path n) (l ++ [n])

/-- The files below the directory at a path; none if there is no such directory. No way down is longer than the
number of directories. -/
def search (t : FileTree) (path : String) : List (String × String) :=
  match t.locate path with
  | .ok l => if t.isDirectory l then t.filesBelow (t.directories.length + 1) path l else []
  | .error _ => []

/-- A location seen from the directory where relative paths start. -/
def relative? (t : FileTree) (l : Location) : Option String :=
  if t.here.isPrefixOf l then
    match l.drop t.here.length with
    | [] => some "."
    | names => some ("/".intercalate names)
  else none

/-- The directories that are new since the tree `before`. -/
def newDirectories (t before : FileTree) : List Location :=
  t.directories.filter fun d => !before.directories.contains d

/-- The files that are new or changed since the tree `before`. -/
def changedSince (t before : FileTree) : List (Location × Bytes) :=
  t.files.filter fun f => before.contentAt? f.1 ≠ some f.2

/-- The files that are new or changed since the tree `before`, by their paths from where relative paths start. -/
def relativeChanges (t before : FileTree) : List (String × Bytes) :=
  (t.changedSince before).filterMap fun (l, b) => (t.relative? l).map fun p => (p, b)

/-- The paths of directories from where relative paths start, in ascending order. -/
def relativeDirectories (t : FileTree) : List String :=
  (t.directories.filterMap t.relative?).mergeSort fun a b => decide (¬ b < a)

end FileTree

end BeamDisasm

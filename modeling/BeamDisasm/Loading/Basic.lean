import BeamDisasm.Archive
import BeamDisasm.Command.Path
import BeamDisasm.Compression.Gzip
import BeamDisasm.Module.Listing

/-!
# Loading modules

A module is loaded from a plain file, a gzip file or the members of an archive. Loading leaves notices, also when
it fails.
-/
namespace BeamDisasm

/-- How much is handed out of damaged content while a module is read from it: of a gzip file, of deflated data in an
archive, and of a member that does not fit its checksum. -/
structure Buffering where
  gzip : Bytes → Compression.Handout
  inflated : Bytes → Archive.Entry → Compression.Handout
  summed : Bytes → Archive.Entry → Compression.Handout

/-- Content is handed out in pieces of one length, and the damage spoils the piece that it is in. -/
def Buffering.pieces : Buffering where
  gzip _ n := n / 8192 * 8192
  inflated _ _ n := n / 4096 * 4096
  summed _ _ n := (n - 1) / 4096 * 4096

/-- The notices of an attempt and its result. -/
structure Attempt (α : Type) where
  notices : String
  result : Except Fault α

namespace Attempt

variable {α β : Type}

/-- The attempt with a change to what it gives. -/
def map (f : α → β) (a : Attempt α) : Attempt β :=
  ⟨a.notices, a.result.map f⟩

/-- An attempt on the content of a file, which may be out of reach. -/
def ofFile (content : Except Fault Bytes) (load : Bytes → Attempt α) : Attempt α :=
  match content with
  | .ok b => load b
  | .error e => ⟨"", .error e⟩

end Attempt

namespace Loading

/-- The notice for data that are too short for a header. -/
def shortNotice : String := "not enough bytes\n"

/-- The module in data, which may have been cut off. -/
def ofContent (c : Compression.Content) : Attempt Module where
  notices := if c.stop.isNone && Module.isTooShort c.bytes then shortNotice else ""
  result := (Module.read c.stop).run c.bytes

/-- The module in plain data. -/
def plain (b : Bytes) : Attempt Module :=
  ofContent ⟨b, none⟩

/-- The modules in plain data, one after the other up to the first fault. -/
def plainAll : List Bytes → Attempt (List Module)
  | [] => ⟨"", .ok []⟩
  | b :: bs =>
    let a := plain b
    match a.result with
    | .error e => ⟨a.notices, .error e⟩
    | .ok m =>
      let rest := plainAll bs
      ⟨a.notices ++ rest.notices, rest.result.map (m :: ·)⟩

/-- The module in a gzip file. Whatever goes wrong, the data are no module file. -/
def gzipped (p : Buffering) (b : Bytes) : Attempt Module :=
  let a := ofContent (Compression.gunzip (p.gzip b) b)
  { a with result := match a.result with
    | .ok m => .ok m
    | .error _ => .error .unknownFormat }

/-- The module in a file, which may be a gzip file if it is no module file. -/
def load (p : Buffering) (b : Bytes) : Attempt Module :=
  let a := plain b
  match a.result with
  | .error .unknownFormat =>
    let g := gzipped p b
    ⟨a.notices ++ g.notices, g.result⟩
  | _ => a

/-- The module in a member of an archive. Data that are no module file are tried once more as a file of their
own, for which they have to be sound. -/
def loadMember (p : Buffering) (c : Archive.Entry.Member) : Attempt Module :=
  let a := ofContent c.content
  match a.result, c.whole with
  | .error .unknownFormat, .error e => ⟨a.notices, .error e⟩
  | .error .unknownFormat, .ok b =>
    let l := load p b
    ⟨a.notices ++ l.notices, l.result⟩
  | _, _ => a

/-- The path by which a member is opened. -/
def memberPath (name : String) : String :=
  Path.join (Path.directory name) (Path.base name)

/-- An entry is a member to be loaded: no directory, with a name that ends as module files do. -/
def isWanted (e : Archive.Entry) : Bool :=
  !e.isDirectory && ".beam".toList.reverse.isPrefixOf (Path.baseChars e.name.toList).reverse

/-- The content of the member that an entry names. -/
def memberContent (p : Buffering) (data : Bytes) (all : List Archive.Entry) (e : Archive.Entry) :
    Except Fault Archive.Entry.Member := do
  let found ← Archive.find all (memberPath e.name)
  found.content (p.inflated data found) (p.summed data found) data

/-- The notice for a member that is no module file. -/
def memberNotice (e : Archive.Entry) : String :=
  "[!] Unable to load " ++ memberPath e.name ++ "\n"

/-- The modules of the members `es`. A member that is no module file ends the loading without modules. -/
def loadEntries (p : Buffering) (data : Bytes) (all : List Archive.Entry) :
    List Archive.Entry → Attempt (Option (List Module))
  | [] => ⟨"", .ok (some [])⟩
  | e :: es =>
    if !isWanted e then loadEntries p data all es
    else match memberContent p data all e with
      | .error f => ⟨"", .error f⟩
      | .ok content =>
        let a := loadMember p content
        match a.result with
        | .error .unknownFormat => ⟨a.notices ++ memberNotice e, .ok none⟩
        | .error f => ⟨a.notices, .error f⟩
        | .ok m =>
          let rest := loadEntries p data all es
          ⟨a.notices ++ rest.notices, rest.result.map fun ms => ms.map (m :: ·)⟩

/-- The modules of an archive. -/
def loadArchive (p : Buffering) (data : Bytes) : Attempt (Option (List Module)) :=
  match Archive.entries data with
  | .error f => ⟨"", .error f⟩
  | .ok es => loadEntries p data es es

/-- The path names an archive. -/
def isArchivePath (path : String) : Bool :=
  Path.hasEnding ".ez" path

/-- The path names a module file. -/
def isModulePath (path : String) : Bool :=
  Path.hasEnding ".beam" path

/-- The notice for a file that is no module file. -/
def fileNotice (path : String) : String :=
  "[!] Cannot parse BEAM file " ++ path ++ "\n"

/-- The modules of the file with a path; a file that is no module file has none. -/
def loadFile (p : Buffering) (path : String) (b : Bytes) : Attempt (Option (List Module)) :=
  let a := if isArchivePath path then loadArchive p b else (load p b).map fun m => some [m]
  match a.result with
  | .error .unknownFormat => ⟨a.notices ++ fileNotice path, .ok (some [])⟩
  | _ => a

end Loading

end BeamDisasm

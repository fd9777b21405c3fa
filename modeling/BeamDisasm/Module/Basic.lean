import BeamDisasm.Table.Atom
import BeamDisasm.Table.Code
import BeamDisasm.Table.Line
import BeamDisasm.Table.Literal

/-!
# Modules

A module file is a header and a sequence of chunks, each with a marker, a length and a body that is padded to a
multiple of four bytes. Every known marker has its slot in the module, which the last chunk with that marker
fills. Chunks with other markers have no effect.
-/
namespace BeamDisasm

/-- The parts of a module that its file gives. -/
structure Module where
  atoms : Option AtomTable := none
  code : Option (List Instruction) := none
  functions : Option (List FunctionEntry) := none
  exports : Option (List ExportEntry) := none
  literals : Option LiteralTable := none
  imports : Option (List ImportEntry) := none
  lines : Option LineTable := none
  deriving Repr

/-- What a chunk holds. -/
inductive ChunkKind where
  | lines
  | atoms
  | imports
  | exports
  | functions
  | literals
  | code
  deriving Repr, DecidableEq

namespace ChunkKind

/-- The markers and what they announce. -/
def markers : List (Bytes × ChunkKind) :=
  [(Bytes.ofAscii "Line", .lines), (Bytes.ofAscii "Atom", .atoms), (Bytes.ofAscii "AtU8", .atoms),
    (Bytes.ofAscii "ImpT", .imports), (Bytes.ofAscii "ExpT", .exports), (Bytes.ofAscii "FunT", .functions),
    (Bytes.ofAscii "LitT", .literals), (Bytes.ofAscii "Code", .code)]

/-- What a marker announces, if it is known. -/
def ofMarker? (marker : Bytes) : Option ChunkKind :=
  markers.lookup marker

end ChunkKind

namespace Module

/-- The module with the slot of a chunk filled by the chunk. -/
def setChunk (m : Module) (kind : ChunkKind) (body : Bytes) : Except Fault Module :=
  match kind with
  | .lines => do return { m with lines := some (← LineTable.read.run body) }
  | .atoms => do return { m with atoms := some (← AtomTable.read.run body) }
  | .imports => do return { m with imports := some (← (countedEntries ImportEntry.read).run body) }
  | .exports => do return { m with exports := some (← (countedEntries ExportEntry.read).run body) }
  | .functions => do return { m with functions := some (← (countedEntries FunctionEntry.read).run body) }
  | .literals => do return { m with literals := some (← LiteralTable.parse body) }
  | .code => do return { m with code := some (← Code.read.run body) }

/-- The module with a chunk of any marker. -/
def addChunk (m : Module) (marker body : Bytes) : Except Fault Module :=
  match ChunkKind.ofMarker? marker with
  | some kind => m.setChunk kind body
  | none => .ok m

/-- The length of a body with its padding. -/
def padded (n : Nat) : Nat :=
  4 * ((n + 3) / 4)

/-- Up to `n` bytes. Where a fault stops the data, asking for more than there is meets it. -/
def available (stop : Option Fault) (n : Nat) : Reader Bytes := fun s =>
  match stop with
  | none => Reader.upTo n s
  | some e => if n ≤ s.length then Reader.upTo n s else .fail e []

/-- A field of four bytes. -/
def chunkLength (stop : Option Fault) : Reader Nat := do
  let b ← available stop 4
  if b.length = 4 then return b.toNat else Reader.fail .shortField

/-- Reads chunks into `m` until `size` bytes of them have been read, `done` of which already are. A chunk takes at
least eight bytes, so no more than `fuel` chunks can follow when that is the number of bytes. -/
def readChunks (stop : Option Fault) (size : Int) : Nat → Nat → Module → Reader Module
  | 0, done, m => if (done : Int) < size then Reader.fail (stop.getD .shortField) else pure m
  | fuel + 1, done, m =>
    if (done : Int) < size then do
      let marker ← available stop 4
      let n ← chunkLength stop
      let body ← available stop n
      let m ← Reader.lift (m.addChunk marker body)
      let _ ← available stop (padded n - n)
      readChunks stop size fuel (done + (8 + padded n)) m
    else pure m

/-- The length of the header of a file. -/
def headerLength : Nat := 12

/-- The length field of a valid header. -/
def headerSize? (b : Bytes) : Option Nat :=
  if b.length = headerLength ∧ b.take 4 = Bytes.ofAscii "FOR1" ∧ b.drop 8 = Bytes.ofAscii "BEAM" then
    some (Bytes.toNat ((b.drop 4).take 4))
  else none

/-- A module file in data that may be stopped by a fault; bytes behind it stay unread. -/
def read (stop : Option Fault) : Reader Module := do
  let header ← available stop headerLength
  match headerSize? header with
  | none => Reader.fail .unknownFormat
  | some size => fun s => readChunks stop ((size : Int) - 4) s.length 0 {} s

/-- The module in a byte string. -/
def parse (b : Bytes) : Except Fault Module :=
  (read none).run b

/-- The data are too short for a header, of which there is a notice. -/
def isTooShort (b : Bytes) : Bool :=
  b.length < headerLength

end Module

end BeamDisasm

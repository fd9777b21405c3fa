import BeamDisasm.Compression.Zlib
import BeamDisasm.ExtTerm.Decode
import BeamDisasm.Table.Entry

/-!
# The literal table

The table is a size and a body: stored when the size is zero, a compressed stream otherwise.
-/
namespace BeamDisasm

/-- The literal at a position. There is none beyond the end, and positions below zero count from the end. -/
def literalAt {α : Type} (literals : List α) (i : Int) : Except Fault (Option α) :=
  if i < literals.length then (signedGet literals i).map some else .ok none

/-- The literals of a module. -/
structure LiteralTable where
  terms : List ExtTerm
  deriving Repr

namespace LiteralTable

/-- The literal at a position. -/
def get (t : LiteralTable) (i : Int) : Except Fault (Option ExtTerm) := literalAt t.terms i

/-- A literal behind a size that is not used. -/
def entry : Reader ExtTerm := do
  let _ ← Reader.upTo 4
  ExtTerm.readMarked

/-- The count of the literals and the literals. -/
def readBody : Reader LiteralTable := do
  let terms ← countedEntries entry
  return ⟨terms⟩

/-- The body behind the size. -/
def body (size : Nat) (b : Bytes) : Except Fault Bytes :=
  if size = 0 then .ok b else Compression.decompress b

/-- The whole table from the bytes of its chunk. -/
def parse (b : Bytes) : Except Fault LiteralTable := do
  let size ← (Reader.number 4).run b
  let data ← body size (b.drop 4)
  readBody.run data

end LiteralTable

end BeamDisasm

import BeamDisasm.Term.Decode

/-!
# The atom table

Names are numbered from one. The entry in front of them is a placeholder, which may be given another name.
-/
namespace BeamDisasm

/-- The name at an index, which has to be a number. -/
def nameAt {α : Type} (names : List α) : Index → Except Fault α
  | .number i => signedGet names i
  | _ => .error .noSuchEntry

/-- The names of atoms, the placeholder first. -/
structure AtomTable where
  names : List Bytes
  deriving Repr, DecidableEq

namespace AtomTable

/-- The placeholder in front of the names. -/
def placeholder : Bytes := Bytes.ofAscii "module"

/-- The table without names. -/
def empty : AtomTable := ⟨[placeholder]⟩

/-- The table with one more name. -/
def add (t : AtomTable) (name : Bytes) : AtomTable := ⟨t.names ++ [name]⟩

/-- The table with another placeholder. -/
def setModuleName (t : AtomTable) (name : Bytes) : AtomTable := ⟨name :: t.names.drop 1⟩

/-- The name at an index. -/
def get (t : AtomTable) (i : Index) : Except Fault Bytes := nameAt t.names i

/-- A name behind its length in one byte. -/
def classicName : Reader Bytes := do
  let n ← Reader.number 1
  Reader.upTo n

/-- A name behind its length in a compact literal. -/
def literalName : Reader Bytes := do
  let t ← Term.read
  match t.literalIndex? with
  | none => Reader.fail .inconsistent
  | some n =>
    if 0x8000000000000000 ≤ n then Reader.fail .lengthTooLarge else Reader.upTo n.toNat

/-- The count of the names and the names. A count below zero announces lengths in compact literals. -/
def read : Reader AtomTable := do
  let b ← Reader.exactly 4
  let count := b.toSigned
  let names ← Reader.times count.natAbs (if count < 0 then literalName else classicName)
  return ⟨placeholder :: names⟩

end AtomTable

end BeamDisasm

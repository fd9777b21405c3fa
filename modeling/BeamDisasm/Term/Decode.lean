import BeamDisasm.Reader
import BeamDisasm.Term.Basic
import BeamDisasm.Text.Number

/-!
# Reading compact terms

The first byte of a term holds a tag in its low three bits. Tags below seven are basic terms, whose value
takes four bits, eleven bits or several bytes. The low bits `111` announce a nested form, told apart by the
whole byte.

`readFuel` is bounded by the nesting depth. Each level reads one byte before it goes deeper, so the number
of bytes at hand is fuel enough and running out of fuel is running out of data.
-/
namespace BeamDisasm.Term

/-- A count, as the index of a term gives it. Bytes count by the numeral that they spell. -/
def countOf : Index → Except Fault Int
  | .number n => .ok n
  | .raw b => match Text.numeral? b with
    | some n => .ok n
    | none => .error .notANumber
  | .text s => match Text.numeral? (Bytes.ofText s) with
    | some n => .ok n
    | none => .error .notANumber
  | .nil | .nothing => .error .unusableKind

/-- Up to `n` bytes, if `n` can be a length at all. -/
def payload (n : Int) : Reader Scalar :=
  if 0x8000000000000000 ≤ n then Reader.fail .lengthTooLarge
  else do
    let b ← Reader.upTo n.toNat
    return .raw b

/-- The value of a basic term with first byte `b`. Long values announce their length by a term read by
`inner`. -/
def basicValue (inner : Reader Term) (b : UInt8) : Reader Scalar :=
  if b &&& 8 = 0 then pure (.number ((b >>> 4).toNat : Int))
  else if b &&& 16 = 0 then do
    let low ← Reader.byte .endOfData
    return .number (((b &&& 0xE0).toNat * 8 + low.toNat : Nat) : Int)
  else if b >>> 5 = 7 then do
    let size ← inner
    let index ← Reader.lift size.index
    let n ← Reader.lift index.toNumber
    payload (n + 9)
  else payload ((b >>> 5).toNat + 2 : Nat)

/-- A literal or a label, and nothing else. -/
def plainLiteral (inner : Reader Term) : Reader Term := do
  let t ← inner
  match t.literalIndex? with
  | some _ => return t
  | none => Reader.fail .unsupportedTerm

/-- A count followed by as many values. A count below zero is the count of an empty list. -/
def counted {α : Type} (inner : Reader Term) (item : Reader α) : Reader (List α) := do
  let size ← inner
  let index ← Reader.lift size.index
  let n ← Reader.lift (countOf index)
  Reader.times n.toNat item

/-- The nested form announced by the byte `tag`, with parts read by `inner`. -/
def extended (inner : Reader Term) (tag : UInt8) : Reader Term :=
  if tag = 0x57 then do
    let register ← inner
    let typeInfo ← inner
    return .typed register typeInfo
  else if tag = 0x47 then plainLiteral inner
  else if tag = 0x17 then do
    let items ← counted inner inner
    return .list items
  else if tag = 0x37 then do
    let items ← counted inner do
      let key ← inner
      let value ← inner
      return (key, value)
    return .alloc items
  else if tag = 0x27 then do
    let t ← plainLiteral inner
    match t.literalIndex? with
    | some i => return .fpreg (.number i)
    | none => Reader.fail .unsupportedTerm
  else Reader.fail .unsupportedTerm

/-- A term nested at most `fuel` levels deep. -/
def readFuel : Nat → Reader Term
  | 0 => Reader.fail .endOfData
  | fuel + 1 => do
    let b ← Reader.byte .endOfData
    if b &&& 7 = 7 then extended (readFuel fuel) b
    else do
      let v ← basicValue (readFuel fuel) b
      Reader.lift (ofTag (b &&& 7).toNat v)

/-- The next compact term. -/
def read : Reader Term := fun s => readFuel s.length s

/-- The rest of a nested form whose first byte `tag` has been read. -/
def readExtended (tag : UInt8) : Reader Term := fun s => extended (readFuel s.length) tag s

end BeamDisasm.Term

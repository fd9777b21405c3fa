import BeamDisasm.ExtTerm.Basic
import BeamDisasm.Reader

/-!
# Reading external terms

A term is a tag and a body. The tag decides the form of the body. In front of a whole term stands a marker
byte, which terms inside other terms do not have.

`readFuel` is bounded by the nesting depth. Each level reads one byte before it goes deeper, so the number
of bytes at hand is fuel enough and running out of fuel is running out of data.
-/
namespace BeamDisasm.ExtTerm

/-- The forms that a body can have. -/
inductive Form where
  | cacheRef
  | smallInteger
  | integer
  | float
  | newFloat
  | smallTuple
  | largeTuple
  | map
  | list
  | nil
  | string
  | binary
  | smallBig
  | largeBig
  | remoteFun
  | atom
  | smallAtom
  deriving Repr, DecidableEq

/-- The form that a tag announces. The two older tags of atoms announce the form of the newer one. -/
def Form.ofTag? (tag : UInt8) : Option Form :=
  match tag.toNat with
  | 70 => some .newFloat
  | 82 => some .cacheRef
  | 97 => some .smallInteger
  | 98 => some .integer
  | 100 => some .atom
  | 104 => some .smallTuple
  | 105 => some .largeTuple
  | 106 => some .nil
  | 107 => some .string
  | 108 => some .list
  | 109 => some .binary
  | 110 => some .smallBig
  | 113 => some .remoteFun
  | 115 => some .atom
  | 116 => some .map
  | 118 => some .atom
  | 119 => some .smallAtom
  | _ => none

/-- A length of `width` bytes and as many bytes as it says, or all that are left. -/
def sized (width : Nat) : Reader Bytes := do
  let n ← Reader.number width
  Reader.upTo n

/-- A body of the given form, with parts read by `inner`. The tail of a list is read and dropped. A number
in the form `largeBig` has its count in four bytes where one is expected, and cannot be read. -/
def body (inner : Reader ExtTerm) : Form → Reader ExtTerm
  | .cacheRef => do
    let n ← Reader.number 1
    return .cacheRef n
  | .smallInteger => do
    let n ← Reader.number 1
    return .smallInteger n
  | .integer => do
    let n ← Reader.number 4
    return .integer n
  | .float => do
    let b ← Reader.upTo 31
    return .float b
  | .newFloat => do
    let b ← Reader.upTo 8
    return .newFloat b
  | .smallTuple => do
    let n ← Reader.number 1
    let ms ← Reader.times n inner
    return .smallTuple ms
  | .largeTuple => do
    let n ← Reader.number 4
    let ms ← Reader.times n inner
    return .largeTuple ms
  | .map => do
    let n ← Reader.number 4
    let es ← Reader.times n do
      let k ← inner
      let v ← inner
      return (k, v)
    return .map es
  | .list => do
    let n ← Reader.number 4
    let ms ← Reader.times n inner
    let _ ← inner
    return .list ms
  | .nil => return .nil
  | .string => do
    let b ← sized 2
    return .string b
  | .binary => do
    let b ← sized 4
    return .binary b
  | .smallBig => do
    let n ← Reader.number 1
    let sign ← Reader.number 1
    let b ← Reader.upTo n
    return .smallBig sign b
  | .largeBig => do
    let _ ← Reader.upTo 4
    Reader.fail .shortField
  | .remoteFun => do
    let m ← inner
    let f ← inner
    let a ← inner
    let mv ← Reader.lift m.value
    let fv ← Reader.lift f.value
    let av ← Reader.lift a.value
    return .remoteFun mv fv av
  | .atom => do
    let b ← sized 2
    return .atom .utf8 b
  | .smallAtom => do
    let b ← sized 1
    return .atom .smallUtf8 b

/-- The body that the tag announces. -/
def afterTag (inner : Reader ExtTerm) (tag : UInt8) : Reader ExtTerm :=
  match Form.ofTag? tag with
  | some form => body inner form
  | none => Reader.fail (.unsupportedTag tag)

/-- A term nested at most `fuel` levels deep. -/
def readFuel : Nat → Reader ExtTerm
  | 0 => Reader.fail .shortField
  | fuel + 1 => do
    let tag ← Reader.byte .shortField
    afterTag (readFuel fuel) tag

/-- The next term, without a marker. -/
def read : Reader ExtTerm := fun s => readFuel s.length s

/-- The marker in front of a whole term. -/
def marker : UInt8 := 131

/-- The next term with its marker. -/
def readMarked : Reader ExtTerm := fun s =>
  match s with
  | m :: tag :: t =>
    if m = marker then afterTag (readFuel t.length) tag t else .fail .inconsistent t
  | _ => .fail .shortField []

/-- A body of the given form, without tag and marker. -/
def readBody (form : Form) : Reader ExtTerm := fun s => body (readFuel s.length) form s

end BeamDisasm.ExtTerm

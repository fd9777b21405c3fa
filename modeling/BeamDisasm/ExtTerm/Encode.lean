import BeamDisasm.ExtTerm.Basic

/-!
# Writing external terms

Every form has its writer. Counts and lengths take the width of their field; larger ones do not fit.
-/
namespace BeamDisasm

/-- The tag of a form of atoms. -/
def AtomForm.tag : AtomForm → UInt8
  | .utf8 => 118
  | .smallUtf8 => 119
  | .latin => 100
  | .smallLatin => 115

/-- The number of bytes that count the name in a form of atoms. -/
def AtomForm.width : AtomForm → Nat
  | .smallUtf8 => 1
  | _ => 2

namespace ExtTerm

/-- A body behind its tag. -/
def tagged (tag : UInt8) (body : Bytes) : Bytes :=
  tag :: body

/-- Bytes behind their length in `width` bytes. -/
def lengthFirst (width : Nat) (b : Bytes) : Bytes :=
  Bytes.ofNat width b.length ++ b

/-- A scalar of a remote function: its names are atoms and its arity is a small integer. -/
def encodeScalar : Scalar → Bytes
  | .number n => tagged 97 [UInt8.ofNat n.toNat]
  | .raw b => tagged 119 (lengthFirst 1 b)
  | .text s => tagged 119 (lengthFirst 1 (Bytes.ofText s))
  | .nil | .nothing => []

mutual

/-- A term behind its tag. Misfits and loose values have no written form. -/
def encode : ExtTerm → Bytes
  | .bare v => encodeScalar v
  | .cacheRef n => tagged 82 (Bytes.ofNat 1 n.toNat)
  | .smallInteger n => tagged 97 (Bytes.ofNat 1 n.toNat)
  | .integer n => tagged 98 (Bytes.ofNat 4 n.toNat)
  | .float b => tagged 99 b
  | .newFloat b => tagged 70 b
  | .smallTuple ms => tagged 104 (Bytes.ofNat 1 ms.length ++ encodeAll ms)
  | .largeTuple ms => tagged 105 (Bytes.ofNat 4 ms.length ++ encodeAll ms)
  | .map es => tagged 116 (Bytes.ofNat 4 es.length ++ encodeEntries es)
  | .list ms => tagged 108 (Bytes.ofNat 4 ms.length ++ (encodeAll ms ++ tagged 106 []))
  | .nil => tagged 106 []
  | .string b => tagged 107 (lengthFirst 2 b)
  | .binary b => tagged 109 (lengthFirst 4 b)
  | .smallBig s b => tagged 110 (Bytes.ofNat 1 b.length ++ (Bytes.ofNat 1 s.toNat ++ b))
  | .largeBig s b => tagged 111 (Bytes.ofNat 4 b.length ++ (Bytes.ofNat 1 s.toNat ++ b))
  | .remoteFun m f a => tagged 113 (encodeScalar m ++ (encodeScalar f ++ encodeScalar a))
  | .atom form b => tagged form.tag (lengthFirst form.width b)
  | .misfit _ _ => []
  | .loose _ => []

/-- Terms one after the other. -/
def encodeAll : List ExtTerm → Bytes
  | [] => []
  | t :: ts => encode t ++ encodeAll ts

/-- The entries of a map one after the other. -/
def encodeEntries : List (ExtTerm × ExtTerm) → Bytes
  | [] => []
  | (k, v) :: es => encode k ++ (encode v ++ encodeEntries es)

end

/-- A whole term, with the marker in front. -/
def encodeMarked (t : ExtTerm) : Bytes :=
  131 :: t.encode

end ExtTerm

end BeamDisasm

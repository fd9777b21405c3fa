import BeamDisasm.Term.Basic

/-!
# External terms

Literals are kept in the external term format: a tag, and a body whose shape the tag decides.
-/
namespace BeamDisasm

/-- How the name of an atom is written. -/
inductive AtomForm where
  | utf8
  | smallUtf8
  | latin
  | smallLatin
  deriving Repr, DecidableEq

/-- An external term. The two forms of an integer, a tuple or a big number differ in the width of a field
only, and stay apart because their texts do. Two forms are never read: a misfit is a term of the kind of another
one around a value that this kind does not hold, and a loose value stands where a term is expected. -/
inductive ExtTerm where
  | bare (value : Scalar)
  | cacheRef (slot : Int)
  | smallInteger (value : Int)
  | integer (value : Int)
  | float (digits : Bytes)
  | newFloat (bits : Bytes)
  | smallTuple (members : List ExtTerm)
  | largeTuple (members : List ExtTerm)
  | map (entries : List (ExtTerm × ExtTerm))
  | list (items : List ExtTerm)
  | nil
  | string (chars : Bytes)
  | binary (bytes : Bytes)
  | smallBig (sign : Int) (digits : Bytes)
  | largeBig (sign : Int) (digits : Bytes)
  | remoteFun (module function arity : Scalar)
  | atom (form : AtomForm) (name : Bytes)
  | misfit (kind : ExtTerm) (value : Scalar)
  | loose (value : Index)
  deriving Repr, Inhabited

namespace ExtTerm

/-- The number of a sign and the digits to base 256, the least significant digit first. The sign is minus
when it is one, and plus otherwise. -/
def bigValue (sign : Int) (digits : Bytes) : Int :=
  if sign = 1 then -(digits.littleEndian : Int) else digits.littleEndian

/-- The sum of digits of any size, each times its power of 256. -/
def digitSum : List Int → Int
  | [] => 0
  | d :: ds => d + 256 * digitSum ds

/-- A big number of digits of any size: its sign and its digits below 256. -/
def bigOf (sign : Int) (digits : List Int) : Int × Bytes :=
  let n := digitSum digits
  (if (sign = 1) ≠ (n < 0) then 1 else 0, (Bytes.shortest n.natAbs).reverse)

/-- The term of the kind of another one around a value. -/
def holding (kind : ExtTerm) (v : Scalar) : ExtTerm :=
  match kind, v with
  | .bare _, v => .bare v
  | .cacheRef _, .number n => .cacheRef n
  | .smallInteger _, .number n => .smallInteger n
  | .integer _, .number n => .integer n
  | .float _, .raw b => .float b
  | .newFloat _, .raw b => .newFloat b
  | .string _, .raw b => .string b
  | .binary _, .raw b => .binary b
  | .atom form _, .raw b => .atom form b
  | .smallBig s _, .raw b => .smallBig s b
  | .largeBig s _, .raw b => .largeBig s b
  | kind, v => .misfit kind v

/-- The value of a big number around what are no digits: only an empty text counts as none. -/
def misfitDigits : Scalar → Except Fault Scalar
  | .text "" => .ok (.number 0)
  | _ => .error .unusableKind

/-- The value of a term. Tuples, maps, lists and functions have none. -/
def value : ExtTerm → Except Fault Scalar
  | .misfit (.smallBig _ _) v | .misfit (.largeBig _ _) v => misfitDigits v
  | .misfit (.smallTuple _) _ | .misfit (.largeTuple _) _ => .error .noSuchPart
  | .misfit _ v => .ok v
  | .bare v => .ok v
  | .cacheRef n | .smallInteger n | .integer n => .ok (.number n)
  | .float b | .newFloat b | .string b | .binary b | .atom _ b => .ok (.raw b)
  | .smallBig s b | .largeBig s b => .ok (.number (bigValue s b))
  | _ => .error .noSuchPart

/-- The value of a loose term, by which keys can be told to be the same. -/
def looseValue? : ExtTerm → Option Index
  | .loose v => some v
  | _ => none

/-- Two keys of a map are the same: only loose values ever are, as every term is a key of its own. -/
def sameKey (a b : ExtTerm) : Bool :=
  match looseValue? a, looseValue? b with
  | some v, some w => v.same w
  | _, _ => false

/-- The entries of a map with a value for a key, at its old place if it was there. -/
def insert (entries : List (ExtTerm × ExtTerm)) (key value : ExtTerm) : List (ExtTerm × ExtTerm) :=
  if entries.any (fun e => sameKey e.1 key) then
    entries.map fun e => if sameKey e.1 key then (e.1, value) else e
  else entries ++ [(key, value)]

/-- The members of a tuple or a list. -/
def members? : ExtTerm → Option (List ExtTerm)
  | .smallTuple ms | .largeTuple ms | .list ms => some ms
  | _ => none

end ExtTerm

end BeamDisasm

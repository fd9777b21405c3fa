import BeamDisasm.Bytes

/-!
# Compact terms

The operands of instructions are compact terms: small tagged numbers, registers, and a few nested forms.
A term may carry an index, by which it refers to a table, a label or a register.
-/
namespace BeamDisasm

/-- The value of a basic term before its tag gives it a meaning. Terms that are made and not read may hold a text,
the missing atom or nothing. -/
inductive Scalar where
  | number (n : Int)
  | raw (bytes : Bytes)
  | text (s : String)
  | nil
  | nothing
  deriving Repr, DecidableEq

/-- What a term refers to. Registers that were written in several bytes keep these bytes, and the atom
number zero is no atom: its index is `nil`. -/
inductive Index where
  | number (n : Int)
  | raw (bytes : Bytes)
  | text (s : String)
  | nil
  | nothing
  deriving Repr, DecidableEq

namespace Index

/-- The index that a scalar is. -/
def ofScalar : Scalar → Index
  | .number n => .number n
  | .raw b => .raw b
  | .text s => .text s
  | .nil => .nil
  | .nothing => .nothing

/-- Two indexes refer to the same thing. A `nil` refers to nothing, not even to what another `nil` does. -/
def same : Index → Index → Bool
  | .number a, .number b => a == b
  | .raw a, .raw b => a == b
  | .text a, .text b => a == b
  | .nothing, .nothing => true
  | _, _ => false

/-- The index as a number that can be counted with. -/
def toNumber : Index → Except Fault Int
  | .number n => .ok n
  | _ => .error .unusableKind

end Index

/-- A compact term. A loose value is no term of any kind: it stands where a term is expected, in lists and
instructions that were put together by hand. -/
inductive Term where
  | integer (value : Int)
  | literal (index : Int)
  | label (index : Int)
  | atom (index : Int)
  | xreg (index : Scalar)
  | yreg (index : Scalar)
  | fpreg (index : Scalar)
  | char (value : Scalar)
  | list (items : List Term)
  | alloc (items : List (Term × Term))
  | typed (register typeInfo : Term)
  | loose (value : Index)
  deriving Repr, Inhabited

namespace Term

/-- The index of a term. Integers, characters, lists and typed registers have none, and loose bytes and texts
refer to nothing. -/
def index : Term → Except Fault Index
  | .literal i | .label i => .ok (.number i)
  | .atom i => .ok (if i = 0 then .nil else .number i)
  | .xreg i | .yreg i | .fpreg i => .ok (.ofScalar i)
  | .loose (.raw _) | .loose (.text _) => .ok .nothing
  | _ => .error .noSuchPart

/-- The number that a literal or a label refers by. Labels are literals of their own kind. -/
def literalIndex? : Term → Option Int
  | .literal i | .label i => some i
  | _ => none

/-- The basic term of a tag. Literals, integers, atoms and labels turn bytes into a number; registers and
characters keep what they are given. -/
def ofTag (tag : Nat) (v : Scalar) : Except Fault Term :=
  match tag, v with
  | 0, .number n => .ok (.literal n)
  | 0, .raw b => .ok (.literal b.toNat)
  | 1, .number n => .ok (.integer n)
  | 1, .raw b => .ok (.integer b.powerSum)
  | 2, .number n => .ok (.atom n)
  | 2, .raw b => .ok (.atom b.toNat)
  | 3, v => .ok (.xreg v)
  | 4, v => .ok (.yreg v)
  | 5, .number n => .ok (.label n)
  | 5, .raw b => .ok (.label b.toNat)
  | 6, v => .ok (.char v)
  | _, _ => .error .unsupportedTerm

/-- The code point of the character that a character term stands for, which may be half of a surrogate pair. It
has to fit a signed word of 32 bits before it is looked at. -/
def codePoint : Term → Except Fault Nat
  | .char (.number n) =>
    if n < -0x80000000 ∨ 0x80000000 ≤ n then .error .wordOverflow
    else if 0 ≤ n ∧ n ≤ 0x10FFFF then .ok n.toNat
    else .error .notACharacter
  | .char _ => .error .unusableKind
  | _ => .error .noSuchPart

end Term

end BeamDisasm

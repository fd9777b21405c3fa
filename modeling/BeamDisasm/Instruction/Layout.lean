import BeamDisasm.Term.Text

/-!
# Layouts

How the operands of an instruction are written. A layout is a list of pieces: fixed text, and slots that hold
a field of the instruction in some style. What a field is worth depends on a module; a slot with a value in it
is rendered here.
-/
namespace BeamDisasm

/-- How a slot writes its content. -/
inductive Style where
  | plain
  | decimal
  | hexUpper
  deriving Repr, DecidableEq

/-- A part of a line: text, or a slot with its content. -/
inductive Piece (α : Type) where
  | text (s : String)
  | slot (style : Style) (content : α)
  deriving Repr, DecidableEq

/-- What can fill a slot. -/
inductive Argument where
  | index (i : Index)
  | text (s : String)
  | term (t : Term)
  | nothing

namespace Argument

/-- The number that fills a slot for numbers. -/
def toNumber : Argument → Except Fault Int
  | .index (.number n) => .ok n
  | .index (.text _) | .text _ => .error .notNumeric
  | _ => .error .unusableKind

/-- The text of an argument in a slot. -/
def format : Style → Argument → Except Fault String
  | .plain, .index i => i.plain
  | .plain, .text s => .ok s
  | .plain, .term t => t.text
  | .plain, .nothing => .ok "None"
  | .decimal, a => do Text.decimal (← a.toNumber)
  | .hexUpper, a => a.toNumber.map Text.hexUpper

end Argument

/-- Pieces written one after the other. -/
def render : List (Piece Argument) → Except Fault String
  | [] => .ok ""
  | .text s :: ps => do
    let r ← render ps
    return s ++ r
  | .slot style a :: ps => do
    let s ← a.format style
    let r ← render ps
    return s ++ r

/-- A template is a layout whose slots are filled in order. -/
abbrev Template := List (Piece Unit)

namespace Template

/-- Fills the slots of a template. Arguments may be left over but not be missing. -/
def fill : Template → List Argument → Except Fault String
  | [], _ => .ok ""
  | .text s :: ps, as => do
    let r ← fill ps as
    return s ++ r
  | .slot _ _ :: _, [] => .error .noSuchEntry
  | .slot style _ :: ps, a :: as => do
    let s ← a.format style
    let r ← fill ps as
    return s ++ r

/-- A part of a text that has been read, in front of what the rest spells. -/
def before (p : Piece Unit) (rest : Template × Bool) : Template × Bool :=
  (p :: rest.1, rest.2)

/-- The template that a text spells, and whether it spells all of it. A slot is a pair of braces, with `:d` or `:X`
inside for the styles of numbers, and a brace that is text stands twice. Reading stops at any other brace. -/
def ofChars : List Char → Template × Bool
  | [] => ([], true)
  | '\x7b' :: '\x7d' :: cs => before (.slot .plain ()) (ofChars cs)
  | '\x7b' :: ':' :: 'd' :: '\x7d' :: cs => before (.slot .decimal ()) (ofChars cs)
  | '\x7b' :: ':' :: 'X' :: '\x7d' :: cs => before (.slot .hexUpper ()) (ofChars cs)
  | '\x7b' :: '\x7b' :: cs => before (.text "\x7b") (ofChars cs)
  | '\x7d' :: '\x7d' :: cs => before (.text "\x7d") (ofChars cs)
  | c :: cs =>
    if c = '\x7b' ∨ c = '\x7d' then ([], false) else before (.text (String.singleton c)) (ofChars cs)

end Template

/-- How the cases of a switch are written, key before target. -/
inductive CaseStyle where
  | valueToLabel
  | indexToLabel
  | indexToValue
  deriving Repr, DecidableEq

/-- What a slot of an instruction holds, by the position of an operand. -/
inductive Field where
  /-- The index of the operand. -/
  | index (operand : Nat)
  /-- The operand as the module knows it. -/
  | value (operand : Nat)
  /-- The operand itself. -/
  | operand (operand : Nat)
  /-- The atom that the operand refers to. -/
  | atom (operand : Nat)
  /-- The imported function that the operand refers to. -/
  | imported (operand : Nat)
  /-- The exported function that the operand refers to. -/
  | exported (operand : Nat)
  /-- The number of a literal or an integer. -/
  | payload (operand : Nat)
  /-- The number of a literal, or else the operand as the module knows it. -/
  | count (operand : Nat)
  /-- The value of an integer, or else the index of the operand. -/
  | reference (operand : Nat)
  /-- The members of the operand, two by two. -/
  | cases (style : CaseStyle) (operand : Nat)
  deriving Repr, DecidableEq

/-- How an instruction is written. -/
inductive Layout where
  /-- Every operand as the module knows it. -/
  | operands
  /-- Pieces that hold fields. The fields `first` are looked at before the pieces. -/
  | pieces (first : List Field) (pieces : List (Piece Field))
  /-- A label, which starts a line of its own. -/
  | label
  /-- A place in the source. -/
  | line
  deriving Repr, DecidableEq

end BeamDisasm

import BeamDisasm.Module.Value

/-!
# Instructions as text

An instruction is written by the layout of its operation: every field is looked up in the module, from left to
right, and then the slots are filled.
-/
namespace BeamDisasm

/-- A member of an operand that holds several terms. -/
inductive Member where
  | term (t : Term)
  | pair (key value : Term)

namespace Member

/-- The members of a list or an allocation list. -/
def ofTerm : Term → Except Fault (List Member)
  | .list items => .ok (items.map .term)
  | .alloc items => .ok (items.map fun (k, v) => .pair k v)
  | _ => .error .unusableKind

/-- The index of a member. A pair refers to nothing. -/
def index : Member → Except Fault Index
  | .term t => t.index
  | .pair _ _ => .ok .nil

/-- The value of a member in a module. A pair has none. -/
def value (m : Module) : Member → Except Fault (Option String)
  | .term t => m.value t
  | .pair _ _ => .ok none

/-- Members two by two; a last one without a partner is left out. -/
def twoByTwo : List Member → List (Member × Member)
  | k :: v :: ms => (k, v) :: twoByTwo ms
  | _ => []

end Member

namespace CaseStyle

/-- One case of a switch. -/
def text (m : Module) : CaseStyle → Member × Member → Except Fault String
  | .valueToLabel, (k, v) => do
    let key ← k.value m
    let target ← v.index
    return Module.orNone key ++ " => label" ++ (← target.decimal)
  | .indexToLabel, (k, v) => do
    let key ← k.index
    let target ← v.index
    let s ← key.decimal
    return s ++ " => label" ++ (← target.decimal)
  | .indexToValue, (k, v) => do
    let key ← k.index
    let content ← v.value m
    let s ← key.decimal
    return s ++ " => " ++ Module.orNone content

end CaseStyle

namespace Instruction

/-- The cases that an operand holds. -/
def cases (inst : Instruction) (i : Nat) : Except Fault (List (Member × Member)) := do
  let t ← inst.operand i
  let ms ← Member.ofTerm t
  return Member.twoByTwo ms

/-- A text that may be missing, in a slot. -/
def argumentOf : Option String → Argument
  | some s => .text s
  | none => .nothing

/-- A number that may be missing, in a slot. -/
def numberArgument : Option Int → Argument
  | some n => .index (.number n)
  | none => .nothing

/-- What a field of an instruction is worth in a module. -/
def field (inst : Instruction) (m : Module) : Field → Except Fault Argument
  | .index i => do return .index (← inst.indexOf i)
  | .value i => do return argumentOf (← m.value (← inst.operand i))
  | .operand i => do return .term (← inst.operand i)
  | .atom i => do return argumentOf (← m.atomName (← inst.indexOf i))
  | .imported i => do return .text (← m.importText (← inst.indexOf i))
  | .exported i => do return .text (← m.exportText (← inst.indexOf i))
  | .payload i => do return numberArgument (number? (← inst.operand i))
  | .count i => do
    let t ← inst.operand i
    match t.literalIndex? with
    | some n => return .index (.number n)
    | none => return argumentOf (← m.value t)
  | .reference i => do
    match ← inst.operand i with
    | .integer v => return .index (.number v)
    | t => return .index (← t.index)
  | .cases style i => do
    let cs ← inst.cases i
    let parts ← cs.mapM (style.text m)
    return .text (", ".intercalate parts)

/-- What a field of an instruction is worth where there is no module. What would be looked up is missing. -/
def fieldAlone (inst : Instruction) : Field → Except Fault Argument
  | .value _ | .atom _ | .imported _ | .exported _ => .error .noSuchPart
  | .count i => do
    let t ← inst.operand i
    if t.literalIndex?.isSome then inst.field {} (.count i) else .error .noSuchPart
  | .cases .indexToLabel i => inst.field {} (.cases .indexToLabel i)
  | .cases _ i => do
    let cs ← inst.cases i
    if cs.isEmpty then return .text "" else .error .noSuchPart
  | f => inst.field {} f

/-- The pieces of a layout with what their fields are worth. -/
def pieces (worth : Field → Except Fault Argument) : List (Piece Field) → Except Fault (List (Piece Argument))
  | [] => .ok []
  | .text s :: ps => do
    let rest ← pieces worth ps
    return .text s :: rest
  | .slot style f :: ps => do
    let a ← worth f
    let rest ← pieces worth ps
    return .slot style a :: rest

/-- What stands in front of the operands: the notes on the instruction and its name. -/
def head (notes : List String) (mnemonic : String) : String :=
  "\n".intercalate notes ++ "\t" ++ Text.padRight 20 mnemonic

/-- An instruction by the pieces of its layout, after a look at the fields `first`. -/
def laidOut (inst : Instruction) (worth : Field → Except Fault Argument) (notes : List String)
    (first : List Field) (ps : List (Piece Field)) : Except Fault String := do
  let _ ← first.mapM worth
  let filled ← pieces worth ps
  let s ← render filled
  return head notes inst.operation.mnemonic ++ s

/-- A place in the source as a comment. -/
def placeText : Option (Option Scalar × Int) → Except Fault String
  | none => .ok ""
  | some (none, line) => do return "\t; line " ++ (← Text.decimal line)
  | some (some file, line) => do return "\t; file " ++ (← file.plain) ++ " line " ++ (← Text.decimal line)

/-- The text of an instruction with notes in a module. -/
def text (inst : Instruction) (m : Module) (notes : List String) : Except Fault String :=
  match inst.operation.layout with
  | .operands => do
    let vs ← m.values inst.operands
    return head notes inst.operation.mnemonic ++ ", ".intercalate (vs.map Module.orNone)
  | .pieces first ps => inst.laidOut (inst.field m) notes first ps
  | .label => do
    let i ← inst.indexOf 0
    let n ← Term.countOf i
    return "label" ++ (← Text.decimal n) ++ ":"
  | .line => do
    let i ← inst.indexOf 0
    let place ← m.lineOf i
    placeText place

/-- The text of an instruction with notes where there is no module. -/
def textAlone (inst : Instruction) (notes : List String) : Except Fault String :=
  match inst.operation.layout with
  | .operands =>
    if inst.operands.isEmpty then .ok (head notes inst.operation.mnemonic) else .error .noSuchPart
  | .pieces first ps => inst.laidOut inst.fieldAlone notes first ps
  | .label => inst.text {} notes
  | .line => .error .noSuchPart

/-- A template filled by arguments, behind the notes and the name. What cannot be read of the template is met when
all before it is filled. -/
def formatted (inst : Instruction) (notes : List String) (template : String) (args : List Argument) :
    Except Fault String := do
  let (t, complete) := Template.ofChars template.toList
  let s ← t.fill args
  if complete then return head notes inst.operation.mnemonic ++ s else .error .brokenTemplate

end Instruction

end BeamDisasm

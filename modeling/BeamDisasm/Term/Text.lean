import BeamDisasm.Term.Basic
import BeamDisasm.Text.Number
import BeamDisasm.Text.Quoted

/-!
# Compact terms as text

A term has a text, and a form inside a pair. The two differ for typed registers, which have no form of their own
inside a pair, and for loose texts, which have quotation marks there.
-/
namespace BeamDisasm

/-- The text of the missing atom. -/
def nilText : String := "<beam.types.BeamNIL object>"

namespace Scalar

/-- A scalar in plain text. -/
def plain : Scalar → Except Fault String
  | .number n => Text.decimal n
  | .raw b => .ok (Text.quoted b)
  | .text s => .ok s
  | .nil => .ok nilText
  | .nothing => .ok "None"

/-- A scalar that has to be a number, in decimal. -/
def decimal : Scalar → Except Fault String
  | .number n => Text.decimal n
  | _ => .error .unusableKind

end Scalar

namespace Index

/-- An index in plain text. -/
def plain : Index → Except Fault String
  | .number n => Text.decimal n
  | .raw b => .ok (Text.quoted b)
  | .text s => .ok s
  | .nil => .ok nilText
  | .nothing => .ok "None"

/-- An index inside a pair, where a text has quotation marks. -/
def inner : Index → Except Fault String
  | .text s => .ok (Text.quotedText s)
  | i => i.plain

/-- An index that has to be a number, in decimal. -/
def decimal : Index → Except Fault String
  | .number n => Text.decimal n
  | _ => .error .unusableKind

end Index

namespace Term

/-- The name of the kind of a term. A loose value is of no kind. -/
def kindName : Term → String
  | .integer _ => "BeamInteger"
  | .literal _ => "BeamLiteral"
  | .label _ => "BeamLabel"
  | .atom _ => "BeamAtom"
  | .xreg _ => "BeamXReg"
  | .yreg _ => "BeamYReg"
  | .fpreg _ => "BeamFpReg"
  | .char _ => "BeamChar"
  | .list _ => "BeamExtList"
  | .alloc _ => "BeamExtAllocList"
  | .typed _ _ => "BeamTypedReg"
  | .loose _ => ""

/-- A name with its argument in brackets. -/
def applied (name argument : String) : String :=
  name ++ "(" ++ argument ++ ")"

mutual

/-- The text of a term. -/
def text : Term → Except Fault String
  | .integer v => do return applied "BeamInteger" (← Text.decimal v)
  | .literal i => do return applied "BeamLiteral" (← Text.decimal i)
  | .label i => do return applied "BeamLabel" (← Text.decimal i)
  | .atom i => if i = 0 then .ok "BeamNIL()" else do return applied "BeamAtom" (← Text.decimal i)
  | .xreg i => do return "X" ++ (← i.decimal)
  | .yreg i => do return "Y" ++ (← i.decimal)
  | .fpreg i => do return "FR" ++ (← i.decimal)
  | .char v => do return applied "BeamChar" (← v.plain)
  | .list items => do return applied "BeamList" (",".intercalate (← texts items))
  | .alloc items => do return applied "BeamAllocList" (",".intercalate (← pairTexts items))
  | .typed r t => do
    let i ← t.index
    return (← text r) ++ "<" ++ (← i.plain) ++ ">"
  | .loose v => v.plain

/-- The form of a term inside a pair. -/
def inner : Term → Except Fault String
  | .typed _ _ => .ok "<beam.types.BeamTypedReg object>"
  | .integer v => text (.integer v)
  | .literal i => text (.literal i)
  | .label i => text (.label i)
  | .atom i => text (.atom i)
  | .xreg i => text (.xreg i)
  | .yreg i => text (.yreg i)
  | .fpreg i => text (.fpreg i)
  | .char v => text (.char v)
  | .list items => do return applied "BeamList" (",".intercalate (← texts items))
  | .alloc items => do return applied "BeamAllocList" (",".intercalate (← pairTexts items))
  | .loose v => v.inner

/-- The texts of the members of a list. -/
def texts : List Term → Except Fault (List String)
  | [] => .ok []
  | t :: ts => do
    let s ← text t
    let ss ← texts ts
    return s :: ss

/-- The texts of the pairs of an allocation list. -/
def pairTexts : List (Term × Term) → Except Fault (List String)
  | [] => .ok []
  | (k, v) :: ps => do
    let a ← inner k
    let b ← inner v
    let ss ← pairTexts ps
    return ("(" ++ a ++ ", " ++ b ++ ")") :: ss

end

end Term

end BeamDisasm

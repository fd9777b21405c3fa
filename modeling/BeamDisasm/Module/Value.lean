import BeamDisasm.ExtTerm.Text
import BeamDisasm.Module.Basic

/-!
# What terms stand for in a module

Atoms, literals, imported and exported functions are looked up in the tables of the module. A term that has a
value in the module has it as text; some kinds of terms have none.
-/
namespace BeamDisasm.Module

/-- The name of an atom. A module without a table knows none. -/
def atomName (m : Module) : Index → Except Fault (Option String)
  | .nil => .ok (some "nil")
  | i => match m.atoms with
    | none => .ok none
    | some t => do
      let b ← t.get i
      let s ← Text.utf8 b
      return some s

/-- The name of the module, which is its first atom. -/
def name (m : Module) : Except Fault (Option String) :=
  m.atomName (.number 1)

/-- A name in a text, with a word for a missing one. -/
def orNone (s : Option String) : String :=
  s.getD "None"

/-- A literal, if the module has it. -/
def literal (m : Module) (i : Int) : Except Fault (Option ExtTerm) :=
  match m.literals with
  | none => .ok none
  | some t => t.get i

/-- The literal at an index, which has to be a number if there are literals. -/
def literalOf (m : Module) (i : Index) : Except Fault (Option ExtTerm) :=
  match m.literals with
  | none => .ok none
  | some t => do t.get (← i.toNumber)

/-- The place in the source of an index into the line table. -/
def lineOf (m : Module) (i : Index) : Except Fault (Option (Option Scalar × Int)) :=
  match m.lines with
  | none => .ok none
  | some t => do return some (← t.get i)

/-- The text of a literal, or its number if the module does not have it. -/
def literalText (m : Module) (i : Int) : Except Fault String := do
  match ← m.literal i with
  | some t => do return "`" ++ (← t.text) ++ "`"
  | none => Text.decimal i

/-- The text of an atom between quotes. -/
def atomText (m : Module) (i : Index) : Except Fault String := do
  let s ← m.atomName i
  return "'" ++ orNone s ++ "'"

/-- Texts in brackets, all of which have to be there. -/
def bracketed (parts : List (Option String)) : Except Fault String :=
  match parts.mapM id with
  | some ss => .ok ("[" ++ ", ".intercalate ss ++ "]")
  | none => .error .unusableKind

mutual

/-- The value of a term as text. Characters, floating point registers and allocation lists have none. -/
def value (m : Module) : Term → Except Fault (Option String)
  | .atom i => do return some (← m.atomText (if i = 0 then .nil else .number i))
  | .integer v => .ok (some ("0x" ++ Text.hex v))
  | .label i => do return some ("label" ++ (← Text.decimal i))
  | .literal i => do return some (← m.literalText i)
  | .yreg i => do return some ("Y" ++ (← i.decimal))
  | .xreg i => do return some ("X" ++ (← i.decimal))
  | .typed r t => do return some (← (Term.typed r t).text)
  | .list items => do return some (← bracketed (← values m items))
  | _ => .ok none

/-- The values of the members of a list. -/
def values (m : Module) : List Term → Except Fault (List (Option String))
  | [] => .ok []
  | t :: ts => do
    let v ← value m t
    let vs ← values m ts
    return v :: vs

end

mutual

/-- The value of an external term as text. Only lists have one, and their members have to be lists too. -/
def extValue : ExtTerm → Except Fault (Option String)
  | .list items => do return some (← bracketed (← extValues items))
  | _ => .ok none

/-- The values of the members of a list. -/
def extValues : List ExtTerm → Except Fault (List (Option String))
  | [] => .ok []
  | t :: ts => do
    let v ← extValue t
    let vs ← extValues ts
    return v :: vs

end

/-- A reference to an imported function. -/
def importText (m : Module) (i : Index) : Except Fault String :=
  match m.imports with
  | none => .error .noSuchPart
  | some es => do
    let e ← entryAt es i
    let module ← m.atomName (.number e.module)
    let function ← m.atomName (.number e.function)
    return "<" ++ orNone module ++ ":" ++ orNone function ++ "/" ++ (← Text.decimal e.arity) ++ ">"

/-- A reference to an exported function. -/
def exportText (m : Module) (i : Index) : Except Fault String :=
  match m.exports with
  | none => .error .noSuchPart
  | some es => do
    let e ← entryAt es i
    let function ← m.atomName (.number e.name)
    return "<:" ++ orNone function ++ "/" ++ (← Text.decimal e.arity) ++ ">"

end BeamDisasm.Module

import BeamDisasm.Instruction.Text

/-!
# Listings of a module

The tables of a module in readable form, and its instructions one to a line.
-/
namespace BeamDisasm.Module

/-- Imported functions. A name is text already and cannot be decoded again, so only a module without imports has
a list of them. -/
def importList (m : Module) : Except Fault (List (String × String × Int)) :=
  match m.imports with
  | none | some [] => .ok []
  | some (e :: _) => do
    let _ ← m.atomName (.number e.module)
    .error .noSuchPart

/-- Exported functions, with the same limit. -/
def exportList (m : Module) : Except Fault (List (String × Int)) :=
  match m.exports with
  | none | some [] => .ok []
  | some (e :: _) => do
    let _ ← m.atomName (.number e.name)
    .error .noSuchPart

/-- Local functions with the names of their atoms. -/
def functionList (m : Module) : Except Fault (List (Option String × FunctionEntry)) :=
  (m.functions.getD []).mapM fun e => do
    let name ← m.atomName (.number e.name)
    return (name, e)

/-- A text on one line. -/
def encodeLiteral (s : String) : String :=
  String.ofList (ExtTerm.oneLine s.toList)

/-- Instructions one to a line. -/
def codeLines (m : Module) : List Instruction → Except Fault String
  | [] => .ok ""
  | inst :: insts => do
    let s ← inst.text m []
    let rest ← m.codeLines insts
    return s ++ "\n" ++ rest

/-- The code of the module, one instruction to a line. -/
def assembly (m : Module) : Except Fault String :=
  match m.code with
  | none => .error .noSuchPart
  | some insts => m.codeLines insts

end BeamDisasm.Module

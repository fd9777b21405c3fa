import BeamDisasm.ExtTerm.Text
import BeamDisasm.Instruction.Basic

/-!
# Surveys

A survey runs a part of the library over sample data and reports what comes out. Where a fault is expected, the
report has a mark for it.
-/
namespace BeamDisasm

/-- What a survey reports. -/
inductive Report where
  | nothing
  | flag (b : Bool)
  | value (i : Index)
  | term (t : Term)
  | ext (t : ExtTerm)
  | instruction (i : Instruction)
  | list (items : List Report)
  deriving Repr, Inhabited

namespace Report

def number (n : Int) : Report := .value (.number n)

def text (s : String) : Report := .value (.text s)

def bytes (b : Bytes) : Report := .value (.raw b)

def text? : Option String → Report
  | some s => text s
  | none => .nothing

def number? : Option Int → Report
  | some n => number n
  | none => .nothing

def scalar (v : Scalar) : Report := .value (.ofScalar v)

/-- A mark for an expected fault; there is nothing to report where it does not arise. -/
def mark {α : Type} (s : String) : Except Fault α → Report
  | .error _ => text s
  | .ok _ => .nothing

def texts (ss : List String) : Report := .list (ss.map text)

end Report

end BeamDisasm

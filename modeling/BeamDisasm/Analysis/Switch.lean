import BeamDisasm.Module.Value

/-!
# Switches as statements

A switch over a term, with the cases that lead to blocks. Blocks are no part of a module, so a switch with cases
has no text there.
-/
namespace BeamDisasm

/-- A switch over a term: the terms of its cases and the labels that these lead to. -/
structure Switch where
  tested : Term
  branches : List (Term × Int)

namespace Switch

/-- The name of the statement. -/
def mnemonic : String := "switchCase"

/-- The text of a switch in a module. There is none for a switch without cases. -/
def text (s : Switch) (m : Module) : Except Fault (Option String) := do
  let _ ← m.value s.tested
  match s.branches with
  | [] => return none
  | (key, _) :: _ => do
    let _ ← m.value key
    .error .noSuchPart

end Switch

end BeamDisasm

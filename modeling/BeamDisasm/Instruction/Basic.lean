import BeamDisasm.Instruction.Operation

/-!
# Instructions

An instruction is an operation with its operands. The operands may be more or fewer than the operation says
while an instruction is put together.
-/
namespace BeamDisasm

/-- An operation with its operands. -/
structure Instruction where
  operation : Operation
  operands : List Term
  deriving Repr

namespace Instruction

/-- The operand at a position. -/
def operand (inst : Instruction) (i : Nat) : Except Fault Term :=
  match inst.operands[i]? with
  | some t => .ok t
  | none => .error .noSuchEntry

/-- The index of the operand at a position. -/
def indexOf (inst : Instruction) (i : Nat) : Except Fault Index := do
  let t ← inst.operand i
  t.index

/-- The labels among terms. -/
def labelsOf : List Term → List Int
  | [] => []
  | .label i :: ts => i :: labelsOf ts
  | _ :: ts => labelsOf ts

/-- The labels that a term names: its own, or those in a list. -/
def targetsOf : Term → List Int
  | .label i => [i]
  | .list items => labelsOf items
  | _ => []

/-- The labels that the instruction may jump to. -/
def jumpTargets (inst : Instruction) : List Int :=
  inst.operation.jumps.flatMap fun ref =>
    match inst.operands[ref]? with
    | some t => targetsOf t
    | none => []

/-- Control leaves the function here. -/
def isTerminal (inst : Instruction) : Bool :=
  inst.operation.exits

/-- The instruction may jump or go on. -/
def isConditional (inst : Instruction) : Bool :=
  inst.operation.branches && !inst.jumpTargets.isEmpty

/-- The number that an operand carries, if it is a literal, a label or an integer. -/
def number? : Term → Option Int
  | .integer v => some v
  | t => t.literalIndex?

/-- The number that the operand at a signed position carries, if it carries one. -/
def numberAt (inst : Instruction) (i : Int) : Except Fault (Option Int) := do
  let t ← signedGet inst.operands i
  return number? t

/-- The texts of the operands, with blanks between them. -/
def operandTexts (inst : Instruction) : Except Fault String := do
  let ts ← Term.texts inst.operands
  return " ".intercalate ts

/-- The short form of an instruction: its name and its operands. -/
def shown (inst : Instruction) : Except Fault String :=
  match inst.operation.layout with
  | .line => do
    let t ← inst.operand 0
    let s ← t.text
    return Term.applied "Line" s
  | _ => do
    let s ← inst.operandTexts
    return inst.operation.mnemonic ++ " " ++ s

/-- The index of the atom that names the module of a function header. -/
def moduleAtom (inst : Instruction) : Except Fault Index :=
  inst.indexOf 0

/-- The index of the atom that names the function of a function header. -/
def nameAtom (inst : Instruction) : Except Fault Index :=
  inst.indexOf 1

end Instruction

end BeamDisasm

import BeamDisasm.Instruction.Basic
import BeamDisasm.Term.Decode

/-!
# Reading instructions

An instruction is an opcode of one byte and as many compact terms as its operation wants.
-/
namespace BeamDisasm.Instruction

/-- The operation of an opcode, or the fault that there is none. -/
def operationOf (code : UInt8) : Except Fault Operation :=
  match Operation.find? code.toNat with
  | some op => .ok op
  | none => .error (.unknownOpcode code.toNat)

/-- The next instruction. -/
def read : Reader Instruction := do
  let code ← Reader.byte .shortField
  let operation ← Reader.lift (operationOf code)
  let operands ← Reader.times operation.arity Term.read
  return { operation, operands }

end BeamDisasm.Instruction

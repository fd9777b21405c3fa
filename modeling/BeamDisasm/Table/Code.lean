import BeamDisasm.Instruction.Decode

/-!
# Code

The code of a module is a header of five fields and instructions up to the end of the chunk.
-/
namespace BeamDisasm.Code

/-- The length of the header. -/
def headerLength : Nat := 20

/-- The instructions behind the header. -/
def read : Reader (List Instruction) := do
  let _ ← Reader.exactly headerLength
  Reader.untilEnd Instruction.read

end BeamDisasm.Code

import BeamDisasm.Term.Encode

/-!
# Writing instructions
-/
namespace BeamDisasm.Instruction

/-- An opcode and its written operands. -/
def encode (code : UInt8) (operands : List Bytes) : Bytes :=
  code :: operands.flatten

/-- An instruction with operands in the forms in which they are written. -/
def encodeForms (code : Nat) (operands : List TermForm) : Bytes :=
  encode (UInt8.ofNat code) (operands.map TermForm.encode)

/-- An opcode, which has to fit a byte, and its written operands. -/
def encode? (code : Int) (operands : List Bytes) : Except Fault Bytes :=
  (byteOf code).map fun c => encode c operands

end BeamDisasm.Instruction

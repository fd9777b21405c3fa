import BeamDisasm.Analysis.Block

/-!
# The blocks of a code section

Code is cut at its labels. What stands before the first label belongs to no block. Of several blocks with one
label only the last is kept, and the blocks are in ascending order of their labels.
-/
namespace BeamDisasm

/-- A byte string comes before another or is the same, byte by byte. -/
def bytesLe : Bytes → Bytes → Bool
  | [], _ => true
  | _ :: _, [] => false
  | a :: as, b :: bs => a < b || (a == b && bytesLe as bs)

namespace Index

/-- The order of labels of one kind. -/
def le : Index → Index → Bool
  | .number a, .number b => a ≤ b
  | .raw a, .raw b => bytesLe a b
  | _, _ => true

/-- The index is a number. -/
def isNumber : Index → Bool
  | .number _ => true
  | _ => false

/-- The index is a byte string. -/
def isRaw : Index → Bool
  | .raw _ => true
  | _ => false

end Index

namespace Instruction

/-- The opcode of the operation. -/
def code (inst : Instruction) : Nat := inst.operation.code

/-- The instruction is a label. -/
def isLabel (inst : Instruction) : Bool := inst.code == 1

/-- The instruction is the header of a function. -/
def isHeader (inst : Instruction) : Bool := inst.code == 2

end Instruction

namespace Block

/-- Instructions with their positions from `n` on. -/
def placeFrom : Nat → List Instruction → List Placed
  | _, [] => []
  | n, inst :: insts => ⟨n, inst⟩ :: placeFrom (n + 1) insts

/-- Cuts code at its labels: what stands before the first label, and each label with what stands behind it. -/
def cut : List Placed → List Placed × List (Placed × List Placed)
  | [] => ([], [])
  | p :: ps =>
    let (before, parts) := cut ps
    if p.inst.isLabel then ([], (p, before) :: parts) else (p :: before, parts)

/-- The block of a label and what stands behind it. -/
def ofPart (part : Placed × List Placed) : Except Fault Block := do
  let label ← part.1.inst.indexOf 0
  return { label, insts := part.2 }

/-- Keeps the last of several blocks with one label. -/
def keepLast : List Block → List Block
  | [] => []
  | b :: bs => if bs.any (fun c => c.label.same b.label) then keepLast bs else b :: keepLast bs

/-- Labels that can be put in order: all numbers, all byte strings, or no more than one. -/
def comparable (bs : List Block) : Bool :=
  bs.length ≤ 1 || bs.all (·.label.isNumber) || bs.all (·.label.isRaw)

/-- The blocks in ascending order of their labels. -/
def inOrder (bs : List Block) : Except Fault (List Block) :=
  if comparable bs then .ok (bs.mergeSort fun a b => a.label.le b.label) else .error .unusableKind

/-- The blocks of a code section. -/
def itemize (code : List Instruction) : Except Fault (List Block) := do
  let bs ← (cut (placeFrom 0 code)).2.mapM ofPart
  inOrder (keepLast bs)

/-- The block with a label. -/
def find? (bs : List Block) (label : Index) : Option Block :=
  bs.find? fun b => b.label.same label

/-- The block with a label, or the fault that there is none. -/
def get (bs : List Block) (label : Index) : Except Fault Block :=
  match find? bs label with
  | some b => .ok b
  | none => .error .noSuchEntry

/-- Changes the block with a label. -/
def update (label : Index) (f : Block → Block) (bs : List Block) : List Block :=
  bs.map fun b => if b.label.same label then f b else b

end Block

end BeamDisasm

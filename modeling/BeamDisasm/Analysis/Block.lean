import BeamDisasm.Instruction.Text

/-!
# Blocks

A block is the code between two labels. Links between blocks are kept by label; a link out of a block also says
which instruction makes it, by the position of the instruction in the code.
-/
namespace BeamDisasm

/-- An instruction and its position in the code. -/
structure Placed where
  position : Nat
  inst : Instruction
  deriving Repr

/-- What follows a block: a block named by its label, or a block that is held itself. -/
inductive Successor where
  | label (label : Index)
  | block (label : Index)
  deriving Repr, DecidableEq

/-- The instructions behind a label, the links of the block, and remarks on it. -/
structure Block where
  label : Index
  insts : List Placed := []
  /-- The labels of the blocks that come here. -/
  inRefs : List Index := []
  /-- Where the block goes, with the positions of the instructions that go there. -/
  outRefs : List (Nat × Int) := []
  /-- The functions of other modules that call this one. -/
  callers : List String := []
  next : Option Successor := none
  notes : List String := []
  deriving Repr

namespace Block

/-- The block is reached from the block with this label. -/
def hasInLink (b : Block) (label : Index) : Bool :=
  b.inRefs.any (·.same label)

/-- The block goes to the block with this label. -/
def hasOutLink (b : Block) (target : Int) : Bool :=
  b.outRefs.any fun r => r.2 == target

/-- The instruction at a position goes to the block with this label. -/
def hasOutRef (b : Block) (position : Nat) (target : Int) : Bool :=
  b.outRefs.contains (position, target)

/-- The block with a link into it, which is kept once. -/
def addInLink (b : Block) (label : Index) : Block :=
  if b.hasInLink label then b else { b with inRefs := b.inRefs ++ [label] }

/-- The block with a link out of it, which is kept once. -/
def addOutLink (b : Block) (position : Nat) (target : Int) : Block :=
  if b.hasOutRef position target then b else { b with outRefs := b.outRefs ++ [(position, target)] }

/-- The block with a caller from another module, which is kept once. -/
def addCaller (b : Block) (caller : String) : Block :=
  if b.callers.contains caller then b else { b with callers := b.callers ++ [caller] }

/-- The block with a note. -/
def addNote (b : Block) (note : String) : Block :=
  { b with notes := b.notes ++ [note] }

/-- The block with one more instruction. -/
def addInst (b : Block) (p : Placed) : Block :=
  { b with insts := b.insts ++ [p] }

/-- Some instruction of the block leaves the function. -/
def isTerminal (b : Block) : Bool :=
  b.insts.any fun p => p.inst.isTerminal

/-- The jumps of the block in the order of the code: the position of each instruction with each of its targets. -/
def jumps (b : Block) : List (Nat × Int) :=
  b.insts.flatMap fun p => p.inst.jumpTargets.map fun t => (p.position, t)

/-- One line for each link into the block. -/
def inLines : List Index → Except Fault String
  | [] => .ok ""
  | i :: is => do
    let s ← i.decimal
    let rest ← inLines is
    return "; => Called from label" ++ s ++ "\n" ++ rest

/-- One line for each instruction. -/
def instLines (textOf : Placed → Except Fault String) : List Placed → Except Fault String
  | [] => .ok ""
  | p :: ps => do
    let s ← textOf p
    let rest ← instLines textOf ps
    return s ++ "\n" ++ rest

/-- Remarks that need no look at the module, one to a line. -/
def remarkLines (b : Block) : String :=
  String.join (b.notes.map (· ++ "\n")) ++
    String.join (b.callers.map fun c => "; => Externally called from <" ++ c ++ ">\n")

/-- The label and the instructions of a block. -/
def body (b : Block) (textOf : Placed → Except Fault String) : Except Fault String := do
  let label ← b.label.decimal
  let insts ← instLines textOf b.insts
  return "label" ++ label ++ ":\n" ++ insts

/-- A block with instructions that are written in some way: remarks, links into it, its label, its instructions and
an empty line. -/
def textBy (b : Block) (textOf : Placed → Except Fault String) : Except Fault String := do
  let links ← inLines b.inRefs
  let code ← b.body textOf
  return b.remarkLines ++ links ++ code ++ "\n"

/-- The text of a block in a module, with the notes that the position of an instruction has. -/
def text (b : Block) (m : Module) (notesAt : Nat → List String) : Except Fault String :=
  b.textBy fun p => p.inst.text m (notesAt p.position)

/-- The text of a block where there is no module. -/
def textAlone (b : Block) : Except Fault String :=
  b.textBy fun p => p.inst.textAlone []

end Block

end BeamDisasm

import BeamDisasm.Analysis.Graph

/-!
# Analysis of a module

The blocks of a module in a graph, its functions, and notes on its instructions.
-/
namespace BeamDisasm

/-- An analysed module. -/
structure Analysis where
  module : Module
  functions : List Function
  /-- The blocks in ascending order of their labels. -/
  blocks : List Block
  /-- Notes on instructions, by their positions in the code. -/
  notes : List (Nat × String) := []

namespace Analysis

/-- The notice for jumps out of a function. -/
def warning : String := "warn: function jumps to an external block\n"

/-- The notices for a number of jumps out of functions. -/
def warnings (n : Nat) : String :=
  String.join (List.replicate n warning)

/-- Analyses a module; the second part is the number of jumps out of functions. -/
def build (m : Module) : Except Fault (Analysis × Nat) :=
  match m.code with
  | none => .error .noSuchPart
  | some code => do
    let bs ← Block.itemize code
    let functions ← Function.findAll bs
    let g := Graph.ofFunctions bs functions
    return ({ module := m, functions, blocks := g.blocks }, g.warnings)

/-- Analyses modules one after the other: the number of jumps out of functions up to the first fault, and the
analyses if there is none. -/
def buildAll : List Module → Nat × Except Fault (List Analysis)
  | [] => (0, .ok [])
  | m :: ms =>
    match build m with
    | .error e => (0, .error e)
    | .ok (a, n) =>
      let (k, rest) := buildAll ms
      (n + k, rest.map (a :: ·))

/-- The notes on the instruction at a position. -/
def notesAt (a : Analysis) (position : Nat) : List String :=
  (a.notes.filter fun n => n.1 == position).map Prod.snd

/-- Blocks one after the other. -/
def blockTexts (m : Module) (notesAt : Nat → List String) : List Block → Except Fault String
  | [] => .ok ""
  | b :: bs => do
    let s ← b.text m notesAt
    let rest ← blockTexts m notesAt bs
    return s ++ rest

/-- The listing of an analysed module. -/
def text (a : Analysis) : Except Fault String := do
  let name ← a.module.name
  let code ← blockTexts a.module a.notesAt a.blocks
  return "; Module: " ++ Module.orNone name ++ "\n\n" ++ code

/-- Changes the block with a label. -/
def updateBlock (a : Analysis) (label : Index) (f : Block → Block) : Analysis :=
  { a with blocks := Block.update label f a.blocks }

/-- Lets a block be followed by another one, which is held itself. -/
def setNextBlock (a : Analysis) (label next : Index) : Except Fault Analysis := do
  let b ← Block.get a.blocks label
  let c ← Block.get a.blocks next
  return a.updateBlock b.label fun b => { b with next := some (.block c.label) }

/-- What follows a block on the way to a merge: a path goes on over a block that is held itself, and stops at one
that leaves the function. -/
def checkPath (a : Analysis) : Option Index → Except Fault Unit
  | none => .ok ()
  | some label => do
    let b ← Block.get a.blocks label
    match b.next with
    | none | some (.label _) => .error .noSuchPart
    | some (.block next) => do
      let c ← Block.get a.blocks next
      if c.isTerminal then return () else .error .noSuchEntry

/-- The block where the paths from two blocks meet, if they do. -/
def mergingBlock (a : Analysis) (x y : Option Index) : Except Fault (Option Index) := do
  a.checkPath x
  a.checkPath y
  match x, y with
  | some i, some j => return if i.same j then some i else none
  | _, _ => return none

end Analysis

end BeamDisasm

import BeamDisasm.Analysis.Function

/-!
# The graph of blocks

Starting from the blocks of each function behind its header, links between blocks are followed. A jump is a link
out of its block and into the block of its target. A link that is met for the first time is followed at once, so
the depth of the search is at most the number of links. A target without a block ends the work on the block that
jumps there. Consecutive blocks of a function that are worked through to the end are chained.
-/
namespace BeamDisasm

/-- The blocks with the links found so far, the number of jumps out of a function, and whether the depth allowed
was too small. -/
structure Graph where
  blocks : List Block
  warnings : Nat := 0
  exhausted : Bool := false

namespace Graph

/-- Counts a jump to a block that the function does not own. -/
def warnUnless (g : Graph) (owned : Bool) : Graph :=
  if owned then g else { g with warnings := g.warnings + 1 }

/-- Changes the block with a label. -/
def update (g : Graph) (label : Index) (f : Block → Block) : Graph :=
  { g with blocks := Block.update label f g.blocks }

/-- The block with a label. -/
def find? (g : Graph) (label : Index) : Option Block :=
  Block.find? g.blocks label

/-- The link from an instruction of a block to a target is there already. -/
def hasLink (g : Graph) (label : Index) (position : Nat) (target : Int) : Bool :=
  match g.find? label with
  | some b => b.hasOutRef position target
  | none => false

/-- Links one jump of the block `label`, following it with `follow` when it is new. -/
def link (follow : Int → Graph → Graph) (f : Function) (label : Index) (jump : Nat × Int) (g : Graph) :
    Graph :=
  let g := g.warnUnless (f.hasBlock (.number jump.2))
  if g.hasLink label jump.1 jump.2 then g
  else follow jump.2 (g.update label fun b => b.addOutLink jump.1 jump.2)

/-- Links the jumps of the block `label` one after the other. The flag says that no target was missing; the jumps
after one with a missing target are left out. -/
def linkAll (follow : Int → Graph → Graph) (f : Function) (label : Index) :
    List (Nat × Int) → Graph → Graph × Bool
  | [], g => (g, true)
  | jump :: jumps, g =>
    let g := link follow f label jump g
    match g.find? (.number jump.2) with
    | none => (g, false)
    | some _ => linkAll follow f label jumps (g.update (.number jump.2) (·.addInLink label))

/-- Chains a block to the one before it. -/
def chain (before : Option Index) (label : Index) (g : Graph) : Graph :=
  match before with
  | none => g
  | some i => g.update i fun b => { b with next := some (.label label) }

/-- Works through blocks in order; `before` is the last one that was worked through to its end. -/
def walk (follow : Int → Graph → Graph) (f : Function) :
    Option Index → List Index → Graph → Graph
  | _, [], g => g
  | before, label :: labels, g =>
    match g.find? label with
    | none => walk follow f before labels g
    | some b =>
      let (g, complete) := linkAll follow f label b.jumps (chain before label g)
      walk follow f (if complete then some label else before) labels g

/-- Works through blocks, following new links at most `depth` deep. -/
def explore (f : Function) : Nat → List Index → Graph → Graph
  | 0, _, g => { g with exhausted := true }
  | depth + 1, labels, g =>
    walk (fun target => explore f depth [.number target]) f none labels g

/-- A depth that the links of the blocks cannot exceed. -/
def depthBound (bs : List Block) : Nat :=
  (bs.flatMap Block.jumps).length + 1

/-- Adds the links that start in a function. -/
def addFunction (g : Graph) (f : Function) : Graph :=
  explore f (depthBound g.blocks) (f.blocks.drop 1) g

/-- The graph of blocks and their functions. -/
def ofFunctions (bs : List Block) (fs : List Function) : Graph :=
  fs.foldl addFunction { blocks := bs }

end Graph

end BeamDisasm

import BeamDisasm.Analysis.Switch
import BeamDisasm.Loading.Basic
import BeamDisasm.Survey.Code

/-!
# Surveys of blocks

The blocks and the first function of a sample are changed one by one, and what they answer then is reported.
-/
namespace BeamDisasm.Survey

open Report

/-- The functions of a survey of about `n` blocks: one of six, and at least two. -/
def functionsFor (n : Int) : Int := max 2 (n / 6)

/-- A label that no block has. -/
def strayLabel : Int := 99999

/-- What follows a block. -/
def successorView : Option Successor → Report
  | none => .nothing
  | some (.label i) | some (.block i) => .value i

/-- The first instruction of a block, if it has one. -/
def firstInstruction (b : Block) : List Report :=
  (b.insts.take 1).map fun p => .instruction p.inst

/-- A block with a note and a caller: links that it does not have, its text, its size and place, and a mark for an
instruction behind its end. -/
def blockViews (m : Module) (b : Block) : Except Fault (List Report) := do
  let b := (b.addNote "; note").addCaller "ext:fn/0"
  return [.flag (b.hasInLink (.number strayLabel)), .flag (b.hasOutLink strayLabel), .flag b.isTerminal,
    text (← b.text m fun _ => []),
    .list [number b.insts.length, successorView b.next, .value b.label]] ++
    firstInstruction b ++ [mark "ie" (signedGet b.insts b.insts.length)]

/-- A function with a block that it did not have. -/
def functionView (m : Module) (f : Function) : Except Fault (List Report) := do
  let first ← signedGet f.blocks 0
  return [.flag (f.hasBlock first), text (← (f.addBlock (.number strayLabel)).shown), text (← f.signature m)]

/-- A block with a link into it and a link out of it, whether the links are new the second time, and the links. The
instruction that makes the link has the name `i`. -/
def linkViews : List Report :=
  let b := ((Block.mk (.number 1) [] [] [] [] none []).addInLink (.number 2)).addOutLink 0 3
  [.flag (!b.hasInLink (.number 2)), .flag (!b.hasOutRef 0 3), .flag (b.hasOutLink 3),
    .list [.list (b.inRefs.map .value), .list (b.outRefs.map fun r => .list [text "i", number r.2])]]

/-- The views of the blocks of a sample, of its first function and of links, with marks for a block that is missing,
for a switch and for paths that do not meet. -/
def blocksOf (m : Module) (a : Analysis) : Except Fault Report := do
  let views ← a.blocks.mapM (blockViews m)
  let f ← signedGet a.functions 0
  let switch : Switch := ⟨.xreg (.number 0), [(.integer 1, 2)]⟩
  return .list (views.flatten ++ [mark "ie" (Block.get a.blocks (.number strayLabel))] ++ (← functionView m f) ++
    linkViews ++ [mark "meta" (switch.text m), mark "merge" (a.mergingBlock (some (.number 1)) (some (.number 2)))])

/-- A survey of about `n` blocks. The sample is analysed twice, each time with the notices on its jumps. -/
def blocks (n : Int) : Attempt Report :=
  let built : Except Fault (Module × Analysis × Nat) := do
    let m ← sample (functionsFor n)
    let (a, warnings) ← Analysis.build m
    return (m, a, warnings)
  match built with
  | .error e => ⟨"", .error e⟩
  | .ok (m, a, warnings) => ⟨Analysis.warnings (2 * warnings), blocksOf m a⟩

end BeamDisasm.Survey

import BeamDisasm.Analysis.Itemize

/-!
# Functions

A function starts at its header and owns the blocks from the one that holds the header up to the block that
holds the next header.
-/
namespace BeamDisasm

/-- A function by the indexes in its header, and the labels of its blocks. -/
structure Function where
  module : Index
  name : Index
  arity : Index
  blocks : List Index
  deriving Repr, DecidableEq

namespace Function

/-- The function of a header. -/
def ofHeader (header : Instruction) (blocks : List Index) : Except Fault Function := do
  let module ← header.indexOf 0
  let name ← header.indexOf 1
  let arity ← header.indexOf 2
  return { module, name, arity, blocks }

/-- The function owns the block with a label. -/
def hasBlock (f : Function) (label : Index) : Bool :=
  f.blocks.any (·.same label)

/-- The function with one more block. -/
def addBlock (f : Function) (label : Index) : Function :=
  { f with blocks := f.blocks ++ [label] }

/-- The label of the first block behind the header. -/
def entry (f : Function) : Except Fault Index :=
  match f.blocks[1]? with
  | some i => .ok i
  | none => .error .noSuchEntry

/-- Module, name and arity as the module knows them. -/
def signature (f : Function) (m : Module) : Except Fault String := do
  let module ← m.atomName f.module
  let name ← m.atomName f.name
  let arity ← f.arity.decimal
  return Module.orNone module ++ ":" ++ Module.orNone name ++ "/" ++ arity

/-- The function by its indexes and labels. -/
def shown (f : Function) : Except Fault String := do
  let labels ← f.blocks.mapM fun i => do return "label" ++ (← i.decimal)
  let module ← f.module.decimal
  let name ← f.name.decimal
  let arity ← f.arity.decimal
  return "FunctionInfo(module:" ++ module ++ ", name:" ++ name ++ ", arity:" ++ arity ++ ")\x7b" ++
    ", ".intercalate labels ++ "\x7d"

/-- The search for functions: those found, the header of the one that is open, and the labels met since. -/
structure Search where
  found : List Function := []
  header : Option Instruction := none
  labels : List Index := []

namespace Search

/-- A header ends the open function before the current block. -/
def meet (s : Search) (p : Placed) : Except Fault Search :=
  if p.inst.isHeader then
    match s.header with
    | none => .ok { s with header := some p.inst }
    | some h => do
      let f ← ofHeader h s.labels.dropLast
      return { found := s.found ++ [f], header := some p.inst,
               labels := s.labels.drop (s.labels.length - 1) }
  else .ok s

/-- Goes through a block. -/
def enter (s : Search) (b : Block) : Except Fault Search :=
  b.insts.foldlM meet { s with labels := s.labels ++ [b.label] }

/-- The open function owns all labels that are left. -/
def finish (s : Search) : Except Fault (List Function) :=
  match s.header with
  | none => .ok s.found
  | some h => do
    let f ← ofHeader h s.labels
    return s.found ++ [f]

end Search

/-- The functions in blocks that are in order. -/
def findAll (bs : List Block) : Except Fault (List Function) := do
  let s ← bs.foldlM Search.enter {}
  s.finish

end Function

end BeamDisasm

import BeamDisasm.Analysis.Basic

/-!
# Annotations

An annotated module says at each block which function starts there or which case of a switch leads there, at
each call which function is called, and at each function of the modules at hand who calls it from outside. All
marks follow from the functions, the blocks and the modules alone; they are listed first and made afterwards.
When the listing stops at a fault, the marks before it are made.
-/
namespace BeamDisasm

/-- A remark to be made on an analysed module. -/
inductive Mark where
  /-- A note on a block of the module itself. -/
  | block (label : Index) (note : String)
  /-- A note on an instruction of the module itself. -/
  | inst (position : Nat) (note : String)
  /-- A caller of the function that starts at a block of one of the other modules. -/
  | caller (module : Nat) (label : Index) (name : String)
  deriving Repr, DecidableEq

namespace Instruction

/-- The instruction calls a function of its own module. -/
def isLocalCall (inst : Instruction) : Bool :=
  inst.code == 4 || inst.code == 5 || inst.code == 6

/-- The instruction calls a function by its entry in the import table. -/
def isRemoteCall (inst : Instruction) : Bool :=
  inst.code == 7 || inst.code == 8 || inst.code == 78

/-- The instruction switches over values. -/
def isValueSwitch (inst : Instruction) : Bool :=
  inst.code == 59

/-- The instruction switches over the sizes of tuples. -/
def isAritySwitch (inst : Instruction) : Bool :=
  inst.code == 60

end Instruction

namespace Analysis

/-- The functions by the labels of their first blocks behind the header. -/
abbrev Entries := List (Index × Function)

/-- The entries of the functions of a module. -/
def entries (a : Analysis) : Except Fault Entries :=
  a.functions.mapM fun f => do return (← f.entry, f)

/-- The function that starts at a label. -/
def Entries.startingAt (es : Entries) (label : Index) : Option Function :=
  (List.find? (fun e => e.1.same label) es).map Prod.snd

/-- A signature as references to it are written. -/
def reference (signature : String) : String :=
  "<" ++ signature ++ ">"

/-- The first of the functions `fs` with a signature, by the label where it starts. -/
def entryOf (m : Module) (signature : String) : List Function → Except Fault (Option Index)
  | [] => .ok none
  | f :: fs => do
    let s ← f.signature m
    if reference s = signature then return some (← f.entry) else entryOf m signature fs

/-- The label where the function with a signature starts, if there is one. -/
def entryOfSignature (a : Analysis) (signature : String) : Except Fault (Option Index) := do
  match ← entryOf a.module signature a.functions with
  | none => return none
  | some label => do
    let b ← Block.get a.blocks label
    return some b.label

/-- Notes a caller of a function from outside; the flag says whether the function is there. -/
def addFunctionCaller (a : Analysis) (signature caller : String) : Except Fault (Analysis × Bool) := do
  match ← a.entryOfSignature signature with
  | none => return (a, false)
  | some label => return (a.updateBlock label (·.addCaller caller), true)

/-- The functions of modules by their signatures, with the place of the module among them. -/
def signatures : Nat → List Analysis → Except Fault (List (String × Nat))
  | _, [] => .ok []
  | n, a :: as => do
    let own ← a.functions.mapM fun f => do return (reference (← f.signature a.module), n)
    let rest ← signatures (n + 1) as
    return own ++ rest

/-- Of several modules with a function of one signature the last counts. -/
def findLast? (table : List (String × Nat)) (signature : String) : Option Nat :=
  (table.reverse.find? fun e => e.1 == signature).map Prod.snd

/-- What the listing of marks uses: the module, where its functions start, the modules at hand and where the
functions of these are. -/
structure Context where
  own : Analysis
  entries : Entries
  others : List Analysis
  table : List (String × Nat)

/-- Marks, and the fault that ended their listing if there was one. -/
structure Marks where
  marks : List Mark
  fault : Option Fault := none

namespace Marks

/-- No marks. -/
def none : Marks := ⟨[], Option.none⟩

/-- The marks of `a` and, if it was not ended, those of `b`. -/
def andThen (a : Marks) (b : Marks) : Marks :=
  match a.fault with
  | some e => ⟨a.marks, some e⟩
  | Option.none => ⟨a.marks ++ b.marks, b.fault⟩

/-- The marks of a result that may be a fault. -/
def ofExcept : Except Fault (List Mark) → Marks
  | .ok ms => ⟨ms, Option.none⟩
  | .error e => ⟨[], some e⟩

/-- The marks of all members of a list. -/
def all {α : Type} (f : α → Marks) : List α → Marks
  | [] => none
  | x :: xs => (f x).andThen (all f xs)

end Marks

/-- The mark on a call of a function of the module. -/
def localCallMarks (c : Context) (p : Placed) : Except Fault (List Mark) := do
  let target ← p.inst.indexOf 1
  match c.entries.startingAt target with
  | none => return []
  | some f => do
    let s ← f.signature c.own.module
    return [.inst p.position ("\t; Calls " ++ s ++ "\n")]

/-- The mark that a call of another module leaves there. `current` is the function that the call is in. -/
def remoteCallMark (c : Context) (current : Option Function) (p : Placed) : Except Fault (List Mark) := do
  let target ← p.inst.indexOf 1
  let signature ← c.own.module.importText target
  match findLast? c.table signature with
  | none => return []
  | some n =>
    match current, c.others[n]? with
    | some f, some a => do
      let caller ← f.signature c.own.module
      match ← a.entryOfSignature signature with
      | some label => return [.caller n label caller]
      | none => return []
    | _, _ => return []

/-- The marks of a call of another module; where something is missing there are none. -/
def remoteCallMarks (c : Context) (current : Option Function) (p : Placed) : List Mark :=
  match remoteCallMark c current p with
  | .ok ms => ms
  | .error _ => []

/-- The key of a case as its note shows it. -/
def caseKey (c : Context) (byArity : Bool) (key : Member) : Except Fault String :=
  if byArity then do (← key.index).plain else do return Module.orNone (← key.value c.own.module)

/-- The note for a case of a switch in the block `source`. -/
def caseNote (c : Context) (byArity : Bool) (source : Index) (key : Member) : Except Fault String := do
  let s ← caseKey c byArity key
  return "; Case " ++ s ++ " (label" ++ (← source.decimal) ++ ")"

/-- The mark of one case at the block that it leads to. A note that cannot be written is left out. -/
def caseMarks (c : Context) (byArity : Bool) (source : Index) (part : Member × Member) :
    Except Fault (List Mark) := do
  let target ← part.2.index
  let b ← Block.get c.own.blocks target
  match caseNote c byArity source part.1 with
  | .ok note => return [.block b.label note]
  | .error _ => return []

/-- The marks of a switch in the block `source`. -/
def switchMarks (c : Context) (byArity : Bool) (source : Index) (p : Placed) : Marks :=
  match p.inst.cases 2 with
  | .error e => ⟨[], some e⟩
  | .ok parts => Marks.all (fun part => Marks.ofExcept (caseMarks c byArity source part)) parts

/-- The marks of an instruction in the block `source`. -/
def instMarks (c : Context) (current : Option Function) (source : Index) (p : Placed) : Marks :=
  if p.inst.isLocalCall then Marks.ofExcept (localCallMarks c p)
  else if p.inst.isRemoteCall then ⟨remoteCallMarks c current p, none⟩
  else if p.inst.isValueSwitch then switchMarks c false source p
  else if p.inst.isAritySwitch then switchMarks c true source p
  else Marks.none

/-- The mark at a block where a function starts. -/
def headerMarks (c : Context) (label : Index) (f : Function) : Except Fault (List Mark) := do
  let s ← f.signature c.own.module
  return [.block label ("; Function <" ++ s ++ ">")]

/-- The marks of blocks. A call belongs to the function that started last. -/
def blockMarks (c : Context) : Option Function → List Block → Marks
  | _, [] => Marks.none
  | current, b :: bs =>
    let start := c.entries.startingAt b.label
    let header := match start with
      | some f => Marks.ofExcept (headerMarks c b.label f)
      | none => Marks.none
    let current := start <|> current
    (header.andThen (Marks.all (instMarks c current b.label) b.insts)).andThen (blockMarks c current bs)

/-- All marks of a module among others. Before any function has started, calls belong to the last function. -/
def marks (a : Analysis) (others : List Analysis) : Marks :=
  match (do
      let entries ← a.entries
      let table ← signatures 0 others
      return { own := a, entries, others, table } : Except Fault Context) with
  | .error e => ⟨[], some e⟩
  | .ok c => blockMarks c a.functions.getLast? a.blocks

/-- Makes a mark of the module at place `own`, where `places` are the places of the other modules. -/
def make (own : Nat) (places : List Nat) (as : List Analysis) (mark : Mark) : List Analysis :=
  match mark with
  | .block label note => as.modify own (·.updateBlock label (·.addNote note))
  | .inst position note => as.modify own fun a => { a with notes := a.notes ++ [(position, note)] }
  | .caller n label name =>
    match places[n]? with
    | some i => as.modify i (·.updateBlock label (·.addCaller name))
    | none => as

/-- Annotates the module at place `own` among those at `places`: the modules afterwards, and the fault that ended
the work if there was one. -/
def annotate (as : List Analysis) (own : Nat) (places : List Nat) : List Analysis × Option Fault :=
  match as[own]? with
  | none => (as, some .noSuchEntry)
  | some a =>
    let r := a.marks (places.filterMap (as[·]?))
    (r.marks.foldl (make own places) as, r.fault)

end Analysis

end BeamDisasm

import BeamDisasm.Analysis.Annotation
import BeamDisasm.Module.Listing
import BeamDisasm.Sample.Module
import BeamDisasm.Survey.Tables

/-!
# Surveys of code

Sample modules are read, listed and analysed, and every operation is rendered with its sample operands.
-/
namespace BeamDisasm.Survey

open Report

/-- A sample module. -/
def sample (n : Int) : Except Fault Module := do
  Module.parse (← Sample.file? n false false)

/-- The name of a module, its number of instructions, and a text on one line. -/
def moduleViews (m : Module) : Except Fault Report := do
  return .list [text? (← m.name), number (m.code.getD []).length, text (Module.encodeLiteral "a\nb\rc")]

/-- A sample with `n` functions, in both forms of its tables. -/
def parsing (n : Int) : Except Fault Report := do
  let m ← sample n
  let other ← Module.parse (← Sample.file? n true true)
  return .list [← moduleViews m, ← moduleViews other]

/-- What some indexes stand for in a module. -/
def lookups (m : Module) : Except Fault Report := do
  let literal : Report := match ← m.literal 0 with
    | some t => .ext t
    | none => .nothing
  let line : Report := match ← m.lineOf (.number 1) with
    | some p => place p
    | none => .nothing
  return .list [text? (← m.value (.list [.integer 3, .xreg (.number 0)])),
    text? (← m.value (.atom 0)),
    text? (← m.atomName .nil),
    text (← m.importText (.number 0)),
    text (← m.exportText (.number 0)),
    literal,
    line]

/-- The listing of a sample with `n` functions: its length and its beginning, with some lookups. -/
def listing (n : Int) : Except Fault Report := do
  let m ← sample n
  let s ← m.assembly
  return .list [number s.length, text (String.ofList (s.toList.take 64)), ← lookups m]

/-- Two samples, the first with two functions and the second with `n`, both annotated with the calls of both. As they
have the same name, the second has the calls of both. -/
def crossAnnotated (n : Int) : Except Fault (List Analysis) := do
  let (a, _) ← Analysis.build (← sample 2)
  let (b, _) ← Analysis.build (← sample n)
  match Analysis.annotate [a, b] 0 [0, 1] with
  | (_, some e) => .error e
  | (as, none) =>
    match Analysis.annotate as 1 [0, 1] with
    | (_, some e) => .error e
    | (as, none) => return as

/-- The length of the text of an annotated analysis, whether functions take a caller, and the first functions. -/
def analysis (n : Int) : Except Fault Report := do
  let a ← signedGet (← crossAnnotated n) 1
  let s ← a.text
  let (_, known) ← a.addFunctionCaller "<atom0:atom1/1>" "other:caller/0"
  let (_, unknown) ← a.addFunctionCaller "<none:none/0>" "other:caller/0"
  let shown ← (a.functions.take 3).mapM Function.shown
  return .list [number s.length, .flag known, .flag unknown, number a.functions.length, Report.texts shown]

/-- The number of the first operand, if there is an operand. -/
def firstNumber (inst : Instruction) : Except Fault Report :=
  if inst.operands.isEmpty then .ok .nothing else (inst.numberAt 0).map number?

/-- An instruction in its views. -/
def instructionViews (m : Module) (inst : Instruction) : Except Fault (List Report) := do
  return [number inst.operation.arity, text (← inst.shown), text (← inst.text m []), .flag inst.isTerminal,
    .flag inst.isConditional, ← firstNumber inst, .list (inst.jumpTargets.map number)]

/-- An operation with its sample operands, written and read back. -/
def sampleInstruction (op : Operation) : Except Fault Instruction :=
  Instruction.read.run (Instruction.encodeForms op.code (Sample.operands op))

/-- An instruction of an opcode and operands, written and read back. -/
def instruction (code : Nat) (operands : List TermForm) : Except Fault Instruction :=
  Instruction.read.run (Instruction.encodeForms code operands)

/-- Views of single instructions: a header, a line mark with and without a line table, a move, and marks for a
line and an opcode that do not exist. -/
def singleViews (m : Module) : Except Fault (List Report) := do
  let header ← instruction 2 [.atom 1, .atom 2, .literal 3]
  let line ← instruction 153 [.literal 0]
  let far ← instruction 153 [.literal 99]
  let move ← instruction 64 [.xreg 0, .yreg 0]
  return [.list [.value (← header.moduleAtom), .value (← header.nameAtom), .value (← header.indexOf 2)],
    text (← line.shown),
    text (← line.text m []),
    text (← line.text {} []),
    text (← move.shown),
    mark "ie" (far.text m []),
    mark "te" (Instruction.read.run [0])]

/-- Every operation in its views, `n` times over. -/
def rendering (n : Int) : Except Fault Report := do
  let m ← sample 1
  let views ← Operation.table.mapM fun op => do instructionViews m (← sampleInstruction op)
  return .list ((List.replicate n.toNat views.flatten).flatten ++ (← singleViews m))

end BeamDisasm.Survey

import BeamDisasm.Instruction.Operation
import BeamDisasm.Term.Encode

/-!
# Sample operands

For every operation operands of the kinds that it is written with. Operations without a layout of their own take
operands of all kinds in turn.
-/
namespace BeamDisasm.Sample

open TermForm

/-- A list of registers. -/
def registers : TermForm := .list [xreg 0, yreg 1, xreg 2]

/-- A label and a register to test. -/
def tested : List TermForm := [label 2, xreg 0]

/-- Cases of a switch over values, from one label on. -/
def valueCases (base : Nat) : TermForm :=
  .list [atom 2, label (base + 3), atom 3, label (base + 4)]

/-- Cases of a switch over sizes, from one label on. -/
def sizeCases (base : Nat) : TermForm :=
  .list [literal 2, label (base + 3), literal 3, label (base + 4)]

/-- The kinds that operands take in turn. -/
def turns : List TermForm :=
  [xreg 0, yreg 1, atom 2, integer 7, label 2, .list [xreg 0, integer 3]]

/-- Operands of all kinds in turn. -/
def defaultOperands (arity : Nat) : List TermForm :=
  (List.range arity).map fun i => turns.getD (i % 6) (xreg 0)

/-- The operands of an operation whose layout wants certain kinds. -/
def ownOperands? : Nat → Option (List TermForm)
  | 1 => some [literal 1]
  | 2 => some [atom 1, atom 2, literal 0]
  | 4 | 6 => some [literal 1, label 2]
  | 5 => some [literal 1, label 2, literal 0]
  | 7 | 78 => some [literal 1, literal 0]
  | 8 => some [literal 1, literal 0, literal 0]
  | 9 => some [literal 0, xreg 0]
  | 10 => some [label 2, literal 0, xreg 0, xreg 1]
  | 11 => some [label 2, literal 0, xreg 0, xreg 1, yreg 0]
  | 12 | 14 | 136 => some [literal 1, literal 1]
  | 13 => some [literal 1, xreg 0, literal 1]
  | 15 => some [literal 1, literal 1, literal 1]
  | 16 => some [literal 2, literal 1]
  | 18 | 75 | 153 => some [literal 1]
  | 23 | 77 | 156 => some tested
  | 36 => some [literal 0, xreg 0, xreg 1, literal 1]
  | 39 | 40 | 41 | 42 | 43 | 44 => some (tested ++ [atom 2])
  | 45 | 46 | 47 | 48 | 49 | 50 | 51 | 52 | 53 | 54 | 55 | 56 | 57 => some tested
  | 58 => some (tested ++ [literal 2])
  | 59 => some [xreg 0, label 2, valueCases 0]
  | 60 => some [xreg 0, label 2, sizeCases 0]
  | 61 => some [label 2]
  | 62 | 104 => some [yreg 0, label 2]
  | 64 => some [xreg 0, yreg 0]
  | 66 => some [xreg 0, literal 1, xreg 1]
  | 67 => some [xreg 0, xreg 1, literal 1]
  | 69 => some [xreg 0, yreg 0, xreg 1]
  | 70 => some [literal 2, xreg 0]
  | 92 => some [xreg 0, xreg 1]
  | 124 => some [label 2, literal 1, literal 0, xreg 0, xreg 1]
  | 125 => some [label 2, literal 1, literal 0, xreg 0, integer 3, xreg 1]
  | 132 => some [label 2, xreg 0, xreg 1, xreg 2]
  | 159 => some (tested ++ [literal 2, atom 2])
  | 164 => some [xreg 0, registers]
  | 165 | 167 => some [xreg 0, xreg 1, literal 1]
  | 166 => some [xreg 0, xreg 1, xreg 2, xreg 3]
  | 170 => some [xreg 0, literal 1, literal 1, xreg 1]
  | 171 => some [literal 0, xreg 0, registers]
  | 172 => some [registers]
  | 177 => some [xreg 0, xreg 1, literal 1, literal 1, xreg 2, registers]
  | 178 => some [xreg 0, literal 1, xreg 1]
  | 181 => some [xreg 0, literal 2, xreg 1, xreg 2, .list [literal 1, xreg 0, literal 2, yreg 1]]
  | _ => none

/-- The sample operands of an operation. -/
def operands (op : Operation) : List TermForm :=
  (ownOperands? op.code).getD (defaultOperands op.arity)

end BeamDisasm.Sample

import BeamDisasm.ExtTerm.Decode
import BeamDisasm.Sample.Module
import BeamDisasm.Survey.Basic
import BeamDisasm.Term.Decode

/-!
# Surveys of terms

Terms of every kind are written and read back, and the views of each are reported.
-/
namespace BeamDisasm.Survey

open Report

/-- The first `n` items of a list that is repeated without end. -/
def cycle {α : Type} [Inhabited α] (n : Int) (items : List α) : List α :=
  (List.range n.toNat).map fun i => items.getD (i % items.length) default

/-- Compact terms of every kind, with small and large values. -/
def termForms : List TermForm :=
  ((List.range 7).flatMap fun tag => [.basic tag 3, .basic tag 200]) ++
    [.literal 70000, .integer 70000, .atom 70000, .label 70000, .literal 10000000000000000000000000,
      .list [.xreg 0, .yreg 1, .integer 5],
      .alloc [(.literal 0, .literal 3), (.literal 1, .literal 4)],
      .fpreg 2,
      .extLiteral 3,
      .typed (.xreg 1) (.literal 2)]

/-- Bytes that are no compact terms: nested forms without a meaning, and two that want a literal. -/
def brokenTerms : List Bytes :=
  [[0x07], [0x67], 0x47 :: Term.encode 3 1, 0x27 :: Term.encode 1 1]

/-- The text of the term that begins some bytes. -/
def readText (b : Bytes) : Except Fault String := do
  let t ← Term.read.run b
  t.text

/-- The texts of `n` compact terms, and marks for broken ones. -/
def compactTerms (n : Int) : Except Fault Report := do
  let ss ← (cycle n termForms).mapM fun f => readText f.encode
  return .list (ss.map text ++ brokenTerms.map fun b => mark "None" (readText b))

/-- External terms of every kind. -/
def extForms : List ExtTerm :=
  [.newFloat (List.replicate 8 0x3F),
    .cacheRef 7,
    .smallInteger 42,
    .integer 99999,
    .atom .latin (Bytes.ofAscii "abc"),
    .smallTuple [Sample.smallAtom "mod", .smallInteger 5],
    .largeTuple [.smallInteger 1, .smallInteger 2],
    .nil,
    .string (Bytes.ofAscii "a\nb"),
    .list [.smallInteger 1],
    .binary (Bytes.ofAscii "data"),
    .smallBig 1 [1],
    .remoteFun (.raw (Bytes.ofAscii "mod")) (.raw (Bytes.ofAscii "fun")) (.number 2),
    .atom .smallLatin (Bytes.ofAscii "xyz"),
    .map [(Sample.smallAtom "mod", .smallInteger 1)],
    .atom .utf8 (Bytes.ofAscii "atom"),
    .atom .smallUtf8 (Bytes.ofAscii "atom")]

/-- A list and the empty list have no form of their own to show. -/
def isPlainList : ExtTerm → Bool
  | .list _ | .nil => true
  | _ => false

/-- What a term shows, its kind and its text. -/
def extViews (t : ExtTerm) : Except Fault (List Report) := do
  let views := Report.texts [t.kindName, ← t.text]
  if isPlainList t then return [views] else return [text (← t.shown), views]

/-- A float as text takes this many bytes. -/
def floatLength : Nat := 31

/-- Terms that are made and not read: their sizes, values and texts. -/
def madeExtTerms : Except Fault (List Report) := do
  let pair := [ExtTerm.smallInteger 1, ExtTerm.smallInteger 1]
  let values ← pair.mapM ExtTerm.value
  let a ← (ExtTerm.atom .latin (Bytes.ofAscii "a")).text
  let x ← (ExtTerm.atom .smallLatin (Bytes.ofAscii "x")).text
  let digits := Bytes.ofAscii "1.25"
  let float ← (ExtTerm.float (digits ++ List.replicate (floatLength - digits.length) 0)).value
  let big ← (ExtTerm.largeBig 1 [1, 2]).shown
  let bare ← (ExtTerm.bare (.text "x")).value
  return [number pair.length, .list (values.map scalar), text (a ++ x), text (← float.plain), text big, scalar bare]

/-- The tag of a term that has no reader, as the fault tells it. -/
def refusedTag (b : Bytes) : Report :=
  match ExtTerm.read.run b with
  | .error (.unsupportedTag tag) => text (Fault.tagText tag)
  | _ => .nothing

/-- The views of `n` external terms, of terms that are made, and marks for faults. -/
def extTerms (n : Int) : Except Fault Report := do
  let views ← (cycle n extForms).mapM fun t => do extViews (← ExtTerm.readMarked.run t.encodeMarked)
  let made ← madeExtTerms
  let missing := signedGet [ExtTerm.nil] 9
  return .list (views.flatten ++ made ++ [refusedTag [200], mark "ie" missing])

/-- A term of a tag with its text. -/
def taggedText (tag : Nat) (v : Scalar) : Except Fault Report := do
  let t ← Term.ofTag tag v
  return text (← t.text)

/-- Views of an atom: its text, whether it is no atom, and its index. -/
def atomViews (i : Nat) : Except Fault Report := do
  let t := Term.atom i
  return .list [text (← t.text), .flag (i == 0), .value (← t.index)]

/-- A character with its text. -/
def charViews (code : Nat) : Except Fault Report := do
  let t := Term.char (.number code)
  let c ← t.codePoint
  return Report.texts [← t.text, String.singleton (Char.ofNat c)]

/-- A typed register with its parts. -/
def typedViews (r t : Term) : Except Fault Report := do
  return .list [text (← (Term.typed r t).text), .term r, .term t]

/-- A list of two terms with its length and its first item. -/
def pairViews (a b : Term) : Except Fault Report := do
  let items := [a, b]
  return .list [text (← (Term.list items).text), number items.length, .term a]

/-- An allocation list of one pair with its length and its pair. -/
def allocViews (k v : Term) : Except Fault Report := do
  let items := [(k, v)]
  return .list [text (← (Term.alloc items).text), number items.length, .list [.term k, .term v]]

/-- Terms made from the number `i`. -/
def termsOf (i : Nat) : Except Fault (List Report) := do
  let byte : Bytes := [UInt8.ofNat (i % 256)]
  return [number (Bytes.toNat (byte ++ [UInt8.ofNat (i / 256 % 256)])),
    ← taggedText 1 (.number i),
    ← taggedText 1 (.raw [1, 2, 3]),
    ← taggedText 0 (.number i),
    ← taggedText 0 (.raw byte),
    ← taggedText 5 (.number i),
    ← atomViews (i % 4),
    ← taggedText 2 (.raw byte),
    ← taggedText 3 (.number i),
    ← taggedText 4 (.number i),
    ← charViews (65 + i % 26),
    text (← (Term.fpreg (.number i)).text),
    ← typedViews (.xreg (.number (i % 4))) (.literal (i % 3)),
    ← pairViews (.integer i) (.xreg (.number (i % 3))),
    ← allocViews (.literal 0) (.literal i)]

/-- The views of terms made from the numbers below `n`, and marks for texts, tags and places that do not exist. -/
def madeTerms (n : Int) : Except Fault Report := do
  let views ← (List.range n.toNat).mapM termsOf
  let refused := [0, 1, 2].map fun tag => mark "err" (Term.ofTag tag (.text "x"))
  let missing := mark "ie" (signedGet ([] : List Term) 0)
  return .list (views.flatten ++ refused ++ [missing, missing])

end BeamDisasm.Survey

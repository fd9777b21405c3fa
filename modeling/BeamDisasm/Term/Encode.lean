import BeamDisasm.Term.Basic

/-!
# Writing compact terms

Each compact form has its writer here: basic terms in the shortest of their forms, and the nested forms
around parts that are written already.
-/
namespace BeamDisasm

/-- A number has at most as many bytes as it counts. -/
theorem Bytes.length_shortest_le (n : Nat) : (Bytes.shortest n).length ≤ n := by
  induction n using Nat.strongRecOn with
  | _ n ih =>
    rw [Bytes.shortest]
    split
    · simp
    · have h := ih (n / 256) (by omega)
      simp only [List.length_append, List.length_cons, List.length_nil]
      omega

/-- A number as a byte. -/
def byteOf (n : Int) : Except Fault UInt8 :=
  if 0 ≤ n ∧ n < 256 then .ok (UInt8.ofNat n.toNat) else .error .byteOutOfRange

namespace Term

/-- The first byte of a basic term: `high` above the tag. -/
def lead (tag high : Nat) : UInt8 :=
  UInt8.ofNat (high ||| tag)

/-- A basic term: four bits, eleven bits or the shortest bytes of the value. Values of more than eight bytes
announce their length by a literal, written the same way. -/
def encode (tag v : Nat) : Bytes :=
  if v < 16 then [lead tag (v <<< 4)]
  else if v < 2048 then [lead tag (((v >>> 8) <<< 5) ||| 8), UInt8.ofNat (v % 256)]
  else
    let b := Bytes.shortest v
    if b.length ≤ 8 then lead tag (((b.length - 2) <<< 5) ||| 0x18) :: b
    else lead tag 0xF8 :: (encode 0 (b.length - 9) ++ b)
termination_by v
decreasing_by
  have := Bytes.length_shortest_le v
  omega

/-- A basic term, for a tag and a value that fit the format. -/
def encode? (tag v : Int) : Except Fault Bytes :=
  if 0 ≤ v ∧ 0 ≤ tag ∧ tag < 256 then .ok (encode tag.toNat v.toNat) else .error .byteOutOfRange

/-- A list of written terms. -/
def encodeList (items : List Bytes) : Bytes :=
  0x17 :: (encode 0 items.length ++ items.flatten)

/-- An allocation list of pairs of written terms. -/
def encodeAlloc (pairs : List (Bytes × Bytes)) : Bytes :=
  0x37 :: (encode 0 pairs.length ++ pairs.flatMap fun (k, v) => k ++ v)

/-- A floating point register. -/
def encodeFpReg (i : Nat) : Bytes :=
  0x27 :: encode 0 i

/-- A literal in its nested form. -/
def encodeExtLiteral (i : Nat) : Bytes :=
  0x47 :: encode 0 i

/-- A written register with its written type. -/
def encodeTyped (register typeInfo : Bytes) : Bytes :=
  0x57 :: (register ++ typeInfo)

end Term

/-- A term in one of the forms in which it can be written. -/
inductive TermForm where
  | basic (tag value : Nat)
  | list (items : List TermForm)
  | alloc (items : List (TermForm × TermForm))
  | fpreg (index : Nat)
  | extLiteral (index : Nat)
  | typed (register typeInfo : TermForm)
  deriving Repr, Inhabited

namespace TermForm

/-- A literal. -/
def literal (v : Nat) : TermForm := .basic 0 v

/-- An integer. -/
def integer (v : Nat) : TermForm := .basic 1 v

/-- An atom. -/
def atom (v : Nat) : TermForm := .basic 2 v

/-- An X register. -/
def xreg (v : Nat) : TermForm := .basic 3 v

/-- A Y register. -/
def yreg (v : Nat) : TermForm := .basic 4 v

/-- A label. -/
def label (v : Nat) : TermForm := .basic 5 v

/-- A character. -/
def char (v : Nat) : TermForm := .basic 6 v

mutual

/-- A term as it is written. -/
def encode : TermForm → Bytes
  | .basic tag v => Term.encode tag v
  | .list items => 0x17 :: (Term.encode 0 items.length ++ encodeAll items)
  | .alloc items => 0x37 :: (Term.encode 0 items.length ++ encodePairs items)
  | .fpreg i => Term.encodeFpReg i
  | .extLiteral i => Term.encodeExtLiteral i
  | .typed r t => 0x57 :: (encode r ++ encode t)

/-- Terms one after the other. -/
def encodeAll : List TermForm → Bytes
  | [] => []
  | t :: ts => encode t ++ encodeAll ts

/-- Pairs of terms one after the other. -/
def encodePairs : List (TermForm × TermForm) → Bytes
  | [] => []
  | (k, v) :: ps => encode k ++ (encode v ++ encodePairs ps)

end

/-- The value that a register or a character is read with: a number below 2048, and bytes from there on. -/
def scalar (v : Nat) : Scalar :=
  if v < 2048 then .number v else .raw (Bytes.shortest v)

/-- The basic term of a tag and a value. Tags from six on are those of characters. -/
def basicTerm (tag v : Nat) : Term :=
  match tag with
  | 0 => .literal v
  | 1 => .integer v
  | 2 => .atom v
  | 3 => .xreg (scalar v)
  | 4 => .yreg (scalar v)
  | 5 => .label v
  | _ => .char (scalar v)

mutual

/-- The term that a form stands for. -/
def term : TermForm → Term
  | .basic tag v => basicTerm tag v
  | .list items => .list (terms items)
  | .alloc items => .alloc (termPairs items)
  | .fpreg i => .fpreg (.number i)
  | .extLiteral i => .literal i
  | .typed r t => .typed (term r) (term t)

/-- The terms that forms stand for. -/
def terms : List TermForm → List Term
  | [] => []
  | t :: ts => term t :: terms ts

/-- The pairs of terms that pairs of forms stand for. -/
def termPairs : List (TermForm × TermForm) → List (Term × Term)
  | [] => []
  | (k, v) :: ps => (term k, term v) :: termPairs ps

end

end TermForm

end BeamDisasm

import BeamDisasm.ExtTerm.Decode
import BeamDisasm.ExtTerm.Encode
import BeamDisasm.Proofs.Reader

/-!
# External terms are read as they were written

A written form is a tree of tags: every tag that has a reader, with the fields that stand behind it. Several forms
are read as one term, since the two older tags of atoms are read as the newer one, and a remote function keeps
the names of its atoms but not how they were written. Every form whose lengths fit their fields is read
back, with or without the marker in front, and what follows it is left alone.
-/
namespace BeamDisasm

open Reader (Reads reads_byte reads_lift reads_number reads_pure reads_upTo)

/-- A term in one of the forms in which it can be written. -/
inductive ExtForm where
  | newFloat (bits : Bytes)
  | cacheRef (slot : UInt8)
  | smallInteger (value : UInt8)
  | integer (value : UInt32)
  | atom (form : AtomForm) (name : Bytes)
  | smallTuple (members : List ExtForm)
  | largeTuple (members : List ExtForm)
  | nil
  | string (chars : Bytes)
  | list (items : List ExtForm)
  | binary (bytes : Bytes)
  | smallBig (sign : UInt8) (digits : Bytes)
  | remoteFun (moduleForm : AtomForm) (module : Bytes) (functionForm : AtomForm) (function : Bytes) (arity : UInt8)
  | map (entries : List (ExtForm × ExtForm))
  deriving Repr, Inhabited

/-- An atom behind its tag. -/
def AtomForm.encode (form : AtomForm) (name : Bytes) : Bytes :=
  ExtTerm.tagged form.tag (ExtTerm.lengthFirst form.width name)

/-- The form in which an atom is kept when it is read. -/
def AtomForm.kept : AtomForm → AtomForm
  | .smallUtf8 => .smallUtf8
  | _ => .utf8

namespace ExtForm

open ExtTerm (tagged lengthFirst)

mutual

/-- A form as it is written: its tag, then its fields with counts and lengths in front. The tail of a list is the
empty list. -/
def encode : ExtForm → Bytes
  | .newFloat bits => tagged 70 bits
  | .cacheRef slot => tagged 82 [slot]
  | .smallInteger value => tagged 97 [value]
  | .integer value => tagged 98 (Bytes.ofNat 4 value.toNat)
  | .atom form name => form.encode name
  | .smallTuple ms => tagged 104 (Bytes.ofNat 1 ms.length ++ encodeAll ms)
  | .largeTuple ms => tagged 105 (Bytes.ofNat 4 ms.length ++ encodeAll ms)
  | .nil => tagged 106 []
  | .string chars => tagged 107 (lengthFirst 2 chars)
  | .list ms => tagged 108 (Bytes.ofNat 4 ms.length ++ (encodeAll ms ++ tagged 106 []))
  | .binary bytes => tagged 109 (lengthFirst 4 bytes)
  | .smallBig sign digits => tagged 110 (Bytes.ofNat 1 digits.length ++ (sign :: digits))
  | .remoteFun mf m ff f arity => tagged 113 (mf.encode m ++ (ff.encode f ++ tagged 97 [arity]))
  | .map es => tagged 116 (Bytes.ofNat 4 es.length ++ encodeEntries es)

/-- Forms one after the other. -/
def encodeAll : List ExtForm → Bytes
  | [] => []
  | t :: ts => encode t ++ encodeAll ts

/-- The entries of a map one after the other. -/
def encodeEntries : List (ExtForm × ExtForm) → Bytes
  | [] => []
  | (k, v) :: es => encode k ++ (encode v ++ encodeEntries es)

end

mutual

/-- The term that a form stands for. -/
def term : ExtForm → ExtTerm
  | .newFloat bits => .newFloat bits
  | .cacheRef slot => .cacheRef slot.toNat
  | .smallInteger value => .smallInteger value.toNat
  | .integer value => .integer value.toNat
  | .atom form name => .atom form.kept name
  | .smallTuple ms => .smallTuple (terms ms)
  | .largeTuple ms => .largeTuple (terms ms)
  | .nil => .nil
  | .string chars => .string chars
  | .list ms => .list (terms ms)
  | .binary bytes => .binary bytes
  | .smallBig sign digits => .smallBig sign.toNat digits
  | .remoteFun _ m _ f arity => .remoteFun (.raw m) (.raw f) (.number arity.toNat)
  | .map es => .map (termEntries es)

/-- The terms that forms stand for, in order. -/
def terms : List ExtForm → List ExtTerm
  | [] => []
  | t :: ts => term t :: terms ts

/-- The entries that pairs of forms stand for, in order. -/
def termEntries : List (ExtForm × ExtForm) → List (ExtTerm × ExtTerm)
  | [] => []
  | (k, v) :: es => (term k, term v) :: termEntries es

end

mutual

/-- Every length fits its field, and a float has eight bytes. -/
def Fits : ExtForm → Prop
  | .newFloat bits => bits.length = 8
  | .cacheRef _ | .smallInteger _ | .integer _ | .nil => True
  | .atom form name => name.length < 256 ^ form.width
  | .smallTuple ms => ms.length < 256 ^ 1 ∧ AllFit ms
  | .largeTuple ms => ms.length < 256 ^ 4 ∧ AllFit ms
  | .string chars => chars.length < 256 ^ 2
  | .list ms => ms.length < 256 ^ 4 ∧ AllFit ms
  | .binary bytes => bytes.length < 256 ^ 4
  | .smallBig _ digits => digits.length < 256 ^ 1
  | .remoteFun mf m ff f _ => m.length < 256 ^ mf.width ∧ f.length < 256 ^ ff.width
  | .map es => es.length < 256 ^ 4 ∧ EntriesFit es

/-- All of the forms fit. -/
def AllFit : List ExtForm → Prop
  | [] => True
  | t :: ts => Fits t ∧ AllFit ts

/-- Keys and values of all entries fit. -/
def EntriesFit : List (ExtForm × ExtForm) → Prop
  | [] => True
  | (k, v) :: es => Fits k ∧ Fits v ∧ EntriesFit es

end

end ExtForm

namespace ExtTerm

/-! ## Bodies behind their tags -/

/-- A term is its tag and the body that the tag announces. -/
theorem reads_tagged {fuel : Nat} {tag : UInt8} (form : Form) {bs : Bytes} {t : ExtTerm}
    (htag : Form.ofTag? tag = some form) (h : Reads (body (readFuel fuel) form) bs t) :
    Reads (readFuel (fuel + 1)) (tagged tag bs) t := by
  have hafter : Reads (afterTag (readFuel fuel) tag) bs t := by
    simpa only [afterTag, htag] using h
  exact (reads_byte .shortField tag).bind hafter

/-- Bytes behind their length are read back when the length fits its field. -/
theorem reads_sized {width : Nat} {b : Bytes} (h : b.length < 256 ^ width) :
    Reads (sized width) (lengthFirst width b) b :=
  (reads_number h).bind (reads_upTo rfl)

theorem reads_number_one (b : UInt8) : Reads (Reader.number 1) [b] b.toNat := by
  have h := (Reader.reads_exactly (n := 1) (b := [b]) rfl).map Bytes.toNat
  rwa [Bytes.toNat_singleton] at h

/-- An atom is read back in any of its forms, whatever fuel is left. -/
theorem reads_atom (fuel : Nat) (form : AtomForm) {name : Bytes} (h : name.length < 256 ^ form.width) :
    Reads (readFuel (fuel + 1)) (form.encode name) (.atom form.kept name) := by
  cases form with
  | utf8 => exact reads_tagged .atom rfl ((reads_sized h).map _)
  | smallUtf8 => exact reads_tagged .smallAtom rfl ((reads_sized h).map _)
  | latin => exact reads_tagged .atom rfl ((reads_sized h).map _)
  | smallLatin => exact reads_tagged .atom rfl ((reads_sized h).map _)

theorem reads_smallInteger (fuel : Nat) (value : UInt8) :
    Reads (readFuel (fuel + 1)) (tagged 97 [value]) (.smallInteger value.toNat) :=
  reads_tagged .smallInteger rfl ((reads_number_one value).map _)

theorem reads_nil (fuel : Nat) : Reads (readFuel (fuel + 1)) (tagged 106 []) .nil :=
  reads_tagged .nil rfl (reads_pure _)

/-- A remote function is read back from its two atoms and its arity, which it keeps without their forms. -/
theorem reads_remoteFun {fuel : Nat} (mf ff : AtomForm) {m f : Bytes} (arity : UInt8)
    (hm : m.length < 256 ^ mf.width) (hf : f.length < 256 ^ ff.width) :
    Reads (readFuel (fuel + 2)) (tagged 113 (mf.encode m ++ (ff.encode f ++ tagged 97 [arity])))
      (.remoteFun (.raw m) (.raw f) (.number arity.toNat)) := by
  refine reads_tagged .remoteFun rfl ?_
  refine (reads_atom fuel mf hm).bind ((reads_atom fuel ff hf).bind ?_)
  refine (reads_smallInteger fuel arity).bind_nil ?_
  exact (reads_lift (Scalar.raw m)).bind ((reads_lift (Scalar.raw f)).bind ((reads_lift _).map _))

section Containers

variable {fuel : Nat} {bs : List Bytes} {ts : List ExtTerm}

theorem reads_smallTuple (hcount : bs.length < 256 ^ 1) (h : List.Forall₂ (Reads (readFuel fuel)) bs ts) :
    Reads (readFuel (fuel + 1)) (tagged 104 (Bytes.ofNat 1 bs.length ++ bs.flatten)) (.smallTuple ts) := by
  refine reads_tagged .smallTuple rfl ?_
  exact (reads_number hcount).bind ((Reads.times h).map _)

theorem reads_largeTuple (hcount : bs.length < 256 ^ 4) (h : List.Forall₂ (Reads (readFuel fuel)) bs ts) :
    Reads (readFuel (fuel + 1)) (tagged 105 (Bytes.ofNat 4 bs.length ++ bs.flatten)) (.largeTuple ts) := by
  refine reads_tagged .largeTuple rfl ?_
  exact (reads_number hcount).bind ((Reads.times h).map _)

/-- The tail of a list is read with the fuel of its items, and dropped. -/
theorem reads_list (hcount : bs.length < 256 ^ 4)
    (h : List.Forall₂ (Reads (readFuel (fuel + 1))) bs ts) :
    Reads (readFuel (fuel + 2)) (tagged 108 (Bytes.ofNat 4 bs.length ++ (bs.flatten ++ tagged 106 [])))
      (.list ts) := by
  refine reads_tagged .list rfl ?_
  exact (reads_number hcount).bind ((Reads.times h).bind ((reads_nil fuel).map _))

theorem reads_map {es : List (Bytes × Bytes)} {ts : List (ExtTerm × ExtTerm)} (hcount : es.length < 256 ^ 4)
    (h : List.Forall₂ (fun e t => Reads (readFuel fuel) e.1 t.1 ∧ Reads (readFuel fuel) e.2 t.2) es ts) :
    Reads (readFuel (fuel + 1))
      (tagged 116 (Bytes.ofNat 4 es.length ++ (es.map fun e => e.1 ++ e.2).flatten)) (.map ts) := by
  have hentries : List.Forall₂ (Reads (do
      let k ← readFuel fuel
      let v ← readFuel fuel
      return (k, v))) (es.map fun e => e.1 ++ e.2) ts := by
    rw [List.forall₂_map_left_iff]
    exact h.imp fun e t he => he.1.bind (he.2.map _)
  rw [← List.length_map (fun e : Bytes × Bytes => e.1 ++ e.2)] at hcount ⊢
  refine reads_tagged .map rfl ?_
  exact (reads_number hcount).bind ((Reads.times hentries).map _)

end Containers

/-- In front of a term the marker changes nothing. -/
theorem readMarked_cons {s : Bytes} (h : s ≠ []) : readMarked (marker :: s) = read s := by
  cases s with
  | nil => exact absurd rfl h
  | cons tag t => rfl

end ExtTerm

namespace ExtForm

open ExtTerm (readFuel)

theorem encodeAll_eq (ts : List ExtForm) : encodeAll ts = (ts.map encode).flatten := by
  induction ts with
  | nil => rfl
  | cons t ts ih => rw [encodeAll, ih, List.map_cons, List.flatten_cons]

theorem encodeEntries_eq (es : List (ExtForm × ExtForm)) :
    encodeEntries es =
      ((es.map fun e => (encode e.1, encode e.2)).map fun e => e.1 ++ e.2).flatten := by
  induction es with
  | nil => rfl
  | cons e es ih =>
      rw [encodeEntries, ih, List.map_cons, List.map_cons, List.flatten_cons, List.append_assoc]

theorem length_encode_pos (t : ExtForm) : 0 < t.encode.length := by
  cases t <;> simp [encode, ExtTerm.tagged, AtomForm.encode]

-- The induction is on the tree, with the fuel left open: a container spends one unit of it and hands the rest to
-- each of its members, which are all shorter.
mutual

/-- Every form that fits is read back, with fuel for its bytes. -/
theorem reads_encode : ∀ (t : ExtForm), t.Fits → ∀ fuel, t.encode.length ≤ fuel →
    Reads (readFuel fuel) t.encode t.term
  | t, _, 0, hfuel => by
      have hpos := length_encode_pos t
      omega
  | .newFloat bits, h, fuel + 1, _ => by
      rw [Fits] at h
      rw [encode]
      exact ExtTerm.reads_tagged .newFloat rfl ((reads_upTo h).map _)
  | .cacheRef slot, _, fuel + 1, _ => by
      rw [encode]
      exact ExtTerm.reads_tagged .cacheRef rfl ((ExtTerm.reads_number_one slot).map _)
  | .smallInteger value, _, fuel + 1, _ => by
      rw [encode]
      exact ExtTerm.reads_smallInteger fuel value
  | .integer value, _, fuel + 1, _ => by
      rw [encode]
      exact ExtTerm.reads_tagged .integer rfl ((reads_number value.toNat_lt).map _)
  | .atom form name, h, fuel + 1, _ => by
      rw [Fits] at h
      rw [encode]
      exact ExtTerm.reads_atom fuel form h
  | .smallTuple ms, h, fuel + 1, hfuel => by
      rw [Fits] at h
      simp only [encode, ExtTerm.tagged, List.length_cons, List.length_append] at hfuel
      rw [encode, encodeAll_eq, ← List.length_map encode]
      exact ExtTerm.reads_smallTuple (by simpa using h.1) (reads_all ms h.2 fuel (by omega))
  | .largeTuple ms, h, fuel + 1, hfuel => by
      rw [Fits] at h
      simp only [encode, ExtTerm.tagged, List.length_cons, List.length_append] at hfuel
      rw [encode, encodeAll_eq, ← List.length_map encode]
      exact ExtTerm.reads_largeTuple (by simpa using h.1) (reads_all ms h.2 fuel (by omega))
  | .nil, _, fuel + 1, _ => by
      rw [encode]
      exact ExtTerm.reads_nil fuel
  | .string chars, h, fuel + 1, _ => by
      rw [Fits] at h
      rw [encode]
      exact ExtTerm.reads_tagged .string rfl ((ExtTerm.reads_sized h).map _)
  | .list ms, h, fuel + 1, hfuel => by
      rw [Fits] at h
      simp only [encode, ExtTerm.tagged, List.length_cons, List.length_append] at hfuel
      have hms := reads_all ms h.2 fuel (by omega)
      obtain ⟨fuel, rfl⟩ : ∃ k, fuel = k + 1 := ⟨fuel - 1, by omega⟩
      rw [encode, encodeAll_eq, ← List.length_map encode]
      exact ExtTerm.reads_list (by simpa using h.1) hms
  | .binary bytes, h, fuel + 1, _ => by
      rw [Fits] at h
      rw [encode]
      exact ExtTerm.reads_tagged .binary rfl ((ExtTerm.reads_sized h).map _)
  | .smallBig sign digits, h, fuel + 1, _ => by
      rw [Fits] at h
      rw [encode]
      refine ExtTerm.reads_tagged .smallBig rfl ?_
      exact (reads_number h).bind ((ExtTerm.reads_number_one sign).bind ((reads_upTo rfl).map _))
  | .remoteFun mf m ff f arity, h, fuel + 1, hfuel => by
      rw [Fits] at h
      simp only [encode, ExtTerm.tagged, List.length_cons, List.length_append] at hfuel
      obtain ⟨fuel, rfl⟩ : ∃ k, fuel = k + 1 := ⟨fuel - 1, by omega⟩
      rw [encode]
      exact ExtTerm.reads_remoteFun mf ff arity h.1 h.2
  | .map es, h, fuel + 1, hfuel => by
      rw [Fits] at h
      simp only [encode, ExtTerm.tagged, List.length_cons, List.length_append] at hfuel
      have hes := reads_entries es h.2 fuel (by omega)
      rw [encode, encodeEntries_eq, ← List.length_map fun e => (encode e.1, encode e.2)]
      exact ExtTerm.reads_map (by simpa using h.1) hes

/-- Forms one after the other are read back one by one. -/
theorem reads_all : ∀ (ts : List ExtForm), AllFit ts → ∀ fuel, (encodeAll ts).length ≤ fuel →
    List.Forall₂ (Reads (readFuel fuel)) (ts.map encode) (terms ts)
  | [], _, _, _ => .nil
  | t :: ts, h, fuel, hfuel => by
      rw [AllFit] at h
      simp only [encodeAll, List.length_append] at hfuel
      have ht := reads_encode t h.1 fuel (by omega)
      have hts := reads_all ts h.2 fuel (by omega)
      exact .cons ht hts

/-- Entries one after the other are read back one by one, equal keys included. -/
theorem reads_entries : ∀ (es : List (ExtForm × ExtForm)), EntriesFit es → ∀ fuel,
    (encodeEntries es).length ≤ fuel →
    List.Forall₂ (fun e t => Reads (readFuel fuel) e.1 t.1 ∧ Reads (readFuel fuel) e.2 t.2)
      (es.map fun e => (encode e.1, encode e.2)) (termEntries es)
  | [], _, _, _ => .nil
  | (k, v) :: es, h, fuel, hfuel => by
      rw [EntriesFit] at h
      simp only [encodeEntries, List.length_append] at hfuel
      have hk := reads_encode k h.1 fuel (by omega)
      have hv := reads_encode v h.2.1 fuel (by omega)
      have hes := reads_entries es h.2.2 fuel (by omega)
      exact .cons ⟨hk, hv⟩ hes

end

/-- A whole form with its marker is read back. -/
theorem reads_marked {t : ExtForm} (h : t.Fits) : Reads ExtTerm.readMarked (ExtTerm.marker :: t.encode) t.term := by
  intro rest
  have hne : t.encode ++ rest ≠ [] := by
    intro hnil
    have hpos := length_encode_pos t
    simp_all
  rw [List.cons_append, ExtTerm.readMarked_cons hne]
  exact reads_encode t h _ (by simp) rest

/-- A tree of external terms is read back from its bytes, which are consumed exactly, with the marker in front of
them and without it. -/
theorem readMarked_encode_append (t : ExtForm) (h : t.Fits) (rest : Bytes) :
    ExtTerm.read (t.encode ++ rest) = .ok t.term rest ∧
    ExtTerm.readMarked (ExtTerm.marker :: (t.encode ++ rest)) = .ok t.term rest := by
  have hread : ExtTerm.read (t.encode ++ rest) = .ok t.term rest :=
    reads_encode t h _ (by simp) rest
  have hne : t.encode ++ rest ≠ [] := by
    intro hnil
    have hpos := length_encode_pos t
    simp_all
  exact ⟨hread, by rw [ExtTerm.readMarked_cons hne, hread]⟩

/-- A map with a key twice, a list and a remote function whose names are written in two ways. -/
theorem readMarked_encode_nested :
    let t := map [(atom .latin [97], list [smallBig 1 [0, 1], remoteFun .smallLatin [109] .smallUtf8 [102] 2]),
      (atom .latin [97], smallTuple [integer 4294967295, nil])]
    t.Fits ∧ ExtTerm.readMarked (131 :: (t.encode ++ [7])) = .ok t.term [7] := by
  intro t
  have hfits : t.Fits := by simp [t, Fits, AllFit, EntriesFit, AtomForm.width]
  exact ⟨hfits, (readMarked_encode_append t hfits [7]).2⟩

end ExtForm

end BeamDisasm

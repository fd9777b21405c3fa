import BeamDisasm.Proofs.ExtTermRoundTrip
import BeamDisasm.Proofs.TermRoundTrip
import BeamDisasm.Table.Atom
import BeamDisasm.Table.Encode
import BeamDisasm.Table.Literal

/-!
# Tables are read as they were written

A table is a count and entries one after the other, so it is read back when its count fits and each entry is read
back from its bytes. Atoms have two forms and literals are stored or compressed; both forms of a table are read as the
same table.
-/
namespace BeamDisasm

open Reader (Reads reads_exactly reads_lift reads_number reads_pure reads_upTo)

variable {α : Type}

theorem Reader.Reads.run {r : Reader α} {b : Bytes} {a : α} (h : Reads r b a) : r.run b = .ok a := by
  have hread := h []
  rw [List.append_nil] at hread
  rw [Reader.run, hread]

/-- A position from zero on has what the list has there. -/
theorem signedGet_natCast_eq_ok_iff {xs : List α} {n : Nat} {a : α} :
    signedGet xs (n : Int) = .ok a ↔ xs[n]? = some a := by
  have hget : signedGet? xs (n : Int) = xs[n]? := by
    rw [signedGet?, if_pos n.cast_nonneg, Int.toNat_natCast]
  rw [signedGet, hget]
  cases xs[n]? <;> simp

/-! ## Entries of words -/

/-- A count and as many entries, each read from its bytes. -/
theorem reads_countedEntries {entry : Reader α} {bs : List Bytes} {as : List α}
    (h : List.Forall₂ (Reads entry) bs as) (hcount : bs.length < 256 ^ 4) :
    Reads (countedEntries entry) (Bytes.ofNat 4 bs.length ++ bs.flatten) as :=
  (reads_number hcount).bind (Reads.times h)

theorem length_encodeWords (ns : List Nat) : (encodeWords ns).length = 4 * ns.length := by
  induction ns with
  | nil => rfl
  | cons n ns ih =>
      rw [encodeWords, List.flatMap_cons, List.length_append, Bytes.length_ofNat, ← encodeWords, ih, List.length_cons]
      omega

/-- Numbers that fit their fields are read back together. -/
theorem reads_words {ns : List Nat} (h : ∀ n ∈ ns, n < 256 ^ 4) :
    Reads (words ns.length) (encodeWords ns) (ns.map Int.ofNat) := by
  have hwords : List.Forall₂ (Reads word) (ns.map (Bytes.ofNat 4)) (ns.map Int.ofNat) := by
    rw [List.forall₂_map_left_iff, List.forall₂_map_right_iff, List.forall₂_same]
    exact fun n hn => (reads_number (h n hn)).map Int.ofNat
  have hrun : (Reader.times ns.length word).run (encodeWords ns) = .ok (ns.map Int.ofNat) := by
    have htimes := (Reads.times hwords).run
    rwa [List.length_map, ← List.flatMap_def] at htimes
  refine (reads_exactly (length_encodeWords ns)).bind_nil ?_
  rw [hrun]
  exact reads_lift _

theorem ImportEntry.reads_row {module function arity : Nat} (h : ∀ n ∈ [module, function, arity], n < 256 ^ 4) :
    Reads read (encodeWords [module, function, arity]) ⟨module, function, arity⟩ :=
  (reads_words h).bind_nil (reads_pure _)

theorem ExportEntry.reads_row {name arity label : Nat} (h : ∀ n ∈ [name, arity, label], n < 256 ^ 4) :
    Reads read (encodeWords [name, arity, label]) ⟨name, arity, label⟩ :=
  (reads_words h).bind_nil (reads_pure _)

theorem FunctionEntry.reads_row {name arity offset index free unique : Nat}
    (h : ∀ n ∈ [name, arity, offset, index, free, unique], n < 256 ^ 4) :
    Reads read (encodeWords [name, arity, offset, index, free, unique]) ⟨name, arity, offset, index, free, unique⟩ :=
  (reads_words h).bind_nil (reads_pure _)

/-! ## Atoms -/

namespace AtomTable

variable {name : Bytes} {names : List Bytes}

theorem reads_classicName (h : name.length < 256) :
    Reads classicName (UInt8.ofNat name.length :: name) name := by
  have hlength := ExtTerm.reads_number_one (UInt8.ofNat name.length)
  rw [UInt8.toNat_ofNat', Nat.mod_eq_of_lt h] at hlength
  exact hlength.bind (reads_upTo rfl)

theorem reads_literalName (h : name.length < 2 ^ 63) :
    Reads literalName (Term.encode 0 name.length ++ name) name := by
  have hread : Reads Term.read (Term.encode 0 name.length) (.literal name.length) := by
    intro rest
    exact Term.reads_encode_literal (Term.readable_of_lt (k := 8) (by omega) (by omega)) (by simp) rest
  have hint : ¬ (0x8000000000000000 : Int) ≤ name.length := by omega
  refine hread.bind ?_
  simp only [Term.literalIndex?, if_neg hint, Int.toNat_natCast]
  exact reads_upTo rfl

/-- A count that fits a signed field is read back from it. -/
theorem toSigned_ofNat {n : Nat} (h : n < 2 ^ 31) : Bytes.toSigned (Bytes.ofNat 4 n) = n := by
  have hfield : ((n : Int) % 0x100000000).toNat = n := by omega
  have hsigned := Bytes.toSigned_ofNat_emod (z := n) (by omega) (by omega)
  rwa [hfield] at hsigned

/-- A count below zero is written as what is missing up to the end of the field. -/
theorem toSigned_negative {n : Nat} (h : n ≤ 2 ^ 31) :
    Bytes.toSigned (Bytes.ofNat 4 ((0x100000000 - n) % 0x100000000)) = -(n : Int) := by
  have hfield : (-(n : Int) % 0x100000000).toNat = (0x100000000 - n) % 0x100000000 := by omega
  have hsigned := Bytes.toSigned_ofNat_emod (z := -n) (by omega) (by omega)
  rwa [hfield] at hsigned

/-- A count in four bytes and as many names, in the form that the sign of the count announces. -/
theorem reads_names {count : Bytes} {bs : List Bytes} (hlength : count.length = 4)
    (hcount : count.toSigned.natAbs = bs.length)
    (h : List.Forall₂ (Reads (if count.toSigned < 0 then literalName else classicName)) bs names) :
    Reads read (count ++ bs.flatten) ⟨placeholder :: names⟩ := by
  have htimes := Reads.times h
  rw [← hcount] at htimes
  exact (reads_exactly hlength).bind (htimes.map fun names => AtomTable.mk (placeholder :: names))

theorem reads_encodeClassic (hcount : names.length < 2 ^ 31) (h : ∀ name ∈ names, name.length < 256) :
    Reads read (encodeClassic names) ⟨placeholder :: names⟩ := by
  have hsigned := toSigned_ofNat hcount
  refine reads_names (Bytes.length_ofNat 4 _) (by simp [hsigned]) ?_
  rw [hsigned, if_neg (by omega), List.forall₂_map_left_iff, List.forall₂_same]
  exact fun name hname => reads_classicName (h name hname)

theorem reads_encodeLiteral (hcount : names.length < 2 ^ 31) (h : ∀ name ∈ names, name.length < 2 ^ 63) :
    Reads read (encodeLiteral names) ⟨placeholder :: names⟩ := by
  by_cases hnames : names = []
  · -- a count of zero announces classic names, of which there are none
    subst hnames
    have hread : Reads read (Bytes.ofNat 4 0 ++ List.flatten []) ⟨[placeholder]⟩ :=
      reads_names (Bytes.length_ofNat 4 0) rfl .nil
    exact hread
  · have hpos := List.length_pos_iff.mpr hnames
    have hsigned := toSigned_negative (Nat.le_of_lt hcount)
    refine reads_names (Bytes.length_ofNat 4 _) (by simp [hsigned]) ?_
    rw [hsigned, if_pos (by omega), List.forall₂_map_left_iff, List.forall₂_same]
    exact fun name hname => reads_literalName (h name hname)

end AtomTable

/-! ## Literals -/

namespace LiteralTable

/-- A literal behind four bytes of any content. -/
theorem reads_entry {size : Bytes} (hsize : size.length = 4) {t : ExtForm} (h : t.Fits) :
    Reads entry (size ++ ExtTerm.marker :: t.encode) t.term :=
  (reads_upTo hsize).bind (ExtForm.reads_marked h)

/-- A table of literals, each behind four bytes that are not used. -/
def layOut (entries : List (Bytes × ExtForm)) : Bytes :=
  Bytes.ofNat 4 entries.length ++ entries.flatMap fun e => e.1 ++ ExtTerm.marker :: e.2.encode

theorem reads_layOut {entries : List (Bytes × ExtForm)} (hcount : entries.length < 256 ^ 4)
    (h : ∀ e ∈ entries, e.1.length = 4 ∧ e.2.Fits) :
    Reads readBody (layOut entries) ⟨entries.map fun e => e.2.term⟩ := by
  have hentries : List.Forall₂ (Reads entry) (entries.map fun e => e.1 ++ ExtTerm.marker :: e.2.encode)
      (entries.map fun e => e.2.term) := by
    rw [List.forall₂_map_left_iff, List.forall₂_map_right_iff, List.forall₂_same]
    exact fun e he => reads_entry (h e he).1 (h e he).2
  have hread := reads_countedEntries hentries (by simpa using hcount)
  rw [List.length_map, ← List.flatMap_def] at hread
  exact hread.map LiteralTable.mk

/-- Terms that are written as forms are give the table of the forms, each behind its length. -/
theorem encodeBody_eq {terms : List ExtTerm} {forms : List ExtForm}
    (h : terms.map ExtTerm.encode = forms.map ExtForm.encode) :
    encodeBody terms = layOut (forms.map fun f => (Bytes.ofNat 4 (f.encode.length + 1), f)) := by
  have hlength : terms.length = forms.length := by simpa using congrArg List.length h
  have hentries : (terms.flatMap fun t => ExtTerm.lengthFirst 4 t.encodeMarked) =
      (terms.map ExtTerm.encode).flatMap fun b => ExtTerm.lengthFirst 4 (ExtTerm.marker :: b) := by
    rw [List.flatMap_map]
    rfl
  rw [encodeBody, layOut, hentries, h, List.flatMap_map, List.flatMap_map, List.length_map, hlength]
  rfl

/-- The size in front of a table decides how its body is taken. -/
theorem parse_eq {size : Nat} (h : size < 256 ^ 4) (rest : Bytes) :
    parse (Bytes.ofNat 4 size ++ rest) = body size rest >>= readBody.run := by
  have hsize : (Reader.number 4).run (Bytes.ofNat 4 size ++ rest) = .ok size := by
    rw [Reader.run, reads_number h rest]
  rw [parse, hsize, List.drop_left' (Bytes.length_ofNat 4 size)]
  rfl

/-- A stored table is its body. -/
theorem parse_stored {b : Bytes} {t : LiteralTable} (h : Reads readBody b t) :
    parse (Bytes.ofNat 4 0 ++ b) = .ok t := by
  rw [parse_eq (by omega), body, if_pos rfl]
  exact h.run

/-- What a stream stands for is read like the same bytes stored, whatever they are and whatever size is declared. -/
theorem parse_packed {pack : Bytes → Bytes} (hpack : ∀ b, Compression.decompress (pack b) = .ok b) {size : Nat}
    (hsize : size < 256 ^ 4) (hne : size ≠ 0) (b : Bytes) :
    parse (Bytes.ofNat 4 size ++ pack b) = parse (Bytes.ofNat 4 0 ++ b) := by
  rw [parse_eq hsize, parse_eq (by omega), body, body, if_neg hne, if_pos rfl, hpack]

end LiteralTable

end BeamDisasm

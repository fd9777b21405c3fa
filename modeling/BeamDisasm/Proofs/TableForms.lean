import BeamDisasm.Proofs.StoredStreams
import BeamDisasm.Proofs.Tables
import Mathlib.Tactic.NormNum.Pow

/-!
# Both forms of a table are one table

The atoms of a module are written with lengths of one byte or with lengths in compact literals, and its literals are
stored or compressed. A reader is told which form it meets by a number in front: the sign of the count of the atoms, and
whether the size of the literals is zero. In either form the same table is read, and asking it for an entry gives what
was written there.
-/
namespace BeamDisasm

namespace AtomTable

variable {names : List Bytes}

/-- Behind the placeholder the names are numbered from one. -/
theorem get_of_names {i : Nat} {name : Bytes} (h : names[i]? = some name) :
    get ⟨placeholder :: names⟩ (.number ((i + 1 : Nat) : Int)) = .ok name := by
  change signedGet (placeholder :: names) ((i + 1 : Nat) : Int) = .ok name
  rw [signedGet_natCast_eq_ok_iff, List.getElem?_cons_succ, h]

/-- Names shorter than 256 bytes are read from both forms, whatever follows, as one table: the placeholder and the names
in order, so that the names are numbered from one. -/
theorem read_both_forms (hcount : names.length < 2 ^ 31) (hnames : ∀ name ∈ names, name.length < 256) :
    ∃ t : AtomTable, (∀ rest, read (encodeClassic names ++ rest) = .ok t rest) ∧
      (∀ rest, read (encodeLiteral names ++ rest) = .ok t rest) ∧
      t.names = Bytes.ofAscii "module" :: names ∧
      ∀ i : Nat, 1 ≤ i → i ≤ names.length → ∃ name, names[i - 1]? = some name ∧ t.get (.number i) = .ok name := by
  have hlengths : ∀ name ∈ names, name.length < 2 ^ 63 := by
    intro name hname
    have hlt := hnames name hname
    omega
  refine ⟨⟨placeholder :: names⟩, reads_encodeClassic hcount hnames, reads_encodeLiteral hcount hlengths, rfl, ?_⟩
  intro i hpos hle
  obtain ⟨i, rfl⟩ : ∃ k, i = k + 1 := ⟨i - 1, by omega⟩
  have hname : names[i]? = some names[i] := List.getElem?_eq_getElem hle
  exact ⟨names[i], hname, get_of_names hname⟩

/-- An empty name, and one whose length does not fit the four bits of the shortest literal. -/
theorem read_both_forms_two :
    ∃ t : AtomTable, read (encodeClassic [[], List.replicate 16 97] ++ [1]) = .ok t [1] ∧
      read (encodeLiteral [[], List.replicate 16 97] ++ [1]) = .ok t [1] ∧
      t.get (.number 2) = .ok (List.replicate 16 97) := by
  have hcount : ([[], List.replicate 16 97] : List Bytes).length < 2 ^ 31 := by simp
  obtain ⟨t, hclassic, hliteral, -, hget⟩ := read_both_forms hcount (by simp)
  obtain ⟨name, hname, hsecond⟩ := hget 2 (by omega) (by simp)
  obtain rfl := Option.some.inj hname
  exact ⟨t, hclassic [1], hliteral [1], hsecond⟩

end AtomTable

namespace LiteralTable

/-- A position from zero on has a literal if the table is long enough. -/
theorem get_natCast (t : LiteralTable) (i : Nat) : t.get i = .ok t.terms[i]? := by
  rw [get, literalAt]
  by_cases hlt : i < t.terms.length
  · have hterm : t.terms[i]? = some t.terms[i] := List.getElem?_eq_getElem hlt
    rw [if_pos (by omega), signedGet_natCast_eq_ok_iff.mpr hterm, hterm]
    rfl
  · rw [if_neg (by omega), List.getElem?_eq_none (by omega)]

/-- Literals are read from the stored table and from the compressed one as the same table, whatever stands in the fields
for their sizes. The table has the literals in order and none behind them. -/
theorem parse_both_forms {pack : Bytes → Bytes} (hpack : ∀ b, Compression.decompress (pack b) = .ok b)
    {entries : List (Bytes × ExtForm)} (hcount : entries.length < 256 ^ 4)
    (hentries : ∀ e ∈ entries, e.1.length = 4 ∧ e.2.Fits) {size : Nat} (hsize : size < 256 ^ 4) (hne : size ≠ 0) :
    ∃ t, parse (Bytes.ofNat 4 0 ++ layOut entries) = .ok t ∧
      parse (Bytes.ofNat 4 size ++ pack (layOut entries)) = .ok t ∧
      (∀ (i : Nat) e, entries[i]? = some e → t.get i = .ok (some e.2.term)) ∧
      ∀ i : Int, entries.length ≤ i → t.get i = .ok none := by
  have hstored := parse_stored (reads_layOut hcount hentries)
  refine ⟨_, hstored, ?_, ?_, ?_⟩
  · rw [parse_packed hpack hsize hne, hstored]
  · intro i e he
    rw [get_natCast, List.getElem?_map, he]
    rfl
  · intro i hi
    obtain ⟨i, rfl⟩ := Int.eq_ofNat_of_zero_le (le_trans (Int.natCast_nonneg _) hi)
    rw [get_natCast, List.getElem?_eq_none (by simpa using hi)]

/-- A tuple and a list behind fields that do not tell their sizes, in a stream behind a size that is not its own. -/
theorem parse_both_forms_wrong_sizes :
    let entries : List (Bytes × ExtForm) :=
      [([9, 9, 9, 9], .smallTuple [.atom .latin [97], .integer 4294967295]),
        ([0, 0, 0, 0], .list [.smallBig 1 [5], .nil])]
    ∃ t, parse (Bytes.ofNat 4 0 ++ layOut entries) = .ok t ∧
      parse (Bytes.ofNat 4 5 ++ Compression.compress (layOut entries)) = .ok t ∧
      t.get 1 = .ok (some (.list [.smallBig 1 [5], .nil])) ∧ t.get 2 = .ok none := by
  intro entries
  have hentries : ∀ e ∈ entries, e.1.length = 4 ∧ e.2.Fits := by
    simp [entries, ExtForm.Fits, ExtForm.AllFit, AtomForm.width]
  have hcount : entries.length < 256 ^ 4 := by simp [entries]
  have hsize : 5 < 256 ^ 4 := by norm_num
  obtain ⟨t, hstored, hcompressed, hget, hnone⟩ :=
    parse_both_forms Compression.decompress_compress hcount hentries hsize (by omega)
  exact ⟨t, hstored, hcompressed, hget 1 _ rfl, hnone 2 (le_refl _)⟩

end LiteralTable

end BeamDisasm

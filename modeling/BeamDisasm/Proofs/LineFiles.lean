import BeamDisasm.Proofs.LinePlaces
import BeamDisasm.Proofs.Tables
import Mathlib.Tactic.NormNum.Pow

/-!
# Which files a line table can refer to

A reference is written as an atom for its file and an integer for its line. When it is read the number of the atom is
lowered by one and has to stay below the count of the files, and the names have a placeholder in front. So the numbers
of the atoms from two on refer to the files from the first on, and the last file is left over: the atom that would refer
to it is refused.

The main statement says this of every list of names: a file can be referred to exactly if its name stands in front of
the last one, which for the last name itself means that it is there twice.
-/
namespace BeamDisasm

open Reader

/-! ## Numbers that can be read -/

namespace Term

/-- A number that is read back from its bytes has few enough of them to be asked for at once. -/
theorem readable_of_readFuel {tag v fuel : Nat} (htag : tag < 7) (hfuel : (encode tag v).length ≤ fuel) {rest s : Bytes}
    {t : Term} (h : readFuel fuel (encode tag v ++ rest) = .ok t s) : Readable v := by
  -- The induction is on the number: a long one is announced by its length, which is a number again.
  induction v using Nat.strongRecOn generalizing tag fuel rest s t with
  | _ v ih =>
    by_cases hsmall : v < 2048
    · exact readable_of_lt (k := 2) (by omega) (by omega)
    by_cases hshort : (Bytes.shortest v).length ≤ 8
    · exact lt_of_le_of_lt hshort (by omega)
    have hle := Bytes.length_shortest_le v
    obtain ⟨hplain, -, hbit, hbit', hcount⟩ := lead_bytes tag htag 7 (by omega)
    rw [encode_long (by omega) hshort] at h hfuel
    simp only [List.length_cons, List.length_append] at hfuel
    obtain ⟨fuel, rfl⟩ : ∃ k, fuel = k + 1 := ⟨fuel - 1, by omega⟩
    rw [List.cons_append, List.append_assoc] at h
    obtain ⟨b, u, hb, h⟩ := exists_of_bind_eq_ok h
    obtain ⟨rfl, rfl⟩ := Outcome.ok.inj hb
    rw [if_neg hplain] at h
    obtain ⟨value, u, hvalue, -⟩ := exists_of_bind_eq_ok h
    rw [basicValue, if_neg hbit, if_neg hbit', hcount, if_pos (by decide)] at hvalue
    obtain ⟨size, u, hsize, hvalue⟩ := exists_of_bind_eq_ok hvalue
    have hlength : Readable ((Bytes.shortest v).length - 9) := ih _ (by omega) (by omega) (by omega) hsize
    rw [reads_encode_literal hlength (by omega)] at hsize
    obtain ⟨rfl, rfl⟩ := Outcome.ok.inj hsize
    obtain ⟨index, u, hindex, hvalue⟩ := exists_of_bind_eq_ok hvalue
    obtain ⟨rfl, rfl⟩ := Outcome.ok.inj hindex
    obtain ⟨n, u, hn, hvalue⟩ := exists_of_bind_eq_ok hvalue
    obtain ⟨rfl, rfl⟩ := Outcome.ok.inj hn
    rw [payload] at hvalue
    split_ifs at hvalue with htoo
    · cases hvalue
    · unfold Readable
      omega

/-- A written basic term is read back if its number can be read, and no term is read otherwise. -/
theorem read_encode_eq_ok_iff {tag v : Nat} (htag : tag < 7) {rest s : Bytes} {t : Term} :
    read (encode tag v ++ rest) = .ok t s ↔ Readable v ∧ t = TermForm.basicTerm tag v ∧ s = rest := by
  have hfuel : (encode tag v).length ≤ (encode tag v ++ rest).length := by simp
  constructor
  · intro h
    have hv := readable_of_readFuel htag hfuel h
    rw [read, reads_encode_basic htag hv hfuel rest] at h
    obtain ⟨rfl, rfl⟩ := Outcome.ok.inj h
    exact ⟨hv, rfl, rfl⟩
  · rintro ⟨hv, rfl, rfl⟩
    exact reads_encode_basic htag hv hfuel s

end Term

namespace LineTable

/-! ## References -/

/-- A reference as it is written: an atom for the file, and the line. -/
def encodeRef (r : Nat × Nat) : Bytes :=
  (TermForm.atom r.1).encode ++ (TermForm.integer r.2).encode

/-- Both numbers of a reference can be read, and the atom is one of as many as there are files. -/
structure Accepted (files : Nat) (r : Nat × Nat) : Prop where
  atom_readable : Term.Readable r.1
  line_readable : Term.Readable r.2
  atom_pos : 1 ≤ r.1
  atom_le : r.1 ≤ files

/-- A reference as it is kept: the number of the file is one less than that of the atom. -/
def keptRef (r : Nat × Nat) : LineRef :=
  ⟨(r.1 : Int) - 1, r.2⟩

section Step

variable {files fuel count : Nat} {file : Int} {refs : List LineRef} {s t u : Bytes}

/-- An atom changes the current file, if it passes the check. -/
theorem readRefs_atom_eq_ok_iff {k : Nat} (h : Term.read s = .ok (.atom k) u) :
    readRefs files (fuel + 1) (count + 1) file s = .ok refs t ↔
      1 ≤ k ∧ k ≤ files ∧ readRefs files fuel (count + 1) ((k : Int) - 1) u = .ok refs t := by
  rw [readRefs, bind_apply, h]
  dsimp only
  by_cases hzero : k = 0
  · subst hzero
    simp [Reader.fail]
  rw [if_neg (by omega)]
  by_cases hlt : (k : Int) - 1 < files
  · rw [if_pos hlt]
    constructor
    · intro hrefs
      exact ⟨by omega, by omega, hrefs⟩
    · rintro ⟨-, -, hrefs⟩
      exact hrefs
  · rw [if_neg hlt]
    constructor
    · intro hrefs
      cases hrefs
    · rintro ⟨-, hle, -⟩
      omega

/-- An integer is the line of one more reference, to the current file. -/
theorem readRefs_integer_eq_ok_iff {line : Int} (h : Term.read s = .ok (.integer line) u) :
    readRefs files (fuel + 1) (count + 1) file s = .ok refs t ↔
      ∃ more, readRefs files fuel count file u = .ok more t ∧ refs = ⟨file, line⟩ :: more := by
  rw [readRefs, bind_apply, h]
  dsimp only
  rw [bind_eq_ok_iff]
  constructor
  · rintro ⟨more, v, hmore, hrefs⟩
    obtain ⟨rfl, rfl⟩ := Outcome.ok.inj hrefs
    exact ⟨more, hmore, rfl⟩
  · rintro ⟨more, hmore, rfl⟩
    exact ⟨more, t, hmore, rfl⟩

/-- One more reference is an atom that passes the check and a line, and the next ones start with its file. -/
theorem readRefs_encodeRef_eq_ok_iff {r : Nat × Nat} {rest : Bytes} :
    readRefs files (fuel + 2) (count + 1) file (encodeRef r ++ rest) = .ok refs t ↔
      Accepted files r ∧
        ∃ more, readRefs files fuel count (keptRef r).file rest = .ok more t ∧ refs = keptRef r :: more := by
  have hatom : ∀ a u, Term.read (encodeRef r ++ rest) = .ok a u ↔
      Term.Readable r.1 ∧ a = .atom r.1 ∧ u = (TermForm.integer r.2).encode ++ rest := by
    intro a u
    rw [encodeRef, List.append_assoc]
    exact Term.read_encode_eq_ok_iff (by omega)
  have hline : ∀ a u, Term.read ((TermForm.integer r.2).encode ++ rest) = .ok a u ↔
      Term.Readable r.2 ∧ a = .integer r.2 ∧ u = rest := fun a u => Term.read_encode_eq_ok_iff (by omega)
  constructor
  · intro h
    obtain ⟨a, u, hread, -⟩ := exists_of_bind_eq_ok h
    obtain ⟨hreadable, rfl, rfl⟩ := (hatom a u).mp hread
    obtain ⟨hpos, hle, h⟩ := (readRefs_atom_eq_ok_iff hread).mp h
    obtain ⟨a, u, hread, -⟩ := exists_of_bind_eq_ok h
    obtain ⟨hreadable', rfl, rfl⟩ := (hline a u).mp hread
    exact ⟨⟨hreadable, hreadable', hpos, hle⟩, (readRefs_integer_eq_ok_iff hread).mp h⟩
  · rintro ⟨haccepted, hmore⟩
    have hread := (hatom _ _).mpr ⟨haccepted.atom_readable, rfl, rfl⟩
    have hread' := (hline _ _).mpr ⟨haccepted.line_readable, rfl, rfl⟩
    rw [readRefs_atom_eq_ok_iff hread]
    exact ⟨haccepted.atom_pos, haccepted.atom_le, (readRefs_integer_eq_ok_iff hread').mpr hmore⟩

end Step

theorem length_encodeRefs_le (refs : List (Nat × Nat)) : 2 * refs.length ≤ (refs.flatMap encodeRef).length := by
  induction refs with
  | nil => simp
  | cons r refs ih =>
      have hatom := TermForm.length_encode_pos (.atom r.1)
      have hline := TermForm.length_encode_pos (.integer r.2)
      simp only [List.flatMap_cons, List.length_append, List.length_cons, encodeRef]
      omega

/-- References one after the other are kept one by one, if every one of them is accepted. -/
theorem readRefs_encodeRefs_eq_ok_iff {files fuel : Nat} {file : Int} {written : List (Nat × Nat)}
    (hfuel : 2 * written.length ≤ fuel) {rest s : Bytes} {refs : List LineRef} :
    readRefs files fuel written.length file (written.flatMap encodeRef ++ rest) = .ok refs s ↔
      (∀ r ∈ written, Accepted files r) ∧ refs = written.map keptRef ∧ s = rest := by
  induction written generalizing fuel file refs with
  | nil =>
      have hnone : readRefs files fuel 0 file rest = .ok [] rest := by cases fuel <;> rfl
      simp [hnone, eq_comm]
  | cons r written ih =>
      rw [List.length_cons] at hfuel
      obtain ⟨fuel, rfl⟩ : ∃ k, fuel = k + 2 := ⟨fuel - 2, by omega⟩
      rw [List.flatMap_cons, List.append_assoc, List.length_cons, readRefs_encodeRef_eq_ok_iff, List.forall_mem_cons]
      simp only [ih (show 2 * written.length ≤ fuel by omega)]
      constructor
      · rintro ⟨hr, more, ⟨hall, rfl, rfl⟩, rfl⟩
        exact ⟨⟨hr, hall⟩, rfl, rfl⟩
      · rintro ⟨⟨hr, hall⟩, rfl, rfl⟩
        exact ⟨hr, _, ⟨hall, rfl, rfl⟩, rfl⟩

/-! ## Tables -/

/-- A table of references and files as it is written. -/
def encodeRefs (written : List (Nat × Nat)) (files : List Bytes) : Bytes :=
  encode written.length (written.flatMap encodeRef) files

/-- The table that references and files are kept in, each behind its placeholder. -/
def kept (written : List (Nat × Nat)) (files : List Bytes) : LineTable :=
  ⟨⟨0, 0⟩ :: written.map keptRef, .text "invalid location" :: files.map .raw⟩

theorem reads_readHeader {refs files : Nat} (hrefs : refs < 256 ^ 4) (hfiles : files < 256 ^ 4) :
    Reads readHeader (encodeWords [0, 0, 0, refs, files]) (refs, files) := by
  have hheader := (reads_exactly (length_encodeWords [0, 0, 0, refs, files])).map fun b =>
    (Bytes.toNat ((b.drop 12).take 4), Bytes.toNat (b.drop 16))
  have hfourth : ((encodeWords [0, 0, 0, refs, files]).drop 12).take 4 = Bytes.ofNat 4 refs := rfl
  have hfifth : (encodeWords [0, 0, 0, refs, files]).drop 16 = Bytes.ofNat 4 files := rfl
  rwa [hfourth, hfifth, Bytes.toNat_ofNat hrefs, Bytes.toNat_ofNat hfiles] at hheader

theorem reads_fileNames {files : List Bytes} (h : ∀ name ∈ files, name.length < 65536) :
    Reads (times files.length fileName) (files.flatMap (ExtTerm.lengthFirst 2)) (files.map .raw) := by
  have hnames : List.Forall₂ (Reads fileName) (files.map (ExtTerm.lengthFirst 2)) (files.map .raw) := by
    rw [List.forall₂_map_left_iff, List.forall₂_map_right_iff, List.forall₂_same]
    exact fun name hname => (reads_number (h name hname)).bind ((reads_upTo rfl).map Scalar.raw)
  have htimes := Reads.times hnames
  rwa [List.length_map, ← List.flatMap_def] at htimes

/-- A written table is read if all its references are accepted. -/
theorem run_encodeRefs_eq_ok_iff (written : List (Nat × Nat)) {files : List Bytes} (hrefs : written.length < 256 ^ 4)
    (hfiles : files.length < 256 ^ 4) (hnames : ∀ name ∈ files, name.length < 65536) {t : LineTable} :
    read.run (encodeRefs written files) = .ok t ↔
      (∀ r ∈ written, Accepted files.length r) ∧ t = kept written files := by
  have hread : read (encodeRefs written files) = (do
      let refs ← fun s => readRefs files.length s.length written.length 0 s
      let names ← times files.length fileName
      return { refs := ⟨0, 0⟩ :: refs, files := .text "invalid location" :: names } : Reader LineTable)
      (written.flatMap encodeRef ++ files.flatMap (ExtTerm.lengthFirst 2)) := by
    rw [encodeRefs, encode, List.append_assoc]
    exact (reads_readHeader hrefs hfiles).bind_append _ _
  have hfuel : 2 * written.length ≤ (written.flatMap encodeRef ++ files.flatMap (ExtTerm.lengthFirst 2)).length := by
    have hlength := length_encodeRefs_le written
    rw [List.length_append]
    omega
  have hfileNames := reads_fileNames hnames []
  rw [List.append_nil] at hfileNames
  rw [run_eq_ok_iff, hread]
  constructor
  · rintro ⟨rest, h⟩
    obtain ⟨refs, u, hkept, h⟩ := exists_of_bind_eq_ok h
    obtain ⟨haccepted, rfl, rfl⟩ := (readRefs_encodeRefs_eq_ok_iff hfuel).mp hkept
    rw [bind_apply, hfileNames] at h
    obtain ⟨rfl, -⟩ := Outcome.ok.inj h
    exact ⟨haccepted, rfl⟩
  · rintro ⟨haccepted, rfl⟩
    refine ⟨[], bind_eq_ok_iff.mpr ⟨_, _, (readRefs_encodeRefs_eq_ok_iff hfuel).mpr ⟨haccepted, rfl, rfl⟩, ?_⟩⟩
    rw [bind_apply, hfileNames]
    rfl

/-- The file of a reference is given if the atom is not the first one, and its name is that at the place two below the
atom. -/
theorem resolve_keptRef_eq_ok_iff {written : List (Nat × Nat)} {files : List Bytes} {k line : Nat} (hpos : 1 ≤ k)
    {name : Bytes} :
    (kept written files).resolve (keptRef (k, line)) = .ok (some (.raw name), (line : Int)) ↔
      2 ≤ k ∧ files[k - 2]? = some name := by
  rw [resolve]
  by_cases hfirst : k = 1
  · subst hfirst
    simp [keptRef]
  · obtain ⟨i, rfl⟩ : ∃ i, k = i + 2 := ⟨k - 2, by omega⟩
    have hfile : (keptRef (i + 2, line)).file = ((i + 1 : Nat) : Int) := by
      simp only [keptRef]
      omega
    have hplace : (kept written files).files[i + 1]? = files[i]?.map Scalar.raw := by
      simp [kept]
    rw [hfile, if_neg (by omega)]
    constructor
    · intro h
      obtain ⟨found, hfound, h⟩ := exists_of_bind h
      rw [signedGet_natCast_eq_ok_iff, hplace] at hfound
      obtain ⟨b, hb, rfl⟩ := Option.map_eq_some_iff.mp hfound
      obtain ⟨hraw, -⟩ := Prod.mk.inj (Except.ok.inj h)
      obtain rfl := Scalar.raw.inj (Option.some.inj hraw)
      exact ⟨by omega, hb⟩
    · rintro ⟨-, hi⟩
      have hfound : signedGet (kept written files).files ((i + 1 : Nat) : Int) = .ok (.raw name) := by
        rw [signedGet_natCast_eq_ok_iff, hplace]
        exact congrArg (Option.map Scalar.raw) hi
      rw [hfound]
      rfl

/-- Behind the reference to no line comes the first one that was written. -/
theorem get_kept_one (r : Nat × Nat) (files : List Bytes) :
    (kept [r] files).get (.number 1) = (kept [r] files).resolve (keptRef r) := rfl

section Files

variable {files : List Bytes} (hfiles : files.length < 256 ^ 4) (hnames : ∀ name ∈ files, name.length < 65536)

include hfiles hnames

/-- An atom and a line refer to a file by its name. -/
theorem exists_table_for_atom_iff {k line : Nat} {name : Bytes} :
    (∃ t, read.run (encodeRefs [(k, line)] files) = .ok t ∧
      t.get (.number 1) = .ok (some (.raw name), (line : Int))) ↔
    Term.Readable line ∧ 2 ≤ k ∧ k ≤ files.length ∧ files[k - 2]? = some name := by
  simp only [run_encodeRefs_eq_ok_iff [(k, line)] (by simp) hfiles hnames, List.forall_mem_singleton]
  constructor
  · rintro ⟨t, ⟨haccepted, rfl⟩, hget⟩
    rw [get_kept_one] at hget
    obtain ⟨hk, hname⟩ := (resolve_keptRef_eq_ok_iff haccepted.atom_pos).mp hget
    exact ⟨haccepted.line_readable, hk, haccepted.atom_le, hname⟩
  · rintro ⟨hline, hk, hle, hname⟩
    have hatom : Term.Readable k := Term.readable_of_lt (lt_of_le_of_lt hle hfiles) (by norm_num)
    have hpos : 1 ≤ k := le_trans one_le_two hk
    refine ⟨kept [(k, line)] files, ⟨⟨hatom, hline, hpos, hle⟩, rfl⟩, ?_⟩
    rw [get_kept_one]
    exact (resolve_keptRef_eq_ok_iff hpos).mpr ⟨hk, hname⟩

/-- A name can be referred to exactly if it stands in front of the last one. -/
theorem exists_atom_for_name_iff {line : Nat} {name : Bytes} :
    (∃ k t, read.run (encodeRefs [(k, line)] files) = .ok t ∧
      t.get (.number 1) = .ok (some (.raw name), (line : Int))) ↔
    Term.Readable line ∧ name ∈ files.dropLast := by
  simp only [exists_table_for_atom_iff hfiles hnames, List.mem_iff_getElem?, List.getElem?_dropLast]
  constructor
  · rintro ⟨k, hline, hk, hle, hname⟩
    exact ⟨hline, k - 2, by rw [if_pos (by omega), hname]⟩
  · rintro ⟨hline, i, hi⟩
    split_ifs at hi with hlt
    exact ⟨i + 2, hline, by omega, by omega, hi⟩

/-- There is an atom for every file but the last one, and for the last one only if an earlier file has the same name.
The number of the line has to be readable. -/
theorem exists_atom_for_file_iff {j : Nat} (hj : 1 ≤ j) {name : Bytes} (hname : files[j - 1]? = some name)
    (line : Nat) :
    (∃ k t, read.run (encodeRefs [(k, line)] files) = .ok t ∧
      t.get (.number 1) = .ok (some (.raw name), (line : Int))) ↔
    Term.Readable line ∧ (j < files.length ∨ name ∈ files.dropLast) := by
  have hearlier : j < files.length → name ∈ files.dropLast := by
    intro hlt
    rw [List.mem_iff_getElem?]
    refine ⟨j - 1, ?_⟩
    rw [List.getElem?_dropLast, if_pos (by omega), hname]
  rw [exists_atom_for_name_iff hfiles hnames, or_iff_right_of_imp hearlier]

end Files

/-- Of two files the first one has an atom, with a line of three bytes. -/
theorem exists_atom_for_file_first_of_two :
    ([[97], [98, 99]] : List Bytes)[1 - 1]? = some [97] ∧ Term.Readable 70000 ∧
      ∃ k t, read.run (encodeRefs [(k, 70000)] [[97], [98, 99]]) = .ok t ∧
        t.get (.number 1) = .ok (some (.raw [97]), ((70000 : Nat) : Int)) := by
  have hname : ([[97], [98, 99]] : List Bytes)[1 - 1]? = some [97] := rfl
  have hline : Term.Readable 70000 := Term.readable_of_lt (k := 3) (by norm_num) (by norm_num)
  have hiff := exists_atom_for_file_iff (by simp) (by simp) (le_refl 1) hname 70000
  exact ⟨hname, hline, hiff.mpr ⟨hline, .inl (by simp)⟩⟩

/-- The only file of a table is the last one, and there is no atom for it. -/
theorem no_atom_for_only_file :
    ¬ ∃ k t, read.run (encodeRefs [(k, 7)] [[97]]) = .ok t ∧
      t.get (.number 1) = .ok (some (.raw [97]), ((7 : Nat) : Int)) := by
  rw [exists_atom_for_name_iff (by simp) (by simp)]
  simp

end LineTable

end BeamDisasm

import BeamDisasm.Proofs.ModuleBounds
import BeamDisasm.Proofs.Renderings
import Mathlib.Data.List.Forall2

/-!
# Line tables can be asked for every reference

References are read before the names of the files, from a run of terms that changes the current file on the way. The
current file starts at zero, and an atom moves it to a number that is checked against the announced count of files. So
it stays among the files, or at zero where there are none, and the names that are read later have a place for it.

The main statement is about every table that is read: it has the announced numbers of references and of names, and
asking for any reference, or for all of them, gives a place.
-/
namespace BeamDisasm

open Reader

theorem Reader.yields_length_times {α : Type} (r : Reader α) (n : Nat) :
    Yields (times n r) fun as => as.length = n := by
  induction n with
  | zero => exact yields_pure rfl
  | succ n ih => exact .of_last fun a => ih.bind fun as has => yields_pure (by rw [List.length_cons, has])

/-- A position from zero on that a list has. -/
theorem signedGet_of_nonneg {α : Type} {xs : List α} {i : Int} {a : α} (hi : 0 ≤ i) (h : xs[i.toNat]? = some a) :
    signedGet xs i = .ok a := by
  simp [signedGet, signedGet?, hi, h]

/-- What is found at a signed position is in the list. -/
theorem mem_of_signedGet {α : Type} {xs : List α} {i : Int} {a : α} (h : signedGet xs i = .ok a) : a ∈ xs := by
  unfold signedGet at h
  split at h
  · next b hb =>
    obtain rfl := Except.ok.inj h
    unfold signedGet? at hb
    split_ifs at hb
    · exact List.mem_of_getElem? hb
    · exact List.mem_of_getElem? hb
  · cases h

namespace LineTable

/-- How many references the header announces. -/
def announcedRefs (s : Bytes) : Nat :=
  Bytes.toNat ((s.drop 12).take 4)

/-- How many names the header announces. -/
def announcedFiles (s : Bytes) : Nat :=
  Bytes.toNat ((s.drop 16).take 4)

/-- The number is that of a file, or zero where there are no files. -/
def InFiles (files : Nat) (file : Int) : Prop :=
  0 ≤ file ∧ file < max 1 files

theorem inFiles_zero (files : Nat) : InFiles files 0 := by
  refine ⟨le_refl 0, ?_⟩
  omega

/-- An atom that passes the check moves to a file. -/
theorem inFiles_of_atom {files n : Nat} (hzero : ¬ (n : Int) = 0) (hfile : (n : Int) - 1 < files) :
    InFiles files ((n : Int) - 1) := by
  refine ⟨?_, ?_⟩ <;> omega

/-- What references there are when `count` are asked for, with files that can all be found. -/
def Refers (files count : Nat) (refs : List LineRef) : Prop :=
  refs.length = count ∧ ∀ r ∈ refs, InFiles files r.file

theorem refers_nil (files : Nat) : Refers files 0 [] :=
  ⟨rfl, by simp⟩

theorem Refers.cons {files count : Nat} {refs : List LineRef} {file : Int} (h : Refers files count refs)
    (hfile : InFiles files file) (line : Int) : Refers files (count + 1) (⟨file, line⟩ :: refs) := by
  refine ⟨?_, ?_⟩
  · rw [List.length_cons, h.1]
  · intro r hr
    rcases List.mem_cons.mp hr with rfl | hr
    · exact hfile
    · exact h.2 r hr

/-- The current file is carried through the terms, and only an atom that was checked moves it. -/
theorem yields_readRefs {files : Nat} (fuel count : Nat) {file : Int} (hfile : InFiles files file) :
    Yields (readRefs files fuel count file) (Refers files count) := by
  induction fuel generalizing count file with
  | zero =>
      cases count with
      | zero => exact yields_pure (refers_nil files)
      | succ count => exact yields_fail _
  | succ fuel ih =>
      cases count with
      | zero => exact yields_pure (refers_nil files)
      | succ count =>
          have hread : Yields Term.read Term.Decoded := fun s t rest h => Term.decoded_of_read h
          refine hread.bind fun t ht => ?_
          cases ht with
          | integer line => exact (ih count hfile).bind fun refs hrefs => yields_pure (hrefs.cons hfile line)
          | atom n =>
              dsimp only
              split_ifs with hzero hlt
              · exact yields_fail _
              · exact ih (count + 1) (inFiles_of_atom hzero hlt)
              · exact yields_fail _
          | _ => exact ih (count + 1) hfile

theorem yields_fileName : Yields fileName fun name => ∃ b, name = .raw b :=
  .of_last fun _ => .of_last fun b => yields_pure ⟨b, rfl⟩

/-- A table with as many references and names as were announced, in which the file of every reference is found. The
first reference and the first name are not from the data, and all other names are bytes. -/
structure Sound (t : LineTable) (refs files : Nat) : Prop where
  length_refs : t.refs.length = refs + 1
  first_ref : t.refs[0]? = some ⟨0, 0⟩
  length_files : t.files.length = files + 1
  inFiles : ∀ r ∈ t.refs, InFiles files r.file
  raw_names : ∀ name ∈ t.files.tail, ∃ b, name = .raw b

theorem sound_of_read {s rest : Bytes} {t : LineTable} (h : read s = .ok t rest) :
    t.Sound (announcedRefs s) (announcedFiles s) := by
  obtain ⟨counts, u, hheader, h⟩ := exists_of_bind_eq_ok h
  obtain ⟨rfl, -⟩ := readHeader_eq_ok hheader
  obtain ⟨refs, v, hrefs, h⟩ := exists_of_bind_eq_ok h
  obtain ⟨names, w, hnames, h⟩ := exists_of_bind_eq_ok h
  simp only [pure_apply, Outcome.ok.injEq] at h
  obtain ⟨rfl, -⟩ := h
  have hrefers : Refers (announcedFiles s) (announcedRefs s) refs :=
    yields_readRefs u.length _ (inFiles_zero _) u refs v hrefs
  have hlength : names.length = announcedFiles s := yields_length_times fileName _ v names w hnames
  have hall := hrefers.cons (inFiles_zero _) 0
  exact ⟨hall.1, rfl, by rw [List.length_cons, hlength], hall.2, yields_fileName.times _ v names w hnames⟩

namespace Sound

variable {t : LineTable} {refs files : Nat} {r : LineRef}

/-- The number of the file of a reference is a place among the names. -/
theorem exists_name (h : t.Sound refs files) (hr : r ∈ t.refs) :
    ∃ name, t.files[r.file.toNat]? = some name ∧ signedGet t.files r.file = .ok name := by
  obtain ⟨hnonneg, hlt⟩ := h.inFiles r hr
  have hplace : r.file.toNat < t.files.length := by
    rw [h.length_files]
    omega
  have hname := List.getElem?_eq_getElem hplace
  exact ⟨_, hname, signedGet_of_nonneg hnonneg hname⟩

theorem resolve (h : t.Sound refs files) (hr : r ∈ t.refs) :
    ∃ name, t.files[r.file.toNat]? = some name ∧
      t.resolve r = .ok (if r.file = 0 then none else some name, r.line) := by
  obtain ⟨name, hname, hget⟩ := h.exists_name hr
  refine ⟨name, hname, ?_⟩
  rw [LineTable.resolve]
  split_ifs with hzero
  · rfl
  · rw [hget]
    rfl

/-- Every reference has a place. -/
theorem get (h : t.Sound refs files) {i : Nat} (hi : i ≤ refs) :
    ∃ r name, t.refs[i]? = some r ∧ t.files[r.file.toNat]? = some name ∧
      t.get (.number i) = .ok (if r.file = 0 then none else some name, r.line) := by
  have hplace : i < t.refs.length := by
    rw [h.length_refs]
    omega
  have href := List.getElem?_eq_getElem hplace
  obtain ⟨name, hname, hresolve⟩ := h.resolve (List.getElem_mem hplace)
  refine ⟨_, name, href, hname, ?_⟩
  have hget : signedGet t.refs (i : Int) = .ok (t.refs[i]) := signedGet_of_nonneg i.cast_nonneg href
  change (do t.resolve (← signedGet t.refs (i : Int))) = _
  rw [hget]
  exact hresolve

/-- A file that is given at a reference is one of those that were read. -/
theorem raw_of_get (h : t.Sound refs files) {i : Index} {name : Scalar} {line : Int}
    (hget : t.get i = .ok (some name, line)) : ∃ b, name = .raw b := by
  obtain ⟨n, -, hget⟩ := exists_of_bind hget
  obtain ⟨r, hr, hget⟩ := exists_of_bind hget
  have hmem := mem_of_signedGet hr
  obtain ⟨found, hfound, hresolve⟩ := h.resolve hmem
  obtain ⟨hnonneg, -⟩ := h.inFiles r hmem
  rw [hresolve] at hget
  split_ifs at hget with hzero
  · simp at hget
  · obtain ⟨hname, -⟩ := Prod.mk.inj (Except.ok.inj hget)
    obtain rfl := Option.some.inj hname
    -- The placeholder stands in front, and the number of the file is not zero.
    obtain ⟨k, hk⟩ : ∃ k, r.file.toNat = k + 1 := ⟨r.file.toNat - 1, by omega⟩
    rw [hk, ← List.getElem?_tail] at hfound
    exact h.raw_names found (List.mem_of_getElem? hfound)

/-- All references together have their places, each with the name of its file. -/
theorem all (h : t.Sound refs files) :
    ∃ places, t.all = .ok places ∧
      List.Forall₂ (fun r place => t.files[r.file.toNat]? = some place.1 ∧ place.2 = r.line) t.refs places := by
  have hsteps : ∀ r ∈ t.refs, ∃ place : Scalar × Int,
      (do return (← signedGet t.files r.file, r.line) : Except Fault (Scalar × Int)) = .ok place := by
    intro r hr
    obtain ⟨name, -, hget⟩ := h.exists_name hr
    exact exists_wrap_ok_iff.mpr ⟨name, hget⟩
  obtain ⟨places, hplaces⟩ := exists_mapM_ok_iff.mpr hsteps
  refine ⟨places, hplaces, ?_⟩
  have hown := (List.forall₂_and_left (p := (· ∈ t.refs)) t.refs places).mpr ⟨fun r hr => hr, forall₂_of_mapM hplaces⟩
  refine hown.imp ?_
  intro r place hplace
  obtain ⟨name, hname, hget⟩ := h.exists_name hplace.1
  have hstep := hplace.2
  rw [hget] at hstep
  obtain rfl := Except.ok.inj hstep
  exact ⟨hname, rfl⟩

end Sound

/-- A table that is read has one reference and one name more than its header announces, the first reference being that
to no line, and the file of every reference is a file of the table. So every reference has a place, and all of them
together have. -/
theorem queries_of_read {s rest : Bytes} {t : LineTable} (h : read s = .ok t rest) :
    t.refs.length = announcedRefs s + 1 ∧ t.refs[0]? = some ⟨0, 0⟩ ∧ t.files.length = announcedFiles s + 1 ∧
    (∀ r ∈ t.refs, 0 ≤ r.file ∧ r.file < max 1 (announcedFiles s)) ∧
    (∀ i : Nat, i ≤ announcedRefs s → ∃ r name, t.refs[i]? = some r ∧ t.files[r.file.toNat]? = some name ∧
      t.get (.number i) = .ok (if r.file = 0 then none else some name, r.line)) ∧
    ∃ places, t.all = .ok places ∧
      List.Forall₂ (fun r place => t.files[r.file.toNat]? = some place.1 ∧ place.2 = r.line) t.refs places := by
  have hsound := sound_of_read h
  refine ⟨hsound.length_refs, hsound.first_ref, hsound.length_files, hsound.inFiles, ?_, hsound.all⟩
  intro i hi
  exact hsound.get hi

/-- A chunk with three references in two files: a label is passed over, and the second file comes before the first. -/
def turningChunk : Bytes :=
  List.replicate 12 0 ++ [0, 0, 0, 3, 0, 0, 0, 2] ++ [0x51, 0x15, 0x22, 0x29, 0x2c, 0x12, 0x71] ++
    [0, 1, 97, 0, 2, 98, 99]

theorem queries_of_read_turning :
    ∃ t, read turningChunk = .ok t [] ∧ t.refs.length = 4 ∧ t.files.length = 3 ∧
      (∀ i : Nat, i ≤ 3 → ∃ place, t.get (.number i) = .ok place) ∧ ∃ places, t.all = .ok places := by
  obtain ⟨t, hread⟩ : ∃ t, read turningChunk = .ok t [] := ⟨_, rfl⟩
  have hrefs : announcedRefs turningChunk = 3 := rfl
  have hfiles : announcedFiles turningChunk = 2 := rfl
  obtain ⟨hlength, -, hnames, -, hget, places, hall, -⟩ := queries_of_read hread
  rw [hrefs] at hlength hget
  rw [hfiles] at hnames
  refine ⟨t, hread, hlength, hnames, ?_, places, hall⟩
  intro i hi
  obtain ⟨r, name, -, -, hplace⟩ := hget i hi
  exact ⟨_, hplace⟩

end LineTable

end BeamDisasm

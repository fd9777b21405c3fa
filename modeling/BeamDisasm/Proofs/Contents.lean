import BeamDisasm.Proofs.LinePlaces
import BeamDisasm.Proofs.ModuleFile
import BeamDisasm.Proofs.Renderings

/-!
# What module files can hold

A module that was read has in each of its slots what a reader of chunks gave, whatever the file was. So what the readers
promise holds for every module that can come up: its literals are made of the forms that have a tag, and its line table
can be asked for every reference.
-/
namespace BeamDisasm

open Reader

/-! ## External terms -/

/-- A value that is in the data: a number or bytes. -/
def Scalar.IsData : Scalar → Prop
  | .number _ | .raw _ => True
  | _ => False

namespace ExtTerm

variable {t : ExtTerm} {inner : Reader ExtTerm}

/-- The terms that can be read. The parts of a remote function are values of terms. -/
inductive Decoded : ExtTerm → Prop where
  | cacheRef (n : Int) : Decoded (.cacheRef n)
  | smallInteger (n : Int) : Decoded (.smallInteger n)
  | integer (n : Int) : Decoded (.integer n)
  | float (b : Bytes) : Decoded (.float b)
  | newFloat (b : Bytes) : Decoded (.newFloat b)
  | smallTuple {ms : List ExtTerm} (h : ∀ t ∈ ms, Decoded t) : Decoded (.smallTuple ms)
  | largeTuple {ms : List ExtTerm} (h : ∀ t ∈ ms, Decoded t) : Decoded (.largeTuple ms)
  | map {es : List (ExtTerm × ExtTerm)} (hkeys : ∀ e ∈ es, Decoded e.1) (hvalues : ∀ e ∈ es, Decoded e.2) :
      Decoded (.map es)
  | list {ms : List ExtTerm} (h : ∀ t ∈ ms, Decoded t) : Decoded (.list ms)
  | nil : Decoded .nil
  | string (b : Bytes) : Decoded (.string b)
  | binary (b : Bytes) : Decoded (.binary b)
  | smallBig (sign : Int) (b : Bytes) : Decoded (.smallBig sign b)
  | remoteFun {m f a : Scalar} (hm : m.IsData) (hf : f.IsData) (ha : a.IsData) : Decoded (.remoteFun m f a)
  | atom (form : AtomForm) (b : Bytes) : Decoded (.atom form b)

theorem Decoded.isData_value {v : Scalar} (h : t.Decoded) (hv : t.value = .ok v) : v.IsData := by
  cases h with
  | cacheRef | smallInteger | integer | float | newFloat | string | binary | smallBig | atom =>
      obtain rfl := Except.ok.inj hv
      trivial
  | _ => simp [value] at hv

theorem yields_entry (h : Yields inner Decoded) :
    Yields (do let k ← inner; let v ← inner; return (k, v)) fun e => e.1.Decoded ∧ e.2.Decoded :=
  h.bind fun _ hkey => h.bind fun _ hvalue => yields_pure ⟨hkey, hvalue⟩

theorem yields_value (h : t.Decoded) : Yields (lift t.value) Scalar.IsData :=
  yields_lift fun _ hv => h.isData_value hv

theorem yields_body (h : Yields inner Decoded) (form : Form) : Yields (body inner form) Decoded := by
  cases form with
  | cacheRef => exact .of_last fun n => yields_pure (.cacheRef n)
  | smallInteger => exact .of_last fun n => yields_pure (.smallInteger n)
  | integer => exact .of_last fun n => yields_pure (.integer n)
  | float => exact .of_last fun b => yields_pure (.float b)
  | newFloat => exact .of_last fun b => yields_pure (.newFloat b)
  | smallTuple => exact .of_last fun n => (h.times n).bind fun _ hms => yields_pure (.smallTuple hms)
  | largeTuple => exact .of_last fun n => (h.times n).bind fun _ hms => yields_pure (.largeTuple hms)
  | map =>
      refine .of_last fun n => ((yields_entry h).times n).bind fun es hes => yields_pure ?_
      exact .map (fun e he => (hes e he).1) fun e he => (hes e he).2
  | list => exact .of_last fun n => (h.times n).bind fun _ hms => .of_last fun _ => yields_pure (.list hms)
  | nil => exact yields_pure .nil
  | string => exact .of_last fun b => yields_pure (.string b)
  | binary => exact .of_last fun b => yields_pure (.binary b)
  | smallBig => exact .of_last fun n => .of_last fun sign => .of_last fun b => yields_pure (.smallBig sign b)
  | largeBig => exact .of_last fun _ => yields_fail _
  | remoteFun =>
      refine h.bind fun m hm => h.bind fun f hf => h.bind fun a ha => ?_
      exact (yields_value hm).bind fun _ hmv => (yields_value hf).bind fun _ hfv => (yields_value ha).bind fun _ hav =>
        yields_pure (.remoteFun hmv hfv hav)
  | atom => exact .of_last fun b => yields_pure (.atom .utf8 b)
  | smallAtom => exact .of_last fun b => yields_pure (.atom .smallUtf8 b)

theorem yields_afterTag (h : Yields inner Decoded) (tag : UInt8) : Yields (afterTag inner tag) Decoded := by
  unfold afterTag
  split
  · exact yields_body h _
  · exact yields_fail _

theorem yields_readFuel (fuel : Nat) : Yields (readFuel fuel) Decoded := by
  induction fuel with
  | zero => exact yields_fail _
  | succ fuel ih => exact .of_last fun tag => yields_afterTag ih tag

theorem yields_readMarked : Yields readMarked Decoded := by
  intro s t rest h
  unfold readMarked at h
  split at h
  · next m tag u =>
    split at h
    · exact yields_afterTag (yields_readFuel u.length) tag u t rest h
    · cases h
  · cases h

end ExtTerm

theorem LiteralTable.decoded_of_parse {b : Bytes} {table : LiteralTable} (h : parse b = .ok table) :
    ∀ l ∈ table.terms, l.Decoded := by
  obtain ⟨size, -, h⟩ := exists_of_bind h
  obtain ⟨data, -, h⟩ := exists_of_bind h
  obtain ⟨rest, hread⟩ := exists_of_run_eq_ok h
  have hentry : Yields entry ExtTerm.Decoded := .of_last fun _ => ExtTerm.yields_readMarked
  have hbody : Yields readBody fun table => ∀ l ∈ table.terms, l.Decoded := by
    refine Yields.bind (P := fun ls => ∀ l ∈ ls, l.Decoded) ?_ fun terms hterms => yields_pure hterms
    exact .of_last fun n => hentry.times n
  exact hbody data table rest hread

/-! ## Entries of words -/

/-- A word can be written. -/
theorem yields_words (n : Nat) : Yields (words n) fun ws => ∀ w ∈ ws, Text.Short w := by
  have hword : Yields word Text.Short := by
    intro s w rest h
    obtain ⟨k, t, hk, hw⟩ := exists_of_bind_eq_ok h
    obtain ⟨rfl, -⟩ := number_eq_ok hk
    simp only [pure_apply, Outcome.ok.injEq] at hw
    rw [← hw.1]
    refine Text.short_of_lt (k := 12) (by decide) (lt_of_lt_of_le (Bytes.toNat_lt _) ?_)
    calc 256 ^ (s.take 4).length ≤ 256 ^ 4 := Nat.pow_le_pow_right (by decide) (by simp)
      _ ≤ 10 ^ 12 := by decide
  refine .of_last fun b => yields_lift fun ws hws => ?_
  obtain ⟨rest, hread⟩ := exists_of_run_eq_ok hws
  exact hword.times n b ws rest hread

/-- The fields that entries are made of can be written. -/
theorem short_of_countedEntries {α : Type} {n : Nat} {ofWords : List Int → Option α} {b : Bytes} {es : List α}
    {field : α → Int} (hfield : ∀ ws e, ofWords ws = some e → field e ∈ ws)
    (h : (countedEntries (entryOfWords n ofWords)).run b = .ok es) : ∀ e ∈ es, Text.Short (field e) := by
  obtain ⟨rest, hread⟩ := exists_of_run_eq_ok h
  have hentry : Yields (entryOfWords n ofWords) fun e => Text.Short (field e) := by
    refine (yields_words n).bind fun ws hws => ?_
    split
    · next e he => exact yields_pure (hws _ (hfield ws e he))
    · exact yields_fail _
  have hentries : Yields (countedEntries (entryOfWords n ofWords)) fun es => ∀ e ∈ es, Text.Short (field e) :=
    .of_last fun n => hentry.times n
  exact hentries b es rest hread

/-! ## Modules -/

namespace Module

variable {m m' : Module} {stop : Option Fault}

/-- Every slot that is filled holds what the reader of its kind gave for some body. -/
def Parsed (m : Module) : Prop :=
  ∀ (kind : ChunkKind) (content : kind.Content), m.slot kind = some content → ∃ body, kind.parse body = .ok content

theorem parsed_empty : Parsed {} := by
  intro kind content h
  rw [slot_empty] at h
  cases h

theorem Parsed.fill (h : m.Parsed) {kind : ChunkKind} {content : kind.Content} {body : Bytes}
    (hbody : kind.parse body = .ok content) : (m.fill kind content).Parsed := by
  intro other a ha
  by_cases hother : other = kind
  · subst hother
    rw [slot_fill_self] at ha
    exact ⟨body, Option.some.inj ha ▸ hbody⟩
  · rw [slot_fill_of_ne m content hother] at ha
    exact h other a ha

theorem Parsed.addChunk (h : m.Parsed) {marker body : Bytes} (hadd : m.addChunk marker body = .ok m') : m'.Parsed := by
  unfold Module.addChunk at hadd
  split at hadd
  · next kind hkind =>
    rw [setChunk_eq] at hadd
    obtain ⟨content, hbody, rfl⟩ := exists_of_map hadd
    exact h.fill hbody
  · exact Except.ok.inj hadd ▸ h

/-- What adding a chunk keeps is kept by the reading of chunks. -/
theorem yields_readChunks (size : Int) (fuel done : Nat) (h : m.Parsed) :
    Yields (readChunks stop size fuel done m) Parsed := by
  induction fuel generalizing done m with
  | zero =>
      rw [readChunks]
      split
      · exact yields_fail _
      · exact yields_pure h
  | succ fuel ih =>
      rw [readChunks]
      split
      · refine .of_last fun marker => .of_last fun n => .of_last fun body => ?_
        exact (yields_lift fun m' hadd => h.addChunk hadd).bind fun m' hm' => .of_last fun _ => ih _ hm'
      · exact yields_pure h

theorem parsed_of_read {s rest : Bytes} (h : read stop s = .ok m rest) : m.Parsed := by
  have hread : Yields (read stop) Parsed := by
    refine .of_last fun header => ?_
    split
    · exact yields_fail _
    · exact fun u m rest hu => yields_readChunks _ u.length 0 parsed_empty u m rest hu
  exact hread s m rest h

/-- All literals are in forms that can be read. -/
theorem Parsed.literals (h : m.Parsed) {table : LiteralTable} (htable : m.literals = some table) :
    ∀ l ∈ table.terms, l.Decoded := by
  obtain ⟨body, hbody⟩ := h .literals table htable
  exact LiteralTable.decoded_of_parse hbody

/-- The arities of imported functions can be written. -/
theorem Parsed.imports (h : m.Parsed) {es : List ImportEntry} (hes : m.imports = some es) :
    ∀ e ∈ es, Text.Short e.arity := by
  obtain ⟨body, hbody⟩ := h .imports es hes
  refine short_of_countedEntries (fun ws e he => ?_) hbody
  unfold ImportEntry.ofWords at he
  split at he <;> cases he
  simp

/-- The arities of exported functions can be written. -/
theorem Parsed.exports (h : m.Parsed) {es : List ExportEntry} (hes : m.exports = some es) :
    ∀ e ∈ es, Text.Short e.arity := by
  obtain ⟨body, hbody⟩ := h .exports es hes
  refine short_of_countedEntries (fun ws e he => ?_) hbody
  unfold ExportEntry.ofWords at he
  split at he <;> cases he
  simp

/-- The line table can be asked for all its references. -/
theorem Parsed.lines (h : m.Parsed) {table : LineTable} (htable : m.lines = some table) :
    ∃ refs files, table.Sound refs files := by
  obtain ⟨body, hbody⟩ := h .lines table htable
  obtain ⟨rest, hread⟩ := exists_of_run_eq_ok hbody
  exact ⟨_, _, LineTable.sound_of_read hread⟩

end Module

end BeamDisasm

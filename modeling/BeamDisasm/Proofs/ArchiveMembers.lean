import BeamDisasm.Archive.Encode
import BeamDisasm.Proofs.Loading

/-!
# Members of an archive

The modules of an archive are loaded one member after the other, and each member is looked up by its path. A member
that is no module file ends the loading, and the modules that came before it are dropped as well. So the modules of an
archive are had only if all its members load.
-/
namespace BeamDisasm

/-! ## Reading archives -/

namespace Archive

theorem known_nameText (flags : Nat) (b : Bytes) : Known (nameText flags b) := by
  rw [nameText]
  split
  · rw [Text.utf8]
    split
    · exact known_ok _
    · exact known_error (by decide)
  · exact known_ok _

theorem known_find (es : List Entry) (name : String) : Known (find es name) := by
  rw [find]
  split
  · exact known_ok _
  · exact known_error (by decide)

theorem known_bounds (data : Bytes) (place : Nat) : Known (bounds data place) := by
  rw [bounds]
  dsimp only
  split
  · exact known_ok _
  · split
    · exact known_error (by decide)
    · split
      · exact known_error (by decide)
      · split <;> exact known_ok _

theorem known_takeWide (b : Bytes) : Known (takeWide b) := by
  rw [takeWide]
  split
  · exact known_ok _
  · exact known_error (by decide)

theorem known_widened (n : Nat) (b : Bytes) : Known (widened n b) := by
  rw [widened]
  split
  · exact known_takeWide b
  · exact known_ok _

theorem known_widen (x : Extent) (b : Bytes) : Known (x.widen b) := by
  have hrest (r : Nat × Bytes) : Known (widened x.packedSize r.2 >>= fun p =>
      widened x.offset p.2 >>= fun o => (.ok ⟨r.1, p.1, o.1⟩ : Except Fault Extent)) :=
    (known_widened _ _).bind fun _ => (known_widened _ _).bind fun _ => known_ok _
  rw [Extent.widen]
  split
  · exact (known_takeWide b).bind hrest
  · exact (known_widened _ b).bind hrest

theorem known_readExtra (fuel : Nat) (b : Bytes) (x : Extent) : Known (readExtra fuel b x) := by
  induction fuel generalizing b x with
  | zero => exact known_ok _
  | succ fuel ih =>
      rw [readExtra]
      split
      · exact known_ok _
      · dsimp only
        split
        · exact known_error (by decide)
        · split
          · exact (known_widen _ _).bind fun x => ih _ x
          · exact ih _ x

theorem known_readEntries (shift : Int) (fuel : Nat) (b : Bytes) : Known (readEntries shift fuel b) := by
  induction fuel generalizing b with
  | zero => exact known_ok _
  | succ fuel ih =>
      cases b with
      | nil => exact known_ok _
      | cons first rest =>
          rw [readEntries]
          dsimp only
          split
          · exact known_error (by decide)
          · refine (known_nameText _ _).bind fun name => ?_
            split
            · exact known_error (by decide)
            · exact (known_readExtra _ _ _).bind fun x => (ih _).bind fun _ => known_ok _

theorem known_entries (data : Bytes) : Known (entries data) := by
  rw [entries]
  split
  · exact known_error (by decide)
  · refine (known_bounds data _).bind fun d => ?_
    dsimp only
    split
    · exact known_error (by decide)
    · exact (known_readEntries _ _ _).bind fun _ => known_ok _

namespace Entry

theorem known_start (e : Entry) : Known e.start := by
  rw [start]
  split
  · exact known_error (by decide)
  · split
    · exact known_error (by decide)
    · exact known_ok _

theorem known_packed (e : Entry) (data : Bytes) : Known (e.packed data) := by
  refine (known_start e).bind fun place => ?_
  dsimp only
  split
  · exact known_error (by decide)
  · split
    · exact known_error (by decide)
    · refine (known_nameText _ _).bind fun name => ?_
      split
      · exact known_error (by decide)
      · split
        · exact known_error (by decide)
        · split
          · exact known_error (by decide)
          · exact known_ok _

theorem known_unpack (e : Entry) (b : Bytes) : Known (e.unpack b) := by
  rw [unpack]
  split
  · exact known_ok _
  · split
    · dsimp only
      split <;> exact known_ok _
    · exact known_error (by decide)

/-- Whatever is wrong with an archive, it is not that a member is no module file. -/
theorem known_content (inflated summed : Compression.Handout) (e : Entry) (data : Bytes) :
    Known (e.content inflated summed data) :=
  (known_packed e data).bind fun b => (known_unpack e b).bind fun _ => known_ok _

end Entry

end Archive

/-! ## Modules of members -/

namespace Loading

open Compression

variable {p : Buffering} {data : Bytes} {all es : List Archive.Entry} {e : Archive.Entry}

/-- The module in a member: of a module file or, if it is none, of a gzip file. -/
def contentModule (p : Buffering) (c : Archive.Entry.Member) : Except Fault Module :=
  match (ofContent c.content).result with
  | .error .unknownFormat => do
    let b ← c.whole
    (gzipped p b).result
  | r => r

theorem result_ofContent_sound {c : Archive.Entry.Member} {b : Bytes} (h : c.whole = .ok b) :
    (ofContent c.content).result = Module.parse b := by
  cases c with
  | sound bytes =>
      obtain rfl := Except.ok.inj h
      rfl
  | damaged handed f => cases h

/-- A member is read as a plain file twice, which makes no difference. -/
theorem loadMember_result (p : Buffering) (c : Archive.Entry.Member) :
    (loadMember p c).result = contentModule p c := by
  rw [loadMember, contentModule]
  dsimp only
  split
  · next he hstop =>
    rw [he, hstop]
    rfl
  · next b he hwhole =>
    have hplain : (plain b).result = .error .unknownFormat := (result_ofContent_sound hwhole).symm.trans he
    rw [he, hwhole]
    simp only [load, hplain]
    rfl
  · next hstopped hwhole =>
    split
    · next he =>
      cases hc : c.whole with
      | error f => exact (hstopped f he hc).elim
      | ok b => exact (hwhole b he hc).elim
    · rfl

theorem contentModule_of_whole {c : Archive.Entry.Member} {b : Bytes} (h : c.whole = .ok b) :
    contentModule p c = (load p b).result := by
  rw [contentModule, h, result_ofContent_sound h, load]
  dsimp only
  change _ = (match Module.parse b with
    | .error .unknownFormat => (⟨_, _⟩ : Attempt Module)
    | _ => plain b).result
  split <;> rfl

/-- The module of the member that an entry stands for. -/
def ownModule (p : Buffering) (data : Bytes) (e : Archive.Entry) : Except Fault Module := do
  let c ← e.content (p.inflated data e) (p.summed data e) data
  contentModule p c

/-- The module that is loaded for an entry: that of the last member with its path. -/
def namedModule (p : Buffering) (data : Bytes) (all : List Archive.Entry) (e : Archive.Entry) :
    Except Fault Module := do
  let found ← Archive.find all (memberPath e.name)
  ownModule p data found

theorem memberContent_bind (p : Buffering) (data : Bytes) (all : List Archive.Entry) (e : Archive.Entry) :
    memberContent p data all e >>= contentModule p = namedModule p data all e := by
  rw [memberContent, namedModule]
  cases Archive.find all (memberPath e.name) <;> rfl

theorem known_memberContent (p : Buffering) (data : Bytes) (all : List Archive.Entry) (e : Archive.Entry) :
    Known (memberContent p data all e) :=
  (Archive.known_find _ _).bind fun found => Archive.Entry.known_content _ _ found data

/-- The modules of a member and of those behind it: a module goes in front, a member that is no module file leaves
none, and any other fault stays. -/
def withMember (own : Except Fault Module) (rest : Except Fault (Option (List Module))) :
    Except Fault (Option (List Module)) :=
  match own with
  | .ok m => rest.map fun ms => ms.map (m :: ·)
  | .error f => if f = .unknownFormat then .ok none else .error f

theorem loadEntries_cons (he : isWanted e = true) : (loadEntries p data all (e :: es)).result =
    withMember (namedModule p data all e) (loadEntries p data all es).result := by
  rw [← memberContent_bind, loadEntries, if_neg (by simp [he])]
  cases hc : memberContent p data all e with
  | error f =>
      have hknown : f ≠ .unknownFormat := fun hf => known_memberContent p data all e (by rw [hc, hf])
      exact (if_neg hknown).symm
  | ok c =>
      change _ = withMember (contentModule p c) _
      rw [← loadMember_result]
      dsimp only
      split
      · next hunknown => rw [hunknown, withMember, if_pos rfl]
      · next f hf hother => rw [hother, withMember, if_neg hf]
      · next m hm => rw [hm, withMember]

theorem loadEntries_cons_of_not_wanted (he : ¬ isWanted e = true) :
    loadEntries p data all (e :: es) = loadEntries p data all es := by
  rw [loadEntries, if_pos (by simpa using he)]

theorem withMember_eq_some_iff {own : Except Fault Module} {rest : Except Fault (Option (List Module))}
    {ms : List Module} :
    withMember own rest = .ok (some ms) ↔ ∃ m ns, own = .ok m ∧ rest = .ok (some ns) ∧ ms = m :: ns := by
  obtain f | m := own
  · rw [withMember]
    split <;> simp
  · obtain f | _ | ns := rest
    · simp [withMember, Except.map]
    · simp [withMember, Except.map]
    · simp [withMember, Except.map, eq_comm]

/-- Modules are loaded only if there is one for each member. -/
theorem loadEntries_eq_some_iff {ms : List Module} : (loadEntries p data all es).result = .ok (some ms) ↔
    List.Forall₂ (fun e m => namedModule p data all e = .ok m) (es.filter isWanted) ms := by
  induction es generalizing ms with
  | nil =>
      rw [loadEntries, List.filter_nil, List.forall₂_nil_left_iff]
      simp [eq_comm]
  | cons e es ih =>
      by_cases he : isWanted e = true
      · rw [loadEntries_cons he, withMember_eq_some_iff, List.filter_cons_of_pos he, List.forall₂_cons_left_iff]
        simp only [ih]
      · rw [loadEntries_cons_of_not_wanted he, List.filter_cons_of_neg he, ih]

/-- One member that is no module file is enough for there to be no modules. -/
theorem loadEntries_eq_none
    (h : ∀ f ∈ es, isWanted f = true →
      (∃ m, namedModule p data all f = .ok m) ∨ namedModule p data all f = .error .unknownFormat)
    (he : e ∈ es) (hwanted : isWanted e = true) (hbad : namedModule p data all e = .error .unknownFormat) :
    (loadEntries p data all es).result = .ok none := by
  induction es with
  | nil => simp at he
  | cons f es ih =>
      have hrest (hmem : e ∈ es) := ih (fun g hg => h g (List.mem_cons_of_mem _ hg)) hmem
      by_cases hf : isWanted f = true
      · rw [loadEntries_cons hf]
        obtain ⟨m, hm⟩ | hnone := h f List.mem_cons_self hf
        · obtain rfl | hmem := List.mem_cons.1 he
          · rw [hbad] at hm
            cases hm
          · rw [hm, hrest hmem]
            rfl
        · rw [hnone]
          rfl
      · rw [loadEntries_cons_of_not_wanted hf]
        obtain rfl | hmem := List.mem_cons.1 he
        · exact absurd hwanted hf
        · exact hrest hmem

theorem known_loadEntries (p : Buffering) (data : Bytes) (all es : List Archive.Entry) :
    Known (loadEntries p data all es).result := by
  induction es with
  | nil => exact known_ok _
  | cons e es ih =>
      by_cases he : isWanted e = true
      · rw [loadEntries_cons he]
        cases namedModule p data all e with
        | ok m => exact ih.map _
        | error f =>
            rw [withMember]
            split
            · exact known_ok _
            · next hf => exact known_error hf
      · rwa [loadEntries_cons_of_not_wanted he]

/-- Loading an archive never fails because data are no module file. -/
theorem known_loadArchive (p : Buffering) (data : Bytes) : Known (loadArchive p data).result := by
  rw [loadArchive]
  cases hes : Archive.entries data with
  | error f => exact known_error fun hf => Archive.known_entries data (by rw [hes, hf])
  | ok es => exact known_loadEntries p data es es

/-- There is a list of modules if every member that is wanted has one. -/
theorem exists_modules_of_loadArchive_iff (p : Buffering) (data : Bytes) :
    (∃ ms, (loadArchive p data).result = .ok (some ms)) ↔ ∃ es, Archive.entries data = .ok es ∧
      ∀ e ∈ es, isWanted e = true → ∃ m, namedModule p data es e = .ok m := by
  rw [loadArchive]
  cases Archive.entries data with
  | error f => simp
  | ok es =>
      simp only [loadEntries_eq_some_iff, exists_forall₂_iff, Except.ok.injEq, exists_eq_left', List.mem_filter,
        and_imp]

/-! ## Modules that an archive keeps -/

/-- The modules of the members that load, in the order of the archive. -/
def modulesOf (p : Buffering) (data : Bytes) (es : List Archive.Entry) : List Module :=
  (es.filter isWanted).filterMap fun e => (ownModule p data e).toOption

/-- The modules of those that have one are a module for each only if all have one. -/
theorem forall₂_filterMap_toOption {own named : Archive.Entry → Except Fault Module} {l : List Archive.Entry} :
    List.Forall₂ (fun e m => named e = .ok m) l (l.filterMap fun e => (own e).toOption) ↔
      ∀ e ∈ l, ∃ m, own e = .ok m ∧ named e = .ok m := by
  induction l with
  | nil => simp
  | cons e l ih =>
      rw [List.forall_mem_cons, ← ih]
      cases hown : own e with
      | error f =>
          rw [List.filterMap_cons_none (by rw [hown]; rfl)]
          constructor
          · intro h
            have hlength := h.length_eq
            have hle := List.length_filterMap_le (fun e => (own e).toOption) l
            rw [List.length_cons] at hlength
            omega
          · rintro ⟨⟨m, hm, -⟩, -⟩
            cases hm
      | ok m =>
          rw [List.filterMap_cons_some (b := m) (by rw [hown]; rfl), List.forall₂_cons]
          simp

theorem namedModule_of_find (h : Archive.find all (memberPath e.name) = .ok e) :
    namedModule p data all e = ownModule p data e := by
  rw [namedModule, h]
  rfl

/-- The member of an entry that is stored as it is, and has the length and the checksum that the entry gives. -/
theorem ownModule_of_stored {b : Bytes} (hpacked : e.packed data = .ok b) (hmethod : e.method = 0)
    (hsize : e.size = b.length) (hsum : crc32 b = e.checksum) : ownModule p data e = (load p b).result := by
  have hcontent : e.content (p.inflated data e) (p.summed data e) data = .ok (.sound b) := by
    rw [Archive.Entry.content, hpacked]
    simp [Archive.Entry.unpack, Archive.Entry.member, hmethod, hsize, hsum, bind, Except.bind, pure, Except.pure]
  rw [ownModule, hcontent]
  exact contentModule_of_whole rfl

section Samples

-- The checksums of the members take deep recursions to evaluate.
set_option maxRecDepth 10000

/-- A module file without chunks. -/
def blankFile : Bytes := Module.encodeFile []

theorem parse_blankFile : Module.parse blankFile = .ok {} := rfl

theorem crc32_blankFile : crc32 blankFile = 911442310 := rfl

theorem load_blankFile (p : Buffering) : (load p blankFile).result = .ok {} := by
  rw [load_of_hasHeader (hasHeader_of_parse parse_blankFile)]
  exact parse_blankFile

/-- The entry of a member that is stored as it is. -/
def storedEntry (name : String) (checksum length : Nat) (offset limit : Int) : Archive.Entry where
  name := name
  writtenName := name
  flags := 0
  method := 0
  checksum := checksum
  packedSize := length
  size := length
  offset := offset
  limit := limit

/-- The entry of the blank file as the first member. -/
def blankEntry : Archive.Entry := storedEntry "a.beam" 911442310 12 0 48

theorem ownModule_blankEntry (h : blankEntry.packed data = .ok blankFile) :
    ownModule .pieces data blankEntry = .ok {} := by
  rw [ownModule_of_stored h rfl rfl crc32_blankFile, load_blankFile]

/-- An archive of a module file and a gzip file of it. -/
def blankAndGzip : Bytes :=
  Archive.encode [(Bytes.ofAscii "a.beam", blankFile), (Bytes.ofAscii "lib/b.beam", gzip blankFile)]

def gzipEntry : Archive.Entry := storedEntry "lib/b.beam" 1287933359 35 48 123

theorem entries_blankAndGzip : Archive.entries blankAndGzip = .ok [blankEntry, gzipEntry] := rfl

theorem packed_blankEntry_blankAndGzip : blankEntry.packed blankAndGzip = .ok blankFile := by
  rw [Archive.Entry.packed, show blankEntry.start = .ok 0 by decide]
  rfl

theorem packed_gzipEntry : gzipEntry.packed blankAndGzip = .ok (gzip blankFile) := by
  rw [Archive.Entry.packed, show gzipEntry.start = .ok 48 by decide]
  rfl

theorem crc32_gzip_blankFile : crc32 (gzip blankFile) = 1287933359 := rfl

theorem ownModule_gzipEntry : ownModule .pieces blankAndGzip gzipEntry = .ok {} := by
  rw [ownModule_of_stored packed_gzipEntry rfl rfl crc32_gzip_blankFile]
  exact (load_gzip_eq rfl (by rw [gunzip_gzip]; rfl) parse_blankFile).1

/-- An archive of a module file and a file that is none. -/
def blankAndText : Bytes :=
  Archive.encode [(Bytes.ofAscii "a.beam", blankFile), (Bytes.ofAscii "b.beam", Bytes.ofAscii "text")]

def textEntry : Archive.Entry := storedEntry "b.beam" 999008199 4 48 88

theorem entries_blankAndText : Archive.entries blankAndText = .ok [blankEntry, textEntry] := rfl

theorem packed_blankEntry_blankAndText : blankEntry.packed blankAndText = .ok blankFile := by
  rw [Archive.Entry.packed, show blankEntry.start = .ok 0 by decide]
  rfl

theorem packed_textEntry : textEntry.packed blankAndText = .ok (Bytes.ofAscii "text") := by
  rw [Archive.Entry.packed, show textEntry.start = .ok 48 by decide]
  rfl

theorem crc32_text : crc32 (Bytes.ofAscii "text") = 999008199 := rfl

theorem load_text : (load .pieces (Bytes.ofAscii "text")).result = .error .unknownFormat := rfl

end Samples

end Loading

end BeamDisasm

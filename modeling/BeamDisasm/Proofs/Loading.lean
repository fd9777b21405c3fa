import BeamDisasm.Loading.Basic
import BeamDisasm.Proofs.ModuleBounds
import BeamDisasm.Proofs.ReaderFaults
import BeamDisasm.Proofs.StoredStreams
import BeamDisasm.Proofs.Truncation

/-!
# Plain and gzip files

A file with a valid header is read as it is, and all that is wrong with it is told. Only a file without one is tried as
a gzip file, and then whatever goes wrong is told as the same fault. A module is the same whether its file was
compressed or not.

Content is handed out while it is unpacked. Of a damaged gzip file some of the content before the damaged place can be
read, and how much depends on the buffers on the way. A module is loaded from it if the module ends within that part.
-/
namespace BeamDisasm

open Reader

/-! ## Reading without a look at what follows -/

namespace Reader

variable {α β : Type}

/-- The reader `r` reads what `r'` reads while anything may follow: it succeeds when `r'` does and leaves all that
follows. -/
structure Mirrors (r r' : Reader α) : Prop where
  takesFront : Pays r' fun _ => 0
  append : ∀ {s a t}, r s = .ok a t → ∀ more, r' (s ++ more) = .ok a (t ++ more)
  of_append : ∀ {s a t x}, r' (s ++ [x]) = .ok a (t ++ [x]) → r s = .ok a t

theorem mirrors_pure (a : α) : Mirrors (pure a) (pure a) where
  takesFront := pays_pure rfl
  append := settled_pure a _ _ _
  of_append := by
    intro s b t x h
    simpa using h

theorem mirrors_fail (e e' : Fault) : Mirrors (fail e : Reader α) (fail e') where
  takesFront := pays_fail e'
  append := by
    intro s a t h
    simp [fail] at h
  of_append := by
    intro s a t x h
    simp [fail] at h

theorem mirrors_lift (x : Except Fault α) : Mirrors (lift x) (lift x) := by
  cases x with
  | ok a => exact mirrors_pure a
  | error e => exact mirrors_fail e e

theorem Mirrors.bind {r r' : Reader α} {f f' : α → Reader β} (hr : Mirrors r r') (hf : ∀ a, Mirrors (f a) (f' a)) :
    Mirrors (r >>= f) (r' >>= f') where
  takesFront := hr.takesFront.bind fun a => (hf a).takesFront.mono fun _ => Nat.zero_le _
  append := by
    intro s b t h more
    obtain ⟨a, u, hra, hfa⟩ := exists_of_bind_eq_ok h
    rw [bind_apply, hr.append hra more]
    exact (hf a).append hfa more
  of_append := by
    intro s b t x h
    obtain ⟨a, u, hra, hfa⟩ := exists_of_bind_eq_ok h
    -- what the first reader leaves still ends with the byte that follows
    obtain ⟨used, rfl, -⟩ := (hf a).takesFront u b _ hfa
    rw [← List.append_assoc] at hra hfa
    rw [bind_apply, hr.of_append hra]
    exact (hf a).of_append hfa

end Reader

namespace Module

variable {e : Fault}

theorem available_some_eq_ok {n : Nat} {s b t : Bytes} (h : available (some e) n s = .ok b t) :
    n ≤ s.length ∧ b = s.take n ∧ t = s.drop n := by
  simp only [available, upTo] at h
  split at h
  · next hn =>
    simp only [Outcome.ok.injEq] at h
    exact ⟨hn, h.1.symm, h.2.symm⟩
  · simp at h

theorem mirrors_available (e : Fault) (n : Nat) : Mirrors (available (some e) n) (available none n) where
  takesFront := (pays_available none n).mono fun _ => Nat.zero_le _
  append := by
    intro s b t h more
    obtain ⟨hn, rfl, rfl⟩ := available_some_eq_ok h
    simp only [available, upTo, List.take_append_of_le_length hn, List.drop_append_of_le_length hn]
  of_append := by
    intro s b t x h
    simp only [available, upTo, Outcome.ok.injEq] at h
    obtain ⟨rfl, hrest⟩ := h
    have hn : n ≤ s.length := by
      have hlength := congrArg List.length hrest
      simp only [List.length_drop, List.length_append, List.length_singleton] at hlength
      omega
    rw [List.drop_append_of_le_length hn] at hrest
    rw [List.take_append_of_le_length hn, ← List.append_cancel_right hrest]
    simp only [available, if_pos hn, upTo]

theorem mirrors_chunkLength (e : Fault) : Mirrors (chunkLength (some e)) (chunkLength none) := by
  refine (mirrors_available e 4).bind fun b => ?_
  split
  · exact mirrors_pure _
  · exact mirrors_fail _ _

theorem mirrors_readChunks (e : Fault) (size : Int) (fuel done : Nat) (m : Module) :
    Mirrors (readChunks (some e) size fuel done m) (readChunks none size fuel done m) := by
  induction fuel generalizing done m with
  | zero =>
      simp only [readChunks]
      split
      · exact mirrors_fail _ _
      · exact mirrors_pure m
  | succ fuel ih =>
      simp only [readChunks]
      split
      · exact (mirrors_available e 4).bind fun marker => (mirrors_chunkLength e).bind fun n =>
          (mirrors_available e n).bind fun body => (mirrors_lift _).bind fun m' =>
            (mirrors_available e _).bind fun _ => ih _ m'
      · exact mirrors_pure m

/-- The chunks in all bytes, however many there are. -/
theorem mirrors_allChunks (e : Fault) (size : Int) :
    Mirrors (fun s => readChunks (some e) size s.length 0 {} s) (fun s => readChunks none size s.length 0 {} s) where
  takesFront := fun s => (mirrors_readChunks e size s.length 0 {}).takesFront s
  append := by
    intro s m t h more
    have hlength : s.length ≤ (s ++ more).length := by simp
    have hread := (readChunks_of_length_le (some e) size 0 {} hlength).trans h
    exact (mirrors_readChunks e size (s ++ more).length 0 {}).append hread more
  of_append := by
    intro s m t x h
    have hlength : s.length ≤ (s ++ [x]).length := by simp
    have hread := (mirrors_readChunks e size (s ++ [x]).length 0 {}).of_append h
    exact (readChunks_of_length_le (some e) size 0 {} hlength).symm.trans hread

/-- A file in content that is stopped somewhere is read as one that anything may follow. -/
theorem mirrors_read (e : Fault) : Mirrors (read (some e)) (read none) := by
  refine (mirrors_available e headerLength).bind fun header => ?_
  split
  · exact mirrors_fail _ _
  · exact mirrors_allChunks e _

theorem run_read_some_eq_ok_iff (e : Fault) (s : Bytes) (m : Module) :
    (read (some e)).run s = .ok m ↔ ∃ t, ∀ more, read none (s ++ more) = .ok m (t ++ more) := by
  constructor
  · intro h
    obtain ⟨t, ht⟩ := exists_of_run_eq_ok h
    exact ⟨t, (mirrors_read e).append ht⟩
  · rintro ⟨t, ht⟩
    rw [run, (mirrors_read e).of_append (ht [0])]

/-! ## Headers -/

/-- The data begin with a header: a marker, a length and another marker. -/
def HasHeader (b : Bytes) : Prop :=
  12 ≤ b.length ∧ b.take 4 = Bytes.ofAscii "FOR1" ∧ (b.drop 8).take 4 = Bytes.ofAscii "BEAM"

theorem headerSize?_ne_none_iff (b : Bytes) : headerSize? (b.take headerLength) ≠ none ↔ HasHeader b := by
  have hlength : (b.take headerLength).length = headerLength ↔ 12 ≤ b.length := by
    simp [headerLength]
  have hfirst : (b.take headerLength).take 4 = b.take 4 := by simp [headerLength, List.take_take]
  have hlast : (b.take headerLength).drop 8 = (b.drop 8).take 4 := by simp [headerLength, List.drop_take]
  simp only [headerSize?, hlength, hfirst, hlast, HasHeader]
  split <;> simp_all

section Header

variable {b : Bytes}

theorem available_headerLength (b : Bytes) :
    available none headerLength b = .ok (b.take headerLength) (b.drop headerLength) := rfl

theorem read_of_no_header (h : headerSize? (b.take headerLength) = none) :
    read none b = .fail .unknownFormat (b.drop headerLength) := by
  rw [read, bind_apply, available_headerLength]
  dsimp only
  rw [h]
  rfl

theorem read_of_header {size : Nat} (h : headerSize? (b.take headerLength) = some size) :
    read none b = readChunks none ((size : Int) - 4) (b.drop headerLength).length 0 {} (b.drop headerLength) := by
  rw [read, bind_apply, available_headerLength]
  dsimp only
  rw [h]

/-- Data are no module file exactly when they do not begin with a header. -/
theorem parse_eq_unknownFormat_iff (b : Bytes) : parse b = .error .unknownFormat ↔ ¬ HasHeader b := by
  rw [← headerSize?_ne_none_iff, not_ne_iff]
  constructor
  · intro h
    by_contra hsome
    obtain ⟨size, hsize⟩ := Option.ne_none_iff_exists'.1 hsome
    have hknown : Known (parse b) := by
      rw [parse, run, read_of_header hsize]
      exact (allKnown_readChunks (Option.some_ne_none _).symm _ _ 0 {}).known_run (b.drop headerLength)
    exact hknown h
  · intro h
    rw [parse, run, read_of_no_header h]

end Header

end Module

/-! ## Gzip files -/

namespace Compression

open Gzip

/-- The first content is a part of the second from the front. Either both are whole, and then they are the same, or both
have the same fault. -/
def Content.Within (c d : Content) : Prop :=
  c.bytes <+: d.bytes ∧ c.whole = d.whole

theorem Content.within_rfl (c : Content) : c.Within c :=
  ⟨List.prefix_rfl, rfl⟩

theorem Content.Within.prepend {c d : Content} (h : c.Within d) (b : Bytes) :
    Content.Within { c with bytes := b ++ c.bytes } { d with bytes := b ++ d.bytes } := by
  obtain ⟨bytes, stop⟩ := c
  obtain ⟨bytes', stop'⟩ := d
  obtain ⟨hbytes, hwhole⟩ := h
  refine ⟨(List.prefix_append_right_inj b).mpr hbytes, ?_⟩
  cases stop <;> cases stop' <;> simp_all [Content.whole]

theorem readable_within (handout : Handout) (out : Bytes) (stop : Stop) :
    (readable handout out stop).Within ⟨out, some .corruptStream⟩ := by
  cases stop with
  | truncated => exact Content.within_rfl _
  | corrupt => exact ⟨List.take_prefix _ _, rfl⟩

theorem readable_id (out : Bytes) (stop : Stop) : readable id out stop = ⟨out, some .corruptStream⟩ := by
  cases stop <;> simp [readable, Content.handedOut]

theorem members_within (handout : Handout) (fuel : Nat) (b : Bytes) :
    (members handout fuel b).Within (members id fuel b) := by
  induction fuel generalizing b with
  | zero => exact Content.within_rfl _
  | succ fuel ih =>
      cases b with
      | nil => exact Content.within_rfl _
      | cons d ds =>
          rw [members, members]
          cases hbody : skipHeader? (d :: ds) with
          | none => exact Content.within_rfl _
          | some body =>
              dsimp only
              cases hrest : (inflate body).rest with
              | error stop =>
                  dsimp only
                  rw [readable_id]
                  exact readable_within handout _ stop
              | ok s =>
                  dsimp only
                  split
                  · exact (ih _).prepend _
                  · exact Content.within_rfl _

/-- What is handed out of a gzip file is a part of what comes before its damage. Whether it is damaged, and what it
holds if it is not, does not depend on that. -/
theorem gunzip_within (handout : Handout) (b : Bytes) : (gunzip handout b).Within (gunzip id b) :=
  members_within handout b.length b

end Compression

/-! ## Loading -/

namespace Loading

open Compression

variable {p : Buffering}

/-- A result whose faults are all the same one: the data are no module file. -/
def orUnknown (x : Except Fault Module) : Except Fault Module :=
  match x with
  | .ok m => .ok m
  | .error _ => .error .unknownFormat

theorem orUnknown_eq_ok_iff {x : Except Fault Module} {m : Module} : orUnknown x = .ok m ↔ x = .ok m := by
  cases x <;> simp [orUnknown]

theorem load_of_hasHeader {c : Bytes} (h : Module.HasHeader c) : load p c = plain c := by
  have hresult : (plain c).result ≠ .error .unknownFormat := fun he => (Module.parse_eq_unknownFormat_iff c).1 he h
  unfold load
  dsimp only
  split
  · next he => exact absurd he hresult
  · rfl

theorem load_of_not_hasHeader {c : Bytes} (h : ¬ Module.HasHeader c) :
    (load p c).result = orUnknown (ofContent (gunzip (p.gzip c) c)).result := by
  have hresult : (plain c).result = .error .unknownFormat := (Module.parse_eq_unknownFormat_iff c).2 h
  simp only [load, hresult]
  rfl

theorem ofContent_of_whole {c : Content} {b : Bytes} (h : c.whole = .ok b) :
    (ofContent c).result = Module.parse b := by
  obtain ⟨bytes, _ | e⟩ := c
  · simp only [Content.whole, Except.ok.injEq] at h
    rw [← h]
    rfl
  · simp [Content.whole] at h

theorem ofContent_of_damaged {c : Content} {e : Fault} (h : c.whole = .error e) :
    (ofContent c).result = (Module.read (some e)).run c.bytes := by
  obtain ⟨bytes, _ | e'⟩ := c
  · simp [Content.whole] at h
  · simp only [Content.whole, Except.error.injEq] at h
    rw [← h]
    rfl

theorem hasHeader_of_parse {b : Bytes} {m : Module} (h : Module.parse b = .ok m) : Module.HasHeader b := by
  by_contra hno
  rw [(Module.parse_eq_unknownFormat_iff b).2 hno] at h
  cases h

/-- No gzip file begins with the header of a module file. -/
theorem not_hasHeader_of_gzip {z : Bytes} (h : z.take 2 = [0x1F, 0x8B]) : ¬ Module.HasHeader z := by
  rintro ⟨-, hfirst, -⟩
  have htake : z.take 2 = (z.take 4).take 2 := by simp [List.take_take]
  rw [hfirst, h] at htake
  revert htake
  decide

/-- A module is loaded from its file and from any gzip file of it. -/
theorem load_gzip_eq {z b : Bytes} {m : Module} (hz : z.take 2 = [0x1F, 0x8B]) (hwhole : (gunzip id z).whole = .ok b)
    (hb : Module.parse b = .ok m) : (load p z).result = .ok m ∧ (load p b).result = .ok m := by
  constructor
  · rw [load_of_not_hasHeader (not_hasHeader_of_gzip hz),
      ofContent_of_whole ((gunzip_within (p.gzip z) z).2.trans hwhole)]
    exact orUnknown_eq_ok_iff.2 hb
  · rw [load_of_hasHeader (hasHeader_of_parse hb)]
    exact hb

/-- The gzip file of a small module without its checksum and length. -/
def cutTwoInstructions : Bytes :=
  gzipHeader ++ storedBlocks (Module.twoInstructions.length + 1) Module.twoInstructions

end Loading

end BeamDisasm

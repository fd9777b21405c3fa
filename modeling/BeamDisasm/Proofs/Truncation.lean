import BeamDisasm.Proofs.ModuleFile
import Mathlib.Algebra.Group.Nat.Defs
import Mathlib.Data.List.Infix

/-!
# Files that are cut short

A file is read chunk by chunk, and the length of a body that ends too early is not checked. A file that is cut short
in front of the body of its last chunk is never read, since the next chunk is missed. Behind that body nothing
depends on the rest of the file. Only a cut inside the body of the last chunk is left to the reader of its kind. The
tables of functions are read from fields of fixed width, so that they notice the cut; the readers of the other kinds
may take the shorter body for another one.
-/
namespace BeamDisasm

open Reader (Settled settled_exactly settled_fail settled_lift settled_number settled_pure)

/-- What starts like `a ++ b` and is not shorter than `a` goes on like `b`. -/
theorem exists_append_of_prefix {α : Type} {a b p : List α} (h : p <+: a ++ b) (hlength : a.length ≤ p.length) :
    ∃ q, p = a ++ q ∧ q <+: b := by
  obtain ⟨q, rfl⟩ := List.prefix_of_prefix_length_le (List.prefix_append a b) h hlength
  exact ⟨q, rfl, (List.prefix_append_right_inj a).mp h⟩

/-- No value was read. -/
def Outcome.Fails {α : Type} (o : Outcome α) : Prop :=
  ∃ e t, o = .fail e t

theorem run_eq_error_of_fails {α : Type} {r : Reader α} {s : Bytes} (h : (r s).Fails) :
    ∃ e, r.run s = .error e := by
  obtain ⟨e, t, h⟩ := h
  exact ⟨e, by rw [Reader.run, h]⟩

namespace ChunkKind

/-- The kinds whose readers may take the beginning of a body for another body. -/
def openEnded : List ChunkKind :=
  [.lines, .atoms, .literals, .code]

theorem settled_words (n : Nat) : Settled (words n) :=
  (settled_exactly _).bind fun _ => settled_lift _

theorem settled_entryOfWords {α : Type} (n : Nat) (ofWords : List Int → Option α) :
    Settled (entryOfWords n ofWords) := by
  refine (settled_words n).bind fun fields => ?_
  split
  · exact settled_pure _
  · exact settled_fail _

theorem settled_countedEntries {α : Type} {entry : Reader α} (h : Settled entry) :
    Settled (countedEntries entry) :=
  (settled_number 4).bind fun n => h.times n

/-- A table of functions that can be read from the beginning of a body is the table of the whole. -/
theorem parse_append {kind : ChunkKind} (hkind : kind ∉ openEnded) {b : Bytes} {c : kind.Content}
    (h : kind.parse b = .ok c) (more : Bytes) : kind.parse (b ++ more) = .ok c := by
  cases kind with
  | lines | atoms | literals | code => simp [openEnded] at hkind
  | imports | exports | functions => exact (settled_countedEntries (settled_entryOfWords _ _)).run_append h more

end ChunkKind

namespace Module

/-! ## Chunks as they stand in a file -/

/-- A chunk with its padding, whose bytes are not looked at. -/
structure Chunk where
  marker : Bytes
  body : Bytes
  padding : Bytes
  marker_length : marker.length = 4
  body_length : body.length < 256 ^ 4
  padding_length : body.length + padding.length = padded body.length

namespace Chunk

/-- The bytes of a chunk. -/
def bytes (c : Chunk) : Bytes :=
  c.marker ++ (Bytes.ofNat 4 c.body.length ++ (c.body ++ c.padding))

/-- The bytes of chunks one after the other. -/
def allBytes (cs : List Chunk) : Bytes :=
  cs.flatMap bytes

theorem length_bytes (c : Chunk) : c.bytes.length = 8 + padded c.body.length := by
  have hpad := c.padding_length
  simp only [bytes, List.length_append, c.marker_length, Bytes.length_ofNat]
  omega

theorem length_le_allBytes (cs : List Chunk) : cs.length ≤ (allBytes cs).length := by
  induction cs with
  | nil => simp
  | cons c cs ih =>
      have hc := c.length_bytes
      simp only [allBytes, List.flatMap_cons, List.length_append, List.length_cons] at ih ⊢
      omega

end Chunk

/-! ## One chunk -/

section Walk

variable {size fuel done n : Nat} {m m' : Module} {marker tail s t rest : Bytes}

/-- A chunk is handed over as far as its body is there, and what is left of it is skipped. -/
theorem readChunks_head (hmarker : marker.length = 4) (hn : n < 256 ^ 4) (hdone : done < size) :
    readChunks none size (fuel + 1) done m (marker ++ (Bytes.ofNat 4 n ++ tail)) =
      match m.addChunk marker (tail.take n) with
      | .ok m' => readChunks none size fuel (done + (8 + padded n)) m' (tail.drop (padded n))
      | .error e => .fail e (tail.drop n) := by
  have hint : (done : Int) < size := by omega
  have hskip : (tail.drop n).drop (padded n - n) = tail.drop (padded n) := by
    rw [List.drop_drop, Nat.add_sub_cancel' (le_padded n)]
  rw [readChunks, if_pos hint, (reads_available hmarker).bind_append, (reads_chunkLength hn).bind_append,
    Reader.bind_apply]
  change Reader.bind (Reader.lift (m.addChunk marker (tail.take n))) _ (tail.drop n) = _
  cases m.addChunk marker (tail.take n) with
  | error e => rfl
  | ok m' =>
      change readChunks none size fuel _ m' ((tail.drop n).drop (padded n - n)) = _
      rw [hskip]

theorem chunkLength_short (hs : s.length < 4) : chunkLength none s = .fail .shortField [] := by
  have htake : ¬ (s.take 4).length = 4 := by
    simp only [List.length_take]
    omega
  have hdrop : s.drop 4 = [] := List.drop_eq_nil_of_le (by omega)
  rw [chunkLength, Reader.bind_apply]
  simp only [available, Reader.upTo, if_neg htake, hdrop, Reader.fail]

theorem readChunks_zero (hdone : done < size) : (readChunks none size 0 done m s).Fails := by
  have hint : (done : Int) < size := by omega
  exact ⟨.shortField, s, by rw [readChunks, if_pos hint]; rfl⟩

/-- Fewer than eight bytes are no chunk. -/
theorem readChunks_short (hdone : done < size) (hs : s.length < 8) :
    (readChunks none size fuel done m s).Fails := by
  have hint : (done : Int) < size := by omega
  cases fuel with
  | zero => exact readChunks_zero hdone
  | succ fuel =>
      have hlength := chunkLength_short (s := s.drop 4) (by simp; omega)
      refine ⟨.shortField, [], ?_⟩
      rw [readChunks, if_pos hint, Reader.bind_apply]
      simp only [available, Reader.upTo, Reader.bind_apply, hlength]

/-- Eight bytes or more are a marker, a length and what follows. -/
theorem exists_head (hs : 8 ≤ s.length) :
    ∃ marker n tail, s = marker ++ (Bytes.ofNat 4 n ++ tail) ∧ marker.length = 4 ∧ n < 256 ^ 4 := by
  have hfield : ((s.drop 4).take 4).length = 4 := by
    simp only [List.length_take, List.length_drop]
    omega
  have hlt := Bytes.toNat_lt ((s.drop 4).take 4)
  rw [hfield] at hlt
  refine ⟨s.take 4, Bytes.toNat ((s.drop 4).take 4), (s.drop 4).drop 4, ?_, ?_, hlt⟩
  · rw [Bytes.ofNat_toNat hfield, List.take_append_drop, List.take_append_drop]
  · simp only [List.length_take]
    omega

/-! ## Whole chunks -/

theorem take_body (c : Chunk) (t : Bytes) : (c.body ++ (c.padding ++ t)).take c.body.length = c.body :=
  List.take_left' rfl

theorem drop_padded (c : Chunk) (t : Bytes) : (c.body ++ (c.padding ++ t)).drop (padded c.body.length) = t := by
  rw [← List.append_assoc]
  exact List.drop_left' (by rw [List.length_append, c.padding_length])

/-- A whole chunk is handed over and left behind. -/
theorem readChunks_bytes (c : Chunk) (hdone : done < size) :
    readChunks none size (fuel + 1) done m (c.bytes ++ t) =
      match m.addChunk c.marker c.body with
      | .ok m' => readChunks none size fuel (done + c.bytes.length) m' t
      | .error e => .fail e (c.padding ++ t) := by
  have hdrop : (c.body ++ (c.padding ++ t)).drop c.body.length = c.padding ++ t := List.drop_left' rfl
  have hhead : readChunks none size (fuel + 1) done m
      (c.marker ++ (Bytes.ofNat 4 c.body.length ++ (c.body ++ (c.padding ++ t)))) = _ :=
    readChunks_head c.marker_length c.body_length hdone
  rw [take_body, drop_padded, hdrop] at hhead
  rw [Chunk.length_bytes, ← hhead]
  simp only [Chunk.bytes, List.append_assoc]

/-- Whole chunks that lead to a module lead to the same one whatever follows them. -/
theorem readChunks_allBytes {cs : List Chunk} (hdone : done + (Chunk.allBytes cs).length < size)
    (h : readChunks none size fuel done m (Chunk.allBytes cs ++ t) = .ok m' rest) :
    ∃ m₀, ∀ fuel' t', readChunks none size (fuel' + cs.length) done m (Chunk.allBytes cs ++ t') =
      readChunks none size fuel' (done + (Chunk.allBytes cs).length) m₀ t' := by
  induction cs generalizing fuel done m with
  | nil => exact ⟨m, fun _ _ => rfl⟩
  | cons c cs ih =>
      have hsplit : Chunk.allBytes (c :: cs) = c.bytes ++ Chunk.allBytes cs := rfl
      rw [hsplit, List.length_append] at hdone
      rw [hsplit, List.append_assoc] at h
      cases fuel with
      | zero =>
          obtain ⟨e, u, hfail⟩ := readChunks_zero (m := m) (s := c.bytes ++ (Chunk.allBytes cs ++ t))
            (show done < size by omega)
          simp [hfail] at h
      | succ fuel =>
          rw [readChunks_bytes c (by omega)] at h
          cases hadd : m.addChunk c.marker c.body with
          | error e => simp [hadd] at h
          | ok m₁ =>
              simp only [hadd] at h
              obtain ⟨m₀, hm₀⟩ := ih (by omega) h
              refine ⟨m₀, fun fuel' t' => ?_⟩
              rw [hsplit, List.append_assoc, List.length_cons, ← Nat.add_assoc, readChunks_bytes c (by omega)]
              simp only [hadd, hm₀, List.length_append, Nat.add_assoc]

/-- Data that are cut in front of the body of the chunk behind whole chunks are not read. -/
theorem readChunks_cut (cs : List Chunk) :
    ∀ {fuel done : Nat} {m : Module} {q : Bytes}, q <+: Chunk.allBytes cs ++ t →
      q.length < (Chunk.allBytes cs).length + 8 → done + (Chunk.allBytes cs).length < size →
      (readChunks none size fuel done m q).Fails := by
  induction cs with
  | nil =>
      intro fuel done m q _ hlength hdone
      exact readChunks_short hdone (by simpa [Chunk.allBytes] using hlength)
  | cons c cs ih =>
      intro fuel done m q hq hlength hdone
      have hsplit : Chunk.allBytes (c :: cs) = c.bytes ++ Chunk.allBytes cs := rfl
      rw [hsplit, List.length_append, Chunk.length_bytes] at hlength hdone
      by_cases hshort : q.length < 8
      · exact readChunks_short (by omega) hshort
      cases fuel with
      | zero => exact readChunks_zero (by omega)
      | succ fuel =>
          have hfront : (c.marker ++ Bytes.ofNat 4 c.body.length).length = 8 := by
            simp [c.marker_length]
          have hbytes : Chunk.allBytes (c :: cs) ++ t = (c.marker ++ Bytes.ofNat 4 c.body.length) ++
              (c.body ++ (c.padding ++ (Chunk.allBytes cs ++ t))) := by
            simp only [hsplit, Chunk.bytes, List.append_assoc]
          rw [hbytes] at hq
          obtain ⟨tail, rfl, htail⟩ := exists_append_of_prefix hq (by omega)
          rw [List.length_append, hfront] at hlength
          rw [List.append_assoc, readChunks_head c.marker_length c.body_length (by omega)]
          cases m.addChunk c.marker (tail.take c.body.length) with
          | error e => exact ⟨e, _, rfl⟩
          | ok m' =>
              -- A cut in this chunk leaves nothing for the next one.
              have hrest := htail.drop (padded c.body.length)
              rw [drop_padded] at hrest
              exact ih hrest (by simp only [List.length_drop]; omega) (by omega)

/-- Data that are read and announce their length are whole chunks and a last one, of which the rest of the data is as
much as there is. -/
theorem exists_chunks (h : readChunks none size fuel done m s = .ok m' rest) (hdone : done < size)
    (hsize : done + s.length = size) :
    ∃ cs marker n tail, s = Chunk.allBytes cs ++ (marker ++ (Bytes.ofNat 4 n ++ tail)) ∧
      marker.length = 4 ∧ n < 256 ^ 4 ∧ tail.length ≤ padded n := by
  induction fuel generalizing done m s with
  | zero =>
      obtain ⟨e, u, hfail⟩ := readChunks_zero (m := m) (s := s) hdone
      simp [hfail] at h
  | succ fuel ih =>
      have hlength : 8 ≤ s.length := by
        by_contra hshort
        obtain ⟨e, u, hfail⟩ := readChunks_short (m := m) hdone (Nat.lt_of_not_le hshort)
        rw [hfail] at h
        cases h
      obtain ⟨marker, n, tail, rfl, hmarker, hn⟩ := exists_head hlength
      by_cases hlast : tail.length ≤ padded n
      · exact ⟨[], marker, n, tail, rfl, hmarker, hn, hlast⟩
      have hle := le_padded n
      simp only [List.length_append, hmarker, Bytes.length_ofNat] at hsize
      rw [readChunks_head hmarker hn hdone] at h
      cases hadd : m.addChunk marker (tail.take n) with
      | error e => simp [hadd] at h
      | ok m₁ =>
          simp only [hadd] at h
          obtain ⟨cs, marker', n', tail', hcs, hmarker', hn', hlast'⟩ :=
            ih h (by omega) (by simp only [List.length_drop]; omega)
          have hbody : (tail.take n).length = n := by
            simp only [List.length_take]
            omega
          let c : Chunk :=
            { marker, body := tail.take n, padding := (tail.drop n).take (padded n - n),
              marker_length := hmarker, body_length := by rwa [hbody]
              padding_length := by
                rw [hbody]
                simp only [List.length_take, List.length_drop]
                omega }
          have hskip : (tail.drop n).drop (padded n - n) = tail.drop (padded n) := by
            rw [List.drop_drop, Nat.add_sub_cancel' hle]
          have hc : marker ++ (Bytes.ofNat 4 n ++ tail) = c.bytes ++ tail.drop (padded n) := by
            simp only [Chunk.bytes, c, hbody, List.append_assoc, ← hskip, List.take_append_drop]
          refine ⟨c :: cs, marker', n', tail', ?_, hmarker', hn', hlast'⟩
          rw [hc, hcs, Chunk.allBytes, Chunk.allBytes, List.flatMap_cons, List.append_assoc]

end Walk

/-! ## Files -/

theorem header_of_headerSize? {b : Bytes} {size : Nat} (h : headerSize? b = some size) :
    b = header size ∧ size < 256 ^ 4 := by
  unfold headerSize? at h
  split at h
  · next hb =>
    obtain ⟨hlength, hfirst, hlast⟩ := hb
    have hfield : ((b.drop 4).take 4).length = 4 := by
      simp only [List.length_take, List.length_drop, hlength, headerLength]
      omega
    have hlt := Bytes.toNat_lt ((b.drop 4).take 4)
    rw [hfield] at hlt
    rw [← Option.some.inj h]
    refine ⟨?_, hlt⟩
    have hrest : (b.drop 4).take 4 ++ Bytes.ofAscii "BEAM" = b.drop 4 := by
      rw [← hlast, ← List.drop_drop (i := 4) (j := 4), List.take_append_drop]
    rw [header, Bytes.ofNat_toNat hfield, hrest, ← hfirst, List.take_append_drop]
  · simp at h

/-- Behind a header the chunks are read. -/
theorem read_header {size : Nat} (hsize : size + 4 < 256 ^ 4) (s : Bytes) :
    read none (header (size + 4) ++ s) = readChunks none size s.length 0 {} s := by
  have hint : ((size + 4 : Nat) : Int) - 4 = size := by omega
  rw [read, (reads_available (length_header _)).bind_append, headerSize?_header hsize]
  simp only [hint]

theorem read_fails_of_short {p : Bytes} (hp : p.length < headerLength) : (read none p).Fails := by
  have hnone : headerSize? (p.take headerLength) = none := by
    rw [headerSize?, if_neg]
    rintro ⟨hlength, -⟩
    simp only [List.length_take] at hlength
    omega
  refine ⟨.unknownFormat, p.drop headerLength, ?_⟩
  rw [read, Reader.bind_apply]
  simp only [available, Reader.upTo, hnone, Reader.fail]

/-- The last chunk of a file: the chunks in front of it, its marker, the length of its body, and the bytes that follow
its length. -/
structure LastChunk where
  chunks : List Chunk
  marker : Bytes
  length : Nat
  tail : Bytes
  marker_length : marker.length = 4
  length_lt : length < 256 ^ 4

namespace LastChunk

/-- A file up to the body of its last chunk, where `size` is the length in the header. -/
def front (l : LastChunk) (size : Nat) : Bytes :=
  header size ++ (Chunk.allBytes l.chunks ++ (l.marker ++ Bytes.ofNat 4 l.length))

/-- The body, as far as it is there. -/
def body (l : LastChunk) : Bytes :=
  l.tail.take l.length

/-- The file `b` ends with the chunk, and its header has the length `size`. -/
structure Ends (l : LastChunk) (b : Bytes) (size : Nat) : Prop where
  eq : b = l.front size ++ l.tail
  length_tail : l.tail.length ≤ padded l.length

theorem length_front (l : LastChunk) (size : Nat) :
    (l.front size).length = (Chunk.allBytes l.chunks).length + 20 := by
  simp only [front, List.length_append, length_header, l.marker_length, Bytes.length_ofNat, headerLength]
  omega

/-- A piece that is shorter than the body is shorter than announced. -/
theorem take_of_lt_body {l : LastChunk} {cut : Bytes} (h : cut.length < l.body.length) : cut.take l.length = cut := by
  rw [body, List.length_take] at h
  exact List.take_of_length_le (by omega)

end LastChunk

section Cut

variable {b p : Bytes} {m : Module} {size : Nat}

/-- A file that is read and as long as its header says has chunks, if there is anything behind the header. -/
theorem exists_lastChunk (hb : parse b = .ok m) (hsize : headerSize? (b.take headerLength) = some size)
    (hlength : b.length = size + 8) (hmore : headerLength < b.length) : ∃ l : LastChunk, l.Ends b size := by
  obtain ⟨hheader, hlt⟩ := header_of_headerSize? hsize
  obtain ⟨k, rfl⟩ : ∃ k, size = k + 4 := ⟨size - 4, by simp only [headerLength] at hmore; omega⟩
  have hsplit : b = header (k + 4) ++ b.drop headerLength := by
    rw [← hheader, List.take_append_drop]
  have hk : (b.drop headerLength).length = k := by
    simp only [List.length_drop, headerLength]
    omega
  obtain ⟨rest, hread⟩ := Reader.exists_of_run_eq_ok hb
  rw [hsplit, read_header hlt] at hread
  obtain ⟨cs, marker, n, tail, hcs, hmarker, hn, hlast⟩ :=
    exists_chunks hread (by simp only [headerLength] at hmore; omega) (by omega)
  refine ⟨⟨cs, marker, n, tail, hmarker, hn⟩, ?_, hlast⟩
  rw [LastChunk.front, List.append_assoc, List.append_assoc, List.append_assoc, ← hcs]
  exact hsplit

/-- The chunks in front of the last one fix what the file is read as, given the body of the last one. -/
theorem exists_parse_front (hb : parse b = .ok m) (hlength : b.length = size + 8) (hlt : size < 256 ^ 4)
    {l : LastChunk} (hl : l.Ends b size) :
    ∃ m₀ : Module, m₀.addChunk l.marker l.body = .ok m ∧
      ∀ tail, parse (l.front size ++ tail) = m₀.addChunk l.marker (tail.take l.length) := by
  have htotal := congrArg List.length hl.eq
  have htail := hl.length_tail
  have hle := Chunk.length_le_allBytes l.chunks
  rw [List.length_append, LastChunk.length_front] at htotal
  obtain ⟨k, rfl⟩ : ∃ k, size = k + 4 := ⟨size - 4, by omega⟩
  have hfront : ∀ tail, l.front (k + 4) ++ tail =
      header (k + 4) ++ (Chunk.allBytes l.chunks ++ (l.marker ++ (Bytes.ofNat 4 l.length ++ tail))) := by
    intro tail
    simp only [LastChunk.front, List.append_assoc]
  obtain ⟨rest, hread⟩ := Reader.exists_of_run_eq_ok hb
  rw [hl.eq, hfront, read_header hlt] at hread
  obtain ⟨m₀, hm₀⟩ := readChunks_allBytes (by omega) hread
  have hparse : ∀ tail, parse (l.front (k + 4) ++ tail) = m₀.addChunk l.marker (tail.take l.length) := by
    intro tail
    obtain ⟨fuel, hfuel⟩ : ∃ fuel, (Chunk.allBytes l.chunks ++
        (l.marker ++ (Bytes.ofNat 4 l.length ++ tail))).length = fuel + 1 + l.chunks.length := by
      refine ⟨(Chunk.allBytes l.chunks).length - l.chunks.length + 7 + tail.length, ?_⟩
      simp only [List.length_append, l.marker_length, Bytes.length_ofNat]
      omega
    rw [parse, Reader.run, hfront, read_header hlt, hfuel, hm₀,
      readChunks_head l.marker_length l.length_lt (by omega)]
    cases m₀.addChunk l.marker (tail.take l.length) with
    | error e => rfl
    | ok m' =>
        have hdone : ¬ ((0 + (Chunk.allBytes l.chunks).length + (8 + padded l.length) : Nat) : Int) < k := by
          omega
        simp only [readChunks_done hdone]
  exact ⟨m₀, by rw [LastChunk.body, ← hparse, ← hl.eq, hb], hparse⟩

/-- A file that is cut in front of the body of its last chunk is not read. -/
theorem parse_cut_front (hlength : b.length = size + 8) (hlt : size < 256 ^ 4) {l : LastChunk} (hl : l.Ends b size)
    (hp : p <+: b) (hshort : p.length < (l.front size).length) : ∃ e, parse p = .error e := by
  apply run_eq_error_of_fails
  by_cases hheader : p.length < headerLength
  · exact read_fails_of_short hheader
  have htotal := congrArg List.length hl.eq
  rw [List.length_append, LastChunk.length_front] at htotal
  rw [LastChunk.length_front] at hshort
  obtain ⟨k, rfl⟩ : ∃ k, size = k + 4 := ⟨size - 4, by omega⟩
  have hfile : b = header (k + 4) ++
      (Chunk.allBytes l.chunks ++ (l.marker ++ Bytes.ofNat 4 l.length ++ l.tail)) := by
    rw [hl.eq]
    simp only [LastChunk.front, List.append_assoc]
  rw [hfile] at hp
  obtain ⟨q, rfl, hq⟩ := exists_append_of_prefix hp (by rw [length_header]; omega)
  rw [List.length_append, length_header, headerLength] at hshort
  rw [read_header hlt]
  exact readChunks_cut l.chunks hq (by omega) (by omega)

/-- Where a body ends early, the reader of its kind decides: the chunk is not read, or read as the whole body, or it is
one of the kinds whose reader takes the shorter body for another one. -/
theorem addChunk_cut {m₀ : Module} {marker body cut : Bytes} (h : m₀.addChunk marker body = .ok m)
    (hcut : cut <+: body) :
    (∃ e, m₀.addChunk marker cut = .error e) ∨ m₀.addChunk marker cut = .ok m ∨
      ∃ kind, ∃ c : kind.Content, ChunkKind.ofMarker? marker = some kind ∧ kind ∈ ChunkKind.openEnded ∧
        kind.parse cut = .ok c ∧ kind.parse body ≠ .ok c := by
  obtain ⟨more, rfl⟩ := hcut
  unfold addChunk at h ⊢
  cases hkind : ChunkKind.ofMarker? marker with
  | none =>
      simp only [hkind] at h
      exact .inr (.inl h)
  | some kind =>
      simp only [hkind, setChunk_eq] at h ⊢
      cases hparse : kind.parse cut with
      | error e => exact .inl ⟨e, rfl⟩
      | ok c =>
          by_cases hsame : kind.parse (cut ++ more) = .ok c
          · rw [hsame] at h
            exact .inr (.inl h)
          · by_cases hopen : kind ∈ ChunkKind.openEnded
            · exact .inr (.inr ⟨kind, c, rfl, hopen, hparse, hsame⟩)
            · exact absurd (ChunkKind.parse_append hopen hparse more) hsame

/-- A shorter body that is read as something else makes another module. -/
theorem addChunk_ne {m₀ : Module} {marker body cut : Bytes} {kind : ChunkKind} {c : kind.Content}
    (h : m₀.addChunk marker body = .ok m) (hkind : ChunkKind.ofMarker? marker = some kind)
    (hcut : kind.parse cut = .ok c) (hbody : kind.parse body ≠ .ok c) :
    ∃ m', m₀.addChunk marker cut = .ok m' ∧ m' ≠ m := by
  unfold addChunk at h ⊢
  simp only [hkind, setChunk_eq] at h ⊢
  refine ⟨m₀.fill kind c, by rw [hcut]; rfl, ?_⟩
  rintro rfl
  cases hparse : kind.parse body with
  | error e => simp [hparse, Except.map] at h
  | ok d =>
      simp only [hparse, Except.map, Except.ok.injEq] at h
      have hslot := congrArg (fun m => m.slot kind) h
      simp only [slot_fill_self, Option.some.injEq] at hslot
      exact hbody (by rw [hparse, hslot])

/-- A file that is cut short is not read, or read as the whole file, unless the cut is in the body of its last chunk
and the reader of this chunk takes what is left of the body for something else. -/
theorem parse_cut_iff (hb : parse b = .ok m) (hsize : headerSize? (b.take headerLength) = some size)
    (hlength : b.length = size + 8) (hp : p <+: b) (hne : p ≠ b) :
    ((∃ e, parse p = .error e) ∨ parse p = .ok m) ↔
      ¬ ∃ (l : LastChunk) (cut : Bytes) (kind : ChunkKind) (c : kind.Content), l.Ends b size ∧
        p = l.front size ++ cut ∧ cut.length < l.body.length ∧ ChunkKind.ofMarker? l.marker = some kind ∧
        kind ∈ ChunkKind.openEnded ∧ kind.parse cut = .ok c ∧ kind.parse l.body ≠ .ok c := by
  have hlt := (header_of_headerSize? hsize).2
  constructor
  · rintro hshort ⟨l, cut, kind, c, hl, rfl, hcut, hkind, -, hparse, hbody⟩
    obtain ⟨m₀, hwhole, hm₀⟩ := exists_parse_front hb hlength hlt hl
    obtain ⟨m', hm', hother⟩ := addChunk_ne hwhole hkind hparse hbody
    rw [hm₀, LastChunk.take_of_lt_body hcut, hm'] at hshort
    rcases hshort with ⟨e, he⟩ | hsame
    · cases he
    · exact hother (Except.ok.inj hsame)
  · intro hno
    by_cases hheader : p.length < headerLength
    · exact .inl (run_eq_error_of_fails (read_fails_of_short hheader))
    have hshorter : p.length < b.length :=
      Nat.lt_of_le_of_ne hp.length_le fun heq => hne (hp.eq_of_length heq)
    obtain ⟨l, hl⟩ := exists_lastChunk hb hsize hlength (by omega)
    by_cases hfront : p.length < (l.front size).length
    · exact .inl (parse_cut_front hlength hlt hl hp hfront)
    obtain ⟨m₀, hwhole, hm₀⟩ := exists_parse_front hb hlength hlt hl
    rw [hl.eq] at hp
    obtain ⟨cut, rfl, hcut⟩ := exists_append_of_prefix hp (Nat.le_of_not_lt hfront)
    have htake : cut.take l.length <+: l.body := hcut.take l.length
    rw [hm₀]
    by_cases hinside : cut.length < l.body.length
    · rw [LastChunk.take_of_lt_body hinside] at htake ⊢
      rcases addChunk_cut hwhole htake with herror | hsame | ⟨kind, c, hkind, hopen, hparse, hbody⟩
      · exact .inl herror
      · exact .inr hsame
      · exact absurd ⟨l, cut, kind, c, hl, rfl, hinside, hkind, hopen, hparse, hbody⟩ hno
    · have hsame : cut.take l.length = l.body := by
        refine htake.eq_of_length_le ?_
        simp only [LastChunk.body, List.length_take] at hinside ⊢
        omega
      rw [hsame]
      exact .inr hwhole

end Cut

/-- A file of one chunk of code, with two instructions. -/
def twoInstructions : Bytes :=
  encodeFile [(Bytes.ofAscii "Code", List.replicate 20 0 ++ [1, 0x10, 19])]

/-- The number of instructions in a module, if it has code. -/
def codeLength (m : Module) : Option Nat :=
  m.code.map List.length

theorem codeLength_twoInstructions :
    (parse twoInstructions).map codeLength = .ok (some 2) ∧
      (parse (twoInstructions.take 42)).map codeLength = .ok (some 1) := by
  constructor <;> rfl

theorem exists_of_map_codeLength {b : Bytes} {n : Nat} (h : (parse b).map codeLength = .ok (some n)) :
    ∃ m, parse b = .ok m ∧ codeLength m = some n := by
  cases hparse : parse b with
  | error e => simp [hparse, Except.map] at h
  | ok m =>
      simp only [hparse, Except.map, Except.ok.injEq] at h
      exact ⟨m, rfl, h⟩

/-- Without its last two bytes, an instruction and the padding behind it, the file is read as another module. -/
theorem parse_cut_loses_instruction :
    ∃ m m', parse twoInstructions = .ok m ∧ headerSize? (twoInstructions.take headerLength) = some 36 ∧
      twoInstructions.length = 36 + 8 ∧ twoInstructions.take 42 <+: twoInstructions ∧
      parse (twoInstructions.take 42) = .ok m' ∧ codeLength m = some 2 ∧ codeLength m' = some 1 ∧ m'.code ≠ m.code := by
  obtain ⟨m, hm, hcode⟩ := exists_of_map_codeLength codeLength_twoInstructions.1
  obtain ⟨m', hm', hcode'⟩ := exists_of_map_codeLength codeLength_twoInstructions.2
  refine ⟨m, m', hm, rfl, rfl, List.take_prefix _ _, hm', hcode, hcode', ?_⟩
  intro heq
  rw [codeLength, heq, ← codeLength, hcode] at hcode'
  simp at hcode'

/-- The cut in this file is in the body of its last chunk. -/
theorem parse_cut_iff_twoInstructions :
    ∃ m, parse twoInstructions = .ok m ∧ headerSize? (twoInstructions.take headerLength) = some 36 ∧
      twoInstructions.length = 36 + 8 ∧ twoInstructions.take 42 ≠ twoInstructions ∧
      ∃ (l : LastChunk) (cut : Bytes) (kind : ChunkKind) (c : kind.Content), l.Ends twoInstructions 36 ∧
        twoInstructions.take 42 = l.front 36 ++ cut ∧ cut.length < l.body.length ∧
        ChunkKind.ofMarker? l.marker = some kind ∧ kind ∈ ChunkKind.openEnded ∧ kind.parse cut = .ok c ∧
        kind.parse l.body ≠ .ok c := by
  obtain ⟨m, hm, hcode⟩ := exists_of_map_codeLength codeLength_twoInstructions.1
  obtain ⟨m', hm', hcode'⟩ := exists_of_map_codeLength codeLength_twoInstructions.2
  have hsize : headerSize? (twoInstructions.take headerLength) = some 36 := rfl
  have hlength : twoInstructions.length = 36 + 8 := rfl
  have hne : twoInstructions.take 42 ≠ twoInstructions := by
    intro heq
    simpa [hlength] using congrArg List.length heq
  refine ⟨m, hm, hsize, hlength, hne, ?_⟩
  by_contra hno
  rcases (parse_cut_iff hm hsize hlength (List.take_prefix _ _) hne).mpr hno with ⟨e, he⟩ | hsame
  · rw [hm'] at he
    cases he
  · rw [hm', Except.ok.injEq] at hsame
    rw [hsame, hcode] at hcode'
    simp at hcode'

end Module

end BeamDisasm

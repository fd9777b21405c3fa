import BeamDisasm.Module.Encode
import BeamDisasm.Proofs.Reader
import Mathlib.Data.List.Induction

/-!
# Module files are read chunk by chunk

A file of chunks is read by handing each body, without its padding, to the reader of its kind, in the order of the
file. The first reader that fails stops the reading with its fault. When none does, the file is consumed exactly
and every slot holds what the last chunk of its kind was read as.

Chunks of all kinds go through one step. `ChunkKind.parse` is the reader of a kind, and the slots of a module are
addressed by kinds, so that the seven cases of `setChunk` are looked at once.
-/
namespace BeamDisasm

open Reader (Reads reads_upTo)

namespace ChunkKind

/-- What the body of a chunk is read as. -/
def Content : ChunkKind → Type
  | .lines => LineTable
  | .atoms => AtomTable
  | .imports => List ImportEntry
  | .exports => List ExportEntry
  | .functions => List FunctionEntry
  | .literals => LiteralTable
  | .code => List Instruction

/-- The reader of the bodies of a kind. -/
def parse : (kind : ChunkKind) → Bytes → Except Fault kind.Content
  | .lines, b => LineTable.read.run b
  | .atoms, b => AtomTable.read.run b
  | .imports, b => (countedEntries ImportEntry.read).run b
  | .exports, b => (countedEntries ExportEntry.read).run b
  | .functions, b => (countedEntries FunctionEntry.read).run b
  | .literals, b => LiteralTable.parse b
  | .code, b => Code.read.run b

/-- Two markers announce atoms. -/
theorem ofMarker?_eq_atoms_iff (marker : Bytes) :
    ofMarker? marker = some .atoms ↔ marker = Bytes.ofAscii "Atom" ∨ marker = Bytes.ofAscii "AtU8" := by
  constructor
  · intro h
    obtain ⟨before, after, heq, -⟩ := List.lookup_eq_some_iff.mp h
    have hmem : (marker, ChunkKind.atoms) ∈ markers := by simp [heq]
    simpa [markers] using hmem
  · rintro (rfl | rfl) <;> rfl

end ChunkKind

namespace Module

/-! ## Slots -/

/-- The slot of a kind. -/
def slot (m : Module) : (kind : ChunkKind) → Option kind.Content
  | .lines => m.lines
  | .atoms => m.atoms
  | .imports => m.imports
  | .exports => m.exports
  | .functions => m.functions
  | .literals => m.literals
  | .code => m.code

/-- The module with the slot of a kind filled. -/
def fill (m : Module) : (kind : ChunkKind) → kind.Content → Module
  | .lines, a => { m with lines := some a }
  | .atoms, a => { m with atoms := some a }
  | .imports, a => { m with imports := some a }
  | .exports, a => { m with exports := some a }
  | .functions, a => { m with functions := some a }
  | .literals, a => { m with literals := some a }
  | .code, a => { m with code := some a }

@[simp] theorem slot_empty (kind : ChunkKind) : slot {} kind = none := by
  cases kind <;> rfl

@[simp] theorem slot_fill_self (m : Module) (kind : ChunkKind) (a : kind.Content) :
    (m.fill kind a).slot kind = some a := by
  cases kind <;> rfl

theorem slot_fill_of_ne (m : Module) {kind other : ChunkKind} (a : kind.Content) (h : other ≠ kind) :
    (m.fill kind a).slot other = m.slot other := by
  cases kind <;> cases other <;> simp_all [slot, fill] <;> rfl

/-- A chunk is read by the reader of its kind, and fills the slot of its kind. -/
theorem setChunk_eq (m : Module) (kind : ChunkKind) (body : Bytes) :
    m.setChunk kind body = (kind.parse body).map (m.fill kind) := by
  cases kind <;> rfl

/-! ## Chunks -/

/-- Why a chunk cannot be read. Chunks of no kind are never looked at. -/
def chunkFault? (chunk : Bytes × Bytes) : Option Fault :=
  match ChunkKind.ofMarker? chunk.1 with
  | none => none
  | some kind => match kind.parse chunk.2 with
    | .ok _ => none
    | .error e => some e

/-- What the last of the chunks of a kind is read as. -/
def lastOf (kind : ChunkKind) (chunks : List (Bytes × Bytes)) : Option kind.Content := do
  let chunk ← (chunks.filter fun c => ChunkKind.ofMarker? c.1 = some kind).getLast?
  (kind.parse chunk.2).toOption

/-- The module with the chunks of a list, one after the other. -/
def addChunks (m : Module) (chunks : List (Bytes × Bytes)) : Except Fault Module :=
  chunks.foldlM (fun m c => m.addChunk c.1 c.2) m

theorem addChunk_of_fault {m : Module} {c : Bytes × Bytes} {e : Fault} (h : chunkFault? c = some e) :
    m.addChunk c.1 c.2 = .error e := by
  unfold chunkFault? at h
  unfold addChunk
  cases hkind : ChunkKind.ofMarker? c.1 with
  | none => simp [hkind] at h
  | some kind =>
      simp only [hkind] at h ⊢
      rw [setChunk_eq]
      cases hparse : kind.parse c.2 with
      | ok a => simp [hparse] at h
      | error e' =>
          simp only [hparse, Option.some.injEq] at h
          rw [h]
          rfl

/-- A chunk that can be read fills the slot of its kind. -/
theorem addChunk_of_parse (marker : Bytes) (kind : ChunkKind) {body : Bytes} {a : kind.Content}
    (hmarker : ChunkKind.ofMarker? marker = some kind) (hbody : kind.parse body = .ok a) (m : Module) :
    m.addChunk marker body = .ok (m.fill kind a) := by
  rw [addChunk, hmarker]
  simp only [setChunk_eq, hbody]
  rfl

/-- A chunk that can be read changes the slot of its kind and no other. -/
theorem addChunk_of_no_fault {c : Bytes × Bytes} (h : chunkFault? c = none) (m : Module) :
    ∃ m', m.addChunk c.1 c.2 = .ok m' ∧ ∀ kind, m'.slot kind =
      if ChunkKind.ofMarker? c.1 = some kind then (kind.parse c.2).toOption else m.slot kind := by
  unfold chunkFault? at h
  unfold addChunk
  cases hkind : ChunkKind.ofMarker? c.1 with
  | none => exact ⟨m, rfl, fun kind => by simp⟩
  | some kind =>
      simp only [hkind] at h ⊢
      cases hparse : kind.parse c.2 with
      | error e => simp [hparse] at h
      | ok a =>
          refine ⟨m.fill kind a, by rw [setChunk_eq, hparse]; rfl, ?_⟩
          intro other
          by_cases hother : other = kind
          · subst hother
            simp [hparse, Except.toOption]
          · rw [slot_fill_of_ne m a hother, if_neg fun heq => hother (Option.some.inj heq).symm]

/-- Chunks that can all be read fill each slot with the last of its kind. -/
theorem addChunks_of_no_fault {chunks : List (Bytes × Bytes)} (h : ∀ c ∈ chunks, chunkFault? c = none) :
    ∃ m, addChunks {} chunks = .ok m ∧ ∀ kind, m.slot kind = lastOf kind chunks := by
  induction chunks using List.reverseRecOn with
  | nil => exact ⟨{}, rfl, fun kind => slot_empty kind⟩
  | append_singleton chunks c ih =>
      obtain ⟨m, hm, hslots⟩ := ih fun d hd => h d (by simp [hd])
      obtain ⟨m', hm', hslots'⟩ := addChunk_of_no_fault (h c (by simp)) m
      refine ⟨m', ?_, ?_⟩
      · rw [addChunks] at hm ⊢
        rw [List.foldlM_append, hm]
        change (m.addChunk c.1 c.2 >>= pure) = _
        rw [hm']
        rfl
      · intro kind
        rw [hslots', lastOf, List.filter_append]
        by_cases hkind : ChunkKind.ofMarker? c.1 = some kind
        · simp [hkind]
        · simp [hkind, hslots, lastOf]

/-! ## Reading -/

theorem le_padded (n : Nat) : n ≤ padded n := by
  unfold padded
  omega

theorem reads_available {n : Nat} {b : Bytes} (h : b.length = n) : Reads (available none n) b b :=
  reads_upTo h

theorem reads_chunkLength {n : Nat} (h : n < 256 ^ 4) :
    Reads (chunkLength none) (Bytes.ofNat 4 n) n := by
  refine (reads_available (Bytes.length_ofNat 4 n)).bind_nil ?_
  rw [if_pos (Bytes.length_ofNat 4 n), Bytes.toNat_ofNat h]
  exact Reader.reads_pure n

/-- A chunk takes its marker, its length and its padded body. -/
theorem length_encodeChunk {marker : Bytes} (h : marker.length = 4) (body : Bytes) :
    (encodeChunk marker body).length = 8 + padded body.length := by
  have hle := le_padded body.length
  simp only [encodeChunk, List.length_append, h, Bytes.length_ofNat, List.length_replicate]
  omega

/-- The zero bytes behind the body of a chunk. -/
def padding (body : Bytes) : Bytes :=
  List.replicate (padded body.length - body.length) 0

section Walk

variable {size : Int} {fuel done : Nat} {m : Module} {c : Bytes × Bytes}

/-- One chunk is read and handed over; then its padding is skipped and the reading goes on. -/
theorem readChunks_step (hmarker : c.1.length = 4) (hbody : c.2.length < 256 ^ 4)
    (hdone : (done : Int) < size) (s : Bytes) :
    readChunks none size (fuel + 1) done m (encodeChunk c.1 c.2 ++ s) =
      match m.addChunk c.1 c.2 with
      | .ok m' => readChunks none size fuel (done + (encodeChunk c.1 c.2).length) m' s
      | .error e => .fail e (padding c.2 ++ s) := by
  have hpad : (padding c.2).length = padded c.2.length - c.2.length := List.length_replicate
  rw [length_encodeChunk hmarker, encodeChunk, readChunks, if_pos hdone, List.append_assoc,
    (reads_available hmarker).bind_append, List.append_assoc, (reads_chunkLength hbody).bind_append,
    List.append_assoc, (reads_available rfl).bind_append, Reader.bind_apply]
  cases m.addChunk c.1 c.2 with
  | error e => rfl
  | ok m' => exact (reads_available hpad).bind_append _ s

/-- The reading is over when all bytes of the chunks have been read. -/
theorem readChunks_done (hdone : ¬ (done : Int) < size) (s : Bytes) :
    readChunks none size fuel done m s = .ok m s := by
  cases fuel with
  | zero => rw [readChunks, if_neg hdone]; rfl
  | succ fuel => rw [readChunks, if_neg hdone]; rfl

/-- Chunks that can all be read are gone through one by one. -/
theorem readChunks_encodeChunks {chunks : List (Bytes × Bytes)} {m' : Module}
    (hmarkers : ∀ c ∈ chunks, c.1.length = 4) (hbodies : ∀ c ∈ chunks, c.2.length < 256 ^ 4)
    (hsize : (done + (encodeChunks chunks).length : Nat) ≤ size) (hadd : addChunks m chunks = .ok m')
    (s : Bytes) :
    readChunks none size (fuel + chunks.length) done m (encodeChunks chunks ++ s) =
      readChunks none size fuel (done + (encodeChunks chunks).length) m' s := by
  induction chunks generalizing m done with
  | nil =>
      have hm : m = m' := by simpa [addChunks, pure, Except.pure] using hadd
      subst hm
      rfl
  | cons c cs ih =>
      have hmarker := hmarkers c (by simp)
      have hlength := length_encodeChunk hmarker c.2
      have hsplit : encodeChunks (c :: cs) = encodeChunk c.1 c.2 ++ encodeChunks cs := rfl
      rw [hsplit, List.length_append] at hsize ⊢
      cases hc : m.addChunk c.1 c.2 with
      | error e => simp [addChunks, List.foldlM_cons, hc, bind, Except.bind] at hadd
      | ok m₁ =>
          have hadd' : addChunks m₁ cs = .ok m' := by
            simpa [addChunks, List.foldlM_cons, hc, bind, Except.bind] using hadd
          rw [List.append_assoc, List.length_cons, ← Nat.add_assoc,
            readChunks_step hmarker (hbodies c (by simp)) (by omega), hc, ← Nat.add_assoc]
          exact ih (fun d hd => hmarkers d (by simp [hd])) (fun d hd => hbodies d (by simp [hd]))
            (by omega) hadd'

end Walk

/-- Every chunk takes at least its marker. -/
theorem length_le_encodeChunks {chunks : List (Bytes × Bytes)} (h : ∀ c ∈ chunks, c.1.length = 4) :
    chunks.length ≤ (encodeChunks chunks).length := by
  induction chunks with
  | nil => simp
  | cons c cs ih =>
      have hcs := ih fun d hd => h d (by simp [hd])
      have hc := length_encodeChunk (h c (by simp)) c.2
      have hsplit : encodeChunks (c :: cs) = encodeChunk c.1 c.2 ++ encodeChunks cs := rfl
      rw [hsplit, List.length_append, List.length_cons]
      omega

/-- The body of a chunk is no longer than all of the chunks. -/
theorem length_body_le {chunks : List (Bytes × Bytes)} {c : Bytes × Bytes} (hc : c ∈ chunks) :
    c.2.length ≤ (encodeChunks chunks).length := by
  have hpart : (encodeChunk c.1 c.2).length ≤ (encodeChunks chunks).length :=
    (List.sublist_flatten_of_mem
      (List.mem_map_of_mem (f := fun c => encodeChunk c.1 c.2) hc)).length_le
  simp only [encodeChunk, List.length_append] at hpart
  omega

/-- A header with the length field `n`. -/
def header (n : Nat) : Bytes :=
  Bytes.ofAscii "FOR1" ++ (Bytes.ofNat 4 n ++ Bytes.ofAscii "BEAM")

theorem length_header (n : Nat) : (header n).length = headerLength := by
  simp only [header, List.length_append, Bytes.length_ofNat]
  rfl

theorem headerSize?_header {n : Nat} (h : n < 256 ^ 4) : headerSize? (header n) = some n := by
  have htake : (header n).take 4 = Bytes.ofAscii "FOR1" := List.take_left' rfl
  have hrest : (header n).drop 4 = Bytes.ofNat 4 n ++ Bytes.ofAscii "BEAM" := List.drop_left' rfl
  have hdrop : (header n).drop 8 = Bytes.ofAscii "BEAM" := by
    rw [← List.drop_drop (i := 4) (j := 4), hrest]
    exact List.drop_left' (Bytes.length_ofNat 4 n)
  have hfield : ((header n).drop 4).take 4 = Bytes.ofNat 4 n := by
    rw [hrest]
    exact List.take_left' (Bytes.length_ofNat 4 n)
  rw [headerSize?, if_pos ⟨length_header n, htake, hdrop⟩, hfield, Bytes.toNat_ofNat h]

/-- A file can be written when its length fits its field. -/
theorem encodeFile_eq_ok_iff {chunks : List (Bytes × Bytes)} {b : Bytes} :
    encodeFile? chunks = .ok b ↔ (encodeChunks chunks).length + 4 < 256 ^ 4 ∧ encodeFile chunks = b := by
  rw [encodeFile?]
  split
  · next h => simp [h]
  · next h => simp [h]

/-- Behind the header of a file its chunks are read, with fuel for their bytes. -/
theorem read_encodeFile_eq {chunks : List (Bytes × Bytes)}
    (hsize : (encodeChunks chunks).length + 4 < 256 ^ 4) (rest : Bytes) :
    read none (encodeFile chunks ++ rest) =
      readChunks none (encodeChunks chunks).length (encodeChunks chunks ++ rest).length 0 {}
        (encodeChunks chunks ++ rest) := by
  have hsplit : encodeFile chunks ++ rest =
      header ((encodeChunks chunks).length + 4) ++ (encodeChunks chunks ++ rest) := by
    simp only [encodeFile, header, List.append_assoc]
  have hint : (((encodeChunks chunks).length + 4 : Nat) : Int) - 4 = (encodeChunks chunks).length := by
    omega
  rw [hsplit, read, (reads_available (length_header _)).bind_append, headerSize?_header hsize]
  simp only [hint]

/-- Chunks at the front that can be read leave the reading at the chunk behind them. -/
theorem read_encodeFile_split {before after : List (Bytes × Bytes)} {m : Module}
    (hmarkers : ∀ c ∈ before ++ after, c.1.length = 4)
    (hsize : (encodeChunks (before ++ after)).length + 4 < 256 ^ 4) (hadd : addChunks {} before = .ok m)
    (rest : Bytes) :
    ∃ fuel, after.length ≤ fuel ∧ read none (encodeFile (before ++ after) ++ rest) =
      readChunks none (encodeChunks (before ++ after)).length fuel (encodeChunks before).length m
        (encodeChunks after ++ rest) := by
  have hsplit : encodeChunks (before ++ after) = encodeChunks before ++ encodeChunks after :=
    List.flatMap_append
  have hlength := congrArg List.length hsplit
  rw [List.length_append] at hlength
  have hcount := length_le_encodeChunks hmarkers
  rw [List.length_append] at hcount
  have hbodies : ∀ c ∈ before, c.2.length < 256 ^ 4 := by
    intro c hc
    have hle := length_body_le (List.mem_append_left after hc)
    omega
  obtain ⟨fuel, hfuel⟩ : ∃ k, (encodeChunks (before ++ after) ++ rest).length = k + before.length :=
    ⟨_, (Nat.sub_add_cancel (by rw [List.length_append]; omega)).symm⟩
  refine ⟨fuel, ?_, ?_⟩
  · rw [List.length_append] at hfuel
    omega
  · have hrun : readChunks none (encodeChunks (before ++ after)).length (fuel + before.length) 0 {}
        (encodeChunks before ++ (encodeChunks after ++ rest)) = _ :=
      readChunks_encodeChunks (fun c hc => hmarkers c (List.mem_append_left after hc)) hbodies
        (by omega) hadd (encodeChunks after ++ rest)
    rw [read_encodeFile_eq hsize, hfuel]
    conv_lhs => rw [hsplit, List.append_assoc]
    rw [← hsplit, hrun, Nat.zero_add]

/-- A file whose chunks can all be read is consumed exactly. -/
theorem read_encodeFile_of_addChunks {chunks : List (Bytes × Bytes)} {m : Module}
    (hmarkers : ∀ c ∈ chunks, c.1.length = 4) (hsize : (encodeChunks chunks).length + 4 < 256 ^ 4)
    (hadd : addChunks {} chunks = .ok m) (rest : Bytes) :
    read none (encodeFile chunks ++ rest) = .ok m rest := by
  rw [← List.append_nil chunks] at hmarkers hsize
  obtain ⟨fuel, -, hread⟩ := read_encodeFile_split hmarkers hsize hadd rest
  have hend : encodeChunks [] ++ rest = rest := rfl
  rwa [List.append_nil, hend, readChunks_done (by omega)] at hread

/-- The first chunk that cannot be read stops the reading behind its body. -/
theorem read_encodeFile_of_fault {before after : List (Bytes × Bytes)} {c : Bytes × Bytes} {e : Fault}
    (hmarkers : ∀ d ∈ before ++ c :: after, d.1.length = 4)
    (hsize : (encodeChunks (before ++ c :: after)).length + 4 < 256 ^ 4)
    (hbefore : ∀ b ∈ before, chunkFault? b = none) (hc : chunkFault? c = some e) (rest : Bytes) :
    read none (encodeFile (before ++ c :: after) ++ rest) =
      .fail e (padding c.2 ++ (encodeChunks after ++ rest)) := by
  obtain ⟨m, hadd, -⟩ := addChunks_of_no_fault hbefore
  obtain ⟨fuel, hfuel, hread⟩ := read_encodeFile_split hmarkers hsize hadd rest
  obtain ⟨fuel, rfl⟩ : ∃ k, fuel = k + 1 := ⟨fuel - 1, by simp at hfuel; omega⟩
  have hmarker := hmarkers c (by simp)
  have hbody : c.2.length ≤ (encodeChunks (before ++ c :: after)).length := length_body_le (by simp)
  have hsplit : encodeChunks (before ++ c :: after) =
      encodeChunks before ++ (encodeChunk c.1 c.2 ++ encodeChunks after) := List.flatMap_append
  have hdone : ((encodeChunks before).length : Int) < (encodeChunks (before ++ c :: after)).length := by
    have hlength := length_encodeChunk hmarker c.2
    rw [hsplit]
    simp only [List.length_append]
    omega
  have hnext : encodeChunks (c :: after) ++ rest =
      encodeChunk c.1 c.2 ++ (encodeChunks after ++ rest) := List.append_assoc ..
  rw [hread, hnext, readChunks_step hmarker (by omega) hdone, addChunk_of_fault hc]

/-- A file of chunks is read by handing the bodies over in order: the first that cannot be read stops the reading
behind it with its fault, and when all can, the file is consumed exactly and every slot holds the last chunk of
its kind. -/
theorem read_encodeFile_append (chunks : List (Bytes × Bytes)) (rest : Bytes)
    (hmarkers : ∀ c ∈ chunks, c.1.length = 4) (hsize : (encodeChunks chunks).length + 4 < 2 ^ 32) :
    (match chunks.findSome? chunkFault? with
    | some e => ∃ before c after, chunks = before ++ c :: after ∧ (∀ b ∈ before, chunkFault? b = none) ∧
        chunkFault? c = some e ∧
        read none (encodeFile chunks ++ rest) = .fail e (padding c.2 ++ (encodeChunks after ++ rest))
    | none => ∃ m, read none (encodeFile chunks ++ rest) = .ok m rest ∧ addChunks {} chunks = .ok m ∧
        ∀ kind, m.slot kind = lastOf kind chunks) ∧
    ∀ marker, ChunkKind.ofMarker? marker = some .atoms ↔
      marker = Bytes.ofAscii "Atom" ∨ marker = Bytes.ofAscii "AtU8" := by
  refine ⟨?_, ChunkKind.ofMarker?_eq_atoms_iff⟩
  cases hfault : chunks.findSome? chunkFault? with
  | none =>
      obtain ⟨m, hadd, hslots⟩ := addChunks_of_no_fault (List.findSome?_eq_none_iff.mp hfault)
      exact ⟨m, read_encodeFile_of_addChunks hmarkers hsize hadd rest, hadd, hslots⟩
  | some e =>
      obtain ⟨before, c, after, rfl, hc, hbefore⟩ := List.findSome?_eq_some_iff.mp hfault
      exact ⟨before, c, after, rfl, hbefore, hc, read_encodeFile_of_fault hmarkers hsize hbefore hc rest⟩

/-- Two tables of atoms, of which the second stays, around a chunk of no kind; the byte behind the file is left. -/
theorem read_encodeFile_two_tables :
    let chunks := [(Bytes.ofAscii "Atom", [0, 0, 0, 1, 1, 97]), (Bytes.ofAscii "Abst", [1, 2, 3]),
      (Bytes.ofAscii "AtU8", [0, 0, 0, 1, 2, 98, 99])]
    (∀ c ∈ chunks, c.1.length = 4) ∧ (encodeChunks chunks).length + 4 < 2 ^ 32 ∧
    ∃ m, read none (encodeFile chunks ++ [9]) = .ok m [9] ∧
      m.slot .atoms = some ⟨[AtomTable.placeholder, [98, 99]]⟩ ∧ m.slot .code = none := by
  intro chunks
  have hmarkers : ∀ c ∈ chunks, c.1.length = 4 := by decide
  have hsize : (encodeChunks chunks).length + 4 < 2 ^ 32 := by decide
  obtain ⟨m, hread, -, hslots⟩ := (read_encodeFile_append chunks [9] hmarkers hsize).1
  exact ⟨hmarkers, hsize, m, hread, hslots .atoms, hslots .code⟩

end Module

end BeamDisasm

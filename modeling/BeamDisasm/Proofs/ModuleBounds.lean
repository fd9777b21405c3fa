import BeamDisasm.Proofs.ModuleFile
import BeamDisasm.Proofs.Steps
import BeamDisasm.Proofs.TermBounds

/-!
# Module files are read in bounded time

The tables of a module announce how many entries follow, and a file announces how many bytes of chunks it has. None
of these numbers bounds the reading, which ends with the data: an entry takes a byte at least, and so does a chunk.
A table that announces more entries than its chunk has bytes is therefore refused.

The main statement puts together what is known of terms, instructions and module files: every loop and every
recursion ends within the number of bytes, and what is read has no more nodes than there were bytes.
-/
namespace BeamDisasm

open Reader

/-! ## Tables -/

namespace LineTable

/-- One round of the reading of references, where `next` makes the rounds that are left. The state is how many are
missing and the current file. -/
def refsRound (files : Nat) (next : (Nat × Int) × Bytes → Outcome (List LineRef)) :
    (Nat × Int) × Bytes → Outcome (List LineRef)
  | ((0, _), s) => .ok [] s
  | ((count + 1, file), s) => (do
      let t ← Term.read
      match t with
      | .integer line => do
        let rs ← resume next (count, file)
        return ⟨file, line⟩ :: rs
      | .atom i =>
        if i = 0 then Reader.fail .unusableKind
        else if i - 1 < files then resume next (count + 1, i - 1)
        else Reader.fail .inconsistent
      | _ => resume next (count + 1, file) : Reader (List LineRef)) s

/-- References are paid by the terms they are read from, and terms that are passed over cost nothing. -/
theorem pays_readRefs (files fuel count : Nat) (file : Int) :
    Pays (readRefs files fuel count file) fun _ => count := by
  induction fuel generalizing count file with
  | zero =>
      cases count with
      | zero => exact pays_pure rfl
      | succ count => exact pays_fail _
  | succ fuel ih =>
      cases count with
      | zero => exact pays_pure rfl
      | succ count =>
          rw [readRefs]
          refine Term.pays_read_one.bind fun t => ?_
          split
          · exact (ih count file).map fun _ => Nat.le_refl _
          · split_ifs
            · exact pays_fail _
            · exact (ih (count + 1) _).mono fun _ => Nat.sub_le _ _
            · exact pays_fail _
          · exact (ih (count + 1) file).mono fun _ => Nat.sub_le _ _

/-- Terms that are passed over are not counted, but the loop ends with the bytes they take. -/
theorem endsWithin_readRefs (files : Nat) :
    EndsWithin (refsRound files) (fun x => x.2.length) fun x => readRefs files x.2.length x.1.1 x.1.2 x.2 := by
  refine endsWithin_of_fuel (F := fun fuel (x : (Nat × Int) × Bytes) => readRefs files fuel x.1.1 x.1.2 x.2)
    (fun fuel => ?_) ?_ ?_
  · funext ⟨⟨count, file⟩, s⟩
    cases count <;> rfl
  · rintro next ⟨⟨count, file⟩, s⟩ hs
    obtain rfl : s = [] := List.length_eq_zero_iff.1 hs
    cases count <;> rfl
  · rintro n k next hnext ⟨⟨count, file⟩, s⟩ hs
    cases count with
    | zero => rfl
    | succ count =>
        refine agreeBelow_bind_succ Term.pays_read Term.nodes_pos (fun t => ?_) s hs
        cases t with
        | integer line =>
            exact agreeBelow_bind (agreeBelow_resume hnext (count, file)) (pays_readRefs files k count file)
              fun _ => agreeBelow_refl _ _ _
        | atom i =>
            dsimp only
            split_ifs
            · exact agreeBelow_refl _ _ _
            · exact agreeBelow_resume hnext _
            · exact agreeBelow_refl _ _ _
        | _ => exact agreeBelow_resume hnext _

theorem pays_fileName : Pays fileName fun _ => 1 :=
  (pays_number 2).bind fun n => (pays_upTo n).map fun _ => by simp

theorem readHeader_eq_ok {b s : Bytes} {counts : Nat × Nat} (h : readHeader b = .ok counts s) :
    counts = (Bytes.toNat ((b.drop 12).take 4), Bytes.toNat ((b.drop 16).take 4)) ∧ s.length ≤ b.length := by
  obtain ⟨front, t, hfront, hcounts⟩ := exists_of_bind_eq_ok h
  obtain ⟨-, rfl, rfl⟩ := exactly_eq_ok hfront
  simp only [pure_apply, Outcome.ok.injEq] at hcounts
  obtain ⟨rfl, rfl⟩ := hcounts
  simp [List.drop_take, List.take_take]

/-- Both counts are at most the number of bytes. -/
theorem counts_le_of_read {b t : Bytes} {table : LineTable} (h : read b = .ok table t) :
    Bytes.toNat ((b.drop 12).take 4) ≤ b.length ∧ Bytes.toNat ((b.drop 16).take 4) ≤ b.length := by
  obtain ⟨counts, s, hheader, hrest⟩ := exists_of_bind_eq_ok h
  obtain ⟨rfl, hs⟩ := readHeader_eq_ok hheader
  obtain ⟨refs, u, hrefs, hrest⟩ := exists_of_bind_eq_ok hrest
  obtain ⟨names, v, hnames, -⟩ := exists_of_bind_eq_ok hrest
  have hu := (pays_readRefs _ s.length _ 0).cost_add_length_le hrefs
  have hv := (pays_fileName.times_count _).cost_le hnames
  omega

end LineTable

namespace AtomTable

theorem pays_classicName : Pays classicName fun _ => 1 :=
  (pays_number 1).bind fun n => (pays_upTo n).mono fun _ => by simp

theorem pays_literalName : Pays literalName fun _ => 1 := by
  refine Term.pays_read_one.bind fun t => ?_
  split
  · exact pays_fail _
  · split_ifs
    · exact pays_fail _
    · exact (pays_upTo _).mono fun _ => by simp

theorem count_le_of_read {b t : Bytes} {table : AtomTable} (h : read b = .ok table t) :
    (Bytes.toSigned (b.take 4)).natAbs ≤ b.length := by
  obtain ⟨front, s, hfront, hrest⟩ := exists_of_bind_eq_ok h
  obtain ⟨-, rfl, rfl⟩ := exactly_eq_ok hfront
  obtain ⟨names, u, hnames, -⟩ := exists_of_bind_eq_ok hrest
  have hname : Pays (if Bytes.toSigned (b.take 4) < 0 then literalName else classicName) fun _ => 1 := by
    split
    · exact pays_literalName
    · exact pays_classicName
  have hcount := (hname.times_count _).cost_le hnames
  rw [List.length_drop] at hcount
  omega

end AtomTable

theorem pays_words {n : Nat} : Pays (words n) fun _ => 4 * n :=
  (pays_exactly _).bind fun _ => pays_lift fun _ _ => Nat.sub_self _

theorem pays_entryOfWords {α : Type} {n : Nat} (hn : 0 < n) (ofWords : List Int → Option α) :
    Pays (entryOfWords n ofWords) fun _ => 1 := by
  refine pays_words.bind fun fields => ?_
  split
  · exact pays_pure (by omega)
  · exact pays_fail _

theorem count_le_of_countedEntries {α : Type} {entry : Reader α} (hentry : Pays entry fun _ => 1) {b t : Bytes}
    {es : List α} (h : countedEntries entry b = .ok es t) : Bytes.toNat (b.take 4) ≤ b.length := by
  obtain ⟨n, s, hn, hes⟩ := exists_of_bind_eq_ok h
  obtain ⟨rfl, rfl⟩ := number_eq_ok hn
  have hcount := (hentry.times_count _).cost_le hes
  rw [List.length_drop] at hcount
  omega

namespace LiteralTable

theorem pays_entry : Pays entry fun _ => 1 :=
  (pays_upTo 4).bind_free fun _ => ExtTerm.pays_readMarked.mono fun _ => Nat.le_add_left _ _

theorem count_le_of_parse {b : Bytes} {table : LiteralTable} (h : parse b = .ok table)
    (hsize : Bytes.toNat (b.take 4) = 0) : Bytes.toNat ((b.drop 4).take 4) ≤ b.length := by
  obtain ⟨size, hread, hrest⟩ := exists_of_bind h
  obtain ⟨data, hdata, hbody⟩ := exists_of_bind hrest
  obtain ⟨t, ht⟩ := exists_of_run_eq_ok hread
  obtain ⟨rfl, rfl⟩ := number_eq_ok ht
  obtain rfl : b.drop 4 = data := by simpa [body, hsize] using hdata
  obtain ⟨u, hu⟩ := exists_of_run_eq_ok hbody
  obtain ⟨terms, v, hterms, -⟩ := exists_of_bind_eq_ok hu
  have hcount := count_le_of_countedEntries pays_entry hterms
  rw [List.length_drop] at hcount
  omega

end LiteralTable

namespace ChunkKind

/-- The numbers of entries that the body of a chunk announces, where the body is not compressed. -/
def declared : ChunkKind → Bytes → List Nat
  | .lines, b => [Bytes.toNat ((b.drop 12).take 4), Bytes.toNat ((b.drop 16).take 4)]
  | .atoms, b => [(Bytes.toSigned (b.take 4)).natAbs]
  | .imports, b => [Bytes.toNat (b.take 4)]
  | .exports, b => [Bytes.toNat (b.take 4)]
  | .functions, b => [Bytes.toNat (b.take 4)]
  | .literals, b => if Bytes.toNat (b.take 4) = 0 then [Bytes.toNat ((b.drop 4).take 4)] else []
  | .code, _ => []

/-- A body that can be read has a byte for every entry that it announces. -/
theorem declared_le_of_parse {kind : ChunkKind} {b : Bytes} {content : kind.Content}
    (h : kind.parse b = .ok content) {n : Nat} (hn : n ∈ kind.declared b) : n ≤ b.length := by
  cases kind with
  | lines =>
      obtain ⟨t, ht⟩ := Reader.exists_of_run_eq_ok h
      have hcounts := LineTable.counts_le_of_read ht
      simp only [declared, List.mem_cons, List.not_mem_nil, or_false] at hn
      omega
  | atoms =>
      obtain ⟨t, ht⟩ := Reader.exists_of_run_eq_ok h
      rw [List.mem_singleton.1 hn]
      exact AtomTable.count_le_of_read ht
  | imports =>
      obtain ⟨t, ht⟩ := Reader.exists_of_run_eq_ok h
      rw [List.mem_singleton.1 hn]
      exact count_le_of_countedEntries (pays_entryOfWords (by decide) _) ht
  | exports =>
      obtain ⟨t, ht⟩ := Reader.exists_of_run_eq_ok h
      rw [List.mem_singleton.1 hn]
      exact count_le_of_countedEntries (pays_entryOfWords (by decide) _) ht
  | functions =>
      obtain ⟨t, ht⟩ := Reader.exists_of_run_eq_ok h
      rw [List.mem_singleton.1 hn]
      exact count_le_of_countedEntries (pays_entryOfWords (by decide) _) ht
  | literals =>
      simp only [declared] at hn
      split_ifs at hn with hsize
      · rw [List.mem_singleton.1 hn]
        exact LiteralTable.count_le_of_parse h hsize
      · simp at hn
  | code => simp [declared] at hn

/-- A body that announces more entries than it has bytes cannot be read. -/
theorem parse_eq_error_of_declared (kind : ChunkKind) {b : Bytes} {n : Nat} (hn : n ∈ kind.declared b)
    (hlength : b.length < n) : ∃ e, kind.parse b = .error e := by
  cases h : kind.parse b with
  | error e => exact ⟨e, rfl⟩
  | ok content =>
      have hle := declared_le_of_parse h hn
      omega

end ChunkKind

/-! ## Chunks -/

namespace Module

/-- One round of the reading of chunks, where `next` makes the rounds that are left. The state is the number of bytes
done and the module so far. -/
def chunksRound (stop : Option Fault) (size : Int) (next : (Nat × Module) × Bytes → Outcome Module) :
    (Nat × Module) × Bytes → Outcome Module
  | ((done, m), s) => (if (done : Int) < size then do
      let marker ← available stop 4
      let n ← chunkLength stop
      let body ← available stop n
      let m ← Reader.lift (m.addChunk marker body)
      let _ ← available stop (padded n - n)
      resume next (done + (8 + padded n), m)
    else pure m : Reader Module) s

theorem pays_available (stop : Option Fault) (n : Nat) : Pays (available stop n) List.length := by
  intro s b t h
  unfold available at h
  split at h
  · exact pays_upTo n s b t h
  · split at h
    · exact pays_upTo n s b t h
    · cases h

theorem pays_chunkLength (stop : Option Fault) : Pays (chunkLength stop) fun _ => 4 := by
  refine (pays_available stop 4).bind fun b => ?_
  split
  · next hb => exact pays_pure (by simp [hb])
  · exact pays_fail _

section Rounds

variable (stop : Option Fault) (size : Int)

/-- Without bytes no round needs the rounds that are left. -/
theorem chunksRound_nil (next : (Nat × Module) × Bytes → Outcome Module) (x : (Nat × Module) × Bytes)
    (hx : x.2.length = 0) : chunksRound stop size next x = readChunks stop size 0 x.1.1 x.1.2 x.2 := by
  obtain ⟨⟨done, m⟩, s⟩ := x
  obtain rfl : s = [] := List.length_eq_zero_iff.1 hx
  simp only [chunksRound, readChunks]
  split
  · cases stop <;> rfl
  · rfl

/-- A round takes a byte at least before it goes on. -/
theorem agreeBelow_chunksRound {n : Nat} {next next' : (Nat × Module) × Bytes → Outcome Module}
    (h : AgreeBelow (fun x => x.2.length) n next next') :
    AgreeBelow (fun x => x.2.length) (n + 1) (chunksRound stop size next) (chunksRound stop size next') := by
  rintro ⟨⟨done, m⟩, s⟩ hs
  simp only [chunksRound]
  split
  · refine agreeBelow_bind (agreeBelow_refl _ _ _) (pays_available stop 4) (fun marker => ?_) s hs
    refine agreeBelow_bind_succ (pays_chunkLength stop) (fun _ => by omega) fun size => ?_
    refine agreeBelow_bind (agreeBelow_refl _ _ _) (pays_available stop size) fun body => ?_
    refine agreeBelow_bind (agreeBelow_refl _ _ _) (pays_lift_nothing _) fun m => ?_
    exact agreeBelow_bind (agreeBelow_refl _ _ _) (pays_available stop _) fun _ => agreeBelow_resume h _
  · rfl

/-- Whatever length is declared, the chunks end with the bytes. -/
theorem endsWithin_readChunks :
    EndsWithin (chunksRound stop size) (fun x => x.2.length)
      fun x => readChunks stop size x.2.length x.1.1 x.1.2 x.2 :=
  endsWithin_of_fuel (F := fun fuel x => readChunks stop size fuel x.1.1 x.1.2 x.2) (fun _ => rfl)
    (chunksRound_nil stop size) fun _ _ _ h => agreeBelow_chunksRound stop size h

theorem readChunks_of_length_le (done : Nat) (m : Module) {s : Bytes} {fuel : Nat} (h : s.length ≤ fuel) :
    readChunks stop size fuel done m s = readChunks stop size s.length done m s :=
  (agreeBelow_of_fuel (F := fun fuel x => readChunks stop size fuel x.1.1 x.1.2 x.2) (fun _ => rfl)
    (chunksRound_nil stop size) (fun _ _ _ h => agreeBelow_chunksRound stop size h) fuel ((done, m), s)
    (Nat.lt_succ_of_le h)).symm

end Rounds

/-- Reading ends and never amplifies, whatever counts and lengths the data declare. The recursions into compact and
external terms go no deeper than there are bytes. No loop makes more rounds than there are bytes and one, be it
governed by a count, by the end of the data, by references that are missing or by a declared length. A term or an
instruction takes a byte at least and has no more nodes than bytes. A table that declares more entries than its chunk
has bytes is refused. -/
theorem reading_bounded :
    (EndsWithin Term.step List.length Term.read ∧
      EndsWithin ExtTerm.step List.length ExtTerm.read ∧
      ExtTerm.readMarked = ExtTerm.marked ExtTerm.read) ∧
    (EndsCounted Term.read ∧ EndsCounted (Term.pair Term.read) ∧
      EndsCounted ExtTerm.read ∧ EndsCounted (ExtTerm.pair ExtTerm.read) ∧
      EndsCounted LineTable.fileName ∧ EndsCounted AtomTable.classicName ∧ EndsCounted AtomTable.literalName ∧
      EndsCounted ImportEntry.read ∧ EndsCounted ExportEntry.read ∧ EndsCounted FunctionEntry.read ∧
      EndsCounted LiteralTable.entry) ∧
    (EndsWithin (roundToEnd Instruction.read) List.length (fun s => drain Instruction.read s.length s) ∧
      (∀ files, EndsWithin (LineTable.refsRound files) (fun x => x.2.length)
        fun x => LineTable.readRefs files x.2.length x.1.1 x.1.2 x.2) ∧
      ∀ stop size, EndsWithin (chunksRound stop size) (fun x => x.2.length)
        fun x => readChunks stop size x.2.length x.1.1 x.1.2 x.2) ∧
    (NeverAmplifies Term.read Term.nodes ∧ NeverAmplifies Instruction.read Instruction.nodes ∧
      NeverAmplifies ExtTerm.read ExtTerm.nodes ∧ NeverAmplifies ExtTerm.readMarked ExtTerm.nodes) ∧
    ∀ (kind : ChunkKind) (b : Bytes) (n : Nat), n ∈ kind.declared b → b.length < n → ∃ e, kind.parse b = .error e := by
  have hone : ∀ {α : Type} {item : Reader α}, Pays item (fun _ => 1) → EndsCounted item :=
    fun h => h.endsCounted fun _ => Nat.one_pos
  refine ⟨⟨Term.endsWithin_read, ExtTerm.endsWithin_read, ExtTerm.readMarked_eq⟩, ⟨?_, ?_, ?_, ?_, ?_⟩,
    ⟨?_, LineTable.endsWithin_readRefs, endsWithin_readChunks⟩, ⟨?_, ?_, ?_, ?_⟩,
    fun kind b n => kind.parse_eq_error_of_declared⟩
  · exact Term.pays_read.endsCounted Term.nodes_pos
  · exact (Term.pays_pair Term.pays_read).endsCounted fun p => Nat.add_pos_left (Term.nodes_pos p.1) _
  · exact ExtTerm.pays_read.endsCounted ExtTerm.nodes_pos
  · exact (ExtTerm.pays_pair ExtTerm.pays_read).endsCounted fun p => Nat.add_pos_left (ExtTerm.nodes_pos p.1) _
  · exact ⟨hone LineTable.pays_fileName, hone AtomTable.pays_classicName, hone AtomTable.pays_literalName,
      hone (pays_entryOfWords (by decide) _), hone (pays_entryOfWords (by decide) _),
      hone (pays_entryOfWords (by decide) _), hone LiteralTable.pays_entry⟩
  · exact Instruction.pays_read.endsWithin_drain Instruction.nodes_pos
  · exact Term.pays_read.neverAmplifies Term.nodes_pos fun _ => Nat.le_refl _
  · exact Instruction.pays_read.neverAmplifies Instruction.nodes_pos fun _ => Nat.le_refl _
  · exact ExtTerm.pays_read.neverAmplifies ExtTerm.nodes_pos fun _ => Nat.le_refl _
  · exact ExtTerm.pays_readMarked.neverAmplifies (fun _ => Nat.succ_pos _) fun _ => Nat.le_succ _

/-- A table of imports that declares all the entries that a count can declare, in a body of one entry. -/
theorem reading_bounded_greatest_count :
    ∃ e, ChunkKind.parse .imports (List.replicate 4 0xFF ++ List.replicate 12 0) = .error e :=
  reading_bounded.2.2.2.2 .imports _ 0xFFFFFFFF (by decide) (by decide)

end Module

end BeamDisasm

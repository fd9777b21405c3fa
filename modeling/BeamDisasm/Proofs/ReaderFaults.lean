import BeamDisasm.Proofs.ModuleFile
import Mathlib.Tactic.SplitIfs

/-!
# What no chunk is blamed for

Data without a valid header are no module file, and a fault of its own says so. No reader of anything inside a file
fails with this fault, on whatever data, so it is a verdict on the header alone.
-/
namespace BeamDisasm

variable {α β : Type}

/-- The result is not the fault of data that are no module file. -/
def Known (x : Except Fault α) : Prop :=
  x ≠ .error .unknownFormat

theorem known_ok (a : α) : Known (.ok a) := by
  simp [Known]

theorem known_error {e : Fault} (h : e ≠ .unknownFormat) : Known (.error e : Except Fault α) := by
  simpa [Known] using h

theorem Known.bind {x : Except Fault α} {f : α → Except Fault β} (hx : Known x) (hf : ∀ a, Known (f a)) :
    Known (x >>= f) := by
  cases x with
  | ok a => exact hf a
  | error e => exact known_error fun he => hx (by rw [he])

theorem Known.map {x : Except Fault α} (hx : Known x) (f : α → β) : Known (x.map f) := by
  cases x with
  | ok a => exact known_ok _
  | error e => exact known_error fun he => hx (by rw [he])

namespace Reader

/-- The reader never blames its data for being no module file. -/
def AllKnown (r : Reader α) : Prop :=
  ∀ s t, r s ≠ .fail .unknownFormat t

theorem AllKnown.known_run {r : Reader α} (hr : AllKnown r) (s : Bytes) : Known (r.run s) := by
  unfold run
  cases hread : r s with
  | ok a t => exact known_ok a
  | fail e t => exact known_error fun he => hr s t (by rw [hread, he])

theorem allKnown_pure (a : α) : AllKnown (pure a) := by
  intro s t h
  simp at h

theorem allKnown_fail {e : Fault} (he : e ≠ .unknownFormat) : AllKnown (fail e : Reader α) := by
  intro s t h
  simp [fail, he] at h

theorem allKnown_lift {x : Except Fault α} (hx : Known x) : AllKnown (lift x) := by
  cases x with
  | ok a => exact allKnown_pure a
  | error e => exact allKnown_fail fun he => hx (by rw [he])

theorem allKnown_byte {e : Fault} (he : e ≠ .unknownFormat) : AllKnown (byte e) := by
  intro s t h
  cases s <;> simp [byte, he] at h

theorem allKnown_upTo (n : Nat) : AllKnown (upTo n) := by
  intro s t h
  simp [upTo] at h

theorem allKnown_exactly (n : Nat) : AllKnown (exactly n) := by
  intro s t h
  unfold exactly at h
  split at h <;> simp at h

theorem AllKnown.bind {r : Reader α} {f : α → Reader β} (hr : AllKnown r) (hf : ∀ a, AllKnown (f a)) :
    AllKnown (r >>= f) := by
  intro s t h
  rw [bind_apply] at h
  cases hread : r s with
  | ok a u =>
      rw [hread] at h
      exact hf a u t h
  | fail e u =>
      simp only [hread, Outcome.fail.injEq] at h
      exact hr s u (by rw [hread, h.1])

theorem AllKnown.map {r : Reader α} (hr : AllKnown r) (g : α → β) : AllKnown (do let a ← r; return g a) :=
  hr.bind fun a => allKnown_pure (g a)

theorem allKnown_number (n : Nat) : AllKnown (number n) :=
  (allKnown_exactly n).map _

theorem AllKnown.times {r : Reader α} (hr : AllKnown r) (n : Nat) : AllKnown (times n r) := by
  induction n with
  | zero => exact allKnown_pure []
  | succ n ih => exact hr.bind fun a => ih.map _

theorem AllKnown.drain {r : Reader α} (hr : AllKnown r) (fuel : Nat) (s : Bytes) :
    (drain r fuel s).2.1 ≠ some .unknownFormat := by
  induction fuel generalizing s with
  | zero => simp [Reader.drain]
  | succ fuel ih =>
      cases s with
      | nil => simp [Reader.drain]
      | cons b s =>
          rw [Reader.drain]
          cases hread : r (b :: s) with
          | ok a t => exact ih t
          | fail e t =>
              intro he
              simp only [Option.some.injEq] at he
              exact hr (b :: s) t (by rw [hread, he])

theorem AllKnown.untilEnd {r : Reader α} (hr : AllKnown r) : AllKnown (untilEnd r) := by
  intro s t h
  have hs := hr.drain s.length s
  unfold Reader.untilEnd at h
  split at h
  · simp at h
  · next hdrain =>
    simp only [Outcome.fail.injEq] at h
    rw [hdrain, h.1] at hs
    exact hs rfl

end Reader

open Reader

/-! ## Terms -/

namespace Term

theorem known_index (t : Term) : Known t.index := by
  unfold index
  split <;> simp [Known]

theorem known_toNumber (i : Index) : Known i.toNumber := by
  cases i <;> simp [Index.toNumber, Known]

theorem known_countOf (i : Index) : Known (countOf i) := by
  unfold countOf
  split
  · simp [Known]
  · split <;> simp [Known]
  · split <;> simp [Known]
  · simp [Known]
  · simp [Known]

theorem known_ofTag (tag : Nat) (v : Scalar) : Known (ofTag tag v) := by
  unfold ofTag
  split <;> simp [Known]

theorem allKnown_payload (n : Int) : AllKnown (payload n) := by
  unfold payload
  split
  · exact allKnown_fail (by decide)
  · exact (allKnown_upTo _).map _

section Inner

variable {inner : Reader Term}

theorem allKnown_basicValue (h : AllKnown inner) (b : UInt8) : AllKnown (basicValue inner b) := by
  unfold basicValue
  split_ifs
  · exact allKnown_pure _
  · exact (allKnown_byte (by decide)).map _
  · exact h.bind fun size => (allKnown_lift (known_index size)).bind fun index =>
      (allKnown_lift (known_toNumber index)).bind fun _ => allKnown_payload _
  · exact allKnown_payload _

theorem allKnown_plainLiteral (h : AllKnown inner) : AllKnown (plainLiteral inner) := by
  refine h.bind fun t => ?_
  split
  · exact allKnown_pure t
  · exact allKnown_fail (by decide)

theorem allKnown_counted {item : Reader α} (h : AllKnown inner) (hitem : AllKnown item) :
    AllKnown (counted inner item) :=
  h.bind fun size => (allKnown_lift (known_index size)).bind fun index =>
    (allKnown_lift (known_countOf index)).bind fun _ => hitem.times _

theorem allKnown_extended (h : AllKnown inner) (tag : UInt8) : AllKnown (extended inner tag) := by
  unfold extended
  split_ifs
  · exact h.bind fun register => h.map _
  · exact allKnown_plainLiteral h
  · exact (allKnown_counted h h).map _
  · exact (allKnown_counted h (h.bind fun key => h.map _)).map _
  · refine (allKnown_plainLiteral h).bind fun t => ?_
    split
    · exact allKnown_pure _
    · exact allKnown_fail (by decide)
  · exact allKnown_fail (by decide)

end Inner

theorem allKnown_readFuel (fuel : Nat) : AllKnown (readFuel fuel) := by
  induction fuel with
  | zero => exact allKnown_fail (by decide)
  | succ fuel ih =>
      refine (allKnown_byte (by decide)).bind fun b => ?_
      split
      · exact allKnown_extended ih b
      · exact (allKnown_basicValue ih b).bind fun v => allKnown_lift (known_ofTag _ v)

theorem allKnown_read : AllKnown read :=
  fun s => allKnown_readFuel s.length s

end Term

namespace ExtTerm

theorem known_misfitDigits (v : Scalar) : Known (misfitDigits v) := by
  unfold misfitDigits
  split <;> simp [Known]

theorem known_value (t : ExtTerm) : Known t.value := by
  unfold value
  split
  · exact known_misfitDigits _
  · exact known_misfitDigits _
  all_goals simp [Known]

theorem allKnown_sized (width : Nat) : AllKnown (sized width) :=
  (allKnown_number width).bind fun n => allKnown_upTo n

theorem allKnown_body {inner : Reader ExtTerm} (h : AllKnown inner) (form : Form) : AllKnown (body inner form) := by
  cases form with
  | cacheRef => exact (allKnown_number 1).map _
  | smallInteger => exact (allKnown_number 1).map _
  | integer => exact (allKnown_number 4).map _
  | float => exact (allKnown_upTo 31).map _
  | newFloat => exact (allKnown_upTo 8).map _
  | smallTuple => exact (allKnown_number 1).bind fun n => (h.times n).map _
  | largeTuple => exact (allKnown_number 4).bind fun n => (h.times n).map _
  | map => exact (allKnown_number 4).bind fun n => ((h.bind fun k => h.map _).times n).map _
  | list => exact (allKnown_number 4).bind fun n => (h.times n).bind fun ms => h.map _
  | nil => exact allKnown_pure _
  | string => exact (allKnown_sized 2).map _
  | binary => exact (allKnown_sized 4).map _
  | smallBig => exact (allKnown_number 1).bind fun n => (allKnown_number 1).bind fun sign => (allKnown_upTo n).map _
  | largeBig => exact (allKnown_upTo 4).bind fun _ => allKnown_fail (by decide)
  | remoteFun =>
      exact h.bind fun m => h.bind fun f => h.bind fun a => (allKnown_lift (known_value m)).bind fun _ =>
        (allKnown_lift (known_value f)).bind fun _ => (allKnown_lift (known_value a)).map _
  | atom => exact (allKnown_sized 2).map _
  | smallAtom => exact (allKnown_sized 1).map _

theorem allKnown_afterTag {inner : Reader ExtTerm} (h : AllKnown inner) (tag : UInt8) :
    AllKnown (afterTag inner tag) := by
  unfold afterTag
  split
  · exact allKnown_body h _
  · exact allKnown_fail (by simp)

theorem allKnown_readFuel (fuel : Nat) : AllKnown (readFuel fuel) := by
  induction fuel with
  | zero => exact allKnown_fail (by decide)
  | succ fuel ih => exact (allKnown_byte (by decide)).bind fun tag => allKnown_afterTag ih tag

theorem allKnown_readMarked : AllKnown readMarked := by
  intro s t h
  unfold readMarked at h
  split at h
  · next m tag u =>
    split at h
    · exact allKnown_afterTag (allKnown_readFuel u.length) tag u t h
    · simp at h
  · simp at h

end ExtTerm

/-! ## Chunks -/

namespace LineTable

theorem allKnown_readRefs (files fuel count : Nat) (file : Int) : AllKnown (readRefs files fuel count file) := by
  induction fuel generalizing count file with
  | zero =>
      cases count with
      | zero => exact allKnown_pure []
      | succ count => exact allKnown_fail (by decide)
  | succ fuel ih =>
      cases count with
      | zero => exact allKnown_pure []
      | succ count =>
          rw [readRefs]
          refine Term.allKnown_read.bind fun t => ?_
          split
          · exact (ih count file).map _
          · split_ifs
            · exact allKnown_fail (by decide)
            · exact ih (count + 1) _
            · exact allKnown_fail (by decide)
          · exact ih (count + 1) file

theorem allKnown_read : AllKnown read := by
  have hname : AllKnown fileName := (allKnown_number 2).bind fun n => (allKnown_upTo n).map _
  have hheader : AllKnown readHeader := (allKnown_exactly 20).map _
  refine hheader.bind fun counts => ?_
  have hrefs : AllKnown fun s => readRefs counts.2 s.length counts.1 0 s := fun s => allKnown_readRefs _ s.length _ _ s
  exact hrefs.bind fun refs => (hname.times _).map _

end LineTable

namespace AtomTable

theorem allKnown_read : AllKnown read := by
  have hclassic : AllKnown classicName := (allKnown_number 1).bind fun n => allKnown_upTo n
  have hliteral : AllKnown literalName := by
    refine Term.allKnown_read.bind fun t => ?_
    split
    · exact allKnown_fail (by decide)
    · split
      · exact allKnown_fail (by decide)
      · exact allKnown_upTo _
  refine (allKnown_exactly 4).bind fun b => AllKnown.map (AllKnown.times ?_ _) _
  split
  · exact hliteral
  · exact hclassic

end AtomTable

theorem allKnown_words (n : Nat) : AllKnown (words n) := by
  have hword : AllKnown word := (allKnown_number 4).map _
  exact (allKnown_exactly _).bind fun b => allKnown_lift ((hword.times n).known_run b)

theorem allKnown_countedEntries {entry : Reader α} (h : AllKnown entry) : AllKnown (countedEntries entry) :=
  (allKnown_number 4).bind fun n => h.times n

theorem allKnown_entryOfWords (n : Nat) (ofWords : List Int → Option α) : AllKnown (entryOfWords n ofWords) := by
  refine (allKnown_words n).bind fun fields => ?_
  split
  · exact allKnown_pure _
  · exact allKnown_fail (by decide)

theorem Compression.known_decompress (b : Bytes) : Known (decompress b) := by
  unfold decompress
  split
  · split_ifs
    · dsimp only
      split
      · simp [Known]
      · split_ifs <;> simp [Known]
    · simp [Known]
  · simp [Known]

theorem LiteralTable.known_parse (b : Bytes) : Known (parse b) := by
  have hentry : AllKnown entry := (allKnown_upTo 4).bind fun _ => ExtTerm.allKnown_readMarked
  have hbody : AllKnown readBody := (allKnown_countedEntries hentry).map _
  refine Known.bind ((allKnown_number 4).known_run b) fun size => Known.bind ?_ fun data => hbody.known_run data
  unfold body
  split
  · exact known_ok _
  · exact Compression.known_decompress _

theorem Instruction.allKnown_read : AllKnown Instruction.read := by
  have hop : ∀ code, Known (operationOf code) := by
    intro code
    unfold operationOf
    split <;> simp [Known]
  exact (allKnown_byte (by decide)).bind fun code => (allKnown_lift (hop code)).bind fun operation =>
    (Term.allKnown_read.times _).map _

/-- The reader of no kind of chunk blames the file. -/
theorem ChunkKind.known_parse (kind : ChunkKind) (b : Bytes) : Known (kind.parse b) := by
  cases kind with
  | lines => exact LineTable.allKnown_read.known_run b
  | atoms => exact AtomTable.allKnown_read.known_run b
  | imports | exports | functions => exact (allKnown_countedEntries (allKnown_entryOfWords _ _)).known_run b
  | literals => exact LiteralTable.known_parse b
  | code => exact ((allKnown_exactly _).bind fun _ => Instruction.allKnown_read.untilEnd).known_run b

namespace Module

theorem known_addChunk (m : Module) (marker body : Bytes) : Known (m.addChunk marker body) := by
  unfold addChunk
  split
  · rw [setChunk_eq]
    exact (ChunkKind.known_parse _ body).map _
  · exact known_ok m

theorem allKnown_available {stop : Option Fault} (hstop : stop ≠ some .unknownFormat) (n : Nat) :
    AllKnown (available stop n) := by
  intro s t h
  unfold available at h
  split at h
  · exact allKnown_upTo n s t h
  · next e =>
    split at h
    · exact allKnown_upTo n s t h
    · simp only [Outcome.fail.injEq] at h
      exact hstop (by rw [h.1])

theorem allKnown_chunkLength {stop : Option Fault} (hstop : stop ≠ some .unknownFormat) :
    AllKnown (chunkLength stop) := by
  refine (allKnown_available hstop 4).bind fun b => ?_
  split
  · exact allKnown_pure _
  · exact allKnown_fail (by decide)

/-- Whatever is behind a header, the file is not blamed for it. -/
theorem allKnown_readChunks {stop : Option Fault} (hstop : stop ≠ some .unknownFormat) (size : Int) (fuel done : Nat)
    (m : Module) : AllKnown (readChunks stop size fuel done m) := by
  induction fuel generalizing done m with
  | zero =>
      rw [readChunks]
      split
      · cases stop with
        | none => exact allKnown_fail (by decide)
        | some e => exact allKnown_fail fun he => hstop (by rw [← he]; rfl)
      · exact allKnown_pure m
  | succ fuel ih =>
      rw [readChunks]
      split
      · exact (allKnown_available hstop 4).bind fun marker => (allKnown_chunkLength hstop).bind fun n =>
          (allKnown_available hstop n).bind fun body => (allKnown_lift (known_addChunk m marker body)).bind fun m' =>
            (allKnown_available hstop _).bind fun _ => ih _ m'
      · exact allKnown_pure m

end Module

end BeamDisasm

import BeamDisasm.Proofs.MarkListing
import BeamDisasm.Proofs.SearchDepth
import BeamDisasm.Proofs.SwitchLinks

/-!
# Notes on functions and on their calls

An annotated module says at the first block behind the header of a function which function starts there, and at a call
which function is called. Both come from one table of the functions by the labels where they start, in which every
function has a label of its own. So a call has a note exactly if its target is a block with a note for a function, and
the two notes name the same function.
-/
namespace BeamDisasm

namespace Analysis

/-! ## Making marks on the module itself -/

/-- The module has the same code as before, and the notes of the marks behind those that it had. -/
structure Noted (marks : List Mark) (a a' : Analysis) : Prop where
  notesAt_eq : ∀ n, a'.notesAt n = a.notesAt n ++ marks.filterMap (Mark.noteOn? n)
  blocks_eq : ∃ change, a'.blocks = a.blocks.map change ∧ ∀ b ∈ a.blocks, (change b).code = b.code ∧
    (change b).notes = b.notes ++ marks.filterMap (Mark.noteAt? b.label)

theorem Noted.refl (a : Analysis) : Noted [] a a :=
  ⟨by simp, id, by simp, by simp⟩

theorem Noted.trans {marks marks' : List Mark} {a a' a'' : Analysis} (h : Noted marks a a')
    (h' : Noted marks' a' a'') : Noted (marks ++ marks') a a'' := by
  obtain ⟨change, hblocks, hchange⟩ := h.blocks_eq
  obtain ⟨change', hblocks', hchange'⟩ := h'.blocks_eq
  refine ⟨fun n => ?_, change' ∘ change, ?_, fun b hb => ?_⟩
  · rw [h'.notesAt_eq, h.notesAt_eq, List.filterMap_append, List.append_assoc]
  · rw [hblocks', hblocks, List.map_map]
  · obtain ⟨hcode, hnotes⟩ := hchange b hb
    obtain ⟨hcode', hnotes'⟩ := hchange' (change b) (hblocks ▸ List.mem_map_of_mem hb)
    have hlabel : (change b).label = b.label := congrArg Prod.fst hcode
    refine ⟨hcode'.trans hcode, ?_⟩
    rw [Function.comp_apply, hnotes', hnotes, hlabel, List.filterMap_append, List.append_assoc]

/-- A caller is no note. -/
theorem noted_of_isCaller {mark : Mark} (h : mark.isCaller = true) (a : Analysis) : Noted [mark] a a := by
  cases mark with
  | block label note => simp [Mark.isCaller] at h
  | inst position note => simp [Mark.isCaller] at h
  | caller n label name => exact ⟨by simp [Mark.noteOn?], id, by simp, by simp [Mark.noteAt?]⟩

theorem noted_change (mark : Mark) (a : Analysis) : Noted [mark] a (mark.change a) := by
  cases mark with
  | block label note =>
      refine ⟨fun n => (List.append_nil _).symm, fun b => if b.label.same label then b.addNote note else b, rfl, ?_⟩
      intro b _
      by_cases hb : b.label.same label = true
      · simp [hb, Mark.noteAt?, Block.addNote, Block.code]
      · simp [hb, Mark.noteAt?]
  | inst position note =>
      refine ⟨fun n => ?_, id, (List.map_id _).symm, fun b _ => ⟨rfl, (List.append_nil _).symm⟩⟩
      by_cases hn : position = n <;> simp [Mark.change, notesAt, Mark.noteOn?, hn]
  | caller n label name =>
      refine ⟨fun n => (List.append_nil _).symm, fun b => if b.label.same label then b.addCaller name else b, rfl, ?_⟩
      intro b _
      dsimp only
      split
      · rw [Block.addCaller]
        split <;> simp [Mark.noteAt?, Block.code]
      · simp [Mark.noteAt?]

section Own

variable {as : List Analysis} {own : Nat} (places : List Nat) {a : Analysis}

/-- A mark that is made on another module is one for a caller. -/
theorem make_noted (ha : as[own]? = some a) (mark : Mark) :
    ∃ a', (make own places as mark)[own]? = some a' ∧ Noted [mark] a a' := by
  have helse : mark.target own places ≠ some own → mark.isCaller = true := by
    intro hne
    by_contra hnot
    exact hne (Mark.target_of_not_caller (by simpa using hnot) own places)
  rw [make_eq]
  cases htarget : mark.target own places with
  | none => exact ⟨a, ha, noted_of_isCaller (helse (by simp [htarget])) a⟩
  | some i =>
      by_cases hi : i = own
      · exact ⟨mark.change a, by simp [hi, ha], noted_change mark a⟩
      · exact ⟨a, by simp [hi, ha], noted_of_isCaller (helse (by simp [htarget, hi])) a⟩

theorem foldl_make_noted (ha : as[own]? = some a) (marks : List Mark) :
    ∃ a', (marks.foldl (make own places) as)[own]? = some a' ∧ Noted marks a a' := by
  induction marks generalizing as a with
  | nil => exact ⟨a, ha, .refl a⟩
  | cons mark marks ih =>
      obtain ⟨a₁, ha₁, hmark⟩ := make_noted places ha mark
      obtain ⟨a', ha', hmarks⟩ := ih ha₁
      exact ⟨a', ha', hmark.trans hmarks⟩

/-- An annotation that comes to its end has made all marks of the module. -/
theorem annotate_noted {as' : List Analysis} {places : List Nat} (ha : as[own]? = some a)
    (h : annotate as own places = (as', none)) :
    ∃ a', as'[own]? = some a' ∧ a'.frame = a.frame ∧ (a.marks (places.filterMap (as[·]?))).fault = none ∧
      Noted (a.marks (places.filterMap (as[·]?))).marks a a' := by
  simp only [annotate, ha, Prod.mk.injEq] at h
  obtain ⟨rfl, hfault⟩ := h
  obtain ⟨a', ha', hnoted⟩ := foldl_make_noted places ha (a.marks (places.filterMap (as[·]?))).marks
  have hframe := congrArg (fun fs => fs[own]?) (map_frame_foldl_make own places
    (a.marks (places.filterMap (as[·]?))).marks as)
  simp only [List.getElem?_map, ha, ha', Option.map_some, Option.some.injEq] at hframe
  exact ⟨a', ha', hframe, hfault, hnoted⟩

end Own

/-! ## A module before its annotation -/

section Fresh

variable {m : Module} {a : Analysis} {warnings : Nat} (h : build m = .ok (a, warnings))

include h

theorem itemize_of_build :
    ∃ code bs, Block.itemize code = .ok bs ∧ a.blocks.map Block.insts = bs.map Block.insts := by
  obtain ⟨code, bs, fs, -, hbs, -, rfl⟩ := exists_of_build h
  have hinsts := congrArg (List.map Block.insts) (Graph.map_unlinked_ofFunctions bs fs)
  rw [List.map_map, List.map_map] at hinsts
  exact ⟨code, bs, hbs, hinsts⟩

theorem notes_eq_nil_of_build : ∀ b ∈ a.blocks, b.notes = [] := by
  obtain ⟨code, bs, fs, -, hbs, -, rfl⟩ := exists_of_build h
  intro b hb
  obtain ⟨c, hc, heq⟩ := List.mem_map.mp (Graph.map_unlinked_ofFunctions bs fs ▸ List.mem_map_of_mem hb)
  have hfresh : c.notes = [] := congrArg Block.notes (Block.fresh_of_itemize hbs c hc)
  have hnotes : c.unlinked.notes = b.unlinked.notes := congrArg Block.notes heq
  exact hnotes.symm.trans hfresh

theorem notesAt_eq_nil_of_build (n : Nat) : a.notesAt n = [] := by
  obtain ⟨code, bs, fs, -, -, -, rfl⟩ := exists_of_build h
  rfl

theorem positions_nodup_of_build : (a.blocks.flatMap fun b => b.insts.map Placed.position).Nodup := by
  obtain ⟨code, bs, hbs, hinsts⟩ := itemize_of_build h
  have hflat : ∀ cs : List Block, (cs.map Block.insts).flatMap (List.map Placed.position) =
      cs.flatMap fun b => b.insts.map Placed.position := List.flatMap_map _ _
  rw [← hflat, hinsts, hflat]
  refine List.nodup_flatMap.mpr ⟨fun b hb => ?_, ?_⟩
  · have hpositions := (Block.insts_sublist hbs hb).map Placed.position
    rw [Block.map_position_placeFrom] at hpositions
    exact hpositions.nodup List.nodup_range'
  · have hapart := Block.apart_itemize hbs
    rwa [List.pairwise_map] at hapart

/-- A position is the place of one instruction. -/
theorem inst_eq_of_position {b c : Block} {p q : Placed} (hb : b ∈ a.blocks) (hc : c ∈ a.blocks) (hp : p ∈ b.insts)
    (hq : q ∈ c.insts) (hposition : p.position = q.position) : p.inst = q.inst := by
  obtain ⟨code, bs, hbs, hinsts⟩ := itemize_of_build h
  have hplaced : ∀ b ∈ a.blocks, ∀ p ∈ b.insts, code[p.position]? = some p.inst := by
    intro b hb p hp
    obtain ⟨b', hb', heq⟩ := List.mem_map.mp (hinsts ▸ List.mem_map_of_mem (f := Block.insts) hb)
    exact Block.getElem?_position hbs hb' (heq ▸ hp)
  have heq := (hplaced b hb p hp).symm.trans (hposition ▸ hplaced c hc q hq)
  exact Option.some.inj heq

end Fresh

/-! ## Headers and calls -/

section Agreement

variable {a : Analysis} {es : Entries} {others : List Analysis} {l : Index} {s : String}

/-- A label under which a function with this signature starts. -/
def StartsAt (a : Analysis) (s : String) (l : Index) : Prop :=
  ∃ f ∈ a.functions, f.blocks[1]? = some l ∧ f.signature a.module = .ok s

section Built

variable (hbuilt : a.Built)

include hbuilt

theorem StartsAt.plain (h : a.StartsAt s l) : ∀ b ∈ a.blocks, b.label.Plain := by
  obtain ⟨f, hf, hentry, -⟩ := h
  exact hbuilt.plain_of_entry hf hentry

theorem StartsAt.exists_block (h : a.StartsAt s l) : ∃ b ∈ a.blocks, b.label = l := by
  obtain ⟨f, hf, hentry, -⟩ := h
  exact hbuilt.exists_block hf (List.mem_of_getElem? hentry)

/-- The table has a function under the label where it starts, and under no other. -/
theorem startingAt_eq_some_iff (hes : a.entries = .ok es) {f : Function} :
    es.startingAt l = some f ↔ f ∈ a.functions ∧ f.blocks[1]? = some l := by
  constructor
  · intro h
    obtain ⟨e, he, rfl⟩ := Option.map_eq_some_iff.mp h
    obtain ⟨hf, hentry⟩ := (entries_spec hes).1 e (List.mem_of_find?_eq_some he)
    obtain ⟨b, hb, hlabel⟩ := hbuilt.exists_block hf (List.mem_of_getElem? hentry)
    have hsame : e.1.same l = true := List.find?_some (p := fun e : Index × Function => e.1.same l) he
    rw [← hlabel, Index.same_comm] at hsame
    rw [(hbuilt.plain_of_entry hf hentry b hb l).mp hsame, hlabel]
    exact ⟨hf, hentry⟩
  · rintro ⟨hf, hentry⟩
    obtain ⟨b, hb, rfl⟩ := hbuilt.exists_block hf (List.mem_of_getElem? hentry)
    exact startingAt_of_entry hbuilt hes hf hb hentry

theorem startsAt_iff (hes : a.entries = .ok es) :
    a.StartsAt s l ↔ ∃ f, es.startingAt l = some f ∧ f.signature a.module = .ok s := by
  simp only [StartsAt, startingAt_eq_some_iff hbuilt hes, and_assoc]

/-! The marks of the module, if all of them could be listed. -/

variable (hfault : (a.marks others).fault = none)

include hfault

theorem header_mem_marks_iff : Mark.block l (headerNote s) ∈ (a.marks others).marks ↔ a.StartsAt s l := by
  obtain ⟨es, table, hes, -, hmarks⟩ := marks_of_no_fault hfault
  rw [hmarks] at hfault ⊢
  rw [header_mem_blockMarks_iff hfault, startsAt_iff hbuilt hes]
  constructor
  · rintro ⟨b, -, -, hstart⟩
    exact hstart
  · intro hstart
    obtain ⟨b, hb, hlabel⟩ := StartsAt.exists_block hbuilt ((startsAt_iff hbuilt hes).mpr hstart)
    exact ⟨b, hb, hlabel, hstart⟩

theorem header_mem_notes_iff {b : Block} (hb : b ∈ a.blocks) :
    headerNote s ∈ (a.marks others).marks.filterMap (Mark.noteAt? b.label) ↔ a.StartsAt s b.label := by
  rw [List.mem_filterMap]
  constructor
  · rintro ⟨mark, hmark, hnote⟩
    obtain ⟨l, rfl, hsame⟩ := Mark.noteAt?_eq_some_iff.mp hnote
    have hstart := (header_mem_marks_iff hbuilt hfault).mp hmark
    rw [Index.same_comm] at hsame
    exact (hstart.plain hbuilt b hb l).mp hsame ▸ hstart
  · intro hstart
    have hplain := hstart.plain hbuilt b hb
    exact ⟨_, (header_mem_marks_iff hbuilt hfault).mpr hstart, (Mark.noteAt?_eq_some_iff_of_plain hplain).mpr rfl⟩

theorem count_header_notes_le {b : Block} (hb : b ∈ a.blocks) :
    ((a.marks others).marks.filterMap (Mark.noteAt? b.label)).count (headerNote s) ≤ 1 := by
  by_cases hstart : a.StartsAt s b.label
  · have hlisted : (a.marks others).marks.count (.block b.label (headerNote s)) ≤ 1 := by
      obtain ⟨es, table, -, -, hmarks⟩ := marks_of_no_fault hfault
      rw [hmarks] at hfault ⊢
      exact (count_header_le hfault).trans (List.nodup_iff_count_le_one.mp hbuilt.labels_nodup _)
    rw [List.count_filterMap]
    refine le_of_eq_of_le (List.countP_congr fun mark _ => ?_) hlisted
    rw [beq_iff_eq, beq_iff_eq, Mark.noteAt?_eq_some_iff_of_plain (hstart.plain hbuilt b hb)]
  · -- labels need not be plain here, but then there is no note to count
    rw [← header_mem_notes_iff hbuilt hfault hb, ← List.count_eq_zero] at hstart
    omega

/-- What is noted on a call: the functions that start at its target. -/
theorem mem_callNotes_iff {m : Module} {warnings : Nat} (hbuild : build m = .ok (a, warnings)) {b : Block} {p : Placed}
    (hb : b ∈ a.blocks) (hp : p ∈ b.insts) (hcall : p.inst.isLocalCall = true) {note : String} :
    note ∈ (a.marks others).marks.filterMap (Mark.noteOn? p.position) ↔
      ∃ target s, p.inst.indexOf 1 = .ok target ∧ a.StartsAt s target ∧ note = callNote s := by
  obtain ⟨es, table, hes, -, hmarks⟩ := marks_of_no_fault hfault
  rw [hmarks] at hfault ⊢
  simp only [List.mem_filterMap, Mark.noteOn?_eq_some_iff, exists_eq_right, inst_mem_blockMarks_iff hfault,
    startsAt_iff hbuilt hes]
  constructor
  · -- the note was made for an instruction at the same position, so for this one
    rintro ⟨c, hc, q, hq, -, hposition, target, f, s, htarget, hf, hs, hnote⟩
    rw [← inst_eq_of_position hbuild hb hc hp hq hposition] at htarget
    exact ⟨target, s, htarget, ⟨f, hf, hs⟩, hnote⟩
  · rintro ⟨target, s, htarget, ⟨f, hf, hs⟩, hnote⟩
    exact ⟨b, hb, p, hp, hcall, rfl, target, f, s, htarget, hf, hs, hnote⟩

omit hbuilt in
theorem length_callNotes_le {m : Module} {warnings : Nat} (hbuild : build m = .ok (a, warnings)) (n : Nat) :
    ((a.marks others).marks.filterMap (Mark.noteOn? n)).length ≤ 1 := by
  obtain ⟨es, table, -, -, hmarks⟩ := marks_of_no_fault hfault
  rw [hmarks] at hfault ⊢
  exact (length_notesOn_le hfault).trans (List.nodup_iff_count_le_one.mp (positions_nodup_of_build hbuild) n)

end Built

end Agreement

theorem callNote_injective : Function.Injective callNote :=
  enclosed_injective _ _

/-- The call leads to a block with the note that a function with this signature starts there. -/
def LeadsTo (a : Analysis) (call : Instruction) (s : String) : Prop :=
  ∃ c ∈ a.blocks, call.indexOf 1 = .ok c.label ∧ headerNote s ∈ c.notes

section Annotated

variable {m : Module} {a a' : Analysis} {warnings : Nat} {others : List Analysis} {b : Block} {p : Placed} {s : String}
  (hbuild : build m = .ok (a, warnings)) (hfault : (a.marks others).fault = none)
  (hnoted : Noted (a.marks others).marks a a')

include hbuild hnoted

/-- A block of the annotated module is a block of the module as it was, and has the notes of the marks alone. -/
theorem exists_before_annotation (hb : b ∈ a'.blocks) :
    ∃ c ∈ a.blocks, b.code = c.code ∧ b.notes = (a.marks others).marks.filterMap (Mark.noteAt? b.label) := by
  obtain ⟨change, hblocks, hchange⟩ := hnoted.blocks_eq
  rw [hblocks] at hb
  obtain ⟨c, hc, rfl⟩ := List.mem_map.mp hb
  obtain ⟨hcode, hnotes⟩ := hchange c hc
  have hlabel : (change c).label = c.label := congrArg Prod.fst hcode
  refine ⟨c, hc, hcode, ?_⟩
  rw [hnotes, notes_eq_nil_of_build hbuild c hc, List.nil_append, hlabel]

omit hbuild in
theorem exists_after_annotation {c : Block} (hc : c ∈ a.blocks) : ∃ b ∈ a'.blocks, b.code = c.code := by
  obtain ⟨change, hblocks, hchange⟩ := hnoted.blocks_eq
  exact ⟨change c, hblocks ▸ List.mem_map_of_mem hc, (hchange c hc).1⟩

include hfault

theorem header_mem_iff (hb : b ∈ a'.blocks) : headerNote s ∈ b.notes ↔ a.StartsAt s b.label := by
  obtain ⟨c, hc, hcode, hnotes⟩ := exists_before_annotation hbuild hnoted hb
  have hlabel : b.label = c.label := congrArg Prod.fst hcode
  rw [hnotes, hlabel]
  exact header_mem_notes_iff (built_of_build hbuild) hfault hc

theorem count_header_le_one (hb : b ∈ a'.blocks) : b.notes.count (headerNote s) ≤ 1 := by
  obtain ⟨c, hc, hcode, hnotes⟩ := exists_before_annotation hbuild hnoted hb
  have hlabel : b.label = c.label := congrArg Prod.fst hcode
  rw [hnotes, hlabel]
  exact count_header_notes_le (built_of_build hbuild) hfault hc

theorem leadsTo_iff {call : Instruction} :
    a'.LeadsTo call s ↔ ∃ target, call.indexOf 1 = .ok target ∧ a.StartsAt s target := by
  constructor
  · rintro ⟨c, hc, htarget, hnote⟩
    exact ⟨c.label, htarget, (header_mem_iff hbuild hfault hnoted hc).mp hnote⟩
  · rintro ⟨target, htarget, hstart⟩
    obtain ⟨c, hc, rfl⟩ := hstart.exists_block (built_of_build hbuild)
    obtain ⟨b, hb, hcode⟩ := exists_after_annotation hnoted hc
    have hlabel : b.label = c.label := congrArg Prod.fst hcode
    exact ⟨b, hb, hlabel ▸ htarget, (header_mem_iff hbuild hfault hnoted hb).mpr (hlabel ▸ hstart)⟩

/-- A call has a note for what it leads to, and no others. -/
theorem mem_notesAt_iff (hb : b ∈ a'.blocks) (hp : p ∈ b.insts) (hcall : p.inst.isLocalCall = true) (note : String) :
    note ∈ a'.notesAt p.position ↔ ∃ s, a'.LeadsTo p.inst s ∧ note = callNote s := by
  obtain ⟨c, hc, hcode, -⟩ := exists_before_annotation hbuild hnoted hb
  have hinsts : b.insts = c.insts := congrArg Prod.snd hcode
  rw [hnoted.notesAt_eq, notesAt_eq_nil_of_build hbuild, List.nil_append,
    mem_callNotes_iff (built_of_build hbuild) hfault hbuild hc (hinsts ▸ hp) hcall]
  simp only [leadsTo_iff hbuild hfault hnoted]
  constructor
  · rintro ⟨target, s, htarget, hstart, hnote⟩
    exact ⟨s, ⟨target, htarget, hstart⟩, hnote⟩
  · rintro ⟨s, ⟨target, htarget, hstart⟩, hnote⟩
    exact ⟨target, s, htarget, hstart, hnote⟩

theorem notesAt_call_iff (hb : b ∈ a'.blocks) (hp : p ∈ b.insts) (hcall : p.inst.isLocalCall = true) :
    a'.notesAt p.position = [callNote s] ↔ a'.LeadsTo p.inst s := by
  have hmem := mem_notesAt_iff hbuild hfault hnoted hb hp hcall
  constructor
  · intro h
    obtain ⟨t, ht, heq⟩ := (hmem (callNote s)).mp (by simp [h])
    exact callNote_injective heq ▸ ht
  · intro h
    have hlength : (a'.notesAt p.position).length ≤ 1 := by
      rw [hnoted.notesAt_eq, notesAt_eq_nil_of_build hbuild, List.nil_append]
      exact length_callNotes_le hfault hbuild p.position
    have hnote := (hmem (callNote s)).mpr ⟨s, h, rfl⟩
    obtain ⟨note, hone⟩ := List.length_eq_one_iff.mp (le_antisymm hlength (List.length_pos_of_mem hnote))
    rw [hone, List.mem_singleton] at hnote
    rw [hone, hnote]

theorem notesAt_call_eq_nil_iff (hb : b ∈ a'.blocks) (hp : p ∈ b.insts) (hcall : p.inst.isLocalCall = true) :
    a'.notesAt p.position = [] ↔ ∀ s, ¬ a'.LeadsTo p.inst s := by
  rw [List.eq_nil_iff_forall_not_mem]
  simp only [mem_notesAt_iff hbuild hfault hnoted hb hp hcall]
  constructor
  · intro h s hs
    exact h (callNote s) ⟨s, hs, rfl⟩
  · rintro h note ⟨s, hs, -⟩
    exact h s hs

end Annotated

/-- In a module that was annotated, among any modules, a block has the note for a function exactly if the function
starts there, and has it once. A call has exactly one note if it leads to such a block, with the same signature, and no
note otherwise. -/
theorem annotate_headers_and_calls {m : Module} {a : Analysis} {warnings : Nat} {as as' : List Analysis} {own : Nat}
    {places : List Nat} (hbuild : build m = .ok (a, warnings)) (hown : as[own]? = some a)
    (hdone : annotate as own places = (as', none)) :
    ∃ a', as'[own]? = some a' ∧ a'.frame = a.frame ∧
      (∀ b ∈ a'.blocks, ∀ s, (headerNote s ∈ b.notes ↔ a.StartsAt s b.label) ∧
        b.notes.count (headerNote s) ≤ 1) ∧
      ∀ b ∈ a'.blocks, ∀ p ∈ b.insts, p.inst.isLocalCall = true →
        (∀ s, a'.notesAt p.position = [callNote s] ↔ a'.LeadsTo p.inst s) ∧
          (a'.notesAt p.position = [] ↔ ∀ s, ¬ a'.LeadsTo p.inst s) := by
  obtain ⟨a', ha', hframe, hfault, hnoted⟩ := annotate_noted hown hdone
  refine ⟨a', ha', hframe, fun b hb s => ⟨?_, ?_⟩, fun b hb p hp hcall => ⟨fun s => ?_, ?_⟩⟩
  · exact header_mem_iff hbuild hfault hnoted hb
  · exact count_header_le_one hbuild hfault hnoted hb
  · exact notesAt_call_iff hbuild hfault hnoted hb hp hcall
  · exact notesAt_call_eq_nil_iff hbuild hfault hnoted hb hp hcall

/-- Two functions that call each other. The second one also jumps back into its middle with a call. -/
def rally : Module :=
  { atoms := some ⟨AtomTable.placeholder :: ["game", "ping", "pong"].map Bytes.ofText⟩
    code := some (assembled [(1, [.literal 1]), (2, [.atom 1, .atom 2, .literal 0]),
      (1, [.literal 2]), (4, [.literal 0, .label 4]), (19, []),
      (1, [.literal 3]), (2, [.atom 1, .atom 3, .literal 0]),
      (1, [.literal 4]), (5, [.literal 0, .label 2, .literal 0]),
      (1, [.literal 5]), (6, [.literal 0, .label 5])]) }

/-- A call forwards and a call backwards have their notes, and the call into the middle of a function has none. -/
theorem annotate_headers_and_calls_rally :
    ∃ a as a', build rally = .ok (a, 0) ∧ annotate [a] 0 [0] = (as, none) ∧ as[0]? = some a' ∧
      a'.notesAt 3 = [callNote "game:pong/0"] ∧ a'.notesAt 8 = [callNote "game:ping/0"] ∧ a'.notesAt 10 = [] := by
  obtain ⟨a, as, a', hbuild, hdone, ha', hmiddle, ⟨b₁, hb₁, p₁, hp₁, hat₁, hcall₁, hleads₁⟩,
      ⟨b₂, hb₂, p₂, hp₂, hat₂, hcall₂, hleads₂⟩, b, hb, p, hp, hat, hcall, htarget⟩ :
      ∃ a as a', build rally = .ok (a, 0) ∧ annotate [a] 0 [0] = (as, none) ∧ as[0]? = some a' ∧
        (∀ f ∈ a.functions, f.blocks[1]? ≠ some (.number 5)) ∧
        (∃ b ∈ a'.blocks, ∃ p ∈ b.insts, p.position = 3 ∧ p.inst.isLocalCall = true ∧
          a'.LeadsTo p.inst "game:pong/0") ∧
        (∃ b ∈ a'.blocks, ∃ p ∈ b.insts, p.position = 8 ∧ p.inst.isLocalCall = true ∧
          a'.LeadsTo p.inst "game:ping/0") ∧
        ∃ b ∈ a'.blocks, ∃ p ∈ b.insts, p.position = 10 ∧ p.inst.isLocalCall = true ∧
          p.inst.indexOf 1 = .ok (.number 5) :=
    ⟨_, _, _, by cbv, by cbv, by cbv, of_decide_eq_true (by cbv),
      ⟨_, List.mem_of_getElem? (i := 1) (by cbv), _, List.mem_of_getElem? (i := 0) (by cbv), by cbv, by cbv,
        _, List.mem_of_getElem? (i := 3) (by cbv), by cbv, List.mem_of_getElem? (i := 0) (by cbv)⟩,
      ⟨_, List.mem_of_getElem? (i := 3) (by cbv), _, List.mem_of_getElem? (i := 0) (by cbv), by cbv, by cbv,
        _, List.mem_of_getElem? (i := 1) (by cbv), by cbv, List.mem_of_getElem? (i := 0) (by cbv)⟩,
      _, List.mem_of_getElem? (i := 4) (by cbv), _, List.mem_of_getElem? (i := 0) (by cbv), by cbv, by cbv, by cbv⟩
  obtain ⟨d, hd, -, hheaders, hcalls⟩ := annotate_headers_and_calls hbuild rfl hdone
  obtain rfl := Option.some.inj (hd.symm.trans ha')
  refine ⟨a, as, d, hbuild, hdone, ha', ?_, ?_, ?_⟩
  · rw [← hat₁]
    exact ((hcalls b₁ hb₁ p₁ hp₁ hcall₁).1 _).mpr hleads₁
  · rw [← hat₂]
    exact ((hcalls b₂ hb₂ p₂ hp₂ hcall₂).1 _).mpr hleads₂
  · rw [← hat]
    refine (hcalls b hb p hp hcall).2.mpr ?_
    rintro s ⟨c, hc, htarget', hnote⟩
    obtain ⟨f, hf, hentry, -⟩ := (hheaders c hc s).1.mp hnote
    exact hmiddle f hf (hentry.trans (congrArg some (Except.ok.inj (htarget'.symm.trans htarget))))

end Analysis

end BeamDisasm

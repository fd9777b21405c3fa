import BeamDisasm.Proofs.AnnotationOrder

/-!
# The listing of marks

Marks are listed block by block: where a function starts the mark that says so, and then the marks of the instructions.
The listing comes to its end if none of its parts fails, and then it has the marks of all of them. A block has one mark
for a function at most, and an instruction has one mark at most.
-/
namespace BeamDisasm

theorem Index.same_comm (i j : Index) : i.same j = j.same i := by
  cases i <;> cases j <;> simp [Index.same, Bool.beq_comm]

namespace Mark

variable {l : Index} {n : Nat} {mark : Mark} {note : String}

/-- The note that the mark makes on the block with a label. -/
def noteAt? (l : Index) : Mark → Option String
  | .block label note => if l.same label then some note else none
  | _ => none

/-- The note that the mark makes on the instruction at a position. -/
def noteOn? (n : Nat) : Mark → Option String
  | .inst position note => if position = n then some note else none
  | _ => none

theorem noteAt?_eq_some_iff :
    mark.noteAt? l = some note ↔ ∃ label, mark = .block label note ∧ l.same label = true := by
  cases mark <;> simp [noteAt?, and_comm]

/-- A block whose label is like no other gets the notes for this label. -/
theorem noteAt?_eq_some_iff_of_plain (h : l.Plain) : mark.noteAt? l = some note ↔ mark = .block l note := by
  rw [noteAt?_eq_some_iff]
  constructor
  · rintro ⟨label, rfl, hsame⟩
    rw [Index.same_comm] at hsame
    rw [(h label).mp hsame]
  · rintro rfl
    exact ⟨l, rfl, (h l).mpr rfl⟩

theorem noteOn?_eq_some_iff : mark.noteOn? n = some note ↔ mark = .inst n note := by
  cases mark <;> simp [noteOn?]

end Mark

namespace Analysis

/-! ## Parts of a listing -/

namespace Marks

theorem fault_andThen_iff {x y : Marks} :
    (x.andThen y).fault = Option.none ↔ x.fault = Option.none ∧ y.fault = Option.none := by
  unfold andThen
  cases hx : x.fault with
  | some e => simp
  | none => simp

theorem fault_all_iff {α : Type} {f : α → Marks} {xs : List α} :
    (all f xs).fault = Option.none ↔ ∀ x ∈ xs, (f x).fault = Option.none := by
  induction xs with
  | nil => simp [all, none]
  | cons x xs ih => rw [all, fault_andThen_iff, ih, List.forall_mem_cons]

theorem fault_ofExcept_iff {r : Except Fault (List Mark)} : (ofExcept r).fault = Option.none ↔ ∃ ms, r = .ok ms := by
  cases r <;> simp [ofExcept]

end Marks

/-- Lists that are no longer than their keys count together are no longer than all keys count. -/
theorem length_flatMap_le_count {α β κ : Type} [BEq κ] {xs : List α} {g : α → List β} {keys : α → List κ} {k : κ}
    (h : ∀ x ∈ xs, (g x).length ≤ (keys x).count k) : (xs.flatMap g).length ≤ (xs.flatMap keys).count k := by
  induction xs with
  | nil => simp
  | cons x xs ih =>
      have hx := h x (by simp)
      have hxs := ih fun y hy => h y (by simp [hy])
      simp only [List.flatMap_cons, List.length_append, List.count_append]
      omega

variable {c : Context} {current : Option Function} {bs : List Block} {b : Block} {p : Placed} {l : Index} {n : Nat}
  {s note : String}

theorem map_snd_attributed (es : Entries) (current : Option Function) (bs : List Block) :
    (attributed es current bs).map Prod.snd = bs := by
  induction bs generalizing current with
  | nil => rfl
  | cons b bs ih => rw [attributed, List.map_cons, ih]

/-- What holds of some block holds of it with the function that its calls belong to. -/
theorem exists_attributed_iff {es : Entries} {P : Block → Prop} :
    (∃ ob ∈ attributed es current bs, P ob.2) ↔ ∃ b ∈ bs, P b := by
  conv_rhs => rw [← map_snd_attributed es current bs]
  simp only [List.mem_map, exists_exists_and_eq_and]

theorem forall_attributed_iff (es : Entries) (current : Option Function) {P : Block → Prop} :
    (∀ ob ∈ attributed es current bs, P ob.2) ↔ ∀ b ∈ bs, P b := by
  conv_rhs => rw [← map_snd_attributed es current bs]
  simp only [List.mem_map, forall_exists_index, and_imp, forall_apply_eq_imp_iff₂]

theorem flatMap_attributed {κ : Type} (es : Entries) (current : Option Function) (f : Block → List κ) :
    ((attributed es current bs).flatMap fun ob => f ob.2) = bs.flatMap f := by
  conv_rhs => rw [← map_snd_attributed es current bs, List.flatMap_map]

/-- The mark at a block where a function starts, if one does. -/
def startMarks (c : Context) (b : Block) : Marks :=
  match c.entries.startingAt b.label with
  | some f => Marks.ofExcept (headerMarks c b.label f)
  | none => Marks.none

theorem blockMarks_cons (c : Context) (current : Option Function) (b : Block) (bs : List Block) :
    blockMarks c current (b :: bs) =
      ((startMarks c b).andThen
        (Marks.all (instMarks c (c.entries.startingAt b.label <|> current) b.label) b.insts)).andThen
          (blockMarks c (c.entries.startingAt b.label <|> current) bs) := rfl

/-- The listing comes to its end if all its parts do. -/
theorem fault_blockMarks_iff :
    (blockMarks c current bs).fault = none ↔ ∀ ob ∈ attributed c.entries current bs,
      (startMarks c ob.2).fault = none ∧ ∀ p ∈ ob.2.insts, (instMarks c ob.1 ob.2.label p).fault = none := by
  induction bs generalizing current with
  | nil => simp [blockMarks, Marks.none, attributed]
  | cons b bs ih =>
      rw [blockMarks_cons, Marks.fault_andThen_iff, Marks.fault_andThen_iff, Marks.fault_all_iff, ih, attributed,
        List.forall_mem_cons]

/-- A listing that comes to its end has the marks of all its parts. -/
theorem marks_blockMarks (h : (blockMarks c current bs).fault = none) :
    (blockMarks c current bs).marks = (attributed c.entries current bs).flatMap fun ob =>
      (startMarks c ob.2).marks ++ ob.2.insts.flatMap fun p => (instMarks c ob.1 ob.2.label p).marks := by
  induction bs generalizing current with
  | nil => rfl
  | cons b bs ih =>
      rw [blockMarks_cons] at h ⊢
      obtain ⟨hhead, hrest, hmarks⟩ := Marks.andThen_of_no_fault h
      obtain ⟨-, hinsts, hmarks'⟩ := Marks.andThen_of_no_fault hhead
      rw [hmarks, hmarks', Marks.all_of_no_fault hinsts, ih hrest, attributed, List.flatMap_cons]

/-! ## What instructions mark -/

/-- The note on a call of a function of the module. -/
def callNote (signature : String) : String :=
  "\t; Calls " ++ signature ++ "\n"

/-- A call is noted where its target is the start of a function, and only there. -/
theorem localCallMarks_eq_ok_iff {ms : List Mark} :
    localCallMarks c p = .ok ms ↔ ∃ target, p.inst.indexOf 1 = .ok target ∧
      (c.entries.startingAt target = none ∧ ms = [] ∨
        ∃ f s, c.entries.startingAt target = some f ∧ f.signature c.own.module = .ok s ∧
          ms = [.inst p.position (callNote s)]) := by
  unfold localCallMarks
  constructor
  · intro h
    obtain ⟨target, htarget, h⟩ := exists_of_bind h
    refine ⟨target, htarget, ?_⟩
    split at h
    · next hnone => exact .inl ⟨hnone, (Except.ok.inj h).symm⟩
    · next f hf =>
      obtain ⟨s, hs, h⟩ := exists_of_bind h
      exact .inr ⟨f, s, hf, hs, (Except.ok.inj h).symm⟩
  · rintro ⟨target, htarget, ⟨hnone, rfl⟩ | ⟨f, s, hf, hs, rfl⟩⟩
    · simp [htarget, hnone, bind, Except.bind, pure, Except.pure]
    · simp [htarget, hf, hs, callNote, bind, Except.bind, pure, Except.pure]

theorem isCaller_of_mem_remoteCallMarks {mark : Mark} (h : mark ∈ remoteCallMarks c current p) :
    mark.isCaller = true := by
  unfold remoteCallMarks at h
  split at h
  · next ms hms =>
    obtain ⟨i, -, hms⟩ := exists_of_bind hms
    obtain ⟨key, -, hms⟩ := exists_of_bind hms
    split at hms
    · simp [← Except.ok.inj hms] at h
    · split at hms
      · obtain ⟨caller, -, hms⟩ := exists_of_bind hms
        obtain ⟨entry, -, hms⟩ := exists_of_bind hms
        split at hms
        · rw [← Except.ok.inj hms, List.mem_singleton] at h
          rw [h]
          rfl
        · simp [← Except.ok.inj hms] at h
      · simp [← Except.ok.inj hms] at h
  · simp at h

theorem case_of_mem_switchMarks {byArity : Bool} {source : Index} {mark : Mark}
    (h : mark ∈ (switchMarks c byArity source p).marks) :
    ∃ l note key, caseNote c byArity source key = .ok note ∧ mark = .block l note := by
  unfold switchMarks at h
  split at h
  · simp at h
  · obtain ⟨part, -, hpart⟩ := Marks.mem_all h
    obtain ⟨ms, hms, hmark⟩ := Marks.mem_ofExcept hpart
    obtain ⟨target, -, hms⟩ := exists_of_bind hms
    obtain ⟨b, -, hms⟩ := exists_of_bind hms
    split at hms
    · next note hnote =>
      rw [← Except.ok.inj hms, List.mem_singleton] at hmark
      exact ⟨b.label, note, part.1, hnote, hmark⟩
    · simp [← Except.ok.inj hms] at hmark

/-- What an instruction can mark: itself if it is a call, callers in other modules, and the blocks of its cases. -/
theorem cases_of_mem_instMarks {source : Index} {mark : Mark} (h : mark ∈ (instMarks c current source p).marks) :
    (p.inst.isLocalCall = true ∧ ∃ ms, localCallMarks c p = .ok ms ∧ mark ∈ ms) ∨ mark.isCaller = true ∨
      ∃ l note byArity key, caseNote c byArity source key = .ok note ∧ mark = .block l note := by
  unfold instMarks at h
  split_ifs at h with hlocal
  · exact .inl ⟨hlocal, Marks.mem_ofExcept h⟩
  · exact .inr (.inl (isCaller_of_mem_remoteCallMarks h))
  · obtain ⟨l, note, key, hnote⟩ := case_of_mem_switchMarks h
    exact .inr (.inr ⟨l, note, false, key, hnote⟩)
  · obtain ⟨l, note, key, hnote⟩ := case_of_mem_switchMarks h
    exact .inr (.inr ⟨l, note, true, key, hnote⟩)
  · simp [Marks.none] at h

theorem instMarks_of_isLocalCall (h : p.inst.isLocalCall = true) (source : Index) :
    instMarks c current source p = Marks.ofExcept (localCallMarks c p) := by
  rw [instMarks, if_pos h]

/-- Notes on instructions are notes on calls. -/
theorem inst_mem_instMarks_iff {source : Index} :
    Mark.inst n note ∈ (instMarks c current source p).marks ↔
      p.inst.isLocalCall = true ∧ n = p.position ∧ ∃ target f s, p.inst.indexOf 1 = .ok target ∧
        c.entries.startingAt target = some f ∧ f.signature c.own.module = .ok s ∧ note = callNote s := by
  constructor
  · intro h
    rcases cases_of_mem_instMarks h with ⟨hlocal, ms, hms, hmark⟩ | hcaller | ⟨l, note, byArity, key, -, hmark⟩
    · obtain ⟨target, htarget, ⟨-, rfl⟩ | ⟨f, s, hf, hs, rfl⟩⟩ := localCallMarks_eq_ok_iff.mp hms
      · simp at hmark
      · obtain ⟨rfl, rfl⟩ := Mark.inst.inj (List.mem_singleton.mp hmark)
        exact ⟨hlocal, rfl, target, f, s, htarget, hf, hs, rfl⟩
    · simp [Mark.isCaller] at hcaller
    · simp at hmark
  · rintro ⟨hlocal, rfl, target, f, s, htarget, hf, hs, rfl⟩
    rw [instMarks_of_isLocalCall hlocal,
      localCallMarks_eq_ok_iff.mpr ⟨target, htarget, .inr ⟨f, s, hf, hs, rfl⟩⟩]
    exact List.mem_singleton_self _

theorem length_noteOn_instMarks_le (source : Index) :
    ((instMarks c current source p).marks.filterMap (Mark.noteOn? n)).length ≤ [p.position].count n := by
  by_cases hlocal : p.inst.isLocalCall = true
  · rw [instMarks_of_isLocalCall hlocal]
    cases hms : localCallMarks c p with
    | error e => simp [Marks.ofExcept]
    | ok ms =>
        obtain ⟨target, -, ⟨-, rfl⟩ | ⟨f, s, -, -, rfl⟩⟩ := localCallMarks_eq_ok_iff.mp hms
        · simp [Marks.ofExcept]
        · by_cases hn : p.position = n <;> simp [Marks.ofExcept, Mark.noteOn?, hn]
  · have hnone : (instMarks c current source p).marks.filterMap (Mark.noteOn? n) = [] := by
      rw [List.filterMap_eq_nil_iff]
      intro mark hmark
      cases mark with
      | block l note => rfl
      | caller k l name => rfl
      | inst k note => exact absurd (inst_mem_instMarks_iff.mp hmark).1 hlocal
    simp [hnone]

/-! ## Marks for functions -/

/-- The note on the block where a function starts. -/
def headerNote (signature : String) : String :=
  "; Function <" ++ signature ++ ">"

theorem headerNote_injective : Function.Injective headerNote :=
  enclosed_injective _ _

/-- No case of a switch has a note that could be one for a function. -/
theorem caseNote_ne_headerNote {byArity : Bool} {source : Index} {key : Member}
    (h : caseNote c byArity source key = .ok note) : note ≠ headerNote s := by
  obtain ⟨shown, -, h⟩ := exists_of_bind h
  obtain ⟨label, -, h⟩ := exists_of_bind h
  intro heq
  rw [← Except.ok.inj h] at heq
  have hlist := congrArg String.toList heq
  simp [headerNote] at hlist

theorem header_not_mem_instMarks (source : Index) :
    Mark.block l (headerNote s) ∉ (instMarks c current source p).marks := by
  intro h
  rcases cases_of_mem_instMarks h with ⟨-, ms, hms, hmark⟩ | hcaller | ⟨l, note, byArity, key, hnote, hmark⟩
  · obtain ⟨target, -, ⟨-, rfl⟩ | ⟨f, s, -, -, rfl⟩⟩ := localCallMarks_eq_ok_iff.mp hms
    · simp at hmark
    · simp at hmark
  · simp [Mark.isCaller] at hcaller
  · exact caseNote_ne_headerNote hnote (Mark.block.inj hmark).2.symm

/-- The marks at the start of a block, if the signature of the function there is known. -/
theorem headerMarks_eq_ok_iff {f : Function} {ms : List Mark} :
    headerMarks c l f = .ok ms ↔ ∃ s, f.signature c.own.module = .ok s ∧ ms = [.block l (headerNote s)] := by
  unfold headerMarks
  constructor
  · intro h
    obtain ⟨s, hs, h⟩ := exists_of_bind h
    exact ⟨s, hs, (Except.ok.inj h).symm⟩
  · rintro ⟨s, hs, rfl⟩
    simp [hs, headerNote, bind, Except.bind, pure, Except.pure]

theorem mem_startMarks_iff {mark : Mark} :
    mark ∈ (startMarks c b).marks ↔ ∃ f s, c.entries.startingAt b.label = some f ∧
      f.signature c.own.module = .ok s ∧ mark = .block b.label (headerNote s) := by
  unfold startMarks
  cases hstart : c.entries.startingAt b.label with
  | none => simp [Marks.none]
  | some f =>
      constructor
      · intro h
        obtain ⟨ms, hms, hmark⟩ := Marks.mem_ofExcept h
        obtain ⟨s, hs, rfl⟩ := headerMarks_eq_ok_iff.mp hms
        exact ⟨f, s, rfl, hs, List.mem_singleton.mp hmark⟩
      · rintro ⟨g, s, hg, hs, rfl⟩
        obtain rfl := Option.some.inj hg
        simp [headerMarks_eq_ok_iff.mpr ⟨s, hs, rfl⟩, Marks.ofExcept]

theorem header_mem_startMarks_iff :
    Mark.block l (headerNote s) ∈ (startMarks c b).marks ↔
      b.label = l ∧ ∃ f, c.entries.startingAt l = some f ∧ f.signature c.own.module = .ok s := by
  rw [mem_startMarks_iff]
  constructor
  · rintro ⟨f, t, hf, ht, hmark⟩
    obtain ⟨rfl, hnote⟩ := Mark.block.inj hmark
    exact ⟨rfl, f, hf, headerNote_injective hnote ▸ ht⟩
  · rintro ⟨rfl, f, hf, hs⟩
    exact ⟨f, s, hf, hs, rfl⟩

theorem length_startMarks_le (c : Context) (b : Block) : (startMarks c b).marks.length ≤ 1 := by
  unfold startMarks
  split
  · next f _ =>
    cases hms : headerMarks c b.label f with
    | error e => simp [Marks.ofExcept]
    | ok ms =>
        obtain ⟨s, -, rfl⟩ := headerMarks_eq_ok_iff.mp hms
        simp [Marks.ofExcept]
  · simp [Marks.none]

/-! ## The marks of all blocks -/

section Listed

variable (h : (blockMarks c current bs).fault = none)

include h

theorem mem_blockMarks_iff {mark : Mark} :
    mark ∈ (blockMarks c current bs).marks ↔ ∃ ob ∈ attributed c.entries current bs,
      mark ∈ (startMarks c ob.2).marks ∨ ∃ p ∈ ob.2.insts, mark ∈ (instMarks c ob.1 ob.2.label p).marks := by
  simp only [marks_blockMarks h, List.mem_flatMap, List.mem_append]

/-- A function is noted at the block where it starts. -/
theorem header_mem_blockMarks_iff :
    Mark.block l (headerNote s) ∈ (blockMarks c current bs).marks ↔
      ∃ b ∈ bs, b.label = l ∧ ∃ f, c.entries.startingAt l = some f ∧ f.signature c.own.module = .ok s := by
  rw [mem_blockMarks_iff h]
  simp only [header_not_mem_instMarks, and_false, exists_false, or_false, header_mem_startMarks_iff]
  exact exists_attributed_iff (P := fun b => b.label = l ∧ ∃ f, c.entries.startingAt l = some f ∧
    f.signature c.own.module = .ok s)

/-- A call is noted where it stands. -/
theorem inst_mem_blockMarks_iff :
    Mark.inst n note ∈ (blockMarks c current bs).marks ↔
      ∃ b ∈ bs, ∃ p ∈ b.insts, p.inst.isLocalCall = true ∧ n = p.position ∧ ∃ target f s,
        p.inst.indexOf 1 = .ok target ∧ c.entries.startingAt target = some f ∧
          f.signature c.own.module = .ok s ∧ note = callNote s := by
  rw [mem_blockMarks_iff h]
  simp only [mem_startMarks_iff, inst_mem_instMarks_iff, reduceCtorEq, and_false, exists_false, false_or]
  exact exists_attributed_iff (P := fun b => ∃ p ∈ b.insts, p.inst.isLocalCall = true ∧ n = p.position ∧ ∃ target f s,
    p.inst.indexOf 1 = .ok target ∧ c.entries.startingAt target = some f ∧
      f.signature c.own.module = .ok s ∧ note = callNote s)

/-- A block is noted for a function no more often than it is listed. -/
theorem count_header_le :
    (blockMarks c current bs).marks.count (.block l (headerNote s)) ≤ (bs.map Block.label).count l := by
  rw [marks_blockMarks h, List.count_eq_length_filter, List.filter_flatMap, List.map_eq_flatMap,
    ← flatMap_attributed c.entries current]
  refine length_flatMap_le_count fun ob _ => ?_
  rw [← List.count_eq_length_filter, List.count_append]
  have hinsts :
      (ob.2.insts.flatMap fun p => (instMarks c ob.1 ob.2.label p).marks).count (.block l (headerNote s)) = 0 := by
    rw [List.count_eq_zero, List.mem_flatMap]
    rintro ⟨p, -, hp⟩
    exact header_not_mem_instMarks _ hp
  rw [hinsts, Nat.add_zero]
  by_cases hl : ob.2.label = l
  · rw [hl, List.count_singleton_self]
    exact List.count_le_length.trans (length_startMarks_le c ob.2)
  · have hstart : Mark.block l (headerNote s) ∉ (startMarks c ob.2).marks :=
      fun hmark => hl (header_mem_startMarks_iff.mp hmark).1
    rw [List.count_eq_zero.mpr hstart]
    exact Nat.zero_le _

/-- An instruction is noted no more often than its position is listed. -/
theorem length_notesOn_le :
    ((blockMarks c current bs).marks.filterMap (Mark.noteOn? n)).length ≤
      (bs.flatMap fun b => b.insts.map Placed.position).count n := by
  rw [marks_blockMarks h, List.filterMap_flatMap, ← flatMap_attributed c.entries current]
  refine length_flatMap_le_count fun ob _ => ?_
  have hstart : (startMarks c ob.2).marks.filterMap (Mark.noteOn? n) = [] := by
    rw [List.filterMap_eq_nil_iff]
    intro mark hmark
    obtain ⟨f, s, -, -, rfl⟩ := mem_startMarks_iff.mp hmark
    rfl
  rw [List.filterMap_append, hstart, List.nil_append, List.filterMap_flatMap, List.map_eq_flatMap]
  exact length_flatMap_le_count fun p _ => length_noteOn_instMarks_le _

end Listed

end Analysis

end BeamDisasm

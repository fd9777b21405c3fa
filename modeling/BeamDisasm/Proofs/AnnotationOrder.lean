import BeamDisasm.Proofs.CrossReferences
import Mathlib.Data.Multiset.ZeroCons

/-!
# The order of annotations

Modules may be annotated in any order. The marks of a module are fixed by the code of all modules, so only the making
of marks is left to compare. Notes are made on the module that is annotated and nowhere else. Callers are noted on any
module, and each of them once; two of them that trade places leave the same callers in another order. So marks of
different modules commute up to the order of callers, and with them the annotations.
-/
namespace BeamDisasm

/-! ## Steps that commute up to a relation -/

section Folds

variable {σ α β : Type} {r : σ → σ → Prop} {f : σ → α → σ} {g : σ → β → σ}

theorem foldl_respects (hf : ∀ a s t, r s t → r (f s a) (f t a)) (as : List α) {s t : σ} (h : r s t) :
    r (as.foldl f s) (as.foldl f t) := by
  induction as generalizing s t with
  | nil => exact h
  | cons a as ih => exact ih (hf a s t h)

/-- A step can be put behind steps that it commutes with. -/
theorem foldl_after_step (hr : Equivalence r) (hg : ∀ b s t, r s t → r (g s b) (g t b)) {step : σ → σ}
    (hcomm : ∀ s b, r (g (step s) b) (step (g s b))) (bs : List β) (s : σ) :
    r (bs.foldl g (step s)) (step (bs.foldl g s)) := by
  induction bs generalizing s with
  | nil => exact hr.refl _
  | cons b bs ih => exact hr.trans (foldl_respects hg bs (hcomm s b)) (ih (g s b))

/-- Two runs of steps commute if their steps do. -/
theorem foldl_foldl_comm (hr : Equivalence r) (hf : ∀ a s t, r s t → r (f s a) (f t a))
    (hg : ∀ b s t, r s t → r (g s b) (g t b)) (hcomm : ∀ s a b, r (g (f s a) b) (f (g s b) a))
    (as : List α) (bs : List β) (s : σ) :
    r (bs.foldl g (as.foldl f s)) (as.foldl f (bs.foldl g s)) := by
  induction as generalizing s with
  | nil => exact hr.refl _
  | cons a as ih =>
      have hstep := foldl_after_step hr hg (fun s b => hcomm s a b) bs s
      exact hr.trans (ih (f s a)) (foldl_respects hf as hstep)

/-- Steps that commute with each other can be taken in any order. -/
theorem foldl_perm_of_comm (hr : Equivalence r) (hf : ∀ a s t, r s t → r (f s a) (f t a))
    (hcomm : ∀ s a b, r (f (f s a) b) (f (f s b) a)) {as bs : List α} (h : as.Perm bs) (s : σ) :
    r (as.foldl f s) (bs.foldl f s) := by
  induction h generalizing s with
  | nil => exact hr.refl s
  | cons a _ ih => exact ih (f s a)
  | swap a b as => exact foldl_respects hf as (hcomm s b a)
  | trans _ _ ih ih' => exact hr.trans (ih s) (ih' s)

end Folds

/-- Changes that respect what is seen of the members of a list respect what is seen of the list. -/
theorem map_map_of_map_eq {α β : Type} {seen : α → β} {change : α → α}
    (hchange : ∀ x y, seen x = seen y → seen (change x) = seen (change y)) {xs ys : List α}
    (h : xs.map seen = ys.map seen) : (xs.map change).map seen = (ys.map change).map seen := by
  induction xs generalizing ys with
  | nil => rw [List.map_eq_nil_iff.mp h.symm]
  | cons x xs ih =>
      cases ys with
      | nil => simp at h
      | cons y ys =>
          simp only [List.map_cons, List.cons.injEq] at h ⊢
          exact ⟨hchange x y h.1, ih h.2⟩

/-! ## Blocks -/

namespace Block

/-- What is seen of a block when the order of its callers does not count. -/
def seen (b : Block) : Block × Multiset String :=
  ({ b with callers := [] }, b.callers)

/-- Two blocks that differ in the order of their callers only. -/
structure SameRemarks (b c : Block) : Prop where
  rest_eq : { b with callers := [] } = { c with callers := [] }
  callers_perm : b.callers.Perm c.callers

theorem seen_eq_iff {b c : Block} : b.seen = c.seen ↔ b.SameRemarks c := by
  rw [seen, seen, Prod.mk.injEq, Multiset.coe_eq_coe]
  exact ⟨fun h => ⟨h.1, h.2⟩, fun h => ⟨h.1, h.2⟩⟩

theorem label_of_seen {b c : Block} (h : b.seen = c.seen) : b.label = c.label :=
  congrArg (fun v => v.1.label) h

/-- A caller is kept once, whatever the order of those that are there. -/
theorem seen_addCaller (b : Block) (s : String) :
    (b.addCaller s).seen = (b.seen.1, if s ∈ b.seen.2 then b.seen.2 else s ::ₘ b.seen.2) := by
  by_cases hs : s ∈ b.callers
  · simp [addCaller, seen, hs]
  · have hperm : (b.callers ++ [s]).Perm (s :: b.callers) := List.perm_append_singleton s b.callers
    simp [addCaller, seen, hs, hperm]

theorem seen_addNote (b : Block) (note : String) :
    (b.addNote note).seen = (b.seen.1.addNote note, b.seen.2) := rfl

theorem label_addCaller (b : Block) (s : String) : (b.addCaller s).label = b.label := by
  rw [addCaller]
  split <;> rfl

/-- Two callers may come in either order. -/
theorem addCaller_comm (b : Block) (s t : String) :
    ((b.addCaller s).addCaller t).seen = ((b.addCaller t).addCaller s).seen := by
  simp only [seen_addCaller]
  by_cases hst : s = t
  · simp [hst]
  · by_cases hs : s ∈ b.seen.2 <;> by_cases ht : t ∈ b.seen.2 <;> simp [hs, ht, hst, Ne.symm hst, Multiset.cons_swap]

/-- A caller and a note may come in either order. -/
theorem addCaller_addNote (b : Block) (s note : String) :
    ((b.addCaller s).addNote note).seen = ((b.addNote note).addCaller s).seen := by
  rw [seen_addNote, seen_addCaller, seen_addCaller]
  rfl

section Update

variable {label label' : Index} {f g : Block → Block}

theorem map_seen_update (hf : ∀ b c, b.seen = c.seen → (f b).seen = (f c).seen) {bs cs : List Block}
    (h : bs.map seen = cs.map seen) : (update label f bs).map seen = (update label f cs).map seen := by
  refine map_map_of_map_eq (fun b c hbc => ?_) h
  rw [label_of_seen hbc]
  split
  · exact hf b c hbc
  · exact hbc

/-- Changes that commute do so also where they meet in some blocks only. -/
theorem map_seen_update_comm (label label' : Index) (hf : ∀ b, (f b).label = b.label) (hg : ∀ b, (g b).label = b.label)
    (hcomm : ∀ b, (g (f b)).seen = (f (g b)).seen) (bs : List Block) :
    (update label' g (update label f bs)).map seen = (update label f (update label' g bs)).map seen := by
  simp only [update, List.map_map]
  refine List.map_congr_left fun b _ => ?_
  simp only [Function.comp_apply]
  by_cases hb : b.label.same label = true <;> by_cases hb' : b.label.same label' = true <;>
    simp [hb, hb', hf, hg, hcomm]

end Update

end Block

/-! ## Modules -/

namespace Analysis

/-- What is seen of a module when the order of callers does not count. -/
def seen (a : Analysis) : Module × List Function × List (Nat × String) × List (Block × Multiset String) :=
  (a.module, a.functions, a.notes, a.blocks.map Block.seen)

/-- Two modules with the same notes on their instructions, by position, and blocks that differ in the order of their
callers only. -/
structure SameRemarks (a b : Analysis) : Prop where
  module_eq : a.module = b.module
  functions_eq : a.functions = b.functions
  notes_eq : a.notes = b.notes
  blocks : List.Forall₂ Block.SameRemarks a.blocks b.blocks

theorem sameRemarks_of_seen {a b : Analysis} (h : a.seen = b.seen) : a.SameRemarks b := by
  simp only [seen, Prod.mk.injEq] at h
  obtain ⟨hmodule, hfunctions, hnotes, hblocks⟩ := h
  refine ⟨hmodule, hfunctions, hnotes, ?_⟩
  rw [← List.forall₂_eq_eq_eq, List.forall₂_map_left_iff, List.forall₂_map_right_iff] at hblocks
  exact hblocks.imp fun b c hbc => Block.seen_eq_iff.mp hbc

end Analysis

/-! ## Marks -/

namespace Mark

/-- What making a mark does to the module that it is made on. -/
def change : Mark → Analysis → Analysis
  | .block label note => fun a => a.updateBlock label (·.addNote note)
  | .inst position note => fun a => { a with notes := a.notes ++ [(position, note)] }
  | .caller _ label name => fun a => a.updateBlock label (·.addCaller name)

/-- The place of the module that a mark is made on. -/
def target (own : Nat) (places : List Nat) : Mark → Option Nat
  | .block _ _ | .inst _ _ => some own
  | .caller n _ _ => places[n]?

/-- The mark notes a caller. -/
def isCaller : Mark → Bool
  | .caller _ _ _ => true
  | _ => false

theorem target_of_not_caller {mark : Mark} (h : mark.isCaller = false) (own : Nat) (places : List Nat) :
    mark.target own places = some own := by
  cases mark with
  | block label note => rfl
  | inst position note => rfl
  | caller n label name => simp [isCaller] at h

theorem seen_change (mark : Mark) {a b : Analysis} (h : a.seen = b.seen) :
    (mark.change a).seen = (mark.change b).seen := by
  simp only [Analysis.seen, Prod.mk.injEq] at h ⊢
  obtain ⟨hmodule, hfunctions, hnotes, hblocks⟩ := h
  cases mark with
  | block label note =>
      refine ⟨hmodule, hfunctions, hnotes, Block.map_seen_update (fun b c hbc => ?_) hblocks⟩
      rw [Block.seen_addNote, Block.seen_addNote, hbc]
  | inst position note => exact ⟨hmodule, hfunctions, by simp [change, hnotes], hblocks⟩
  | caller n label name =>
      refine ⟨hmodule, hfunctions, hnotes, Block.map_seen_update (fun b c hbc => ?_) hblocks⟩
      rw [Block.seen_addCaller, Block.seen_addCaller, hbc]

/-- A mark for a caller commutes with every mark. -/
theorem change_comm_of_caller {mark mark' : Mark} (h : mark.isCaller = true) (a : Analysis) :
    (mark'.change (mark.change a)).seen = (mark.change (mark'.change a)).seen := by
  cases mark with
  | block label note => simp [isCaller] at h
  | inst position note => simp [isCaller] at h
  | caller n label name =>
      cases mark' with
      | inst position note => rfl
      | block label' note =>
          have hblocks := Block.map_seen_update_comm label label'
            (fun b => Block.label_addCaller b name) (fun b => (rfl : (b.addNote note).label = b.label))
            (fun b => Block.addCaller_addNote b name note) a.blocks
          simp only [Analysis.seen, change, Analysis.updateBlock, hblocks]
      | caller n' label' name' =>
          have hblocks := Block.map_seen_update_comm label label'
            (fun b => Block.label_addCaller b name) (fun b => Block.label_addCaller b name')
            (fun b => Block.addCaller_comm b name name') a.blocks
          simp only [Analysis.seen, change, Analysis.updateBlock, hblocks]

theorem change_comm {mark mark' : Mark} (h : mark.isCaller = true ∨ mark'.isCaller = true) (a : Analysis) :
    (mark'.change (mark.change a)).seen = (mark.change (mark'.change a)).seen := by
  rcases h with h | h
  · exact change_comm_of_caller h a
  · exact (change_comm_of_caller h a).symm

end Mark

namespace Analysis

variable {as bs cs : List Analysis} {places : List Nat}

theorem make_eq (own : Nat) (places : List Nat) (as : List Analysis) (mark : Mark) :
    make own places as mark = match mark.target own places with
      | some i => as.modify i mark.change
      | none => as := by
  cases mark with
  | block label note => rfl
  | inst position note => rfl
  | caller n label name =>
      cases hplace : places[n]? with
      | none => simp only [make, Mark.target, hplace]
      | some i => simp only [make, Mark.target, Mark.change, hplace]

/-! ## All modules -/

/-- The modules at their places are alike but for the order of callers. -/
def Alike (as bs : List Analysis) : Prop :=
  as.map seen = bs.map seen

theorem alike_equivalence : Equivalence Alike :=
  ⟨fun _ => rfl, fun h => Eq.symm h, fun h h' => Eq.trans h h'⟩

theorem Alike.forall₂ (h : Alike as bs) : List.Forall₂ SameRemarks as bs := by
  unfold Alike at h
  rw [← List.forall₂_eq_eq_eq, List.forall₂_map_left_iff, List.forall₂_map_right_iff] at h
  exact h.imp fun a b hab => sameRemarks_of_seen hab

theorem alike_modify {i : Nat} {f g : Analysis → Analysis} (h : Alike as bs)
    (hfg : ∀ a b, a.seen = b.seen → (f a).seen = (g b).seen) : Alike (as.modify i f) (bs.modify i g) := by
  refine List.ext_getElem? fun k => ?_
  have hk := congrArg (fun l => l[k]?) h
  simp only [List.getElem?_map, List.getElem?_modify] at hk ⊢
  cases ha : as[k]? with
  | none =>
      rw [ha, Option.map_none] at hk
      simp [Option.map_eq_none_iff.mp hk.symm]
  | some a =>
      rw [ha, Option.map_some] at hk
      obtain ⟨b, hb, hseen⟩ := Option.map_eq_some_iff.mp hk.symm
      by_cases hik : i = k
      · simp [hb, hik, hfg a b hseen.symm]
      · simp [hb, hik, hseen]

theorem make_respects (own : Nat) (mark : Mark) (h : Alike as bs) :
    Alike (make own places as mark) (make own places bs mark) := by
  rw [make_eq, make_eq]
  cases mark.target own places with
  | none => exact h
  | some i => exact alike_modify h fun a b => mark.seen_change

/-- Marks of different modules commute: where they are made on one module, one of them notes a caller. -/
theorem make_comm {i j : Nat} (hij : i ≠ j) (mark mark' : Mark) (as : List Analysis) :
    Alike (make j places (make i places as mark) mark') (make i places (make j places as mark') mark) := by
  simp only [make_eq]
  cases hk : mark.target i places with
  | none => exact alike_equivalence.refl _
  | some k =>
      cases hl : mark'.target j places with
      | none => exact alike_equivalence.refl _
      | some l =>
          by_cases hkl : k = l
          · subst hkl
            have hcaller : mark.isCaller = true ∨ mark'.isCaller = true := by
              by_contra hnone
              simp only [not_or, Bool.not_eq_true] at hnone
              rw [Mark.target_of_not_caller hnone.1] at hk
              rw [Mark.target_of_not_caller hnone.2] at hl
              exact hij (Option.some.inj (hk.trans hl.symm))
            simp only [List.modify_modify_eq]
            refine alike_modify rfl fun a b hab => ?_
            exact (Mark.change_comm hcaller a).trans (mark.seen_change (mark'.seen_change hab))
          · simp only [List.modify_modify_ne _ _ _ hkl]
            exact alike_equivalence.refl _

theorem map_frame_make (own : Nat) (places : List Nat) (as : List Analysis) (mark : Mark) :
    (make own places as mark).map frame = as.map frame := by
  have hcode : ∀ (a : Analysis) (label : Index) (f : Block → Block), (∀ b, (f b).code = b.code) →
      (a.updateBlock label f).frame = a.frame := by
    intro a label f hf
    have hblocks : (a.updateBlock label f).blocks.map Block.code = a.blocks.map Block.code :=
      Block.SameCode.update hf label
    exact congrArg (fun blocks => (a.module, a.functions, blocks)) hblocks
  have hchange : ∀ a, (mark.change a).frame = a.frame := by
    intro a
    cases mark with
    | block label note => exact hcode a label _ fun b => rfl
    | inst position note => rfl
    | caller n label name =>
        refine hcode a label _ fun b => ?_
        rw [Block.addCaller]
        split <;> rfl
  rw [make_eq]
  cases mark.target own places with
  | none => rfl
  | some i =>
      refine List.ext_getElem? fun k => ?_
      simp only [List.getElem?_map, List.getElem?_modify]
      cases as[k]? with
      | none => rfl
      | some a => by_cases hik : i = k <;> simp [hik, hchange]

theorem map_frame_foldl_make (own : Nat) (places : List Nat) (marks : List Mark) (as : List Analysis) :
    (marks.foldl (make own places) as).map frame = as.map frame := by
  induction marks generalizing as with
  | nil => rfl
  | cons mark marks ih => exact (ih _).trans (map_frame_make own places as mark)

/-! ## Annotations -/

/-- The marks of the module at a place among those at `places`. -/
def marksAt (as : List Analysis) (places : List Nat) (i : Nat) : Marks :=
  match as[i]? with
  | none => ⟨[], some .noSuchEntry⟩
  | some a => a.marks (places.filterMap (as[·]?))

theorem annotate_eq (as : List Analysis) (i : Nat) (places : List Nat) :
    annotate as i places = ((marksAt as places i).marks.foldl (make i places) as, (marksAt as places i).fault) := by
  unfold annotate marksAt
  cases as[i]? <;> rfl

theorem marksAt_congr (h : cs.map frame = as.map frame) (i : Nat) : marksAt cs places i = marksAt as places i := by
  have hget : ∀ k : Nat, cs[k]?.map frame = as[k]?.map frame := by
    intro k
    rw [← List.getElem?_map, ← List.getElem?_map, h]
  have hothers : (places.filterMap (cs[·]?)).map frame = (places.filterMap (as[·]?)).map frame := by
    simp only [List.map_filterMap, hget]
  have hi := hget i
  unfold marksAt
  cases ha : as[i]? with
  | none =>
      rw [ha, Option.map_none] at hi
      rw [Option.map_eq_none_iff.mp hi]
  | some a =>
      rw [ha, Option.map_some] at hi
      obtain ⟨c, hc, hframe⟩ := Option.map_eq_some_iff.mp hi
      rw [hc]
      exact marks_congr hframe hothers

/-- Annotates the modules at some places one after the other, each among those at `places`. A module may stand at
several of these. -/
def annotateAmong (places : List Nat) : List Nat → List Analysis → Except Fault (List Analysis)
  | [], as => .ok as
  | i :: is, as =>
    match annotate as i places with
    | (_, some e) => .error e
    | (as', none) => annotateAmong places is as'

/-- Annotations succeed if no listing of marks fails, and then all marks have been made. The marks are those that the
modules had at the start. -/
theorem annotateAmong_eq_ok_iff (is : List Nat) (hframe : cs.map frame = as.map frame) :
    annotateAmong places is cs = .ok bs ↔ (∀ i ∈ is, (marksAt as places i).fault = none) ∧
      is.foldl (fun cs i => (marksAt as places i).marks.foldl (make i places) cs) cs = bs := by
  induction is generalizing cs with
  | nil => simp [annotateAmong]
  | cons i is ih =>
      rw [annotateAmong, annotate_eq, marksAt_congr hframe]
      cases hfault : (marksAt as places i).fault with
      | some e => simp [hfault]
      | none =>
          simp only [List.forall_mem_cons, hfault, true_and, List.foldl_cons]
          exact ih ((map_frame_foldl_make i places _ cs).trans hframe)

/-- Annotating among all modules is annotating each. -/
theorem annotateEach_eq (is : List Nat) (as : List Analysis) :
    annotateEach is as = annotateAmong (List.range as.length) is as := by
  induction is generalizing as with
  | nil => rfl
  | cons i is ih =>
      rw [annotateEach, annotateAmong]
      rcases hstep : annotate as i (List.range as.length) with ⟨as', e | _⟩
      · have hlength : as'.length = as.length := by
          rw [annotate_eq, Prod.mk.injEq] at hstep
          have hmap := map_frame_foldl_make i (List.range as.length)
            (marksAt as (List.range as.length) i).marks as
          rw [hstep.1] at hmap
          simpa using congrArg List.length hmap
        simp only [ih as', hlength]
      · rfl

/-- The modules at `places` may be annotated in any order, once for each place: if no annotation fails in one order
then none fails in the other, and the modules have the same notes and the same callers. -/
theorem annotateAmong_any_order {as bs : List Analysis} {places is js : List Nat} (his : is.Perm places)
    (hjs : js.Perm places) (h : annotateAmong places is as = .ok bs) :
    ∃ cs, annotateAmong places js as = .ok cs ∧ List.Forall₂ SameRemarks bs cs := by
  have hperm : is.Perm js := his.trans hjs.symm
  obtain ⟨hfaults, rfl⟩ := (annotateAmong_eq_ok_iff is rfl).mp h
  refine ⟨_, (annotateAmong_eq_ok_iff js rfl).mpr ⟨fun j hj => hfaults j (hperm.mem_iff.mpr hj), rfl⟩, ?_⟩
  refine Alike.forall₂ (foldl_perm_of_comm alike_equivalence ?_ ?_ hperm as)
  · intro i cs ds hcs
    exact foldl_respects (fun mark _ _ hd => make_respects i mark hd) _ hcs
  · intro cs i j
    by_cases hij : i = j
    · rw [hij]
      exact alike_equivalence.refl _
    · exact foldl_foldl_comm alike_equivalence (fun mark _ _ hd => make_respects i mark hd)
        (fun mark _ _ hd => make_respects j mark hd) (fun ds mark mark' => make_comm hij mark mark' ds) _ _ cs

/-- A module with the function `gamma:go/0`, which calls `beta:run/0` as the client does. -/
def rival : Module :=
  { client with atoms := some ⟨AtomTable.placeholder :: ["gamma", "go", "beta", "run"].map Bytes.ofText⟩ }

/-- The callers at the blocks of modules. -/
def callersOf (as : List Analysis) : List (List (List String)) :=
  as.map fun a => a.blocks.map Block.callers

/-- Two modules that call a third one are noted there in the order in which they are annotated. -/
theorem annotateAmong_any_order_rivals :
    ∃ as bs cs, as.map Analysis.module = [client, rival, server] ∧
      (∀ a ∈ as, ∃ m warnings, build m = .ok (a, warnings)) ∧
      annotateEach [0, 1, 2] as = .ok bs ∧ callersOf bs = [[[], []], [[], []], [[], ["alpha:go/0", "gamma:go/0"]]] ∧
      annotateEach [1, 0, 2] as = .ok cs ∧ callersOf cs = [[[], []], [[], []], [[], ["gamma:go/0", "alpha:go/0"]]] ∧
      List.Forall₂ SameRemarks bs cs := by
  obtain ⟨a, b, c, bs, cs, ha, hb, hc, hmodules, hrun, hcallers, hrun', hcallers'⟩ :
      ∃ a b c bs cs, build client = .ok (a, 0) ∧ build rival = .ok (b, 0) ∧ build server = .ok (c, 0) ∧
        [a, b, c].map Analysis.module = [client, rival, server] ∧
        annotateEach [0, 1, 2] [a, b, c] = .ok bs ∧
        callersOf bs = [[[], []], [[], []], [[], ["alpha:go/0", "gamma:go/0"]]] ∧
        annotateEach [1, 0, 2] [a, b, c] = .ok cs ∧
        callersOf cs = [[[], []], [[], []], [[], ["gamma:go/0", "alpha:go/0"]]] :=
    ⟨_, _, _, _, _, by cbv, by cbv, by cbv, by cbv, by cbv, by cbv, by cbv, by cbv⟩
  have hbuild : ∀ x ∈ [a, b, c], ∃ m warnings, build m = .ok (x, warnings) := by
    simp only [List.mem_cons, List.not_mem_nil, or_false]
    rintro x (rfl | rfl | rfl)
    · exact ⟨client, 0, ha⟩
    · exact ⟨rival, 0, hb⟩
    · exact ⟨server, 0, hc⟩
  have hamong : annotateAmong [0, 1, 2] [0, 1, 2] [a, b, c] = .ok bs := (annotateEach_eq _ _).symm.trans hrun
  obtain ⟨ds, hds, hsame⟩ := annotateAmong_any_order (List.Perm.refl _) (List.Perm.swap 0 1 [2]) hamong
  obtain rfl : cs = ds := Except.ok.inj (hrun'.symm.trans ((annotateEach_eq _ _).trans hds))
  exact ⟨[a, b, c], bs, cs, hmodules, hbuild, hrun, hcallers, hrun', hcallers', hsame⟩

end Analysis

end BeamDisasm

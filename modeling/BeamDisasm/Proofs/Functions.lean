import BeamDisasm.Analysis.Function
import BeamDisasm.Proofs.Steps
import Mathlib.Data.List.Basic
import Mathlib.Data.List.Nodup
import Mathlib.Data.List.Pairwise

/-!
# Functions share out the blocks

The search for functions hands every label to exactly one function: the labels of the functions found so far,
followed by those met since the open header, are always the labels of the blocks gone through.
-/
namespace BeamDisasm

namespace Function

theorem blocks_ofHeader {header : Instruction} {blocks : List Index} {f : Function}
    (h : ofHeader header blocks = .ok f) : f.blocks = blocks := by
  unfold ofHeader at h
  obtain ⟨m, -, h⟩ := exists_of_bind h
  obtain ⟨n, -, h⟩ := exists_of_bind h
  obtain ⟨a, -, h⟩ := exists_of_bind h
  rw [← Except.ok.inj h]

namespace Search

/-- The labels that are handed out: those of the functions found, and those of the open one. -/
def handedOut (s : Search) : List Index :=
  s.found.flatMap Function.blocks ++ s.labels

/-- No function has been found before the first header. -/
def Started (s : Search) : Prop :=
  s.header = none → s.found = []

/-- A header closes the open function, which takes all labels but the one of the current block. -/
theorem meet_spec {s s' : Search} {p : Placed} (h : s.meet p = .ok s') (hs : s.Started) :
    s'.handedOut = s.handedOut ∧ s'.Started := by
  unfold meet at h
  split at h
  · cases hheader : s.header with
    | none =>
        simp only [hheader, Except.ok.injEq] at h
        rw [← h]
        exact ⟨rfl, by simp [Started]⟩
    | some header =>
        simp only [hheader] at h
        obtain ⟨f, hf, h⟩ := exists_of_bind h
        have hcut : s.labels.dropLast ++ s.labels.drop (s.labels.length - 1) = s.labels := by
          rw [List.dropLast_eq_take, List.take_append_drop]
        rw [← Except.ok.inj h]
        refine ⟨?_, by simp [Started]⟩
        simp only [handedOut, List.flatMap_append, List.flatMap_cons, List.flatMap_nil,
          List.append_nil, blocks_ofHeader hf, List.append_assoc, hcut]
  · simp only [Except.ok.injEq] at h
    rw [← h]
    exact ⟨rfl, hs⟩

/-- A block adds its label, whatever headers it holds. -/
theorem enter_spec {s s' : Search} {b : Block} (h : s.enter b = .ok s') (hs : s.Started) :
    s'.handedOut = s.handedOut ++ [b.label] ∧ s'.Started := by
  have hinit : ({ s with labels := s.labels ++ [b.label] } : Search).handedOut =
      s.handedOut ++ [b.label] := by
    simp only [handedOut, List.append_assoc]
  refine foldlM_induction (P := fun t => t.handedOut = s.handedOut ++ [b.label] ∧ t.Started)
    ?_ h ⟨hinit, hs⟩
  rintro t p t' ht ⟨hlabels, hstarted⟩
  have hmeet := meet_spec ht hstarted
  exact ⟨hmeet.1.trans hlabels, hmeet.2⟩

/-- Blocks one after the other add their labels. -/
theorem foldlM_enter_spec {s s' : Search} {bs : List Block} (h : bs.foldlM enter s = .ok s')
    (hs : s.Started) : s'.handedOut = s.handedOut ++ bs.map Block.label ∧ s'.Started := by
  induction bs generalizing s with
  | nil =>
      have heq : s = s' := by simpa [pure, Except.pure] using h
      subst heq
      simp [hs]
  | cons b bs ih =>
      rw [List.foldlM_cons] at h
      obtain ⟨t, hnext, h⟩ := exists_of_bind h
      have henter := enter_spec hnext hs
      obtain ⟨hlabels, hstarted⟩ := ih h henter.2
      rw [henter.1, List.append_assoc] at hlabels
      exact ⟨hlabels, hstarted⟩

end Search

/-- The functions share out the labels of the blocks, in the order of the blocks; without a header there are no
functions at all. -/
theorem findAll_blocks {bs : List Block} {fs : List Function} (h : findAll bs = .ok fs) :
    fs = [] ∨ fs.flatMap Function.blocks = bs.map Block.label := by
  unfold findAll at h
  obtain ⟨s, hs, h⟩ := exists_of_bind h
  obtain ⟨hlabels, hstarted⟩ := Search.foldlM_enter_spec hs (by simp [Search.Started])
  unfold Search.finish at h
  cases hheader : s.header with
  | none =>
      simp only [hheader, Except.ok.injEq] at h
      exact .inl (h ▸ hstarted hheader)
  | some header =>
      simp only [hheader] at h
      obtain ⟨f, hf, h⟩ := exists_of_bind h
      right
      rw [← Except.ok.inj h, List.flatMap_append, List.flatMap_cons, blocks_ofHeader hf, List.flatMap_nil,
        List.append_nil]
      simpa [Search.handedOut] using hlabels

/-- Where no label is handed out twice, a label belongs to one function. -/
theorem eq_of_mem_blocks {fs : List Function} (hnodup : (fs.flatMap Function.blocks).Nodup) {f g : Function}
    (hf : f ∈ fs) (hg : g ∈ fs) {i : Index} (hi : i ∈ f.blocks) (hi' : i ∈ g.blocks) : f = g := by
  by_contra hne
  have hsymm : Std.Symm (Function.onFun List.Disjoint Function.blocks) :=
    ⟨fun _ _ hxy _ hy hx => hxy hx hy⟩
  exact (List.nodup_flatMap.mp hnodup).2.forall hf hg hne hi hi'

end Function

end BeamDisasm

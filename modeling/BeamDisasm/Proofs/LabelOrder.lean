import BeamDisasm.Proofs.Built

/-!
# Blocks in the order of their labels

The labels of a code section may be any numbers, some of them more than once and in any order. Its blocks have each
of these numbers once, in ascending order. Where the labels ascend in the code already, cutting the code is all that
happens: the blocks stand in the order of the code.
-/
namespace BeamDisasm

/-- The labels of the code are these numbers, in the order of the code. -/
def NumberLabels (code : List Instruction) (labels : List Int) : Prop :=
  (code.filter Instruction.isLabel).map (·.indexOf 0) = labels.map fun n => .ok (.number n)

namespace Block

variable {bs : List Block} {labels : List Int} {code : List Instruction}

/-- The labels of the blocks are these numbers, which ascend. -/
structure Ascending (bs : List Block) (labels : List Int) : Prop where
  labels_eq : bs.map Block.label = labels.map Index.number
  ascending : labels.Pairwise (· < ·)

theorem Ascending.numbered (h : Ascending bs labels) : Numbered bs labels :=
  ⟨h.labels_eq, h.ascending.imp fun hlt => Int.ne_of_lt hlt⟩

/-- The number that the label of a block is. -/
def number (b : Block) : Int :=
  match b.label with
  | .number n => n
  | _ => 0

theorem map_number (h : ∀ b ∈ bs, ∃ n, b.label = .number n) :
    bs.map Block.label = (bs.map number).map Index.number := by
  rw [List.map_map]
  refine List.map_congr_left ?_
  intro b hb
  obtain ⟨n, hn⟩ := h b hb
  simp [number, hn]

/-- Of blocks with one label the last is kept, so no label is lost. -/
theorem mem_labels_keepLast (h : ∀ b ∈ bs, ∃ n, b.label = .number n) (i : Index) :
    i ∈ (keepLast bs).map Block.label ↔ i ∈ bs.map Block.label := by
  induction bs with
  | nil => simp [keepLast]
  | cons b bs ih =>
      have hbs := ih fun c hc => h c (by simp [hc])
      obtain ⟨n, hn⟩ := h b (by simp)
      rw [keepLast]
      by_cases hlater : (bs.any fun c => c.label.same b.label) = true
      · have hmem : b.label ∈ bs.map Block.label := by
          obtain ⟨c, hc, hsame⟩ := List.any_eq_true.mp hlater
          rw [hn, Index.same_number, ← hn] at hsame
          exact hsame ▸ List.mem_map_of_mem hc
        rw [if_pos hlater, hbs, List.map_cons, List.mem_cons]
        exact ⟨Or.inr, fun hi => hi.elim (fun heq => heq ▸ hmem) id⟩
      · rw [if_neg hlater, List.map_cons, List.map_cons, List.mem_cons, List.mem_cons, hbs]

theorem comparable_of_numbers (h : ∀ b ∈ bs, ∃ n, b.label = .number n) : comparable bs = true := by
  have hall : (bs.all fun b => b.label.isNumber) = true := by
    rw [List.all_eq_true]
    intro b hb
    obtain ⟨n, hn⟩ := h b hb
    simp [hn, Index.isNumber]
  simp [comparable, hall]

/-- Sorting blocks by their labels sorts the numbers. -/
theorem map_number_mergeSort (h : ∀ b ∈ bs, ∃ n, b.label = .number n) :
    (bs.mergeSort fun a b => a.label.le b.label).map number = (bs.map number).mergeSort fun m n => decide (m ≤ n) := by
  refine List.map_mergeSort ?_
  intro a ha b hb
  obtain ⟨m, hm⟩ := h a ha
  obtain ⟨n, hn⟩ := h b hb
  simp [number, Index.le, hm, hn]

/-- Blocks with distinct numbers that have been put in order ascend. -/
theorem ascending_mergeSort (h : ∀ b ∈ bs, ∃ n, b.label = .number n) (hnodup : (bs.map Block.label).Nodup) :
    Ascending (bs.mergeSort fun a b => a.label.le b.label)
      ((bs.mergeSort fun a b => a.label.le b.label).map number) := by
  have hperm := List.mergeSort_perm bs fun a b => a.label.le b.label
  have hlabels := map_number fun b hb => h b (hperm.mem_iff.mp hb)
  refine ⟨hlabels, ?_⟩
  have hle : ((bs.mergeSort fun a b => a.label.le b.label).map number).Pairwise (· ≤ ·) := by
    rw [map_number_mergeSort h]
    have hsorted := @List.pairwise_mergeSort Int (fun m n => decide (m ≤ n)) (by simp; omega) (by simp; omega)
      (bs.map number)
    simpa using hsorted
  have hne : ((bs.mergeSort fun a b => a.label.le b.label).map number).Nodup := by
    refine List.Nodup.of_map Index.number ?_
    rw [← hlabels]
    exact (hperm.map _).nodup_iff.mpr hnodup
  exact hle.imp₂ (fun m n hmn hdiff => by omega) hne

theorem exists_number_of_labels_eq (h : bs.map Block.label = labels.map Index.number) :
    ∀ b ∈ bs, ∃ n, b.label = .number n := by
  intro b hb
  have hmem : b.label ∈ labels.map Index.number := h ▸ List.mem_map_of_mem hb
  obtain ⟨n, -, hn⟩ := List.mem_map.mp hmem
  exact ⟨n, hn.symm⟩

/-- Where the labels are numbers, the blocks are those of the code, put in order after the last of each number was
kept. -/
theorem exists_inSource (h : NumberLabels code labels) :
    ∃ cs, inSource code = .ok cs ∧ cs.map Block.label = labels.map Index.number ∧
      itemize code = .ok ((keepLast cs).mergeSort fun a b => a.label.le b.label) ∧
      Ascending ((keepLast cs).mergeSort fun a b => a.label.le b.label)
        (((keepLast cs).mergeSort fun a b => a.label.le b.label).map number) := by
  obtain ⟨cs, hcs, hlabels, -, -⟩ := mapM_ofPart ((map_indexOf_parts code).trans h)
  have hkept : ∀ b ∈ keepLast cs, ∃ n, b.label = .number n :=
    fun b hb => exists_number_of_labels_eq hlabels b (keepLast_subset cs hb)
  have hcomparable := comparable_of_numbers hkept
  refine ⟨cs, hcs, hlabels, ?_, ascending_mergeSort hkept (labels_nodup_keepLast hcomparable)⟩
  rw [itemize, hcs]
  change inOrder (keepLast cs) = _
  rw [inOrder, if_pos hcomparable]

/-- The blocks of code whose labels are numbers have each of these numbers once, in ascending order. -/
theorem itemize_ascending (h : NumberLabels code labels) :
    ∃ bs ns, itemize code = .ok bs ∧ Ascending bs ns ∧ ∀ n, n ∈ ns ↔ n ∈ labels := by
  obtain ⟨cs, -, hlabels, hbs, hascending⟩ := exists_inSource h
  have hperm := List.mergeSort_perm (keepLast cs) fun a b => a.label.le b.label
  refine ⟨_, _, hbs, hascending, fun n => ?_⟩
  rw [← List.mem_map_of_injective Index.number_injective, ← hascending.labels_eq, (hperm.map _).mem_iff,
    mem_labels_keepLast (exists_number_of_labels_eq hlabels), hlabels,
    List.mem_map_of_injective Index.number_injective]

/-- Where the labels ascend in the code, the blocks are the parts of the code, in its order. -/
theorem itemize_of_ascending (h : NumberLabels code labels) (hascending : labels.Pairwise (· < ·)) :
    ∃ bs, itemize code = .ok bs ∧ Ascending bs labels ∧
      bs.map Block.insts = (cut (placeFrom 0 code)).2.map (·.2) ∧ ∀ b ∈ bs, b.Fresh := by
  obtain ⟨bs, hbs, hlabels, hinsts, hfresh⟩ := mapM_ofPart ((map_indexOf_parts code).trans h)
  have hblocks : Ascending bs labels := ⟨hlabels, hascending⟩
  have hsorted : (bs.mergeSort fun a b => a.label.le b.label) = bs := by
    refine List.mergeSort_of_pairwise ?_
    have hpairs : (bs.map Block.label).Pairwise fun i j => i.le j = true := by
      rw [hlabels, List.pairwise_map]
      exact hascending.imp fun hlt => by simpa [Index.le] using Int.le_of_lt hlt
    rwa [List.pairwise_map] at hpairs
  refine ⟨bs, ?_, hblocks, hinsts, hfresh⟩
  rw [itemize, hbs]
  change inOrder (keepLast bs) = _
  rw [hblocks.numbered.keepLast_eq, hblocks.numbered.inOrder_eq, hsorted]

end Block

end BeamDisasm

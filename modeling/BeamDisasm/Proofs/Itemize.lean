import BeamDisasm.Analysis.Itemize
import BeamDisasm.Proofs.Steps
import Mathlib.Data.List.Basic
import Mathlib.Data.List.Nodup
import Mathlib.Data.List.Perm.Basic

/-!
# Blocks with distinct numbers

Where the labels of a code section are distinct numbers, its blocks are its code cut at the labels. Looking a number
up finds the block that has it, and changing a block leaves every other one as it was.
-/
namespace BeamDisasm

theorem Index.same_number (i : Index) (n : Int) : i.same (.number n) = true ↔ i = .number n := by
  cases i <;> simp [Index.same]

/-- Indexes that are numbers are the indexes of a list of numbers. -/
theorem Index.exists_numbers {is : List Index} (h : ∀ i ∈ is, ∃ n, i = .number n) :
    ∃ ns : List Int, is = ns.map Index.number := by
  induction is with
  | nil => exact ⟨[], rfl⟩
  | cons i is ih =>
      obtain ⟨n, rfl⟩ := h i (by simp)
      obtain ⟨ns, rfl⟩ := ih fun j hj => h j (by simp [hj])
      exact ⟨n :: ns, rfl⟩

theorem Index.number_injective : Function.Injective Index.number :=
  fun _ _ h => Index.number.inj h

/-- The labels of the code are these distinct numbers, in the order of the code. -/
structure Labelled (code : List Instruction) (labels : List Int) : Prop where
  labels_eq : (code.filter Instruction.isLabel).map (·.indexOf 0) = labels.map fun n => .ok (.number n)
  nodup : labels.Nodup

namespace Block

/-- The labels of the blocks are these distinct numbers, in the order of the blocks. -/
structure Numbered (bs : List Block) (labels : List Int) : Prop where
  labels_eq : bs.map Block.label = labels.map Index.number
  nodup : labels.Nodup

/-! ## Lookup -/

variable {bs : List Block} {labels : List Int}

theorem label_of_find? {n : Int} {b : Block} (h : find? bs (.number n) = some b) : b.label = .number n := by
  have hsame := List.find?_some (p := fun b : Block => b.label.same (.number n)) h
  exact (Index.same_number b.label n).mp hsame

theorem Numbered.label_mem (h : Numbered bs labels) {b : Block} (hb : b ∈ bs) :
    ∃ n ∈ labels, b.label = .number n := by
  have hmem : b.label ∈ bs.map Block.label := List.mem_map_of_mem hb
  rw [h.labels_eq] at hmem
  obtain ⟨n, hn, heq⟩ := List.mem_map.mp hmem
  exact ⟨n, hn, heq.symm⟩

theorem Numbered.exists_block (h : Numbered bs labels) {n : Int} (hn : n ∈ labels) :
    ∃ b ∈ bs, b.label = .number n := by
  have hmem : Index.number n ∈ labels.map Index.number := List.mem_map_of_mem hn
  rw [← h.labels_eq] at hmem
  exact List.mem_map.mp hmem

theorem Numbered.labels_nodup (h : Numbered bs labels) : (bs.map Block.label).Nodup := by
  rw [h.labels_eq]
  exact h.nodup.map Index.number_injective

/-- Looking a number up finds the block that has it. -/
theorem Numbered.find?_eq_some_iff (h : Numbered bs labels) {n : Int} {b : Block} :
    find? bs (.number n) = some b ↔ b ∈ bs ∧ b.label = .number n := by
  constructor
  · intro hb
    exact ⟨List.mem_of_find?_eq_some hb, label_of_find? hb⟩
  · rintro ⟨hmem, hlabel⟩
    have hsome : (find? bs (.number n)).isSome := by
      rw [find?, List.find?_isSome]
      exact ⟨b, hmem, (Index.same_number b.label n).mpr hlabel⟩
    obtain ⟨c, hc⟩ := Option.isSome_iff_exists.mp hsome
    have hsame : c.label = b.label := (label_of_find? hc).trans hlabel.symm
    have hcb : c = b := List.inj_on_of_nodup_map h.labels_nodup (List.mem_of_find?_eq_some hc) hmem hsame
    rw [hc, hcb]

theorem Numbered.find?_isSome_iff (h : Numbered bs labels) {n : Int} :
    (find? bs (.number n)).isSome ↔ n ∈ labels := by
  constructor
  · intro hsome
    obtain ⟨b, hb⟩ := Option.isSome_iff_exists.mp hsome
    obtain ⟨hmem, hlabel⟩ := h.find?_eq_some_iff.mp hb
    obtain ⟨k, hk, heq⟩ := h.label_mem hmem
    rw [hlabel] at heq
    rwa [Index.number.inj heq]
  · intro hn
    obtain ⟨b, hb, hlabel⟩ := h.exists_block hn
    rw [h.find?_eq_some_iff.mpr ⟨hb, hlabel⟩]
    rfl

/-- No block with a number is found under a label that is none. -/
theorem Numbered.find?_of_not_number (h : Numbered bs labels) {i : Index} (hi : ∀ n, i ≠ .number n) :
    find? bs i = none := by
  rw [find?, List.find?_eq_none]
  intro b hb
  obtain ⟨n, -, hn⟩ := h.label_mem hb
  cases i with
  | number k => exact absurd rfl (hi k)
  | _ => simp [hn, Index.same]

/-- A part of the blocks that a change keeps. -/
theorem map_update {α : Type} {part : Block → α} {f : Block → Block} (hf : ∀ b, part (f b) = part b) (label : Index)
    (bs : List Block) : (update label f bs).map part = bs.map part := by
  rw [update, List.map_map]
  refine List.map_congr_left fun b _ => ?_
  rw [Function.comp_apply]
  split
  · exact hf b
  · rfl

/-- Changing the block of one number is seen at this number only. -/
theorem find?_update {f : Block → Block} (hf : ∀ b, (f b).label = b.label) (bs : List Block) (k n : Int) :
    find? (update (.number k) f bs) (.number n) =
      if n = k then (find? bs (.number n)).map f else find? bs (.number n) := by
  have hlabel : ∀ b : Block, (if b.label.same (.number k) then f b else b).label = b.label := by
    intro b
    split
    · exact hf b
    · rfl
  have hpred : ((fun b => b.label.same (.number n)) ∘ fun b : Block =>
      if b.label.same (.number k) then f b else b) = fun b => b.label.same (.number n) := by
    funext b
    simp only [Function.comp_apply, hlabel]
  have hmap : find? (update (.number k) f bs) (.number n) =
      (find? bs (.number n)).map fun b => if b.label.same (.number k) then f b else b := by
    rw [update, find?, List.find?_map, hpred, find?]
  rw [hmap]
  cases hb : find? bs (.number n) with
  | none => simp
  | some b =>
      have hn := label_of_find? hb
      by_cases hk : n = k
      · have hsame := (Index.same_number b.label k).mpr (by rw [hn, hk])
        simp only [Option.map_some, if_pos hsame, if_pos hk]
      · have hsame : ¬ b.label.same (.number k) = true := by
          rw [Index.same_number, hn]
          exact fun heq => hk (Index.number.inj heq)
        simp only [Option.map_some, if_neg hsame, if_neg hk]

/-! ## Cutting code at its labels -/

theorem map_inst_placeFrom (n : Nat) (code : List Instruction) : (placeFrom n code).map (·.inst) = code := by
  induction code generalizing n with
  | nil => rfl
  | cons inst insts ih => rw [placeFrom, List.map_cons, ih]

/-- Nothing is lost where code is cut. -/
theorem cut_flatten (ps : List Placed) :
    (cut ps).1 ++ (cut ps).2.flatMap (fun part => part.1 :: part.2) = ps := by
  induction ps with
  | nil => rfl
  | cons p ps ih =>
      rw [cut]
      by_cases hp : p.inst.isLabel
      · simpa [hp] using ih
      · simpa [hp] using ih

/-- The parts start at the labels of the code, one for each. -/
theorem cut_heads (ps : List Placed) : (cut ps).2.map (·.1) = ps.filter (·.inst.isLabel) := by
  induction ps with
  | nil => rfl
  | cons p ps ih =>
      rw [cut]
      by_cases hp : p.inst.isLabel
      · simp [hp, ih]
      · simp [hp, ih]

/-- The parts start with the labels of the code. -/
theorem map_inst_parts (code : List Instruction) :
    (cut (placeFrom 0 code)).2.map (·.1.inst) = code.filter Instruction.isLabel := by
  have hheads := congrArg (List.map Placed.inst) (cut_heads (placeFrom 0 code))
  rw [List.map_map] at hheads
  conv_rhs => rw [← map_inst_placeFrom 0 code, List.filter_map]
  exact hheads

theorem map_indexOf_parts (code : List Instruction) :
    (cut (placeFrom 0 code)).2.map (fun part => part.1.inst.indexOf 0) =
      (code.filter Instruction.isLabel).map (·.indexOf 0) := by
  rw [← map_inst_parts, List.map_map]
  rfl

/-- What stands in a part stands in the code. -/
theorem mem_of_mem_part {ps : List Placed} {part : Placed × List Placed} {p : Placed}
    (hpart : part ∈ (cut ps).2) (hp : p ∈ part.2) : p ∈ ps := by
  rw [← cut_flatten ps]
  refine List.mem_append_right _ (List.mem_flatMap.mpr ⟨part, hpart, ?_⟩)
  exact List.mem_cons_of_mem _ hp

/-- A block that has its label and its instructions, and nothing else yet. -/
def Fresh (b : Block) : Prop :=
  b = { label := b.label, insts := b.insts }

/-- Parts whose labels are numbers become blocks with these numbers. -/
theorem mapM_ofPart {parts : List (Placed × List Placed)}
    (h : parts.map (fun part => part.1.inst.indexOf 0) = labels.map fun n => .ok (.number n)) :
    ∃ bs, parts.mapM ofPart = .ok bs ∧ bs.map Block.label = labels.map Index.number ∧
      bs.map Block.insts = parts.map (·.2) ∧ ∀ b ∈ bs, b.Fresh := by
  induction parts generalizing labels with
  | nil =>
      have hnil : labels = [] := by simpa using h.symm
      subst hnil
      exact ⟨[], rfl, rfl, rfl, by simp⟩
  | cons part parts ih =>
      cases labels with
      | nil => simp at h
      | cons n labels =>
          simp only [List.map_cons, List.cons.injEq] at h
          obtain ⟨bs, hbs, hlabels, hinsts, hfresh⟩ := ih h.2
          refine ⟨{ label := .number n, insts := part.2 } :: bs, ?_, ?_, ?_, ?_⟩
          · rw [List.mapM_cons, ofPart, h.1, hbs]
            rfl
          · simp [hlabels]
          · simp [hinsts]
          · intro b hb
            rcases List.mem_cons.mp hb with rfl | hb
            · rfl
            · exact hfresh b hb

/-- Among blocks with distinct numbers none hides another. -/
theorem Numbered.keepLast_eq (h : Numbered bs labels) : keepLast bs = bs := by
  induction bs generalizing labels with
  | nil => rfl
  | cons b bs ih =>
      obtain ⟨n, -, hn⟩ := h.label_mem (List.mem_cons_self ..)
      have hnodup := h.labels_nodup
      rw [List.map_cons, List.nodup_cons] at hnodup
      have hother : ¬ bs.any (fun c => c.label.same b.label) = true := by
        rw [List.any_eq_true]
        rintro ⟨c, hc, hsame⟩
        rw [hn, Index.same_number, ← hn] at hsame
        exact hnodup.1 (hsame ▸ List.mem_map_of_mem hc)
      cases labels with
      | nil => simpa using h.labels_eq
      | cons k labels =>
          have htail : Numbered bs labels := ⟨(List.cons.inj h.labels_eq).2, (List.nodup_cons.mp h.nodup).2⟩
          rw [keepLast, if_neg hother, ih htail]

/-- Blocks in another order have the numbers in another order. -/
theorem Numbered.perm (h : Numbered bs labels) {bs' : List Block} (hperm : bs'.Perm bs) :
    ∃ labels', labels'.Perm labels ∧ Numbered bs' labels' := by
  have hnumbers : ∀ i ∈ bs'.map Block.label, ∃ n, i = .number n := by
    intro i hi
    obtain ⟨b, hb, rfl⟩ := List.mem_map.mp hi
    obtain ⟨n, -, hn⟩ := h.label_mem (hperm.mem_iff.mp hb)
    exact ⟨n, hn⟩
  obtain ⟨labels', hlabels⟩ := Index.exists_numbers hnumbers
  have hlabelsPerm : labels'.Perm labels := by
    rw [← List.map_perm_map_iff Index.number_injective, ← hlabels, ← h.labels_eq]
    exact hperm.map _
  exact ⟨labels', hlabelsPerm, hlabels, hlabelsPerm.nodup_iff.mpr h.nodup⟩

/-- Blocks with numbers can be put in order. -/
theorem Numbered.inOrder_eq (h : Numbered bs labels) :
    inOrder bs = .ok (bs.mergeSort fun a b => a.label.le b.label) := by
  have hall : (bs.all fun b => b.label.isNumber) = true := by
    rw [List.all_eq_true]
    intro b hb
    obtain ⟨n, -, hn⟩ := h.label_mem hb
    rw [hn]
    rfl
  rw [inOrder, if_pos]
  simp [comparable, hall]

/-! ## Blocks of code -/

/-- The blocks of the code in its order, one for each label. -/
def inSource (code : List Instruction) : Except Fault (List Block) :=
  (cut (placeFrom 0 code)).2.mapM ofPart

theorem keepLast_sublist (bs : List Block) : (keepLast bs).Sublist bs := by
  induction bs with
  | nil => exact List.Sublist.refl _
  | cons b bs ih =>
      rw [keepLast]
      split
      · exact ih.cons b
      · exact ih.cons_cons b

theorem keepLast_subset (bs : List Block) : keepLast bs ⊆ bs :=
  (keepLast_sublist bs).subset

/-- Blocks that code was cut into are those of its labels, of which the last of each was kept, in another order. -/
theorem exists_of_itemize {code : List Instruction} (h : itemize code = .ok bs) :
    ∃ cs, inSource code = .ok cs ∧ comparable (keepLast cs) = true ∧ bs.Perm (keepLast cs) := by
  obtain ⟨cs, hcs, h⟩ := exists_of_bind h
  rw [inOrder] at h
  by_cases hcomparable : comparable (keepLast cs) = true
  · rw [if_pos hcomparable] at h
    refine ⟨cs, hcs, hcomparable, ?_⟩
    rw [← Except.ok.inj h]
    exact List.mergeSort_perm _ _
  · simp [hcomparable] at h

theorem exists_part {code : List Instruction} (h : itemize code = .ok bs) {b : Block} (hb : b ∈ bs) :
    ∃ part ∈ (cut (placeFrom 0 code)).2, ofPart part = .ok b := by
  obtain ⟨cs, hcs, -, hperm⟩ := exists_of_itemize h
  exact exists_of_mapM hcs (keepLast_subset cs (hperm.mem_iff.mp hb))

end Block

/-- Code whose labels are distinct numbers is cut into one block for each of them, made of instructions of the
code. -/
theorem Labelled.itemize {code : List Instruction} {labels : List Int} (h : Labelled code labels) :
    ∃ bs labels', Block.itemize code = .ok bs ∧ labels'.Perm labels ∧ Block.Numbered bs labels' ∧
      ∀ b ∈ bs, b.Fresh ∧ ∀ p ∈ b.insts, p.inst ∈ code := by
  have hcode := Block.map_inst_placeFrom 0 code
  obtain ⟨bs, hbs, hlabels, hinsts, hfresh⟩ := Block.mapM_ofPart ((Block.map_indexOf_parts code).trans h.labels_eq)
  have hnumbered : Block.Numbered bs labels := ⟨hlabels, h.nodup⟩
  have hperm := List.mergeSort_perm bs fun a b => a.label.le b.label
  obtain ⟨labels', hlabels', hnumbered'⟩ := hnumbered.perm hperm
  refine ⟨_, labels', ?_, hlabels', hnumbered', ?_⟩
  · rw [Block.itemize, hbs]
    change Block.inOrder (Block.keepLast bs) = _
    rw [hnumbered.keepLast_eq, hnumbered.inOrder_eq]
  · intro b hb
    have hmem := hperm.mem_iff.mp hb
    refine ⟨hfresh b hmem, ?_⟩
    intro p hp
    have hinst : b.insts ∈ (Block.cut (Block.placeFrom 0 code)).2.map (·.2) := by
      rw [← hinsts]
      exact List.mem_map_of_mem hmem
    obtain ⟨part, hpart, heq⟩ := List.mem_map.mp hinst
    have hplaced := Block.mem_of_mem_part hpart (heq ▸ hp)
    rw [← hcode]
    exact List.mem_map_of_mem hplaced

end BeamDisasm

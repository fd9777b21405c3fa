import BeamDisasm.Proofs.LabelOrder

/-!
# What the blocks hold

A label may occur several times in code, and labels may come in any order. Looking a label up in the blocks of the code
finds what stands between its last occurrence and the next label. Nothing is left out and nothing is made up: where no
label occurs twice, the blocks put back behind their labels are the code from its first label on.
-/
namespace BeamDisasm

/-- What stands between position `k` and the next label. -/
def bodyAt (code : List Instruction) (k : Nat) : List Instruction :=
  (code.drop (k + 1)).takeWhile fun inst => !inst.isLabel

/-- At position `k` is a label with the number `n`, and there is no such label behind it. -/
structure LastLabel (code : List Instruction) (n : Int) (k : Nat) : Prop where
  here : ∃ label, code[k]? = some label ∧ label.isLabel = true ∧ label.indexOf 0 = .ok (.number n)
  last : ∀ j label, k < j → code[j]? = some label → label.isLabel = true → label.indexOf 0 ≠ .ok (.number n)

theorem LastLabel.unique {code : List Instruction} {n : Int} {j k : Nat} (hj : LastLabel code n j)
    (hk : LastLabel code n k) : j = k := by
  obtain ⟨label, hget, hlabel, hindex⟩ := hj.here
  obtain ⟨label', hget', hlabel', hindex'⟩ := hk.here
  by_contra hne
  rcases Nat.lt_or_gt_of_ne hne with hlt | hgt
  · exact hj.last k label' hlt hget' hlabel' hindex'
  · exact hk.last j label hgt hget hlabel hindex

namespace Block

variable {bs cs : List Block} {b : Block} {labels : List Int} {code : List Instruction} {n : Int}

/-! ## Parts of the code -/

/-- What stands before the first label. -/
theorem cut_fst (m : Nat) (code : List Instruction) :
    (cut (placeFrom m code)).1 = placeFrom m (code.takeWhile fun inst => !inst.isLabel) := by
  induction code generalizing m with
  | nil => rfl
  | cons inst code ih =>
      rw [placeFrom]
      cases hlabel : inst.isLabel with
      | true => simp [cut_cons_label (p := ⟨m, inst⟩) hlabel, hlabel, placeFrom]
      | false => simp [cut_cons_other (p := ⟨m, inst⟩) hlabel, hlabel, placeFrom, ih]

/-- A part holds what stands between its label and the next one. -/
theorem snd_of_mem_cut {m : Nat} {part : Placed × List Placed} (h : part ∈ (cut (placeFrom m code)).2) :
    ∃ k, part.1.position = m + k ∧ part.2 = placeFrom (m + k + 1) (bodyAt code k) := by
  induction code generalizing m with
  | nil => simp [placeFrom, cut] at h
  | cons inst code ih =>
      have hbehind : part ∈ (cut (placeFrom (m + 1) code)).2 →
          ∃ k, part.1.position = m + k ∧ part.2 = placeFrom (m + k + 1) (bodyAt (inst :: code) k) := by
        intro hpart
        obtain ⟨k, hposition, hbody⟩ := ih hpart
        refine ⟨k + 1, by omega, ?_⟩
        rw [hbody, Nat.add_right_comm m 1 k]
        rfl
      rw [placeFrom] at h
      cases hlabel : inst.isLabel with
      | true =>
          rw [cut_cons_label (p := ⟨m, inst⟩) hlabel, List.mem_cons] at h
          rcases h with rfl | h
          · exact ⟨0, rfl, cut_fst (m + 1) code⟩
          · exact hbehind h
      | false =>
          rw [cut_cons_other (p := ⟨m, inst⟩) hlabel] at h
          exact hbehind h

theorem part_eq {part : Placed × List Placed} (h : part ∈ (cut (placeFrom 0 code)).2) :
    part.2 = placeFrom (part.1.position + 1) (bodyAt code part.1.position) := by
  obtain ⟨k, hposition, hbody⟩ := snd_of_mem_cut h
  simpa [hposition] using hbody

theorem mem_placeFrom_of_getElem? {m k : Nat} {inst : Instruction} (h : code[k]? = some inst) :
    (⟨m + k, inst⟩ : Placed) ∈ placeFrom m code := by
  induction code generalizing m k with
  | nil => simp at h
  | cons first code ih =>
      rw [placeFrom, List.mem_cons]
      cases k with
      | zero => exact .inl (by simpa using h.symm)
      | succ k =>
          have hmem := ih (m := m + 1) (k := k) (by simpa using h)
          rw [Nat.add_right_comm m 1 k] at hmem
          exact .inr hmem

/-- The label of the part that others follow has the last position before theirs. -/
theorem position_lt_of_split {pre post : List (Placed × List Placed)} {part : Placed × List Placed}
    (h : (cut (placeFrom 0 code)).2 = pre ++ part :: post) :
    (∀ q ∈ pre.map Prod.fst, q.position < part.1.position) ∧
      ∀ q ∈ post.map Prod.fst, part.1.position < q.position := by
  have hheads := cut_heads (placeFrom 0 code)
  have hascending := (pairwise_placeFrom 0 code).filter fun p => p.inst.isLabel
  rw [← hheads, h, List.map_append, List.map_cons, List.pairwise_append, List.pairwise_cons] at hascending
  exact ⟨fun q hq => hascending.2.2 q hq part.1 (by simp), hascending.2.1.1⟩

/-! ## Blocks of the code -/

theorem ofPart_eq_ok_iff {part : Placed × List Placed} :
    ofPart part = .ok b ↔ part.1.inst.indexOf 0 = .ok b.label ∧ b = { label := b.label, insts := part.2 } := by
  rw [ofPart]
  cases hindex : part.1.inst.indexOf 0 with
  | error e => simp [bind, Except.bind]
  | ok i =>
      simp only [bind, Except.bind, pure, Except.pure, Except.ok.injEq]
      constructor
      · rintro rfl
        exact ⟨rfl, rfl⟩
      · rintro ⟨rfl, hb⟩
        exact hb.symm

/-- Of several blocks with one label the last is found. -/
theorem find?_keepLast (hcs : ∀ c ∈ cs, ∃ m, c.label = .number m) (n : Int) :
    find? (keepLast cs) (.number n) = find? cs.reverse (.number n) := by
  induction cs with
  | nil => rfl
  | cons c cs ih =>
      have hrest := ih fun d hd => hcs d (by simp [hd])
      obtain ⟨m, hm⟩ := hcs c (by simp)
      have hback : find? (c :: cs).reverse (.number n) = (find? cs.reverse (.number n)).or (find? [c] (.number n)) := by
        simp [find?]
      rw [hback, keepLast, hm]
      by_cases hn : m = n
      · subst hn
        by_cases hlater : (cs.any fun d => d.label.same (.number m)) = true
        · obtain ⟨d, hd, hsame⟩ := List.any_eq_true.mp hlater
          have hsome : (find? cs.reverse (.number m)).isSome := by
            rw [find?, List.find?_isSome]
            exact ⟨d, by simpa using hd, hsame⟩
          rw [if_pos hlater, hrest, Option.or_of_isSome hsome]
        · have hnone : find? cs.reverse (.number m) = none := by
            rw [find?, List.find?_eq_none]
            intro d hd hsame
            exact hlater (List.any_eq_true.mpr ⟨d, by simpa using hd, hsame⟩)
          rw [if_neg hlater, hnone, Option.none_or]
          simp [find?, hm, Index.same]
      · have hother : find? [c] (.number n) = none := by simp [find?, hm, Index.same, hn]
        rw [hother, Option.or_none]
        split
        · exact hrest
        · rw [← hrest]
          simp [find?, hm, Index.same, hn]

/-- Blocks with distinct numbers may be looked up in any order. -/
theorem Numbered.find?_perm (h : Numbered bs labels) (hperm : cs.Perm bs) (n : Int) :
    find? cs (.number n) = find? bs (.number n) := by
  obtain ⟨labels', -, h'⟩ := h.perm hperm
  apply Option.ext
  intro b
  rw [h'.find?_eq_some_iff, h.find?_eq_some_iff, hperm.mem_iff]

/-- A block that is found holds what stands behind the last label with its number. -/
theorem exists_lastLabel (hcs : inSource code = .ok cs) (hb : find? cs.reverse (.number n) = some b) :
    ∃ k, LastLabel code n k ∧ b = { label := .number n, insts := placeFrom (k + 1) (bodyAt code k) } := by
  have hn := label_of_find? hb
  obtain ⟨-, later, earlier, hcut, hlater⟩ := List.find?_eq_some_iff_append.mp hb
  have hsplit : cs = earlier.reverse ++ b :: later.reverse := by
    rw [← List.reverse_reverse cs, hcut]
    simp
  have hparts := forall₂_of_mapM hcs
  rw [hsplit] at hparts
  obtain ⟨pre, part, post, hparts, -, hpart, hpost⟩ := exists_split_of_forall₂ hparts
  obtain ⟨hindex, hblock⟩ := ofPart_eq_ok_iff.mp hpart
  have hmem : part ∈ (cut (placeFrom 0 code)).2 := by simp [hparts]
  have hheads := cut_heads (placeFrom 0 code)
  have hhead : part.1 ∈ (placeFrom 0 code).filter (·.inst.isLabel) := hheads ▸ List.mem_map_of_mem hmem
  obtain ⟨hplaced, hlabel⟩ := List.mem_filter.mp hhead
  refine ⟨part.1.position, ⟨⟨part.1.inst, ?_, hlabel, hn ▸ hindex⟩, ?_⟩, ?_⟩
  · simpa using (mem_placeFrom hplaced).2
  · intro j label hj hget hlabel' hindex'
    -- The label at `j` starts a part, which comes behind the part of the block.
    have hq : (⟨j, label⟩ : Placed) ∈ (placeFrom 0 code).filter (·.inst.isLabel) := by
      refine List.mem_filter.mpr ⟨?_, hlabel'⟩
      simpa using mem_placeFrom_of_getElem? (m := 0) hget
    obtain ⟨hbefore, -⟩ := position_lt_of_split hparts
    rw [← hheads, hparts, List.map_append, List.map_cons, List.mem_append, List.mem_cons] at hq
    rcases hq with hq | hq | hq
    · have hlt := hbefore _ hq
      simp only at hlt
      omega
    · have heq := congrArg Placed.position hq
      simp only at heq
      omega
    · obtain ⟨other, hother, hfirst⟩ := List.mem_map.mp hq
      obtain ⟨c, hc, hotherBlock⟩ := exists_right_of_forall₂ hpost hother
      have hclabel := (ofPart_eq_ok_iff.mp hotherBlock).1
      rw [hfirst, hindex', Except.ok.injEq] at hclabel
      have hdiffers := hlater c (by simpa using hc)
      simp [← hclabel, Index.same] at hdiffers
  · rw [hblock, hn, part_eq hmem]

theorem get_eq_ok_iff {i : Index} : get bs i = .ok b ↔ find? bs i = some b := by
  rw [get]
  cases find? bs i <;> simp

/-- The blocks are those of the code: a label is found if it occurs in the code, with what stands behind its last
occurrence, and the blocks are in ascending order of their labels. -/
structure Itemizes (code : List Instruction) (bs : List Block) : Prop where
  exists_get_iff : ∀ i, (∃ b, get bs i = .ok b) ↔ ∃ inst ∈ code, inst.isLabel = true ∧ inst.indexOf 0 = .ok i
  get_eq_ok_iff : ∀ n b, get bs (.number n) = .ok b ↔
    ∃ k, LastLabel code n k ∧ b = { label := .number n, insts := placeFrom (k + 1) (bodyAt code k) }
  ascending : ∃ ns : List Int, bs.map Block.label = ns.map Index.number ∧ ns.Pairwise (· < ·)
  mem_iff : ∀ b, b ∈ bs ↔ ∃ n, get bs (.number n) = .ok b

theorem mem_labels_iff (h : NumberLabels code labels) (n : Int) :
    n ∈ labels ↔ ∃ inst ∈ code, inst.isLabel = true ∧ inst.indexOf 0 = .ok (.number n) := by
  have hinjective : Function.Injective fun n : Int => (.ok (.number n) : Except Fault Index) :=
    fun a b hab => Index.number.inj (Except.ok.inj hab)
  rw [← List.mem_map_of_injective hinjective, ← h, List.mem_map]
  simp only [List.mem_filter, and_assoc]

/-- The labels of code whose labels are numbers have no other index. -/
theorem exists_number_of_label (h : NumberLabels code labels) {inst : Instruction} (hinst : inst ∈ code)
    (hlabel : inst.isLabel = true) : ∃ n, inst.indexOf 0 = .ok (.number n) := by
  have hmem : inst.indexOf 0 ∈ (code.filter Instruction.isLabel).map (·.indexOf 0) :=
    List.mem_map_of_mem (List.mem_filter.mpr ⟨hinst, hlabel⟩)
  rw [h] at hmem
  obtain ⟨n, -, hn⟩ := List.mem_map.mp hmem
  exact ⟨n, hn.symm⟩

theorem itemizes_of_numbers (h : NumberLabels code labels) (hbs : itemize code = .ok bs) : Itemizes code bs := by
  obtain ⟨cs, hcs, hlabels, hsorted, hascending⟩ := exists_inSource h
  obtain rfl := Except.ok.inj (hbs.symm.trans hsorted)
  have hnumbered := hascending.numbered
  have hfind : ∀ n, find? ((keepLast cs).mergeSort fun a b => a.label.le b.label) (.number n) =
      find? cs.reverse (.number n) := by
    intro n
    rw [← find?_keepLast (exists_number_of_labels_eq hlabels),
      ← hnumbered.find?_perm (List.mergeSort_perm _ _).symm]
  have hfound : ∀ n, (∃ b, get ((keepLast cs).mergeSort fun a b => a.label.le b.label) (.number n) = .ok b) ↔
      ∃ inst ∈ code, inst.isLabel = true ∧ inst.indexOf 0 = .ok (.number n) := by
    intro n
    obtain ⟨bs', ns, hbs', hascending', hmem⟩ := itemize_ascending h
    obtain rfl := Except.ok.inj (hbs.symm.trans hbs')
    simp only [get_eq_ok_iff, ← Option.isSome_iff_exists]
    rw [hascending'.numbered.find?_isSome_iff, hmem, mem_labels_iff h]
  have hlast : ∀ n b, get ((keepLast cs).mergeSort fun a b => a.label.le b.label) (.number n) = .ok b →
      ∃ k, LastLabel code n k ∧ b = { label := .number n, insts := placeFrom (k + 1) (bodyAt code k) } := by
    intro n b hb
    rw [get_eq_ok_iff, hfind] at hb
    exact exists_lastLabel hcs hb
  refine ⟨?_, ?_, ⟨_, hascending.labels_eq, hascending.ascending⟩, ?_⟩
  · intro i
    by_cases hi : ∃ n, i = .number n
    · obtain ⟨n, rfl⟩ := hi
      exact hfound n
    · have hnone := hnumbered.find?_of_not_number fun n heq => hi ⟨n, heq⟩
      constructor
      · rintro ⟨b, hb⟩
        rw [get_eq_ok_iff, hnone] at hb
        simp at hb
      · rintro ⟨inst, hinst, hlabel, hindex⟩
        obtain ⟨n, hn⟩ := exists_number_of_label h hinst hlabel
        exact absurd ⟨n, Except.ok.inj (hindex.symm.trans hn)⟩ hi
  · intro n b
    refine ⟨hlast n b, ?_⟩
    rintro ⟨k, hk, rfl⟩
    -- There is a block for the label, and it is that of the same position.
    obtain ⟨label, hget, hlabel, hindex⟩ := hk.here
    obtain ⟨b, hb⟩ := (hfound n).mpr ⟨label, List.mem_of_getElem? hget, hlabel, hindex⟩
    obtain ⟨j, hj, rfl⟩ := hlast n b hb
    rwa [hk.unique hj]
  · intro b
    constructor
    · intro hb
      obtain ⟨n, -, hn⟩ := hnumbered.label_mem hb
      exact ⟨n, get_eq_ok_iff.mpr (hnumbered.find?_of_mem hb hn)⟩
    · rintro ⟨n, hb⟩
      exact List.mem_of_find?_eq_some (get_eq_ok_iff.mp hb)

/-! ## The code again -/

/-- What the block of a label holds. -/
def contents (bs : List Block) (label : Instruction) : List Instruction :=
  match label.indexOf 0 >>= get bs with
  | .ok b => b.insts.map (·.inst)
  | .error _ => []

theorem contents_of_get {label : Instruction} {i : Index} (hi : label.indexOf 0 = .ok i) (hb : get bs i = .ok b) :
    contents bs label = b.insts.map (·.inst) := by
  simp [contents, hi, hb, bind, Except.bind]

/-- The code from the first label on is its parts one after the other. -/
theorem dropWhile_eq_parts (code : List Instruction) :
    code.dropWhile (fun inst => !inst.isLabel) =
      (cut (placeFrom 0 code)).2.flatMap fun part => part.1.inst :: part.2.map (·.inst) := by
  have hflat := congrArg (List.map (·.inst)) (cut_flatten (placeFrom 0 code))
  rw [List.map_append, cut_fst, map_inst_placeFrom, map_inst_placeFrom, List.map_flatMap] at hflat
  have hcode := List.takeWhile_append_dropWhile (p := fun inst : Instruction => !inst.isLabel) (l := code)
  exact (List.append_cancel_left (hflat.trans hcode.symm)).symm

/-- Where no label occurs twice, the block of a part has the instructions of the part. -/
theorem contents_of_mem_cut (h : Labelled code labels) (hbs : itemize code = .ok bs) {part : Placed × List Placed}
    (hpart : part ∈ (cut (placeFrom 0 code)).2) : contents bs part.1.inst = part.2.map (·.inst) := by
  obtain ⟨cs, hcs, hlabels, hsorted, hascending⟩ := exists_inSource h.labels_eq
  obtain rfl := Except.ok.inj (hbs.symm.trans hsorted)
  have hsource : Numbered cs labels := ⟨hlabels, h.nodup⟩
  obtain ⟨c, hc, hblock⟩ := exists_right_of_forall₂ (forall₂_of_mapM hcs) hpart
  obtain ⟨hindex, heq⟩ := ofPart_eq_ok_iff.mp hblock
  obtain ⟨n, -, hn⟩ := hsource.label_mem hc
  have hmem : c ∈ (keepLast cs).mergeSort fun a b => a.label.le b.label := by
    rw [List.mem_mergeSort, hsource.keepLast_eq]
    exact hc
  have hget := get_eq_ok_iff.mpr (hascending.numbered.find?_of_mem hmem hn)
  rw [contents_of_get (hn ▸ hindex) hget, heq]

/-- The blocks of code whose labels are numbers, in any order and repeated or not: a label is found exactly if it
occurs, with the instructions between its last occurrence and the next label, and the blocks ascend. Where no label
occurs twice, the labels of the code with the contents of their blocks are the code from the first label on. -/
theorem itemize_contents (code : List Instruction) (labels : List Int) (hlabels : NumberLabels code labels) :
    ∃ bs, itemize code = .ok bs ∧ Itemizes code bs ∧
      (labels.Nodup → ((code.filter Instruction.isLabel).flatMap fun label => label :: contents bs label) =
        code.dropWhile fun inst => !inst.isLabel) := by
  obtain ⟨bs, -, hbs, -, -⟩ := itemize_ascending hlabels
  refine ⟨bs, hbs, itemizes_of_numbers hlabels hbs, fun hnodup => ?_⟩
  rw [dropWhile_eq_parts, ← map_inst_parts, List.flatMap_map]
  refine List.flatMap_congr fun part hpart => ?_
  rw [contents_of_mem_cut ⟨hlabels, hnodup⟩ hbs hpart]

/-- Code that does not start with a label, with labels out of order, one of them twice, and one with nothing behind
it. -/
def scattered : List Instruction :=
  Analysis.assembled [(19, []), (1, [.literal 7]), (19, []), (1, [.literal 2]), (1, [.literal 7]), (20, []), (19, []),
    (1, [.literal 4])]

theorem itemize_contents_scattered :
    NumberLabels scattered [7, 2, 7, 4] ∧
      (∃ bs, itemize scattered = .ok bs ∧ Itemizes scattered bs ∧
        bs.map Block.label = [.number 2, .number 4, .number 7] ∧
        (get bs (.number 7)).map (fun b => b.insts.map Placed.position) = .ok [5, 6]) ∧
      NumberLabels (scattered.take 4) [7, 2] ∧
      ∃ bs, itemize (scattered.take 4) = .ok bs ∧
        (((scattered.take 4).filter Instruction.isLabel).flatMap fun label => label :: contents bs label) =
          (scattered.take 4).dropWhile fun inst => !inst.isLabel := by
  have hlabels : NumberLabels scattered [7, 2, 7, 4] := rfl
  have hdistinct : NumberLabels (scattered.take 4) [7, 2] := rfl
  obtain ⟨bs, hbs, hitemizes, -⟩ := itemize_contents scattered _ hlabels
  obtain ⟨bs', hbs', -, hagain⟩ := itemize_contents (scattered.take 4) _ hdistinct
  have hview : (itemize scattered).map (fun bs => (bs.map Block.label,
      (get bs (.number 7)).map fun b => b.insts.map Placed.position)) =
      .ok ([.number 2, .number 4, .number 7], .ok [5, 6]) := by cbv
  simp only [hbs, Except.map, Except.ok.injEq, Prod.mk.injEq] at hview
  exact ⟨hlabels, ⟨bs, hbs, hitemizes, hview⟩, hdistinct, bs', hbs', hagain (by decide)⟩

end Block

end BeamDisasm

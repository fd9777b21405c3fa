import BeamDisasm.Proofs.GraphFound
import BeamDisasm.Proofs.LabelOrder

/-!
# The order of the functions

The functions may be taken in any order when the graph is made. Each search works on the graph that the searches
before it have left, but what all of them find together is fixed by the code: a block that some search comes to has
the links of its scan, and a block is chained by its own function only. The order shows nowhere but in the order of
the links into a block.
-/
namespace BeamDisasm

namespace Block

/-- Two blocks with the same code and the same links; the links in may have come in another order. -/
structure SameLinks (b c : Block) : Prop where
  code_eq : b.code = c.code
  outRefs_eq : b.outRefs = c.outRefs
  inRefs_perm : b.inRefs.Perm c.inRefs
  next_eq : b.next = c.next

theorem fresh_ofPart {part : Placed × List Placed} {b : Block} (h : ofPart part = .ok b) : b.Fresh := by
  obtain ⟨label, -, h⟩ := exists_of_bind h
  rw [← Except.ok.inj h]
  rfl

/-- Blocks that were just cut have no links and no remarks. -/
theorem fresh_of_itemize {code : List Instruction} {bs : List Block} (h : itemize code = .ok bs) :
    ∀ b ∈ bs, b.Fresh := by
  intro b hb
  obtain ⟨part, -, hpart⟩ := exists_part h hb
  exact fresh_ofPart hpart

/-- Links can be compared number by number. -/
theorem sameLinks_of_numbers {bs cs ds : List Block} {labels : List Int} (hbs : Numbered bs labels)
    (hcs : SameCode cs bs) (hds : SameCode ds bs) (houts : ∀ n, outs cs n = outs ds n)
    (hins : ∀ n ∈ labels, (ins cs n).Perm (ins ds n)) (hnext : nextAt cs = nextAt ds) :
    List.Forall₂ SameLinks cs ds := by
  have hcode : cs.map code = ds.map code := Eq.trans hcs hds.symm
  have hlength : cs.length = ds.length := by simpa using congrArg List.length hcode
  rw [List.forall₂_iff_get]
  refine ⟨hlength, fun i hi hi' => ?_⟩
  have hc := List.get_mem cs ⟨i, hi⟩
  have hd := List.get_mem ds ⟨i, hi'⟩
  have hsame : (cs.get ⟨i, hi⟩).code = (ds.get ⟨i, hi'⟩).code := by
    have hget := congrArg (fun l : List (Index × List Placed) => l[i]?) hcode
    simpa [hi, hi'] using hget
  -- Both blocks are the ones that their number leads to.
  obtain ⟨n, hn, hlabel⟩ := (hcs.numbered hbs).label_mem hc
  have hfind := (hcs.numbered hbs).find?_of_mem hc hlabel
  have hfind' := (hds.numbered hbs).find?_of_mem hd ((congrArg Prod.fst hsame).symm.trans hlabel)
  refine ⟨hsame, ?_, ?_, ?_⟩
  · rw [← outs_of_find? hfind, ← outs_of_find? hfind', houts]
  · rw [← ins_of_find? hfind, ← ins_of_find? hfind']
    exact hins n hn
  · rw [← nextAt_of_find? hfind, ← nextAt_of_find? hfind', hnext]

end Block

/-- Different functions own different blocks. -/
theorem Function.disjoint_inner {bs : List Block} {labels : List Int} (hbs : Block.Numbered bs labels)
    {fs : List Function} (hfs : findAll bs = .ok fs) {f g : Function} (hf : f ∈ fs) (hg : g ∈ fs) (hne : f ≠ g) :
    List.Disjoint f.inner g.inner := by
  have hinner := map_inner_of_findAll hbs hfs
  have hblocks : fs.flatMap Function.blocks = bs.map Block.label := by
    refine (findAll_blocks hfs).resolve_left ?_
    rintro rfl
    simp at hf
  have hnodup : (fs.flatMap Function.blocks).Nodup := hblocks ▸ hbs.labels_nodup
  intro n hn hn'
  have hmem : Index.number n ∈ f.blocks.drop 1 := hinner f hf ▸ List.mem_map_of_mem hn
  have hmem' : Index.number n ∈ g.blocks.drop 1 := hinner g hg ▸ List.mem_map_of_mem hn'
  exact hne (eq_of_mem_blocks hnodup hf hg (List.mem_of_mem_drop hmem) (List.mem_of_mem_drop hmem'))

namespace Graph

open Block (Defines Numbered SameLinks ins nextAt outs)

variable {bs cs ds : List Block} {labels : List Int} {fs gs hs : List Function} {n k : Int}

/-! ## Which blocks are found -/

theorem Found.mono (hsub : fs ⊆ gs) (h : Found bs fs n) : Found bs gs n := by
  induction h with
  | own hf hn => exact .own (hsub hf) hn
  | jump _ hj ih => exact .jump ih hj

theorem found_perm (hperm : gs.Perm fs) : Found bs gs n ↔ Found bs fs n :=
  ⟨Found.mono hperm.subset, Found.mono hperm.symm.subset⟩

/-! ## Which blocks are chained -/

/-- Only blocks of the list are chained, and the one before them. -/
theorem fst_mem_of_mem_chains {ns : List Int} {before : Option Int} (h : (k, n) ∈ chains bs before ns) :
    k ∈ before ∨ k ∈ ns := by
  induction ns generalizing before with
  | nil => simp [chains] at h
  | cons m ns ih =>
      rw [chains] at h
      split at h
      · rcases List.mem_append.mp h with h | h
        · obtain ⟨m', hm', heq⟩ := List.mem_map.mp h
          have hk : m' = k := congrArg Prod.fst heq
          rw [hk] at hm'
          exact .inl (by simpa using hm')
        · rcases ih h with hk | hk
          · split at hk
            · exact .inr (by simp [Option.mem_some.mp hk])
            · exact .inl hk
          · exact .inr (List.mem_cons_of_mem m hk)
      · exact (ih h).imp_right (List.mem_cons_of_mem m)

theorem assign_congr {next next' : Int → Option Successor} (h : next k = next' k) (ps : List (Int × Int)) :
    assign next ps k = assign next' ps k := by
  induction ps generalizing next next' with
  | nil => exact h
  | cons p ps ih =>
      refine ih ?_
      by_cases hk : k = p.1
      · simp [hk]
      · simp [hk, h]

/-- Pairs that chain different blocks may come in either order. -/
theorem assign_comm {ps qs : List (Int × Int)} (h : ∀ k n m, (k, n) ∈ ps → (k, m) ∉ qs)
    (next : Int → Option Successor) : assign (assign next ps) qs = assign (assign next qs) ps := by
  funext k
  by_cases hk : ∃ n, (k, n) ∈ ps
  · obtain ⟨n, hn⟩ := hk
    have hqs : ∀ m, (k, m) ∉ qs := fun m => h k n m hn
    rw [assign_of_not_mem hqs]
    exact assign_congr (assign_of_not_mem hqs next).symm ps
  · have hps : ∀ n, (k, n) ∉ ps := not_exists.mp hk
    rw [assign_of_not_mem hps (assign next qs)]
    exact assign_congr (assign_of_not_mem hps next) qs

theorem assign_flatMap (chained : Function → List (Int × Int)) (fs : List Function) (next : Int → Option Successor) :
    assign next (fs.flatMap chained) = fs.foldl (fun next f => assign next (chained f)) next := by
  induction fs generalizing next with
  | nil => rfl
  | cons f fs ih => rw [List.flatMap_cons, assign_append, ih, List.foldl_cons]

/-- The functions chain their own blocks, so their order does not count. -/
theorem assign_chains_perm (hbs : Numbered bs labels) (hfs : Function.findAll bs = .ok fs) (hperm : gs.Perm fs)
    (next : Int → Option Successor) :
    assign next (gs.flatMap fun f => chains bs none f.inner) =
      assign next (fs.flatMap fun f => chains bs none f.inner) := by
  rw [assign_flatMap, assign_flatMap]
  refine hperm.foldl_eq' (fun f hf g hg next => ?_) next
  by_cases hfg : f = g
  · rw [hfg]
  · refine assign_comm (fun k n m hn hm => ?_) next
    have hk : k ∈ f.inner := (fst_mem_of_mem_chains hn).resolve_left (by simp)
    have hk' : k ∈ g.inner := (fst_mem_of_mem_chains hm).resolve_left (by simp)
    exact Function.disjoint_inner hbs hfs (hperm.subset hf) (hperm.subset hg) hfg hk hk'

/-! ## Two orders -/

/-- Two searches that find the same blocks and chain them alike make the same links. -/
theorem Spans.sameLinks (hbs : Numbered bs labels) (hcs : Spans bs gs cs) (hds : Spans bs hs ds)
    (hfound : ∀ n, Found bs gs n ↔ Found bs hs n) (hnext : nextAt cs = nextAt ds) :
    List.Forall₂ SameLinks cs ds := by
  have houts : ∀ n, outs cs n = outs ds n := by
    intro n
    by_cases hn : Found bs gs n
    · rw [hcs.outs_eq n hn, hds.outs_eq n ((hfound n).mp hn)]
    · rw [hcs.outs_eq_nil n hn, hds.outs_eq_nil n (mt (hfound n).mpr hn)]
  refine Block.sameLinks_of_numbers hbs hcs.sameCode hds.sameCode houts ?_ hnext
  intro n hn
  have hdef : Defines bs n := hbs.find?_isSome_iff.mpr hn
  refine (List.perm_ext_iff_of_nodup (hcs.ins_nodup n) (hds.ins_nodup n)).mpr fun i => ?_
  rw [hcs.mem_ins_iff n hdef, hds.mem_ins_iff n hdef]
  simp only [houts]

/-- The graph of code whose labels are numbers does not depend on the order in which its functions are taken. No
search is cut off in either order. -/
theorem ofFunctions_any_order (code : List Instruction) (labels : List Int) (hlabels : NumberLabels code labels) :
    ∃ bs, Block.itemize code = .ok bs ∧ ∀ fs, Function.findAll bs = .ok fs →
      ∀ gs hs : List Function, gs.Perm fs → hs.Perm fs →
        List.Forall₂ SameLinks (ofFunctions bs gs).blocks (ofFunctions bs hs).blocks ∧
        (ofFunctions bs gs).exhausted = false ∧ (ofFunctions bs hs).exhausted = false := by
  obtain ⟨bs, ns, hbs, hascending, -⟩ := Block.itemize_ascending hlabels
  have hnumbered := hascending.numbered
  have hfresh := Block.fresh_of_itemize hbs
  refine ⟨bs, hbs, fun fs hfs gs hs hgs hhs => ?_⟩
  have hinner : ∀ l : List Function, l.Perm fs → ∀ f ∈ l, f.inner.map Index.number = f.blocks.drop 1 :=
    fun l hl f hf => Function.map_inner_of_findAll hnumbered hfs f (hl.subset hf)
  have hgspans := spans_of_inner hnumbered hfresh (hinner gs hgs)
  have hhspans := spans_of_inner hnumbered hfresh (hinner hs hhs)
  have hnext : nextAt (ofFunctions bs gs).blocks = nextAt (ofFunctions bs hs).blocks := by
    rw [hgspans.nextAt_eq, hhspans.nextAt_eq, assign_chains_perm hnumbered hfs hgs,
      assign_chains_perm hnumbered hfs hhs]
  refine ⟨?_, ?_, ?_⟩
  · exact hgspans.sameLinks hnumbered hhspans (fun n => (found_perm hgs).trans (found_perm hhs).symm) hnext
  · exact (ofFunctions_walked hnumbered hfresh (hinner gs hgs)).exhausted_eq
  · exact (ofFunctions_walked hnumbered hfresh (hinner hs hhs)).exhausted_eq

/-- Two functions that jump into each other, and a block whose scan ends at a missing target. -/
def tangled : List Instruction :=
  Analysis.assembled [(1, [.literal 1]), (2, [.atom 1, .atom 2, .literal 0]),
    (1, [.literal 2]), (41, [.label 3, .xreg (.number 0), .xreg (.number 1)]), (61, [.label 6]),
    (1, [.literal 3]), (61, [.label 9]), (61, [.label 2]),
    (1, [.literal 5]), (2, [.atom 1, .atom 3, .literal 0]),
    (1, [.literal 6]), (61, [.label 3]), (61, [.label 6])]

/-- Taking the second function first changes the order of links into a block, and nothing else. -/
theorem ofFunctions_any_order_tangled :
    NumberLabels tangled [1, 2, 3, 5, 6] ∧ ∃ bs fs, Block.itemize tangled = .ok bs ∧ Function.findAll bs = .ok fs ∧
      (ofFunctions bs fs).blocks.map Block.inRefs =
        [[], [], [.number 2, .number 6], [], [.number 6, .number 2]] ∧
      (ofFunctions bs fs.reverse).blocks.map Block.inRefs =
        [[], [], [.number 6, .number 2], [], [.number 6, .number 2]] ∧
      List.Forall₂ SameLinks (ofFunctions bs fs).blocks (ofFunctions bs fs.reverse).blocks := by
  have hlabels : NumberLabels tangled [1, 2, 3, 5, 6] := rfl
  obtain ⟨bs, hbs, horder⟩ := ofFunctions_any_order tangled _ hlabels
  obtain ⟨bs', fs, hbs', hfs, hforward, hbackward⟩ : ∃ bs fs, Block.itemize tangled = .ok bs ∧
      Function.findAll bs = .ok fs ∧
      (ofFunctions bs fs).blocks.map Block.inRefs =
        [[], [], [.number 2, .number 6], [], [.number 6, .number 2]] ∧
      (ofFunctions bs fs.reverse).blocks.map Block.inRefs =
        [[], [], [.number 6, .number 2], [], [.number 6, .number 2]] :=
    ⟨_, _, by cbv, by cbv, by cbv, by cbv⟩
  rw [hbs, Except.ok.injEq] at hbs'
  subst hbs'
  exact ⟨hlabels, bs, fs, hbs, hfs, hforward, hbackward,
    (horder fs hfs fs fs.reverse (List.Perm.refl fs) (List.reverse_perm fs)).1⟩

end Graph

end BeamDisasm

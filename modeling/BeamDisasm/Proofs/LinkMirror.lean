import BeamDisasm.Proofs.SearchDepth

/-!
# Links have two ends

A jump from one block to another is kept at both of them: as a link out of the one and as a link into the other. While
links are followed an end can be missing, since the link out is there before the search that it starts and the link in
comes after it. Once the searches are over no end is missing, whatever functions they started from, in whatever order
and however often.
-/
namespace BeamDisasm

/-- The numbers among labels. -/
def Index.numbers (is : List Index) : List Int :=
  is.filterMap fun
    | .number n => some n
    | _ => none

namespace Block

/-- A link is kept once, and both of the blocks that it is between know it. -/
structure Mirrored (bs : List Block) : Prop where
  inRefs_nodup : ∀ b ∈ bs, b.inRefs.Nodup
  outRefs_nodup : ∀ b ∈ bs, b.outRefs.Nodup
  hasInLink_iff : ∀ b ∈ bs, ∀ t ∈ bs, ∀ n, t.label = .number n →
    (t.hasInLink b.label = true ↔ b.hasOutLink n = true)

theorem hasOutLink_iff (b : Block) (target : Int) :
    b.hasOutLink target = true ↔ ∃ position, (position, target) ∈ b.outRefs := by
  simp [hasOutLink]

end Block

namespace Graph

open Block (AllKeep Defines Mirrored Numbered Sound links)

variable {bs cs : List Block} {labels : List Int} {reached : Int → Prop} {fs : List Function} {g : Graph}
  {follow : Int → Graph → Graph}

/-! ## Functions with any labels -/

/-- Labels that are no numbers are passed over, since no block has them. -/
theorem walk_numbers (hfollow : ∀ t g, AllKeep g.blocks (follow t g).blocks) (f : Function) (is : List Index)
    (before : Option Index) (hg : Numbered g.blocks labels) :
    walk follow f before is g = walk follow f before ((Index.numbers is).map .number) g := by
  induction is generalizing before g with
  | nil => rfl
  | cons i is ih =>
      by_cases hi : ∃ n, i = .number n
      · obtain ⟨n, rfl⟩ := hi
        have hcons : Index.numbers (.number n :: is) = n :: Index.numbers is := rfl
        rw [hcons, List.map_cons, walk, walk]
        cases hb : g.find? (.number n) with
        | none => exact ih before hg
        | some b =>
            have hchain := allKeep_chain before (.number n) g
            have hscan := allKeep_linkAll hfollow f (.number n) b.jumps (chain before (.number n) g)
            exact ih _ ((hchain.trans hscan).sameCode.numbered hg)
      · have hnone : g.find? i = none := hg.find?_of_not_number fun n heq => hi ⟨n, heq⟩
        have hskip : Index.numbers (i :: is) = Index.numbers is := by
          cases i with
          | number n => exact absurd ⟨n, rfl⟩ hi
          | _ => rfl
        rw [hskip, walk, hnone]
        exact ih before hg

/-- A search works through the blocks behind the header of a function, whichever labels the function has. -/
theorem addFunction_walked_any (hbs : Numbered bs labels)
    (hclosed : ∀ n, reached n → ∀ j ∈ links bs n, reached j.2)
    (hs : Sound bs reached (fun _ => False) g.blocks) (f : Function) (hreached : ∀ n ∈ f.inner, reached n) :
    Walked bs reached (fun _ => False) f.inner (chains bs none f.inner) g (addFunction g f) := by
  have hbound : depthBound g.blocks = (bs.flatMap Block.jumps).length + 1 := by
    rw [depthBound, hs.sameCode.flatMap_jumps]
  have hkeep : ∀ t g, AllKeep g.blocks (explore f (bs.flatMap Block.jumps).length [.number t] g).blocks :=
    fun t g => allKeep_explore f _ _ g
  have hfollow := follows_explore hbs hclosed f (bs.flatMap Block.jumps).length
  rw [addFunction, hbound, explore, walk_numbers hkeep f _ none (hs.sameCode.numbered hbs)]
  exact walk_walked hbs hclosed hfollow f f.inner g none hs (hbs.room g.blocks) (by simp) hreached

theorem ofFunctions_walked_any (hbs : Numbered bs labels) (hfresh : ∀ b ∈ bs, b.Fresh) (fs : List Function) :
    Walked bs (Found bs fs) (fun _ => False) (fs.flatMap Function.inner)
      (fs.flatMap fun f => chains bs none f.inner) { blocks := bs } (ofFunctions bs fs) :=
  foldl_addFunction_walked (Sound.of_fresh hfresh) fun f hf _ hs =>
    addFunction_walked_any hbs found_closed hs f fun _ hn => .own hf hn

/-! ## Both ends -/

/-- The links that searches have made when they are over are known at both of their ends. -/
theorem Spans.mirrored (h : Spans bs fs cs) (hbs : Numbered bs labels) : Mirrored cs := by
  have hcs := h.sameCode.numbered hbs
  refine ⟨?_, ?_, ?_⟩
  · intro b hb
    obtain ⟨n, -, hn⟩ := hcs.label_mem hb
    rw [← Block.ins_of_find? (hcs.find?_of_mem hb hn)]
    exact h.ins_nodup n
  · intro b hb
    obtain ⟨n, -, hn⟩ := hcs.label_mem hb
    rw [← Block.outs_of_find? (hcs.find?_of_mem hb hn)]
    by_cases hfound : Found bs fs n
    · rw [h.outs_eq n hfound]
      exact nodup_eraseDups _
    · rw [h.outs_eq_nil n hfound]
      exact List.nodup_nil
  · intro b hb t ht n hn
    obtain ⟨k, -, hk⟩ := hcs.label_mem hb
    have hdef : Defines bs n := h.sameCode.defines_iff.mp (by simp [Defines, hcs.find?_of_mem ht hn])
    rw [hk, Block.hasInLink_number, Block.hasOutLink_iff, ← Block.ins_of_find? (hcs.find?_of_mem ht hn),
      ← Block.outs_of_find? (hcs.find?_of_mem hb hk), h.mem_ins_iff n hdef]
    constructor
    · rintro ⟨m, position, heq, hlink⟩
      rw [Index.number.inj heq]
      exact ⟨position, hlink⟩
    · rintro ⟨position, hlink⟩
      exact ⟨k, position, rfl, hlink⟩

/-- In code whose labels are numbers, searches from any functions leave links with two ends: no block has a link twice,
and a block has a link in from another one if and only if the other one has a link out to it. No search is cut off. -/
theorem ofFunctions_mirrored (code : List Instruction) (labels : List Int) (hlabels : NumberLabels code labels) :
    ∃ (bs : List Block) (ns : List Int), Block.itemize code = .ok bs ∧ (∀ n, n ∈ ns ↔ n ∈ labels) ∧
      ∀ fs : List Function, (ofFunctions bs fs).exhausted = false ∧
        (ofFunctions bs fs).blocks.map Block.label = ns.map Index.number ∧ Mirrored (ofFunctions bs fs).blocks := by
  obtain ⟨bs, ns, hbs, hascending, hmem⟩ := Block.itemize_ascending hlabels
  have hnumbered := hascending.numbered
  have hfresh := Block.fresh_of_itemize hbs
  refine ⟨bs, ns, hbs, hmem, fun fs => ?_⟩
  have hwalked := ofFunctions_walked_any hnumbered hfresh fs
  refine ⟨hwalked.exhausted_eq, (hwalked.sound.sameCode.numbered hnumbered).labels_eq, ?_⟩
  exact (spans_of_walked hfresh hwalked).mirrored hnumbered

/-- The functions of code with a missing target, one of them taken twice. -/
theorem ofFunctions_mirrored_tangled :
    NumberLabels tangled [1, 2, 3, 5, 6] ∧ ∃ bs f h, Block.itemize tangled = .ok bs ∧
      Function.findAll bs = .ok [f, h] ∧
      (ofFunctions bs [h, f, h]).blocks.map (fun b => (b.inRefs, b.outRefs)) =
        [([], []), ([], [(3, 3), (4, 6)]), ([.number 6, .number 2], [(6, 9)]), ([], []),
          ([.number 6, .number 2], [(11, 3), (12, 6)])] ∧
      Mirrored (ofFunctions bs [h, f, h]).blocks := by
  have hlabels : NumberLabels tangled [1, 2, 3, 5, 6] := rfl
  obtain ⟨bs, ns, hbs, -, hmirrored⟩ := ofFunctions_mirrored tangled _ hlabels
  obtain ⟨bs', f, h, hbs', hfs, hlinks⟩ : ∃ bs f h, Block.itemize tangled = .ok bs ∧
      Function.findAll bs = .ok [f, h] ∧
      (ofFunctions bs [h, f, h]).blocks.map (fun b => (b.inRefs, b.outRefs)) =
        [([], []), ([], [(3, 3), (4, 6)]), ([.number 6, .number 2], [(6, 9)]), ([], []),
          ([.number 6, .number 2], [(11, 3), (12, 6)])] :=
    ⟨_, _, _, by cbv, by cbv, by cbv⟩
  rw [hbs, Except.ok.injEq] at hbs'
  subst hbs'
  exact ⟨hlabels, bs, f, h, hbs, hfs, hlinks, (hmirrored [h, f, h]).2.2⟩

end Graph

end BeamDisasm

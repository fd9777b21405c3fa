import BeamDisasm.Proofs.Graph
import BeamDisasm.Proofs.Removal
import Mathlib.Data.List.Pairwise

/-!
# Labels of an analysed module

Whatever the labels of a module are, an analysis keeps each of them once, and where there are two blocks or more the
labels are of a kind in which every label refers to itself only. Finding links changes neither the labels nor the
instructions, and leaves no remarks.
-/
namespace BeamDisasm

/-! ## Links leave the rest of a block alone -/

namespace Block

variable {bs : List Block} {b : Block}

/-- A block without its links. -/
def unlinked (b : Block) : Block :=
  { b with inRefs := [], outRefs := [], next := none }

theorem unlinked_addOutLink (b : Block) (position : Nat) (target : Int) :
    (b.addOutLink position target).unlinked = b.unlinked := by
  rw [addOutLink]
  split <;> rfl

theorem unlinked_addInLink (b : Block) (label : Index) : (b.addInLink label).unlinked = b.unlinked := by
  rw [addInLink]
  split <;> rfl

end Block

namespace Graph

open Block (map_update unlinked unlinked_addInLink unlinked_addOutLink)

/-- A search that leaves all but the links alone. -/
def Relinks (follow : Graph → Graph) : Prop :=
  ∀ g, (follow g).blocks.map unlinked = g.blocks.map unlinked

theorem relinks_link {follow : Int → Graph → Graph} (hfollow : ∀ target, Relinks (follow target)) (f : Function)
    (label : Index) (jump : Nat × Int) : Relinks (link follow f label jump) := by
  intro g
  have hwarn := congrArg (List.map unlinked) (blocks_warnUnless g (f.hasBlock (.number jump.2)))
  simp only [link]
  split
  · exact hwarn
  · rw [hfollow]
    exact (map_update (fun b => unlinked_addOutLink b _ _) label _).trans hwarn

theorem relinks_linkAll {follow : Int → Graph → Graph} (hfollow : ∀ target, Relinks (follow target)) (f : Function)
    (label : Index) (jumps : List (Nat × Int)) : Relinks fun g => (linkAll follow f label jumps g).1 := by
  induction jumps with
  | nil => exact fun g => rfl
  | cons jump jumps ih =>
      intro g
      have hlink := relinks_link hfollow f label jump g
      simp only [linkAll]
      split
      · exact hlink
      · rw [ih]
        exact (map_update (fun b => unlinked_addInLink b label) _ _).trans hlink

theorem relinks_chain (before : Option Index) (label : Index) : Relinks (chain before label) := by
  intro g
  cases before with
  | none => rfl
  | some i =>
      have hnext : ∀ b : Block, unlinked { b with next := some (.label label) } = b.unlinked := fun _ => rfl
      exact map_update hnext i g.blocks

theorem relinks_walk {follow : Int → Graph → Graph} (hfollow : ∀ target, Relinks (follow target)) (f : Function)
    (labels : List Index) (before : Option Index) : Relinks (walk follow f before labels) := by
  induction labels generalizing before with
  | nil => exact fun g => rfl
  | cons label labels ih =>
      intro g
      rw [walk]
      split
      · exact ih before g
      · rw [ih, relinks_linkAll hfollow f label _ _, relinks_chain before label g]

theorem relinks_explore (f : Function) (depth : Nat) (labels : List Index) : Relinks (explore f depth labels) := by
  induction depth generalizing labels with
  | zero => exact fun g => rfl
  | succ depth ih => exact relinks_walk (fun target => ih [.number target]) f labels none

/-- The graph of blocks has the same blocks but for their links. -/
theorem map_unlinked_ofFunctions (bs : List Block) (fs : List Function) :
    (ofFunctions bs fs).blocks.map unlinked = bs.map unlinked := by
  have hfold : ∀ g : Graph, (fs.foldl addFunction g).blocks.map unlinked = g.blocks.map unlinked := by
    induction fs with
    | nil => exact fun g => rfl
    | cons f fs ih =>
        intro g
        rw [List.foldl_cons, ih]
        exact relinks_explore f _ _ g
  exact hfold { blocks := bs }

end Graph

/-! ## Labels -/

namespace Index

/-- The label refers to itself, and nothing else refers to it. -/
def Plain (i : Index) : Prop :=
  ∀ j : Index, j.same i = true ↔ j = i

theorem plain_of_isNumber {i : Index} (h : i.isNumber = true) : i.Plain := by
  intro j
  cases i <;> simp [isNumber] at h
  cases j <;> simp [same]

theorem plain_of_isRaw {i : Index} (h : i.isRaw = true) : i.Plain := by
  intro j
  cases i <;> simp [isRaw] at h
  cases j <;> simp [same]

end Index

namespace Block

variable {bs : List Block}

/-- Of the blocks that are kept none has the label of an earlier one. -/
theorem pairwise_keepLast (bs : List Block) :
    (keepLast bs).Pairwise fun b c => ¬ c.label.same b.label = true := by
  induction bs with
  | nil => simp [keepLast]
  | cons b bs ih =>
      rw [keepLast]
      split
      · exact ih
      · next hnone =>
        rw [List.any_eq_true] at hnone
        refine List.pairwise_cons.mpr ⟨fun c hc hsame => ?_, ih⟩
        exact hnone ⟨c, keepLast_subset bs hc, hsame⟩

theorem plain_of_comparable (h : comparable bs = true) (hlength : 2 ≤ bs.length) :
    ∀ b ∈ bs, b.label.Plain := by
  intro b hb
  simp only [comparable, Bool.or_eq_true, decide_eq_true_eq, List.all_eq_true] at h
  rcases h with (h | h) | h
  · omega
  · exact Index.plain_of_isNumber (h b hb)
  · exact Index.plain_of_isRaw (h b hb)

/-- Blocks that were cut out of code: their labels differ, and they have no callers. -/
structure Cut (bs : List Block) : Prop where
  labels_nodup : (bs.map Block.label).Nodup
  plain : 2 ≤ bs.length → ∀ b ∈ bs, b.label.Plain
  callers_eq : ∀ b ∈ bs, b.callers = []

theorem labels_nodup_keepLast (h : comparable (keepLast bs) = true) : ((keepLast bs).map Block.label).Nodup := by
  by_cases hlength : 2 ≤ (keepLast bs).length
  · have hplain := plain_of_comparable h hlength
    rw [List.Nodup, List.pairwise_map]
    refine (pairwise_keepLast bs).imp_of_mem fun {b c} hb hc hne heq => ?_
    exact hne ((hplain b hb c.label).mpr heq.symm)
  · have hshort : ((keepLast bs).map Block.label).length ≤ 1 := by
      rw [List.length_map]
      omega
    match hlabels : (keepLast bs).map Block.label with
    | [] => exact List.nodup_nil
    | [i] => exact List.nodup_singleton i
    | i :: j :: is =>
        rw [hlabels] at hshort
        simp at hshort

theorem cut_of_itemize {code : List Instruction} (h : itemize code = .ok bs) : Cut bs := by
  obtain ⟨cs, -, hcomparable, hperm⟩ := exists_of_itemize h
  refine ⟨?_, fun hlength b hb => ?_, fun b hb => ?_⟩
  · exact (hperm.map _).nodup_iff.mpr (labels_nodup_keepLast hcomparable)
  · exact plain_of_comparable hcomparable (hperm.length_eq ▸ hlength) b (hperm.mem_iff.mp hb)
  · obtain ⟨part, -, hpart⟩ := exists_part h hb
    exact (ofPart_spec hpart).2

/-- Blocks that differ in their links only. -/
theorem Cut.of_map_unlinked (h : Cut bs) {cs : List Block} (hmap : cs.map unlinked = bs.map unlinked) : Cut cs := by
  have hlabels : cs.map Block.label = bs.map Block.label := by
    simpa [Function.comp_def, unlinked] using congrArg (List.map Block.label) hmap
  have hpart : ∀ c ∈ cs, ∃ b ∈ bs, b.label = c.label ∧ b.callers = c.callers := by
    intro c hc
    have hmem : c.unlinked ∈ bs.map unlinked := hmap ▸ List.mem_map_of_mem hc
    obtain ⟨b, hb, heq⟩ := List.mem_map.mp hmem
    have hlabel : b.unlinked.label = c.unlinked.label := congrArg Block.label heq
    have hcallers : b.unlinked.callers = c.unlinked.callers := congrArg Block.callers heq
    exact ⟨b, hb, hlabel, hcallers⟩
  have hlength : cs.length = bs.length := by simpa using congrArg List.length hmap
  refine ⟨hlabels ▸ h.labels_nodup, fun htwo c hc => ?_, fun c hc => ?_⟩
  · obtain ⟨b, hb, hlabel, -⟩ := hpart c hc
    exact hlabel ▸ h.plain (hlength ▸ htwo) b hb
  · obtain ⟨b, hb, -, hcallers⟩ := hpart c hc
    exact hcallers ▸ h.callers_eq b hb

end Block

namespace Analysis

/-- The blocks were cut out of code, and the functions share them out. -/
structure Built (a : Analysis) : Prop extends Block.Cut a.blocks where
  shared : a.functions = [] ∨ a.functions.flatMap Function.blocks = a.blocks.map Block.label

theorem built_of_build {m : Module} {a : Analysis} {warnings : Nat} (h : build m = .ok (a, warnings)) : a.Built := by
  obtain ⟨code, bs, fs, -, hbs, hfs, rfl⟩ := exists_of_build h
  have hmap := Graph.map_unlinked_ofFunctions bs fs
  have hlabels : (Graph.ofFunctions bs fs).blocks.map Block.label = bs.map Block.label := by
    simpa [Function.comp_def, Block.unlinked] using congrArg (List.map Block.label) hmap
  exact ⟨(Block.cut_of_itemize hbs).of_map_unlinked hmap, hlabels ▸ Function.findAll_blocks hfs⟩

/-! ## Functions with an entry -/

variable {a : Analysis} {f g : Function}

/-- Where a function has a block behind its header, all labels are plain. -/
theorem Built.plain_of_entry (h : a.Built) (hf : f ∈ a.functions) {i : Index} (hi : f.blocks[1]? = some i) :
    ∀ b ∈ a.blocks, b.label.Plain := by
  rcases h.shared with hnil | hshared
  · simp [hnil] at hf
  · refine h.plain ?_
    have hsub := (List.sublist_flatten_of_mem (List.mem_map_of_mem (f := Function.blocks) hf)).length_le
    have htwo := (List.getElem?_eq_some_iff.mp hi).1
    have hlength : (a.functions.map Function.blocks).flatten.length = a.blocks.length := by
      rw [← List.flatMap_def, hshared, List.length_map]
    omega

theorem Built.flatMap_blocks (h : a.Built) (hf : f ∈ a.functions) :
    a.functions.flatMap Function.blocks = a.blocks.map Block.label := by
  rcases h.shared with hnil | hshared
  · simp [hnil] at hf
  · exact hshared

/-- The label of a function is the label of a block. -/
theorem Built.exists_block (h : a.Built) (hf : f ∈ a.functions) {i : Index} (hi : i ∈ f.blocks) :
    ∃ b ∈ a.blocks, b.label = i := by
  have hmem : i ∈ a.functions.flatMap Function.blocks := List.mem_flatMap.mpr ⟨f, hf, hi⟩
  rw [h.flatMap_blocks hf] at hmem
  exact List.mem_map.mp hmem

/-- A label belongs to one function. -/
theorem Built.eq_of_mem (h : a.Built) (hf : f ∈ a.functions) (hg : g ∈ a.functions) {i : Index}
    (hi : i ∈ f.blocks) (hi' : i ∈ g.blocks) : f = g := by
  have hnodup : (a.functions.flatMap Function.blocks).Nodup := h.flatMap_blocks hf ▸ h.labels_nodup
  exact Function.eq_of_mem_blocks hnodup hf hg hi hi'

/-- A label has one place in its function. -/
theorem Built.eq_of_getElem? (h : a.Built) (hf : f ∈ a.functions) {i j : Nat} {l : Index}
    (hi : f.blocks[i]? = some l) (hj : f.blocks[j]? = some l) : i = j := by
  have hnodup : (a.functions.flatMap Function.blocks).Nodup := h.flatMap_blocks hf ▸ h.labels_nodup
  have hblocks := (List.nodup_flatMap.mp hnodup).1 f hf
  exact (List.getElem?_inj (List.getElem?_eq_some_iff.mp hi).1 hblocks).mp (hi.trans hj.symm)

end Analysis

end BeamDisasm

import BeamDisasm.Proofs.GraphFound
import BeamDisasm.Proofs.JumpRemoval

/-!
# Jumps to missing labels

A jump to a label that is not there ends the work on its block. So its block loses the jumps behind it as well, and is
left out of the chain of its function. Here the graph is compared with the graph of the code without the jump: which
links are lost depends on what else is in the block, and on the place of the block in its function.
-/
namespace BeamDisasm

/-- Labels and headers do not jump. -/
theorem Operation.code_of_jumps : ∀ op ∈ table, op.jumps ≠ [] → op.code ≠ 1 ∧ op.code ≠ 2 := by
  decide +kernel

theorem Instruction.not_label_or_header {j : Instruction} {code : Nat}
    (hop : Operation.find? code = some j.operation) (hjump : j.jumpTargets ≠ []) :
    j.isLabel = false ∧ j.isHeader = false := by
  have hmem : j.operation ∈ Operation.table := by
    cases code with
    | zero => simp [Operation.find?] at hop
    | succ n => exact List.mem_of_getElem? hop
  have hjumps : j.operation.jumps ≠ [] := by
    intro hnil
    simp [jumpTargets, hnil] at hjump
  simpa [isLabel, isHeader, Instruction.code] using Operation.code_of_jumps _ hmem hjumps

namespace Block

variable {cs cs' : List Block} {k : Nat}

/-! ## The links of two graphs -/

/-- The blocks `cs'` have the links of the blocks `cs` but those of the instruction at position `k`. -/
structure KeepsLinks (k : Nat) (cs cs' : List Block) : Prop where
  labels_eq : cs'.map Block.label = cs.map Block.label
  outRefs_eq : ∀ b ∈ cs, ∀ b' ∈ cs', b'.label = b.label → b'.outRefs = withoutJumps k b.outRefs
  inRefs_perm : ∀ b ∈ cs, ∀ b' ∈ cs', b'.label = b.label → b'.inRefs.Perm b.inRefs
  next_eq : ∀ b ∈ cs, ∀ b' ∈ cs', b'.label = b.label → b'.next = b.next

/-- Links can be compared number by number. -/
theorem keepsLinks_iff {labels : List Int} (hcs : Numbered cs labels) (hcs' : Numbered cs' labels) :
    KeepsLinks k cs cs' ↔ ∀ n ∈ labels, outs cs' n = withoutJumps k (outs cs n) ∧
      (ins cs' n).Perm (ins cs n) ∧ nextAt cs' n = nextAt cs n := by
  constructor
  · intro h n hn
    obtain ⟨b, hb, hbn⟩ := hcs.exists_block hn
    obtain ⟨b', hb', hbn'⟩ := hcs'.exists_block hn
    have hsame : b'.label = b.label := hbn'.trans hbn.symm
    have hfind := hcs.find?_of_mem hb hbn
    have hfind' := hcs'.find?_of_mem hb' hbn'
    rw [outs_of_find? hfind, outs_of_find? hfind', ins_of_find? hfind, ins_of_find? hfind',
      nextAt_of_find? hfind, nextAt_of_find? hfind']
    exact ⟨h.outRefs_eq b hb b' hb' hsame, h.inRefs_perm b hb b' hb' hsame, h.next_eq b hb b' hb' hsame⟩
  · intro h
    have hblocks : ∀ b ∈ cs, ∀ b' ∈ cs', b'.label = b.label → b'.outRefs = withoutJumps k b.outRefs ∧
        b'.inRefs.Perm b.inRefs ∧ b'.next = b.next := by
      intro b hb b' hb' hsame
      obtain ⟨n, hn, hbn⟩ := hcs.label_mem hb
      have hfind := hcs.find?_of_mem hb hbn
      have hfind' := hcs'.find?_of_mem hb' (hsame.trans hbn)
      have hat := h n hn
      rwa [outs_of_find? hfind, outs_of_find? hfind', ins_of_find? hfind, ins_of_find? hfind',
        nextAt_of_find? hfind, nextAt_of_find? hfind'] at hat
    exact ⟨hcs'.labels_eq.trans hcs.labels_eq.symm, fun b hb b' hb' hs => (hblocks b hb b' hb' hs).1,
      fun b hb b' hb' hs => (hblocks b hb b' hb' hs).2.1, fun b hb b' hb' hs => (hblocks b hb b' hb' hs).2.2⟩

end Block

namespace Graph

open Block (Defines KeepsLinks Numbered followed ins jumpsAt links nextAt outs without withoutJumps)

variable {bs cs cs' : List Block} {fs : List Function} {labels : List Int} {k : Nat} {n : Int}

/-! ## Two searches -/

/-- The scan of the block with a number takes the same jumps up without the instruction at position `k`. -/
def SameScan (bs : List Block) (k : Nat) (n : Int) : Prop :=
  followed bs (withoutJumps k (jumpsAt bs n)) = withoutJumps k (followed bs (jumpsAt bs n))

theorem followed_without (bs : List Block) (k : Nat) (n : Int) :
    followed (bs.map (without k)) (jumpsAt (bs.map (without k)) n) =
      followed bs (withoutJumps k (jumpsAt bs n)) := by
  rw [Block.followed_without_blocks, Block.jumpsAt_without]

theorem links_without (h : SameScan bs k n) : links (bs.map (without k)) n = withoutJumps k (links bs n) := by
  rw [links, followed_without, h, links, Block.withoutJumps_eraseDups]

/-- The search finds no less without the instruction. -/
theorem found_without (hmissing : ∀ n, ∀ i ∈ jumpsAt bs n, i.1 = k → ¬ Defines bs i.2) (h : Found bs fs n)
    (hdef : Defines bs n) : Found (bs.map (without k)) fs n := by
  induction h with
  | own hf hn => exact .own hf hn
  | @jump n j _ hj ih =>
      have hjump : j ∈ jumpsAt bs n := Block.followed_subset _ hj
      have hn : Defines bs n := Block.defines_of_mem_jumpsAt hjump
      have hne : j.1 ≠ k := fun hk => hmissing n j hjump hk hdef
      have hmem := Block.mem_followed_withoutJumps (hmissing n) hj hne
      rw [← followed_without] at hmem
      exact Found.jump (j := (lowered k j.1, j.2)) (ih hn) hmem

/-- The search finds no more where every scan that it comes to is the same. -/
theorem found_of_without (hscan : ∀ n, Found bs fs n → SameScan bs k n)
    (h : Found (bs.map (without k)) fs n) : Found bs fs n := by
  induction h with
  | own hf hn => exact .own hf hn
  | @jump n j _ hj ih =>
      rw [followed_without, hscan n ih, Block.mem_withoutJumps] at hj
      obtain ⟨x, hx, -, rfl⟩ := hj
      exact Found.jump (j := x) ih hx

/-- Where the scans are the same, the links are the same. -/
theorem Spans.links_eq (hcs : Spans bs fs cs) (hcs' : Spans (bs.map (without k)) fs cs')
    (hmissing : ∀ n, ∀ i ∈ jumpsAt bs n, i.1 = k → ¬ Defines bs i.2)
    (hscan : ∀ n, Found bs fs n → SameScan bs k n) :
    (∀ n, Defines bs n → outs cs' n = withoutJumps k (outs cs n)) ∧
      ∀ n, Defines bs n → (ins cs' n).Perm (ins cs n) := by
  have houts : ∀ n, Defines bs n → outs cs' n = withoutJumps k (outs cs n) := by
    intro n hn
    by_cases hfound : Found bs fs n
    · rw [hcs'.outs_eq n (found_without hmissing hfound hn), hcs.outs_eq n hfound, links_without (hscan n hfound)]
    · rw [hcs'.outs_eq_nil n fun h => hfound (found_of_without hscan h), hcs.outs_eq_nil n hfound]
      rfl
  refine ⟨houts, fun n hn => ?_⟩
  refine (List.perm_ext_iff_of_nodup (hcs'.ins_nodup n) (hcs.ins_nodup n)).mpr fun i => ?_
  rw [hcs'.mem_ins_iff n (Block.defines_without.mpr hn), hcs.mem_ins_iff n hn]
  constructor
  · rintro ⟨m, position, rfl, hlink⟩
    have hm := Block.defines_of_outs (List.ne_nil_of_mem hlink)
    rw [hcs'.sameCode.defines_iff, Block.defines_without] at hm
    rw [houts m hm, Block.mem_withoutJumps] at hlink
    obtain ⟨x, hx, -, heq⟩ := hlink
    have htarget : x.2 = n := (Prod.mk.inj heq).2
    exact ⟨m, x.1, rfl, htarget ▸ hx⟩
  · rintro ⟨m, position, rfl, hlink⟩
    have hm := Block.defines_of_outs (List.ne_nil_of_mem hlink)
    rw [hcs.sameCode.defines_iff] at hm
    have hne : position ≠ k := by
      intro hk
      have hfound : Found bs fs m := not_not.mp fun h => by simp [hcs.outs_eq_nil m h] at hlink
      rw [hcs.outs_eq m hfound, links, List.mem_eraseDups] at hlink
      exact hmissing m _ (Block.followed_subset _ hlink) hk hn
    refine ⟨m, lowered k position, rfl, ?_⟩
    rw [houts m hm, Block.mem_withoutJumps]
    exact ⟨_, hlink, hne, rfl⟩

theorem complete_without_iff :
    Complete (bs.map (without k)) n ↔ ∀ i ∈ jumpsAt bs n, i.1 ≠ k → Defines bs i.2 := by
  rw [Complete, Block.jumpsAt_without]
  constructor
  · intro h i hi hne
    have hmem : (lowered k i.1, i.2) ∈ withoutJumps k (jumpsAt bs n) :=
      Block.mem_withoutJumps.mpr ⟨i, hi, hne, rfl⟩
    exact Block.defines_without.mp (h (lowered k i.1, i.2) hmem)
  · intro h i hi
    obtain ⟨x, hx, hne, rfl⟩ := Block.mem_withoutJumps.mp hi
    exact Block.defines_without.mpr (h x hx hne)

/-- What decides whether the loss of the instruction at position `k` is felt beyond its own links: the block with this
number is never worked through, or its scan ends before, or no jump is behind and no block is chained behind. -/
def Contained (bs : List Block) (fs : List Function) (cs : List Block) (k : Nat) (n : Int) : Prop :=
  outs cs n = [] ∨ (∃ i ∈ jumpsAt bs n, i.1 < k ∧ ¬ Defines bs i.2) ∨
    (∀ i ∈ jumpsAt bs n, i.1 ≤ k) ∧ ∀ f ∈ fs, n ∉ f.inner.dropLast

section Compare

variable (hcs : Spans bs fs cs) (hcs' : Spans (bs.map (without k)) fs cs')
  (hsorted : ∀ n, (jumpsAt bs n).Pairwise fun i j => i.1 ≤ j.1)
  (hmissing : ∀ n, ∀ i ∈ jumpsAt bs n, i.1 = k → ¬ Defines bs i.2)

include hcs

theorem outs_ne_nil (hn : Found bs fs n) {i : Nat × Int} (hi : i ∈ jumpsAt bs n) : outs cs n ≠ [] := by
  rw [hcs.outs_eq n hn, links]
  cases hjumps : jumpsAt bs n with
  | nil => simp [hjumps] at hi
  | cons j js =>
      rw [followed]
      split <;> simp [List.eraseDups_cons]

include hsorted hmissing

theorem sameScan_of_contained (hn : Found bs fs n)
    (h : (∃ i ∈ jumpsAt bs n, i.1 = k) → Contained bs fs cs k n) : SameScan bs k n := by
  by_cases hk : ∃ i ∈ jumpsAt bs n, i.1 = k
  · obtain ⟨i, hi, -⟩ := id hk
    rcases h hk with hnil | hbefore | ⟨hle, -⟩
    · exact absurd hnil (outs_ne_nil hcs hn hi)
    · exact Block.followed_withoutJumps (hsorted n) (hmissing n) (.inl hbefore)
    · exact Block.followed_withoutJumps (hsorted n) (hmissing n) (.inr hle)
  · exact Block.followed_withoutJumps_of_ne fun i hi heq => hk ⟨i, hi, heq⟩

omit hsorted hmissing in
theorem complete_iff_of_contained {f : Function} (hf : f ∈ fs) (hn : n ∈ f.inner.dropLast)
    (h : (∃ i ∈ jumpsAt bs n, i.1 = k) → Contained bs fs cs k n) :
    Complete bs n ↔ Complete (bs.map (without k)) n := by
  rw [complete_without_iff]
  constructor
  · exact fun hall i hi _ => hall i hi
  · intro hothers i hi
    by_cases hk : i.1 = k
    · rcases h ⟨i, hi, hk⟩ with hnil | ⟨x, hx, hlt, hno⟩ | ⟨-, hlast⟩
      · exact absurd hnil (outs_ne_nil hcs (.own hf (List.dropLast_subset _ hn)) hi)
      · exact absurd (hothers x hx (by omega)) hno
      · exact absurd hn (hlast f hf)
    · exact hothers i hi hk

include hcs'

/-- A block whose links are the same has no jump behind the instruction that its scan could come to. -/
theorem le_of_outs_eq (hn : Found bs fs n) (hdef : Defines bs n) {y : Nat × Int} (hy : y ∈ jumpsAt bs n)
    (hyk : y.1 = k) (hbefore : ∀ i ∈ jumpsAt bs n, i.1 < k → Defines bs i.2)
    (houts : outs cs' n = withoutJumps k (outs cs n)) : ∀ i ∈ jumpsAt bs n, i.1 ≤ k := by
  intro i hi
  by_contra hgt
  obtain ⟨x, -, hkx, hmem⟩ := Block.exists_followed_behind hbefore hi (by omega)
  have hlink : (lowered k x.1, x.2) ∈ outs cs' n := by
    rw [hcs'.outs_eq n (found_without hmissing hn hdef), links, List.mem_eraseDups, followed_without]
    exact hmem
  rw [houts, hcs.outs_eq n hn, links, Block.mem_withoutJumps] at hlink
  obtain ⟨z, hz, hzk, heq⟩ := hlink
  have hzx : z = x := Block.lowered_pair_inj hzk (by omega) heq
  have hle := Block.le_of_mem_followed (hsorted n) hy hyk (hmissing n y hy hyk) (List.mem_eraseDups.mp hz)
  rw [hzx] at hle
  omega

omit hsorted in
/-- A block that is chained to the same one as before is the last of its function. -/
theorem not_mem_dropLast_of_nextAt_eq (hdefined : ∀ f ∈ fs, ∀ n ∈ f.inner, Defines bs n) {y : Nat × Int}
    (hy : y ∈ jumpsAt bs n) (hyk : y.1 = k) (hothers : ∀ i ∈ jumpsAt bs n, i.1 ≠ k → Defines bs i.2)
    (hnext : nextAt cs' n = nextAt cs n) : ∀ f ∈ fs, n ∉ f.inner.dropLast := by
  intro f hf hn
  have hnone : nextAt cs n = none := by
    rw [hcs.nextAt_eq]
    refine assign_of_not_mem (fun m hm => ?_) _
    obtain ⟨g, -, hm⟩ := List.mem_flatMap.mp hm
    exact hmissing n y hy hyk (complete_of_mem_chains (by simp) hm y hy)
  obtain ⟨i, hi⟩ := List.mem_iff_getElem?.mp hn
  rw [List.getElem?_dropLast] at hi
  split at hi
  · next hlt =>
    have hinner : ∀ n ∈ f.inner, Defines (bs.map (without k)) n :=
      fun n hn => Block.defines_without.mpr (hdefined f hf n hn)
    obtain ⟨m, hm⟩ := exists_mem_chains hinner (complete_without_iff.mpr hothers) hi (by omega) none
    have hsome : (nextAt cs' n).isSome := by
      rw [hcs'.nextAt_eq]
      exact isSome_assign _ (.inr ⟨m, List.mem_flatMap.mpr ⟨f, hf, hm⟩⟩)
    rw [hnext, hnone] at hsome
    simp at hsome
  · simp at hi

/-- The links but those of the instruction are kept if and only if its loss is contained in every block that has it. -/
theorem keepsLinks_iff_contained (hbs : Numbered bs labels)
    (hdefined : ∀ f ∈ fs, ∀ n ∈ f.inner, Defines bs n) :
    KeepsLinks k cs cs' ↔ ∀ n ∈ labels, (∃ i ∈ jumpsAt bs n, i.1 = k) → Contained bs fs cs k n := by
  rw [Block.keepsLinks_iff (hcs.sameCode.numbered hbs) (hcs'.sameCode.numbered (hbs.map_without k))]
  constructor
  · rintro h n hn ⟨y, hy, hyk⟩
    obtain ⟨houts, -, hnext⟩ := h n hn
    have hdef : Defines bs n := hbs.find?_isSome_iff.mpr hn
    by_cases hfound : Found bs fs n
    · by_cases hbefore : ∃ i ∈ jumpsAt bs n, i.1 < k ∧ ¬ Defines bs i.2
      · exact .inr (.inl hbefore)
      · have hall : ∀ i ∈ jumpsAt bs n, i.1 < k → Defines bs i.2 :=
          fun i hi hlt => not_not.mp fun hno => hbefore ⟨i, hi, hlt, hno⟩
        have hle := le_of_outs_eq hcs hcs' hsorted hmissing hfound hdef hy hyk hall houts
        refine .inr (.inr ⟨hle, ?_⟩)
        refine not_mem_dropLast_of_nextAt_eq hcs hcs' hmissing hdefined hy hyk (fun i hi hne => ?_) hnext
        have := hle i hi
        exact hall i hi (by omega)
    · exact .inl (hcs.outs_eq_nil n hfound)
  · intro h n hn
    have hcontained : ∀ n, (∃ i ∈ jumpsAt bs n, i.1 = k) → Contained bs fs cs k n := by
      rintro n ⟨i, hi, hik⟩
      refine h n (hbs.find?_isSome_iff.mp ?_) ⟨i, hi, hik⟩
      exact Block.defines_of_mem_jumpsAt hi
    have hscan : ∀ n, Found bs fs n → SameScan bs k n :=
      fun n hn => sameScan_of_contained hcs hsorted hmissing hn (hcontained n)
    have hdef : Defines bs n := hbs.find?_isSome_iff.mpr hn
    have hlinks := hcs.links_eq hcs' hmissing hscan
    refine ⟨hlinks.1 n hdef, hlinks.2 n hdef, ?_⟩
    rw [hcs'.nextAt_eq, hcs.nextAt_eq]
    refine congrFun (congrArg _ (List.flatMap_congr fun f hf => ?_)) n
    exact (chains_congr (fun m _ => Block.defines_without.symm)
      (fun m hm => complete_iff_of_contained hcs hf hm (hcontained m)) none).symm

end Compare

end Graph

/-- The places behind the header but the last one. -/
theorem Function.mem_dropLast_inner_iff {f : Function} (h : f.inner.map Index.number = f.blocks.drop 1) (n : Int) :
    n ∈ f.inner.dropLast ↔ ∃ i, 1 ≤ i ∧ f.blocks[i]? = some (.number n) ∧ i + 1 < f.blocks.length := by
  have hlength : f.inner.length = f.blocks.length - 1 := by
    simpa using congrArg List.length h
  rw [List.mem_iff_getElem?]
  constructor
  · rintro ⟨i, hi⟩
    rw [List.getElem?_dropLast] at hi
    split at hi
    · exact ⟨i + 1, by omega, (Function.getElem?_inner h i n).mp hi, by omega⟩
    · simp at hi
  · rintro ⟨i, hi, hget, hlt⟩
    obtain ⟨i, rfl⟩ := Nat.exists_eq_add_of_le' hi
    refine ⟨i, ?_⟩
    rw [List.getElem?_dropLast, if_pos (by omega)]
    exact (Function.getElem?_inner h i n).mpr hget

/-! ## Analyses of code with and without the jump -/

/-- The block bears the loss of the instruction at position `k` alone: it is never worked through, or its scan ends
before at another missing label, or nothing behind the instruction jumps and the block is the last of its function. -/
def Block.Confines (fs : List Function) (labels : List Int) (k : Nat) (b : Block) : Prop :=
  b.outRefs = [] ∨ (∃ i ∈ b.jumps, i.1 < k ∧ i.2 ∉ labels) ∨
    (∀ i ∈ b.jumps, i.1 ≤ k) ∧
      ∀ f ∈ fs, ∀ i, 1 ≤ i → f.blocks[i]? = some b.label → f.blocks.length ≤ i + 1

namespace Analysis

open Block (Confines Defines KeepsLinks Numbered SameCode jumpsAt outs without)

variable {bs cs : List Block} {fs : List Function} {labels : List Int} {k : Nat} {b : Block} {n : Int}

theorem contained_iff_confines (hdefines : ∀ t, Defines bs t ↔ t ∈ labels) (hcode : SameCode cs bs)
    (hinner : ∀ f ∈ fs, f.inner.map Index.number = f.blocks.drop 1)
    (hfind : Block.find? cs (.number n) = some b) :
    Graph.Contained bs fs cs k n ↔ b.Confines fs labels k := by
  have hlast : (∀ f ∈ fs, n ∉ f.inner.dropLast) ↔
      ∀ f ∈ fs, ∀ i, 1 ≤ i → f.blocks[i]? = some b.label → f.blocks.length ≤ i + 1 := by
    refine forall₂_congr fun f hf => ?_
    rw [Function.mem_dropLast_inner_iff (hinner f hf), Block.label_of_find? hfind]
    simp only [not_exists, not_and, Nat.not_lt]
  rw [Graph.Contained, Confines, hcode.jumpsAt_eq hfind, Block.outs_of_find? hfind, hlast]
  simp only [hdefines]

theorem exists_findAll {m : Module} {code : List Instruction} {a : Analysis} {warnings : Nat}
    (hcode : m.code = some code) (hbs : Block.itemize code = .ok bs) (hbuild : build m = .ok (a, warnings)) :
    ∃ fs, Function.findAll bs = .ok fs ∧ a.functions = fs ∧ a.blocks = (Graph.ofFunctions bs fs).blocks := by
  obtain ⟨code', bs', fs, hcode', hbs', hfs, rfl⟩ := exists_of_build hbuild
  obtain rfl : code = code' := Option.some.inj (hcode.symm.trans hcode')
  obtain rfl : bs = bs' := Except.ok.inj (hbs.symm.trans hbs')
  exact ⟨fs, hfs, rfl, rfl⟩

/-- A jump to missing labels loses only its own links if and only if the block that has it bears the loss alone. -/
theorem build_without_jump_iff {m : Module} {pre post : List Instruction} {j : Instruction} {labels : List Int}
    {a : Analysis} {warnings code : Nat} (hcode : m.code = some (pre ++ j :: post))
    (hlabels : Labelled (pre ++ j :: post) labels) (hop : Operation.find? code = some j.operation)
    (hjump : j.jumpTargets ≠ []) (hmissing : ∀ t ∈ j.jumpTargets, t ∉ labels)
    (hbuild : build m = .ok (a, warnings)) :
    ∃ a' warnings', build { m with code := some (pre ++ post) } = .ok (a', warnings') ∧
      a'.functions = a.functions ∧
      (KeepsLinks pre.length a.blocks a'.blocks ↔
        ∀ b ∈ a.blocks, (⟨pre.length, j⟩ : Placed) ∈ b.insts → b.Confines a.functions labels pre.length) := by
  obtain ⟨hlabel, hheader⟩ := Instruction.not_label_or_header hop hjump
  obtain ⟨bs, labels', hbs, hperm, hnumbered, hblocks⟩ := hlabels.itemize
  obtain ⟨fs, hfs, hfunctions, hgraph⟩ := exists_findAll hcode hbs hbuild
  -- The other code has the same blocks without the jump, and the same functions.
  have hbs' : Block.itemize (pre ++ post) = .ok (bs.map (without pre.length)) := by
    rw [Block.itemize_without hlabel, hbs]
    rfl
  have hfs' : Function.findAll (bs.map (without pre.length)) = .ok fs := by
    rw [← hfs]
    refine Function.findAll_without fun b hb p hp hposition => ?_
    rw [Block.inst_of_position hbs hb hp hposition]
    exact hheader
  refine ⟨_, _, build_eq rfl hbs' hfs', hfunctions.symm, ?_⟩
  have hspans := Graph.ofFunctions_spans hnumbered (fun b hb => (hblocks b hb).1) hfs
  have hspans' := Graph.ofFunctions_spans (hnumbered.map_without pre.length)
    (Block.fresh_without fun b hb => (hblocks b hb).1) hfs'
  have hdefines : ∀ t, Defines bs t ↔ t ∈ labels := fun t => hnumbered.find?_isSome_iff.trans hperm.mem_iff
  have hinner := Function.map_inner_of_findAll hnumbered hfs
  have hmissing' : ∀ n, ∀ i ∈ jumpsAt bs n, i.1 = pre.length → ¬ Defines bs i.2 := by
    intro n i hi hposition
    rw [hdefines]
    exact hmissing _ (Block.target_of_position hbs hi hposition)
  rw [hfunctions, hgraph, Graph.keepsLinks_iff_contained hspans hspans' (Block.pairwise_jumpsAt hbs) hmissing'
    hnumbered (Function.defines_of_mem_inner hnumbered hfs)]
  have hcs := hspans.sameCode.numbered hnumbered
  constructor
  · intro h b hb hj
    obtain ⟨n, hn, hbn⟩ := hcs.label_mem hb
    have hfind := hcs.find?_of_mem hb hbn
    rw [← contained_iff_confines hdefines hspans.sameCode hinner hfind]
    refine h n hn ?_
    rw [hspans.sameCode.jumpsAt_eq hfind]
    exact Block.exists_jump_of_mem hj hjump
  · intro h n hn hk
    obtain ⟨b, hfind⟩ := Option.isSome_iff_exists.mp (hcs.find?_isSome_iff.mpr hn)
    rw [contained_iff_confines hdefines hspans.sameCode hinner hfind]
    exact h b (List.mem_of_find?_eq_some hfind) (Block.mem_of_exists_jump hbs hspans.sameCode hfind hk)

/-- A loop up to a comparison. -/
def beforeComparison : List Instruction :=
  assembled [(1, [.literal 1]), (2, [.atom 1, .atom 2, .literal 0]), (1, [.literal 2]), (61, [.label 2])]

/-- A comparison that jumps to the label 9. -/
def comparison : Instruction :=
  ⟨(Operation.find? 41).get rfl, [.label 9, .xreg (.number 0), .xreg (.number 1)]⟩

/-- Nothing jumps behind the comparison, and its block is the last one. -/
theorem build_without_jump_iff_last_block :
    Labelled (beforeComparison ++ comparison :: assembled [(19, [])]) [1, 2] ∧
    comparison.jumpTargets = [9] ∧
    ∃ a warnings a' warnings',
      build { code := some (beforeComparison ++ comparison :: assembled [(19, [])]) } = .ok (a, warnings) ∧
      build { code := some (beforeComparison ++ assembled [(19, [])]) } = .ok (a', warnings') ∧
      KeepsLinks 4 a.blocks a'.blocks := by
  have hlabels : Labelled (beforeComparison ++ comparison :: assembled [(19, [])]) [1, 2] := ⟨rfl, by decide⟩
  have htargets : comparison.jumpTargets = [9] := rfl
  have hview : (build { code := some (beforeComparison ++ comparison :: assembled [(19, [])]) }).map
      (fun r => (r.1.functions.map fun f => f.blocks.length, r.1.blocks.map fun b => (b.outRefs, b.jumps))) =
      .ok ([2], [([], []), ([(3, 2), (4, 9)], [(3, 2), (4, 9)])]) := by cbv
  cases hbuild : build { code := some (beforeComparison ++ comparison :: assembled [(19, [])]) } with
  | error e => simp [hbuild, Except.map] at hview
  | ok r =>
      obtain ⟨a, warnings⟩ := r
      simp only [hbuild, Except.map, Except.ok.injEq, Prod.mk.injEq] at hview
      obtain ⟨a', warnings', hbuild', -, hkeeps⟩ := build_without_jump_iff
        (m := { code := some (beforeComparison ++ comparison :: assembled [(19, [])]) }) rfl hlabels
        (show Operation.find? 41 = some comparison.operation from rfl) (by simp [htargets])
        (by simp [htargets]) hbuild
      refine ⟨hlabels, htargets, a, warnings, a', warnings', rfl, hbuild', hkeeps.mpr fun b hb _ => ?_⟩
      have hb' : (b.outRefs, b.jumps) ∈ [([], []), ([(3, 2), (4, 9)], [(3, 2), (4, 9)])] :=
        hview.2 ▸ List.mem_map_of_mem hb
      rcases List.mem_pair.mp hb' with heq | heq
      · exact .inl (congrArg Prod.fst heq)
      · refine .inr (.inr ⟨?_, fun f hf i hi _ => ?_⟩)
        · rw [show b.jumps = _ from congrArg Prod.snd heq]
          decide
        · have hlength : f.blocks.length ∈ [2] := hview.1 ▸ List.mem_map_of_mem hf
          rw [List.mem_singleton.mp hlength]
          omega

/-- A jump to a missing label takes with it the jump behind it, at both of its ends, and the link to the next
block. -/
theorem build_missing_jump_loses_links :
    Labelled (assembled [(1, [.literal 1]), (2, [.atom 1, .atom 2, .literal 0]), (1, [.literal 2])] ++
      comparison :: assembled [(61, [.label 3]), (1, [.literal 3]), (19, [])]) [1, 2, 3] ∧
    comparison.jumpTargets = [9] ∧
    (build { code := some (assembled [(1, [.literal 1]), (2, [.atom 1, .atom 2, .literal 0]), (1, [.literal 2])] ++
      comparison :: assembled [(61, [.label 3]), (1, [.literal 3]), (19, [])]) }).map
      (fun r => r.1.blocks.map fun b => (b.label, b.inRefs, b.outRefs, b.next)) =
      .ok [(.number 1, [], [], none), (.number 2, [], [(3, 9)], none), (.number 3, [], [], none)] ∧
    (build { code := some (assembled [(1, [.literal 1]), (2, [.atom 1, .atom 2, .literal 0]), (1, [.literal 2])] ++
      assembled [(61, [.label 3]), (1, [.literal 3]), (19, [])]) }).map
      (fun r => r.1.blocks.map fun b => (b.label, b.inRefs, b.outRefs, b.next)) =
      .ok [(.number 1, [], [], none), (.number 2, [], [(3, 3)], some (.label (.number 3))),
        (.number 3, [.number 2], [], none)] := by
  refine ⟨⟨rfl, by decide⟩, rfl, ?_, ?_⟩
  · cbv
  · cbv

end Analysis

end BeamDisasm

import BeamDisasm.Analysis.Basic
import BeamDisasm.Proofs.Functions
import BeamDisasm.Proofs.GraphWalk
import Mathlib.Data.List.Flatten
import Mathlib.Data.List.Permutation

/-!
# The graph of a code section

Where no target is missing, the graph of the blocks is fixed by the code: the blocks behind the headers of the
functions and what can be reached from them by jumps have all their jumps as links, every link has its other end, and
the blocks of a function behind its header are chained in their order.
-/
namespace BeamDisasm

open Block (Defines Done Numbered SameCode Sound ins jumpsAt links nextAt outs)

/-- The numbers of the blocks behind the header. -/
def Function.inner (f : Function) : List Int :=
  (f.blocks.drop 1).filterMap fun
    | .number n => some n
    | _ => none

theorem Function.map_inner {f : Function} (h : ∀ i ∈ f.blocks, ∃ n, i = .number n) :
    f.inner.map Index.number = f.blocks.drop 1 := by
  obtain ⟨ns, hns⟩ := Index.exists_numbers fun i hi => h i (List.mem_of_mem_drop hi)
  rw [inner, hns, List.filterMap_map]
  exact congrArg _ List.filterMap_some

/-- The block at a place behind the header. -/
theorem Function.getElem?_inner {f : Function} (h : f.inner.map Index.number = f.blocks.drop 1) (i : Nat)
    (n : Int) : f.inner[i]? = some n ↔ f.blocks[i + 1]? = some (.number n) := by
  have hplace : f.blocks[i + 1]? = f.inner[i]?.map Index.number := by
    rw [← List.getElem?_map, h, List.getElem?_drop, Nat.add_comm]
  rw [hplace, Option.map_eq_some_iff]
  constructor
  · exact fun hn => ⟨n, hn, rfl⟩
  · rintro ⟨m, hm, heq⟩
    rwa [← Index.number.inj heq]

/-- The functions own labels of blocks only. -/
theorem Function.number_of_mem {bs : List Block} {labels : List Int} (hbs : Numbered bs labels)
    {fs : List Function} (hfs : findAll bs = .ok fs) {f : Function} (hf : f ∈ fs) {i : Index}
    (hi : i ∈ f.blocks) : ∃ n ∈ labels, i = .number n := by
  rcases findAll_blocks hfs with rfl | hblocks
  · simp at hf
  · have hmem : i ∈ bs.map Block.label := by
      rw [← hblocks]
      exact List.mem_flatMap.mpr ⟨f, hf, hi⟩
    obtain ⟨b, hb, rfl⟩ := List.mem_map.mp hmem
    exact hbs.label_mem hb

theorem Function.map_inner_of_findAll {bs : List Block} {labels : List Int} (hbs : Numbered bs labels)
    {fs : List Function} (hfs : findAll bs = .ok fs) :
    ∀ f ∈ fs, f.inner.map Index.number = f.blocks.drop 1 := by
  refine fun f hf => map_inner fun i hi => ?_
  obtain ⟨n, -, hn⟩ := number_of_mem hbs hfs hf hi
  exact ⟨n, hn⟩

/-- The numbers behind a header are numbers of blocks. -/
theorem Function.defines_of_mem_inner {bs : List Block} {labels : List Int} (hbs : Numbered bs labels)
    {fs : List Function} (hfs : findAll bs = .ok fs) : ∀ f ∈ fs, ∀ n ∈ f.inner, Defines bs n := by
  intro f hf n hn
  have hmem : Index.number n ∈ f.blocks.drop 1 := map_inner_of_findAll hbs hfs f hf ▸ List.mem_map_of_mem hn
  obtain ⟨m, hm, heq⟩ := number_of_mem hbs hfs hf (List.mem_of_mem_drop hmem)
  rw [Index.number.inj heq]
  exact hbs.find?_isSome_iff.mpr hm

namespace Graph

variable {bs cs : List Block} {labels : List Int} {reached : Int → Prop} {fs : List Function} {g : Graph}

/-! ## All functions -/

theorem addFunction_walked (hbs : Numbered bs labels)
    (hclosed : ∀ n, reached n → ∀ j ∈ links bs n, reached j.2)
    (hs : Sound bs reached (fun _ => False) g.blocks) {f : Function}
    (hinner : f.inner.map Index.number = f.blocks.drop 1) (hreached : ∀ n ∈ f.inner, reached n) :
    Walked bs reached (fun _ => False) f.inner (chains bs none f.inner) g (addFunction g f) := by
  have hbound : depthBound g.blocks = (bs.flatMap Block.jumps).length + 1 := by
    rw [depthBound, hs.sameCode.flatMap_jumps]
  have hfollow := follows_explore hbs hclosed f (bs.flatMap Block.jumps).length
  rw [addFunction, hbound, ← hinner]
  exact walk_walked hbs hclosed hfollow f f.inner g none hs (hbs.room g.blocks) (by simp) hreached

/-- Searches one after the other work through the blocks of all functions. -/
theorem foldl_addFunction_walked (hs : Sound bs reached (fun _ => False) g.blocks)
    (hwalked : ∀ f ∈ fs, ∀ g : Graph, Sound bs reached (fun _ => False) g.blocks →
      Walked bs reached (fun _ => False) f.inner (chains bs none f.inner) g (addFunction g f)) :
    Walked bs reached (fun _ => False) (fs.flatMap Function.inner)
      (fs.flatMap fun f => chains bs none f.inner) g (fs.foldl addFunction g) := by
  induction fs generalizing g with
  | nil => exact Walked.refl hs
  | cons f fs ih =>
      have hf := hwalked f (by simp) g hs
      have hfs := ih hf.sound fun f hf => hwalked f (by simp [hf])
      exact hf.trans hfs

/-! ## Chains where no target is missing -/

theorem chains_some (hall : ∀ n, ∀ j ∈ jumpsAt bs n, Defines bs j.2) (k : Int) {ns : List Int}
    (hns : ∀ n ∈ ns, Defines bs n) : chains bs (some k) ns = (k :: ns).zip ns := by
  induction ns generalizing k with
  | nil => rfl
  | cons n ns ih =>
      rw [chains, if_pos (hns n (by simp)), if_pos (hall n), ih n fun m hm => hns m (by simp [hm])]
      rfl

/-- Neighbours are chained. -/
theorem chains_none (hall : ∀ n, ∀ j ∈ jumpsAt bs n, Defines bs j.2) {ns : List Int}
    (hns : ∀ n ∈ ns, Defines bs n) : chains bs none ns = ns.zip ns.tail := by
  cases ns with
  | nil => rfl
  | cons n ns =>
      rw [chains, if_pos (hns n (by simp)), if_pos (hall n),
        chains_some hall n fun m hm => hns m (by simp [hm])]
      rfl

theorem map_fst_zip_sublist (ns ms : List Int) : ((ns.zip ms).map Prod.fst).Sublist ns := by
  induction ns generalizing ms with
  | nil => simp
  | cons n ns ih =>
      cases ms with
      | nil => simp
      | cons m ms => simpa using ih ms

theorem mem_zip_tail_iff {ns : List Int} {k n : Int} :
    (k, n) ∈ ns.zip ns.tail ↔ ∃ i, ns[i]? = some k ∧ ns[i + 1]? = some n := by
  simp only [List.mem_iff_getElem?, List.getElem?_zip_eq_some, List.getElem?_tail]

theorem assign_of_not_mem {ps : List (Int × Int)} {k : Int} (h : ∀ n, (k, n) ∉ ps)
    (next : Int → Option Successor) : assign next ps k = next k := by
  induction ps generalizing next with
  | nil => rfl
  | cons p ps ih =>
      have hp : k ≠ p.1 := by
        rintro rfl
        exact h p.2 (by simp)
      have hrest := ih (fun n hn => h n (by simp [hn]))
        fun m => if m = p.1 then some (.label (.number p.2)) else next m
      rw [if_neg hp] at hrest
      exact hrest

/-- Where every block is chained once, the pair that chains it counts. -/
theorem assign_of_mem {ps : List (Int × Int)} (hnodup : (ps.map Prod.fst).Nodup) {k n : Int}
    (h : (k, n) ∈ ps) (next : Int → Option Successor) :
    assign next ps k = some (.label (.number n)) := by
  induction ps generalizing next with
  | nil => simp at h
  | cons p ps ih =>
      rw [List.map_cons, List.nodup_cons] at hnodup
      rcases List.mem_cons.mp h with rfl | h
      · have hlater : ∀ m, (k, m) ∉ ps := fun m hm => hnodup.1 (List.mem_map.mpr ⟨_, hm, rfl⟩)
        have hlast := assign_of_not_mem hlater
          fun m => if m = k then some (.label (.number n)) else next m
        rw [if_pos rfl] at hlast
        exact hlast
      · exact ih hnodup.2 h _

/-! ## The graph -/

/-- The labels that a search can come to: those behind the headers of the functions, and the targets of the jumps in
their blocks. -/
inductive Reached (bs : List Block) (fs : List Function) : Index → Prop
  | own {f : Function} {i : Index} : f ∈ fs → i ∈ f.blocks.drop 1 → Reached bs fs i
  | jump {b : Block} {j : Nat × Int} : b ∈ bs → Reached bs fs b.label → j ∈ b.jumps →
      Reached bs fs (.number j.2)

/-- The blocks `cs` are the graph of the blocks `bs` with the functions `fs`. -/
structure Exact (bs : List Block) (fs : List Function) (cs : List Block) : Prop where
  sameCode : SameCode cs bs
  outRefs_eq : ∀ b ∈ cs, Reached bs fs b.label → b.outRefs = b.jumps.eraseDups
  outRefs_eq_nil : ∀ b ∈ cs, ¬ Reached bs fs b.label → b.outRefs = []
  inRefs_nodup : ∀ t ∈ cs, t.inRefs.Nodup
  mem_inRefs_iff : ∀ t ∈ cs, ∀ i, i ∈ t.inRefs ↔
    ∃ b ∈ cs, b.label = i ∧ Reached bs fs i ∧ ∃ j ∈ b.jumps, t.label = .number j.2
  exists_block : ∀ f ∈ fs, ∀ i ∈ f.blocks, ∃ b ∈ cs, b.label = i
  next_eq_some_iff : ∀ b ∈ cs, ∀ s, b.next = some s ↔
    ∃ f ∈ fs, ∃ i l, 1 ≤ i ∧ f.blocks[i]? = some b.label ∧ f.blocks[i + 1]? = some l ∧ s = .label l

theorem reached_closed (hall : ∀ n, ∀ j ∈ jumpsAt bs n, Defines bs j.2) (n : Int)
    (hn : Reached bs fs (.number n)) (j : Nat × Int) (hj : j ∈ links bs n) :
    Reached bs fs (.number j.2) := by
  rw [Block.links_eq (hall n), List.mem_eraseDups] at hj
  cases hb : Block.find? bs (.number n) with
  | none => simp [jumpsAt, hb] at hj
  | some b =>
      rw [Block.jumpsAt_of_find? hb] at hj
      exact .jump (List.mem_of_find?_eq_some hb) (Block.label_of_find? hb ▸ hn) hj

/-- Every block that is reached is done: the search starts at the blocks of the functions, and nothing is pending at
its end. -/
theorem done_of_reached (hbs : Numbered bs labels) (hall : ∀ n, ∀ j ∈ jumpsAt bs n, Defines bs j.2)
    (hs : Sound bs reached (fun _ => False) cs)
    (hinner : ∀ f ∈ fs, f.inner.map Index.number = f.blocks.drop 1)
    (hdone : ∀ n ∈ fs.flatMap Function.inner, Done bs cs n) {i : Index} (hi : Reached bs fs i) :
    ∀ n, i = .number n → Done bs cs n := by
  induction hi with
  | @own f i hf hi =>
      rintro n rfl
      rw [← hinner f hf, List.mem_map] at hi
      obtain ⟨m, hm, heq⟩ := hi
      rw [← Index.number.inj heq]
      exact hdone m (List.mem_flatMap.mpr ⟨f, hf, hm⟩)
  | @jump b j hb _ hj ih =>
      rintro n heq
      obtain ⟨k, -, hk⟩ := hbs.label_mem hb
      have hlink : j ∈ outs cs k := by
        rw [(ih k hk).outs_eq, Block.links_eq (hall k), Block.jumpsAt_of_find? (hbs.find?_of_mem hb hk),
          List.mem_eraseDups]
        exact hj
      rw [← Index.number.inj heq]
      exact (hs.done_of_mem k j hlink).resolve_right id

/-- The neighbours in all functions chain every block once, since the functions share out the blocks. -/
theorem neighbours_nodup (hbs : Numbered bs labels) (hfs : Function.findAll bs = .ok fs)
    (hinner : ∀ f ∈ fs, f.inner.map Index.number = f.blocks.drop 1) :
    ((fs.flatMap fun f => f.inner.zip f.inner.tail).map Prod.fst).Nodup := by
  have hblocks : (fs.flatMap Function.blocks).Nodup := by
    rcases Function.findAll_blocks hfs with rfl | heq
    · simp
    · rw [heq]
      exact hbs.labels_nodup
  have hsub : ((fs.flatMap Function.inner).map Index.number).Sublist (fs.flatMap Function.blocks) := by
    rw [List.map_flatMap]
    refine List.Sublist.flatMap_right fs fun f hf => ?_
    rw [hinner f hf]
    exact List.drop_sublist 1 f.blocks
  have hkeys : ((fs.flatMap fun f => f.inner.zip f.inner.tail).map Prod.fst).Sublist
      (fs.flatMap Function.inner) := by
    rw [List.map_flatMap]
    exact List.Sublist.flatMap_right fs fun f _ => map_fst_zip_sublist f.inner f.inner.tail
  exact hkeys.nodup (hsub.nodup hblocks).of_map

section Blocks

variable (hbs : Numbered bs labels) (hall : ∀ n, ∀ j ∈ jumpsAt bs n, Defines bs j.2)
  (hs : Sound bs (fun n => Reached bs fs (.number n)) (fun _ => False) cs)
  (hdone : ∀ n, Reached bs fs (.number n) → Done bs cs n)

include hbs hs

theorem find?_of_mem {b : Block} (hb : b ∈ cs) :
    ∃ n, b.label = .number n ∧ Block.find? cs (.number n) = some b := by
  have hcs := hs.sameCode.numbered hbs
  obtain ⟨n, -, hn⟩ := hcs.label_mem hb
  exact ⟨n, hn, hcs.find?_of_mem hb hn⟩

include hall hdone

/-- A block that is reached has its jumps as links. -/
theorem outRefs_of_reached {b : Block} (hb : b ∈ cs) (hr : Reached bs fs b.label) :
    b.outRefs = b.jumps.eraseDups := by
  obtain ⟨n, hn, hfind⟩ := find?_of_mem hbs hs hb
  rw [← Block.outs_of_find? hfind, (hdone n (hn ▸ hr)).outs_eq, Block.links_eq (hall n),
    hs.sameCode.jumpsAt_eq hfind]

omit hall hdone in
/-- No other block has links. -/
theorem outRefs_of_not_reached {b : Block} (hb : b ∈ cs) (hr : ¬ Reached bs fs b.label) :
    b.outRefs = [] := by
  obtain ⟨n, hn, hfind⟩ := find?_of_mem hbs hs hb
  rw [← Block.outs_of_find? hfind]
  exact not_not.mp fun hne => hr (hn ▸ hs.reached_of_outs n hne)

/-- The links in come from the blocks that are reached and jump there. -/
theorem mem_inRefs_iff {t : Block} (ht : t ∈ cs) (i : Index) :
    i ∈ t.inRefs ↔ ∃ b ∈ cs, b.label = i ∧ Reached bs fs i ∧ ∃ j ∈ b.jumps, t.label = .number j.2 := by
  obtain ⟨n, hn, hfind⟩ := find?_of_mem hbs hs ht
  rw [← Block.ins_of_find? hfind]
  constructor
  · intro hi
    obtain ⟨k, position, rfl, hlink⟩ := hs.mem_outs n i hi
    have hreached := hs.reached_of_outs k (List.ne_nil_of_mem hlink)
    cases hb : Block.find? cs (.number k) with
    | none => simp [outs, Block.field, hb] at hlink
    | some b =>
        have hjump : (position, n) ∈ b.jumps := by
          rw [(hdone k hreached).outs_eq, Block.links_eq (hall k), List.mem_eraseDups,
            hs.sameCode.jumpsAt_eq hb] at hlink
          exact hlink
        exact ⟨b, List.mem_of_find?_eq_some hb, Block.label_of_find? hb, hreached, _, hjump, hn⟩
  · rintro ⟨b, hb, rfl, hreached, j, hj, htarget⟩
    obtain ⟨k, hk, hfindb⟩ := find?_of_mem hbs hs hb
    have hjump : j ∈ jumpsAt bs k := by rwa [hs.sameCode.jumpsAt_eq hfindb]
    have hlink : j ∈ links bs k := by rwa [Block.links_eq (hall k), List.mem_eraseDups]
    rw [hn] at htarget
    rw [hk, Index.number.inj htarget]
    exact (hdone k (hk ▸ hreached)).mem_ins j hlink (hall k j hjump)

end Blocks

/-- The blocks behind a header are chained to their neighbours. -/
theorem assign_neighbours_iff (hbs : Numbered bs labels) (hfs : Function.findAll bs = .ok fs)
    (hinner : ∀ f ∈ fs, f.inner.map Index.number = f.blocks.drop 1) (n : Int) (s : Successor) :
    assign (fun _ => none) (fs.flatMap fun f => f.inner.zip f.inner.tail) n = some s ↔
      ∃ f ∈ fs, ∃ i l, 1 ≤ i ∧ f.blocks[i]? = some (.number n) ∧ f.blocks[i + 1]? = some l ∧
        s = .label l := by
  constructor
  · intro hnext
    by_cases hpair : ∃ m, (n, m) ∈ fs.flatMap fun f => f.inner.zip f.inner.tail
    · obtain ⟨m, hm⟩ := hpair
      rw [assign_of_mem (neighbours_nodup hbs hfs hinner) hm] at hnext
      obtain ⟨f, hf, hmf⟩ := List.mem_flatMap.mp hm
      obtain ⟨i, hi, hi'⟩ := mem_zip_tail_iff.mp hmf
      rw [Function.getElem?_inner (hinner f hf)] at hi hi'
      exact ⟨f, hf, i + 1, .number m, by omega, hi, hi', (Option.some.inj hnext).symm⟩
    · rw [assign_of_not_mem (not_exists.mp hpair)] at hnext
      simp at hnext
  · rintro ⟨f, hf, i, l, hi, hn, hl, rfl⟩
    obtain ⟨i, rfl⟩ := Nat.exists_eq_add_of_le' hi
    have hmem : l ∈ f.inner.map Index.number := by
      rw [hinner f hf, List.mem_iff_getElem?]
      exact ⟨i + 1, by rw [List.getElem?_drop, Nat.add_comm 1]; exact hl⟩
    obtain ⟨m, -, rfl⟩ := List.mem_map.mp hmem
    rw [← Function.getElem?_inner (hinner f hf)] at hn hl
    refine assign_of_mem (neighbours_nodup hbs hfs hinner) ?_ _
    exact List.mem_flatMap.mpr ⟨f, hf, mem_zip_tail_iff.mpr ⟨i, hn, hl⟩⟩

/-- The search makes the graph of the blocks. -/
theorem ofFunctions_exact (hbs : Numbered bs labels) (hfresh : ∀ b ∈ bs, b.Fresh)
    (hall : ∀ n, ∀ j ∈ jumpsAt bs n, Defines bs j.2) (hfs : Function.findAll bs = .ok fs) :
    Exact bs fs (ofFunctions bs fs).blocks := by
  have hinner := Function.map_inner_of_findAll hbs hfs
  have hown : ∀ f ∈ fs, ∀ n ∈ f.inner, Index.number n ∈ f.blocks.drop 1 := by
    intro f hf n hn
    rw [← hinner f hf]
    exact List.mem_map_of_mem hn
  have hwalk : Walked bs (fun n => Reached bs fs (.number n)) (fun _ => False) (fs.flatMap Function.inner)
      (fs.flatMap fun f => chains bs none f.inner) { blocks := bs } (ofFunctions bs fs) :=
    foldl_addFunction_walked (Sound.of_fresh hfresh) fun f hf g hs =>
      addFunction_walked hbs (reached_closed hall) hs (hinner f hf) fun n hn => .own hf (hown f hf n hn)
  have hdone : ∀ n, Reached bs fs (.number n) → Done bs (ofFunctions bs fs).blocks n :=
    fun n hn => done_of_reached hbs hall hwalk.sound hinner hwalk.done hn n rfl
  have hcs := hwalk.sound.sameCode.numbered hbs
  refine ⟨hwalk.sound.sameCode, fun b => outRefs_of_reached hbs hall hwalk.sound hdone,
    fun b => outRefs_of_not_reached hbs hwalk.sound, ?_,
    fun t => mem_inRefs_iff hbs hall hwalk.sound hdone, ?_, ?_⟩
  · intro t ht
    obtain ⟨n, -, hfind⟩ := find?_of_mem hbs hwalk.sound ht
    rw [← Block.ins_of_find? hfind]
    exact hwalk.sound.ins_nodup n
  · intro f hf i hi
    obtain ⟨n, hn, rfl⟩ := Function.number_of_mem hbs hfs hf hi
    exact hcs.exists_block hn
  · intro b hb s
    obtain ⟨n, hn, hfind⟩ := find?_of_mem hbs hwalk.sound hb
    have hchains : (fs.flatMap fun f => chains bs none f.inner) =
        fs.flatMap fun f => f.inner.zip f.inner.tail :=
      List.flatMap_congr fun f hf => chains_none hall (Function.defines_of_mem_inner hbs hfs f hf)
    have hnone : nextAt bs = fun _ => none := funext fun k => (Block.empty_of_fresh hfresh k).2.2
    rw [← Block.nextAt_of_find? hfind, hwalk.nextAt_eq, hchains, hnone, hn]
    exact assign_neighbours_iff hbs hfs hinner n s

end Graph

namespace Analysis

theorem build_eq {m : Module} {code : List Instruction} {bs : List Block} {fs : List Function}
    (hcode : m.code = some code) (hbs : Block.itemize code = .ok bs) (hfs : Function.findAll bs = .ok fs) :
    build m = .ok ({ module := m, functions := fs, blocks := (Graph.ofFunctions bs fs).blocks },
      (Graph.ofFunctions bs fs).warnings) := by
  rw [build, hcode]
  simp only [hbs, hfs, bind, Except.bind, pure, Except.pure]

/-- An analysis comes from blocks and functions that have been found. -/
theorem exists_of_build {m : Module} {a : Analysis} {warnings : Nat} (h : build m = .ok (a, warnings)) :
    ∃ code bs fs, m.code = some code ∧ Block.itemize code = .ok bs ∧ Function.findAll bs = .ok fs ∧
      a = { module := m, functions := fs, blocks := (Graph.ofFunctions bs fs).blocks } := by
  unfold build at h
  split at h
  · cases h
  · next code hcode =>
    obtain ⟨bs, hbs, h⟩ := exists_of_bind h
    obtain ⟨fs, hfs, h⟩ := exists_of_bind h
    exact ⟨code, bs, fs, hcode, hbs, hfs, (Prod.mk.inj (Except.ok.inj h)).1.symm⟩

/-- The analysis of a module whose labels are distinct numbers, and whose jumps go to them, has the graph of its
code. -/
theorem build_exact {m : Module} {code : List Instruction} {labels : List Int} (hcode : m.code = some code)
    (hlabels : Labelled code labels) (htargets : ∀ inst ∈ code, ∀ t ∈ inst.jumpTargets, t ∈ labels) :
    ∃ bs, Block.itemize code = .ok bs ∧ ∀ fs, Function.findAll bs = .ok fs →
      ∃ a warnings, build m = .ok (a, warnings) ∧ a.functions = fs ∧ Graph.Exact bs fs a.blocks := by
  obtain ⟨bs, labels', hbs, hperm, hnumbered, hblocks⟩ := hlabels.itemize
  have hall : ∀ n, ∀ j ∈ jumpsAt bs n, Defines bs j.2 := by
    intro n j hj
    cases hb : Block.find? bs (.number n) with
    | none => simp [jumpsAt, hb] at hj
    | some b =>
        rw [Block.jumpsAt_of_find? hb] at hj
        obtain ⟨p, hp, hjp⟩ := List.mem_flatMap.mp hj
        obtain ⟨t, ht, rfl⟩ := List.mem_map.mp hjp
        have hinst := (hblocks b (List.mem_of_find?_eq_some hb)).2 p hp
        exact hnumbered.find?_isSome_iff.mpr (hperm.mem_iff.mpr (htargets p.inst hinst t ht))
  refine ⟨bs, hbs, fun fs hfs => ?_⟩
  exact ⟨_, _, build_eq hcode hbs hfs, rfl, Graph.ofFunctions_exact hnumbered (fun b hb => (hblocks b hb).1) hall hfs⟩

/-- Instructions by their opcodes and operands. -/
def assembled (lines : List (Nat × List Term)) : List Instruction :=
  lines.filterMap fun line => (Operation.find? line.1).map fun op => ⟨op, line.2⟩

/-- Two functions that jump into each other. The first one loops, and its switch names a target twice. -/
def crossing : List Instruction :=
  [(1, [.literal 1]), (2, [.atom 1, .atom 2, .literal 0]),
    (1, [.literal 2]), (41, [.label 3, .xreg (.number 0), .xreg (.number 1)]), (61, [.label 2]),
    (1, [.literal 3]),
    (59, [.xreg (.number 0), .label 3, .list [.integer 1, .label 5, .integer 2, .label 5]]),
    (1, [.literal 4]), (2, [.atom 1, .atom 3, .literal 0]),
    (1, [.literal 5]), (61, [.label 2])].filterMap fun line : Nat × List Term =>
      (Operation.find? line.1).map fun op => ⟨op, line.2⟩

theorem build_exact_crossing :
    Labelled crossing [1, 2, 3, 4, 5] ∧ (∀ inst ∈ crossing, ∀ t ∈ inst.jumpTargets, t ∈ [1, 2, 3, 4, 5]) ∧
    ∃ bs fs a warnings, Block.itemize crossing = .ok bs ∧ Function.findAll bs = .ok fs ∧
      fs.map Function.blocks = [[.number 1, .number 2, .number 3], [.number 4, .number 5]] ∧
      build { code := some crossing } = .ok (a, warnings) ∧ Graph.Exact bs fs a.blocks := by
  have hlabels : Labelled crossing [1, 2, 3, 4, 5] := ⟨rfl, by decide⟩
  have htargets : ∀ inst ∈ crossing, ∀ t ∈ inst.jumpTargets, t ∈ [1, 2, 3, 4, 5] := by decide
  have hfunctions : (Block.itemize crossing >>= Function.findAll).map (·.map Function.blocks) =
      .ok [[.number 1, .number 2, .number 3], [.number 4, .number 5]] := by cbv
  obtain ⟨bs, hbs, hexact⟩ := build_exact (m := { code := some crossing }) rfl hlabels htargets
  rw [hbs] at hfunctions
  change (Function.findAll bs).map _ = _ at hfunctions
  cases hfs : Function.findAll bs with
  | error e => simp [hfs, Except.map] at hfunctions
  | ok fs =>
      rw [hfs] at hfunctions
      obtain ⟨a, warnings, hbuild, -, hgraph⟩ := hexact fs hfs
      exact ⟨hlabels, htargets, bs, fs, a, warnings, hbs, hfs, Except.ok.inj hfunctions, hbuild, hgraph⟩

end Analysis

end BeamDisasm

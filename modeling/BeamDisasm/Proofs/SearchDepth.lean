import BeamDisasm.Proofs.GraphOrder
import Mathlib.Data.List.Iterate
import Mathlib.Data.List.Lattice

/-!
# How deep the search for links goes

The search for links step by step. A call works through a list of blocks; for every link that it makes it opens another
call and goes on when that one is over. Calls that are open at the same time have made different links, and a link is
made once. So there is always an end, and no more calls are open than there are jumps in the code, and one.
-/
namespace BeamDisasm

namespace Block

variable {bs cs ds : List Block} {b c : Block} {j : Nat × Int} {i : Index}

/-! ## Links that are not there yet -/

/-- The jumps of the block that are no links yet. -/
def openJumps (b : Block) : List (Nat × Int) :=
  b.jumps.eraseDups.filter fun j => !b.outRefs.contains j

/-- The number of links that can still be made. -/
def openLinks (bs : List Block) : Nat :=
  (bs.flatMap openJumps).length

/-- The block has the same code, and its links out are still there. -/
structure Keeps (b c : Block) : Prop where
  code_eq : c.code = b.code
  subset : b.outRefs ⊆ c.outRefs

theorem Keeps.refl (b : Block) : Keeps b b :=
  ⟨rfl, List.Subset.refl _⟩

theorem keeps_addOutLink (b : Block) (j : Nat × Int) : Keeps b (b.addOutLink j.1 j.2) := by
  refine ⟨code_addOutLink b, ?_⟩
  rw [addOutLink]
  split
  · exact List.Subset.refl _
  · exact List.subset_append_left _ _

theorem keeps_addInLink (b : Block) (i : Index) : Keeps b (b.addInLink i) := by
  refine ⟨code_addInLink b i, ?_⟩
  rw [addInLink]
  split <;> exact List.Subset.refl _

/-- Block by block the same code, and links out are only added. -/
def AllKeep (bs cs : List Block) : Prop :=
  List.Forall₂ Keeps bs cs

theorem AllKeep.refl (bs : List Block) : AllKeep bs bs :=
  List.forall₂_same.mpr fun b _ => Keeps.refl b

theorem AllKeep.trans (h : AllKeep bs cs) (h' : AllKeep cs ds) : AllKeep bs ds := by
  induction h generalizing ds with
  | nil => exact h'
  | cons hb _ ih =>
      cases h' with
      | cons hc hcs => exact .cons ⟨hc.code_eq.trans hb.code_eq, List.Subset.trans hb.subset hc.subset⟩ (ih hcs)

theorem AllKeep.sameCode (h : AllKeep bs cs) : SameCode cs bs := by
  induction h with
  | nil => rfl
  | cons hb _ ih => exact List.cons_eq_cons.mpr ⟨hb.code_eq, ih⟩

theorem allKeep_update {f : Block → Block} (hf : ∀ b, Keeps b (f b)) (i : Index) (bs : List Block) :
    AllKeep bs (update i f bs) := by
  refine List.forall₂_map_right_iff.mpr (List.forall₂_same.mpr fun b _ => ?_)
  split
  · exact hf b
  · exact Keeps.refl b

theorem Keeps.length_openJumps_le (h : Keeps b c) : c.openJumps.length ≤ b.openJumps.length := by
  rw [openJumps, openJumps, jumps_of_code h.code_eq]
  refine (List.monotone_filter_right _ fun j hj => ?_).length_le
  simp only [Bool.not_eq_true', ← Bool.not_eq_true, List.contains_iff_mem] at hj ⊢
  exact fun hmem => hj (h.subset hmem)

theorem AllKeep.openLinks_le (h : AllKeep bs cs) : openLinks cs ≤ openLinks bs := by
  rw [openLinks, openLinks]
  induction h with
  | nil => exact Nat.le_refl _
  | cons hb _ ih =>
      have hhead := hb.length_openJumps_le
      simp only [List.flatMap_cons, List.length_append]
      omega

/-- A new link out of a block is one of those that could be made. -/
theorem length_openJumps_addOutLink (hj : j ∈ b.jumps) (hnew : j ∉ b.outRefs) :
    (b.addOutLink j.1 j.2).openJumps.length < b.openJumps.length := by
  have hopen : (b.addOutLink j.1 j.2).openJumps = b.openJumps.filter fun k => k != j := by
    have hjumps := jumps_of_code (@code_addOutLink j.1 j.2 b)
    have hlinks : (b.addOutLink j.1 j.2).outRefs = b.outRefs ++ [j] := by
      rw [addOutLink, hasOutRef, if_neg (by rwa [List.contains_iff_mem])]
    rw [openJumps, openJumps, hjumps, hlinks, List.filter_filter]
    refine List.filter_congr fun k _ => ?_
    by_cases hk : k = j <;> simp [hk]
  rw [hopen, List.length_filter_lt_length_iff_exists]
  refine ⟨j, ?_, by simp⟩
  simp [openJumps, List.mem_eraseDups, hj, hnew]

/-- A new link leaves fewer to be made. -/
theorem openLinks_addOutLink (hb : find? bs i = some b) (hj : j ∈ b.jumps) (hnew : j ∉ b.outRefs) :
    openLinks (update i (·.addOutLink j.1 j.2) bs) < openLinks bs := by
  induction bs with
  | nil => simp [find?] at hb
  | cons c bs ih =>
      simp only [openLinks, update, List.map_cons, List.flatMap_cons, List.length_append] at ih ⊢
      by_cases hc : c.label.same i = true
      · have hcb : c = b := by simpa [find?, hc] using hb
        subst hcb
        have hrest := (allKeep_update (fun b => keeps_addOutLink b j) i bs).openLinks_le
        have hhead := length_openJumps_addOutLink hj hnew
        rw [openLinks, openLinks, update] at hrest
        rw [if_pos hc]
        omega
      · rw [if_neg hc]
        have hrest := ih (by simpa [find?, hc] using hb)
        omega

/-- There are no more links to be made than there are jumps. -/
theorem openLinks_lt_depthBound (bs : List Block) : openLinks bs < Graph.depthBound bs := by
  have hle : (bs.flatMap openJumps).length ≤ (bs.flatMap jumps).length := by
    induction bs with
    | nil => exact Nat.le_refl _
    | cons b bs ih =>
        have hhead : b.openJumps.length ≤ b.jumps.length :=
          Nat.le_trans (List.length_filter_le _ _) (length_eraseDups_le _)
        simp only [List.flatMap_cons, List.length_append]
        omega
  rw [openLinks, Graph.depthBound]
  omega

/-! ## Jumps of the code -/

/-- The jumps of instructions: the position of each with each of its targets. -/
def placedJumps (ps : List Placed) : List (Nat × Int) :=
  ps.flatMap fun p => p.inst.jumpTargets.map fun t => (p.position, t)

theorem position_mem_of_mem {ps : List Placed} (h : j ∈ placedJumps ps) : j.1 ∈ ps.map Placed.position := by
  obtain ⟨p, hp, hj⟩ := List.mem_flatMap.mp h
  obtain ⟨t, -, rfl⟩ := List.mem_map.mp hj
  exact List.mem_map_of_mem hp

theorem map_position_placeFrom (n : Nat) (code : List Instruction) :
    (placeFrom n code).map Placed.position = List.range' n code.length := by
  induction code generalizing n with
  | nil => rfl
  | cons inst insts ih => rw [placeFrom, List.map_cons, ih, List.length_cons, List.range'_succ]

theorem map_insts_of_mapM {parts : List (Placed × List Placed)} (h : parts.mapM ofPart = .ok bs) :
    bs.map Block.insts = parts.map (·.2) := by
  have hblocks := forall₂_of_mapM h
  clear h
  induction hblocks with
  | nil => rfl
  | cons hpart _ ih => rw [List.map_cons, List.map_cons, ih, (ofPart_spec hpart).1]

/-- No position is in two blocks. -/
def Apart (ps qs : List Placed) : Prop :=
  List.Disjoint (ps.map Placed.position) (qs.map Placed.position)

theorem apart_parts (code : List Instruction) : ((cut (placeFrom 0 code)).2.map (·.2)).Pairwise Apart := by
  have hnodup : ((cut (placeFrom 0 code)).2.flatMap fun part => (part.1 :: part.2).map Placed.position).Nodup := by
    have hsub : ((cut (placeFrom 0 code)).2.flatMap fun part => part.1 :: part.2).Sublist (placeFrom 0 code) := by
      conv_rhs => rw [← cut_flatten (placeFrom 0 code)]
      exact List.sublist_append_right _ _
    have hpositions := hsub.map Placed.position
    rw [map_position_placeFrom, List.map_flatMap] at hpositions
    exact hpositions.nodup List.nodup_range'
  rw [List.pairwise_map]
  refine (List.nodup_flatMap.mp hnodup).2.imp fun hdisjoint n hn hn' => ?_
  exact hdisjoint (List.mem_cons_of_mem _ hn) (List.mem_cons_of_mem _ hn')

theorem apart_itemize {code : List Instruction} (h : itemize code = .ok bs) : (bs.map Block.insts).Pairwise Apart := by
  obtain ⟨cs, hparts, -, hperm⟩ := exists_of_itemize h
  have hcs : (cs.map Block.insts).Pairwise Apart := map_insts_of_mapM hparts ▸ apart_parts code
  have hkept := hcs.sublist ((keepLast_sublist cs).map _)
  exact ((hperm.map _).pairwise_iff fun hapart => hapart.symm).mpr hkept

/-- Blocks of a code section have no more links to be made than there are jumps in the code. -/
theorem openLinks_le_jumps {code : List Instruction} (h : itemize code = .ok bs) (hcs : SameCode cs bs) :
    openLinks cs ≤ (placedJumps (placeFrom 0 code)).eraseDups.length := by
  have hinsts : cs.map Block.insts = bs.map Block.insts := by
    have hmap := congrArg (List.map Prod.snd) hcs
    rwa [List.map_map, List.map_map] at hmap
  have hjumps : ∀ {b : Block} {j}, j ∈ b.openJumps → j ∈ placedJumps b.insts := by
    intro b j hj
    exact List.mem_eraseDups.mp (List.mem_filter.mp hj).1
  have hnodup : (cs.flatMap openJumps).Nodup := by
    refine List.nodup_flatMap.mpr ⟨fun b _ => (nodup_eraseDups _).filter _, ?_⟩
    have hapart := apart_itemize h
    rw [← hinsts, List.pairwise_map] at hapart
    exact hapart.imp fun hbc j hj hj' => hbc (position_mem_of_mem (hjumps hj)) (position_mem_of_mem (hjumps hj'))
  have hsub : cs.flatMap openJumps ⊆ (placedJumps (placeFrom 0 code)).eraseDups := by
    intro j hj
    obtain ⟨b, hb, hj⟩ := List.mem_flatMap.mp hj
    have hmem : b.insts ∈ bs.map Block.insts := hinsts ▸ List.mem_map_of_mem hb
    obtain ⟨c, hc, hcb⟩ := List.mem_map.mp hmem
    obtain ⟨p, hp, hj⟩ := List.mem_flatMap.mp (hjumps hj)
    have hplaced := (insts_sublist h hc).subset (hcb ▸ hp)
    exact List.mem_eraseDups.mpr (List.mem_flatMap.mpr ⟨p, hplaced, hj⟩)
  exact (hnodup.subperm hsub).length_le

end Block

namespace Graph

open Block (AllKeep Keeps openLinks SameCode)

/-! ## The search step by step -/

/-- What a call does next. -/
inductive Task where
  /-- It takes up its next block. -/
  | turn
  /-- It links the jumps that are left of a block. -/
  | scan (label : Index) (jumps : List (Nat × Int))
  /-- It tells the target of a jump that it is linked; then it goes on with the jumps that are left. -/
  | land (label : Index) (jump : Nat × Int) (jumps : List (Nat × Int))

/-- A call that is open: what it does next, the last block that it has worked through to the end, and the blocks that
are left. -/
structure Call where
  task : Task
  before : Option Index
  labels : List Index

/-- A call that starts to work through blocks. -/
def Call.start (labels : List Index) : Call :=
  ⟨.turn, none, labels⟩

/-- A moment of the search: the graph so far and the calls that are open, the innermost first. -/
structure Moment where
  graph : Graph
  calls : List Call

/-- One step of the innermost call. It opens another call for a link that is new. -/
def step (f : Function) : Moment → Moment
  | ⟨g, []⟩ => ⟨g, []⟩
  | ⟨g, ⟨.turn, _, []⟩ :: calls⟩ => ⟨g, calls⟩
  | ⟨g, ⟨.turn, before, label :: labels⟩ :: calls⟩ =>
    match g.find? label with
    | none => ⟨g, ⟨.turn, before, labels⟩ :: calls⟩
    | some b => ⟨chain before label g, ⟨.scan label b.jumps, before, labels⟩ :: calls⟩
  | ⟨g, ⟨.scan label [], _, labels⟩ :: calls⟩ => ⟨g, ⟨.turn, some label, labels⟩ :: calls⟩
  | ⟨g, ⟨.scan label (jump :: jumps), before, labels⟩ :: calls⟩ =>
    let g := g.warnUnless (f.hasBlock (.number jump.2))
    let calls := ⟨.land label jump jumps, before, labels⟩ :: calls
    if g.hasLink label jump.1 jump.2 then ⟨g, calls⟩
    else ⟨g.update label fun b => b.addOutLink jump.1 jump.2, .start [.number jump.2] :: calls⟩
  | ⟨g, ⟨.land label jump jumps, before, labels⟩ :: calls⟩ =>
    match g.find? (.number jump.2) with
    | none => ⟨g, ⟨.turn, before, labels⟩ :: calls⟩
    | some _ => ⟨g.update (.number jump.2) (·.addInLink label), ⟨.scan label jumps, before, labels⟩ :: calls⟩

/-- Some steps lead from a moment to another. -/
def Leads (f : Function) (m m' : Moment) : Prop :=
  ∃ n, (step f)^[n] m = m'

variable {f : Function} {g g' : Graph} {m m' m'' : Moment} {calls : List Call} {labels : List Index}
  {before : Option Index} {label : Index} {j : Nat × Int} {js : List (Nat × Int)} {b : Block} {depth : Nat}
  {follow : Int → Graph → Graph}

theorem Leads.refl (m : Moment) : Leads f m m :=
  ⟨0, rfl⟩

theorem Leads.trans (h : Leads f m m') (h' : Leads f m' m'') : Leads f m m'' := by
  obtain ⟨k, rfl⟩ := h
  obtain ⟨n, rfl⟩ := h'
  exact ⟨n + k, Function.iterate_add_apply _ n k m⟩

theorem Leads.of_step (h : Leads f (step f m) m') : Leads f m m' :=
  Leads.trans ⟨1, rfl⟩ h

/-- Where no call is open nothing happens any more, so there is one end. -/
theorem Leads.end_unique (h : Leads f m ⟨g, []⟩) (h' : Leads f m ⟨g', []⟩) : g = g' := by
  have hstays : ∀ g n, (step f)^[n] ⟨g, []⟩ = ⟨g, []⟩ := fun g n => Function.iterate_fixed rfl n
  obtain ⟨k, hk⟩ := h
  obtain ⟨n, hn⟩ := h'
  have hlate : (step f)^[n + k] m = ⟨g, []⟩ := by rw [Function.iterate_add_apply, hk, hstays]
  have hlate' : (step f)^[k + n] m = ⟨g', []⟩ := by rw [Function.iterate_add_apply, hn, hstays]
  rw [Nat.add_comm, hlate', Moment.mk.injEq] at hlate
  exact hlate.1.symm

/-! ## Steps change little -/

theorem allKeep_warnUnless (g : Graph) (owned : Bool) : AllKeep g.blocks (g.warnUnless owned).blocks := by
  rw [blocks_warnUnless]
  exact AllKeep.refl _

theorem allKeep_addOutLink (label : Index) (j : Nat × Int) (g : Graph) :
    AllKeep g.blocks (g.update label fun b => b.addOutLink j.1 j.2).blocks :=
  Block.allKeep_update (fun b => Block.keeps_addOutLink b j) label g.blocks

theorem allKeep_addInLink (label target : Index) (g : Graph) :
    AllKeep g.blocks (g.update target fun b => b.addInLink label).blocks :=
  Block.allKeep_update (fun b => Block.keeps_addInLink b label) target g.blocks

theorem allKeep_chain (before : Option Index) (label : Index) (g : Graph) :
    AllKeep g.blocks (chain before label g).blocks := by
  cases before with
  | none => exact AllKeep.refl _
  | some i =>
      exact Block.allKeep_update (f := Block.setNext (.label label)) (fun b => ⟨rfl, List.Subset.refl _⟩) i g.blocks

theorem allKeep_link (hfollow : ∀ t g, AllKeep g.blocks (follow t g).blocks) (f : Function) (label : Index)
    (j : Nat × Int) (g : Graph) : AllKeep g.blocks (link follow f label j g).blocks := by
  have hwarn := allKeep_warnUnless g (f.hasBlock (.number j.2))
  simp only [link]
  split
  · exact hwarn
  · exact hwarn.trans ((allKeep_addOutLink label j _).trans (hfollow j.2 _))

theorem allKeep_linkAll (hfollow : ∀ t g, AllKeep g.blocks (follow t g).blocks) (f : Function) (label : Index)
    (js : List (Nat × Int)) (g : Graph) : AllKeep g.blocks (linkAll follow f label js g).1.blocks := by
  induction js generalizing g with
  | nil => exact AllKeep.refl _
  | cons j js ih =>
      have hlink := allKeep_link hfollow f label j g
      simp only [linkAll]
      split
      · exact hlink
      · exact hlink.trans ((allKeep_addInLink label _ _).trans (ih _))

theorem allKeep_walk (hfollow : ∀ t g, AllKeep g.blocks (follow t g).blocks) (f : Function) (before : Option Index)
    (labels : List Index) (g : Graph) : AllKeep g.blocks (walk follow f before labels g).blocks := by
  induction labels generalizing before g with
  | nil => exact AllKeep.refl _
  | cons label labels ih =>
      rw [walk]
      split
      · exact ih before g
      · exact (allKeep_chain before label g).trans ((allKeep_linkAll hfollow f label _ _).trans (ih _ _))

theorem allKeep_explore (f : Function) (depth : Nat) (labels : List Index) (g : Graph) :
    AllKeep g.blocks (explore f depth labels g).blocks := by
  induction depth generalizing labels g with
  | zero => exact AllKeep.refl _
  | succ depth ih => exact allKeep_walk (fun t g => ih [.number t] g) f none labels g

theorem allKeep_foldl_addFunction (fs : List Function) (g : Graph) :
    AllKeep g.blocks (fs.foldl addFunction g).blocks := by
  induction fs generalizing g with
  | nil => exact AllKeep.refl _
  | cons f fs ih => exact (allKeep_explore f _ _ g).trans (ih _)

/-- The jumps are some of the block with a label. -/
def JumpsOf (g : Graph) (label : Index) (js : List (Nat × Int)) : Prop :=
  ∃ b, g.find? label = some b ∧ js ⊆ b.jumps

theorem JumpsOf.mono (h : JumpsOf g label js) (hkeep : AllKeep g.blocks g'.blocks) : JumpsOf g' label js := by
  obtain ⟨b, hb, hjs⟩ := h
  have hmap := hkeep.sameCode.find?_map label
  rw [find?] at hb
  rw [hb, Option.map_some] at hmap
  obtain ⟨c, hc, hcode⟩ := Option.map_eq_some_iff.mp hmap
  exact ⟨c, hc, by rwa [Block.jumps_of_code hcode]⟩

theorem JumpsOf.tail (h : JumpsOf g label (j :: js)) : JumpsOf g label js := by
  obtain ⟨b, hb, hjs⟩ := h
  exact ⟨b, hb, List.subset_of_cons_subset hjs⟩

/-- A link that is not there yet is one of those that can be made. -/
theorem JumpsOf.openLinks_lt (h : JumpsOf g label (j :: js)) (hnew : ¬ g.hasLink label j.1 j.2 = true) :
    openLinks (g.update label fun b => b.addOutLink j.1 j.2).blocks < openLinks g.blocks := by
  obtain ⟨b, hb, hjs⟩ := h
  refine Block.openLinks_addOutLink hb (hjs (List.mem_cons_self ..)) ?_
  simpa [hasLink, hb, Block.hasOutRef] using hnew

/-! ## The steps do what the search does -/

/-- Steps of a call do what a function of the graph does, while fewer than `depth` links can still be made. -/
def Performs (f : Function) (depth : Nat) (follow : Int → Graph → Graph) : Prop :=
  ∀ target g calls, openLinks g.blocks < depth →
    Leads f ⟨g, .start [.number target] :: calls⟩ ⟨follow target g, calls⟩

theorem leads_link (hperforms : Performs f depth follow) (hdepth : openLinks g.blocks < depth + 1)
    (hjumps : JumpsOf g label (j :: js)) :
    Leads f ⟨g, ⟨.scan label (j :: js), before, labels⟩ :: calls⟩
      ⟨link follow f label j g, ⟨.land label j js, before, labels⟩ :: calls⟩ := by
  have hwarned := hjumps.mono (allKeep_warnUnless g (f.hasBlock (.number j.2)))
  have hopen := (allKeep_warnUnless g (f.hasBlock (.number j.2))).openLinks_le
  refine Leads.of_step ?_
  simp only [step, link]
  split
  · exact Leads.refl _
  · next hnew =>
    have hless := hwarned.openLinks_lt hnew
    exact hperforms _ _ _ (by omega)

theorem leads_linkAll (hperforms : Performs f depth follow) (hfollow : ∀ t g, AllKeep g.blocks (follow t g).blocks)
    (hdepth : openLinks g.blocks < depth + 1) (hjumps : JumpsOf g label js) :
    Leads f ⟨g, ⟨.scan label js, before, labels⟩ :: calls⟩
      ⟨(linkAll follow f label js g).1,
        ⟨.turn, if (linkAll follow f label js g).2 then some label else before, labels⟩ :: calls⟩ := by
  induction js generalizing g with
  | nil => exact Leads.of_step (Leads.refl _)
  | cons j js ih =>
      have hkeep := allKeep_link hfollow f label j g
      refine (leads_link hperforms hdepth hjumps).trans (Leads.of_step ?_)
      rw [linkAll]
      simp only [step]
      cases htarget : (link follow f label j g).find? (.number j.2) with
      | none => exact Leads.refl _
      | some t =>
          have hkeep' := hkeep.trans (allKeep_addInLink label (.number j.2) _)
          have hopen := hkeep'.openLinks_le
          exact ih (Nat.lt_of_le_of_lt hopen hdepth) (hjumps.tail.mono hkeep')

theorem leads_walk (hperforms : Performs f depth follow) (hfollow : ∀ t g, AllKeep g.blocks (follow t g).blocks)
    (hdepth : openLinks g.blocks < depth + 1) :
    Leads f ⟨g, ⟨.turn, before, labels⟩ :: calls⟩ ⟨walk follow f before labels g, calls⟩ := by
  induction labels generalizing before g with
  | nil => exact Leads.of_step (Leads.refl _)
  | cons label labels ih =>
      refine Leads.of_step ?_
      rw [walk]
      simp only [step]
      cases hb : g.find? label with
      | none => exact ih hdepth
      | some b =>
          have hchain := allKeep_chain before label g
          have hjumps : JumpsOf (chain before label g) label b.jumps :=
            JumpsOf.mono ⟨b, hb, List.Subset.refl _⟩ hchain
          have hopen := hchain.openLinks_le
          have hscan := allKeep_linkAll hfollow f label b.jumps (chain before label g)
          have hopen' := hscan.openLinks_le
          exact (leads_linkAll hperforms hfollow (by omega) hjumps).trans (ih (by omega))

theorem performs_explore (f : Function) (depth : Nat) :
    Performs f depth fun target => explore f depth [.number target] := by
  induction depth with
  | zero => exact fun target g calls h => absurd h (Nat.not_lt_zero _)
  | succ depth ih =>
      intro target g calls h
      exact leads_walk ih (fun t g => allKeep_explore f depth [.number t] g) h

/-- The steps of a call end with what the search gives. -/
theorem leads_explore (hdepth : openLinks g.blocks < depth) :
    Leads f ⟨g, .start labels :: calls⟩ ⟨explore f depth labels g, calls⟩ := by
  cases depth with
  | zero => exact absurd hdepth (Nat.not_lt_zero _)
  | succ depth => exact leads_walk (performs_explore f depth) (fun t g => allKeep_explore f depth [.number t] g) hdepth

/-! ## How many calls are open -/

/-- The jumps that a call still has to link are those of its block. -/
def Call.Fits (g : Graph) (c : Call) : Prop :=
  match c.task with
  | .turn => True
  | .scan label js => JumpsOf g label js
  | .land label _ js => JumpsOf g label js

theorem Call.Fits.mono {c : Call} (h : c.Fits g) (hkeep : AllKeep g.blocks g'.blocks) : c.Fits g' := by
  obtain ⟨task, before, labels⟩ := c
  cases task with
  | turn => trivial
  | scan label js => exact JumpsOf.mono h hkeep
  | land label j js => exact JumpsOf.mono h hkeep

/-- The open calls and the links that can still be made are no more than `n` together. -/
structure Moment.Within (m : Moment) (n : Nat) : Prop where
  fits : ∀ c ∈ m.calls, c.Fits m.graph
  le : m.calls.length + openLinks m.graph.blocks ≤ n

/-- A step that replaces the innermost call by others. -/
theorem Moment.Within.replace {n : Nat} {c : Call} (h : Within ⟨g, c :: calls⟩ n) (news : List Call)
    (hkeep : AllKeep g.blocks g'.blocks) (hnews : ∀ d ∈ news, d.Fits g')
    (hle : news.length + openLinks g'.blocks ≤ 1 + openLinks g.blocks) : Within ⟨g', news ++ calls⟩ n := by
  refine ⟨?_, ?_⟩
  · intro d hd
    rcases List.mem_append.mp hd with hd | hd
    · exact hnews d hd
    · exact (h.fits d (List.mem_cons_of_mem c hd)).mono hkeep
  · have hall := h.le
    simp only [List.length_cons, List.length_append] at hall ⊢
    omega

/-- Every new call takes the place of a link. -/
theorem Moment.Within.step {n : Nat} (h : m.Within n) : (step f m).Within n := by
  obtain ⟨g, calls⟩ := m
  cases calls with
  | nil => exact h
  | cons c calls =>
      have hfits := h.fits c (List.mem_cons_self ..)
      obtain ⟨task, before, labels⟩ := c
      cases task with
      | turn =>
          cases labels with
          | nil => exact h.replace [] (AllKeep.refl _) (by simp) (by simp)
          | cons label labels =>
              simp only [Graph.step]
              split
              · exact h.replace [_] (AllKeep.refl _) (by simp [Call.Fits]) (by simp)
              · next b hb =>
                have hchain := allKeep_chain before label g
                have hjumps : JumpsOf (chain before label g) label b.jumps :=
                  JumpsOf.mono ⟨b, hb, List.Subset.refl _⟩ hchain
                exact h.replace [_] hchain (by simpa [Call.Fits] using hjumps)
                  (by simpa using hchain.openLinks_le)
      | scan label js =>
          cases js with
          | nil => exact h.replace [_] (AllKeep.refl _) (by simp [Call.Fits]) (by simp)
          | cons j js =>
              have hwarn := allKeep_warnUnless g (f.hasBlock (.number j.2))
              have hjumps : JumpsOf (g.warnUnless (f.hasBlock (.number j.2))) label (j :: js) :=
                JumpsOf.mono hfits hwarn
              have hopen := hwarn.openLinks_le
              simp only [Graph.step]
              split
              · exact h.replace [_] hwarn (by simpa [Call.Fits] using hjumps.tail) (by simp)
              · next hnew =>
                have hadd := allKeep_addOutLink label j (g.warnUnless (f.hasBlock (.number j.2)))
                have hless := hjumps.openLinks_lt hnew
                refine h.replace [_, _] (hwarn.trans hadd) ?_ ?_
                · simpa [Call.start, Call.Fits] using hjumps.tail.mono hadd
                · simp only [List.length_cons, List.length_nil]
                  omega
      | land label j js =>
          simp only [Graph.step]
          split
          · exact h.replace [_] (AllKeep.refl _) (by simp [Call.Fits]) (by simp)
          · have hadd := allKeep_addInLink label (.number j.2) g
            have hjumps : JumpsOf _ label js := JumpsOf.mono hfits hadd
            exact h.replace [_] hadd (by simpa [Call.Fits] using hjumps) (by simpa using hadd.openLinks_le)

theorem Moment.Within.iterate {n : Nat} (h : m.Within n) (k : Nat) : ((Graph.step f)^[k] m).Within n := by
  induction k with
  | zero => exact h
  | succ k ih =>
      rw [Function.iterate_succ_apply']
      exact ih.step

/-- A search from a moment ends with a graph, and at every moment no more than `n` calls are open. -/
structure Moment.Finishes (f : Function) (m : Moment) (g : Graph) (n : Nat) : Prop where
  ends : Leads f m ⟨g, []⟩
  calls_le : ∀ k, ((step f)^[k] m).calls.length ≤ n

/-- A search ends with what is found at any depth that is enough. -/
theorem finishes_explore {n : Nat} (hopen : openLinks g.blocks ≤ n) (hdepth : openLinks g.blocks < depth)
    (f : Function) (labels : List Index) :
    Moment.Finishes f ⟨g, [.start labels]⟩ (explore f depth labels g) (1 + n) := by
  refine ⟨leads_explore hdepth, fun k => ?_⟩
  have hstart : Moment.Within ⟨g, [.start labels]⟩ (1 + n) :=
    ⟨by simp [Call.start, Call.Fits], by simpa using hopen⟩
  exact Nat.le_trans (Nat.le_add_right _ _) (hstart.iterate k).le

/-- The number of different jumps in the code. -/
def jumpCount (code : List Instruction) : Nat :=
  (Block.placedJumps (Block.placeFrom 0 code)).eraseDups.length

/-- In code whose labels are numbers every search for links ends, whatever links are there already and whichever blocks
it starts with; the graph of functions is what the searches from one function after the other end with. At every
moment no more calls are open than there are different jumps in the code, and one; any depth beyond the number of jumps
is enough. -/
theorem search_finishes (code : List Instruction) (labels : List Int) (hlabels : NumberLabels code labels) :
    ∃ bs, Block.itemize code = .ok bs ∧
      (∀ (f : Function) (is : List Index) (g : Graph), SameCode g.blocks bs → ∃ g',
        Moment.Finishes f ⟨g, [.start is]⟩ g' (1 + jumpCount code) ∧
        ∀ depth, jumpCount code < depth → explore f depth is g = g') ∧
      ∀ (fs : List Function) (f : Function),
        Moment.Finishes f ⟨ofFunctions bs fs, [.start (f.blocks.drop 1)]⟩ (ofFunctions bs (fs ++ [f]))
          (1 + jumpCount code) := by
  obtain ⟨bs, -, hbs, -, -⟩ := Block.itemize_ascending hlabels
  refine ⟨bs, hbs, fun f is g hg => ?_, fun fs f => ?_⟩
  · have hopen := Block.openLinks_le_jumps hbs hg
    have hfinishes := finishes_explore hopen (Nat.lt_succ_self _) f is
    refine ⟨_, hfinishes, fun depth hdepth => ?_⟩
    exact (leads_explore (Nat.lt_of_le_of_lt hopen hdepth)).end_unique hfinishes.ends
  · have hcode := (allKeep_foldl_addFunction fs { blocks := bs }).sameCode
    have hadd : ofFunctions bs (fs ++ [f]) = (ofFunctions bs fs).addFunction f := by
      rw [ofFunctions, List.foldl_append]
      rfl
    rw [hadd]
    exact finishes_explore (Block.openLinks_le_jumps hbs hcode) (Block.openLinks_lt_depthBound _) f _

/-- Two functions that jump into each other, with a block that jumps to itself and a target that is missing. Three
calls are open at one moment of the first search. -/
theorem search_finishes_tangled :
    NumberLabels tangled [1, 2, 3, 5, 6] ∧ jumpCount tangled = 6 ∧
      ∃ bs f h, Block.itemize tangled = .ok bs ∧ Function.findAll bs = .ok [f, h] ∧
        ((step f)^[4] ⟨ofFunctions bs [], [.start (f.blocks.drop 1)]⟩).calls.length = 3 ∧
        Moment.Finishes f ⟨ofFunctions bs [], [.start (f.blocks.drop 1)]⟩ (ofFunctions bs [f]) 7 ∧
        Moment.Finishes h ⟨ofFunctions bs [f], [.start (h.blocks.drop 1)]⟩ (ofFunctions bs [f, h]) 7 := by
  have hlabels : NumberLabels tangled [1, 2, 3, 5, 6] := rfl
  have hjumps : jumpCount tangled = 6 := by cbv
  obtain ⟨bs, hbs, -, hfinishes⟩ := search_finishes tangled _ hlabels
  obtain ⟨bs', f, h, hbs', hfs, hdeep⟩ : ∃ bs f h, Block.itemize tangled = .ok bs ∧
      Function.findAll bs = .ok [f, h] ∧
      ((step f)^[4] ⟨ofFunctions bs [], [.start (f.blocks.drop 1)]⟩).calls.length = 3 :=
    ⟨_, _, _, by cbv, by cbv, by cbv⟩
  rw [hbs, Except.ok.injEq] at hbs'
  subst hbs'
  rw [hjumps] at hfinishes
  exact ⟨hlabels, hjumps, bs, f, h, hbs, hfs, hdeep, hfinishes [] f, hfinishes [f] h⟩

end Graph

end BeamDisasm

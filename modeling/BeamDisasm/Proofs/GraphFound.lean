import BeamDisasm.Proofs.Graph

/-!
# The graph of blocks with missing targets

Targets may be missing. The scan of a block then ends at the first one that is, and the block counts as unfinished for
the chain of its function. What the search finds is still fixed by the code: the blocks that it comes to have the
jumps of their scans as links, and no other block has any.
-/
namespace BeamDisasm.Graph

open Block (Defines Done Numbered SameCode Sound followed ins jumpsAt links nextAt outs)

variable {bs bs' cs : List Block} {labels : List Int} {fs : List Function} {n k : Int}

/-- The numbers that the search comes to: those behind the headers of the functions, and the targets that the scans of
their blocks take up. -/
inductive Found (bs : List Block) (fs : List Function) : Int → Prop
  | own {f : Function} {n : Int} : f ∈ fs → n ∈ f.inner → Found bs fs n
  | jump {n : Int} {j : Nat × Int} : Found bs fs n → j ∈ followed bs (jumpsAt bs n) → Found bs fs j.2

/-- The blocks `cs` have the links that a search in the blocks `bs` with the functions `fs` makes. -/
structure Spans (bs : List Block) (fs : List Function) (cs : List Block) : Prop where
  sameCode : SameCode cs bs
  outs_eq : ∀ n, Found bs fs n → outs cs n = links bs n
  outs_eq_nil : ∀ n, ¬ Found bs fs n → outs cs n = []
  ins_nodup : ∀ n, (ins cs n).Nodup
  mem_ins_iff : ∀ n, Defines bs n → ∀ i, i ∈ ins cs n ↔ ∃ k position, i = .number k ∧ (position, n) ∈ outs cs k
  nextAt_eq : nextAt cs = assign (fun _ => none) (fs.flatMap fun f => chains bs none f.inner)

/-- Every block that the search comes to is done. -/
theorem done_of_found (hs : Sound bs (Found bs fs) (fun _ => False) cs)
    (hdone : ∀ n ∈ fs.flatMap Function.inner, Done bs cs n) (hn : Found bs fs n) : Done bs cs n := by
  induction hn with
  | @own f n hf hn => exact hdone n (List.mem_flatMap.mpr ⟨f, hf, hn⟩)
  | @jump n j _ hj ih =>
      have hlink : j ∈ outs cs n := by
        rw [ih.outs_eq, links, List.mem_eraseDups]
        exact hj
      exact (hs.done_of_mem n j hlink).resolve_right id

theorem found_closed (n : Int) (hn : Found bs fs n) (j : Nat × Int) (hj : j ∈ links bs n) : Found bs fs j.2 :=
  .jump hn (List.mem_eraseDups.mp hj)

/-- The search works through the blocks of all functions. -/
theorem ofFunctions_walked (hbs : Numbered bs labels) (hfresh : ∀ b ∈ bs, b.Fresh)
    (hinner : ∀ f ∈ fs, f.inner.map Index.number = f.blocks.drop 1) :
    Walked bs (Found bs fs) (fun _ => False) (fs.flatMap Function.inner)
      (fs.flatMap fun f => chains bs none f.inner) { blocks := bs } (ofFunctions bs fs) :=
  foldl_addFunction_walked (Sound.of_fresh hfresh) fun f hf _ hs =>
    addFunction_walked hbs found_closed hs (hinner f hf) fun _ hn => .own hf hn

/-- A search that works through the blocks of the functions makes the links of the blocks that it comes to. -/
theorem spans_of_walked {g : Graph} (hfresh : ∀ b ∈ bs, b.Fresh)
    (hwalk : Walked bs (Found bs fs) (fun _ => False) (fs.flatMap Function.inner)
      (fs.flatMap fun f => chains bs none f.inner) { blocks := bs } g) : Spans bs fs g.blocks := by
  have hdone : ∀ n, Found bs fs n → Done bs g.blocks n := fun n hn => done_of_found hwalk.sound hwalk.done hn
  have hnone : nextAt bs = fun _ => none := funext fun k => (Block.empty_of_fresh hfresh k).2.2
  refine ⟨hwalk.sound.sameCode, fun n hn => (hdone n hn).outs_eq, ?_, hwalk.sound.ins_nodup, ?_, ?_⟩
  · intro n hn
    exact not_not.mp fun hne => hn (hwalk.sound.reached_of_outs n hne)
  · intro n hdef i
    constructor
    · exact hwalk.sound.mem_outs n i
    · rintro ⟨k, position, rfl, hlink⟩
      have hk := hdone k (hwalk.sound.reached_of_outs k (List.ne_nil_of_mem hlink))
      rw [hk.outs_eq] at hlink
      exact hk.mem_ins _ hlink hdef
  · rw [hwalk.nextAt_eq, hnone]

/-- The search makes the links of the blocks that it comes to, in whatever order it takes the functions. -/
theorem spans_of_inner (hbs : Numbered bs labels) (hfresh : ∀ b ∈ bs, b.Fresh)
    (hinner : ∀ f ∈ fs, f.inner.map Index.number = f.blocks.drop 1) : Spans bs fs (ofFunctions bs fs).blocks :=
  spans_of_walked hfresh (ofFunctions_walked hbs hfresh hinner)

/-- The functions that are found lead the search to the blocks behind their headers. -/
theorem ofFunctions_spans (hbs : Numbered bs labels) (hfresh : ∀ b ∈ bs, b.Fresh)
    (hfs : Function.findAll bs = .ok fs) : Spans bs fs (ofFunctions bs fs).blocks :=
  spans_of_inner hbs hfresh (Function.map_inner_of_findAll hbs hfs)

/-! ## Chains -/

/-- The scan of the block finds all targets. -/
def Complete (bs : List Block) (n : Int) : Prop :=
  ∀ i ∈ jumpsAt bs n, Defines bs i.2

/-- Which blocks are finished counts up to the last but one. -/
theorem chains_congr {ns : List Int} (hdefines : ∀ n ∈ ns, Defines bs n ↔ Defines bs' n)
    (hcomplete : ∀ n ∈ ns.dropLast, Complete bs n ↔ Complete bs' n) (before : Option Int) :
    chains bs before ns = chains bs' before ns := by
  induction ns generalizing before with
  | nil => rfl
  | cons n ns ih =>
      have hrest : ∀ before, chains bs before ns = chains bs' before ns := by
        refine ih (fun m hm => hdefines m (by simp [hm])) fun m hm => hcomplete m ?_
        rw [List.dropLast_cons_of_ne_nil (by rintro rfl; simp at hm)]
        exact List.mem_cons_of_mem n hm
      rw [chains, chains, if_congr (hdefines n (by simp)) rfl rfl, hrest]
      cases ns with
      | nil => simp [chains]
      | cons m ns =>
          have hn : Complete bs n ↔ Complete bs' n := hcomplete n (by simp)
          unfold Complete at hn
          rw [if_congr hn rfl rfl, hrest]

/-- A block that is chained has been finished. -/
theorem complete_of_mem_chains {ns : List Int} {before : Option Int} (hbefore : ∀ m ∈ before, Complete bs m)
    (h : (k, n) ∈ chains bs before ns) : Complete bs k := by
  induction ns generalizing before with
  | nil => simp [chains] at h
  | cons m ns ih =>
      rw [chains] at h
      split at h
      · rcases List.mem_append.mp h with h | h
        · obtain ⟨m', hm', heq⟩ := List.mem_map.mp h
          have hk : m' = k := congrArg Prod.fst heq
          exact hk ▸ hbefore m' (by simpa using hm')
        · refine ih ?_ h
          split
          · next hm => exact fun m' hm' => Option.mem_some.mp hm' ▸ hm
          · exact hbefore
      · exact ih hbefore h

/-- A finished block is chained to the block behind it. -/
theorem exists_mem_chains {ns : List Int} (hns : ∀ n ∈ ns, Defines bs n) (hk : Complete bs k) {i : Nat}
    (hi : ns[i]? = some k) (hlast : i + 1 < ns.length) (before : Option Int) :
    ∃ n, (k, n) ∈ chains bs before ns := by
  induction ns generalizing i before with
  | nil => simp at hlast
  | cons m ns ih =>
      rw [chains, if_pos (hns m (by simp))]
      have hns' : ∀ n ∈ ns, Defines bs n := fun n hn => hns n (by simp [hn])
      cases i with
      | zero =>
          have hm : m = k := by simpa using hi
          subst hm
          cases ns with
          | nil => simp at hlast
          | cons n ns =>
              refine ⟨n, List.mem_append_right _ ?_⟩
              rw [if_pos (show ∀ i ∈ jumpsAt bs m, Defines bs i.2 from hk), chains, if_pos (hns' n (by simp))]
              simp
      | succ i =>
          obtain ⟨n, hn⟩ := ih hns' (by simpa using hi) (by simpa using hlast) _
          exact ⟨n, List.mem_append_right _ hn⟩

theorem isSome_assign {ps : List (Int × Int)} (next : Int → Option Successor)
    (h : (next k).isSome ∨ ∃ n, (k, n) ∈ ps) : (assign next ps k).isSome := by
  induction ps generalizing next with
  | nil => simpa [assign] using h
  | cons p ps ih =>
      refine ih (fun m => if m = p.1 then some (.label (.number p.2)) else next m) ?_
      by_cases hp : k = p.1
      · simp [hp]
      · rcases h with h | ⟨n, h⟩
        · simp [hp, h]
        · rcases List.mem_cons.mp h with heq | h
          · exact absurd (congrArg Prod.fst heq) hp
          · exact .inr ⟨n, h⟩

end BeamDisasm.Graph

import BeamDisasm.Proofs.LinkInvariant

/-!
# Following the links

A scan of a block adds its links one by one, and each new one is followed before the scan goes on. The search that a
new link starts may come back to a block whose scan is open and finish it; the scan then finds its links there. So
all that a search has to promise is that links are added, that the invariant holds and that its block is done.
-/
namespace BeamDisasm.Graph

open Block (Defines Done Extends Grows Linked Numbered Room SameCode Sound followed ins jumpsAt links nextAt outs)

variable {bs : List Block} {labels : List Int} {reached pending : Int → Prop} {depth : Nat} {n : Int}
  {j : Nat × Int} {seen rest : List (Nat × Int)} {g g' g'' : Graph} {follow : Int → Graph → Graph}

/-! ## One link -/

/-- Links were added, the invariant holds, and the depth was enough. -/
structure Progress (bs : List Block) (reached pending : Int → Prop) (g g' : Graph) : Prop where
  extend : Extends g.blocks g'.blocks
  sound : Sound bs reached pending g'.blocks
  exhausted_eq : g'.exhausted = g.exhausted

theorem Progress.trans (h : Progress bs reached pending g g') (h' : Progress bs reached pending g' g'') :
    Progress bs reached pending g g'' :=
  ⟨h.extend.trans h'.extend, h'.sound, h'.exhausted_eq.trans h.exhausted_eq⟩

/-- The graph counts a warning at most. -/
theorem Progress.of_blocks_eq (hs : Sound bs reached pending g.blocks) (hblocks : g'.blocks = g.blocks)
    (hexhausted : g'.exhausted = g.exhausted) : Progress bs reached pending g g' := by
  refine ⟨?_, ?_, hexhausted⟩
  · rw [hblocks]
    exact Extends.refl _
  · rwa [hblocks]

@[simp] theorem blocks_warnUnless (g : Graph) (owned : Bool) : (g.warnUnless owned).blocks = g.blocks := by
  rw [warnUnless]
  split <;> rfl

@[simp] theorem exhausted_warnUnless (g : Graph) (owned : Bool) :
    (g.warnUnless owned).exhausted = g.exhausted := by
  rw [warnUnless]
  split <;> rfl

theorem hasLink_iff (g : Graph) (n : Int) (position : Nat) (target : Int) :
    g.hasLink (.number n) position target = true ↔ (position, target) ∈ outs g.blocks n := by
  rw [hasLink, find?]
  cases hb : Block.find? g.blocks (.number n) with
  | none => simp [outs, Block.field, hb]
  | some b =>
      rw [Block.outs_of_find? hb]
      exact List.contains_iff_mem

/-- A search from one number makes progress and gets its block done, if there is room for it. -/
def Follows (bs : List Block) (labels : List Int) (reached : Int → Prop) (depth : Nat)
    (follow : Int → Graph → Graph) : Prop :=
  ∀ (pending : Int → Prop) (g : Graph) (target : Int), Sound bs reached pending g.blocks → reached target →
    Room bs labels depth g.blocks →
    Progress bs reached pending g (follow target g) ∧ Done bs (follow target g).blocks target

/-- The next jump of a pending block is a link afterwards, whether it was one before or not. -/
theorem link_progress (hbs : Numbered bs labels) (hclosed : ∀ n, reached n → ∀ j ∈ links bs n, reached j.2)
    (hfollow : Follows bs labels reached depth follow) (f : Function)
    (hs : Sound bs reached pending g.blocks) (hn : reached n) (hp : pending n) (hdef : Defines bs n)
    (hscan : followed bs (jumpsAt bs n) = seen ++ j :: rest) (hseen : seen ⊆ outs g.blocks n)
    (hroom : Room bs labels (depth + 1) g.blocks) :
    Progress bs reached pending g (link follow f (.number n) j g) ∧
      j ∈ outs (link follow f (.number n) j g).blocks n := by
  have hwarn := Progress.of_blocks_eq hs (blocks_warnUnless g (f.hasBlock (.number j.2)))
    (exhausted_warnUnless g _)
  have hblocks := blocks_warnUnless g (f.hasBlock (.number j.2))
  unfold link
  generalize g.warnUnless (f.hasBlock (.number j.2)) = g₁ at hwarn hblocks
  rw [← hblocks] at hs hseen hroom
  by_cases hold : j ∈ outs g₁.blocks n
  · rw [if_pos ((hasLink_iff g₁ n j.1 j.2).mpr hold)]
    exact ⟨hwarn, hold⟩
  · rw [if_neg (mt (hasLink_iff g₁ n j.1 j.2).mp hold)]
    have hcs : Defines g₁.blocks n := hs.defines_iff.mpr hdef
    have hmem : j ∈ links bs n := by
      rw [links, hscan, List.mem_eraseDups]
      simp
    have hext := Block.extends_addOutLink hcs hold
    -- From here until its search is over the target is pending too.
    have hsound := hs.addOutLink hn hp hdef hscan hseen hold
    have hroom' := hroom.addOutLink hcs (hbs.find?_isSome_iff.mp hdef) hold
    obtain ⟨hprog, hdone⟩ := hfollow _ (g₁.update (.number n) fun b => b.addOutLink j.1 j.2) j.2 hsound
      (hclosed n hn j hmem) hroom'
    have hlinked : j ∈ outs (g₁.update (.number n) fun b => b.addOutLink j.1 j.2).blocks n := by
      change j ∈ outs (Block.update _ _ _) n
      rw [Block.outs_addOutLink hcs hold, if_pos rfl]
      simp
    refine ⟨hwarn.trans ⟨hext.trans hprog.extend, hprog.sound.close hdone, hprog.exhausted_eq⟩, ?_⟩
    exact (hprog.extend.outs_le n).subset hlinked

/-! ## The scan of a block -/

/-- A link out whose target is there gets its other end. -/
theorem update_addInLink_progress (hs : Sound bs reached pending g.blocks) (hj : j ∈ outs g.blocks n)
    (hdef : Defines bs j.2) :
    Progress bs reached pending g (g.update (.number j.2) (·.addInLink (.number n))) ∧
      .number n ∈ ins (g.update (.number j.2) (·.addInLink (.number n))).blocks j.2 := by
  have hfound : Defines g.blocks j.2 := hs.defines_iff.mpr hdef
  refine ⟨⟨Block.extends_addInLink hfound, hs.addInLink hj hdef, rfl⟩, ?_⟩
  change _ ∈ ins (Block.update _ _ _) j.2
  rw [Block.ins_addInLink hfound]
  split
  · simp
  · next h => exact not_not.mp fun hno => h ⟨rfl, hno⟩

/-- The rest of the scan of a pending block gets the block done; the flag tells whether all targets are there. -/
theorem linkAll_spec (hbs : Numbered bs labels) (hclosed : ∀ n, reached n → ∀ j ∈ links bs n, reached j.2)
    (hfollow : Follows bs labels reached depth follow) (f : Function) (pending : Int → Prop)
    (hn : reached n) (hp : pending n) (hdef : Defines bs n) (js : List (Nat × Int)) :
    ∀ (seen : List (Nat × Int)) (g : Graph), jumpsAt bs n = seen ++ js →
      Sound bs reached pending g.blocks → Room bs labels (depth + 1) g.blocks → Linked bs g.blocks n seen →
      Progress bs reached pending g (linkAll follow f (.number n) js g).1 ∧
        Done bs (linkAll follow f (.number n) js g).1.blocks n ∧
        ((linkAll follow f (.number n) js g).2 = true ↔ ∀ i ∈ js, Defines bs i.2) := by
  induction js with
  | nil =>
      intro seen g hjumps hs _ hseen
      refine ⟨Progress.of_blocks_eq hs rfl rfl, ?_, by simp [linkAll]⟩
      exact hseen.done (hjumps.trans (List.append_nil seen)) (hs.outs_le n)
  | cons j js ih =>
      intro seen g hjumps hs hroom hseen
      obtain ⟨tail, htail⟩ : ∃ tail, followed bs (j :: js) = j :: tail := by
        rw [followed]
        split <;> exact ⟨_, rfl⟩
      have hscan : followed bs (jumpsAt bs n) = seen ++ j :: tail := by
        rw [hseen.followed_eq hjumps, htail]
      obtain ⟨hprog, hlinked⟩ := link_progress hbs hclosed hfollow f hs hn hp hdef hscan
        (fun i hi => (hseen i hi).2.1) hroom
      rw [linkAll]
      generalize link follow f (.number n) j g = g₁ at hprog hlinked
      have hkept := hseen.mono hprog.extend.toGrows
      cases htarget : g₁.find? (.number j.2) with
      | none =>
          have hmissing : ¬ Defines bs j.2 := by
            rw [← hprog.sound.defines_iff]
            simpa [Defines, find?] using htarget
          refine ⟨hprog, ?_, by simp [hmissing]⟩
          exact hkept.done_of_missing hjumps hmissing hlinked (hprog.sound.outs_le n)
      | some b =>
          have htargetDef : Defines bs j.2 := by
            rw [← hprog.sound.defines_iff]
            exact Option.isSome_iff_exists.mpr ⟨b, htarget⟩
          obtain ⟨hback, hin⟩ := update_addInLink_progress hprog.sound hlinked htargetDef
          have hstep := hprog.trans hback
          have hseen' := (hkept.mono hback.extend.toGrows).concat htargetDef
            ((hback.extend.outs_le n).subset hlinked) hin
          obtain ⟨hrest, hdone, hcomplete⟩ := ih (seen ++ [j]) _ (by simp [hjumps]) hback.sound
            (hroom.mono hstep.extend.toGrows) hseen'
          refine ⟨hstep.trans hrest, hdone, ?_⟩
          rw [hcomplete]
          simp [htargetDef]

/-! ## Blocks one after the other -/

/-- The pairs of blocks that are chained, in this order. A block is chained to the last one before it whose scan
found all targets. -/
def chains (bs : List Block) : Option Int → List Int → List (Int × Int)
  | _, [] => []
  | before, n :: ns =>
    if Defines bs n then
      (before.toList.map fun k => (k, n)) ++
        chains bs (if ∀ i ∈ jumpsAt bs n, Defines bs i.2 then some n else before) ns
    else chains bs before ns

/-- What is behind the blocks after pairs of them have been chained; later pairs win. -/
def assign (next : Int → Option Successor) (pairs : List (Int × Int)) : Int → Option Successor :=
  pairs.foldl (fun next p k => if k = p.1 then some (.label (.number p.2)) else next k) next

theorem assign_append (next : Int → Option Successor) (ps qs : List (Int × Int)) :
    assign next (ps ++ qs) = assign (assign next ps) qs :=
  List.foldl_append ..

/-- Blocks were worked through: links were added, the invariant holds, the blocks `ns` are done, `pairs` of blocks
were chained, and the depth was enough. -/
structure Walked (bs : List Block) (reached pending : Int → Prop) (ns : List Int) (pairs : List (Int × Int))
    (g g' : Graph) : Prop where
  grows : Grows g.blocks g'.blocks
  sound : Sound bs reached pending g'.blocks
  done : ∀ n ∈ ns, Done bs g'.blocks n
  nextAt_eq : nextAt g'.blocks = assign (nextAt g.blocks) pairs
  exhausted_eq : g'.exhausted = g.exhausted

theorem Walked.refl (hs : Sound bs reached pending g.blocks) : Walked bs reached pending [] [] g g :=
  ⟨Grows.refl _, hs, by simp, rfl, rfl⟩

theorem Walked.trans {ns ns' : List Int} {ps ps' : List (Int × Int)}
    (h : Walked bs reached pending ns ps g g') (h' : Walked bs reached pending ns' ps' g' g'') :
    Walked bs reached pending (ns ++ ns') (ps ++ ps') g g'' where
  grows := h.grows.trans h'.grows
  sound := h'.sound
  done n hn := by
    rcases List.mem_append.mp hn with hn | hn
    · exact (h.done n hn).mono h'.grows (h'.sound.outs_le n)
    · exact h'.done n hn
  nextAt_eq := by rw [assign_append, ← h.nextAt_eq, h'.nextAt_eq]
  exhausted_eq := h'.exhausted_eq.trans h.exhausted_eq

/-- Chaining a block to the one before it changes nothing else. -/
theorem chain_walked (hs : Sound bs reached pending g.blocks) (before : Option Int)
    (hbefore : ∀ k ∈ before, Defines bs k) (n : Int) :
    Walked bs reached pending [] (before.toList.map fun k => (k, n)) g
      (chain (before.map .number) (.number n) g) := by
  cases before with
  | none => exact Walked.refl hs
  | some k =>
      have hk : Defines g.blocks k := hs.defines_iff.mpr (hbefore k rfl)
      refine ⟨Block.grows_setNext, hs.setNext, by simp, ?_, rfl⟩
      funext m
      exact Block.nextAt_setNext hk

/-- A block is chained to the one before it and scanned; the scan tells whether all targets are there. -/
theorem visit_walked (hbs : Numbered bs labels) (hclosed : ∀ n, reached n → ∀ j ∈ links bs n, reached j.2)
    (hfollow : Follows bs labels reached depth follow) (f : Function)
    (hs : Sound bs reached pending g.blocks) (hroom : Room bs labels (depth + 1) g.blocks)
    (before : Option Int) (hbefore : ∀ k ∈ before, Defines bs k) (hn : reached n) (hdef : Defines bs n) :
    let visit := linkAll follow f (.number n) (jumpsAt bs n) (chain (before.map .number) (.number n) g)
    Walked bs reached pending [n] (before.toList.map fun k => (k, n)) g visit.1 ∧
      (visit.2 = true ↔ ∀ i ∈ jumpsAt bs n, Defines bs i.2) := by
  intro visit
  have hchain := chain_walked hs before hbefore n
  -- The block is pending while it is scanned.
  obtain ⟨hprog, hdone, hcomplete⟩ := linkAll_spec hbs hclosed hfollow f
    (fun k => pending k ∨ k = n) hn (.inr rfl) hdef (jumpsAt bs n) [] _ (by simp)
    (hchain.sound.weaken fun _ => .inl) (hroom.mono hchain.grows) (by simp [Linked])
  have hscan : Walked bs reached pending [n] [] (chain (before.map .number) (.number n) g) visit.1 :=
    ⟨hprog.extend.toGrows, hprog.sound.close hdone, by simpa using hdone, funext hprog.extend.nextAt_eq,
      hprog.exhausted_eq⟩
  refine ⟨?_, hcomplete⟩
  simpa using hchain.trans hscan

theorem walk_walked (hbs : Numbered bs labels) (hclosed : ∀ n, reached n → ∀ j ∈ links bs n, reached j.2)
    (hfollow : Follows bs labels reached depth follow) (f : Function) (ns : List Int) :
    ∀ (g : Graph) (before : Option Int), Sound bs reached pending g.blocks →
      Room bs labels (depth + 1) g.blocks → (∀ k ∈ before, Defines bs k) → (∀ n ∈ ns, reached n) →
      Walked bs reached pending ns (chains bs before ns) g
        (walk follow f (before.map .number) (ns.map .number) g) := by
  induction ns with
  | nil =>
      intro g before hs _ _ _
      exact Walked.refl hs
  | cons n ns ih =>
      intro g before hs hroom hbefore hreached
      have hrest : ∀ k ∈ ns, reached k := fun k hk => hreached k (by simp [hk])
      rw [List.map_cons, walk, chains]
      cases hb : g.find? (.number n) with
      | none =>
          have hmissing : ¬ Defines bs n := by
            rw [← hs.defines_iff]
            simpa [Defines, find?] using hb
          have hdone : Walked bs reached pending [n] [] g g :=
            ⟨Grows.refl _, hs, by simpa using Block.done_of_not_defines hs.sameCode hmissing, rfl, rfl⟩
          rw [if_neg hmissing]
          exact hdone.trans (ih g before hs hroom hbefore hrest)
      | some b =>
          have hdef : Defines bs n := by
            rw [← hs.defines_iff]
            exact Option.isSome_iff_exists.mpr ⟨b, hb⟩
          have hvisit := visit_walked hbs hclosed hfollow f hs hroom before hbefore (hreached n (by simp)) hdef
          rw [hs.sameCode.jumpsAt_eq hb] at hvisit
          obtain ⟨hwalked, hcomplete⟩ := hvisit
          -- The scan decides which block the next one is chained to.
          have hlast : (if (linkAll follow f (.number n) b.jumps
              (chain (before.map .number) (.number n) g)).2 then some (Index.number n)
              else before.map .number) =
              (if ∀ i ∈ b.jumps, Defines bs i.2 then some n else before).map .number := by
            rw [if_congr hcomplete rfl rfl]
            split <;> rfl
          have hbefore' : ∀ k ∈ (if ∀ i ∈ b.jumps, Defines bs i.2 then some n else before),
              Defines bs k := by
            split
            · intro k hk
              exact Option.mem_some.mp hk ▸ hdef
            · exact hbefore
          have hwalk := ih _ _ hwalked.sound (hroom.mono hwalked.grows) hbefore' hrest
          rw [← hlast] at hwalk
          rw [if_pos hdef, hs.sameCode.jumpsAt_eq hb]
          exact hwalked.trans hwalk

/-! ## The search -/

/-- The search keeps its promise at every depth: where there is room for no link, it is never asked for one. -/
theorem follows_explore (hbs : Numbered bs labels)
    (hclosed : ∀ n, reached n → ∀ j ∈ links bs n, reached j.2) (f : Function) (depth : Nat) :
    Follows bs labels reached depth fun target => explore f depth [.number target] := by
  induction depth with
  | zero =>
      intro pending g target hs _ hroom
      exact absurd rfl (hs.room_ne_zero hroom)
  | succ depth ih =>
      intro pending g target hs hreached hroom
      have hwalk := walk_walked hbs hclosed ih f [target] g none hs hroom (by simp) (by simpa using hreached)
      have hchains : chains bs none [target] = [] := by simp [chains]
      refine ⟨⟨⟨hwalk.grows, fun n => ?_⟩, hwalk.sound, hwalk.exhausted_eq⟩, hwalk.done target (by simp)⟩
      have hnext := congrFun hwalk.nextAt_eq n
      rwa [hchains] at hnext

end BeamDisasm.Graph

import BeamDisasm.Analysis.Annotation
import BeamDisasm.Proofs.Built

/-!
# The function that a call belongs to

The marks of a module are listed block by block, and a call belongs to the function that started last. The blocks of
a function stand one after the other, and no other function starts among them. So in every block behind the header of
a function the calls belong to this function.

A function starts behind its header. So a call in the header belongs to the function before, and in the header of the
first function to the last function of the module.
-/
namespace BeamDisasm.Analysis

/-- Blocks with the function that the calls in them belong to. -/
def attributed (es : Entries) : Option Function → List Block → List (Option Function × Block)
  | _, [] => []
  | current, b :: bs =>
    let current := es.startingAt b.label <|> current
    (current, b) :: attributed es current bs

/-- The function that has started last behind blocks. -/
def lastStarted (es : Entries) (current : Option Function) (bs : List Block) : Option Function :=
  bs.foldl (fun owner b => es.startingAt b.label <|> owner) current

variable {a : Analysis} {es : Entries} {f g : Function} {b : Block} {current owner : Option Function} {bs : List Block}

theorem lastStarted_append_singleton (es : Entries) (current : Option Function) (bs : List Block) (b : Block) :
    lastStarted es current (bs ++ [b]) = (es.startingAt b.label <|> lastStarted es current bs) := by
  simp [lastStarted]

theorem mem_attributed_iff : (owner, b) ∈ attributed es current bs ↔
    ∃ pre post, bs = pre ++ b :: post ∧ lastStarted es current (pre ++ [b]) = owner := by
  induction bs generalizing current with
  | nil => simp [attributed]
  | cons c bs ih =>
      rw [attributed, List.mem_cons, ih]
      constructor
      · rintro (heq | ⟨pre, post, rfl, howner⟩)
        · obtain ⟨rfl, rfl⟩ := Prod.mk.inj heq
          exact ⟨[], bs, rfl, rfl⟩
        · exact ⟨c :: pre, post, rfl, howner⟩
      · rintro ⟨pre, post, hsplit, rfl⟩
        cases pre with
        | nil =>
            obtain ⟨rfl, rfl⟩ := List.cons.inj hsplit
            exact .inl rfl
        | cons d pre =>
            obtain ⟨rfl, rfl⟩ := List.cons.inj hsplit
            exact .inr ⟨pre, post, rfl, rfl⟩

theorem mem_of_attributed (h : (owner, b) ∈ attributed es current bs) : b ∈ bs := by
  obtain ⟨pre, post, rfl, -⟩ := mem_attributed_iff.mp h
  simp

/-! ## Where functions start -/

theorem entry_spec {i : Index} (h : f.entry = .ok i) : f.blocks[1]? = some i := by
  unfold Function.entry at h
  split at h
  · next j hj => rw [hj, Except.ok.inj h]
  · simp at h

/-- The entries are the functions, each with the label of its first block behind the header. -/
theorem entries_spec (h : a.entries = .ok es) :
    (∀ e ∈ es, e.2 ∈ a.functions ∧ e.2.blocks[1]? = some e.1) ∧
      ∀ f ∈ a.functions, ∃ i, f.blocks[1]? = some i ∧ (i, f) ∈ es := by
  have hstep : ∀ (f : Function) (e : Index × Function),
      (do return (← f.entry, f) : Except Fault (Index × Function)) = .ok e → e.2 = f ∧ f.blocks[1]? = some e.1 := by
    intro f e he
    obtain ⟨i, hentry, he⟩ := exists_of_bind he
    rw [← Except.ok.inj he]
    exact ⟨rfl, entry_spec hentry⟩
  have hall := forall₂_of_mapM h
  constructor
  · intro e he
    obtain ⟨f, hf, hfe⟩ := exists_left_of_forall₂ hall he
    obtain ⟨heq, hentry⟩ := hstep f e hfe
    exact ⟨heq ▸ hf, heq ▸ hentry⟩
  · intro f hf
    obtain ⟨e, he, hfe⟩ := exists_right_of_forall₂ hall hf
    obtain ⟨heq, hentry⟩ := hstep f e hfe
    exact ⟨e.1, hentry, heq ▸ he⟩

section Built

variable (hbuilt : a.Built) (hes : a.entries = .ok es)

include hbuilt hes

theorem startingAt_spec (hb : b ∈ a.blocks) (h : es.startingAt b.label = some f) :
    f ∈ a.functions ∧ f.blocks[1]? = some b.label := by
  obtain ⟨e, he, rfl⟩ := Option.map_eq_some_iff.mp h
  obtain ⟨hf, hentry⟩ := (entries_spec hes).1 e (List.mem_of_find?_eq_some he)
  have hsame : e.1.same b.label = true := List.find?_some (p := fun e : Index × Function => e.1.same b.label) he
  have heq := (hbuilt.plain_of_entry hf hentry b hb e.1).mp hsame
  exact ⟨hf, heq ▸ hentry⟩

theorem startingAt_of_entry (hf : f ∈ a.functions) (hb : b ∈ a.blocks) (hentry : f.blocks[1]? = some b.label) :
    es.startingAt b.label = some f := by
  cases hstart : es.startingAt b.label with
  | none =>
      obtain ⟨i, hi, hmem⟩ := (entries_spec hes).2 f hf
      rw [hentry, Option.some.injEq] at hi
      have hnone := Option.map_eq_none_iff.mp hstart
      rw [List.find?_eq_none] at hnone
      exact absurd ((hbuilt.plain_of_entry hf hentry b hb i).mpr hi.symm) (hnone _ hmem)
  | some g =>
      obtain ⟨hg, hentry'⟩ := startingAt_spec hbuilt hes hb hstart
      rw [hbuilt.eq_of_mem hg hf (List.mem_of_getElem? hentry') (List.mem_of_getElem? hentry)]

/-- No function starts at a block that has two blocks of a function before it. -/
theorem startingAt_eq_none (hf : f ∈ a.functions) (hb : b ∈ a.blocks) {i : Nat}
    (hi : f.blocks[i + 2]? = some b.label) : es.startingAt b.label = none := by
  cases hstart : es.startingAt b.label with
  | none => rfl
  | some g =>
      obtain ⟨hg, hentry⟩ := startingAt_spec hbuilt hes hb hstart
      have hsame := hbuilt.eq_of_mem hg hf (List.mem_of_getElem? hentry) (List.mem_of_getElem? hi)
      rw [hsame] at hentry
      have hplace := hbuilt.eq_of_getElem? hf hentry hi
      omega

omit hes in
/-- What stands before a label is the same in the blocks and in the functions. -/
theorem labels_before {pre post : List Block} (hblocks : a.blocks = pre ++ b :: post) (hf : f ∈ a.functions)
    {ls rs : List Index} (hlabels : a.functions.flatMap Function.blocks = ls ++ b.label :: rs) :
    pre.map Block.label = ls := by
  have hsplit : pre.map Block.label ++ b.label :: post.map Block.label = ls ++ b.label :: rs := by
    rw [← hlabels, hbuilt.flatMap_blocks hf, hblocks, List.map_append, List.map_cons]
  -- The label of the block occurs once, so both ways to split the labels there are the same.
  have hnodup := hbuilt.labels_nodup
  rw [hblocks, List.map_append, List.map_cons, List.nodup_middle, List.nodup_cons, List.mem_append,
    not_or] at hnodup
  exact ((List.append_cons_inj_of_notMem hnodup.1.1 hnodup.1.2).mp hsplit).1

omit hes in
/-- A block behind the first one of a function comes right behind the block before it in the function. -/
theorem exists_before {pre post : List Block} (hblocks : a.blocks = pre ++ b :: post) (hf : f ∈ a.functions) {i : Nat}
    (hi : f.blocks[i + 1]? = some b.label) :
    ∃ pre' c, pre = pre' ++ [c] ∧ f.blocks[i]? = some c.label := by
  obtain ⟨fs, gs, hfs⟩ := List.append_of_mem hf
  obtain ⟨hlt, hget⟩ := List.getElem?_eq_some_iff.mp hi
  have hsplit : f.blocks = f.blocks.take i ++ f.blocks[i] :: b.label :: f.blocks.drop (i + 2) := by
    rw [← hget, ← List.drop_eq_getElem_cons hlt, ← List.drop_eq_getElem_cons (by omega), List.take_append_drop]
  have hlabels : a.functions.flatMap Function.blocks =
      (fs.flatMap Function.blocks ++ f.blocks.take i ++ [f.blocks[i]]) ++
        b.label :: (f.blocks.drop (i + 2) ++ gs.flatMap Function.blocks) := by
    rw [hfs, List.flatMap_append, List.flatMap_cons]
    nth_rewrite 1 [hsplit]
    simp only [List.append_assoc, List.cons_append, List.nil_append]
  obtain ⟨pre', last, rfl, -, hlast⟩ := List.map_eq_append_iff.mp (labels_before hbuilt hblocks hf hlabels)
  obtain ⟨c, rfl, hc⟩ := List.map_eq_singleton_iff.mp hlast
  exact ⟨pre', c, rfl, by rw [hc, List.getElem?_eq_getElem]⟩

/-- Behind a block that a function has behind its header, this function has started last. -/
theorem lastStarted_of_behind {pre post : List Block} (hblocks : a.blocks = pre ++ b :: post) (hf : f ∈ a.functions)
    {i : Nat} (hi : f.blocks[i + 1]? = some b.label) : lastStarted es current (pre ++ [b]) = some f := by
  have hb : b ∈ a.blocks := by simp [hblocks]
  rw [lastStarted_append_singleton]
  induction i generalizing b pre post with
  | zero =>
      rw [startingAt_of_entry hbuilt hes hf hb hi]
      rfl
  | succ i ih =>
      obtain ⟨pre', c, rfl, hc⟩ := exists_before hbuilt hblocks hf hi
      have hsplit : a.blocks = pre' ++ c :: (b :: post) := by simp [hblocks]
      rw [startingAt_eq_none hbuilt hes hf hb hi, lastStarted_append_singleton, ih hsplit hc (by simp [hsplit])]
      rfl

/-- No function starts at a header. -/
theorem startingAt_header (hg : g ∈ a.functions) (hb : b ∈ a.blocks) (hheader : g.blocks[0]? = some b.label) :
    es.startingAt b.label = none := by
  cases hstart : es.startingAt b.label with
  | none => rfl
  | some f =>
      obtain ⟨hf, hentry⟩ := startingAt_spec hbuilt hes hb hstart
      obtain rfl := hbuilt.eq_of_mem hf hg (List.mem_of_getElem? hentry) (List.mem_of_getElem? hheader)
      have hplace := hbuilt.eq_of_getElem? hf hentry hheader
      omega

omit hbuilt in
/-- The last block of a function is behind its header. -/
theorem exists_last (hf : f ∈ a.functions) :
    ∃ front l i, f.blocks = front ++ [l] ∧ f.blocks[i + 1]? = some l := by
  obtain ⟨l, hl, -⟩ := (entries_spec hes).2 f hf
  have htwo := (List.getElem?_eq_some_iff.mp hl).1
  have hne : f.blocks ≠ [] := List.ne_nil_of_length_pos (by omega)
  refine ⟨f.blocks.dropLast, f.blocks.getLast hne, f.blocks.length - 2, (List.dropLast_concat_getLast hne).symm, ?_⟩
  have hlength : f.blocks.length - 2 + 1 = f.blocks.length - 1 := by omega
  rw [hlength, ← List.getLast?_eq_getElem?, List.getLast?_eq_some_getLast hne]

/-- Behind the header of a function, the function before has started last. -/
theorem lastStarted_of_header {pre post : List Block} (hblocks : a.blocks = pre ++ b :: post)
    {before after : List Function} (hfunctions : a.functions = before ++ g :: after)
    (hheader : g.blocks[0]? = some b.label) :
    lastStarted es current (pre ++ [b]) = (before.getLast? <|> current) := by
  have hb : b ∈ a.blocks := by simp [hblocks]
  have hg : g ∈ a.functions := by simp [hfunctions]
  obtain ⟨rest, hrest⟩ : ∃ rest, g.blocks = b.label :: rest := by
    cases hcons : g.blocks with
    | nil => simp [hcons] at hheader
    | cons l rest => exact ⟨rest, by simpa [hcons] using hheader⟩
  have hlabels : a.functions.flatMap Function.blocks =
      before.flatMap Function.blocks ++ b.label :: (rest ++ after.flatMap Function.blocks) := by
    simp [hfunctions, hrest]
  have hpre := labels_before hbuilt hblocks hg hlabels
  rw [lastStarted_append_singleton, startingAt_header hbuilt hes hg hb hheader]
  rcases List.eq_nil_or_concat before with rfl | ⟨before, f, rfl⟩
  · obtain rfl : pre = [] := by simpa using hpre
    rfl
  · -- The last block of the function before comes right before the header.
    have hf : f ∈ a.functions := by simp [hfunctions]
    obtain ⟨front, l, i, hl, hplace⟩ := exists_last hes hf
    rw [List.concat_eq_append, List.flatMap_append, List.flatMap_singleton, hl, ← List.append_assoc] at hpre
    obtain ⟨pre', last, rfl, -, hlast⟩ := List.map_eq_append_iff.mp hpre
    obtain ⟨c, rfl, rfl⟩ := List.map_eq_singleton_iff.mp hlast
    have hsplit : a.blocks = pre' ++ c :: (b :: post) := by simp [hblocks]
    rw [lastStarted_of_behind hbuilt hes hsplit hf hplace]
    simp

omit hbuilt in
theorem mem_of_lastStarted (hcurrent : ∀ g ∈ current, g ∈ a.functions) :
    ∀ g ∈ lastStarted es current bs, g ∈ a.functions := by
  induction bs generalizing current with
  | nil => exact hcurrent
  | cons c bs ih =>
      refine ih fun g hg => ?_
      replace hg : g ∈ (es.startingAt c.label <|> current) := hg
      cases hstart : es.startingAt c.label with
      | none =>
          rw [hstart] at hg
          exact hcurrent g hg
      | some f =>
          rw [hstart] at hg
          obtain ⟨e, he, rfl⟩ := Option.map_eq_some_iff.mp hstart
          rw [← Option.some.inj hg]
          exact ((entries_spec hes).1 e (List.mem_of_find?_eq_some he)).1

end Built

/-- One function comes before another. Before the first comes the last. -/
def Precedes (a : Analysis) (f g : Function) : Prop :=
  ∃ before after, a.functions = before ++ g :: after ∧ (before.getLast? <|> a.functions.getLast?) = some f

/-- Calls in the block with the label belong to the function: it has the block behind its header, or the block is the
header of the function that it precedes. -/
def Owns (a : Analysis) (f : Function) (label : Index) : Prop :=
  (f ∈ a.functions ∧ ∃ i, 1 ≤ i ∧ f.blocks[i]? = some label) ∨ ∃ g, a.Precedes f g ∧ g.blocks[0]? = some label

theorem Precedes.mem (h : a.Precedes f g) : f ∈ a.functions ∧ g ∈ a.functions := by
  obtain ⟨before, after, hfunctions, howner⟩ := h
  refine ⟨?_, by simp [hfunctions]⟩
  cases hlast : before.getLast? with
  | none =>
      rw [hlast] at howner
      exact List.mem_of_getLast? howner
  | some g =>
      rw [hlast] at howner
      rw [← Option.some.inj howner, hfunctions]
      exact List.mem_append_left _ (List.mem_of_getLast? hlast)

theorem Owns.mem {label : Index} (h : a.Owns f label) : f ∈ a.functions := by
  obtain ⟨hf, -⟩ | ⟨g, hprecedes, -⟩ := h
  · exact hf
  · exact hprecedes.mem.1

/-- The marks of a module are listed by the functions that own the blocks. -/
theorem attributed_iff_owns (hbuilt : a.Built) (hes : a.entries = .ok es) :
    (some f, b) ∈ attributed es a.functions.getLast? a.blocks ↔ b ∈ a.blocks ∧ a.Owns f b.label := by
  constructor
  · intro h
    have hb := mem_of_attributed h
    obtain ⟨pre, post, hblocks, howner⟩ := mem_attributed_iff.mp h
    have hf : f ∈ a.functions :=
      mem_of_lastStarted hes (fun g hg => List.mem_of_getLast? hg) f (Option.mem_def.mpr howner)
    have hlabel : b.label ∈ a.functions.flatMap Function.blocks :=
      hbuilt.flatMap_blocks hf ▸ List.mem_map_of_mem hb
    obtain ⟨g, hg, hmem⟩ := List.mem_flatMap.mp hlabel
    obtain ⟨i, hi⟩ := List.mem_iff_getElem?.mp hmem
    refine ⟨hb, ?_⟩
    cases i with
    | zero =>
        obtain ⟨before, after, hfunctions⟩ := List.append_of_mem hg
        rw [lastStarted_of_header hbuilt hes hblocks hfunctions hi] at howner
        exact .inr ⟨g, ⟨before, after, hfunctions, howner⟩, hi⟩
    | succ i =>
        rw [lastStarted_of_behind hbuilt hes hblocks hg hi] at howner
        exact .inl ⟨hf, i + 1, by omega, Option.some.inj howner ▸ hi⟩
  · rintro ⟨hb, howns⟩
    obtain ⟨pre, post, hblocks⟩ := List.append_of_mem hb
    refine mem_attributed_iff.mpr ⟨pre, post, hblocks, ?_⟩
    obtain ⟨hf, i, hi, hplace⟩ | ⟨g, ⟨before, after, hfunctions, howner⟩, hheader⟩ := howns
    · obtain ⟨i, rfl⟩ := Nat.exists_eq_add_of_le' hi
      exact lastStarted_of_behind hbuilt hes hblocks hf hplace
    · rw [lastStarted_of_header hbuilt hes hblocks hfunctions hheader, howner]

end BeamDisasm.Analysis

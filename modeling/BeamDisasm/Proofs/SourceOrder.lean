import BeamDisasm.Proofs.Discovery
import BeamDisasm.Proofs.SearchDepth
import Mathlib.Data.List.TakeWhile

/-!
# Functions and the order of the code

In the code a function goes from the block that holds its header up to the next block with a header. The search for
functions takes the blocks in the order of their labels instead: a block falls to the header with the greatest label
that is not above its own, and blocks below all headers fall to the lowest one. A function therefore owns the blocks
that it has in the code exactly if no label is separated from its header by the label of another header.
-/
namespace BeamDisasm

namespace Block

variable {bs cs : List Block} {h h' b c : Block} {ns : List Int} {p q : Placed}

/-- In the order of the blocks, the block is `h` or stands behind it, with no header from behind `h` up to it. -/
def Continues (bs : List Block) (h b : Block) : Prop :=
  ∃ pre mid post, bs = pre ++ h :: (mid ++ post) ∧ (∀ c ∈ mid, c.headers = []) ∧ b ∈ h :: mid

/-- In the order of the labels, the block belongs to the header in `h`: no header stands from above `h` up to the block,
and `h` is not above the block unless it is the lowest header. -/
def FallsTo (bs : List Block) (b h : Block) : Prop :=
  ∀ c ∈ bs, c.headers ≠ [] → (c.number ≤ h.number ∨ b.number < c.number) ∧ (h.number ≤ b.number ∨ h.number ≤ c.number)

theorem Continues.mem (hb : Continues bs h b) : h ∈ bs ∧ b ∈ bs := by
  obtain ⟨pre, mid, post, rfl, -, hb⟩ := hb
  refine ⟨by simp, ?_⟩
  rcases List.mem_cons.mp hb with rfl | hb
  · simp
  · simp [hb]

/-- Behind a first block with a header, every block continues a block with a header. -/
theorem exists_continues (hfirst : ∃ h ∈ bs.head?, h.headers ≠ []) (hb : b ∈ bs) :
    ∃ h, Continues bs h b ∧ h.headers ≠ [] := by
  obtain ⟨pre, post, rfl⟩ := List.append_of_mem hb
  -- the last block with a header up to this one
  have hsome : ((pre ++ [b]).reverse.find? fun c => !c.headers.isEmpty).isSome = true := by
    obtain ⟨h, hhead, hh⟩ := hfirst
    have hhead' : h ∈ (pre ++ [b]).head? := by cases pre <;> simpa using hhead
    rw [List.find?_isSome]
    exact ⟨h, List.mem_reverse.mpr (List.mem_of_head? hhead'), by simpa using hh⟩
  obtain ⟨h, hfind⟩ := Option.isSome_iff_exists.mp hsome
  obtain ⟨hh, back, front, hsplit, hmid⟩ := List.find?_eq_some_iff_append.mp hfind
  have hsplit' : pre ++ [b] = front.reverse ++ h :: back.reverse := by
    simpa using congrArg List.reverse hsplit
  refine ⟨h, ⟨front.reverse, back.reverse, post, ?_, ?_, ?_⟩, by simpa using hh⟩
  · rw [← List.cons_append, ← List.append_assoc, ← hsplit']
    simp
  · intro c hc
    simpa using hmid c (by simpa using hc)
  · have hlast := congrArg List.getLast? hsplit'
    rw [List.getLast?_concat, List.getLast?_append_of_ne_nil _ (by simp)] at hlast
    exact List.mem_of_getLast? hlast.symm

/-- Every block with the blocks that continue it. -/
def continuations : List Block → List (Block × Block)
  | [] => []
  | h :: bs => (h :: bs.takeWhile (·.headers.isEmpty)).map (h, ·) ++ continuations bs

theorem continues_cons_iff : Continues (c :: bs) h b ↔
    h = c ∧ b ∈ c :: bs.takeWhile (·.headers.isEmpty) ∨ Continues bs h b := by
  constructor
  · rintro ⟨pre, mid, post, heq, hmid, hb⟩
    cases pre with
    | nil =>
        obtain ⟨rfl, rfl⟩ := List.cons.inj heq
        refine .inl ⟨rfl, ?_⟩
        rw [List.takeWhile_append_of_pos (by simpa using hmid), ← List.cons_append]
        exact List.mem_append_left _ hb
    | cons a pre =>
        obtain ⟨rfl, rfl⟩ := List.cons.inj heq
        exact .inr ⟨pre, mid, post, rfl, hmid, hb⟩
  · rintro (⟨rfl, hb⟩ | ⟨pre, mid, post, rfl, hmid, hb⟩)
    · refine ⟨[], _, _, congrArg (h :: ·) (List.takeWhile_append_dropWhile (p := (·.headers.isEmpty))).symm, ?_, hb⟩
      intro c hc
      simpa using List.mem_takeWhile_imp hc
    · exact ⟨c :: pre, mid, post, rfl, hmid, hb⟩

theorem mem_continuations_iff : (h, b) ∈ continuations bs ↔ Continues bs h b := by
  induction bs with
  | nil =>
      rw [continuations, iff_false_left (by simp)]
      rintro ⟨pre, mid, post, heq, -⟩
      simp at heq
  | cons c bs ih =>
      rw [continuations, continues_cons_iff, List.mem_append, ih]
      refine or_congr_left ?_
      simp only [List.mem_map, Prod.mk.injEq, exists_eq_right_right]
      rw [and_comm, eq_comm]

instance (bs : List Block) (b h : Block) : Decidable (FallsTo bs b h) :=
  inferInstanceAs (Decidable (∀ c ∈ bs, c.headers ≠ [] →
    (c.number ≤ h.number ∨ b.number < c.number) ∧ (h.number ≤ b.number ∨ h.number ≤ c.number)))

/-- A block falls to one header only. -/
theorem FallsTo.number_eq (hb : FallsTo bs b h) (hb' : FallsTo bs b h') (hh : h ∈ bs) (hh' : h' ∈ bs)
    (hheader : h.headers ≠ []) (hheader' : h'.headers ≠ []) : h.number = h'.number := by
  have hleft := hb h' hh' hheader'
  have hright := hb' h hh hheader
  omega

theorem Ascending.pairwise_number (h : Ascending bs ns) : bs.Pairwise fun b c => b.number < c.number := by
  have hns : bs.map number = ns := by
    have hnumbers := exists_number_of_labels_eq h.labels_eq
    exact List.map_injective_iff.mpr Index.number_injective ((map_number hnumbers).symm.trans h.labels_eq)
  have hascending := h.ascending
  rwa [← hns, List.pairwise_map] at hascending

theorem Ascending.label_eq (h : Ascending bs ns) (hb : b ∈ bs) : b.label = .number b.number := by
  obtain ⟨n, hn⟩ := exists_number_of_labels_eq h.labels_eq b hb
  simp [number, hn]

theorem Ascending.eq_of_number (h : Ascending bs ns) (hb : b ∈ bs) (hc : c ∈ bs) (heq : b.number = c.number) :
    b = c := by
  have hsymm : Std.Symm fun b c : Block => b.number ≠ c.number := ⟨fun _ _ => Ne.symm⟩
  by_contra hne
  exact (h.pairwise_number.imp Int.ne_of_lt).forall hb hc hne heq

/-- The blocks ascend, no instruction stands in two of them, and none holds two headers. -/
structure Sectioned (bs : List Block) (ns : List Int) : Prop extends Ascending bs ns where
  apart : (bs.map Block.insts).Pairwise Apart
  single : ∀ b ∈ bs, b.headers.length ≤ 1

theorem Sectioned.eq_of_mem_headers (h : Sectioned bs ns) (hb : b ∈ bs) (hc : c ∈ bs) (hpb : p ∈ b.headers)
    (hpc : p ∈ c.headers) : b = c := by
  have hapart := h.apart
  rw [List.pairwise_map] at hapart
  have hsymm : Std.Symm fun b c : Block => Apart b.insts c.insts := ⟨fun _ _ hbc => hbc.symm⟩
  by_contra hne
  exact hapart.forall hb hc hne (List.mem_map_of_mem (List.mem_filter.mp hpb).1)
    (List.mem_map_of_mem (List.mem_filter.mp hpc).1)

theorem Sectioned.pairwise_headers (h : Sectioned bs ns) :
    (bs.flatMap Block.headers).Pairwise fun p q =>
      ∀ b ∈ bs, ∀ c ∈ bs, p ∈ b.headers → q ∈ c.headers → b.number < c.number := by
  rw [List.pairwise_flatMap]
  constructor
  · intro b hb
    refine List.pairwise_of_forall_sublist ?_
    intro p q hpq
    have hlength := hpq.length_le
    have hone := h.single b hb
    simp at hlength
    omega
  · refine h.pairwise_number.imp_of_mem ?_
    intro b c hb hc hlt p hp q hq b' hb' c' hc' hpb' hqc'
    rwa [h.eq_of_mem_headers hb' hb hpb' hp, h.eq_of_mem_headers hc' hc hqc' hq]

/-- Headers are met in the order of the labels of their blocks. -/
theorem Sectioned.number_le_iff (h : Sectioned bs ns) {i j : Nat} (hp : (bs.flatMap Block.headers)[i]? = some p)
    (hq : (bs.flatMap Block.headers)[j]? = some q) (hb : b ∈ bs) (hc : c ∈ bs) (hpb : p ∈ b.headers)
    (hqc : q ∈ c.headers) : b.number ≤ c.number ↔ i ≤ j := by
  obtain ⟨hi, rfl⟩ := List.getElem?_eq_some_iff.mp hp
  obtain ⟨hj, rfl⟩ := List.getElem?_eq_some_iff.mp hq
  have hlt := List.pairwise_iff_getElem.mp h.pairwise_headers
  rcases Nat.lt_trichotomy i j with hij | rfl | hji
  · have hbc := hlt i j hi hj hij b hb c hc hpb hqc
    omega
  · rw [h.eq_of_mem_headers hb hc hpb hqc]
    simp
  · have hcb := hlt j i hj hi hji c hc b hb hqc hpb
    omega

end Block

namespace Function

/-! ## Functions that were found have headers with indexes -/

theorem hasIndexes_of_ofHeader {header : Instruction} {blocks : List Index} {f : Function}
    (h : ofHeader header blocks = .ok f) : header.HasIndexes := by
  obtain ⟨m, hm, h⟩ := exists_of_bind h
  obtain ⟨n, hn, h⟩ := exists_of_bind h
  obtain ⟨a, ha, -⟩ := exists_of_bind h
  intro i hi
  obtain rfl | rfl | rfl : i = 0 ∨ i = 1 ∨ i = 2 := by omega
  · exact ⟨m, hm⟩
  · exact ⟨n, hn⟩
  · exact ⟨a, ha⟩

namespace Search

variable {s s' : Search} {p : Placed} {b : Block} {headers : List Placed}

/-- The search has met these headers: the last one is open, and the others have been used. -/
structure Opened (headers : List Placed) (s : Search) : Prop where
  header_eq : s.header = headers.getLast?.map (·.inst)
  indexes : ∀ p ∈ headers.dropLast, p.inst.HasIndexes

theorem Opened.meet (h : s.Opened headers) (hp : p.inst.isHeader = true) (hs' : s.meet p = .ok s') :
    s'.Opened (headers ++ [p]) := by
  rcases List.eq_nil_or_concat' headers with rfl | ⟨before, q, rfl⟩
  · rw [meet_first hp h.header_eq, Except.ok.injEq] at hs'
    rw [← hs']
    exact ⟨by simp, by simp⟩
  · have hopen : s.header = some q.inst := by simpa using h.header_eq
    simp only [Search.meet, hp, hopen, if_true] at hs'
    obtain ⟨f, hf, hs'⟩ := exists_of_bind hs'
    rw [← Except.ok.inj hs']
    refine ⟨by simp, ?_⟩
    intro r hr
    rw [List.dropLast_concat, List.mem_append, List.mem_singleton] at hr
    rcases hr with hr | rfl
    · exact h.indexes r (by simpa using hr)
    · exact hasIndexes_of_ofHeader hf

theorem Opened.enter (h : s.Opened headers) (hs' : s.enter b = .ok s') : s'.Opened (headers ++ b.headers) := by
  rw [enter_eq] at hs'
  refine foldlM_along (P := fun done t => Opened (headers ++ done) t) ?_ hs' ?_
  · intro done p hp t t' ht hopened
    rw [← List.append_assoc]
    exact hopened.meet (List.mem_filter.mp hp).2 ht
  · rw [List.append_nil]
    exact ⟨h.header_eq, h.indexes⟩

end Search

variable {bs cs : List Block} {fs : List Function}

theorem hasIndexes_of_findAll (h : findAll bs = .ok fs) : ∀ p ∈ bs.flatMap Block.headers, p.inst.HasIndexes := by
  obtain ⟨s, hs, hfinish⟩ := exists_of_bind h
  have hopened : s.Opened (bs.flatMap Block.headers) := by
    refine foldlM_along (P := fun before t => Search.Opened (before.flatMap Block.headers) t) ?_ hs ⟨rfl, by simp⟩
    intro before b _ t t' ht hbefore
    rw [List.flatMap_append, List.flatMap_singleton]
    exact hbefore.enter ht
  rcases List.eq_nil_or_concat' (bs.flatMap Block.headers) with hnil | ⟨before, q, hheaders⟩
  · simp [hnil]
  · rw [hheaders] at hopened ⊢
    have hopen : s.header = some q.inst := by simpa using hopened.header_eq
    simp only [Search.finish, hopen] at hfinish
    obtain ⟨f, hf, -⟩ := exists_of_bind hfinish
    intro p hp
    rcases List.mem_append.mp hp with hp | hp
    · exact hopened.indexes p (by simpa using hp)
    · rw [List.mem_singleton.mp hp]
      exact hasIndexes_of_ofHeader hf

/-! ## Which blocks a function owns -/

section

variable {ns : List Int} {i j : Nat} {p q : Placed} {f g : Function} {b c h : Block}

/-- The labels that the functions own go on in the order of the functions. -/
theorem SharesOut.pairwise_number (hout : SharesOut bs fs) (hbs : Block.Ascending bs ns) :
    (fs.flatMap Function.blocks).Pairwise fun k l =>
      ∀ b ∈ bs, ∀ c ∈ bs, b.label = k → c.label = l → b.number < c.number := by
  rw [hout.blocks_eq, List.pairwise_map]
  refine hbs.pairwise_number.imp_of_mem ?_
  intro b c hb hc hlt b' hb' c' hc' hbl hcl
  rw [hbs.label_eq hb', hbs.label_eq hb, Index.number.injEq] at hbl
  rw [hbs.label_eq hc', hbs.label_eq hc, Index.number.injEq] at hcl
  omega

/-- A later header stands above the blocks of a function. -/
theorem SharesOut.number_lt (hout : SharesOut bs fs) (hbs : Block.Sectioned bs ns) (hf : fs[i]? = some f) (hb : b ∈ bs)
    (hbf : b.label ∈ f.blocks) (hq : (bs.flatMap Block.headers)[j]? = some q) (hc : c ∈ bs) (hqc : q ∈ c.headers)
    (hij : i < j) : b.number < c.number := by
  obtain ⟨hj, -⟩ := List.getElem?_eq_some_iff.mp hq
  rw [hout.announced.length_eq] at hj
  obtain ⟨c', hc', hqc', hfirst⟩ := hout.begun hbs.single j (by omega) q _ hq (List.getElem?_eq_getElem hj)
  obtain rfl := hbs.eq_of_mem_headers hc hc' hqc hqc'
  obtain ⟨hi, rfl⟩ := List.getElem?_eq_some_iff.mp hf
  have hpairs := (List.pairwise_flatMap.mp (hout.pairwise_number hbs.toAscending)).2
  exact List.pairwise_iff_getElem.mp hpairs i j hi hj hij _ hbf _ (List.mem_of_getElem? hfirst) b hb c hc rfl rfl

/-- A function other than the first owns no label below its header. -/
theorem SharesOut.number_le (hout : SharesOut bs fs) (hbs : Block.Sectioned bs ns)
    (hp : (bs.flatMap Block.headers)[i]? = some p) (hf : fs[i]? = some f) (hh : h ∈ bs) (hph : p ∈ h.headers)
    (hb : b ∈ bs) (hbf : b.label ∈ f.blocks) (hi : 0 < i) : h.number ≤ b.number := by
  obtain ⟨h', hh', hph', hfirst⟩ := hout.begun hbs.single i hi p f hp hf
  obtain rfl := hbs.eq_of_mem_headers hh hh' hph hph'
  have hpairs := (List.pairwise_flatMap.mp (hout.pairwise_number hbs.toAscending)).1 f (List.mem_of_getElem? hf)
  rw [← List.head?_eq_getElem?] at hfirst
  obtain ⟨rest, hrest⟩ := List.head?_eq_some_iff.mp hfirst
  rw [hrest] at hbf hpairs
  rcases List.mem_cons.mp hbf with heq | hbf
  · rw [hbs.label_eq hb, hbs.label_eq hh, Index.number.injEq] at heq
    omega
  · exact Int.le_of_lt ((List.pairwise_cons.mp hpairs).1 b.label hbf h hh b hb rfl rfl)

/-- The labels that a function owns fall to its header. -/
theorem SharesOut.fallsTo (hout : SharesOut bs fs) (hbs : Block.Sectioned bs ns)
    (hp : (bs.flatMap Block.headers)[i]? = some p) (hf : fs[i]? = some f) (hh : h ∈ bs) (hph : p ∈ h.headers)
    (hb : b ∈ bs) (hbf : b.label ∈ f.blocks) : Block.FallsTo bs b h := by
  intro c hc hcheaders
  obtain ⟨q, hqc⟩ := List.exists_mem_of_ne_nil _ hcheaders
  obtain ⟨j, hq⟩ := List.mem_iff_getElem?.mp (List.mem_flatMap.mpr ⟨c, hc, hqc⟩)
  constructor
  · rcases Nat.lt_or_ge i j with hij | hji
    · exact .inr (hout.number_lt hbs hf hb hbf hq hc hqc hij)
    · exact .inl ((hbs.number_le_iff hq hp hc hh hqc hph).mpr hji)
  · rcases Nat.eq_zero_or_pos i with rfl | hi
    · exact .inr ((hbs.number_le_iff hp hq hh hc hph hqc).mpr (Nat.zero_le j))
    · exact .inl (hout.number_le hbs hp hf hh hph hb hbf hi)

/-- A function owns the labels that fall to its header. -/
theorem SharesOut.mem_blocks_iff (hout : SharesOut bs fs) (hbs : Block.Sectioned bs ns)
    (hp : (bs.flatMap Block.headers)[i]? = some p) (hf : fs[i]? = some f) (hh : h ∈ bs) (hph : p ∈ h.headers)
    (hb : b ∈ bs) : b.label ∈ f.blocks ↔ Block.FallsTo bs b h := by
  refine ⟨hout.fallsTo hbs hp hf hh hph hb, ?_⟩
  intro hfalls
  obtain ⟨j, ⟨g, hg, hbg⟩, -⟩ := hout.owner_unique b hb
  obtain ⟨hj, -⟩ := List.getElem?_eq_some_iff.mp hg
  rw [← hout.announced.length_eq] at hj
  have hq := List.getElem?_eq_getElem hj
  obtain ⟨c, hc, hqc⟩ := List.mem_flatMap.mp (List.mem_of_getElem? hq)
  -- the owner has a header as well, to which the block falls
  have hnumber := (hout.fallsTo hbs hq hg hc hqc hb hbg).number_eq hfalls hc hh (List.ne_nil_of_mem hqc)
    (List.ne_nil_of_mem hph)
  have hji := (hbs.number_le_iff hq hp hc hh hqc hph).mp (Int.le_of_eq hnumber)
  have hij := (hbs.number_le_iff hp hq hh hc hph hqc).mp (Int.le_of_eq hnumber.symm)
  obtain rfl := Nat.le_antisymm hij hji
  rw [hf, Option.some.injEq] at hg
  exact hg ▸ hbg

end

/-- Every function owns the labels of the code from the block that holds its header up to, and without, the next block
with a header. The blocks are `cs` in the order of the code; the functions are in the order of the headers of `bs`. -/
def OwnStretches (cs bs : List Block) (fs : List Function) : Prop :=
  ∀ (i : Nat) (p : Placed) (f : Function), (bs.flatMap Block.headers)[i]? = some p → fs[i]? = some f →
    ∀ h ∈ cs, p ∈ h.headers → ∀ label, label ∈ f.blocks ↔ ∃ b, Block.Continues cs h b ∧ b.label = label

theorem SharesOut.ownStretches_iff {ns : List Int} (hout : SharesOut bs fs) (hbs : Block.Sectioned bs ns)
    (hmem : ∀ b, b ∈ bs ↔ b ∈ cs) (hfirst : ∃ h ∈ cs.head?, h.headers ≠ []) :
    OwnStretches cs bs fs ↔ ∀ h b, Block.Continues cs h b → h.headers ≠ [] → Block.FallsTo bs b h := by
  constructor
  · intro hown h b hb hheader
    have hh := (hmem h).mpr hb.mem.1
    obtain ⟨p, hph⟩ := List.exists_mem_of_ne_nil _ hheader
    obtain ⟨i, hp⟩ := List.mem_iff_getElem?.mp (List.mem_flatMap.mpr ⟨h, hh, hph⟩)
    obtain ⟨hi, -⟩ := List.getElem?_eq_some_iff.mp hp
    rw [hout.announced.length_eq] at hi
    have hf := List.getElem?_eq_getElem hi
    have hbf := (hown i p fs[i] hp hf h hb.mem.1 hph b.label).mpr ⟨b, hb, rfl⟩
    exact (hout.mem_blocks_iff hbs hp hf hh hph ((hmem b).mpr hb.mem.2)).mp hbf
  · intro hfalls i p f hp hf h hh hph label
    have howns := fun {b : Block} (hb : b ∈ bs) => hout.mem_blocks_iff hbs hp hf ((hmem h).mpr hh) hph hb
    constructor
    · intro hlabel
      have hall : label ∈ fs.flatMap Function.blocks := List.mem_flatMap.mpr ⟨f, List.mem_of_getElem? hf, hlabel⟩
      rw [hout.blocks_eq] at hall
      obtain ⟨b, hb, rfl⟩ := List.mem_map.mp hall
      -- the block continues some header, and this header is the one it falls to
      obtain ⟨h', hcontinues, hheader⟩ := Block.exists_continues hfirst ((hmem b).mp hb)
      have hh' := (hmem h').mpr hcontinues.mem.1
      have hnumber := (hfalls h' b hcontinues hheader).number_eq ((howns hb).mp hlabel) hh' ((hmem h).mpr hh) hheader
        (List.ne_nil_of_mem hph)
      obtain rfl := hbs.eq_of_number hh' ((hmem h).mpr hh) hnumber
      exact ⟨b, hcontinues, rfl⟩
    · rintro ⟨b, hb, rfl⟩
      exact (howns ((hmem b).mpr hb.mem.2)).mpr (hfalls h b hb (List.ne_nil_of_mem hph))

/-- The blocks of code with distinct labels, in its own order and in that of the labels. -/
structure Arranged (code : List Instruction) (cs bs : List Block) : Prop where
  inSource_eq : Block.inSource code = .ok cs
  itemize_eq : Block.itemize code = .ok bs
  perm : bs.Perm cs
  ascending : ∃ ns, Block.Ascending bs ns

theorem exists_arranged {code : List Instruction} {labels : List Int} (h : Labelled code labels) :
    ∃ cs bs, Arranged code cs bs ∧ cs.map Block.label = labels.map Index.number := by
  obtain ⟨cs, hcs, hlabels, hbs, hascending⟩ := Block.exists_inSource h.labels_eq
  have hperm : ((Block.keepLast cs).mergeSort fun a b => a.label.le b.label).Perm cs := by
    refine (List.mergeSort_perm _ _).trans ?_
    rw [(⟨hlabels, h.nodup⟩ : Block.Numbered cs labels).keepLast_eq]
  exact ⟨cs, _, ⟨hcs, hbs, hperm, _, hascending⟩, hlabels⟩

namespace Arranged

variable {code : List Instruction}

theorem mem_headers_iff (h : Arranged code cs bs) (p : Placed) :
    p ∈ bs.flatMap Block.headers ↔ p ∈ cs.flatMap Block.headers :=
  (h.perm.flatMap_right _).mem_iff

theorem exists_sharesOut (h : Arranged code cs bs) (hfirst : ∃ c ∈ cs.head?, c.headers ≠ [])
    (hall : ∀ p ∈ bs.flatMap Block.headers, p.inst.HasIndexes) : ∃ fs, findAll bs = .ok fs ∧ SharesOut bs fs := by
  obtain ⟨ns, hascending⟩ := h.ascending
  refine Function.exists_sharesOut hascending.numbered.labels_nodup ?_ hall
  obtain ⟨c, hhead, hc⟩ := hfirst
  obtain ⟨p, hp⟩ := List.exists_mem_of_ne_nil _ hc
  exact List.ne_nil_of_mem ((h.mem_headers_iff p).mpr (List.mem_flatMap.mpr ⟨c, List.mem_of_head? hhead, hp⟩))

theorem ownStretches_iff (h : Arranged code cs bs) (hfirst : ∃ c ∈ cs.head?, c.headers ≠ [])
    (hsingle : ∀ b ∈ cs, b.headers.length ≤ 1) (hfs : findAll bs = .ok fs) :
    SharesOut bs fs ∧ (OwnStretches cs bs fs ↔
      ∀ x ∈ Block.continuations cs, x.1.headers ≠ [] → Block.FallsTo cs x.2 x.1) := by
  obtain ⟨fs', hfs', hout⟩ := h.exists_sharesOut hfirst (hasIndexes_of_findAll hfs)
  obtain rfl := Except.ok.inj (hfs.symm.trans hfs')
  obtain ⟨ns, hascending⟩ := h.ascending
  have hsectioned : Block.Sectioned bs ns :=
    ⟨hascending, Block.apart_itemize h.itemize_eq, fun b hb => hsingle b (h.perm.mem_iff.mp hb)⟩
  have hfalls : ∀ c b, Block.FallsTo bs b c ↔ Block.FallsTo cs b c :=
    fun c b => forall_congr' fun d => imp_congr_left h.perm.mem_iff
  refine ⟨hout, ?_⟩
  rw [hout.ownStretches_iff hsectioned (fun b => h.perm.mem_iff) hfirst]
  simp only [hfalls, Prod.forall, Block.mem_continuations_iff]

end Arranged

/-- The functions own the stretches of the code behind their headers exactly if every block falls to the header that it
continues: no label is separated from its header by the label of another header. -/
theorem findAll_own_stretches_iff (code : List Instruction) (labels : List Int) (hlabels : Labelled code labels) :
    ∃ cs bs : List Block, Block.inSource code = .ok cs ∧ cs.map Block.label = labels.map Index.number ∧
      Block.itemize code = .ok bs ∧
      ((∃ h ∈ cs.head?, h.headers ≠ []) → (∀ b ∈ cs, b.headers.length ≤ 1) →
        ((∃ fs, findAll bs = .ok fs) ↔ ∀ p ∈ cs.flatMap Block.headers, p.inst.HasIndexes) ∧
        ∀ fs, findAll bs = .ok fs →
          List.Forall₂ (fun p f => Announced p.inst f) (bs.flatMap Block.headers) fs ∧
          (OwnStretches cs bs fs ↔ ∀ h b, Block.Continues cs h b → h.headers ≠ [] → Block.FallsTo cs b h)) := by
  obtain ⟨cs, bs, harranged, hsource⟩ := exists_arranged hlabels
  refine ⟨cs, bs, harranged.inSource_eq, hsource, harranged.itemize_eq, fun hfirst hsingle => ⟨⟨?_, ?_⟩, ?_⟩⟩
  · rintro ⟨fs, hfs⟩ p hp
    exact hasIndexes_of_findAll hfs p ((harranged.mem_headers_iff p).mpr hp)
  · intro hall
    obtain ⟨fs, hfs, -⟩ := harranged.exists_sharesOut hfirst fun p hp => hall p ((harranged.mem_headers_iff p).mp hp)
    exact ⟨fs, hfs⟩
  · intro fs hfs
    obtain ⟨hout, hiff⟩ := harranged.ownStretches_iff hfirst hsingle hfs
    refine ⟨hout.announced, hiff.trans ?_⟩
    simp only [Prod.forall, Block.mem_continuations_iff]

/-- Two functions with the higher labels first, and labels out of order in each. -/
def turned : List Instruction :=
  Analysis.assembled [(1, [.literal 5]), (2, [.atom 1, .atom 2, .literal 0]), (1, [.literal 7]), (19, []),
    (1, [.literal 6]), (19, []), (1, [.literal 1]), (2, [.atom 1, .atom 3, .literal 0]), (1, [.literal 3]), (19, []),
    (1, [.literal 2]), (19, [])]

theorem findAll_own_stretches_turned :
    Labelled turned [5, 7, 6, 1, 3, 2] ∧ ∃ cs bs fs, Block.inSource turned = .ok cs ∧ Block.itemize turned = .ok bs ∧
      (∃ h ∈ cs.head?, h.headers ≠ []) ∧ (∀ b ∈ cs, b.headers.length ≤ 1) ∧ findAll bs = .ok fs ∧
      fs.map Function.blocks = [[.number 1, .number 2, .number 3], [.number 5, .number 6, .number 7]] ∧
      OwnStretches cs bs fs := by
  have hlabels : Labelled turned [5, 7, 6, 1, 3, 2] := ⟨rfl, by decide⟩
  have hfunctions : (Block.itemize turned >>= findAll).map (·.map Function.blocks) =
      .ok [[.number 1, .number 2, .number 3], [.number 5, .number 6, .number 7]] := by cbv
  have hheaders : (Block.inSource turned).map (fun cs => decide ((∃ h ∈ cs.head?, h.headers ≠ []) ∧
      (∀ b ∈ cs, b.headers.length ≤ 1) ∧
      ∀ x ∈ Block.continuations cs, x.1.headers ≠ [] → Block.FallsTo cs x.2 x.1)) = .ok true := by cbv
  obtain ⟨cs, bs, hcs, -, hbs, hown⟩ := findAll_own_stretches_iff turned _ hlabels
  rw [hcs] at hheaders
  obtain ⟨hfirst, hsingle, hfalls⟩ := of_decide_eq_true (Except.ok.inj hheaders)
  rw [hbs] at hfunctions
  obtain ⟨fs, hfs, hblocks⟩ := exists_of_map hfunctions
  refine ⟨hlabels, cs, bs, fs, hcs, hbs, hfirst, hsingle, hfs, hblocks, ?_⟩
  rw [((hown hfirst hsingle).2 fs hfs).2]
  intro h b hb
  exact hfalls (h, b) (Block.mem_continuations_iff.mpr hb)

/-- Two functions whose labels alternate. -/
def interleaved : List Instruction :=
  Analysis.assembled [(1, [.literal 1]), (2, [.atom 1, .atom 2, .literal 0]), (1, [.literal 3]), (19, []),
    (1, [.literal 2]), (2, [.atom 1, .atom 3, .literal 0]), (1, [.literal 4]), (19, [])]

/-- The first function loses its code, the block with the label 3, to the second one. -/
theorem findAll_interleaved :
    Labelled interleaved [1, 3, 2, 4] ∧ ∃ cs bs fs, Block.inSource interleaved = .ok cs ∧
      Block.itemize interleaved = .ok bs ∧ (∃ h ∈ cs.head?, h.headers ≠ []) ∧ (∀ b ∈ cs, b.headers.length ≤ 1) ∧
      findAll bs = .ok fs ∧ fs.map Function.blocks = [[.number 1], [.number 2, .number 3, .number 4]] ∧
      ¬ OwnStretches cs bs fs := by
  have hlabels : Labelled interleaved [1, 3, 2, 4] := ⟨rfl, by decide⟩
  have hfunctions : (Block.itemize interleaved >>= findAll).map (·.map Function.blocks) =
      .ok [[.number 1], [.number 2, .number 3, .number 4]] := by cbv
  have hheaders : (Block.inSource interleaved).map (fun cs => decide ((∃ h ∈ cs.head?, h.headers ≠ []) ∧
      (∀ b ∈ cs, b.headers.length ≤ 1) ∧
      ¬ ∀ x ∈ Block.continuations cs, x.1.headers ≠ [] → Block.FallsTo cs x.2 x.1)) = .ok true := by cbv
  obtain ⟨cs, bs, harranged, -⟩ := exists_arranged hlabels
  rw [harranged.inSource_eq] at hheaders
  obtain ⟨hfirst, hsingle, hfalls⟩ := of_decide_eq_true (Except.ok.inj hheaders)
  rw [harranged.itemize_eq] at hfunctions
  obtain ⟨fs, hfs, hblocks⟩ := exists_of_map hfunctions
  refine ⟨hlabels, cs, bs, fs, harranged.inSource_eq, harranged.itemize_eq, hfirst, hsingle, hfs, hblocks, ?_⟩
  rwa [(harranged.ownStretches_iff hfirst hsingle hfs).2]

end Function

end BeamDisasm

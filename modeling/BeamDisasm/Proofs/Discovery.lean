import BeamDisasm.Proofs.Functions
import BeamDisasm.Proofs.LabelOrder

/-!
# Every header starts a function

The search for functions goes through the blocks and sees nothing of them but their labels and their headers. Each
header gives one function, in the order in which the headers are met, and the functions share out all labels. A
function owns the blocks from the one that holds its header up to the next block with a header; the first function
also owns the blocks before its header. Where a block holds several headers, only the last of them can start there.
-/
namespace BeamDisasm

/-- The three operands of a header have an index. -/
def Instruction.HasIndexes (header : Instruction) : Prop :=
  ∀ i < 3, ∃ index, header.indexOf i = .ok index

theorem Instruction.hasIndexes_iff (header : Instruction) :
    header.HasIndexes ↔ ∀ i < 3, (header.indexOf i).isOk = true := by
  refine forall_congr' fun i => imp_congr_right fun _ => ?_
  cases header.indexOf i <;> simp [Except.isOk, Except.toBool]

instance (header : Instruction) : Decidable header.HasIndexes :=
  decidable_of_iff _ header.hasIndexes_iff.symm

/-- The headers in a block. -/
def Block.headers (b : Block) : List Placed :=
  b.insts.filter (·.inst.isHeader)

namespace Function

/-- The function has the module, the name and the arity that a header gives. -/
structure Announced (header : Instruction) (f : Function) : Prop where
  module : header.indexOf 0 = .ok f.module
  name : header.indexOf 1 = .ok f.name
  arity : header.indexOf 2 = .ok f.arity

theorem exists_ofHeader {header : Instruction} (h : header.HasIndexes) (blocks : List Index) :
    ∃ f, ofHeader header blocks = .ok f ∧ f.blocks = blocks ∧ f.Announced header := by
  obtain ⟨m, hm⟩ := h 0 (by omega)
  obtain ⟨n, hn⟩ := h 1 (by omega)
  obtain ⟨a, ha⟩ := h 2 (by omega)
  refine ⟨⟨m, n, a, blocks⟩, ?_, rfl, hm, hn, ha⟩
  simp [ofHeader, hm, hn, ha, bind, Except.bind, pure, Except.pure]

namespace Search

variable {s : Search} {p : Placed} {b : Block} {headers : List Placed}

/-! ## One header -/

theorem meet_other (h : p.inst.isHeader = false) : s.meet p = .ok s := by
  simp [meet, h]

theorem meet_first (hp : p.inst.isHeader = true) (hs : s.header = none) :
    s.meet p = .ok { s with header := some p.inst } := by
  simp [meet, hp, hs]

theorem meet_next (hp : p.inst.isHeader = true) {header : Instruction} (hs : s.header = some header) {f : Function}
    (hf : ofHeader header s.labels.dropLast = .ok f) :
    s.meet p = .ok ⟨s.found ++ [f], some p.inst, s.labels.drop (s.labels.length - 1)⟩ := by
  simp [meet, hp, hs, hf, bind, Except.bind, pure, Except.pure]

/-- Only the headers of a block count. -/
theorem enter_eq (s : Search) (b : Block) :
    s.enter b = b.headers.foldlM meet { s with labels := s.labels ++ [b.label] } := by
  have hfold : ∀ (ps : List Placed) (t : Search),
      ps.foldlM meet t = (ps.filter (·.inst.isHeader)).foldlM meet t := by
    intro ps
    induction ps with
    | nil => intro t; rfl
    | cons p ps ih =>
        intro t
        cases hp : p.inst.isHeader with
        | false =>
            rw [List.foldlM_cons, meet_other hp, List.filter_cons_of_neg (by simp [hp])]
            exact ih t
        | true =>
            rw [List.filter_cons_of_pos (by simp [hp]), List.foldlM_cons, List.foldlM_cons]
            exact bind_congr ih
  exact hfold b.insts _

/-! ## Which functions are found -/

/-- The search has met these headers: the last one is open, and each of the others has given a function. -/
structure Met (headers : List Placed) (s : Search) : Prop where
  indexes : ∀ p ∈ headers, p.inst.HasIndexes
  header_eq : s.header = headers.getLast?.map (·.inst)
  announced : List.Forall₂ (fun p f => f.Announced p.inst) headers.dropLast s.found

theorem Met.meet (h : s.Met headers) (hp : p.inst.isHeader = true) (hindexes : p.inst.HasIndexes) :
    ∃ s', s.meet p = .ok s' ∧ s'.Met (headers ++ [p]) := by
  have hall : ∀ q ∈ headers ++ [p], q.inst.HasIndexes := by
    intro q hq
    rcases List.mem_append.mp hq with hq | hq
    · exact h.indexes q hq
    · exact List.mem_singleton.mp hq ▸ hindexes
  rcases List.eq_nil_or_concat headers with rfl | ⟨before, q, rfl⟩
  · refine ⟨_, meet_first hp h.header_eq, hall, ?_, ?_⟩
    · simp
    · simpa using h.announced
  · have hopen : s.header = some q.inst := by simpa using h.header_eq
    have hfound : List.Forall₂ (fun p f => Announced p.inst f) before s.found := by simpa using h.announced
    obtain ⟨f, hf, -, hannounced⟩ := exists_ofHeader (h.indexes q (by simp)) s.labels.dropLast
    refine ⟨_, meet_next hp hopen hf, hall, ?_, ?_⟩
    · simp
    · rw [List.dropLast_concat]
      simpa using List.rel_append hfound (.cons hannounced .nil)

/-- The headers of a block are met, in their order. -/
theorem Met.enter (h : s.Met headers) (hb : ∀ p ∈ b.headers, p.inst.HasIndexes) :
    ∃ s', s.enter b = .ok s' ∧ s'.Met (headers ++ b.headers) := by
  rw [enter_eq]
  refine foldlM_reaches (P := fun done t => Met (headers ++ done) t) ?_ ?_
  · intro done p hp t ht
    rw [← List.append_assoc]
    exact ht.meet (List.mem_filter.mp hp).2 (hb p hp)
  · rw [List.append_nil]
    exact ⟨h.indexes, h.header_eq, h.announced⟩

/-- The headers of all blocks are met, in their order. -/
theorem exists_met {bs : List Block} (hall : ∀ p ∈ bs.flatMap Block.headers, p.inst.HasIndexes) :
    ∃ s, bs.foldlM enter {} = .ok s ∧ s.Met (bs.flatMap Block.headers) := by
  refine foldlM_reaches (P := fun before s => Met (before.flatMap Block.headers) s) ?_ ?_
  · intro before b hb s hs
    rw [List.flatMap_append, List.flatMap_singleton]
    exact hs.enter fun p hp => hall p (List.mem_flatMap.mpr ⟨b, hb, hp⟩)
  · exact ⟨by simp, rfl, .nil⟩

/-- The labels that each function owns: those that are found, and the open one behind them. -/
def shares (s : Search) : List (List Index) :=
  s.found.map Function.blocks ++ [s.labels]

/-- The open header gives the last function. -/
theorem Met.finish (h : s.Met headers) (hne : headers ≠ []) :
    ∃ fs, s.finish = .ok fs ∧ fs.map Function.blocks = s.shares ∧
      List.Forall₂ (fun p f => f.Announced p.inst) headers fs := by
  rcases List.eq_nil_or_concat headers with rfl | ⟨before, q, rfl⟩
  · exact absurd rfl hne
  · have hopen : s.header = some q.inst := by simpa using h.header_eq
    have hfound : List.Forall₂ (fun p f => Announced p.inst f) before s.found := by simpa using h.announced
    obtain ⟨f, hf, hblocks, hannounced⟩ := exists_ofHeader (h.indexes q (by simp)) s.labels
    refine ⟨s.found ++ [f], ?_, ?_, ?_⟩
    · simp [Search.finish, hopen, hf, bind, Except.bind, pure, Except.pure]
    · simp [shares, hblocks]
    · simpa using List.rel_append hfound (.cons hannounced .nil)

/-! ## Where functions start -/

theorem enter_silent (hb : b.headers = []) : s.enter b = .ok { s with labels := s.labels ++ [b.label] } := by
  rw [enter_eq, hb]
  rfl

theorem enter_first (hb : b.headers = [p]) (hs : s.header = none) :
    s.enter b = .ok { s with header := some p.inst, labels := s.labels ++ [b.label] } := by
  have hp : p.inst.isHeader = true := (List.mem_filter.mp (hb ▸ List.mem_singleton_self p : p ∈ b.headers)).2
  rw [enter_eq, hb, List.foldlM_cons, meet_first (s := { s with labels := s.labels ++ [b.label] }) hp hs]
  rfl

/-- A block with one header leaves its label to the function of this header, and all labels before it to the
function of the header before. -/
theorem enter_next (hb : b.headers = [p]) {header : Instruction} (hs : s.header = some header)
    (hindexes : header.HasIndexes) :
    ∃ f, f.blocks = s.labels ∧ s.enter b = .ok ⟨s.found ++ [f], some p.inst, [b.label]⟩ := by
  have hp : p.inst.isHeader = true := (List.mem_filter.mp (hb ▸ List.mem_singleton_self p : p ∈ b.headers)).2
  obtain ⟨f, hf, hblocks, -⟩ := exists_ofHeader hindexes s.labels
  have hcut : (s.labels ++ [b.label]).dropLast = s.labels := List.dropLast_concat
  rw [← hcut] at hf
  refine ⟨f, hblocks, ?_⟩
  rw [enter_eq, hb, List.foldlM_cons, meet_next (s := { s with labels := s.labels ++ [b.label] }) hp hs hf]
  simp [pure, Except.pure, bind, Except.bind]

/-- Every share but the first starts with the block that holds its header. -/
def Begun (bs : List Block) (headers : List Placed) (s : Search) : Prop :=
  ∀ i, 0 < i → ∀ p labels, headers[i]? = some p → s.shares[i]? = some labels →
    ∃ b ∈ bs, p ∈ b.headers ∧ labels[0]? = some b.label

/-- The open header and those before it have one share each. -/
theorem Met.length_shares (h : s.Met headers) (hne : headers ≠ []) : s.shares.length = headers.length := by
  have hlength := h.announced.length_eq
  have hpos := List.length_pos_iff.mpr hne
  simp only [List.length_dropLast] at hlength
  simp only [shares, List.length_append, List.length_map, List.length_singleton]
  omega

theorem Begun.enter {bs : List Block} (h : s.Begun bs headers) (hmet : s.Met headers) (hb : b.headers.length ≤ 1)
    {s' : Search} (hs' : s.enter b = .ok s') : s'.Begun (bs ++ [b]) (headers ++ b.headers) := by
  intro i hi q labels hq hlabels
  match hheaders : b.headers with
  | [] =>
      rw [enter_silent hheaders, Except.ok.injEq] at hs'
      rw [hheaders, List.append_nil] at hq
      rw [← hs'] at hlabels
      simp only [shares] at hlabels
      -- only the share of the open function has grown, and not at its front
      by_cases hlast : i = s.found.length
      · have hopen : s.shares[i]? = some s.labels := by simp [shares, hlast]
        obtain ⟨c, hc, hqc, hfirst⟩ := h i hi q s.labels hq hopen
        have hgrown : s.labels ++ [b.label] = labels := by simpa [hlast] using hlabels
        refine ⟨c, by simp [hc], hqc, ?_⟩
        rw [← hgrown, List.getElem?_append_left (List.getElem?_eq_some_iff.mp hfirst).1, hfirst]
      · have hsame : s.shares[i]? = some labels := by
          rw [← hlabels]
          simp only [shares, List.getElem?_append, List.length_map]
          split
          · rfl
          · rw [List.getElem?_eq_none (by simp; omega), List.getElem?_eq_none (by simp; omega)]
        obtain ⟨c, hc, hqc, hfirst⟩ := h i hi q labels hq hsame
        exact ⟨c, by simp [hc], hqc, hfirst⟩
  | [p] =>
      rw [hheaders] at hq
      by_cases hne : headers = []
      · subst hne
        simp [Nat.ne_of_gt hi] at hq
      · obtain ⟨header, hopen⟩ : ∃ header ∈ headers, s.header = some header.inst := by
          refine ⟨headers.getLast hne, List.getLast_mem hne, ?_⟩
          rw [hmet.header_eq, List.getLast?_eq_getLast_of_ne_nil hne]
          rfl
        obtain ⟨f, hblocks, henter⟩ := enter_next hheaders hopen.2 (hmet.indexes header hopen.1)
        have hshares : s'.shares = s.shares ++ [[b.label]] := by
          rw [henter, Except.ok.injEq] at hs'
          simp [← hs', shares, hblocks]
        have hlength := hmet.length_shares hne
        rw [hshares] at hlabels
        by_cases hold : i < headers.length
        · rw [List.getElem?_append_left hold] at hq
          rw [List.getElem?_append_left (by omega)] at hlabels
          obtain ⟨c, hc, hqc, hfirst⟩ := h i hi q labels hq hlabels
          exact ⟨c, by simp [hc], hqc, hfirst⟩
        · have hnew : i = headers.length := by
            have hbound := (List.getElem?_eq_some_iff.mp hq).1
            simp at hbound
            omega
          have hqp : p = q := by simpa [hnew] using hq
          have hown : [b.label] = labels := by simpa [hnew, hlength] using hlabels
          exact ⟨b, by simp, by simp [hheaders, hqp], by simp [← hown]⟩
  | p :: q :: ps => simp [hheaders] at hb

/-- Where no block holds two headers, the search has begun every share but the first at its header. -/
theorem exists_begun {bs : List Block} (hall : ∀ p ∈ bs.flatMap Block.headers, p.inst.HasIndexes)
    (hsingle : ∀ b ∈ bs, b.headers.length ≤ 1) :
    ∃ s, bs.foldlM enter {} = .ok s ∧ s.Met (bs.flatMap Block.headers) ∧ s.Begun bs (bs.flatMap Block.headers) := by
  refine foldlM_reaches (P := fun before s =>
    Met (before.flatMap Block.headers) s ∧ Begun before (before.flatMap Block.headers) s) ?_ ?_
  · rintro before b hb s ⟨hmet, hbegun⟩
    obtain ⟨s', hs', hmet'⟩ := hmet.enter fun p hp => hall p (List.mem_flatMap.mpr ⟨b, hb, hp⟩)
    rw [List.flatMap_append, List.flatMap_singleton]
    exact ⟨s', hs', hmet', hbegun.enter hmet (hsingle b hb) hs'⟩
  · refine ⟨⟨by simp, rfl, .nil⟩, ?_⟩
    intro i hi p labels hp
    simp at hp

end Search

/-- The functions are those of the headers, in their order, and share out the labels of the blocks. -/
structure SharesOut (bs : List Block) (fs : List Function) : Prop where
  announced : List.Forall₂ (fun p f => f.Announced p.inst) (bs.flatMap Block.headers) fs
  blocks_eq : fs.flatMap Function.blocks = bs.map Block.label
  owner_unique : ∀ b ∈ bs, ∃! i : Nat, ∃ f : Function, fs[i]? = some f ∧ b.label ∈ f.blocks
  begun : (∀ b ∈ bs, b.headers.length ≤ 1) → ∀ i, 0 < i → ∀ (p : Placed) (f : Function),
    (bs.flatMap Block.headers)[i]? = some p → fs[i]? = some f → ∃ b ∈ bs, p ∈ b.headers ∧ f.blocks[0]? = some b.label

variable {bs : List Block} {fs : List Function}

/-- Where no label is owned twice, the label of a block has one owner. -/
theorem existsUnique_owner (hblocks : fs.flatMap Function.blocks = bs.map Block.label)
    (hnodup : (bs.map Block.label).Nodup) {b : Block} (hb : b ∈ bs) :
    ∃! i : Nat, ∃ f : Function, fs[i]? = some f ∧ b.label ∈ f.blocks := by
  have hmem : b.label ∈ fs.flatMap Function.blocks := hblocks ▸ List.mem_map_of_mem hb
  obtain ⟨f, hf, hbf⟩ := List.mem_flatMap.mp hmem
  obtain ⟨i, hi⟩ := List.mem_iff_getElem?.mp hf
  have hdisjoint := List.pairwise_iff_getElem.mp (List.nodup_flatMap.mp (hblocks ▸ hnodup)).2
  refine ⟨i, ⟨f, hi, hbf⟩, ?_⟩
  rintro j ⟨g, hj, hbg⟩
  obtain ⟨hilt, rfl⟩ := List.getElem?_eq_some_iff.mp hi
  obtain ⟨hjlt, rfl⟩ := List.getElem?_eq_some_iff.mp hj
  rcases Nat.lt_trichotomy j i with hlt | heq | hlt
  · exact absurd hbf (hdisjoint j i hjlt hilt hlt hbg)
  · exact heq
  · exact absurd hbg (hdisjoint i j hilt hjlt hlt hbf)

/-- The search finds a function for every header. -/
theorem exists_sharesOut (hnodup : (bs.map Block.label).Nodup) (hne : bs.flatMap Block.headers ≠ [])
    (hall : ∀ p ∈ bs.flatMap Block.headers, p.inst.HasIndexes) : ∃ fs, findAll bs = .ok fs ∧ SharesOut bs fs := by
  obtain ⟨s, hs, hmet⟩ := Search.exists_met hall
  obtain ⟨fs, hfs, hshares, hannounced⟩ := hmet.finish hne
  have hfind : findAll bs = .ok fs := by
    rw [findAll, hs]
    exact hfs
  have hfsne : fs ≠ [] := by
    intro hnil
    rw [hnil, List.forall₂_nil_right_iff] at hannounced
    exact hne hannounced
  have hblocks := (findAll_blocks hfind).resolve_left hfsne
  refine ⟨fs, hfind, hannounced, hblocks, fun b hb => existsUnique_owner hblocks hnodup hb, ?_⟩
  intro hsingle i hi p f hp hf
  obtain ⟨t, ht, -, hbegun⟩ := Search.exists_begun hall hsingle
  rw [hs, Except.ok.injEq] at ht
  subst ht
  refine hbegun i hi p f.blocks hp ?_
  rw [← hshares, List.getElem?_map, hf]
  rfl

/-- The functions of code whose labels are numbers: one for every header in a block, and each of the numbers, which
ascend, is owned by one of them. -/
theorem findAll_partition (code : List Instruction) (labels : List Int) (hlabels : NumberLabels code labels) :
    ∃ (bs : List Block) (ns : List Int), Block.itemize code = .ok bs ∧ bs.map Block.label = ns.map Index.number ∧
      ns.Pairwise (· < ·) ∧ (∀ n, n ∈ ns ↔ n ∈ labels) ∧
      (bs.flatMap Block.headers ≠ [] → (∀ p ∈ bs.flatMap Block.headers, p.inst.HasIndexes) →
        ∃ fs, findAll bs = .ok fs ∧ SharesOut bs fs) := by
  obtain ⟨bs, ns, hbs, hascending, hmem⟩ := Block.itemize_ascending hlabels
  exact ⟨bs, ns, hbs, hascending.labels_eq, hascending.ascending, hmem,
    exists_sharesOut hascending.numbered.labels_nodup⟩

/-- Labels out of order, one of them twice, and a block without a header in front of the first function. -/
def unordered : List Instruction :=
  Analysis.assembled [(1, [.literal 9]), (2, [.atom 1, .atom 4, .literal 2]), (1, [.literal 5]), (19, []),
    (1, [.literal 2]), (19, []), (1, [.literal 5]), (2, [.atom 1, .atom 3, .literal 0]), (1, [.literal 7])]

theorem findAll_partition_unordered :
    NumberLabels unordered [9, 5, 2, 5, 7] ∧ ∃ bs fs, Block.itemize unordered = .ok bs ∧
      bs.flatMap Block.headers ≠ [] ∧ (∀ p ∈ bs.flatMap Block.headers, p.inst.HasIndexes) ∧
      (∀ b ∈ bs, b.headers.length ≤ 1) ∧ findAll bs = .ok fs ∧ SharesOut bs fs ∧
      fs.map Function.blocks = [[.number 2, .number 5, .number 7], [.number 9]] := by
  have hlabels : NumberLabels unordered [9, 5, 2, 5, 7] := rfl
  have hfunctions : (Block.itemize unordered >>= findAll).map (·.map Function.blocks) =
      .ok [[.number 2, .number 5, .number 7], [.number 9]] := by cbv
  have hheaders : (Block.itemize unordered).map (fun bs => decide (bs.flatMap Block.headers ≠ [] ∧
      (∀ p ∈ bs.flatMap Block.headers, p.inst.HasIndexes) ∧ ∀ b ∈ bs, b.headers.length ≤ 1)) = .ok true := by cbv
  obtain ⟨bs, ns, hbs, -, -, -, hshares⟩ := findAll_partition unordered _ hlabels
  rw [hbs] at hfunctions hheaders
  obtain ⟨hne, hindexes, hsingle⟩ := of_decide_eq_true (Except.ok.inj hheaders)
  obtain ⟨fs, hfs, hout⟩ := hshares hne hindexes
  change (findAll bs).map _ = _ at hfunctions
  rw [hfs] at hfunctions
  exact ⟨hlabels, bs, fs, hbs, hne, hindexes, hsingle, hfs, hout, Except.ok.inj hfunctions⟩

end Function

end BeamDisasm

import BeamDisasm.Proofs.Discovery

/-!
# Code that is laid out function by function

Where the code is a sequence of functions, each with its header behind its first label, and the labels ascend, the
blocks stand in the order of the code and the functions that are found are those that were laid out, each with its own
labels.
-/
namespace BeamDisasm

/-! ## Code without positions -/

namespace Block

variable {inst : Instruction} {insts code more : List Instruction}

/-- Cuts instructions at their labels: what stands before the first label, and each label with what stands behind
it. -/
def segments : List Instruction → List Instruction × List (Instruction × List Instruction)
  | [] => ([], [])
  | inst :: insts =>
    let (before, parts) := segments insts
    if inst.isLabel then ([], (inst, before) :: parts) else (inst :: before, parts)

theorem segments_label (h : inst.isLabel = true) (insts : List Instruction) :
    segments (inst :: insts) = ([], (inst, (segments insts).1) :: (segments insts).2) := by
  simp [segments, h]

theorem segments_other (h : inst.isLabel = false) (insts : List Instruction) :
    segments (inst :: insts) = (inst :: (segments insts).1, (segments insts).2) := by
  simp [segments, h]

/-- Where code is cut does not depend on the positions. -/
theorem segments_cut (ps : List Placed) : segments (ps.map (·.inst)) =
    ((cut ps).1.map (·.inst), (cut ps).2.map fun part => (part.1.inst, part.2.map (·.inst))) := by
  induction ps with
  | nil => rfl
  | cons p ps ih =>
      rw [List.map_cons, cut]
      by_cases hp : p.inst.isLabel
      · simp [segments_label hp, ih, hp]
      · simp [segments_other (Bool.eq_false_iff.mpr hp), ih, hp]

theorem segments_of_no_label (h : ∀ inst ∈ insts, inst.isLabel = false) : segments insts = (insts, []) := by
  induction insts with
  | nil => rfl
  | cons inst insts ih =>
      rw [segments_other (h inst (by simp)), ih fun other hother => h other (by simp [hother])]

/-- Code that starts with a label can be cut on its own. -/
theorem segments_append (h : (segments more).1 = []) :
    segments (code ++ more) = ((segments code).1, (segments code).2 ++ (segments more).2) := by
  induction code with
  | nil => exact Prod.ext h rfl
  | cons inst code ih =>
      rw [List.cons_append]
      by_cases hinst : inst.isLabel
      · simp [segments_label hinst, ih]
      · simp [segments_other (Bool.eq_false_iff.mpr hinst), ih]

/-- Pieces of code that all start with a label can be cut one by one. -/
theorem segments_flatten {pieces : List (List Instruction)} (h : ∀ piece ∈ pieces, (segments piece).1 = []) :
    segments pieces.flatten = ([], pieces.flatMap fun piece => (segments piece).2) := by
  induction pieces with
  | nil => rfl
  | cons piece pieces ih =>
      have hrest := ih fun other hother => h other (by simp [hother])
      rw [List.flatten_cons, segments_append (by rw [hrest]), hrest, h piece (by simp), List.flatMap_cons]

/-- The label of each part of the code and the headers behind it. -/
def outline (code : List Instruction) : List (Except Fault Index × List Instruction) :=
  (segments code).2.map fun part => (part.1.indexOf 0, part.2.filter Instruction.isHeader)

theorem outline_flatten {pieces : List (List Instruction)} (h : ∀ piece ∈ pieces, (segments piece).1 = []) :
    outline pieces.flatten = pieces.flatMap outline := by
  rw [outline, segments_flatten h, List.map_flatMap]
  rfl

end Block

/-! ## Functions -/

/-- A function as it is laid out: its header, the label in front of the header and the labels behind it. -/
structure FunctionLayout where
  header : Instruction
  first : Int
  rest : List Int

namespace FunctionLayout

/-- The labels of a function. -/
def labels (f : FunctionLayout) : List Int :=
  f.first :: f.rest

/-- The labels of a function, with its header behind the first. -/
def outline (f : FunctionLayout) : List (Int × List Instruction) :=
  (f.first, [f.header]) :: f.rest.map fun label => (label, [])

theorem map_fst_outline (f : FunctionLayout) : f.outline.map Prod.fst = f.labels := by
  simp [outline, labels, Function.comp_def]

end FunctionLayout

namespace Block

/-- The label of a block and its headers. -/
def outlined (b : Block) : Index × List Instruction :=
  (b.label, b.headers.map (·.inst))

/-- The blocks of code with ascending labels show the outline of the code. -/
theorem itemize_outline {code : List Instruction} {parts : List (Int × List Instruction)}
    (hcode : outline code = parts.map fun part => (.ok (.number part.1), part.2))
    (hascending : (parts.map Prod.fst).Pairwise (· < ·)) :
    ∃ bs, itemize code = .ok bs ∧ bs.map outlined = parts.map fun part => (.number part.1, part.2) := by
  have hsegments := segments_cut (placeFrom 0 code)
  rw [map_inst_placeFrom] at hsegments
  rw [outline, hsegments, List.map_map] at hcode
  have hnumbers : NumberLabels code (parts.map Prod.fst) := by
    have hlabels := congrArg (List.map Prod.fst) hcode
    rw [List.map_map, List.map_map] at hlabels
    rw [NumberLabels, ← map_indexOf_parts, List.map_map]
    exact hlabels
  obtain ⟨bs, hbs, hblocks, hinsts, -⟩ := itemize_of_ascending hnumbers hascending
  have hheaders : bs.map (fun b => b.headers.map (·.inst)) = parts.map Prod.snd := by
    have hbehind := congrArg (List.map Prod.snd) hcode
    rw [List.map_map, List.map_map] at hbehind
    calc bs.map (fun b => b.headers.map (·.inst))
        = (bs.map Block.insts).map fun ps => (ps.filter (·.inst.isHeader)).map (·.inst) := by
          rw [List.map_map]
          rfl
      _ = (cut (placeFrom 0 code)).2.map fun part => (part.2.map (·.inst)).filter Instruction.isHeader := by
          rw [hinsts, List.map_map]
          refine List.map_congr_left fun part _ => ?_
          rw [List.filter_map]
          rfl
      _ = parts.map Prod.snd := hbehind
  refine ⟨bs, hbs, ?_⟩
  calc bs.map outlined
      = (bs.map Block.label).zip (bs.map fun b => b.headers.map (·.inst)) := List.zip_map'.symm
    _ = (parts.map fun part => Index.number part.1).zip (parts.map Prod.snd) := by
        rw [hblocks.labels_eq, hheaders, List.map_map]
        rfl
    _ = parts.map fun part => (.number part.1, part.2) := List.zip_map'

end Block

/-- The blocks are those of functions one after the other. -/
def FunctionLayout.Shown (fs : List FunctionLayout) (bs : List Block) : Prop :=
  bs.map Block.outlined = (fs.flatMap outline).map fun part => (.number part.1, part.2)

namespace Function.Search

variable {s : Search} {bs : List Block} {f : FunctionLayout} {fs : List FunctionLayout} {header : Instruction}

/-- A function has one block with its header and others without headers, in front of the functions behind it. -/
theorem exists_of_shown (h : FunctionLayout.Shown (f :: fs) bs) :
    ∃ b cs ds p, bs = b :: (cs ++ ds) ∧ b.headers = [p] ∧ p.inst = f.header ∧ (∀ c ∈ cs, c.headers = []) ∧
      b.label :: cs.map Block.label = f.labels.map Index.number ∧ FunctionLayout.Shown fs ds := by
  rw [FunctionLayout.Shown, List.flatMap_cons, FunctionLayout.outline, List.cons_append, List.map_cons,
    List.map_append] at h
  obtain ⟨b, more, rfl, hb, hmore⟩ := List.map_eq_cons_iff.mp h
  obtain ⟨cs, ds, rfl, hcs, hds⟩ := List.map_eq_append_iff.mp hmore
  obtain ⟨hlabel, hheaders⟩ := Prod.mk.inj hb
  obtain ⟨p, hp, hinst⟩ := List.map_eq_singleton_iff.mp hheaders
  have hsilent : ∀ c ∈ cs, c.headers = [] := by
    intro c hc
    have hmem : c.outlined ∈ cs.map Block.outlined := List.mem_map_of_mem hc
    rw [hcs] at hmem
    simp only [List.map_map, List.mem_map, Function.comp_apply] at hmem
    obtain ⟨label, -, hlabel⟩ := hmem
    simpa using (Prod.mk.inj hlabel).2.symm
  have hlabels : cs.map Block.label = f.rest.map Index.number := by
    simpa [Block.outlined, Function.comp_def] using congrArg (List.map Prod.fst) hcs
  exact ⟨b, cs, ds, p, rfl, hp, hinst, hsilent, by rw [hlabel, hlabels]; rfl, hds⟩

theorem foldlM_enter_silent (h : ∀ b ∈ bs, b.headers = []) (s : Search) :
    bs.foldlM enter s = .ok { s with labels := s.labels ++ bs.map Block.label } := by
  induction bs generalizing s with
  | nil => simp [pure, Except.pure]
  | cons b bs ih =>
      rw [List.foldlM_cons, enter_silent (h b (by simp))]
      refine (ih (fun c hc => h c (by simp [hc])) _).trans ?_
      simp

/-- A block is entered, and those without headers behind it add their labels. -/
theorem foldlM_enter_cons {t : Search} {b : Block} {cs ds : List Block} (hb : s.enter b = .ok t)
    (hcs : ∀ c ∈ cs, c.headers = []) :
    (b :: (cs ++ ds)).foldlM enter s = ds.foldlM enter { t with labels := t.labels ++ cs.map Block.label } := by
  rw [List.foldlM_cons, hb]
  change (cs ++ ds).foldlM enter t = _
  rw [List.foldlM_append, foldlM_enter_silent hcs]
  rfl

/-- Each function behind an open one closes the open one and takes its own labels. -/
theorem foldlM_enter_shown (h : FunctionLayout.Shown fs bs) (hfs : ∀ f ∈ fs, f.header.HasIndexes)
    (hs : s.header = some header) (hheader : header.HasIndexes) :
    ∃ s' header', bs.foldlM enter s = .ok s' ∧ s'.header = some header' ∧ header'.HasIndexes ∧
      s'.shares = s.shares ++ fs.map fun f => f.labels.map Index.number := by
  induction fs generalizing bs s header with
  | nil =>
      have hbs : bs = [] := by simpa [FunctionLayout.Shown] using h
      subst hbs
      exact ⟨s, header, rfl, hs, hheader, by simp⟩
  | cons f fs ih =>
      obtain ⟨b, cs, ds, p, rfl, hb, hp, hsilent, hlabels, hds⟩ := exists_of_shown h
      obtain ⟨g, hg, henter⟩ := enter_next hb hs hheader
      rw [foldlM_enter_cons henter hsilent]
      have hindexes : p.inst.HasIndexes := hp ▸ hfs f (by simp)
      obtain ⟨s', header', hrun, hs', hheader', hshares⟩ :=
        ih (s := ⟨s.found ++ [g], some p.inst, [b.label] ++ cs.map Block.label⟩) hds
          (fun f hf => hfs f (by simp [hf])) rfl hindexes
      refine ⟨s', header', hrun, hs', hheader', ?_⟩
      rw [hshares]
      simp [shares, hg, hlabels]

end Function.Search

/-- Code that is laid out function by function with ascending labels has these functions. -/
theorem Function.findAll_layout {code : List Instruction} {fs : List FunctionLayout} (hne : fs ≠ [])
    (hcode : Block.outline code = (fs.flatMap FunctionLayout.outline).map fun part => (.ok (.number part.1), part.2))
    (hascending : (fs.flatMap FunctionLayout.labels).Pairwise (· < ·)) (hfs : ∀ f ∈ fs, f.header.HasIndexes) :
    ∃ bs found, Block.itemize code = .ok bs ∧ findAll bs = .ok found ∧
      found.map Function.blocks = fs.map fun f => f.labels.map Index.number := by
  have hlabels : (fs.flatMap FunctionLayout.outline).map Prod.fst = fs.flatMap FunctionLayout.labels := by
    rw [List.map_flatMap]
    exact List.flatMap_congr fun f _ => f.map_fst_outline
  obtain ⟨bs, hbs, hshown⟩ := Block.itemize_outline hcode (hlabels ▸ hascending)
  obtain ⟨f, fs, rfl⟩ := List.exists_cons_of_ne_nil hne
  obtain ⟨b, cs, ds, p, rfl, hb, hp, hsilent, hfirst, hds⟩ := Search.exists_of_shown hshown
  have hindexes : p.inst.HasIndexes := hp ▸ hfs f (by simp)
  obtain ⟨s, header, hrun, hs, hheader, hshares⟩ :=
    Search.foldlM_enter_shown (s := ⟨[], some p.inst, [b.label] ++ cs.map Block.label⟩) hds
      (fun g hg => hfs g (by simp [hg])) rfl hindexes
  obtain ⟨last, hlast, hblocks, -⟩ := exists_ofHeader hheader s.labels
  refine ⟨_, s.found ++ [last], hbs, ?_, ?_⟩
  · rw [findAll, Search.foldlM_enter_cons (Search.enter_first hb rfl) hsilent]
    simp only [List.nil_append, hrun, bind, Except.bind]
    rw [Search.finish, hs]
    simp only [hlast, bind, Except.bind, pure, Except.pure]
  · have hfound : (s.found ++ [last]).map Function.blocks = s.shares := by simp [Search.shares, hblocks]
    rw [hfound, hshares]
    simp [Search.shares, hfirst]

end BeamDisasm

import BeamDisasm.Module.Listing
import BeamDisasm.Proofs.GraphFound
import BeamDisasm.Proofs.LabelOrder
import BeamDisasm.Proofs.Numerals
import Mathlib

/-!
# The two listings of a module

A module can be listed instruction by instruction, or block by block with the links into each block. Where the code
starts with a label and its labels ascend, both are made of the same parts: the bodies of the blocks, one after the
other. Between them the second listing has the lines for the links, and an empty line behind each body. So it has the
same instructions in the same order, and it stops in the same block. Its fault is the same, unless a link comes from a
label whose number is too long: the line for this link may stand before the fault of the first listing.
-/
namespace BeamDisasm

/-- The instruction that gives a place in the code its number. -/
def Instruction.mark (n : Nat) : Instruction :=
  ⟨(Operation.find? 1).get rfl, [.literal n]⟩

@[simp] theorem Instruction.text_mark (n : Nat) (m : Module) (notes : List String) :
    (mark n).text m notes = (Text.decimal n).map fun s => "label" ++ s ++ ":" := rfl

namespace Module

/-- The lines of code that is put together are the lines of its parts, the first fault coming first. -/
theorem codeLines_append (m : Module) (xs ys : List Instruction) :
    m.codeLines (xs ++ ys) = m.codeLines xs >>= fun s => (m.codeLines ys).map (s ++ ·) := by
  induction xs with
  | nil => cases h : m.codeLines ys <;> simp [codeLines, h, bind, Except.bind, Except.map]
  | cons x xs ih =>
      simp only [List.cons_append, codeLines, ih]
      cases x.text m [] with
      | error e => rfl
      | ok s =>
          cases m.codeLines xs with
          | error e => rfl
          | ok t =>
              cases m.codeLines ys with
              | error e => rfl
              | ok u => simp [bind, Except.bind, pure, Except.pure, Except.map, String.append_assoc]

/-- The lines of code in parts, part by part. -/
theorem codeLines_flatten (m : Module) (parts : List (List Instruction)) :
    m.codeLines parts.flatten = (parts.mapM m.codeLines).map String.join := by
  induction parts with
  | nil => rfl
  | cons part parts ih =>
      rw [List.flatten_cons, codeLines_append, ih, List.mapM_cons]
      cases m.codeLines part with
      | error e => rfl
      | ok s =>
          cases parts.mapM m.codeLines with
          | error e => rfl
          | ok ss => simp [bind, Except.bind, pure, Except.pure, Except.map]

end Module

namespace Block

variable {b : Block} {m : Module}

/-- The numbers of the labels that a block is reached from. -/
def sources (b : Block) : List Int :=
  b.inRefs.filterMap fun
    | .number n => some n
    | _ => none

/-- No link into the block comes from a label whose number is too long. -/
def ShortSources (b : Block) : Prop :=
  ∀ n ∈ b.sources, Text.Short n

instance (b : Block) : Decidable b.ShortSources :=
  inferInstanceAs (Decidable (∀ n ∈ b.sources, _))

/-- A line for each link into a block. -/
def callLines (b : Block) : String :=
  String.join (b.sources.map fun n => "; => Called from label" ++ Text.digits n ++ "\n")

/-- The label and the instructions of a block in a module, without notes. -/
def plainBody (m : Module) (b : Block) : Except Fault String :=
  b.body fun p => p.inst.text m []

/-- A block between the lines for its links and an empty line, where the lines can be written. -/
def framed (m : Module) (b : Block) : Except Fault String :=
  if b.ShortSources then (b.plainBody m).map fun body => b.callLines ++ body ++ "\n" else .error .numeralTooLong

theorem inLines_numbers (ns : List Int) :
    inLines (ns.map .number) = if ∀ n ∈ ns, Text.Short n then
      .ok (String.join (ns.map fun n => "; => Called from label" ++ Text.digits n ++ "\n"))
    else .error .numeralTooLong := by
  induction ns with
  | nil => rfl
  | cons n ns ih =>
      rw [List.map_cons, inLines, ih, Index.decimal]
      by_cases hn : Text.Short n
      · rw [Text.decimal_of_short hn]
        by_cases hns : ∀ k ∈ ns, Text.Short k
        · simp [hn, if_pos hns, bind, Except.bind, pure, Except.pure]
        · simp [hn, if_neg hns, bind, Except.bind]
      · rw [Text.decimal_of_not_short hn]
        simp [hn, bind, Except.bind]

/-- The lines for links from numbers are there unless a number is too long. -/
theorem inLines_inRefs (h : ∀ i ∈ b.inRefs, ∃ n, i = .number n) :
    inLines b.inRefs = if b.ShortSources then .ok b.callLines else .error .numeralTooLong := by
  have hrefs : b.inRefs = b.sources.map .number := by
    unfold sources
    generalize b.inRefs = is at h
    induction is with
    | nil => rfl
    | cons i is ih =>
        obtain ⟨n, rfl⟩ := h i (by simp)
        simpa using ih fun j hj => h j (by simp [hj])
  rw [hrefs, inLines_numbers]
  rfl

/-- A block without remarks is written as its links, its body and an empty line. -/
theorem text_eq (hnotes : b.notes = []) (hcallers : b.callers = []) (hrefs : ∀ i ∈ b.inRefs, ∃ n, i = .number n)
    (m : Module) : b.text m (fun _ => []) = b.framed m := by
  have hremarks : b.remarkLines = "" := by simp [remarkLines, hnotes, hcallers]
  simp only [text, textBy, inLines_inRefs hrefs, hremarks, framed, plainBody]
  split_ifs with hshort
  · cases b.body fun p => p.inst.text m [] with
    | error e => rfl
    | ok body => simp [bind, Except.bind, pure, Except.pure, Except.map]
  · rfl

theorem instLines_eq (m : Module) (ps : List Placed) :
    instLines (fun p => p.inst.text m []) ps = m.codeLines (ps.map (·.inst)) := by
  induction ps with
  | nil => rfl
  | cons p ps ih => simp only [instLines, List.map_cons, Module.codeLines, ih]

/-- The body of a block lists the code that it was cut from. -/
theorem plainBody_eq {n : Nat} (hlabel : b.label = .number n) (m : Module) :
    b.plainBody m = m.codeLines (.mark n :: b.insts.map (·.inst)) := by
  simp only [plainBody, body, hlabel, instLines_eq, Module.codeLines, Instruction.text_mark, Index.decimal]
  cases Text.decimal n with
  | error e => rfl
  | ok label =>
      cases m.codeLines (b.insts.map (·.inst)) with
      | error e => rfl
      | ok s => simp [bind, Except.bind, pure, Except.pure, Except.map, String.append_assoc]

/-- A block that has a body has a label that can be written. -/
theorem short_of_plainBody {n : Int} {body : String} (hlabel : b.label = .number n) (h : b.plainBody m = .ok body) :
    Text.Short n := by
  rw [plainBody, Block.body, hlabel] at h
  obtain ⟨s, hs, -⟩ := exists_of_bind h
  exact (Text.decimal_eq_ok_iff.mp hs).1

/-- Blocks list the code that they were cut from, with the labels that they have. -/
theorem mapM_plainBody {bs : List Block} {labels : List Nat} (h : bs.map Block.label = labels.map fun n => .number n)
    (m : Module) : bs.mapM (plainBody m) =
      (List.zipWith (fun n b => .mark n :: b.insts.map (·.inst)) labels bs).mapM m.codeLines := by
  induction bs generalizing labels with
  | nil => simp
  | cons b bs ih =>
      cases labels with
      | nil => simp at h
      | cons n labels =>
          simp only [List.map_cons, List.cons.injEq] at h
          rw [List.mapM_cons, List.zipWith_cons_cons, List.mapM_cons, plainBody_eq h.1, ih h.2]

/-- Code that starts with a label is its labels with what stands behind each. -/
theorem flatten_parts {code : List Instruction} (hstart : code.head?.map Instruction.isLabel = some true) :
    (List.zipWith (fun i ps => i :: ps.map Placed.inst) (code.filter Instruction.isLabel)
      ((cut (placeFrom 0 code)).2.map (·.2))).flatten = code := by
  have hcode := map_inst_placeFrom 0 code
  have hnone : (cut (placeFrom 0 code)).1 = [] := by
    cases code with
    | nil => rfl
    | cons i code =>
        have hi : i.isLabel = true := by simpa using hstart
        rw [placeFrom, cut_cons_label hi]
  have hflat := cut_flatten (placeFrom 0 code)
  rw [hnone, List.nil_append] at hflat
  rw [← map_inst_parts, List.zipWith_map, List.zipWith_self]
  conv_rhs => rw [← hcode, ← hflat, List.map_flatMap, List.flatMap_def]
  rfl

end Block

namespace Analysis

section Blocks

variable {m : Module} {bs : List Block} (h : ∀ b ∈ bs, b.text m (fun _ => []) = b.framed m)
include h

/-- Blocks one after the other, each around its body. -/
theorem blockTexts_of_bodies (hshort : ∀ b ∈ bs, b.ShortSources) {bodies : List String}
    (hbodies : bs.mapM (Block.plainBody m) = .ok bodies) : blockTexts m (fun _ => []) bs =
      .ok (String.join (List.zipWith (fun b body => b.callLines ++ body ++ "\n") bs bodies)) := by
  have hall := forall₂_of_mapM hbodies
  clear hbodies
  induction hall with
  | nil => rfl
  | @cons b body bs bodies hb _ ih =>
      rw [blockTexts, h b (by simp), Block.framed, if_pos (hshort b (by simp)), hb,
        ih (fun c hc => h c (by simp [hc])) fun c hc => hshort c (by simp [hc])]
      simp [bind, Except.bind, pure, Except.pure, Except.map]

/-- Blocks up to one without a body stop there, if no line for a link stops them before. -/
theorem blockTexts_of_fault {before after : List Block} {b : Block} {e : Fault} (hbs : bs = before ++ b :: after)
    (hbefore : ∀ c ∈ before, ∃ body, c.plainBody m = .ok body) (hb : b.plainBody m = .error e) :
    blockTexts m (fun _ => []) bs =
      .error (if ∀ c ∈ before ++ [b], c.ShortSources then e else .numeralTooLong) := by
  subst hbs
  induction before with
  | nil =>
      rw [List.nil_append, blockTexts, h b (by simp), Block.framed, hb]
      by_cases hshort : b.ShortSources <;> simp [hshort, Except.map, bind, Except.bind]
  | cons c before ih =>
      obtain ⟨body, hbody⟩ := hbefore c (by simp)
      rw [List.cons_append, blockTexts, h c (by simp), Block.framed, hbody,
        ih (fun d hd => hbefore d (by simp [hd])) fun d hd => h d (by
          rw [List.cons_append]
          exact List.mem_cons_of_mem c hd)]
      by_cases hshort : c.ShortSources
      · have hall : (∀ d ∈ before ++ [b], d.ShortSources) ↔ ∀ d ∈ c :: before ++ [b], d.ShortSources := by
          rw [List.cons_append, List.forall_mem_cons, and_iff_right hshort]
        rw [if_pos hshort]
        exact congrArg Except.error (if_congr hall rfl rfl)
      · simp [hshort, bind, Except.bind]

end Blocks

section Built

variable {m : Module} {code : List Instruction} {labels : List Nat} {a : Analysis} {warnings : Nat}

/-- The blocks of an analysed module whose labels ascend are the parts of its code, without remarks, and all links
into them come from labels of blocks. -/
theorem blocks_of_build (hcode : m.code = some code) (hmarks : code.filter Instruction.isLabel = labels.map .mark)
    (hascending : labels.Pairwise (· < ·)) (hbuild : build m = .ok (a, warnings)) :
    a.blocks.map Block.label = labels.map (fun n => .number n) ∧
      a.blocks.map Block.insts = (Block.cut (Block.placeFrom 0 code)).2.map (·.2) ∧
      ∀ b ∈ a.blocks, b.notes = [] ∧ b.callers = [] ∧
        ∀ i ∈ b.inRefs, ∃ c ∈ a.blocks, ∃ n, c.label = .number n ∧ i = .number n := by
  have hnumbers : NumberLabels code (labels.map Int.ofNat) := by
    rw [NumberLabels, hmarks, List.map_map, List.map_map]
    rfl
  obtain ⟨bs, hbs, hblocks, hinsts, hfresh⟩ := Block.itemize_of_ascending hnumbers
    (List.pairwise_map.mpr (hascending.imp Int.ofNat_lt.mpr))
  obtain ⟨code', bs', fs, hcode', hbs', hfs, rfl⟩ := exists_of_build hbuild
  obtain rfl : code = code' := Option.some.inj (hcode.symm.trans hcode')
  obtain rfl : bs = bs' := Except.ok.inj (hbs.symm.trans hbs')
  have hmap := Graph.map_unlinked_ofFunctions bs fs
  have hspans := Graph.ofFunctions_spans hblocks.numbered hfresh hfs
  have hcs := hspans.sameCode.numbered hblocks.numbered
  refine ⟨?_, ?_, ?_⟩
  · rw [hcs.labels_eq, List.map_map]
    rfl
  · rw [← hinsts]
    simpa [Function.comp_def, Block.unlinked] using congrArg (List.map Block.insts) hmap
  · intro b hb
    obtain ⟨c, hc, heq⟩ := List.mem_map.mp (hmap ▸ List.mem_map_of_mem hb : b.unlinked ∈ bs.map Block.unlinked)
    have hnotes : c.unlinked.notes = b.unlinked.notes := congrArg Block.notes heq
    have hcallers : c.unlinked.callers = b.unlinked.callers := congrArg Block.callers heq
    have hplain := hfresh c hc
    refine ⟨?_, ?_, ?_⟩
    · exact hnotes.symm.trans (congrArg Block.notes hplain)
    · exact hcallers.symm.trans (congrArg Block.callers hplain)
    · intro i hi
      obtain ⟨n, hn, hbn⟩ := hcs.label_mem hb
      have hfind := hcs.find?_of_mem hb hbn
      rw [← Block.ins_of_find? hfind] at hi
      obtain ⟨k, position, rfl, hlink⟩ := (hspans.mem_ins_iff n (hblocks.numbered.find?_isSome_iff.mpr hn) i).mp hi
      obtain ⟨c, hc⟩ := Option.isSome_iff_exists.mp (Block.defines_of_outs (List.ne_nil_of_mem hlink))
      exact ⟨c, List.mem_of_find?_eq_some hc, k, Block.label_of_find? hc, rfl⟩

/-- A block of such a module is written around its body. -/
theorem block_text_of_build (hcode : m.code = some code) (hmarks : code.filter Instruction.isLabel = labels.map .mark)
    (hascending : labels.Pairwise (· < ·)) (hbuild : build m = .ok (a, warnings)) :
    ∀ b ∈ a.blocks, b.text m (fun _ => []) = b.framed m := by
  obtain ⟨-, -, hplain⟩ := blocks_of_build hcode hmarks hascending hbuild
  intro b hb
  obtain ⟨hnotes, hcallers, hrefs⟩ := hplain b hb
  refine Block.text_eq hnotes hcallers (fun i hi => ?_) m
  obtain ⟨_, _, n, _, hn⟩ := hrefs i hi
  exact ⟨n, hn⟩

/-- The listing by blocks of a module without notes. -/
theorem text_of_build (hbuild : build m = .ok (a, warnings)) {name : Option String} (hname : m.name = .ok name) :
    a.text = (blockTexts m (fun _ => []) a.blocks).map ("; Module: " ++ Module.orNone name ++ "\n\n" ++ ·) := by
  have hnew : a.module = m ∧ a.notes = [] := by
    obtain ⟨_, _, _, -, -, -, rfl⟩ := exists_of_build hbuild
    exact ⟨rfl, rfl⟩
  have hnotes : a.notesAt = fun _ => [] := by
    funext position
    simp [notesAt, hnew.2]
  rw [text, hnew.1, hname, hnotes]
  cases blockTexts m (fun _ => []) a.blocks <;> rfl

/-- The listing by instructions is the bodies of the blocks. -/
theorem assembly_eq (hcode : m.code = some code) (hstart : code.head?.map Instruction.isLabel = some true)
    (hmarks : code.filter Instruction.isLabel = labels.map .mark)
    (hlabels : a.blocks.map Block.label = labels.map (fun n => .number n))
    (hinsts : a.blocks.map Block.insts = (Block.cut (Block.placeFrom 0 code)).2.map (·.2)) :
    m.assembly = (a.blocks.mapM (Block.plainBody m)).map String.join := by
  have hparts := Block.flatten_parts hstart
  rw [hmarks, ← hinsts, List.zipWith_map] at hparts
  rw [Block.mapM_plainBody hlabels, ← Module.codeLines_flatten, hparts, Module.assembly, hcode]

/-- Links come from labels that can be written where all blocks have a body. -/
theorem shortSources_of_bodies {bodies : List String} (hbodies : a.blocks.mapM (Block.plainBody m) = .ok bodies)
    {b : Block} (hrefs : ∀ i ∈ b.inRefs, ∃ c ∈ a.blocks, ∃ n, c.label = .number n ∧ i = .number n) :
    b.ShortSources := by
  intro n hn
  obtain ⟨i, hi, heq⟩ := List.mem_filterMap.mp hn
  obtain ⟨c, hc, k, hlabel, rfl⟩ := hrefs i hi
  obtain ⟨body, -, hbody⟩ := exists_right_of_forall₂ (forall₂_of_mapM hbodies) hc
  obtain rfl : k = n := Option.some.inj heq
  exact Block.short_of_plainBody hlabel hbody

end Built

/-- The code of a function that jumps to its own start. -/
def loop : List Instruction :=
  assembled [(1, [.literal 1]), (2, [.atom 1, .atom 2, .literal 0]), (1, [.literal 2]), (61, [.label 2])]

/-- A module of this one function. -/
def looping : Module :=
  { atoms := some ⟨[AtomTable.placeholder, [109], [102]]⟩, code := some loop }

/-- Code with a register that cannot be written, and a jump to it from a label whose number is too long. -/
def farLoop : List Instruction :=
  assembled [(1, [.literal 1]), (2, [.atom 1, .atom 2, .literal 0]), (1, [.literal 2]),
    (64, [.xreg (.raw [1, 0]), .xreg (.number 0)]), (1, [.literal Text.firstLong]), (61, [.label 2])]

/-- A module of this code. -/
def farLooping : Module :=
  { atoms := some ⟨[AtomTable.placeholder, [109], [102]]⟩, code := some farLoop }

end Analysis

end BeamDisasm

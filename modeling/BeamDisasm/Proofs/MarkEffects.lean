import BeamDisasm.Proofs.CallerMarks
import BeamDisasm.Proofs.Signatures

/-!
# What marks depend on and what they change

The marks of a module follow from the code of the modules at hand: from the modules themselves, their functions, and
the labels and instructions of their blocks. Making marks changes none of these. So the marks of a module are the same
before and after others have been made, and callers only ever come in addition.
-/
namespace BeamDisasm.Analysis

open Block (SameCode)

/-! ## Marks follow from the code -/

/-- What marks leave alone: the module, its functions, and the code of its blocks. -/
def frame (a : Analysis) : Module × List Function × List (Index × List Placed) :=
  (a.module, a.functions, a.blocks.map Block.code)

theorem module_of_frame {a a' : Analysis} (h : a.frame = a'.frame) : a.module = a'.module :=
  (Prod.mk.inj h).1

theorem functions_of_frame {a a' : Analysis} (h : a.frame = a'.frame) : a.functions = a'.functions :=
  (Prod.mk.inj (Prod.mk.inj h).2).1

theorem sameCode_of_frame {a a' : Analysis} (h : a.frame = a'.frame) : SameCode a.blocks a'.blocks :=
  (Prod.mk.inj (Prod.mk.inj h).2).2

/-- Looking a block up for its label needs the code only. -/
theorem get_bind_congr {bs cs : List Block} (h : SameCode cs bs) {α : Type} (k : Index → Except Fault α) (i : Index) :
    (Block.get cs i >>= fun b => k b.label) = (Block.get bs i >>= fun b => k b.label) := by
  have hmap := h.find?_map i
  unfold Block.get
  cases hcs : Block.find? cs i with
  | none =>
      rw [hcs, Option.map_none] at hmap
      rw [Option.map_eq_none_iff.mp hmap.symm]
  | some c =>
      rw [hcs, Option.map_some] at hmap
      obtain ⟨b, hb, hcode⟩ := Option.map_eq_some_iff.mp hmap.symm
      have hlabel : b.label = c.label := congrArg Prod.fst hcode
      rw [hb]
      exact congrArg k hlabel.symm

theorem entryOfSignature_congr {a a' : Analysis} (h : a.frame = a'.frame) (key : String) :
    a.entryOfSignature key = a'.entryOfSignature key := by
  unfold entryOfSignature
  rw [module_of_frame h, functions_of_frame h]
  refine bind_congr fun found => ?_
  cases found with
  | none => rfl
  | some label => exact get_bind_congr (sameCode_of_frame h) (fun i => .ok (some i)) label

theorem signatures_congr {as as' : List Analysis} (h : as.map frame = as'.map frame) (n : Nat) :
    signatures n as = signatures n as' := by
  induction as generalizing as' n with
  | nil =>
      rw [List.map_eq_nil_iff.mp h.symm]
  | cons a as ih =>
      cases as' with
      | nil => simp at h
      | cons a' as' =>
          rw [List.map_cons, List.map_cons, List.cons.injEq] at h
          rw [signatures, signatures, module_of_frame h.1, functions_of_frame h.1, ih h.2]

/-- Two contexts that differ in remarks and links only. -/
structure Context.Agrees (c c' : Context) : Prop where
  own : c.own.frame = c'.own.frame
  entries : c.entries = c'.entries
  others : c.others.map frame = c'.others.map frame
  table : c.table = c'.table

namespace Context.Agrees

variable {c c' : Context} (h : c.Agrees c')

include h

theorem remoteCallMark_eq (current : Option Function) (p : Placed) :
    remoteCallMark c current p = remoteCallMark c' current p := by
  unfold remoteCallMark
  rw [module_of_frame h.own, h.table]
  refine bind_congr fun target => bind_congr fun key => ?_
  cases findLast? c'.table key with
  | none => rfl
  | some n =>
      have hother : c.others[n]?.map frame = c'.others[n]?.map frame := by
        rw [← List.getElem?_map, ← List.getElem?_map, h.others]
      cases current with
      | none => rfl
      | some f =>
          cases ho : c.others[n]? with
          | none =>
              rw [ho, Option.map_none] at hother
              simp only [Option.map_eq_none_iff.mp hother.symm, ho]
          | some o =>
              rw [ho, Option.map_some] at hother
              obtain ⟨o', ho', hframe⟩ := Option.map_eq_some_iff.mp hother.symm
              simp only [ho, ho', entryOfSignature_congr hframe.symm]

theorem caseMarks_eq (byArity : Bool) (source : Index) (part : Member × Member) :
    caseMarks c byArity source part = caseMarks c' byArity source part := by
  have hnote : caseNote c byArity source part.1 = caseNote c' byArity source part.1 := by
    unfold caseNote caseKey
    rw [module_of_frame h.own]
  unfold caseMarks
  rw [hnote]
  refine bind_congr fun target => ?_
  cases caseNote c' byArity source part.1 with
  | error e => exact get_bind_congr (sameCode_of_frame h.own) (fun _ => .ok []) target
  | ok note => exact get_bind_congr (sameCode_of_frame h.own) (fun i => .ok [Mark.block i note]) target

theorem instMarks_eq (current : Option Function) (source : Index) (p : Placed) :
    instMarks c current source p = instMarks c' current source p := by
  have hlocal : localCallMarks c p = localCallMarks c' p := by
    unfold localCallMarks
    rw [h.entries, module_of_frame h.own]
  have hswitch : ∀ byArity, switchMarks c byArity source p = switchMarks c' byArity source p := by
    intro byArity
    unfold switchMarks
    simp only [h.caseMarks_eq]
  unfold instMarks remoteCallMarks
  rw [hlocal, h.remoteCallMark_eq, hswitch, hswitch]

theorem blockMarks_eq {bs bs' : List Block} (hcode : SameCode bs bs') (current : Option Function) :
    blockMarks c current bs = blockMarks c' current bs' := by
  induction bs generalizing bs' current with
  | nil =>
      rw [List.map_eq_nil_iff.mp (show bs'.map Block.code = [] from hcode.symm)]
      rfl
  | cons b bs ih =>
      cases bs' with
      | nil => simp [SameCode] at hcode
      | cons b' bs' =>
          rw [SameCode, List.map_cons, List.map_cons, List.cons.injEq] at hcode
          have hlabel : b.label = b'.label := congrArg Prod.fst hcode.1
          have hinsts : b.insts = b'.insts := congrArg Prod.snd hcode.1
          have hheader : ∀ f, headerMarks c b'.label f = headerMarks c' b'.label f := by
            intro f
            unfold headerMarks
            rw [module_of_frame h.own]
          have hinst : ∀ owner, instMarks c owner b'.label = instMarks c' owner b'.label :=
            fun owner => funext fun p => h.instMarks_eq owner b'.label p
          simp only [blockMarks, hlabel, hinsts, h.entries, hheader, hinst, ih hcode.2]

end Context.Agrees

/-- The marks of a module follow from the code alone. -/
theorem marks_congr {a a' : Analysis} {as as' : List Analysis} (h : a.frame = a'.frame)
    (has : as.map frame = as'.map frame) : a.marks as = a'.marks as' := by
  have hentries : a.entries = a'.entries := by
    unfold entries
    rw [functions_of_frame h]
  unfold marks
  rw [hentries, signatures_congr has]
  cases hes : a'.entries with
  | error e => rfl
  | ok es =>
      cases htable : signatures 0 as' with
      | error e => rfl
      | ok table =>
          have hagrees : Context.Agrees ⟨a, es, as, table⟩ ⟨a', es, as', table⟩ := ⟨h, rfl, has, rfl⟩
          rw [functions_of_frame h]
          exact hagrees.blockMarks_eq (sameCode_of_frame h) _

end BeamDisasm.Analysis

namespace BeamDisasm

/-! ## Callers come in addition -/

/-- The block has the same code as before, and the callers in `new` in addition to those that it had. -/
structure Block.Gains (new : Index → String → Prop) (b b' : Block) : Prop where
  code_eq : b'.code = b.code
  nodup : b.callers.Nodup → b'.callers.Nodup
  mem_iff : ∀ s, s ∈ b'.callers ↔ s ∈ b.callers ∨ new b.label s

namespace Block.Gains

variable {new new' : Index → String → Prop} {b b' b'' : Block}

theorem label_eq (h : Gains new b b') : b'.label = b.label :=
  congrArg Prod.fst h.code_eq

/-- A change that leaves code and callers alone. -/
theorem of_eq (hnew : ∀ s, ¬ new b.label s) (hcode : b'.code = b.code) (hcallers : b'.callers = b.callers) :
    Gains new b b' :=
  ⟨hcode, fun h => hcallers ▸ h, fun s => by simp [hcallers, hnew]⟩

theorem trans (h : Gains new b b') (h' : Gains new' b' b'') : Gains (fun l s => new l s ∨ new' l s) b b'' where
  code_eq := h'.code_eq.trans h.code_eq
  nodup hb := h'.nodup (h.nodup hb)
  mem_iff s := by rw [h'.mem_iff, h.mem_iff, h.label_eq, or_assoc]

theorem addCaller (hnew : ∀ s, new b.label s ↔ s = caller) : Gains new b (b.addCaller caller) := by
  unfold Block.addCaller
  split
  · next hold =>
    have hmem : caller ∈ b.callers := by simpa using hold
    refine ⟨rfl, id, fun s => ?_⟩
    rw [hnew]
    constructor
    · exact .inl
    · rintro (hs | rfl)
      · exact hs
      · exact hmem
  · next hold =>
    have hmem : caller ∉ b.callers := by simpa using hold
    refine ⟨rfl, fun hnodup => ?_, fun s => by simp [hnew]⟩
    rw [← List.concat_eq_append]
    exact hnodup.concat hmem

end Block.Gains

namespace Analysis

/-- The module is the same as before but for callers in `new` and for notes. -/
structure Gains (new : Index → String → Prop) (a a' : Analysis) : Prop where
  module_eq : a'.module = a.module
  functions_eq : a'.functions = a.functions
  blocks_eq : ∃ change, a'.blocks = a.blocks.map change ∧ ∀ b ∈ a.blocks, Block.Gains new b (change b)

namespace Gains

variable {new new' : Index → String → Prop} {a a' a'' : Analysis}

theorem frame_eq (h : Gains new a a') : a'.frame = a.frame := by
  obtain ⟨change, hblocks, hchange⟩ := h.blocks_eq
  have hcode : a'.blocks.map Block.code = a.blocks.map Block.code := by
    rw [hblocks, List.map_map]
    exact List.map_congr_left fun b hb => (hchange b hb).code_eq
  rw [frame, frame, h.module_eq, h.functions_eq, hcode]

theorem of_blocks_eq (hnew : ∀ l s, ¬ new l s) (hmodule : a'.module = a.module)
    (hfunctions : a'.functions = a.functions) (hblocks : a'.blocks = a.blocks) : Gains new a a' :=
  ⟨hmodule, hfunctions, id, by rw [hblocks, List.map_id], fun b _ => .of_eq (hnew b.label) rfl rfl⟩

theorem trans (h : Gains new a a') (h' : Gains new' a' a'') : Gains (fun l s => new l s ∨ new' l s) a a'' := by
  obtain ⟨change, hblocks, hchange⟩ := h.blocks_eq
  obtain ⟨change', hblocks', hchange'⟩ := h'.blocks_eq
  refine ⟨h'.module_eq.trans h.module_eq, h'.functions_eq.trans h.functions_eq, change' ∘ change, ?_, ?_⟩
  · rw [hblocks', hblocks, List.map_map]
  · intro b hb
    have hmem : change b ∈ a'.blocks := hblocks ▸ List.mem_map_of_mem hb
    exact (hchange b hb).trans (hchange' _ hmem)

/-- A change of the blocks with a label. -/
theorem updateBlock {label : Index} {f : Block → Block}
    (hsame : ∀ b : Block, b.label.same label = true → Block.Gains new b (f b))
    (hother : ∀ b : Block, b.label.same label = false → ∀ s, ¬ new b.label s) :
    Gains new a (a.updateBlock label f) := by
  refine ⟨rfl, rfl, fun b => if b.label.same label then f b else b, rfl, fun b _ => ?_⟩
  dsimp only
  split
  · next h => exact hsame b h
  · next h => exact .of_eq (hother b (by simpa using h)) rfl rfl

end Gains

/-- Modules at their places with callers in addition to those that they had. -/
structure AllGain (new : Nat → Index → String → Prop) (as as' : List Analysis) : Prop where
  length_eq : as'.length = as.length
  gains : ∀ k a, as[k]? = some a → ∃ a', as'[k]? = some a' ∧ Gains (new k) a a'

namespace AllGain

variable {new new' : Nat → Index → String → Prop} {as as' as'' : List Analysis}

theorem refl (as : List Analysis) : AllGain (fun _ _ _ => False) as as :=
  ⟨rfl, fun _ a ha => ⟨a, ha, .of_blocks_eq (fun _ _ => id) rfl rfl rfl⟩⟩

theorem trans (h : AllGain new as as') (h' : AllGain new' as' as'') :
    AllGain (fun k l s => new k l s ∨ new' k l s) as as'' := by
  refine ⟨h'.length_eq.trans h.length_eq, fun k a ha => ?_⟩
  obtain ⟨a', ha', hgain⟩ := h.gains k a ha
  obtain ⟨a'', ha'', hgain'⟩ := h'.gains k a' ha'
  exact ⟨a'', ha'', hgain.trans hgain'⟩

theorem congr (h : AllGain new as as') (hnew : ∀ k l s, new k l s ↔ new' k l s) : AllGain new' as as' := by
  have heq : new = new' := by
    funext k l s
    exact propext (hnew k l s)
  exact heq ▸ h

theorem map_frame (h : AllGain new as as') : as'.map frame = as.map frame := by
  refine List.ext_getElem? fun k => ?_
  rw [List.getElem?_map, List.getElem?_map]
  cases ha : as[k]? with
  | none =>
      have hlength := h.length_eq
      rw [List.getElem?_eq_none_iff] at ha
      rw [List.getElem?_eq_none (by omega)]
  | some a =>
      obtain ⟨a', ha', hgain⟩ := h.gains k a ha
      rw [ha', Option.map_some, Option.map_some, hgain.frame_eq]

theorem map_module (h : AllGain new as as') : as'.map Analysis.module = as.map Analysis.module := by
  simpa [Function.comp_def, frame] using congrArg (List.map Prod.fst) h.map_frame

/-- A change of the module at one place. -/
theorem modify {i : Nat} {f : Analysis → Analysis} (hf : ∀ a, Gains (new i) a (f a))
    (hother : ∀ k, k ≠ i → ∀ l s, ¬ new k l s) : AllGain new as (as.modify i f) := by
  refine ⟨by simp, fun k a ha => ?_⟩
  rw [List.getElem?_modify, ha]
  by_cases hk : i = k
  · subst hk
    exact ⟨f a, by simp, hf a⟩
  · exact ⟨a, by simp [hk], .of_blocks_eq (hother k (Ne.symm hk)) rfl rfl rfl⟩

end AllGain

/-! ## Making marks -/

end Analysis

/-- The mark notes a caller of the function that starts at a block of the module at place `k`. -/
def Mark.Notes (mark : Mark) (k : Nat) (l : Index) (s : String) : Prop :=
  ∃ label, mark = .caller k label s ∧ l.same label = true

namespace Analysis

variable {as as' : List Analysis}

/-- Making a mark adds the caller that it notes, if it notes one. -/
theorem make_allGain (own : Nat) (as : List Analysis) (mark : Mark) :
    AllGain mark.Notes as (make own (List.range as.length) as mark) := by
  cases mark with
  | block label note =>
      have hnone : ∀ k l s, ¬ (Mark.block label note).Notes k l s := by simp [Mark.Notes]
      refine AllGain.modify (fun a => Gains.updateBlock ?_ fun b _ => hnone own b.label) fun k _ => hnone k
      exact fun b _ => .of_eq (hnone own b.label) rfl rfl
  | inst position note =>
      have hnone : ∀ k l s, ¬ (Mark.inst position note).Notes k l s := by simp [Mark.Notes]
      exact AllGain.modify (fun a => .of_blocks_eq (hnone own) rfl rfl rfl) fun k _ => hnone k
  | caller n label name =>
      have hnotes : ∀ k l s, (Mark.caller n label name).Notes k l s ↔
          k = n ∧ s = name ∧ l.same label = true := by
        intro k l s
        simp only [Mark.Notes, Mark.caller.injEq]
        grind
      rw [make]
      by_cases hn : n < as.length
      · rw [List.getElem?_range hn]
        refine AllGain.modify (fun a => Gains.updateBlock ?_ ?_) fun k hk l s h => hk ((hnotes k l s).mp h).1
        · exact fun b hb => .addCaller fun s => by rw [hnotes]; simp [hb]
        · exact fun b hb s h => by simp [((hnotes n b.label s).mp h).2.2] at hb
      · rw [List.getElem?_eq_none (by simpa using hn)]
        refine ⟨rfl, fun k a ha => ⟨a, ha, .of_blocks_eq (fun l s h => ?_) rfl rfl rfl⟩⟩
        have hlt := (List.getElem?_eq_some_iff.mp ha).1
        exact hn (((hnotes k l s).mp h).1 ▸ hlt)

theorem foldl_make_allGain (own : Nat) (marks : List Mark) (as : List Analysis) :
    AllGain (fun k l s => ∃ mark ∈ marks, mark.Notes k l s) as
      (marks.foldl (make own (List.range as.length)) as) := by
  induction marks generalizing as with
  | nil => exact (AllGain.refl as).congr (by simp)
  | cons mark marks ih =>
      have hmake := make_allGain own as mark
      have hrest := ih (make own (List.range as.length) as mark)
      rw [hmake.length_eq] at hrest
      exact (hmake.trans hrest).congr (by simp)

theorem filterMap_getElem?_range (as : List Analysis) : (List.range as.length).filterMap (as[·]?) = as := by
  induction as with
  | nil => rfl
  | cons a as ih =>
      rw [List.length_cons, List.range_succ_eq_map, List.filterMap_cons, List.filterMap_map]
      exact congrArg (a :: ·) ih

/-- One module is annotated among all: its marks are made. -/
theorem annotate_spec {i : Nat} (h : annotate as i (List.range as.length) = (as', none)) :
    ∃ a, as[i]? = some a ∧ (a.marks as).fault = none ∧
      AllGain (fun k l s => ∃ mark ∈ (a.marks as).marks, mark.Notes k l s) as as' := by
  unfold annotate at h
  rw [filterMap_getElem?_range] at h
  cases ha : as[i]? with
  | none => simp [ha] at h
  | some a =>
      simp only [ha, Prod.mk.injEq] at h
      refine ⟨a, rfl, h.2, ?_⟩
      rw [← h.1]
      exact foldl_make_allGain i _ as

/-- Annotates the modules at some places one after the other, each among all. -/
def annotateEach : List Nat → List Analysis → Except Fault (List Analysis)
  | [], as => .ok as
  | i :: is, as =>
    match annotate as i (List.range as.length) with
    | (_, some e) => .error e
    | (as', none) => annotateEach is as'

/-- All in all the marks are made that the modules had at the start. -/
theorem annotateEach_spec {is : List Nat} {cs bs : List Analysis} (hframe : cs.map frame = as.map frame)
    (h : annotateEach is cs = .ok bs) :
    (∀ i ∈ is, ∃ a, as[i]? = some a ∧ (a.marks as).fault = none) ∧
      AllGain (fun k l s => ∃ i ∈ is, ∃ a, as[i]? = some a ∧ ∃ mark ∈ (a.marks as).marks, mark.Notes k l s)
        cs bs := by
  induction is generalizing cs with
  | nil =>
      obtain rfl := Except.ok.inj h
      exact ⟨by simp, (AllGain.refl _).congr (by simp)⟩
  | cons i is ih =>
      rw [annotateEach] at h
      split at h
      · cases h
      · next cs' hstep =>
        obtain ⟨c, hc, hfault, hgain⟩ := annotate_spec hstep
        -- The marks are those of the start, since the steps so far kept the code.
        obtain ⟨a, ha, hsame⟩ : ∃ a, as[i]? = some a ∧ c.frame = a.frame := by
          have hmap := congrArg (fun fs => fs[i]?) hframe
          simp only [List.getElem?_map, hc, Option.map_some] at hmap
          obtain ⟨a, ha, heq⟩ := Option.map_eq_some_iff.mp hmap.symm
          exact ⟨a, ha, heq.symm⟩
        have hmarks := marks_congr hsame hframe
        rw [hmarks] at hfault hgain
        obtain ⟨hfaults, hrest⟩ := ih (hgain.map_frame.trans hframe) h
        refine ⟨?_, (hgain.trans hrest).congr fun k l s => ?_⟩
        · intro j hj
          rcases List.mem_cons.mp hj with rfl | hj
          · exact ⟨a, ha, hfault⟩
          · exact hfaults j hj
        · simp [ha]

end Analysis

end BeamDisasm

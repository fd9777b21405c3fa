import BeamDisasm.Command.Run
import BeamDisasm.Proofs.MarkEffects
import Mathlib

/-!
# References between modules

After all modules have been annotated, the callers at the start of a function are the functions that own a call that
leads there. None is missing for the calls behind the headers of functions.

A function owns the calls behind its own header and those in the header of the function after it. It does not contain
the latter. So a caller may be known that does not call: see `annotateEach_callers_misplaced`.
-/
namespace BeamDisasm

/-- The instruction calls the function with a signature by its entry in the import table. -/
structure Instruction.Calls (inst : Instruction) (m : Module) (signature : String) : Prop where
  isRemoteCall : inst.isRemoteCall = true
  resolves : ∃ i, inst.indexOf 1 = .ok i ∧ m.importText i = .ok (Analysis.reference signature)

namespace Analysis

variable {as bs : List Analysis} {a c : Analysis} {f g : Function} {b : Block} {p : Placed} {signature s : String}
  {k : Nat} {l : Index}

/-- The block with the label has a call of the function with the signature. -/
def CallsAt (a : Analysis) (label : Index) (signature : String) : Prop :=
  ∃ b ∈ a.blocks, b.label = label ∧ ∃ p ∈ b.insts, p.inst.Calls a.module signature

/-- The function owns a block with a call of the function with the signature. -/
def OwnsCall (a : Analysis) (f : Function) (signature : String) : Prop :=
  ∃ label, a.Owns f label ∧ a.CallsAt label signature

/-- The function has a block, the header included, with a call of the function with the signature. -/
def Contains (a : Analysis) (f : Function) (signature : String) : Prop :=
  f ∈ a.functions ∧ ∃ label ∈ f.blocks, a.CallsAt label signature

theorem marks_of_no_fault (h : (a.marks as).fault = none) :
    ∃ es table, a.entries = .ok es ∧ signatures 0 as = .ok table ∧
      a.marks as = blockMarks ⟨a, es, as, table⟩ a.functions.getLast? a.blocks := by
  unfold marks at h ⊢
  cases hes : a.entries with
  | error e => simp [hes, bind, Except.bind] at h
  | ok es =>
      cases htable : signatures 0 as with
      | error e => simp [hes, htable, bind, Except.bind] at h
      | ok table => exact ⟨es, table, rfl, rfl, rfl⟩

section Marks

variable (hbuilt : ∀ a ∈ as, a.Built) (ha : a ∈ as) (hfault : (a.marks as).fault = none)

include hbuilt ha hfault

/-- The marks for callers are those of the calls that functions own. -/
theorem caller_mem_marks_iff : Mark.caller k l s ∈ (a.marks as).marks ↔
    ∃ f signature c g, f.signature a.module = .ok s ∧ a.OwnsCall f signature ∧
      Provides as signature k c g ∧ g.blocks[1]? = some l := by
  obtain ⟨es, table, hes, htable, hmarks⟩ := marks_of_no_fault hfault
  have hsigned := (signatures_spec htable).2.1
  rw [hmarks] at hfault ⊢
  rw [caller_mem_blockMarks hfault]
  constructor
  · rintro ⟨⟨owner, b⟩, hattributed, p, hp, hremote, hmark⟩
    obtain ⟨i, key, f, o, hindex, himport, hlast, rfl, hother, hsignature, hentry⟩ :=
      caller_mem_remoteCallMarks.mp hmark
    obtain ⟨hb, howns⟩ := (attributed_iff_owns (hbuilt a ha) hes).mp hattributed
    obtain ⟨signature, c, rfl, hc, -, hbehind⟩ := (findLast?_signatures htable key k).mp hlast
    obtain rfl : c = o := Option.some.inj (hc.symm.trans hother)
    have hcmem := List.mem_of_getElem? hc
    obtain ⟨before, g, after, hfunctions, hg, hlabel, hbefore⟩ :=
      ((hbuilt c hcmem).entryOfSignature_iff (hsigned c hcmem) signature l).mp hentry
    exact ⟨f, signature, c, g, hsignature, ⟨b.label, howns, b, hb, rfl, p, hp, hremote, i, hindex, himport⟩,
      ⟨hc, hg, ⟨before, after, hfunctions, hbefore⟩, hbehind⟩, hlabel⟩
  · rintro ⟨f, signature, c, g, hsignature, ⟨_, howns, b, hb, rfl, p, hp, hcalls⟩, hprovides, hlabel⟩
    obtain ⟨hc, hg⟩ := hprovides.mem
    obtain ⟨i, hindex, himport⟩ := hcalls.resolves
    have hlast : findLast? table (reference signature) = some k :=
      (findLast?_signatures htable _ k).mpr
        ⟨signature, c, rfl, hprovides.module_eq, ⟨g, hg, hprovides.signature_eq⟩, hprovides.last⟩
    have hentry : c.entryOfSignature (reference signature) = .ok (some l) := by
      rw [(hbuilt c hc).entryOfSignature_iff (hsigned c hc)]
      obtain ⟨before, after, hfunctions, hbefore⟩ := hprovides.first
      exact ⟨before, g, after, hfunctions, hprovides.signature_eq, hlabel, hbefore⟩
    refine ⟨(some f, b), (attributed_iff_owns (hbuilt a ha) hes).mpr ⟨hb, howns⟩, p, hp, hcalls.isRemoteCall, ?_⟩
    exact caller_mem_remoteCallMarks.mpr
      ⟨i, _, f, c, hindex, himport, hlast, rfl, hprovides.module_eq, hsignature, hentry⟩

end Marks

section Annotated

variable (hbuilt : ∀ a ∈ as, a.Built) (hfault : ∀ a ∈ as, (a.marks as).fault = none)

include hfault in
theorem exists_signature (ha : a ∈ as) (hf : f ∈ a.functions) : ∃ s, f.signature a.module = .ok s := by
  obtain ⟨-, table, -, htable, -⟩ := marks_of_no_fault (hfault a ha)
  exact (signatures_spec htable).2.1 a ha f hf

include hbuilt

/-- In one module the label where a function starts tells which signature it provides. -/
theorem Provides.signature_unique {c' : Analysis} {g' : Function} {signature' : String}
    (h : Provides as signature k c g) (h' : Provides as signature' k c' g') (hl : g.blocks[1]? = some l)
    (hl' : g'.blocks[1]? = some l) : signature = signature' := by
  obtain rfl : c = c' := Option.some.inj (h.module_eq.symm.trans h'.module_eq)
  obtain rfl : g = g' := (hbuilt c h.mem.1).eq_of_mem h.mem.2 h'.mem.2 (List.mem_of_getElem? hl)
    (List.mem_of_getElem? hl')
  exact Except.ok.inj (h.signature_eq.symm.trans h'.signature_eq)

variable (hgain : AllGain (fun k l s => ∃ i ∈ List.range as.length, ∃ a, as[i]? = some a ∧
  ∃ mark ∈ (a.marks as).marks, mark.Notes k l s) as bs)

include hfault hgain

/-- A function that is provided starts at a block of the annotated module. -/
theorem exists_start (hprovides : Provides as signature k c g) :
    ∃ d t, bs[k]? = some d ∧ t ∈ d.blocks ∧ g.blocks[1]? = some t.label := by
  obtain ⟨hc, hg⟩ := hprovides.mem
  obtain ⟨es, -, hes, -, -⟩ := marks_of_no_fault (hfault c hc)
  obtain ⟨l, hl, -⟩ := (entries_spec hes).2 g hg
  obtain ⟨t, ht, rfl⟩ := (hbuilt c hc).exists_block hg (List.mem_of_getElem? hl)
  obtain ⟨d, hd, hgains⟩ := hgain.gains k c hprovides.module_eq
  obtain ⟨change, hblocks, hchange⟩ := hgains.blocks_eq
  refine ⟨d, change t, hd, hblocks ▸ List.mem_map_of_mem ht, ?_⟩
  rw [(hchange t ht).label_eq]
  exact hl

/-- Callers are known once, and they are the functions that own a call that leads there. -/
theorem callers_spec {d : Analysis} (hd : bs[k]? = some d) {t : Block} (ht : t ∈ d.blocks) :
    t.callers.Nodup ∧ ∀ s, s ∈ t.callers ↔ ∃ signature c g, Provides as signature k c g ∧
      g.blocks[1]? = some t.label ∧ ∃ a ∈ as, ∃ f ∈ a.functions, f.signature a.module = .ok s ∧
        a.OwnsCall f signature := by
  obtain ⟨c, hc⟩ : ∃ c, as[k]? = some c := by
    have hlt := (List.getElem?_eq_some_iff.mp hd).1
    rw [hgain.length_eq] at hlt
    exact ⟨_, List.getElem?_eq_getElem hlt⟩
  obtain ⟨d', hd', hgains⟩ := hgain.gains k c hc
  obtain rfl : d' = d := Option.some.inj (hd'.symm.trans hd)
  obtain ⟨change, hblocks, hchange⟩ := hgains.blocks_eq
  rw [hblocks] at ht
  obtain ⟨u, hu, rfl⟩ := List.mem_map.mp ht
  have hcbuilt := hbuilt c (List.mem_of_getElem? hc)
  have hnone : u.callers = [] := hcbuilt.callers_eq u hu
  refine ⟨(hchange u hu).nodup (by simp [hnone]), fun s => ?_⟩
  rw [(hchange u hu).mem_iff, hnone, (hchange u hu).label_eq]
  constructor
  · rintro (hs | ⟨i, -, a, hi, mark, hmark, label, rfl, hsame⟩)
    · simp at hs
    · have ha := List.mem_of_getElem? hi
      obtain ⟨f, signature, c', g, hsignature, howns, hprovides, hlabel⟩ :=
        (caller_mem_marks_iff hbuilt ha (hfault a ha)).mp hmark
      obtain rfl : c = c' := Option.some.inj (hc.symm.trans hprovides.module_eq)
      -- The mark names the label of a block, so the only block that it can refer to is the one with this label.
      have hg := hprovides.mem.2
      obtain ⟨v, hv, rfl⟩ := hcbuilt.exists_block hg (List.mem_of_getElem? hlabel)
      have heq : u.label = v.label := (hcbuilt.plain_of_entry hg hlabel v hv u.label).mp hsame
      have hf : f ∈ a.functions := by
        obtain ⟨_, hlabels, -⟩ := howns
        exact hlabels.mem
      exact ⟨signature, c, g, hprovides, heq ▸ hlabel, a, ha, f, hf, hsignature, howns⟩
  · rintro ⟨signature, c', g, hprovides, hlabel, a, ha, f, -, hsignature, howns⟩
    obtain rfl : c = c' := Option.some.inj (hc.symm.trans hprovides.module_eq)
    have hmark := (caller_mem_marks_iff hbuilt ha (hfault a ha)).mpr
      ⟨f, signature, c, g, hsignature, howns, hprovides, hlabel⟩
    have hsame : u.label.same u.label = true := (hcbuilt.plain_of_entry hprovides.mem.2 hlabel u hu u.label).mpr rfl
    obtain ⟨i, hi⟩ := List.mem_iff_getElem?.mp ha
    exact .inr ⟨i, List.mem_range.mpr (List.getElem?_eq_some_iff.mp hi).1, a, hi, _, hmark, u.label, rfl, hsame⟩

/-- A call that a function owns is known where it leads. -/
theorem known_of_ownsCall (ha : a ∈ as) (hf : f ∈ a.functions) (howns : a.OwnsCall f signature)
    (hprovides : Provides as signature k c g) :
    ∃ d t s, bs[k]? = some d ∧ t ∈ d.blocks ∧ g.blocks[1]? = some t.label ∧
      f.signature a.module = .ok s ∧ s ∈ t.callers := by
  obtain ⟨d, t, hd, ht, hstart⟩ := exists_start hbuilt hfault hgain hprovides
  obtain ⟨s, hs⟩ := exists_signature hfault ha hf
  exact ⟨d, t, s, hd, ht, hstart, hs, ((callers_spec hbuilt hfault hgain hd ht).2 s).mpr
    ⟨signature, c, g, hprovides, hstart, a, ha, f, hf, hs, howns⟩⟩

/-- All known callers contain a call that leads there, if and only if each call in a header has a function with the
signature of the function before that contains such a call. -/
theorem contained_iff :
    (∀ k d, bs[k]? = some d → ∀ t ∈ d.blocks, ∀ s ∈ t.callers, ∃ signature c g, Provides as signature k c g ∧
      g.blocks[1]? = some t.label ∧ ∃ a ∈ as, ∃ f, f.signature a.module = .ok s ∧ a.Contains f signature) ↔
    ∀ a ∈ as, ∀ f g label signature, a.Precedes f g → g.blocks[0]? = some label → a.CallsAt label signature →
      (∃ c ∈ as, c.Offers signature) →
      ∃ a' ∈ as, ∃ f', f'.signature a'.module = f.signature a.module ∧ a'.Contains f' signature := by
  constructor
  · intro h a ha f g label signature hprecedes hheader hcalls hoffers
    obtain ⟨k, c, g', hprovides⟩ := exists_provides hoffers
    have howns : a.OwnsCall f signature := ⟨label, .inr ⟨g, hprecedes, hheader⟩, hcalls⟩
    obtain ⟨d, t, s, hd, ht, hstart, hs, hknown⟩ :=
      known_of_ownsCall hbuilt hfault hgain ha hprecedes.mem.1 howns hprovides
    obtain ⟨signature', c', g'', hprovides', hstart', a', ha', f', hs', hcontains⟩ := h k d hd t ht s hknown
    obtain rfl := hprovides.signature_unique hbuilt hprovides' hstart hstart'
    exact ⟨a', ha', f', hs'.trans hs.symm, hcontains⟩
  · intro h k d hd t ht s hs
    obtain ⟨signature, c, g, hprovides, hstart, a, ha, f, hf, hsignature, label, howns, hcalls⟩ :=
      ((callers_spec hbuilt hfault hgain hd ht).2 s).mp hs
    refine ⟨signature, c, g, hprovides, hstart, ?_⟩
    obtain ⟨-, i, -, hplace⟩ | ⟨g', hprecedes, hheader⟩ := howns
    · exact ⟨a, ha, f, hsignature, hf, label, List.mem_of_getElem? hplace, hcalls⟩
    · obtain ⟨hc, hg⟩ := hprovides.mem
      obtain ⟨a', ha', f', hsame, hcontains⟩ :=
        h a ha f g' label signature hprecedes hheader hcalls ⟨c, hc, g, hg, hprovides.signature_eq⟩
      exact ⟨a', ha', f', hsame.trans hsignature, hcontains⟩

end Annotated

/-- After the modules have been annotated one by one, the calls behind the headers of functions are known at the
functions that they lead to, and the callers that are known are the functions that own such a call. They all contain
one, unless the header of a function has a call that is contained in no function with the signature of the one
before. -/
theorem annotateEach_callers (hbuild : ∀ a ∈ as, ∃ m warnings, build m = .ok (a, warnings))
    (h : annotateEach (List.range as.length) as = .ok bs) :
    bs.map frame = as.map frame ∧
    (∀ a ∈ as, ∀ f ∈ a.functions, ∀ b ∈ a.blocks, ∀ i, 1 ≤ i → f.blocks[i]? = some b.label →
      ∀ p ∈ b.insts, ∀ signature, p.inst.Calls a.module signature → (∃ c ∈ as, c.Offers signature) →
      ∃ k c g d t s, Provides as signature k c g ∧ bs[k]? = some d ∧ t ∈ d.blocks ∧
        g.blocks[1]? = some t.label ∧ f.signature a.module = .ok s ∧ s ∈ t.callers) ∧
    (∀ k d, bs[k]? = some d → ∀ t ∈ d.blocks, t.callers.Nodup ∧ ∀ s, s ∈ t.callers ↔
      ∃ signature c g, Provides as signature k c g ∧ g.blocks[1]? = some t.label ∧
        ∃ a ∈ as, ∃ f ∈ a.functions, f.signature a.module = .ok s ∧ a.OwnsCall f signature) ∧
    ((∀ k d, bs[k]? = some d → ∀ t ∈ d.blocks, ∀ s ∈ t.callers, ∃ signature c g, Provides as signature k c g ∧
        g.blocks[1]? = some t.label ∧ ∃ a ∈ as, ∃ f, f.signature a.module = .ok s ∧ a.Contains f signature) ↔
      ∀ a ∈ as, ∀ f g label signature, a.Precedes f g → g.blocks[0]? = some label → a.CallsAt label signature →
        (∃ c ∈ as, c.Offers signature) →
        ∃ a' ∈ as, ∃ f', f'.signature a'.module = f.signature a.module ∧ a'.Contains f' signature) := by
  have hbuilt : ∀ a ∈ as, a.Built := by
    intro a ha
    obtain ⟨m, warnings, hm⟩ := hbuild a ha
    exact built_of_build hm
  obtain ⟨hfaults, hgain⟩ := annotateEach_spec rfl h
  have hfault : ∀ a ∈ as, (a.marks as).fault = none := by
    intro a ha
    obtain ⟨i, hi⟩ := List.mem_iff_getElem?.mp ha
    obtain ⟨a', ha', hfault⟩ := hfaults i (List.mem_range.mpr (List.getElem?_eq_some_iff.mp hi).1)
    rw [hi, Option.some.injEq] at ha'
    exact ha' ▸ hfault
  refine ⟨hgain.map_frame, ?_, fun k d hd t ht => callers_spec hbuilt hfault hgain hd ht,
    contained_iff hbuilt hfault hgain⟩
  intro a ha f hf b hb i hi hplace p hp signature hcalls hoffers
  obtain ⟨k, c, g, hprovides⟩ := exists_provides hoffers
  have howns : a.OwnsCall f signature := ⟨b.label, .inl ⟨hf, i, hi, hplace⟩, b, hb, rfl, p, hp, hcalls⟩
  obtain ⟨d, t, s, hknown⟩ := known_of_ownsCall hbuilt hfault hgain ha hf howns hprovides
  exact ⟨k, c, g, d, t, s, hprovides, hknown⟩

/-- The code of a module with one function, whose body is given. -/
def oneFunction (body : List (Nat × List Term)) : List Instruction :=
  assembled ([(1, [Term.literal 1]), (2, [.atom 1, .atom 2, .literal 0]), (1, [.literal 2])] ++ body)

/-- A module with the function `alpha:go/0`, which calls `beta:run/0`. -/
def client : Module :=
  { atoms := some ⟨AtomTable.placeholder :: ["alpha", "go", "beta", "run"].map Bytes.ofText⟩
    imports := some [⟨3, 4, 0⟩]
    code := some (oneFunction [(7, [.literal 0, .literal 0]), (19, [])]) }

/-- A module with the function `beta:run/0`. -/
def server : Module :=
  { atoms := some ⟨AtomTable.placeholder :: ["beta", "run"].map Bytes.ofText⟩
    code := some (oneFunction [(19, [])]) }

/-- The function of each of the two modules. -/
def theFunction : Function :=
  { module := .number 1, name := .number 2, arity := .number 0, blocks := [.number 1, .number 2] }

/-- The module `beta` is there twice, so the call leads to the last module. -/
theorem annotateEach_callers_last_module :
    ∃ as bs, (∀ a ∈ as, ∃ m warnings, build m = .ok (a, warnings)) ∧
      as.map Analysis.module = [client, server, server] ∧ annotateEach (List.range as.length) as = .ok bs ∧
      ∃ k c g d t, Provides as "beta:run/0" k c g ∧ bs[k]? = some d ∧ t ∈ d.blocks ∧
        g.blocks[1]? = some t.label ∧ "alpha:go/0" ∈ t.callers := by
  obtain ⟨a, o, bs, hclient, hserver, hmodule, hmodule', hrun, hfunctions, hfunctions', b, hb, hlabel, p, hp,
      hremote, hindex⟩ :
      ∃ a o bs, build client = .ok (a, 0) ∧ build server = .ok (o, 0) ∧ a.module = client ∧ o.module = server ∧
        annotateEach (List.range 3) [a, o, o] = .ok bs ∧ a.functions = [theFunction] ∧
        o.functions = [theFunction] ∧ ∃ b ∈ a.blocks, b.label = .number 2 ∧ ∃ p ∈ b.insts,
          p.inst.isRemoteCall = true ∧ p.inst.indexOf 1 = .ok (.number 0) :=
    ⟨_, _, _, by cbv, by cbv, by cbv, by cbv, by cbv, by cbv, by cbv, _,
      List.mem_cons_of_mem _ (List.mem_cons_self ..), by cbv, _, List.mem_cons_self .., by cbv, by cbv⟩
  have hbuild : ∀ x ∈ [a, o, o], ∃ m warnings, build m = .ok (x, warnings) := by
    simp only [List.mem_cons, List.not_mem_nil, or_false]
    rintro x (rfl | rfl | rfl)
    · exact ⟨client, 0, hclient⟩
    · exact ⟨server, 0, hserver⟩
    · exact ⟨server, 0, hserver⟩
  have hcalls : p.inst.Calls a.module "beta:run/0" := by
    refine ⟨hremote, .number 0, hindex, ?_⟩
    rw [hmodule]
    cbv
  have hoffers : ∃ x ∈ [a, o, o], x.Offers "beta:run/0" := by
    refine ⟨o, by simp, theFunction, by simp [hfunctions'], ?_⟩
    rw [hmodule']
    cbv
  have hsignature : theFunction.signature a.module = .ok "alpha:go/0" := by
    rw [hmodule]
    cbv
  obtain ⟨k, c, g, d, t, s, hprovides, hd, ht, hentry, hs, hmem⟩ := (annotateEach_callers hbuild hrun).2.1 a
    (by simp) theFunction (by simp [hfunctions]) b hb 1 (Nat.le_refl 1) (by rw [hlabel]; rfl) p hp _ hcalls hoffers
  rw [hsignature, Except.ok.injEq] at hs
  exact ⟨[a, o, o], bs, hbuild, by simp [hmodule, hmodule'], hrun, k, c, g, d, t, hprovides, hd, ht, hentry, hs ▸ hmem⟩

/-- A module with the functions `alpha:innocent/0` and `alpha:go/0`. The call of `beta:run/0` stands in the header of
the second. -/
def misplaced : Module :=
  { atoms := some ⟨AtomTable.placeholder :: ["alpha", "innocent", "beta", "run", "go"].map Bytes.ofText⟩
    imports := some [⟨3, 4, 0⟩]
    code := some (oneFunction [(19, []), (1, [.literal 3]), (7, [.literal 0, .literal 0]),
      (2, [.atom 1, .atom 5, .literal 0]), (1, [.literal 4]), (19, [])]) }

/-- The second function of the module. -/
def secondFunction : Function :=
  { module := .number 1, name := .number 5, arity := .number 0, blocks := [.number 3, .number 4] }

/-- A function is known as a caller, though no function with its signature contains a call. -/
theorem annotateEach_callers_misplaced :
    ∃ a o bs d t, build misplaced = .ok (a, 0) ∧ build server = .ok (o, 0) ∧
      annotateEach (List.range 2) [a, o] = .ok bs ∧ bs[1]? = some d ∧ t ∈ d.blocks ∧
      "alpha:innocent/0" ∈ t.callers ∧
      ∀ x ∈ [a, o], ∀ f signature, f.signature x.module = .ok "alpha:innocent/0" → ¬ x.Contains f signature := by
  obtain ⟨a, o, bs, d, t, hmisplaced, hserver, hrun, hd, ht, hknown, hmodule, hmodule', hfunctions, hfunctions',
      hquiet⟩ :
      ∃ a o bs d t, build misplaced = .ok (a, 0) ∧ build server = .ok (o, 0) ∧
        annotateEach (List.range 2) [a, o] = .ok bs ∧ bs[1]? = some d ∧ t ∈ d.blocks ∧
        t.callers = ["alpha:innocent/0"] ∧ a.module = misplaced ∧ o.module = server ∧
        a.functions = [theFunction, secondFunction] ∧ o.functions = [theFunction] ∧
        (a.blocks.all fun b => !theFunction.blocks.elem b.label || b.insts.all fun p => !p.inst.isRemoteCall) = true :=
    ⟨_, _, _, _, _, by cbv, by cbv, by cbv, by cbv, List.mem_cons_of_mem _ (List.mem_cons_self ..), by cbv, by cbv,
      by cbv, by cbv, by cbv, by cbv⟩
  refine ⟨a, o, bs, d, t, hmisplaced, hserver, hrun, hd, ht, by simp [hknown], ?_⟩
  intro x hx f signature hsignature hcontains
  obtain ⟨hf, label, hlabel, b, hb, rfl, p, hp, hcalls⟩ := hcontains
  simp only [List.mem_cons, List.not_mem_nil, or_false] at hx
  obtain rfl | rfl := hx
  · rw [hfunctions] at hf
    simp only [List.mem_cons, List.not_mem_nil, or_false] at hf
    obtain rfl | rfl := hf
    · have hplain := List.all_eq_true.mp hquiet b hb
      rw [List.elem_eq_true_of_mem hlabel, Bool.not_true, Bool.false_or] at hplain
      have hremote := List.all_eq_true.mp hplain p hp
      simp [hcalls.isRemoteCall] at hremote
    · have hother : secondFunction.signature misplaced = .ok "alpha:go/0" := by cbv
      rw [hmodule, hother] at hsignature
      simp at hsignature
  · rw [hfunctions', List.mem_singleton] at hf
    have hother : theFunction.signature server = .ok "beta:run/0" := by cbv
    rw [hmodule', hf, hother] at hsignature
    simp at hsignature

end Analysis

namespace Command

open Analysis (annotate annotateEach annotate_spec)

theorem exists_of_session_bind {α β : Type} {x : Session α} {f : α → Session β} {w w' : World} {b : β}
    (h : (x >>= f).run w = (.ok b, w')) : ∃ a v, x.run w = (.ok a, v) ∧ (f a).run v = (.ok b, w') := by
  rw [ExceptT.run_bind] at h
  simp only [bind, StateT.bind] at h
  rcases hx : x.run w with ⟨e | a, v⟩
  · rw [hx] at h
    cases h
  · rw [hx] at h
    exact ⟨a, v, rfl, h⟩

/-- A command that gets through its annotations has annotated the modules one by one. -/
theorem annotateEach_of_annotateAll {is : List Nat} {as bs : List Analysis} {w w' : World}
    (his : ∀ i ∈ is, i < as.length) (h : (annotateAll is as).run w = (.ok bs, w')) :
    annotateEach is as = .ok bs := by
  induction is generalizing as w with
  | nil => exact (Prod.mk.inj h).1
  | cons i is ih =>
      rw [annotateAll, List.getElem?_eq_getElem (his i (by simp))] at h
      obtain ⟨name, v, -, h⟩ := exists_of_session_bind h
      obtain ⟨_, u, -, h⟩ := exists_of_session_bind h
      rw [annotateEach]
      rcases hstep : annotate as i (List.range as.length) with ⟨marked, e | _⟩
      · rw [hstep] at h
        have hlength : marked.length = as.length := by
          obtain ⟨a, -, -, hgain⟩ := annotate_spec hstep
          exact hgain.length_eq
        exact ih (fun j hj => hlength ▸ his j (by simp [hj])) h
      · rw [hstep] at h
        cases h

end Command

end BeamDisasm

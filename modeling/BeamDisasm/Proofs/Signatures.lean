import BeamDisasm.Analysis.Annotation
import BeamDisasm.Proofs.Attribution
import Mathlib.Data.List.Pairwise
import Mathlib.Data.String.Basic

/-!
# Functions by their signatures

A signature may belong to several functions of several modules. The table of all modules leads to the last module that
offers it, and the search in this module to the first function there.
-/
namespace BeamDisasm.Analysis

theorem enclosed_injective (front back : String) : Function.Injective fun s : String => front ++ s ++ back := by
  intro s t h
  have hlist := congrArg String.toList h
  simp only [String.toList_append, List.append_left_inj, List.append_right_inj] at hlist
  exact String.toList_injective hlist

theorem reference_injective : Function.Injective reference :=
  enclosed_injective _ _

/-- The module has a function with the signature. -/
def Offers (a : Analysis) (signature : String) : Prop :=
  ∃ f ∈ a.functions, f.signature a.module = .ok signature

/-- In a table that is in order the last entry for a key is the one with the largest value. -/
theorem findLast?_eq_some_iff {table : List (String × Nat)} (hsorted : table.Pairwise fun e e' => e.2 ≤ e'.2)
    (key : String) (n : Nat) :
    findLast? table key = some n ↔ (key, n) ∈ table ∧ ∀ k, (key, k) ∈ table → k ≤ n := by
  have hlast : ∀ k, findLast? table key = some k → (key, k) ∈ table ∧ ∀ j, (key, j) ∈ table → j ≤ k := by
    intro k hk
    obtain ⟨e, he, rfl⟩ := Option.map_eq_some_iff.mp hk
    obtain ⟨hkey, before, after, hsplit, hbefore⟩ := List.find?_eq_some_iff_append.mp he
    have hkey' : e.1 = key := by simpa using hkey
    have hreverse : (before ++ e :: after).Pairwise fun e e' => e'.2 ≤ e.2 :=
      hsplit ▸ List.pairwise_reverse.mpr hsorted
    have hmem : ∀ x, x ∈ table ↔ x ∈ before ++ e :: after := fun x => by rw [← hsplit, List.mem_reverse]
    refine ⟨(hmem _).mpr (by simp [← hkey']), fun j hj => ?_⟩
    rcases List.mem_append.mp ((hmem _).mp hj) with hj | hj
    · simpa using hbefore _ hj
    · rcases List.mem_cons.mp hj with heq | hj
      · rw [← heq]
      · exact (List.pairwise_cons.mp (List.pairwise_append.mp hreverse).2.1).1 _ hj
  constructor
  · exact hlast n
  · rintro ⟨hmem, hmax⟩
    have hsome : (findLast? table key).isSome := by
      rw [findLast?, Option.isSome_map, List.find?_isSome]
      exact ⟨(key, n), List.mem_reverse.mpr hmem, by simp⟩
    obtain ⟨k, hk⟩ := Option.isSome_iff_exists.mp hsome
    obtain ⟨hmem', hmax'⟩ := hlast k hk
    have hle := hmax k hmem'
    have hge := hmax' n hmem
    rw [hk, Nat.le_antisymm hle hge]

theorem own_signatures {a : Analysis} {n : Nat} {own : List (String × Nat)}
    (h : (a.functions.mapM fun f => do return (reference (← f.signature a.module), n) :
      Except Fault (List (String × Nat))) = .ok own) :
    (∀ f ∈ a.functions, ∃ s, f.signature a.module = .ok s) ∧
      ∀ key k, (key, k) ∈ own ↔ k = n ∧ ∃ s, a.Offers s ∧ key = reference s := by
  have hall := forall₂_of_mapM h
  have hstep : ∀ (f : Function) (e : String × Nat),
      (do return (reference (← f.signature a.module), n) : Except Fault (String × Nat)) = .ok e →
      ∃ s, f.signature a.module = .ok s ∧ e = (reference s, n) := by
    intro f e he
    obtain ⟨s, hs, he⟩ := exists_of_bind he
    exact ⟨s, hs, (Except.ok.inj he).symm⟩
  constructor
  · intro f hf
    obtain ⟨e, -, he⟩ := exists_right_of_forall₂ hall hf
    obtain ⟨s, hs, -⟩ := hstep f e he
    exact ⟨s, hs⟩
  · intro key k
    constructor
    · intro hmem
      obtain ⟨f, hf, he⟩ := exists_left_of_forall₂ hall hmem
      obtain ⟨s, hs, heq⟩ := hstep f _ he
      obtain ⟨rfl, rfl⟩ := Prod.mk.inj heq
      exact ⟨rfl, s, ⟨f, hf, hs⟩, rfl⟩
    · rintro ⟨rfl, s, ⟨f, hf, hs⟩, rfl⟩
      obtain ⟨e, hmem, he⟩ := exists_right_of_forall₂ hall hf
      obtain ⟨t, ht, rfl⟩ := hstep f e he
      rw [hs, Except.ok.injEq] at ht
      exact ht ▸ hmem

/-- The table of signatures is in the order of the modules and has all their functions. -/
theorem signatures_spec {n : Nat} {as : List Analysis} {table : List (String × Nat)}
    (h : signatures n as = .ok table) :
    (table.Pairwise fun e e' => e.2 ≤ e'.2) ∧
      (∀ a ∈ as, ∀ f ∈ a.functions, ∃ s, f.signature a.module = .ok s) ∧
      ∀ key k, (key, k) ∈ table ↔ ∃ i a s, k = n + i ∧ as[i]? = some a ∧ a.Offers s ∧ key = reference s := by
  induction as generalizing n table with
  | nil =>
      have hnil : table = [] := (Except.ok.inj h).symm
      simp [hnil]
  | cons a as ih =>
      rw [signatures] at h
      obtain ⟨own, hown, h⟩ := exists_of_bind h
      obtain ⟨rest, hrest, h⟩ := exists_of_bind h
      obtain rfl := Except.ok.inj h
      obtain ⟨hsigned, hmem⟩ := own_signatures hown
      obtain ⟨hsorted, hsigned', hmem'⟩ := ih hrest
      have hown' : ∀ e ∈ own, e.2 = n := fun e he => ((hmem e.1 e.2).mp he).1
      have hrest' : ∀ e ∈ rest, n < e.2 := by
        intro e he
        obtain ⟨i, -, -, hk, -⟩ := (hmem' e.1 e.2).mp he
        omega
      refine ⟨List.pairwise_append.mpr ⟨?_, hsorted, ?_⟩, ?_, ?_⟩
      · exact List.pairwise_of_forall_mem_list fun e he e' he' => by rw [hown' e he, hown' e' he']
      · intro e he e' he'
        rw [hown' e he]
        exact Nat.le_of_lt (hrest' e' he')
      · intro b hb
        rcases List.mem_cons.mp hb with rfl | hb
        · exact hsigned
        · exact hsigned' b hb
      · intro key k
        rw [List.mem_append, hmem, hmem']
        constructor
        · rintro (⟨rfl, s, hs, rfl⟩ | ⟨i, b, s, rfl, hb, hs, rfl⟩)
          · exact ⟨0, a, s, rfl, rfl, hs, rfl⟩
          · exact ⟨i + 1, b, s, by omega, hb, hs, rfl⟩
        · rintro ⟨i, b, s, rfl, hb, hs, rfl⟩
          cases i with
          | zero =>
              obtain rfl : a = b := by simpa using hb
              exact .inl ⟨rfl, s, hs, rfl⟩
          | succ i => exact .inr ⟨i, b, s, by omega, hb, hs, rfl⟩

/-- The function `g` of the module `c` at place `k` is the one that a signature leads to: it is the first of its module
with this signature, and no module behind offers it. -/
structure Provides (as : List Analysis) (signature : String) (k : Nat) (c : Analysis) (g : Function) : Prop where
  module_eq : as[k]? = some c
  signature_eq : g.signature c.module = .ok signature
  first : ∃ before after, c.functions = before ++ g :: after ∧ ∀ h ∈ before, h.signature c.module ≠ .ok signature
  last : ∀ j b, k < j → as[j]? = some b → ¬ b.Offers signature

theorem Provides.mem {as : List Analysis} {signature : String} {k : Nat} {c : Analysis} {g : Function}
    (h : Provides as signature k c g) : c ∈ as ∧ g ∈ c.functions := by
  obtain ⟨before, after, hfunctions, -⟩ := h.first
  exact ⟨List.mem_of_getElem? h.module_eq, by simp [hfunctions]⟩

theorem exists_first {a : Analysis} {signature : String} (h : a.Offers signature) :
    ∃ before g after, a.functions = before ++ g :: after ∧ g.signature a.module = .ok signature ∧
      ∀ f ∈ before, f.signature a.module ≠ .ok signature := by
  classical
  obtain ⟨f, hf, hs⟩ := h
  have hsome : (a.functions.find? fun f => decide (f.signature a.module = .ok signature)).isSome := by
    rw [List.find?_isSome]
    exact ⟨f, hf, by simpa using hs⟩
  obtain ⟨g, hg⟩ := Option.isSome_iff_exists.mp hsome
  obtain ⟨hg, before, after, hfunctions, hbefore⟩ := List.find?_eq_some_iff_append.mp hg
  exact ⟨before, g, after, hfunctions, by simpa using hg, fun f hf => by simpa using hbefore f hf⟩

/-- A signature that some module offers leads to a function. -/
theorem exists_provides {as : List Analysis} {signature : String} (h : ∃ a ∈ as, a.Offers signature) :
    ∃ k c g, Provides as signature k c g := by
  induction as with
  | nil => simp at h
  | cons a as ih =>
      by_cases hrest : ∃ b ∈ as, b.Offers signature
      · obtain ⟨k, c, g, hprovides⟩ := ih hrest
        refine ⟨k + 1, c, g, hprovides.module_eq, hprovides.signature_eq, hprovides.first, fun j b hj hb => ?_⟩
        obtain ⟨j, rfl⟩ := Nat.exists_eq_succ_of_ne_zero (by omega : j ≠ 0)
        exact hprovides.last j b (by omega) hb
      · obtain ⟨b, hb, hoffers⟩ := h
        have ha : a.Offers signature := by
          rcases List.mem_cons.mp hb with rfl | hb
          · exact hoffers
          · exact absurd ⟨b, hb, hoffers⟩ hrest
        obtain ⟨before, g, after, hfunctions, hg, hbefore⟩ := exists_first ha
        refine ⟨0, a, g, rfl, hg, ⟨before, after, hfunctions, hbefore⟩, fun j b hj hb hoffers => ?_⟩
        obtain ⟨j, rfl⟩ := Nat.exists_eq_succ_of_ne_zero (by omega : j ≠ 0)
        exact hrest ⟨b, List.mem_of_getElem? (show as[j]? = some b from hb), hoffers⟩

/-- The table leads to the last module that offers a signature. -/
theorem findLast?_signatures {as : List Analysis} {table : List (String × Nat)} (h : signatures 0 as = .ok table)
    (key : String) (k : Nat) :
    findLast? table key = some k ↔ ∃ s c, key = reference s ∧ as[k]? = some c ∧ c.Offers s ∧
      ∀ j b, k < j → as[j]? = some b → ¬ b.Offers s := by
  obtain ⟨hsorted, -, hmem⟩ := signatures_spec h
  rw [findLast?_eq_some_iff hsorted, hmem]
  constructor
  · rintro ⟨⟨i, c, s, rfl, hc, hs, rfl⟩, hmax⟩
    rw [Nat.zero_add]
    refine ⟨s, c, rfl, hc, hs, fun j b hj hb hoffers => ?_⟩
    have hle := hmax j ((hmem _ _).mpr ⟨j, b, s, (Nat.zero_add j).symm, hb, hoffers, rfl⟩)
    omega
  · rintro ⟨s, c, rfl, hc, hs, hlast⟩
    refine ⟨⟨k, c, s, (Nat.zero_add k).symm, hc, hs, rfl⟩, fun j hj => ?_⟩
    obtain ⟨i, b, t, rfl, hb, ht, heq⟩ := (hmem _ _).mp hj
    rw [← reference_injective heq] at ht
    by_contra hlt
    exact hlast i b (by omega) hb ht

/-! ## The search in a module -/

theorem entryOf_spec {m : Module} {key : String} {fs : List Function} {l : Index}
    (h : entryOf m key fs = .ok (some l)) :
    ∃ before g after s, fs = before ++ g :: after ∧ g.signature m = .ok s ∧ key = reference s ∧
      g.blocks[1]? = some l ∧ ∀ f ∈ before, f.signature m ≠ .ok s := by
  induction fs with
  | nil => simp [entryOf] at h
  | cons f fs ih =>
      rw [entryOf] at h
      obtain ⟨t, ht, h⟩ := exists_of_bind h
      split at h
      · next hkey =>
        obtain ⟨i, hi, h⟩ := exists_of_bind h
        obtain rfl := Option.some.inj (Except.ok.inj h)
        exact ⟨[], f, fs, t, rfl, ht, hkey.symm, entry_spec hi, by simp⟩
      · next hkey =>
        obtain ⟨before, g, after, s, rfl, hs, rfl, hentry, hbefore⟩ := ih h
        refine ⟨f :: before, g, after, s, rfl, hs, rfl, hentry, fun f' hf' => ?_⟩
        rcases List.mem_cons.mp hf' with rfl | hf'
        · rw [ht]
          exact fun heq => hkey (congrArg reference (Except.ok.inj heq))
        · exact hbefore f' hf'

theorem entryOf_append {m : Module} {s : String} {before after : List Function} {g : Function} {l : Index}
    (hsigned : ∀ f ∈ before, ∃ t, f.signature m = .ok t) (hbefore : ∀ f ∈ before, f.signature m ≠ .ok s)
    (hg : g.signature m = .ok s) (hentry : g.blocks[1]? = some l) :
    entryOf m (reference s) (before ++ g :: after) = .ok (some l) := by
  induction before with
  | nil => simp [entryOf, hg, Function.entry, hentry, bind, Except.bind, pure, Except.pure]
  | cons f before ih =>
      obtain ⟨t, ht⟩ := hsigned f (by simp)
      have hne : reference t ≠ reference s := by
        intro heq
        exact hbefore f (by simp) (reference_injective heq ▸ ht)
      rw [List.cons_append, entryOf, ht]
      simp only [bind, Except.bind, if_neg hne]
      exact ih (fun f hf => hsigned f (by simp [hf])) fun f hf => hbefore f (by simp [hf])

/-- The block where a function starts is there. -/
theorem Built.get_entry {a : Analysis} (h : a.Built) {g : Function} (hg : g ∈ a.functions) {l : Index}
    (hentry : g.blocks[1]? = some l) : ∃ b, Block.get a.blocks l = .ok b ∧ b.label = l := by
  obtain ⟨b, hb, rfl⟩ := h.exists_block hg (List.mem_of_getElem? hentry)
  have hplain := h.plain_of_entry hg hentry b hb
  have hsome : (Block.find? a.blocks b.label).isSome := by
    rw [Block.find?, List.find?_isSome]
    exact ⟨b, hb, (hplain b.label).mpr rfl⟩
  obtain ⟨b', hb'⟩ := Option.isSome_iff_exists.mp hsome
  have hsame := List.find?_some (p := fun c : Block => c.label.same b.label) hb'
  exact ⟨b', by rw [Block.get, hb'], (hplain b'.label).mp hsame⟩

/-- The search finds the first function with the signature, by the label where it starts. -/
theorem Built.entryOfSignature_iff {a : Analysis} (h : a.Built)
    (hsigned : ∀ f ∈ a.functions, ∃ s, f.signature a.module = .ok s) (s : String) (l : Index) :
    a.entryOfSignature (reference s) = .ok (some l) ↔
      ∃ before g after, a.functions = before ++ g :: after ∧ g.signature a.module = .ok s ∧
        g.blocks[1]? = some l ∧ ∀ f ∈ before, f.signature a.module ≠ .ok s := by
  constructor
  · intro hentry
    obtain ⟨found, hfound, hentry⟩ := exists_of_bind hentry
    cases found with
    | none => cases hentry
    | some label =>
        obtain ⟨b, hb, hentry⟩ := exists_of_bind hentry
        obtain ⟨before, g, after, t, hfunctions, ht, hkey, hlabel, hbefore⟩ := entryOf_spec hfound
        obtain ⟨b', hb', hlabel'⟩ := h.get_entry (by simp [hfunctions] : g ∈ a.functions) hlabel
        rw [hb, Except.ok.injEq] at hb'
        have hl : l = label := by rw [← hlabel', ← hb', Option.some.inj (Except.ok.inj hentry)]
        rw [← reference_injective hkey] at ht hbefore
        exact ⟨before, g, after, hfunctions, ht, hl ▸ hlabel, hbefore⟩
  · rintro ⟨before, g, after, hfunctions, hs, hlabel, hbefore⟩
    obtain ⟨b, hb, rfl⟩ := h.get_entry (by simp [hfunctions] : g ∈ a.functions) hlabel
    have hfound : entryOf a.module (reference s) a.functions = .ok (some b.label) := by
      rw [hfunctions]
      exact entryOf_append (fun f hf => hsigned f (by simp [hfunctions, hf])) hbefore hs hlabel
    rw [entryOfSignature, hfound]
    simp [hb, bind, Except.bind, pure, Except.pure]

end BeamDisasm.Analysis

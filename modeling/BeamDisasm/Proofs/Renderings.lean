import BeamDisasm.Module.Value
import BeamDisasm.Proofs.Numerals
import BeamDisasm.Proofs.Steps
import BeamDisasm.Proofs.TermBounds

/-!
# Terms that have a value

What a term is worth in a module is written for most kinds of terms, and not for all that can be read. A term that was
read has a value exactly if it is made of atoms, integers, labels, literals and registers with numbers, alone or in
lists, or is a typed register that has a text of its own. Characters, floating point registers and allocation lists have
none at all, and a register that kept its bytes, or a type without an index, is a fault. So is a number with too many
digits, wherever it is written in decimal.
-/
namespace BeamDisasm

variable {α β : Type}

/-! ## What readers give -/

namespace Reader

variable {r : Reader α} {f : α → Reader β} {P : α → Prop} {Q : β → Prop}

/-- Whatever the data, a value that the reader gives has the property. -/
def Yields (r : Reader α) (P : α → Prop) : Prop :=
  ∀ s a t, r s = .ok a t → P a

theorem yields_pure {a : α} (h : P a) : Yields (pure a) P := by
  intro s b t hr
  simp only [pure_apply, Outcome.ok.injEq] at hr
  exact hr.1 ▸ h

theorem yields_fail (e : Fault) : Yields (fail e) P := by
  intro s a t hr
  simp [fail] at hr

theorem yields_lift {x : Except Fault α} (h : ∀ a, x = .ok a → P a) : Yields (lift x) P := by
  cases x with
  | ok a => exact yields_pure (h a rfl)
  | error e => exact yields_fail e

theorem Yields.bind (hr : Yields r P) (hf : ∀ a, P a → Yields (f a) Q) : Yields (r >>= f) Q := by
  intro s b t h
  obtain ⟨a, u, hra, hfa⟩ := exists_of_bind_eq_ok h
  exact hf a (hr s a u hra) u b t hfa

/-- What is known of the second reader alone. -/
theorem Yields.of_last (hf : ∀ a, Yields (f a) Q) : Yields (r >>= f) Q :=
  Yields.bind (P := fun _ => True) (fun _ _ _ _ => trivial) fun a _ => hf a

theorem Yields.times (hr : Yields r P) (n : Nat) : Yields (times n r) fun as => ∀ a ∈ as, P a := by
  induction n with
  | zero => exact yields_pure (by simp)
  | succ n ih =>
      refine hr.bind fun a ha => ih.bind fun as has => yields_pure ?_
      exact List.forall_mem_cons.mpr ⟨ha, has⟩

end Reader

open Reader

/-- The values that basic terms are read with. -/
inductive Scalar.Decoded : Scalar → Prop where
  | number (n : Nat) : Decoded (.number n)
  | raw (b : Bytes) : Decoded (.raw b)

/-- Only numbers are written in decimal, and only short ones. -/
theorem Scalar.decimal_ok_iff {v : Scalar} : (∃ s, v.decimal = .ok s) ↔ ∃ n, v = .number n ∧ Text.Short n := by
  cases v <;> simp [Scalar.decimal]

theorem Scalar.plain_ok_iff {v : Scalar} : (∃ s, v.plain = .ok s) ↔ ∀ n, v = .number n → Text.Short n := by
  cases v <;> simp [Scalar.plain]

theorem Index.plain_ok_iff {i : Index} : (∃ s, i.plain = .ok s) ↔ ∀ n, i = .number n → Text.Short n := by
  cases i <;> simp [Index.plain]

theorem Index.inner_ok_iff {i : Index} : (∃ s, i.inner = .ok s) ↔ ∃ s, i.plain = .ok s := by
  cases i <;> simp [Index.inner, Index.plain]

namespace Term

variable {t r : Term} {items : List Term} {pairs : List (Term × Term)}

/-- The terms that can be read: no number in them is below zero, and registers and characters hold numbers or bytes. -/
inductive Decoded : Term → Prop where
  | integer (n : Nat) : Decoded (.integer n)
  | literal (n : Nat) : Decoded (.literal n)
  | label (n : Nat) : Decoded (.label n)
  | atom (n : Nat) : Decoded (.atom n)
  | xreg {v : Scalar} (h : v.Decoded) : Decoded (.xreg v)
  | yreg {v : Scalar} (h : v.Decoded) : Decoded (.yreg v)
  | char {v : Scalar} (h : v.Decoded) : Decoded (.char v)
  | fpreg (n : Nat) : Decoded (.fpreg (.number n))
  | list {items : List Term} (h : ∀ t ∈ items, Decoded t) : Decoded (.list items)
  | alloc {pairs : List (Term × Term)} (hkeys : ∀ p ∈ pairs, Decoded p.1) (hvalues : ∀ p ∈ pairs, Decoded p.2) :
      Decoded (.alloc pairs)
  | typed {r t : Term} (hr : Decoded r) (ht : Decoded t) : Decoded (.typed r t)

theorem Decoded.literalIndex? (h : t.Decoded) {i : Int} (hi : t.literalIndex? = some i) : ∃ n : Nat, i = n := by
  cases h with
  | literal n => exact ⟨n, (Option.some.inj hi).symm⟩
  | label n => exact ⟨n, (Option.some.inj hi).symm⟩
  | _ => simp [Term.literalIndex?] at hi

theorem decoded_ofTag {tag : Nat} {v : Scalar} (hv : v.Decoded) (h : ofTag tag v = .ok t) : t.Decoded := by
  unfold ofTag at h
  split at h <;> cases h
  · cases hv with
    | number n => exact .literal n
  · exact .literal _
  · cases hv with
    | number n => exact .integer n
  · exact .integer _
  · cases hv with
    | number n => exact .atom n
  · exact .atom _
  · exact .xreg hv
  · exact .yreg hv
  · cases hv with
    | number n => exact .label n
  · exact .label _
  · exact .char hv

section Inner

variable {inner : Reader Term}

theorem yields_payload (n : Int) : Yields (payload n) Scalar.Decoded := by
  unfold payload
  split
  · exact yields_fail _
  · exact .of_last fun b => yields_pure (.raw b)

theorem yields_basicValue (inner : Reader Term) (b : UInt8) : Yields (basicValue inner b) Scalar.Decoded := by
  unfold basicValue
  split_ifs
  · exact yields_pure (.number _)
  · exact .of_last fun low => yields_pure (.number _)
  · exact .of_last fun size => .of_last fun index => .of_last fun n => yields_payload _
  · exact yields_payload _

theorem yields_plainLiteral (h : Yields inner Decoded) : Yields (plainLiteral inner) Decoded := by
  refine h.bind fun t ht => ?_
  split
  · exact yields_pure ht
  · exact yields_fail _

theorem yields_counted {item : Reader α} {P : α → Prop} (h : Yields item P) :
    Yields (counted inner item) fun as => ∀ a ∈ as, P a :=
  .of_last fun _ => .of_last fun _ => .of_last fun _ => h.times _

theorem yields_pair (h : Yields inner Decoded) : Yields (pair inner) fun p => p.1.Decoded ∧ p.2.Decoded :=
  h.bind fun _ hkey => h.bind fun _ hvalue => yields_pure ⟨hkey, hvalue⟩

theorem yields_extended (h : Yields inner Decoded) (tag : UInt8) : Yields (extended inner tag) Decoded := by
  unfold extended
  split_ifs
  · exact h.bind fun _ hr => h.bind fun _ ht => yields_pure (.typed hr ht)
  · exact yields_plainLiteral h
  · exact (yields_counted h).bind fun _ hitems => yields_pure (.list hitems)
  · refine (yields_counted (yields_pair h)).bind fun pairs hpairs => yields_pure ?_
    exact .alloc (fun p hp => (hpairs p hp).1) fun p hp => (hpairs p hp).2
  · refine (yields_plainLiteral h).bind fun t ht => ?_
    split
    · next hi =>
      obtain ⟨n, rfl⟩ := ht.literalIndex? hi
      exact yields_pure (.fpreg n)
    · exact yields_fail _
  · exact yields_fail _

theorem yields_step (h : Yields inner Decoded) : Yields (step inner) Decoded := by
  refine .of_last fun b => ?_
  split
  · exact yields_extended h b
  · exact (yields_basicValue inner b).bind fun v hv => yields_lift fun t ht => decoded_ofTag hv ht

end Inner

theorem yields_readFuel (n : Nat) : Yields (readFuel n) Decoded := by
  induction n with
  | zero => exact yields_fail _
  | succ n ih => exact yields_step ih

theorem decoded_of_read {s rest : Bytes} (h : read s = .ok t rest) : t.Decoded :=
  yields_readFuel s.length s t rest h

/-! ## Terms with a text of their own -/

/-- The term is a typed register. -/
def isTyped : Term → Bool
  | .typed _ _ => true
  | _ => false

/-- The terms with a text: registers have to have numbers, the type of a register has to have an index, and all numbers
have to be short. A typed register in a pair is not looked into. -/
inductive Written : Term → Prop where
  | integer {v : Int} (h : Text.Short v) : Written (.integer v)
  | literal {i : Int} (h : Text.Short i) : Written (.literal i)
  | label {i : Int} (h : Text.Short i) : Written (.label i)
  | atom {i : Int} (h : Text.Short i) : Written (.atom i)
  | char {v : Scalar} (h : ∀ n, v = .number n → Text.Short n) : Written (.char v)
  | xreg {n : Int} (h : Text.Short n) : Written (.xreg (.number n))
  | yreg {n : Int} (h : Text.Short n) : Written (.yreg (.number n))
  | fpreg {n : Int} (h : Text.Short n) : Written (.fpreg (.number n))
  | list {items : List Term} (h : ∀ t ∈ items, Written t) : Written (.list items)
  | alloc {pairs : List (Term × Term)} (hkeys : ∀ p ∈ pairs, p.1.isTyped = false → Written p.1)
      (hvalues : ∀ p ∈ pairs, p.2.isTyped = false → Written p.2) : Written (.alloc pairs)
  | typed {r t : Term} {i : Index} (hr : Written r) (hi : t.index = .ok i) (h : ∀ n, i = .number n → Text.Short n) :
      Written (.typed r t)

theorem texts_eq_mapM (items : List Term) : texts items = items.mapM text := by
  induction items with
  | nil => rw [texts, List.mapM_nil]; rfl
  | cons t ts ih => rw [texts, ih, List.mapM_cons]

theorem texts_ok_iff : (∃ ss, texts items = .ok ss) ↔ ∀ t ∈ items, ∃ s, t.text = .ok s := by
  rw [texts_eq_mapM, exists_mapM_ok_iff]

/-- Inside a pair a typed register stands for itself, and all else has its text. -/
theorem inner_ok_iff : (∃ s, t.inner = .ok s) ↔ (t.isTyped = false → ∃ s, t.text = .ok s) := by
  cases t with
  | loose v => simpa [inner, isTyped, text] using Index.inner_ok_iff
  | _ => simp [inner, isTyped, text]

theorem pairTexts_ok_iff : (∃ ss, pairTexts pairs = .ok ss) ↔
    (∀ p ∈ pairs, p.1.isTyped = false → ∃ s, p.1.text = .ok s) ∧
      ∀ p ∈ pairs, p.2.isTyped = false → ∃ s, p.2.text = .ok s := by
  induction pairs with
  | nil => simp [pairTexts]
  | cons p ps ih =>
      rw [pairTexts, List.forall_mem_cons, List.forall_mem_cons, ← inner_ok_iff, ← inner_ok_iff]
      simp only [exists_bind_ok_iff, pure, Except.pure, Except.ok.injEq, exists_eq', and_true]
      rw [ih]
      constructor
      · rintro ⟨a, ha, b, hb, hkeys, hvalues⟩
        exact ⟨⟨⟨a, ha⟩, hkeys⟩, ⟨b, hb⟩, hvalues⟩
      · rintro ⟨⟨⟨a, ha⟩, hkeys⟩, ⟨b, hb⟩, hvalues⟩
        exact ⟨a, ha, b, hb, hkeys, hvalues⟩

theorem text_typed_ok_iff : (∃ s, (Term.typed r t).text = .ok s) ↔
    (∃ i, t.index = .ok i ∧ ∃ s, i.plain = .ok s) ∧ ∃ s, r.text = .ok s := by
  rw [text, exists_bind_ok_iff]
  simp only [exists_bind_ok_iff, pure, Except.pure, Except.ok.injEq, exists_eq', and_true]
  constructor
  · rintro ⟨i, hi, s, hs, hplain⟩
    exact ⟨⟨i, hi, hplain⟩, s, hs⟩
  · rintro ⟨⟨i, hi, hplain⟩, s, hs⟩
    exact ⟨i, hi, s, hs, hplain⟩

theorem text_atom_ok_iff {i : Int} : (∃ s, (Term.atom i).text = .ok s) ↔ Text.Short i := by
  rw [text]
  split_ifs with hzero
  · subst hzero
    exact iff_of_true ⟨_, rfl⟩ (by decide)
  · rw [exists_wrap_ok_iff, Text.exists_decimal_iff]

/-- Of the terms that can be read those have a text that are written. -/
theorem Decoded.text_ok_iff (h : t.Decoded) : (∃ s, t.text = .ok s) ↔ t.Written := by
  induction h with
  | integer n =>
      rw [text, exists_wrap_ok_iff, Text.exists_decimal_iff]
      exact ⟨.integer, fun hw => by cases hw; assumption⟩
  | literal n =>
      rw [text, exists_wrap_ok_iff, Text.exists_decimal_iff]
      exact ⟨.literal, fun hw => by cases hw; assumption⟩
  | label n =>
      rw [text, exists_wrap_ok_iff, Text.exists_decimal_iff]
      exact ⟨.label, fun hw => by cases hw; assumption⟩
  | atom n =>
      rw [text_atom_ok_iff]
      exact ⟨.atom, fun hw => by cases hw; assumption⟩
  | char hv =>
      rw [text, exists_wrap_ok_iff, Scalar.plain_ok_iff]
      exact ⟨.char, fun hw => by cases hw; assumption⟩
  | xreg hv =>
      rw [text, exists_wrap_ok_iff, Scalar.decimal_ok_iff]
      constructor
      · rintro ⟨n, rfl, hn⟩
        exact .xreg hn
      · intro hw
        cases hw with
        | xreg hn => exact ⟨_, rfl, hn⟩
  | yreg hv =>
      rw [text, exists_wrap_ok_iff, Scalar.decimal_ok_iff]
      constructor
      · rintro ⟨n, rfl, hn⟩
        exact .yreg hn
      · intro hw
        cases hw with
        | yreg hn => exact ⟨_, rfl, hn⟩
  | fpreg n =>
      rw [text, exists_wrap_ok_iff, Scalar.decimal_ok_iff]
      constructor
      · rintro ⟨n, ⟨⟩, hn⟩
        exact .fpreg hn
      · intro hw
        cases hw with
        | fpreg hn => exact ⟨_, rfl, hn⟩
  | list h ih =>
      rw [text, exists_wrap_ok_iff, texts_ok_iff]
      constructor
      · exact fun hs => .list fun t ht => (ih t ht).mp (hs t ht)
      · intro hw t ht
        cases hw with
        | list hw => exact (ih t ht).mpr (hw t ht)
  | alloc hkeys hvalues ihkeys ihvalues =>
      rw [text, exists_wrap_ok_iff, pairTexts_ok_iff]
      constructor
      · rintro ⟨hk, hv⟩
        refine .alloc (fun p hp hnot => ?_) fun p hp hnot => ?_
        · exact (ihkeys p hp).mp (hk p hp hnot)
        · exact (ihvalues p hp).mp (hv p hp hnot)
      · intro hw
        cases hw with
        | alloc hk hv =>
            refine ⟨fun p hp hnot => ?_, fun p hp hnot => ?_⟩
            · exact (ihkeys p hp).mpr (hk p hp hnot)
            · exact (ihvalues p hp).mpr (hv p hp hnot)
  | typed hr ht ihr _ =>
      rw [text_typed_ok_iff, ihr]
      constructor
      · rintro ⟨⟨i, hi, hplain⟩, hw⟩
        exact .typed hw hi (Index.plain_ok_iff.mp hplain)
      · intro hw
        cases hw with
        | typed hw hi hshort => exact ⟨⟨_, hi, Index.plain_ok_iff.mpr hshort⟩, hw⟩

/-! ## Terms with a value -/

/-- The terms with a value in a module that knows their atoms and literals. Integers of any size have one, and so have
literals that the table has; the numbers of other literals, of labels and of registers have to be short. -/
inductive Rendered (m : Module) : Term → Prop where
  | integer (v : Int) : Rendered m (.integer v)
  | known {i : Int} {table : LiteralTable} (htable : m.literals = some table) (h : i < table.terms.length) :
      Rendered m (.literal i)
  | literal {i : Int} (h : Text.Short i) : Rendered m (.literal i)
  | label {i : Int} (h : Text.Short i) : Rendered m (.label i)
  | atom (i : Int) : Rendered m (.atom i)
  | xreg {n : Int} (h : Text.Short n) : Rendered m (.xreg (.number n))
  | yreg {n : Int} (h : Text.Short n) : Rendered m (.yreg (.number n))
  | typed {r t : Term} (h : Written (.typed r t)) : Rendered m (.typed r t)
  | list {items : List Term} (h : ∀ t ∈ items, Rendered m t) : Rendered m (.list items)

mutual

/-- The atoms that a term names, at any depth. -/
def atoms : Term → List Int
  | .atom i => [i]
  | .list items => atomsAll items
  | .alloc pairs => atomsPairs pairs
  | .typed r t => atoms r ++ atoms t
  | _ => []

/-- The atoms that several terms name. -/
def atomsAll : List Term → List Int
  | [] => []
  | t :: ts => atoms t ++ atomsAll ts

/-- The atoms that pairs of terms name. -/
def atomsPairs : List (Term × Term) → List Int
  | [] => []
  | (k, v) :: ps => atoms k ++ atoms v ++ atomsPairs ps

end

theorem atoms_list : (Term.list items).atoms = items.flatMap atoms := by
  rw [atoms]
  induction items with
  | nil => rfl
  | cons t ts ih => rw [atomsAll, List.flatMap_cons, ih]

end Term

namespace Module

open Term (Decoded Rendered)

variable {m : Module} {t : Term} {items : List Term}

/-- The module names the atoms of a term, and all its literals have a text. -/
structure Knows (m : Module) (t : Term) : Prop where
  atoms : ∀ i ∈ t.atoms, ∃ name, m.atomName (if i = 0 then .nil else .number i) = .ok (some name)
  literals : ∀ table, m.literals = some table → ∀ l ∈ table.terms, ∃ s, l.text = .ok s

theorem Knows.of_mem (h : m.Knows (.list items)) (ht : t ∈ items) : m.Knows t := by
  refine ⟨fun i hi => h.atoms i ?_, h.literals⟩
  rw [Term.atoms_list]
  exact List.mem_flatMap.mpr ⟨t, ht, hi⟩

/-- A literal that the table does not have is written by its number. -/
theorem literalText_ok_iff (h : ∀ table, m.literals = some table → ∀ l ∈ table.terms, ∃ s, l.text = .ok s) (n : Nat) :
    (∃ s, m.literalText n = .ok s) ↔ Rendered m (.literal n) := by
  cases hm : m.literals with
  | none =>
      have htext : m.literalText n = Text.decimal n := by
        rw [literalText, literal, hm]
        rfl
      rw [htext, Text.exists_decimal_iff]
      refine ⟨.literal, fun hr => ?_⟩
      cases hr with
      | known htable _ => rw [hm] at htable; cases htable
      | literal hn => exact hn
  | some table =>
      have hget : m.literal n = .ok table.terms[n]? := by
        rw [literal, hm]
        by_cases hn : n < table.terms.length
        · simp [LiteralTable.get, literalAt, signedGet, signedGet?, hn, Except.map]
        · simp [LiteralTable.get, literalAt, hn]
      by_cases hn : n < table.terms.length
      · refine iff_of_true ?_ (.known hm (by exact_mod_cast hn))
        rw [literalText, hget, List.getElem?_eq_getElem hn]
        exact exists_wrap_ok_iff.mpr (h table hm _ (List.getElem_mem hn))
      · have htext : m.literalText n = Text.decimal n := by
          rw [literalText, hget, List.getElem?_eq_none (by omega)]
          rfl
        rw [htext, Text.exists_decimal_iff]
        refine ⟨.literal, fun hr => ?_⟩
        cases hr with
        | known htable hlt =>
            obtain rfl := Option.some.inj (hm.symm.trans htable)
            omega
        | literal hn => exact hn

theorem atomText_ok {i : Index} {name : String} (h : m.atomName i = .ok (some name)) : ∃ s, m.atomText i = .ok s := by
  unfold atomText
  exact exists_wrap_ok_iff.mpr ⟨_, h⟩

theorem values_eq_mapM (m : Module) (items : List Term) : m.values items = items.mapM m.value := by
  induction items with
  | nil => rw [values, List.mapM_nil]; rfl
  | cons t ts ih => rw [values, ih, List.mapM_cons]

/-- Brackets are put around texts that are all there. -/
theorem bracketed_ok_iff {vs : List (Option String)} : (∃ s, bracketed vs = .ok s) ↔ ∀ v ∈ vs, ∃ s, v = some s := by
  induction vs with
  | nil => simp [bracketed]
  | cons v vs ih =>
      rw [List.forall_mem_cons]
      cases v with
      | none => simp [bracketed]
      | some s =>
          have hrest : (∃ line, bracketed (some s :: vs) = .ok line) ↔ ∃ line, bracketed vs = .ok line := by
            unfold bracketed
            cases hvs : vs.mapM id <;> simp [hvs]
          simp [hrest, ih]

/-- A value that is only wrapped is there if it can be made. -/
theorem exists_some_ok_iff {x : Except Fault α} {f : α → String} :
    (∃ s, (do return some (f (← x)) : Except Fault (Option String)) = .ok (some s)) ↔ ∃ a, x = .ok a := by
  constructor
  · rintro ⟨s, hs⟩
    obtain ⟨a, ha, -⟩ := exists_of_bind hs
    exact ⟨a, ha⟩
  · rintro ⟨a, rfl⟩
    exact ⟨f a, rfl⟩

theorem value_list_ok_iff :
    (∃ s, m.value (.list items) = .ok (some s)) ↔ ∀ t ∈ items, ∃ s, m.value t = .ok (some s) := by
  rw [value]
  constructor
  · rintro ⟨s, hs⟩ t ht
    obtain ⟨vs, hvs, hs⟩ := exists_of_bind hs
    obtain ⟨v, hv, hvalue⟩ := exists_right_of_forall₂ (forall₂_of_mapM (values_eq_mapM m items ▸ hvs)) ht
    obtain ⟨s, rfl⟩ := bracketed_ok_iff.mp (exists_some_ok_iff.mp ⟨_, hs⟩) v hv
    exact ⟨s, hvalue⟩
  · intro h
    have hall : ∀ t ∈ items, ∃ v, (∃ s, v = some s) ∧ m.value t = .ok v := by
      intro t ht
      obtain ⟨s, hs⟩ := h t ht
      exact ⟨some s, ⟨s, rfl⟩, hs⟩
    obtain ⟨vs, hvs⟩ := exists_forall₂_iff.mpr hall
    have hsome : ∀ v ∈ vs, ∃ s, v = some s := by
      intro v hv
      obtain ⟨t, -, hs, -⟩ := exists_left_of_forall₂ hvs hv
      exact hs
    rw [values_eq_mapM, mapM_eq_ok_iff.mpr (hvs.imp fun _ _ hv => hv.2)]
    exact exists_some_ok_iff.mpr (bracketed_ok_iff.mpr hsome)

theorem value_ok_iff (h : t.Decoded) (hm : m.Knows t) : (∃ s, m.value t = .ok (some s)) ↔ t.Rendered m := by
  induction h with
  | integer n => exact ⟨fun _ => .integer n, fun _ => ⟨_, by rw [value]⟩⟩
  | label n =>
      rw [value, exists_some_ok_iff, Text.exists_decimal_iff]
      exact ⟨.label, fun hr => by cases hr; assumption⟩
  | literal n => rw [value, exists_some_ok_iff, literalText_ok_iff hm.literals n]
  | atom n =>
      obtain ⟨name, hname⟩ := hm.atoms n (by simp [Term.atoms])
      rw [value, exists_some_ok_iff]
      exact ⟨fun _ => .atom n, fun _ => atomText_ok hname⟩
  | xreg hv =>
      rw [value, exists_some_ok_iff, Scalar.decimal_ok_iff]
      constructor
      · rintro ⟨n, rfl, hn⟩
        exact .xreg hn
      · intro hr
        cases hr with
        | xreg hn => exact ⟨_, rfl, hn⟩
  | yreg hv =>
      rw [value, exists_some_ok_iff, Scalar.decimal_ok_iff]
      constructor
      · rintro ⟨n, rfl, hn⟩
        exact .yreg hn
      · intro hr
        cases hr with
        | yreg hn => exact ⟨_, rfl, hn⟩
  | char hv =>
      constructor
      · simp [value]
      · intro hr
        cases hr
  | fpreg n =>
      constructor
      · simp [value]
      · intro hr
        cases hr
  | alloc hkeys hvalues _ _ =>
      constructor
      · simp [value]
      · intro hr
        cases hr
  | typed hr ht _ _ =>
      rw [value, exists_some_ok_iff, (Decoded.typed hr ht).text_ok_iff]
      constructor
      · exact .typed
      · intro h
        cases h with
        | typed h => exact h
  | list h ih =>
      rw [value_list_ok_iff]
      constructor
      · exact fun hs => .list fun t ht => (ih t ht (hm.of_mem ht)).mp (hs t ht)
      · intro hr t ht
        cases hr with
        | list hr => exact (ih t ht (hm.of_mem ht)).mpr (hr t ht)

theorem wrap_ne_none {x : Except Fault α} {f : α → String} :
    (do return some (f (← x)) : Except Fault (Option String)) ≠ .ok none := by
  intro h
  obtain ⟨a, -, ha⟩ := exists_of_bind h
  cases ha

theorem value_eq_none_iff (h : t.Decoded) :
    m.value t = .ok none ↔ (∃ v, t = .char v) ∨ (∃ i, t = .fpreg i) ∨ ∃ pairs, t = .alloc pairs := by
  cases h with
  | integer n => simp [value]
  | char hv | fpreg n | alloc hkeys hvalues => simp [value]
  | atom n | label n | literal n | xreg hv | yreg hv | typed hr ht =>
      rw [value]
      exact iff_of_false wrap_ne_none (by simp)
  | list h =>
      refine iff_of_false (fun hnone => ?_) (by simp)
      rw [value] at hnone
      obtain ⟨vs, -, hs⟩ := exists_of_bind hnone
      exact wrap_ne_none hs

/-- A term that was read has a value exactly if it is rendered, in a module that knows its atoms and literals. The kinds
of terms that have no value are characters, floating point registers and allocation lists; all other terms without a
value are faults. -/
theorem value_of_read_iff {s rest : Bytes} (hread : Term.read s = .ok t rest) (hm : m.Knows t) :
    ((∃ text, m.value t = .ok (some text)) ↔ t.Rendered m) ∧
    (m.value t = .ok none ↔ (∃ v, t = .char v) ∨ (∃ i, t = .fpreg i) ∨ ∃ pairs, t = .alloc pairs) :=
  ⟨value_ok_iff (Term.decoded_of_read hread) hm, value_eq_none_iff (Term.decoded_of_read hread)⟩

/-- A module with the atom `ok` and the literal 7. -/
def smallTables : Module :=
  { atoms := some ⟨AtomTable.placeholder :: ["ok"].map Bytes.ofText⟩
    literals := some ⟨[.smallInteger 7]⟩ }

theorem knows_smallTables {t : Term} (h : ∀ i ∈ t.atoms, i = 1 ∨ i = 0) : smallTables.Knows t := by
  refine ⟨fun i hi => ?_, fun table htable l hl => ?_⟩
  · rcases h i hi with rfl | rfl
    · exact ⟨"ok", by with_unfolding_all rfl⟩
    · exact ⟨"nil", rfl⟩
  · obtain rfl := Option.some.inj htable
    obtain rfl := List.mem_singleton.mp hl
    exact ⟨"0x7", rfl⟩

/-- A list of an atom, a literal, a typed register that is a list itself, and the missing atom. -/
theorem value_of_read_list :
    ∃ t, Term.read [0x17, 0x40, 0x12, 0x47, 0x00, 0x57, 0x17, 0x20, 0x03, 0x27, 0x10, 0x10, 0x02] = .ok t [] ∧
      smallTables.Knows t ∧ t.Rendered smallTables ∧
      smallTables.value t = .ok (some "['ok', `0x7`, BeamList(X0,FR1)<1>, 'nil']") := by
  let register : Term := .typed (.list [.xreg (.number 0), .fpreg (.number 1)]) (.literal 1)
  have hregister : register.text = .ok "BeamList(X0,FR1)<1>" := by
    simp only [register, Term.text, Term.texts]
    rfl
  have hvalue : smallTables.value (.list [.atom 1, .literal 0, register, .atom 0]) =
      .ok (some "['ok', `0x7`, BeamList(X0,FR1)<1>, 'nil']") := by
    simp only [value, values, register] at hregister ⊢
    rw [hregister]
    with_unfolding_all rfl
  have hread : Term.read [0x17, 0x40, 0x12, 0x47, 0x00, 0x57, 0x17, 0x20, 0x03, 0x27, 0x10, 0x10, 0x02] =
    .ok (.list [.atom 1, .literal 0, register, .atom 0]) [] := rfl
  have hknows : smallTables.Knows (.list [.atom 1, .literal 0, register, .atom 0]) :=
    knows_smallTables (by decide)
  exact ⟨_, hread, hknows, (value_of_read_iff hread hknows).1.mp ⟨_, hvalue⟩, hvalue⟩

/-- A floating point register, a character and an allocation list have no value, and a register written in two bytes
more is a fault, as is a typed register whose type is an integer. -/
theorem value_of_read_missing :
    (∃ t, Term.read [0x27, 0x20] = .ok t [] ∧ smallTables.Knows t ∧ smallTables.value t = .ok none) ∧
    (∃ t, Term.read [0x46] = .ok t [] ∧ smallTables.Knows t ∧ smallTables.value t = .ok none) ∧
    (∃ t, Term.read [0x37, 0x10, 0x00, 0x10] = .ok t [] ∧ smallTables.Knows t ∧ smallTables.value t = .ok none) ∧
    (∃ t, Term.read [0x1B, 0x01, 0x00] = .ok t [] ∧ smallTables.Knows t ∧
      smallTables.value t = .error .unusableKind) ∧
    ∃ t, Term.read [0x57, 0x03, 0x11] = .ok t [] ∧ smallTables.Knows t ∧ smallTables.value t = .error .noSuchPart := by
  have hknows : ∀ t : Term, t.atoms = [] → smallTables.Knows t := fun t hatoms => knows_smallTables (by simp [hatoms])
  refine ⟨⟨.fpreg (.number 2), rfl, hknows _ rfl, rfl⟩, ⟨_, rfl, hknows _ rfl, rfl⟩, ⟨_, rfl, hknows _ rfl, rfl⟩,
    ⟨_, rfl, hknows _ rfl, rfl⟩, ⟨.typed (.xreg (.number 0)) (.integer 1), rfl, hknows _ rfl, ?_⟩⟩
  rw [value, Term.text]
  rfl

end Module

end BeamDisasm

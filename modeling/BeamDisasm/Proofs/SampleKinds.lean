import BeamDisasm.Proofs.Contents
import BeamDisasm.Proofs.Layouts
import BeamDisasm.Proofs.Utf8
import BeamDisasm.Sample.Operands

/-!
# Operands of the right kinds are written

Every operation has sample operands, of the kinds that it is written with. All operands of these kinds are written too,
however long their lists are, in a module whose tables have what is looked up. Their numbers make a difference only
where they are shown in decimal, which fails for numbers with too many digits.

The argument is that of a type system. `Field.accepts` says which kinds of operands a slot can hold, and one check of
the table of operations finds that every slot accepts its sample. An operand of a kind that is accepted has what the
slot asks for, be it an index, a value or an entry of a table, so the slot is filled if the numbers that it shows are
short. `Instruction.decimals` lists these numbers, and an instruction is written exactly if all of them are short.
-/
namespace BeamDisasm

/-! ## Kinds of operands -/

namespace Term

/-- The second term is of the kind of the first, with a number of its own. A register holds a number and no bytes, as
every register below 2048 does when it is read. -/
inductive SameKind : Term → Term → Prop where
  | literal (i j : Int) : SameKind (.literal i) (.literal j)
  | integer (i j : Int) : SameKind (.integer i) (.integer j)
  | label (i j : Int) : SameKind (.label i) (.label j)
  | atom (i j : Int) : SameKind (.atom i) (.atom j)
  | xreg (v : Scalar) (n : Int) : SameKind (.xreg v) (.xreg (.number n))
  | yreg (v : Scalar) (n : Int) : SameKind (.yreg v) (.yreg (.number n))

/-- Terms two by two. -/
def pairs : List Term → List (Term × Term)
  | k :: v :: ts => (k, v) :: pairs ts
  | _ => []

/-- The terms are made of any number of pairs, each of the kinds of a pair of the sample. -/
inductive PairedAs (sample : List Term) : List Term → Prop where
  | nil : PairedAs sample []
  | cons {k v key content : Term} {ts : List Term} (hmem : (k, v) ∈ pairs sample) (hkey : SameKind k key)
      (hcontent : SameKind v content) (h : PairedAs sample ts) : PairedAs sample (key :: content :: ts)

/-- An operand is of the kind of a sample. A list of cases is made of the same kinds of pairs, and any other list of
members that have a value in the module. -/
inductive Suits (m : Module) : Bool → Term → Term → Prop where
  | basic {paired : Bool} {sample t : Term} (h : SameKind sample t) : Suits m paired sample t
  | pairs {sample items : List Term} (h : PairedAs sample items) : Suits m true (.list sample) (.list items)
  | members {sample items : List Term} (h : ∀ t ∈ items, ∃ s, m.value t = .ok (some s)) :
      Suits m false (.list sample) (.list items)

/-- Terms of the kind have a number as index. -/
def isNumbered : Term → Bool
  | .literal _ | .label _ | .xreg _ | .yreg _ => true
  | _ => false

/-- Terms of the kind have a value without the help of the literals. Lists of cases are left out. -/
def isValued (paired : Bool) : Term → Bool
  | .integer _ | .label _ | .atom _ | .xreg _ | .yreg _ => true
  | .list _ => !paired
  | _ => false

/-- The number that a term shows in decimal where it is an index. -/
def indexNumbers : Term → List Int
  | .literal n | .label n | .xreg (.number n) | .yreg (.number n) => [n]
  | _ => []

/-- The number that the value of a term shows in decimal. Integers are written in hexadecimal digits and atoms by name,
and members of lists are left to themselves. -/
def valueNumbers : Term → List Int
  | .label n | .xreg (.number n) | .yreg (.number n) => [n]
  | _ => []

/-- The number that a term shows in its own text. -/
def textNumbers : Term → List Int
  | .integer n | .atom n => [n]
  | t => t.indexNumbers

variable {sample t : Term}

theorem SameKind.exists_index (h : SameKind sample t) (hnumbered : sample.isNumbered = true) :
    ∃ n, t.index = .ok (.number n) ∧ t.indexNumbers = [n] := by
  cases h with
  | literal i j | label i j => exact ⟨j, rfl, rfl⟩
  | xreg v n | yreg v n => exact ⟨n, rfl, rfl⟩
  | _ => cases hnumbered

theorem Suits.exists_index {m : Module} {paired : Bool} (h : Suits m paired sample t)
    (hnumbered : sample.isNumbered = true) : ∃ n, t.index = .ok (.number n) ∧ t.indexNumbers = [n] := by
  cases h with
  | basic h => exact h.exists_index hnumbered
  | _ => cases hnumbered

theorem Suits.exists_literal {m : Module} {paired : Bool} {i : Int} (h : Suits m paired (.literal i) t) :
    ∃ n, t = .literal n := by
  cases h with
  | basic h =>
      cases h with
      | literal i n => exact ⟨n, rfl⟩

theorem Suits.exists_atom {m : Module} {paired : Bool} {i : Int} (h : Suits m paired (.atom i) t) :
    ∃ n, t = .atom n := by
  cases h with
  | basic h =>
      cases h with
      | atom i n => exact ⟨n, rfl⟩

theorem Suits.isSome_literalIndex? {m : Module} {paired : Bool} (h : Suits m paired sample t) :
    sample.literalIndex?.isSome = t.literalIndex?.isSome := by
  cases h with
  | basic h => cases h <;> rfl
  | _ => rfl

theorem indexNumbers_of_literalIndex? {n : Int} (h : t.literalIndex? = some n) : t.indexNumbers = [n] := by
  cases t <;> simp_all [literalIndex?, indexNumbers]

theorem SameKind.exists_text_iff (h : SameKind sample t) :
    (∃ s, t.text = .ok s) ↔ ∀ n ∈ t.textNumbers, Text.Short n := by
  cases h with
  | atom i j => simp [text_atom_ok_iff, textNumbers]
  | xreg v n | yreg v n =>
      rw [text, exists_wrap_ok_iff, Scalar.decimal_ok_iff]
      simp [textNumbers, indexNumbers]
  | _ =>
      rw [text, exists_wrap_ok_iff, Text.exists_decimal_iff]
      simp [textNumbers, indexNumbers]

end Term

/-! ## What tables have -/

namespace Module

variable {m : Module} {i n : Int}

/-- The table of atoms, if there is one, has a text at the number. -/
def HasAtom (m : Module) (i : Int) : Prop :=
  ∀ table, m.atoms = some table → 0 ≤ i ∧ ∃ s, table.names[i.toNat]? = some (Bytes.ofText s)

/-- The table of imports has an entry at the number, and the atoms that it names. -/
def HasImport (m : Module) (n : Int) : Prop :=
  ∃ es e, m.imports = some es ∧ 0 ≤ n ∧ es[n.toNat]? = some e ∧ m.HasAtom e.module ∧ m.HasAtom e.function

/-- The table of exports has an entry at the number, and the atom that it names. -/
def HasExport (m : Module) (n : Int) : Prop :=
  ∃ es e, m.exports = some es ∧ 0 ≤ n ∧ es[n.toNat]? = some e ∧ m.HasAtom e.name

/-- The table of lines, if there is one, has a reference at the number. -/
def HasLine (m : Module) (n : Int) : Prop :=
  ∀ table, m.lines = some table → 0 ≤ n ∧ n < table.refs.length

theorem HasAtom.exists_name (h : m.HasAtom i) : ∃ name, m.atomName (.number i) = .ok name := by
  cases hatoms : m.atoms with
  | none => exact ⟨none, by simp [atomName, hatoms]⟩
  | some table =>
      obtain ⟨hi, s, hs⟩ := h table hatoms
      have hget : table.get (.number i) = .ok (Bytes.ofText s) := signedGet_of_nonneg hi hs
      exact ⟨some s, by simp [atomName, hatoms, hget, Text.utf8_ofText, bind, Except.bind, pure, Except.pure]⟩

theorem HasImport.exists_text (h : m.HasImport n) (hm : m.Parsed) : ∃ s, m.importText (.number n) = .ok s := by
  obtain ⟨es, e, himports, hn, he, hmodule, hfunction⟩ := h
  obtain ⟨module, hmodule⟩ := hmodule.exists_name
  obtain ⟨function, hfunction⟩ := hfunction.exists_name
  have hentry : entryAt es (.number n) = .ok e := signedGet_of_nonneg hn he
  have harity := Text.decimal_of_short (hm.imports himports e (List.mem_of_getElem? he))
  simp [importText, himports, hentry, hmodule, hfunction, harity, bind, Except.bind, pure, Except.pure]

theorem HasExport.exists_text (h : m.HasExport n) (hm : m.Parsed) : ∃ s, m.exportText (.number n) = .ok s := by
  obtain ⟨es, e, hexports, hn, he, hname⟩ := h
  obtain ⟨function, hname⟩ := hname.exists_name
  have hentry : entryAt es (.number n) = .ok e := signedGet_of_nonneg hn he
  have harity := Text.decimal_of_short (hm.exports hexports e (List.mem_of_getElem? he))
  simp [exportText, hexports, hentry, hname, harity, bind, Except.bind, pure, Except.pure]

theorem HasLine.exists_place (h : m.HasLine n) (hm : m.Parsed) : ∃ place, m.lineOf (.number n) = .ok place := by
  cases hlines : m.lines with
  | none => exact ⟨none, by simp [lineOf, hlines]⟩
  | some table =>
      obtain ⟨hn, hlt⟩ := h table hlines
      obtain ⟨refs, files, hsound⟩ := hm.lines hlines
      have hlength := hsound.length_refs
      obtain ⟨r, name, -, -, hget⟩ := hsound.get (i := n.toNat) (by omega)
      rw [Int.toNat_of_nonneg hn] at hget
      rw [lineOf, hlines]
      exact exists_wrap_ok_iff.mpr ⟨_, hget⟩

open Term (Suits SameKind)

variable {sample t : Term} {paired : Bool}

/-- An atom has a name, or is the missing one. -/
theorem exists_atomName (h : m.HasAtom i) : ∃ name, m.atomName (if i = 0 then .nil else .number i) = .ok name := by
  split_ifs
  · exact ⟨some "nil", rfl⟩
  · exact h.exists_name

theorem exists_value_iff (h : Suits m paired sample t) (hvalued : sample.isValued paired = true)
    (hatoms : ∀ i ∈ t.atoms, m.HasAtom i) : (∃ v, m.value t = .ok v) ↔ ∀ n ∈ t.valueNumbers, Text.Short n := by
  cases h with
  | basic h =>
      cases h with
      | integer i j => exact iff_of_true ⟨_, by rw [value]⟩ (by simp [Term.valueNumbers])
      | label i j =>
          rw [value, exists_wrap_ok_iff, Text.exists_decimal_iff]
          simp [Term.valueNumbers]
      | xreg v n | yreg v n =>
          rw [value, exists_wrap_ok_iff, Scalar.decimal_ok_iff]
          simp [Term.valueNumbers]
      | atom i j =>
          obtain ⟨name, hname⟩ := exists_atomName (hatoms j (by simp [Term.atoms]))
          rw [value, exists_wrap_ok_iff]
          exact iff_of_true (exists_wrap_ok_iff.mpr ⟨name, hname⟩) (by simp [Term.valueNumbers])
      | literal => cases hvalued
  | pairs h => cases hvalued
  | members h =>
      obtain ⟨s, hs⟩ := value_list_ok_iff.mpr h
      exact iff_of_true ⟨some s, hs⟩ (by simp [Term.valueNumbers])

end Module

/-! ## Cases -/

namespace CaseStyle

open Term (SameKind)

/-- The kinds of keys and of targets that a style can write. -/
def accepts : CaseStyle → Term × Term → Bool
  | .valueToLabel, (k, v) => k.isValued true && v.isNumbered
  | .indexToLabel, (k, v) => k.isNumbered && v.isNumbered
  | .indexToValue, (k, v) => k.isNumbered && v.isValued true

/-- The numbers that a case shows in decimal. -/
def numbers : CaseStyle → Term × Term → List Int
  | .valueToLabel, (k, v) => k.valueNumbers ++ v.indexNumbers
  | .indexToLabel, (k, v) => k.indexNumbers ++ v.indexNumbers
  | .indexToValue, (k, v) => k.indexNumbers ++ v.valueNumbers

theorem exists_text_iff {m : Module} {style : CaseStyle} {k v key content : Term}
    (haccepts : style.accepts (k, v) = true) (hkey : SameKind k key) (hcontent : SameKind v content)
    (hatoms : ∀ i ∈ key.atoms ++ content.atoms, m.HasAtom i) :
    (∃ s, style.text m (.term key, .term content) = .ok s) ↔ ∀ n ∈ style.numbers (key, content), Text.Short n := by
  have hkeyAtoms := fun i hi => hatoms i (List.mem_append_left _ hi)
  have hcontentAtoms := fun i hi => hatoms i (List.mem_append_right _ hi)
  cases style with
  | valueToLabel =>
      obtain ⟨hvalued, hnumbered⟩ := Bool.and_eq_true_iff.mp haccepts
      obtain ⟨n, hn, hnumber⟩ := hcontent.exists_index hnumbered
      rw [numbers, List.forall_mem_append, ← Module.exists_value_iff (.basic hkey) hvalued hkeyAtoms, hnumber]
      simp only [text, Member.value, Member.index, exists_bind_ok_iff, hn, Except.ok.injEq, exists_eq_left',
        Index.decimal, pure, Except.pure, exists_eq', and_true, Text.exists_decimal_iff, List.forall_mem_singleton,
        exists_and_right]
  | indexToLabel =>
      obtain ⟨hkeyed, hnumbered⟩ := Bool.and_eq_true_iff.mp haccepts
      obtain ⟨j, hj, hkeyNumber⟩ := hkey.exists_index hkeyed
      obtain ⟨n, hn, hnumber⟩ := hcontent.exists_index hnumbered
      rw [numbers, List.forall_mem_append, hkeyNumber, hnumber]
      simp only [text, Member.index, exists_bind_ok_iff, hj, hn, Except.ok.injEq, exists_eq_left', Index.decimal,
        pure, Except.pure, exists_eq', and_true, Text.exists_decimal_iff, List.forall_mem_singleton, exists_and_right]
  | indexToValue =>
      obtain ⟨hkeyed, hvalued⟩ := Bool.and_eq_true_iff.mp haccepts
      obtain ⟨j, hj, hkeyNumber⟩ := hkey.exists_index hkeyed
      rw [numbers, List.forall_mem_append, ← Module.exists_value_iff (.basic hcontent) hvalued hcontentAtoms,
        hkeyNumber]
      simp only [text, Member.value, Member.index, exists_bind_ok_iff, hj, Except.ok.injEq, exists_eq_left',
        Index.decimal, pure, Except.pure, exists_eq', and_true, Text.exists_decimal_iff, List.forall_mem_singleton,
        exists_and_right]
      exact and_comm

end CaseStyle

namespace Term

theorem twoByTwo_map_term (items : List Term) :
    Member.twoByTwo (items.map .term) = (pairs items).map fun p => (.term p.1, .term p.2) := by
  fun_induction pairs items with
  | case1 k v ts ih => simp [Member.twoByTwo, ih]
  | case2 ts h =>
      match ts, h with
      | [], _ => rfl
      | [_], _ => rfl
      | k :: v :: ts, h => exact absurd rfl (h k v ts)

/-- Pairs of members are pairs of the kinds of the sample. -/
theorem PairedAs.of_mem_pairs {sample items : List Term} (h : PairedAs sample items) {key content : Term}
    (hc : (key, content) ∈ pairs items) :
    (∃ k v, (k, v) ∈ pairs sample ∧ SameKind k key ∧ SameKind v content) ∧ key ∈ items ∧ content ∈ items := by
  induction h with
  | nil => simp [pairs] at hc
  | @cons k v key' content' ts hmem hkey hcontent _ ih =>
      rcases List.mem_cons.mp hc with heq | hc
      · cases heq
        exact ⟨⟨k, v, hmem, hkey, hcontent⟩, by simp, by simp⟩
      · obtain ⟨hkinds, hin, hin'⟩ := ih hc
        exact ⟨hkinds, by simp [hin], by simp [hin']⟩

end Term

/-! ## Slots -/

/-- The kinds of operands that a slot can hold. -/
def Field.accepts (style : Style) (paired : Bool) : Field → Term → Bool
  | .index _, t | .reference _, t => t.isNumbered
  | .payload _, t => t.literalIndex?.isSome
  | .count _, t => t.literalIndex?.isSome || style == .plain && t.isValued paired
  | .value _, t => style == .plain && t.isValued paired
  | .operand _, .list _ => false
  | .operand _, _ => style == .plain
  | .atom _, .atom _ | .imported _, .literal _ | .exported _, .literal _ => style == .plain
  | .cases kind _, .list items => style == .plain && paired && (Term.pairs items).all kind.accepts
  | _, _ => false

/-- What a slot for a number shows in decimal. -/
def Style.decimals : Style → List Int → List Int
  | .hexUpper, _ => []
  | .plain, ns | .decimal, ns => ns

/-- The numbers that a slot with an operand shows in decimal. -/
def Field.numbers (style : Style) : Field → Term → List Int
  | .index _, t | .reference _, t | .payload _, t => style.decimals t.indexNumbers
  | .count _, t => if t.literalIndex?.isSome then style.decimals t.indexNumbers else t.valueNumbers
  | .value _, t => t.valueNumbers
  | .operand _, t => t.textNumbers
  | .cases kind _, .list items => (Term.pairs items).flatMap kind.numbers
  | _, _ => []

namespace Layout

/-- The fields that a layout looks at. -/
def fields : Layout → List Field
  | .pieces first ps => first ++ ps.filterMap fun
    | .slot _ f => some f
    | .text _ => none
  | _ => []

/-- The operand at a position is a list of cases. -/
def holdsCases (l : Layout) (i : Nat) : Bool :=
  l.fields.any fun
    | .cases _ j => j == i
    | _ => false

/-- A slot accepts the operand that it holds. -/
def admits (l : Layout) (samples : List Term) (style : Style) (f : Field) : Bool :=
  samples[f.position]?.any (f.accepts style (l.holdsCases f.position))

/-- A field can be looked at first: it is an operand, or it is in a slot as well. -/
def looksAt (samples : List Term) (ps : List (Piece Field)) : Field → Bool
  | .operand i => samples[i]?.isSome
  | f => ps.any fun
    | .slot _ g => g == f
    | .text _ => false

/-- All slots accept their operands. -/
def accepts (l : Layout) (samples : List Term) : Bool :=
  match l with
  | .operands => samples.all fun t => t.isValued false
  | .pieces first ps => first.all (looksAt samples ps) && ps.all fun
    | .slot style f => l.admits samples style f
    | .text _ => true
  | .label => samples[0]?.any Term.isNumbered
  | .line => samples[0]?.any fun
    | .literal _ => true
    | _ => false

end Layout

/-- The sample operands of an operation as terms. -/
def Operation.samples (op : Operation) : List Term :=
  (Sample.operands op).map TermForm.term

/-- Every operation accepts its samples. -/
theorem Operation.accepts_samples : ∀ op ∈ table, op.layout.accepts op.samples = true := by
  decide +kernel

/-- The tables of the module have what an instruction looks up: the atoms among its operands, and the entries that
operands are the numbers of. -/
structure Module.Covers (m : Module) (inst : Instruction) : Prop where
  atoms : ∀ t ∈ inst.operands, ∀ i ∈ t.atoms, m.HasAtom i
  imports : ∀ j n, .imported j ∈ inst.operation.layout.fields → inst.operands[j]? = some (.literal n) → m.HasImport n
  exports : ∀ j n, .exported j ∈ inst.operation.layout.fields → inst.operands[j]? = some (.literal n) → m.HasExport n
  lines : ∀ n, inst.operation.layout = .line → inst.operands[0]? = some (.literal n) → m.HasLine n

namespace Instruction

open Term (Suits)

/-- The operands of an instruction are of the kinds of the samples of its operation. -/
structure Suited (m : Module) (inst : Instruction) : Prop where
  length_eq : inst.operands.length = inst.operation.samples.length
  suits : ∀ i sample t, inst.operation.samples[i]? = some sample → inst.operands[i]? = some t →
    Suits m (inst.operation.layout.holdsCases i) sample t

variable {inst : Instruction} {m : Module} {paired : Bool} {sample t : Term} {style : Style} {f : Field}

/-- A slot of the style is filled with what a field is worth. -/
def Fills (inst : Instruction) (m : Module) (style : Style) (f : Field) : Prop :=
  ∃ arg s, inst.field m f = .ok arg ∧ arg.format style = .ok s

theorem fills_number_iff {n : Int} (h : inst.field m f = .ok (.index (.number n))) :
    inst.Fills m style f ↔ ∀ k ∈ style.decimals [n], Text.Short k := by
  have hformat : inst.Fills m style f ↔ ∃ s, (Argument.index (.number n)).format style = .ok s := by
    simp [Fills, h]
  rw [hformat]
  cases style with
  | plain => simp [Argument.format, Index.plain, Style.decimals]
  | decimal => simp [Argument.format, Argument.toNumber, Style.decimals, bind, Except.bind]
  | hexUpper => simp [Argument.format, Argument.toNumber, Style.decimals, Except.map]

/-- A text that is made before it is written fills a slot if it can be made. -/
theorem fills_text_iff {α : Type} {x : Except Fault α} {g : α → Option String}
    (h : inst.field m f = do return argumentOf (g (← x))) : inst.Fills m .plain f ↔ ∃ a, x = .ok a := by
  rw [Fills, h]
  cases x with
  | error e => simp [bind, Except.bind]
  | ok a => cases hg : g a <;> simp [hg, argumentOf, Argument.format, bind, Except.bind, pure, Except.pure]

theorem indexOf_eq {j : Nat} {i : Index} (ht : inst.operand j = .ok t) (hi : t.index = .ok i) :
    inst.indexOf j = .ok i := by
  rw [indexOf, ht]
  exact hi

/-- A slot is filled with what is found at the index of an operand. -/
theorem fills_of_found {α : Type} {j : Nat} {i : Index} {look : Index → Except Fault α} {g : α → Option String}
    (hfield : inst.field m f = do
      let i ← inst.indexOf j
      return argumentOf (g (← look i)))
    (ht : inst.operand j = .ok t) (hi : t.index = .ok i) (hfound : ∃ a, look i = .ok a) : inst.Fills m .plain f := by
  rw [indexOf_eq ht hi] at hfield
  exact (fills_text_iff hfield).mpr hfound

/-- Cases of the kinds of the sample fill a slot together. -/
theorem fills_cases_iff {kind : CaseStyle} {j : Nat} {samples items : List Term}
    (ht : inst.operand j = .ok (.list items)) (hpaired : Term.PairedAs samples items)
    (haccepts : ∀ c ∈ Term.pairs samples, kind.accepts c = true)
    (hatoms : ∀ i ∈ (Term.list items).atoms, m.HasAtom i) :
    inst.Fills m .plain (.cases kind j) ↔ ∀ n ∈ (Term.pairs items).flatMap kind.numbers, Text.Short n := by
  have hfield : inst.field m (.cases kind j) = do
      return argumentOf (some (", ".intercalate (← (Member.twoByTwo (items.map .term)).mapM (kind.text m)))) := by
    rw [field, Instruction.cases, ht]
    rfl
  have hcase : ∀ p ∈ Term.pairs items,
      (∃ s, kind.text m (.term p.1, .term p.2) = .ok s) ↔ ∀ n ∈ kind.numbers p, Text.Short n := by
    rintro ⟨key, content⟩ hp
    obtain ⟨⟨k, v, hmem, hkey, hcontent⟩, hin, hin'⟩ := hpaired.of_mem_pairs hp
    refine CaseStyle.exists_text_iff (haccepts (k, v) hmem) hkey hcontent ?_
    intro i hi
    apply hatoms
    rw [Term.atoms_list, List.mem_flatMap]
    rcases List.mem_append.mp hi with hi | hi
    · exact ⟨key, hin, hi⟩
    · exact ⟨content, hin', hi⟩
  rw [fills_text_iff hfield, exists_mapM_ok_iff, Term.twoByTwo_map_term, List.forall_mem_map, List.forall_mem_flatMap]
  exact forall₂_congr hcase

/-- A slot that accepts a sample is filled by every operand of its kind whose numbers can be shown. -/
theorem fills_iff_of_accepts (hm : m.Parsed) (ht : inst.operand f.position = .ok t) (hsuits : Suits m paired sample t)
    (haccepts : f.accepts style paired sample = true) (hatoms : ∀ i ∈ t.atoms, m.HasAtom i)
    (himport : ∀ j n, f = .imported j → t = .literal n → m.HasImport n)
    (hexport : ∀ j n, f = .exported j → t = .literal n → m.HasExport n) :
    inst.Fills m style f ↔ ∀ n ∈ f.numbers style t, Text.Short n := by
  -- The kind of the operand decides which part of it the field takes, so each field has its own canonical form.
  cases f with
  | index j =>
      change inst.operand j = _ at ht
      obtain ⟨n, hn, hnumber⟩ := hsuits.exists_index haccepts
      rw [Field.numbers, hnumber]
      apply fills_number_iff
      rw [field, indexOf_eq ht hn]
      rfl
  | reference j =>
      change inst.operand j = _ at ht
      obtain ⟨n, hn, hnumber⟩ := hsuits.exists_index haccepts
      rw [Field.numbers, hnumber]
      apply fills_number_iff
      rw [field, ht]
      cases t with
      | integer v => cases hn
      | _ => simp [hn, bind, Except.bind, pure, Except.pure]
  | payload j =>
      change inst.operand j = _ at ht
      change sample.literalIndex?.isSome = true at haccepts
      rw [hsuits.isSome_literalIndex?] at haccepts
      obtain ⟨n, hn⟩ := Option.isSome_iff_exists.mp haccepts
      rw [Field.numbers, Term.indexNumbers_of_literalIndex? hn]
      apply fills_number_iff
      rw [field, ht]
      cases t with
      | integer v => cases hn
      | _ => simp [number?, hn, numberArgument, bind, Except.bind, pure, Except.pure]
  | count j =>
      change inst.operand j = _ at ht
      rw [Field.numbers]
      cases hliteral : t.literalIndex? with
      | some n =>
          rw [if_pos Option.isSome_some, Term.indexNumbers_of_literalIndex? hliteral]
          apply fills_number_iff
          simp [field, ht, hliteral, bind, Except.bind, pure, Except.pure]
      | none =>
          have hnone : sample.literalIndex?.isSome = false := by
            rw [hsuits.isSome_literalIndex?, hliteral, Option.isSome_none]
          simp only [Field.accepts, hnone, Bool.false_or, Bool.and_eq_true, beq_iff_eq] at haccepts
          obtain ⟨rfl, hvalued⟩ := haccepts
          rw [if_neg (by simp), ← Module.exists_value_iff hsuits hvalued hatoms]
          apply fills_text_iff (g := id)
          simp [field, ht, hliteral, bind, Except.bind]
  | value j =>
      change inst.operand j = _ at ht
      simp only [Field.accepts, Bool.and_eq_true, beq_iff_eq] at haccepts
      obtain ⟨rfl, hvalued⟩ := haccepts
      rw [Field.numbers, ← Module.exists_value_iff hsuits hvalued hatoms]
      apply fills_text_iff (g := id)
      rw [field, ht]
      rfl
  | operand j =>
      change inst.operand j = _ at ht
      cases hsuits with
      | basic h =>
          have hplain : style = .plain := by cases h <;> simpa [Field.accepts] using haccepts
          have hfield : inst.field m (.operand j) = .ok (.term t) := by
            rw [field, ht]
            rfl
          rw [Field.numbers, ← h.exists_text_iff, hplain, Fills]
          simp [hfield, Argument.format]
      | _ => cases haccepts
  | atom j =>
      change inst.operand j = _ at ht
      obtain ⟨i, rfl, rfl⟩ : ∃ i, sample = .atom i ∧ style = .plain := by
        cases sample <;> simp_all [Field.accepts]
      obtain ⟨n, rfl⟩ := hsuits.exists_atom
      have hname := Module.exists_atomName (hatoms n (by simp [Term.atoms]))
      exact iff_of_true (fills_of_found (g := id) rfl ht rfl hname) (by simp [Field.numbers])
  | imported j =>
      change inst.operand j = _ at ht
      obtain ⟨i, rfl, rfl⟩ : ∃ i, sample = .literal i ∧ style = .plain := by
        cases sample <;> simp_all [Field.accepts]
      obtain ⟨n, rfl⟩ := hsuits.exists_literal
      have htext := (himport j n rfl rfl).exists_text hm
      exact iff_of_true (fills_of_found (g := some) rfl ht rfl htext) (by simp [Field.numbers])
  | exported j =>
      change inst.operand j = _ at ht
      obtain ⟨i, rfl, rfl⟩ : ∃ i, sample = .literal i ∧ style = .plain := by
        cases sample <;> simp_all [Field.accepts]
      obtain ⟨n, rfl⟩ := hsuits.exists_literal
      have htext := (hexport j n rfl rfl).exists_text hm
      exact iff_of_true (fills_of_found (g := some) rfl ht rfl htext) (by simp [Field.numbers])
  | cases kind j =>
      cases hsuits with
      | basic h => cases h <;> cases haccepts
      | members h => simp [Field.accepts] at haccepts
      | pairs h =>
          simp only [Field.accepts, Bool.and_true, Bool.and_eq_true, beq_iff_eq, List.all_eq_true] at haccepts
          obtain ⟨rfl, hpairs⟩ := haccepts
          exact fills_cases_iff ht h hpairs hatoms

/-! ## Layouts -/

/-- The numbers that a piece of a layout shows in decimal. -/
def pieceNumbers (inst : Instruction) : Piece Field → List Int
  | .slot style f => inst.operands[f.position]?.toList.flatMap (f.numbers style)
  | .text _ => []

/-- The numbers that an instruction shows in decimal: those of its operands, or the line that it refers to. -/
def decimals (inst : Instruction) (m : Module) : List Int :=
  match inst.operation.layout with
  | .operands => inst.operands.flatMap Term.valueNumbers
  | .pieces _ ps => ps.flatMap inst.pieceNumbers
  | .label => inst.operands[0]?.toList.flatMap Term.indexNumbers
  | .line =>
    match inst.operands[0]? with
    | some (Term.literal n) => (m.lineOf (.number n)).toOption.join.toList.map Prod.snd
    | _ => []

namespace Suited

/-- Where there is a sample, there is an operand of its kind. -/
theorem exists_operand (h : inst.Suited m) {i : Nat} (hsample : inst.operation.samples[i]? = some sample) :
    ∃ t, inst.operands[i]? = some t ∧ Suits m (inst.operation.layout.holdsCases i) sample t := by
  obtain ⟨hi, -⟩ := List.getElem?_eq_some_iff.mp hsample
  rw [← h.length_eq] at hi
  exact ⟨_, List.getElem?_eq_getElem hi, h.suits i sample _ hsample (List.getElem?_eq_getElem hi)⟩

theorem fills_iff (h : inst.Suited m) (hm : m.Parsed) (hcovers : m.Covers inst)
    (hf : f ∈ inst.operation.layout.fields)
    (hadmits : inst.operation.layout.admits inst.operation.samples style f = true) :
    inst.Fills m style f ↔ ∀ n ∈ inst.pieceNumbers (.slot style f), Text.Short n := by
  obtain ⟨sample, hsample, haccepts⟩ := (Option.any_eq_true _ _).mp hadmits
  obtain ⟨t, ht, hsuits⟩ := h.exists_operand hsample
  have hatoms := hcovers.atoms t (List.mem_of_getElem? ht)
  rw [pieceNumbers, ht, Option.toList_some, List.flatMap_singleton]
  refine fills_iff_of_accepts hm (by rw [operand, ht]) hsuits haccepts hatoms ?_ ?_
  · rintro j n rfl rfl
    exact hcovers.imports j n hf ht
  · rintro j n rfl rfl
    exact hcovers.exports j n hf ht

/-- Operands of kinds that have values are all worth something, if their numbers can be shown. -/
theorem exists_values_iff (h : inst.Suited m) (hcovers : m.Covers inst)
    (hcases : ∀ i, inst.operation.layout.holdsCases i = false)
    (hvalued : ∀ sample ∈ inst.operation.samples, sample.isValued false = true) :
    (∃ vs, m.values inst.operands = .ok vs) ↔ ∀ n ∈ inst.operands.flatMap Term.valueNumbers, Text.Short n := by
  rw [Module.values_eq_mapM, exists_mapM_ok_iff, List.forall_mem_flatMap]
  refine forall₂_congr fun t ht => ?_
  obtain ⟨i, hi⟩ := List.mem_iff_getElem?.mp ht
  obtain ⟨hlt, -⟩ := List.getElem?_eq_some_iff.mp hi
  rw [h.length_eq] at hlt
  have hsuits := h.suits i _ t (List.getElem?_eq_getElem hlt) hi
  rw [hcases] at hsuits
  exact Module.exists_value_iff hsuits (hvalued _ (List.getElem_mem hlt)) (hcovers.atoms t ht)

/-- A field that is looked at first makes no difference where all slots are filled. -/
theorem exists_field_of_looksAt (h : inst.Suited m) {ps : List (Piece Field)}
    (hlooks : Layout.looksAt inst.operation.samples ps f = true)
    (hfills : ∀ style f, .slot style f ∈ ps → inst.Fills m style f) : ∃ arg, inst.field m f = .ok arg := by
  have hslot : (ps.any fun | .slot _ g => g == f | .text _ => false) = true → ∃ arg, inst.field m f = .ok arg := by
    intro hany
    obtain ⟨p, hp, hpf⟩ := List.any_eq_true.mp hany
    cases p with
    | text t => cases hpf
    | slot style g =>
        obtain rfl := beq_iff_eq.mp hpf
        obtain ⟨arg, -, harg, -⟩ := hfills style g hp
        exact ⟨arg, harg⟩
  cases f with
  | operand i =>
      obtain ⟨sample, hsample⟩ := Option.isSome_iff_exists.mp hlooks
      obtain ⟨t, ht, -⟩ := h.exists_operand hsample
      exact ⟨.term t, by simp [field, operand, ht, bind, Except.bind, pure, Except.pure]⟩
  | _ => exact hslot hlooks

/-- Pieces whose slots accept the samples are written, if their numbers can be shown. -/
theorem exists_laidOut_iff (h : inst.Suited m) (hm : m.Parsed) (hcovers : m.Covers inst) {first : List Field}
    {ps : List (Piece Field)} (hlayout : inst.operation.layout = .pieces first ps)
    (haccepts : (Layout.pieces first ps).accepts inst.operation.samples = true) (notes : List String) :
    (∃ s, inst.laidOut (inst.field m) notes first ps = .ok s) ↔
      ∀ n ∈ ps.flatMap inst.pieceNumbers, Text.Short n := by
  rw [Layout.accepts, Bool.and_eq_true, List.all_eq_true, List.all_eq_true, ← hlayout] at haccepts
  have hlaidOut : (∃ s, inst.laidOut (inst.field m) notes first ps = .ok s) ↔
      ∀ style f, .slot style f ∈ ps → inst.Fills m style f := by
    refine Iff.trans ?_ Layout.exists_writes_iff
    constructor
    · rintro ⟨s, hs⟩
      obtain ⟨-, r, hr, -⟩ := laidOut_eq_ok_iff.mp hs
      exact ⟨r, hr⟩
    · rintro ⟨r, hr⟩
      have hfills := Layout.exists_writes_iff.mp ⟨r, hr⟩
      have hfirst := fun f hf => h.exists_field_of_looksAt (haccepts.1 f hf) hfills
      exact ⟨_, laidOut_eq_ok_iff.mpr ⟨hfirst, r, hr, rfl⟩⟩
  have hslot : ∀ style f, .slot style f ∈ ps →
      (inst.Fills m style f ↔ ∀ n ∈ inst.pieceNumbers (.slot style f), Text.Short n) := by
    intro style f hf
    refine h.fills_iff hm hcovers ?_ (haccepts.2 _ hf)
    rw [hlayout, Layout.fields, List.mem_append, List.mem_filterMap]
    exact .inr ⟨_, hf, rfl⟩
  rw [hlaidOut, List.forall_mem_flatMap]
  constructor
  · intro hfills p hp
    cases p with
    | text t => simp [pieceNumbers]
    | slot style f => exact (hslot style f hp).mp (hfills style f hp)
  · intro hshort style f hf
    exact (hslot style f hf).mpr (hshort _ hf)

/-- A place in the source is written if its line can be shown. -/
theorem exists_placeText_iff (hm : m.Parsed) {i : Index} {place : Option (Option Scalar × Int)}
    (hplace : m.lineOf i = .ok place) :
    (∃ s, placeText place = .ok s) ↔ ∀ n ∈ place.toList.map Prod.snd, Text.Short n := by
  cases place with
  | none => simp [placeText]
  | some place =>
      obtain ⟨file, line⟩ := place
      have hfile : ∀ v, file = some v → ∃ s, v.plain = .ok s := by
        rintro v rfl
        cases hlines : m.lines with
        | none => simp [Module.lineOf, hlines] at hplace
        | some table =>
            rw [Module.lineOf, hlines] at hplace
            obtain ⟨found, hget, heq⟩ := exists_of_bind hplace
            obtain rfl := Option.some.inj (Except.ok.inj heq)
            obtain ⟨refs, files, hsound⟩ := hm.lines hlines
            obtain ⟨b, rfl⟩ := hsound.raw_of_get hget
            exact ⟨_, rfl⟩
      cases file with
      | none =>
          rw [placeText, exists_wrap_ok_iff, Text.exists_decimal_iff]
          simp
      | some v =>
          obtain ⟨name, hname⟩ := hfile v rfl
          rw [placeText, hname]
          exact exists_wrap_ok_iff.trans (by simp)

end Suited

/-- An instruction with operands of the kinds of the samples is written exactly if every number that it shows in decimal
is short. The lengths of its lists make no difference, and the module is any that was read and whose tables have what is
looked up. -/
theorem text_of_suited_iff {stop : Option Fault} {file rest : Bytes} (hm : Module.read stop file = .ok m rest)
    (hop : inst.operation ∈ Operation.table) (h : inst.Suited m) (hcovers : m.Covers inst) (notes : List String) :
    (∃ s, inst.text m notes = .ok s) ↔ ∀ n ∈ inst.decimals m, Text.Short n := by
  have haccepts := Operation.accepts_samples inst.operation hop
  have hparsed := Module.parsed_of_read hm
  unfold text decimals
  cases hlayout : inst.operation.layout with
  | operands =>
      rw [hlayout, Layout.accepts, List.all_eq_true] at haccepts
      simp only [exists_wrap_ok_iff]
      exact h.exists_values_iff hcovers (fun i => by rw [hlayout]; rfl) haccepts
  | pieces first ps =>
      rw [hlayout] at haccepts
      exact h.exists_laidOut_iff hparsed hcovers hlayout haccepts notes
  | label =>
      rw [hlayout, Layout.accepts] at haccepts
      obtain ⟨sample, hsample, hnumbered⟩ := (Option.any_eq_true _ _).mp haccepts
      obtain ⟨t, ht, hsuits⟩ := h.exists_operand hsample
      obtain ⟨n, hn, hnumber⟩ := hsuits.exists_index hnumbered
      have hindex : inst.indexOf 0 = .ok (.number n) := indexOf_eq (by rw [operand, ht]) hn
      simp only [hindex, ht, hnumber, Option.toList_some, List.flatMap_singleton, List.forall_mem_singleton]
      exact exists_wrap_ok_iff.trans Text.exists_decimal_iff
  | line =>
      rw [hlayout, Layout.accepts] at haccepts
      obtain ⟨sample, hsample, hliteral⟩ := (Option.any_eq_true _ _).mp haccepts
      obtain ⟨t, ht, hsuits⟩ := h.exists_operand hsample
      obtain ⟨i, rfl⟩ : ∃ i, sample = .literal i := by cases sample <;> simp_all
      obtain ⟨n, rfl⟩ := hsuits.exists_literal
      obtain ⟨place, hplace⟩ := (hcovers.lines n hlayout ht).exists_place hparsed
      have hindex : inst.indexOf 0 = .ok (.number n) := indexOf_eq (by rw [operand, ht]) rfl
      have hjoin : (m.lineOf (.number n)).toOption.join.toList = place.toList := by rw [hplace]; rfl
      simp only [hindex, ht, hjoin]
      rw [← Suited.exists_placeText_iff hparsed hplace]
      change (∃ s, (m.lineOf (.number n) >>= placeText) = .ok s) ↔ _
      rw [hplace]
      rfl

/-- A module with the atoms `m` and `é`. -/
def twoAtoms : Bytes :=
  Module.encodeFile [(Bytes.ofAscii "AtU8", [0, 0, 0, 2, 1, 109, 2, 0xC3, 0xA9])]

/-- Three cases, of which one has no atom. -/
def threeCases : List Term :=
  [.xreg (.number 5), .label 9, .list [.atom 2, .label 3, .atom 0, .label 4, .atom 1, .label 7]]

theorem text_of_suited_cases :
    ∃ m op, Module.read none twoAtoms = .ok m [] ∧ Operation.find? 59 = some op ∧
      (⟨op, threeCases⟩ : Instruction).Suited m ∧ m.Covers ⟨op, threeCases⟩ ∧
      (⟨op, threeCases⟩ : Instruction).decimals m = [5, 9, 3, 4, 7] ∧
      ∃ s, (⟨op, threeCases⟩ : Instruction).text m [] = .ok s := by
  obtain ⟨m, hm, hatoms⟩ : ∃ m, Module.read none twoAtoms = .ok m [] ∧
      m.atoms = some ⟨["module", "m", "é"].map Bytes.ofText⟩ := ⟨_, rfl, by with_unfolding_all rfl⟩
  have hhas : ∀ i : Int, 0 ≤ i → i < 3 → m.HasAtom i := by
    intro i hi hlt table htable
    obtain rfl := Option.some.inj (hatoms.symm.trans htable)
    refine ⟨hi, ?_⟩
    obtain rfl | rfl | rfl : i = 0 ∨ i = 1 ∨ i = 2 := by omega
    · exact ⟨"module", rfl⟩
    · exact ⟨"m", rfl⟩
    · exact ⟨"é", rfl⟩
  obtain ⟨op, hop, hmem, hlayout, hdecimals, hsamples, hfields⟩ : ∃ op, Operation.find? 59 = some op ∧
      op ∈ Operation.table ∧ op.layout ≠ .line ∧
      (⟨op, threeCases⟩ : Instruction).decimals m = [5, 9, 3, 4, 7] ∧
      op.samples = [.xreg (.number 0), .label 2, .list [.atom 2, .label 3, .atom 3, .label 4]] ∧
      op.layout.fields = [.cases .valueToLabel 2, .value 0, .index 1, .cases .valueToLabel 2] :=
    ⟨_, rfl, by decide +kernel, by decide, rfl, rfl, rfl⟩
  have hsuited : (⟨op, threeCases⟩ : Instruction).Suited m := by
    refine ⟨by rw [hsamples]; rfl, ?_⟩
    intro i sample t hsample ht
    rw [hsamples] at hsample
    rcases i with _ | _ | _ | i
    · cases hsample
      cases ht
      exact .basic (.xreg _ _)
    · cases hsample
      cases ht
      exact .basic (.label _ _)
    · cases hsample
      cases ht
      have hcases : op.layout.holdsCases 2 = true := by rw [Layout.holdsCases, hfields]; rfl
      have hkinds : (Term.atom 2, Term.label 3) ∈ Term.pairs [.atom 2, .label 3, .atom 3, .label 4] := by
        simp [Term.pairs]
      change Suits m (op.layout.holdsCases 2) _ _
      rw [hcases]
      refine .pairs (.cons hkinds (.atom _ _) (.label _ _) ?_)
      refine .cons hkinds (.atom _ _) (.label _ _) ?_
      exact .cons hkinds (.atom _ _) (.label _ _) .nil
    · simp at hsample
  have hcovers : m.Covers ⟨op, threeCases⟩ := by
    refine ⟨?_, ?_, ?_, fun n hline => absurd hline hlayout⟩
    · intro t ht i hi
      have hbound : 0 ≤ i ∧ i < 3 := by
        simp only [threeCases, List.mem_cons, List.not_mem_nil, or_false] at ht
        rcases ht with rfl | rfl | rfl <;> simp [Term.atoms, Term.atomsAll] at hi
        omega
      exact hhas i hbound.1 hbound.2
    · intro j n hj
      simp [hfields] at hj
    · intro j n hj
      simp [hfields] at hj
  refine ⟨m, op, hm, hop, hsuited, hcovers, hdecimals, (text_of_suited_iff hm hmem hsuited hcovers []).mpr ?_⟩
  rw [hdecimals]
  decide

/-- A jump to a label whose number is too long is not written, though a jump wants a label and any label will do. -/
theorem text_of_far_jump :
    ∃ m op, Module.read none twoAtoms = .ok m [] ∧ Operation.find? 61 = some op ∧
      (⟨op, [.label Text.firstLong]⟩ : Instruction).Suited m ∧ m.Covers ⟨op, [.label Text.firstLong]⟩ ∧
      (⟨op, [.label Text.firstLong]⟩ : Instruction).text m [] = .error .numeralTooLong := by
  obtain ⟨m, hm⟩ : ∃ m, Module.read none twoAtoms = .ok m [] := ⟨_, rfl⟩
  obtain ⟨op, hop, hlayout, hsamples⟩ : ∃ op, Operation.find? 61 = some op ∧
      op.layout = .pieces [] [.text "label", .slot .decimal (.index 0)] ∧ op.samples = [.label 2] :=
    ⟨_, rfl, rfl, rfl⟩
  refine ⟨m, op, hm, hop, ⟨by rw [hsamples]; rfl, ?_⟩, ⟨?_, ?_, ?_, ?_⟩, ?_⟩
  · intro i sample t hsample ht
    rw [hsamples] at hsample
    rcases i with _ | i
    · cases hsample
      cases ht
      exact .basic (.label _ _)
    · simp at hsample
  · simp [Term.atoms]
  · simp [hlayout, Layout.fields]
  · simp [hlayout, Layout.fields]
  · simp [hlayout]
  · have hlong := Text.decimal_of_not_short Text.not_short_firstLong
    simp [text, hlayout, laidOut, pieces, field, indexOf, operand, Term.index, render, Argument.format,
      Argument.toNumber, hlong, bind, Except.bind, pure, Except.pure]

end Instruction

end BeamDisasm

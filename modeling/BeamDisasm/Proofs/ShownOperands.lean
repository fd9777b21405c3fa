import BeamDisasm.Proofs.Layouts
import BeamDisasm.Proofs.LineBreaks
import BeamDisasm.Proofs.Renderings
import Mathlib

/-!
# Operands that the text shows

Two instructions that differ only in the number of a literal are to have different texts, or else the number is lost. A
layout says how often and in which form it writes the literal at a position: `Layout.formsAt`. The texts of the two
instructions are then the same but for that many places, where one number stands for the other. Forms of numbers are
injective, so the texts are equal exactly if there is no such place.

Of all positions that no table is asked about, the layouts leave out one, the second operand of `bs_start_match4`.
-/
namespace BeamDisasm

/-! ## Forms of numbers -/

namespace Text

theorem digits_inj {a b : Int} : digits a = digits b ↔ a = b := by
  have hrepr : ∀ n, digits n = n.repr := by
    intro n
    cases n <;> rfl
  rw [hrepr, hrepr, Int.repr_inj]

/-- Digits in capitals determine the number. The last digit is the remainder, and those before it are the quotient. -/
theorem eq_of_upperDigits {m n : Nat}
    (h : (Nat.toDigits 16 m).map Char.toUpper = (Nat.toDigits 16 n).map Char.toUpper) : m = n := by
  have hdigit : ∀ d < 16, ∀ e < 16, (Nat.digitChar d).toUpper = (Nat.digitChar e).toUpper → d = e := by decide
  have hsingle : ∀ {d k : Nat}, 16 ≤ k →
      [d].map (fun d => (Nat.digitChar d).toUpper) ≠ (Nat.toDigits 16 k).map Char.toUpper := by
    intro d k hk heq
    rw [Nat.toDigits_of_base_le (by omega) hk] at heq
    have hlength := congrArg List.length heq
    have hpos := List.length_pos_iff.mpr (Nat.toDigits_ne_nil (n := k / 16) (b := 16))
    simp only [List.length_map, List.length_append, List.length_singleton] at hlength
    omega
  induction m using Nat.strongRecOn generalizing n with
  | _ m ih =>
    by_cases hm : m < 16
    · rw [Nat.toDigits_of_lt_base hm] at h
      by_cases hn : n < 16
      · rw [Nat.toDigits_of_lt_base hn] at h
        exact hdigit m hm n hn (by simpa using h)
      · exact absurd h (hsingle (by omega))
    · by_cases hn : n < 16
      · rw [Nat.toDigits_of_lt_base hn] at h
        exact absurd h.symm (hsingle (by omega))
      · rw [Nat.toDigits_of_base_le (n := m) (by omega) (by omega),
          Nat.toDigits_of_base_le (n := n) (by omega) (by omega), List.map_append, List.map_append] at h
        obtain ⟨hquotient, hlast⟩ := List.append_inj' h rfl
        have hdiv := ih (m / 16) (by omega) hquotient
        have hmod := hdigit (m % 16) (by omega) (n % 16) (by omega) (by simpa using hlast)
        omega

/-- A numeral without a sign has none among its digits. -/
theorem minus_notMem_upperDigits (n : Nat) : '-' ∉ (Nat.toDigits 16 n).map Char.toUpper := by
  have hdigit : ∀ d < 16, (Nat.digitChar d).toUpper ≠ '-' := by decide
  intro h
  obtain ⟨c, hc, hminus⟩ := List.mem_map.mp h
  obtain ⟨d, hd, rfl⟩ := exists_digit_of_mem (by omega) hc
  exact hdigit d hd hminus

theorem hexUpper_inj {a b : Int} : hexUpper a = hexUpper b ↔ a = b := by
  refine ⟨fun h => ?_, congrArg hexUpper⟩
  have h := String.ofList_injective h
  cases a with
  | ofNat m =>
      cases b with
      | ofNat n =>
          simp only [hex, String.toList_ofList] at h
          rw [eq_of_upperDigits h]
      | negSucc n =>
          simp only [hex, String.toList_append, String.toList_ofList, List.map_append] at h
          exact absurd (h ▸ List.mem_append_left _ (by decide)) (minus_notMem_upperDigits m)
  | negSucc m =>
      cases b with
      | ofNat n =>
          simp only [hex, String.toList_append, String.toList_ofList, List.map_append] at h
          exact absurd (h ▸ List.mem_append_left _ (by decide)) (minus_notMem_upperDigits n)
      | negSucc n =>
          simp only [hex, String.toList_append, String.toList_ofList, List.map_append] at h
          have hsucc := eq_of_upperDigits (List.append_cancel_left h)
          rw [Nat.add_right_cancel hsucc]

end Text

/-- The forms that the number of a literal can have in a text. -/
inductive NumberForm where
  | decimal
  | hexUpper
  | applied
  deriving DecidableEq

namespace NumberForm

/-- A number in a form. -/
def text : NumberForm → Int → String
  | .decimal, n => Text.digits n
  | .hexUpper, n => Text.hexUpper n
  | .applied, n => Term.applied "BeamLiteral" (Text.digits n)

theorem text_inj {form : NumberForm} {a b : Int} : form.text a = form.text b ↔ a = b := by
  cases form with
  | decimal => exact Text.digits_inj
  | hexUpper => exact Text.hexUpper_inj
  | applied => simp [text, Term.applied, String.append_left_inj, String.append_right_inj, Text.digits_inj]

end NumberForm

/-! ## Texts that differ in places -/

/-- Two texts are the same but for `k` places, where the one has `x` and the other `y`. -/
inductive Swapped (x y : String) : Nat → String → String → Prop
  | nil : Swapped x y 0 "" ""
  | kept {k : Nat} {s s' : String} (t : String) : Swapped x y k s s' → Swapped x y k (t ++ s) (t ++ s')
  | swapped {k : Nat} {s s' : String} : Swapped x y k s s' → Swapped x y (k + 1) (x ++ s) (y ++ s')

namespace Swapped

variable {x y s s' : String} {k : Nat}

theorem refl (s : String) : Swapped x y 0 s s := by
  simpa using (nil (x := x) (y := y)).kept s

theorem length (h : Swapped x y k s s') : s.length + k * y.length = s'.length + k * x.length := by
  induction h with
  | nil => simp
  | kept t _ ih =>
      simp only [String.length_append]
      omega
  | swapped _ ih =>
      simp only [String.length_append, Nat.add_one_mul]
      omega

/-- Equal texts have the same in the places that differ, if these are of the same length. -/
theorem eq_of_length (h : Swapped x y k s s') (hlength : x.length = y.length) (heq : s = s') : k = 0 ∨ x = y := by
  induction h with
  | nil => exact .inl rfl
  | kept t _ ih => exact ih ((String.append_right_inj t).mp heq)
  | swapped _ _ =>
      have hlists := congrArg String.toList heq
      rw [String.toList_append, String.toList_append] at hlists
      obtain ⟨hfront, -⟩ := List.append_inj hlists (by rw [String.length_toList, String.length_toList, hlength])
      exact .inr (String.toList_injective hfront)

/-- If texts are equal, then so are their lengths, hence also those of what differs. -/
theorem eq_iff (h : Swapped x y k s s') (hne : x ≠ y) : s = s' ↔ k = 0 := by
  constructor
  · intro heq
    by_contra hk
    have hlength := h.length
    rw [heq] at hlength
    have hsame : y.length = x.length := Nat.eq_of_mul_eq_mul_left (Nat.pos_of_ne_zero hk) (by omega)
    exact (h.eq_of_length hsame.symm heq).elim hk hne
  · intro hk
    induction h with
    | nil => rfl
    | kept t _ ih => rw [ih hk]
    | swapped => omega

end Swapped

/-- Two lists differ only at a position, where the one has `x` and the other `y`. -/
structure DifferAt {α : Type} (i : Nat) (x y : α) (xs ys : List α) : Prop where
  left : xs[i]? = some x
  right : ys[i]? = some y
  elsewhere : ∀ j, j ≠ i → xs[j]? = ys[j]?

namespace DifferAt

variable {α : Type} {i : Nat} {x y : α} {xs ys : List α}

theorem exists_of_zero (h : DifferAt 0 x y xs ys) : ∃ zs, xs = x :: zs ∧ ys = y :: zs := by
  obtain ⟨zs, rfl⟩ : ∃ zs, xs = x :: zs := by
    cases xs with
    | nil => simpa using h.left
    | cons a zs => exact ⟨zs, by simpa using h.left⟩
  refine ⟨zs, rfl, ?_⟩
  cases ys with
  | nil => simpa using h.right
  | cons b ws =>
      have htail : zs = ws := List.ext_getElem? fun j => by simpa using h.elsewhere (j + 1) (by omega)
      rw [htail]
      simpa using h.right

theorem exists_of_succ (h : DifferAt (i + 1) x y xs ys) :
    ∃ z xs' ys', xs = z :: xs' ∧ ys = z :: ys' ∧ DifferAt i x y xs' ys' := by
  have hhead := h.elsewhere 0 (by omega)
  cases xs with
  | nil => simpa using h.left
  | cons z xs' =>
      cases ys with
      | nil => simp at hhead
      | cons w ys' =>
          obtain rfl : z = w := by simpa using hhead
          refine ⟨z, xs', ys', rfl, rfl, by simpa using h.left, by simpa using h.right, ?_⟩
          intro j hj
          simpa using h.elsewhere (j + 1) (by omega)

/-- Texts that are joined differ in one place if the parts do. -/
theorem swapped_intercalate {x y sep : String} {xs ys : List String} (h : DifferAt i x y xs ys) :
    Swapped x y 1 (sep.intercalate xs) (sep.intercalate ys) := by
  induction i generalizing xs ys with
  | zero =>
      obtain ⟨zs, rfl, rfl⟩ := h.exists_of_zero
      cases zs with
      | nil => simpa using (Swapped.refl "").swapped
      | cons z zs =>
          rw [String.intercalate_cons_cons, String.intercalate_cons_cons, String.append_assoc, String.append_assoc]
          exact (Swapped.refl _).swapped
  | succ i ih =>
      obtain ⟨z, xs, ys, rfl, rfl, htail⟩ := h.exists_of_succ
      cases xs with
      | nil => simpa using htail.left
      | cons a xs =>
          cases ys with
          | nil => simpa using htail.right
          | cons b ys =>
              rw [String.intercalate_cons_cons, String.intercalate_cons_cons, String.append_assoc, String.append_assoc]
              exact ((ih htail).kept sep).kept z

end DifferAt

/-! ## Literals in the slots of a layout -/

/-- The form that a style gives to a number. -/
def Style.numberForm : Style → NumberForm
  | .plain | .decimal => .decimal
  | .hexUpper => .hexUpper

namespace Field

/-- The operand is the number of an entry in the table of atoms, of imports or of exports. -/
def looksUp : Field → Bool
  | .atom _ | .imported _ | .exported _ => true
  | _ => false

/-- The form of a literal in a slot, if it can stand there and is not looked up. -/
def literalForm : Style → Field → Option NumberForm
  | style, .index _ | style, .payload _ | style, .count _ | style, .reference _ => some style.numberForm
  | .plain, .value _ => some .decimal
  | .plain, .operand _ => some .applied
  | _, _ => none

end Field

namespace Layout

/-- The forms of a literal at a position, one for each slot that holds the operand. -/
def slotForms (i : Nat) : List (Piece Field) → List (Option NumberForm)
  | [] => []
  | .text _ :: ps => slotForms i ps
  | .slot style f :: ps => if f.position = i then f.literalForm style :: slotForms i ps else slotForms i ps

/-- The forms of a literal at a position, one for each time that the layout writes the operand. -/
def formsAt : Layout → Nat → List (Option NumberForm)
  | .operands, _ => [some .decimal]
  | .pieces _ ps, i => slotForms i ps
  | .label, i => if i = 0 then [some .decimal] else []
  | .line, _ => []

/-- The operand at a position is looked up in the table of atoms, imports, exports or lines. -/
def resolves : Layout → Nat → Bool
  | .pieces _ ps, i => ps.any fun
    | .slot _ f => f.looksUp && f.position == i
    | .text _ => false
  | .line, _ => true
  | _, _ => false

end Layout

namespace Operation

/-- Every operand that is not looked up is written in one form, and all but one are written. -/
theorem formsAt_of_mem_table : ∀ op ∈ table, ∀ i < op.arity, op.layout.resolves i = false →
    (∃ form ∈ [NumberForm.decimal, .hexUpper, .applied],
      ∀ shown ∈ op.layout.formsAt i, shown = none ∨ shown = some form) ∧
    (op.layout.formsAt i = [] ↔ op.mnemonic = "bs_start_match4" ∧ i = 1) := by
  decide +kernel

end Operation

namespace Module

variable {m : Module}

/-- Values are taken operand by operand. -/
theorem getElem?_of_values {ts : List Term} {vs : List (Option String)} (h : m.values ts = .ok vs) (j : Nat) :
    vs[j]? = ts[j]?.bind fun t => (m.value t).toOption := by
  induction ts generalizing vs j with
  | nil =>
      obtain rfl := Except.ok.inj h
      rfl
  | cons t ts ih =>
      rw [values] at h
      obtain ⟨v, hv, h⟩ := exists_of_bind h
      obtain ⟨ws, hws, h⟩ := exists_of_bind h
      obtain rfl := Except.ok.inj h
      cases j with
      | zero => simp [hv, Except.toOption]
      | succ j => simpa using ih hws j

theorem eq_of_value_literal (hm : m.literals = none) {n : Int} {v : Option String}
    (h : m.value (.literal n) = .ok v) : v = some (Text.digits n) := by
  rw [value, literalText, literal, hm] at h
  obtain ⟨s, hs, h⟩ := exists_of_bind h
  obtain rfl := Except.ok.inj h
  rw [(Text.decimal_eq_ok_iff.mp hs).2]

/-- Without literals, the values of operands differ where the operands do. -/
theorem differAt_of_values (hm : m.literals = none) {i : Nat} {a b : Int} {ts us : List Term}
    {vs ws : List (Option String)} (h : DifferAt i (.literal a) (.literal b) ts us) (hvs : m.values ts = .ok vs)
    (hws : m.values us = .ok ws) :
    DifferAt i (Text.digits a) (Text.digits b) (vs.map orNone) (ws.map orNone) := by
  have hvalue : ∀ {n : Int} {ts : List Term} {vs : List (Option String)}, m.values ts = .ok vs →
      ts[i]? = some (.literal n) → m.value (.literal n) = .ok (some (Text.digits n)) := by
    intro n ts vs hvs ht
    rw [values_eq_mapM] at hvs
    obtain ⟨v, hv⟩ := exists_mapM_ok_iff.mp ⟨vs, hvs⟩ _ (List.mem_of_getElem? ht)
    rw [hv, eq_of_value_literal hm hv]
  refine ⟨?_, ?_, ?_⟩
  · simp [getElem?_of_values hvs, h.left, hvalue hvs h.left, Except.toOption, orNone]
  · simp [getElem?_of_values hws, h.right, hvalue hws h.right, Except.toOption, orNone]
  · intro j hj
    simp [getElem?_of_values hvs, getElem?_of_values hws, h.elsewhere j hj]

end Module

namespace Instruction

variable {inst inst' : Instruction} {m : Module} {i : Nat} {a b : Int} {s s' : String}

/-- A literal in a slot is written in the form of the slot, unless it is looked up. -/
theorem eq_text_of_literal (hm : m.literals = none) {n : Int} {style : Style} {f : Field} {arg : Argument}
    (hoperand : inst.operand f.position = .ok (.literal n)) (hlooksUp : f.looksUp = false)
    (harg : inst.field m f = .ok arg) (hs : arg.format style = .ok s) :
    ∃ form, f.literalForm style = some form ∧ s = form.text n := by
  have hnumber : ∀ {s}, (Argument.index (.number n)).format style = .ok s → s = style.numberForm.text n := by
    intro s hs
    cases style with
    | plain | decimal => exact (Text.decimal_eq_ok_iff.mp hs).2.symm
    | hexUpper => exact (Except.ok.inj hs).symm
  cases f with
  | index j =>
      simp only [field, indexOf, Field.position] at harg hoperand
      rw [hoperand] at harg
      obtain rfl := Except.ok.inj harg
      exact ⟨_, rfl, hnumber hs⟩
  | payload j | count j | reference j =>
      simp only [field, Field.position] at harg hoperand
      rw [hoperand] at harg
      obtain rfl := Except.ok.inj harg
      exact ⟨_, rfl, hnumber hs⟩
  | value j =>
      simp only [field, Field.position] at harg hoperand
      rw [hoperand] at harg
      obtain ⟨t, ht, harg⟩ := exists_of_bind harg
      obtain rfl := Except.ok.inj ht
      obtain ⟨v, hv, harg⟩ := exists_of_bind harg
      obtain rfl := Except.ok.inj harg
      obtain rfl := Module.eq_of_value_literal hm hv
      cases style with
      | plain => exact ⟨_, rfl, (Except.ok.inj hs).symm⟩
      | _ => cases hs
  | operand j =>
      simp only [field, Field.position] at harg hoperand
      rw [hoperand] at harg
      obtain rfl := Except.ok.inj harg
      cases style with
      | plain =>
          rw [Argument.format, Term.text] at hs
          obtain ⟨d, hd, hs⟩ := exists_of_bind hs
          obtain rfl := (Text.decimal_eq_ok_iff.mp hd).2
          exact ⟨_, rfl, (Except.ok.inj hs).symm⟩
      | _ => cases hs
  | cases kind j =>
      simp only [field, Instruction.cases, Field.position] at harg hoperand
      rw [hoperand] at harg
      cases harg
  | _ => cases hlooksUp

/-- Fields of other operands are worth the same. -/
theorem field_eq_of_differAt {x y : Term} (h : DifferAt i x y inst.operands inst'.operands) {f : Field}
    (hf : f.position ≠ i) : inst.field m f = inst'.field m f := by
  have hsame : inst.operand f.position = inst'.operand f.position := by
    rw [operand, operand, h.elsewhere _ hf]
  cases f <;> simp_all only [Field.position, field, indexOf, cases]

/-- Pieces that are written one after the other differ at each slot that holds the literal. -/
theorem swapped_of_writes (hm : m.literals = none)
    (h : DifferAt i (.literal a) (.literal b) inst.operands inst'.operands) {form : NumberForm}
    {ps : List (Piece Field)} (hlooksUp : ∀ style f, .slot style f ∈ ps → f.position = i → f.looksUp = false)
    (hforms : ∀ shown, some shown ∈ Layout.slotForms i ps → shown = form)
    (hs : Layout.Writes (inst.field m) ps s) (hs' : Layout.Writes (inst'.field m) ps s') :
    Swapped (form.text a) (form.text b) (Layout.slotForms i ps).length s s' := by
  induction hs generalizing s' with
  | nil =>
      cases hs' with
      | nil => exact .nil
  | text t _ ih =>
      cases hs' with
      | text _ hr' =>
          exact (ih (fun style f hf => hlooksUp style f (List.mem_cons_of_mem _ hf)) hforms hr').kept t
  | @slot ps r t style f arg harg ht _ ih =>
      cases hs' with
      | @slot _ r' t' _ _ arg' harg' ht' hr' =>
          have hrest := fun style f hf => hlooksUp style f (List.mem_cons_of_mem _ hf)
          -- A slot at the position writes the two numbers in one form, and any other slot writes the same twice.
          by_cases hf : f.position = i
          · have hleft : inst.operand f.position = .ok (.literal a) := by rw [operand, hf, h.left]
            have hright : inst'.operand f.position = .ok (.literal b) := by rw [operand, hf, h.right]
            have hlook := hlooksUp style f (by simp) hf
            obtain ⟨shown, hshown, rfl⟩ := eq_text_of_literal hm hleft hlook harg ht
            obtain ⟨shown', hshown', rfl⟩ := eq_text_of_literal hm hright hlook harg' ht'
            obtain rfl := Option.some.inj (hshown.symm.trans hshown')
            rw [Layout.slotForms, if_pos hf, hshown] at hforms ⊢
            obtain rfl := hforms shown (by simp)
            exact (ih hrest (fun shown hmem => hforms shown (by simp [hmem])) hr').swapped
          · obtain rfl := Except.ok.inj (harg.symm.trans ((field_eq_of_differAt h hf).trans harg'))
            obtain rfl := Except.ok.inj (ht.symm.trans ht')
            rw [Layout.slotForms, if_neg hf] at hforms ⊢
            exact (ih hrest hforms hr').kept t

/-- The texts of two instructions that differ in a literal are the same but for the places where it is written. -/
theorem swapped_text (hm : m.literals = none) {op : Operation} {ts us : List Term} {notes : List String}
    (h : DifferAt i (.literal a) (.literal b) ts us) (hresolves : op.layout.resolves i = false) {form : NumberForm}
    (hforms : ∀ shown, some shown ∈ op.layout.formsAt i → shown = form)
    (hs : (⟨op, ts⟩ : Instruction).text m notes = .ok s) (hs' : (⟨op, us⟩ : Instruction).text m notes = .ok s') :
    Swapped (form.text a) (form.text b) (op.layout.formsAt i).length s s' := by
  unfold text at hs hs'
  cases hlayout : op.layout with
  | operands =>
      simp only [hlayout] at hs hs' hforms
      obtain rfl : .decimal = form := hforms .decimal (by simp [Layout.formsAt])
      obtain ⟨vs, hvs, hs⟩ := exists_of_bind hs
      obtain ⟨ws, hws, hs'⟩ := exists_of_bind hs'
      obtain rfl := Except.ok.inj hs
      obtain rfl := Except.ok.inj hs'
      exact (Module.differAt_of_values hm h hvs hws).swapped_intercalate.kept _
  | pieces first ps =>
      simp only [hlayout] at hs hs' hforms hresolves
      obtain ⟨-, r, hr, rfl⟩ := laidOut_eq_ok_iff.mp hs
      obtain ⟨-, r', hr', rfl⟩ := laidOut_eq_ok_iff.mp hs'
      have hlooksUp : ∀ style f, .slot style f ∈ ps → f.position = i → f.looksUp = false := by
        intro style f hmem hf
        have hslot := List.any_eq_false.mp hresolves _ hmem
        simpa [hf] using hslot
      exact (swapped_of_writes hm h hlooksUp hforms hr hr').kept _
  | label =>
      simp only [hlayout] at hs hs' hforms
      obtain ⟨j, hj, hs⟩ := exists_of_bind hs
      obtain ⟨j', hj', hs'⟩ := exists_of_bind hs'
      -- A label shows its first operand only. Others are not counted by `formsAt`, and leave the text as it is.
      by_cases hi : i = 0
      · subst hi
        obtain rfl : .decimal = form := hforms .decimal (by simp [Layout.formsAt])
        simp only [indexOf, operand, h.left] at hj
        simp only [indexOf, operand, h.right] at hj'
        obtain rfl := Except.ok.inj hj
        obtain rfl := Except.ok.inj hj'
        obtain ⟨n, hn, hs⟩ := exists_of_bind hs
        obtain ⟨n', hn', hs'⟩ := exists_of_bind hs'
        obtain rfl := Except.ok.inj hn
        obtain rfl := Except.ok.inj hn'
        obtain ⟨d, hd, hs⟩ := exists_of_bind hs
        obtain ⟨d', hd', hs'⟩ := exists_of_bind hs'
        obtain rfl := (Text.decimal_eq_ok_iff.mp hd).2
        obtain rfl := (Text.decimal_eq_ok_iff.mp hd').2
        obtain rfl := Except.ok.inj hs
        obtain rfl := Except.ok.inj hs'
        rw [String.append_assoc, String.append_assoc]
        exact ((Swapped.refl ":").swapped).kept "label"
      · have hsame : (⟨op, ts⟩ : Instruction).indexOf 0 = (⟨op, us⟩ : Instruction).indexOf 0 := by
          simp only [indexOf, operand, h.elsewhere 0 (Ne.symm hi)]
        obtain rfl := Except.ok.inj (hj.symm.trans (hsame.trans hj'))
        obtain rfl := Except.ok.inj (hs.symm.trans hs')
        rw [Layout.formsAt, if_neg hi]
        exact .refl s
  | line => simp [hlayout, Layout.resolves] at hresolves

/-- The number of a literal is lost from the text exactly if it is the second operand of `bs_start_match4`: two
instructions of one operation that differ only in the literals at a position have different texts otherwise. The
position is one at which no table is asked, and the module has no literals. -/
theorem text_ne_iff_of_differAt {op : Operation} (hop : op ∈ Operation.table) (hi : i < op.arity)
    (hresolves : op.layout.resolves i = false) (hm : m.literals = none) {ts us : List Term}
    (h : DifferAt i (.literal a) (.literal b) ts us) (hab : a ≠ b) {notes : List String}
    (hs : (⟨op, ts⟩ : Instruction).text m notes = .ok s) (hs' : (⟨op, us⟩ : Instruction).text m notes = .ok s') :
    s ≠ s' ↔ ¬ (op.mnemonic = "bs_start_match4" ∧ i = 1) := by
  obtain ⟨⟨form, -, hforms⟩, hleft⟩ := Operation.formsAt_of_mem_table op hop i hi hresolves
  have hswapped : Swapped (form.text a) (form.text b) (op.layout.formsAt i).length s s' := by
    refine swapped_text hm h hresolves ?_ hs hs'
    intro shown hshown
    simpa using hforms _ hshown
  have hne : form.text a ≠ form.text b := fun heq => hab (NumberForm.text_inj.mp heq)
  rw [Ne, hswapped.eq_iff hne, List.length_eq_zero_iff, hleft]

/-- Operands that start with the literal of a number. -/
def operandsFrom (n : Int) : List Term :=
  [.literal n, .atom 1, .literal 3, .xreg (.number 0)]

/-- The first operand of `bs_start_match4` is written twice, here with the numbers 9 and 10, which differ in length. -/
theorem text_ne_iff_of_differAt_twice :
    ∃ op s s', Operation.find? 170 = some op ∧ (⟨op, operandsFrom 9⟩ : Instruction).text {} [] = .ok s ∧
      (⟨op, operandsFrom 10⟩ : Instruction).text {} [] = .ok s' ∧ s ≠ s' := by
  obtain ⟨op, s, s', hfind, hop, harity, hresolves, hs, hs'⟩ : ∃ op s s', Operation.find? 170 = some op ∧
      op ∈ Operation.table ∧ op.arity = 4 ∧ op.layout.resolves 0 = false ∧
      (⟨op, operandsFrom 9⟩ : Instruction).text {} [] = .ok s ∧
      (⟨op, operandsFrom 10⟩ : Instruction).text {} [] = .ok s' :=
    ⟨_, _, _, rfl, by decide +kernel, rfl, rfl, by cbv, by cbv⟩
  have hdiffer : DifferAt 0 (.literal 9) (.literal 10) (operandsFrom 9) (operandsFrom 10) := by
    refine ⟨rfl, rfl, fun j hj => ?_⟩
    obtain ⟨j, rfl⟩ := Nat.exists_eq_succ_of_ne_zero hj
    rfl
  refine ⟨op, s, s', hfind, hs, hs', ?_⟩
  exact (text_ne_iff_of_differAt hop (by omega) hresolves rfl hdiffer (by decide) hs hs').mpr (by simp)

/-- The first operand of `bs_start_match4` is written in place of the second, which is lost. -/
theorem text_eq_of_second_operand :
    ∃ inst inst', read [0xAA, 0x03, 0x10, 0x10, 0x13] = .ok inst [] ∧
      read [0xAA, 0x03, 0x20, 0x10, 0x13] = .ok inst' [] ∧
      inst.operation = inst'.operation ∧ inst.operation.layout.resolves 1 = false ∧
      DifferAt 1 (.literal 1) (.literal 2) inst.operands inst'.operands ∧
      inst.text {} [] = .ok "\tbs_start_match4     X0, 0, 1, X1" ∧
      inst'.text {} [] = .ok "\tbs_start_match4     X0, 0, 1, X1" := by
  refine ⟨_, _, by cbv, by cbv, ?_, ?_, ⟨?_, ?_, ?_⟩, by cbv, by cbv⟩
  · rfl
  · rfl
  · rfl
  · rfl
  · intro j hj
    rcases j with _ | _ | j
    · rfl
    · exact absurd rfl hj
    · rfl

end Instruction

end BeamDisasm

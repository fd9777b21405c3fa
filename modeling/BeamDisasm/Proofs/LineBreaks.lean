import BeamDisasm.ExtTerm.Text
import BeamDisasm.Proofs.Numerals
import BeamDisasm.Proofs.Steps
import BeamDisasm.Proofs.Utf8

/-!
# Where line breaks in texts come from

Numbers, quoted bytes and escaped strings are written without line breaks, whatever they hold. Names are decoded and
written as they are, so a text that is put together of such parts is on one line exactly if the names in it are.

`BreaksWith s names` says this of a text and the names in it. It has one rule for each way to put a text together, and
ASCII characters, among them the line breaks, are found in a decoded name exactly where their bytes are.
-/
namespace BeamDisasm

/-- A text without line feeds and carriage returns. -/
def Text.OneLine (s : String) : Prop :=
  '\n' ∉ s.toList ∧ '\r' ∉ s.toList

instance (s : String) : Decidable (Text.OneLine s) :=
  inferInstanceAs (Decidable (_ ∧ _))

/-- Bytes without those of line feeds and carriage returns. -/
def Bytes.OneLine (b : Bytes) : Prop :=
  10 ∉ b ∧ 13 ∉ b

instance (b : Bytes) : Decidable (Bytes.OneLine b) :=
  inferInstanceAs (Decidable (_ ∧ _))

namespace Text

variable {a b s : String} {cs : List Char}

@[simp] theorem oneLine_append : OneLine (a ++ b) ↔ OneLine a ∧ OneLine b := by
  simp only [OneLine, String.toList_append, List.mem_append, not_or]
  exact and_and_and_comm

theorem oneLine_ofList : OneLine (String.ofList cs) ↔ ∀ c ∈ cs, c ≠ '\n' ∧ c ≠ '\r' := by
  rw [OneLine, String.toList_ofList]
  constructor
  · intro h c hc
    exact ⟨fun heq => h.1 (heq ▸ hc), fun heq => h.2 (heq ▸ hc)⟩
  · intro h
    exact ⟨fun hc => (h _ hc).1 rfl, fun hc => (h _ hc).2 rfl⟩

theorem oneLine_intercalate {sep : String} (hsep : OneLine sep) {ss : List String} :
    OneLine (sep.intercalate ss) ↔ ∀ s ∈ ss, OneLine s := by
  induction ss with
  | nil => exact iff_of_true (show OneLine "" by decide) (by simp)
  | cons s ss ih =>
      rw [List.forall_mem_cons, ← ih]
      cases ss with
      | nil => simp [show OneLine ("" : String) by decide]
      | cons t ts => simp [String.intercalate_cons_cons, hsep]

/-- A text is on one line if its bytes are. -/
theorem oneLine_of_toByteArray (h : Bytes.OneLine s.toByteArray.data.toList) : OneLine s := by
  rw [Bytes.toByteArray_eq_flatMap] at h
  refine ⟨?_, ?_⟩
  · intro hmem
    exact h.1 (List.mem_flatMap.mpr ⟨_, hmem, by decide⟩)
  · intro hmem
    exact h.2 (List.mem_flatMap.mpr ⟨_, hmem, by decide⟩)

/-- Blanks behind a text leave it on its line. -/
theorem oneLine_padRight (h : OneLine s) (width : Nat) : OneLine (padRight width s) := by
  rw [padRight, oneLine_ofList, List.forall_mem_append]
  refine ⟨oneLine_ofList.mp (by simpa using h), ?_⟩
  intro c hc
  obtain rfl := List.eq_of_mem_replicate hc
  decide

/-! ## Numbers -/

theorem exists_digit_of_mem {base n : Nat} (hbase : 1 < base) {c : Char} (h : c ∈ Nat.toDigits base n) :
    ∃ d < base, c = Nat.digitChar d := by
  induction n using Nat.strongRecOn with
  | _ n ih =>
    by_cases hn : n < base
    · rw [Nat.toDigits_of_lt_base hn, List.mem_singleton] at h
      exact ⟨n, hn, h⟩
    · rw [Nat.toDigits_of_base_le hbase (by omega), List.mem_append, List.mem_singleton] at h
      rcases h with h | h
      · exact ih (n / base) (Nat.div_lt_self (by omega) hbase) h
      · exact ⟨n % base, Nat.mod_lt _ (by omega), h⟩

/-- Neither digits nor digits in upper case break a line. -/
theorem digitChar_ne_break : ∀ d < 16, (Nat.digitChar d ≠ '\n' ∧ Nat.digitChar d ≠ '\r') ∧
    (Nat.digitChar d).toUpper ≠ '\n' ∧ (Nat.digitChar d).toUpper ≠ '\r' := by
  decide

theorem oneLine_toDigits {base n : Nat} (hbase : 1 < base) (hle : base ≤ 16) :
    OneLine (String.ofList (Nat.toDigits base n)) := by
  rw [oneLine_ofList]
  intro c hc
  obtain ⟨d, hd, rfl⟩ := exists_digit_of_mem hbase hc
  exact (digitChar_ne_break d (by omega)).1

@[simp] theorem oneLine_digits (n : Int) : OneLine (digits n) := by
  cases n with
  | ofNat n => exact oneLine_toDigits (by omega) (by omega)
  | negSucc n => exact oneLine_append.mpr ⟨by decide, oneLine_toDigits (by omega) (by omega)⟩

theorem oneLine_decimal {n : Int} (h : decimal n = .ok s) : OneLine s :=
  (decimal_eq_ok_iff.mp h).2 ▸ oneLine_digits n

@[simp] theorem oneLine_hex (n : Int) : OneLine (hex n) := by
  cases n with
  | ofNat n => exact oneLine_toDigits (by omega) (by omega)
  | negSucc n => exact oneLine_append.mpr ⟨by decide, oneLine_toDigits (by omega) (by omega)⟩

theorem exists_of_mem_hex {n : Int} {c : Char} (h : c ∈ (hex n).toList) : c = '-' ∨ ∃ d < 16, c = Nat.digitChar d := by
  cases n with
  | ofNat n =>
      rw [hex, String.toList_ofList] at h
      exact .inr (exists_digit_of_mem (by omega) h)
  | negSucc n =>
      simp only [hex, String.toList_append, String.toList_ofList, List.mem_append] at h
      rcases h with h | h
      · exact .inl (by simpa using h)
      · exact .inr (exists_digit_of_mem (by omega) h)

@[simp] theorem oneLine_hexUpper (n : Int) : OneLine (hexUpper n) := by
  rw [hexUpper, oneLine_ofList]
  intro c hc
  obtain ⟨d, hd, rfl⟩ := List.mem_map.mp hc
  rcases exists_of_mem_hex hd with rfl | ⟨k, hk, rfl⟩
  · decide
  · exact (digitChar_ne_break k hk).2

/-! ## Bytes -/

/-- The character of a number from one on has that number. -/
theorem eq_of_ofNat_eq {v : Nat} {c : Char} (hc : c.toNat ≠ 0) (h : Char.ofNat v = c) : v = c.toNat := by
  subst h
  by_cases hv : v.isValidChar
  · have hself : Char.ofNat v = Char.ofNatAux v hv := dif_pos hv
    rw [hself]
    rfl
  · have hnull : Char.ofNat v = '\x00' := dif_neg hv
    rw [hnull] at hc
    exact absurd rfl hc

theorem ofNat_ne_break {d : UInt8} (hfeed : d ≠ 10) (hreturn : d ≠ 13) :
    Char.ofNat d.toNat ≠ '\n' ∧ Char.ofNat d.toNat ≠ '\r' := by
  refine ⟨?_, ?_⟩
  · intro heq
    exact hfeed (UInt8.toNat_inj.mp (eq_of_ofNat_eq (by decide) heq))
  · intro heq
    exact hreturn (UInt8.toNat_inj.mp (eq_of_ofNat_eq (by decide) heq))

theorem quotedByte_ne_break {quote : UInt8} (hquote : quote = 34 ∨ quote = 39) (d : UInt8) :
    ∀ c ∈ quotedByte quote d, c ≠ '\n' ∧ c ≠ '\r' := by
  have hdigit : ∀ k < 16, hexDigit k ≠ '\n' ∧ hexDigit k ≠ '\r' := fun k hk => (digitChar_ne_break k hk).1
  have hd : d.toNat < 256 := d.toNat_lt
  unfold quotedByte
  split_ifs with hmark htab hfeed hreturn
  · have hkept : d ≠ 10 ∧ d ≠ 13 := by
      simp only [Bool.or_eq_true, beq_iff_eq] at hmark
      rcases hquote with rfl | rfl <;> rcases hmark with rfl | rfl <;> decide
    simpa using ofNat_ne_break hkept.1 hkept.2
  · simp
  · simp
  · simp
  · simpa using ⟨hdigit (d.toNat / 16) (by omega), hdigit (d.toNat % 16) (by omega)⟩
  · simp only [beq_iff_eq] at hfeed hreturn
    simpa using ofNat_ne_break hfeed hreturn

@[simp] theorem oneLine_quoted (b : Bytes) : OneLine (quoted b) := by
  have hmark : quoteMark b = 34 ∨ quoteMark b = 39 := by
    unfold quoteMark
    split_ifs
    · exact .inl rfl
    · exact .inr rfl
  have hquote : Char.ofNat (quoteMark b).toNat ≠ '\n' ∧ Char.ofNat (quoteMark b).toNat ≠ '\r' := by
    rcases hmark with h | h <;> rw [h] <;> decide
  rw [quoted, oneLine_ofList]
  intro c hc
  simp only [List.mem_cons, List.mem_append, List.mem_flatMap, List.not_mem_nil, or_false] at hc
  rcases hc with rfl | rfl | ⟨d, -, hc⟩ | rfl
  · decide
  · exact hquote
  · exact quotedByte_ne_break hmark d c hc
  · exact hquote

@[simp] theorem oneLine_stringText (b : Bytes) : OneLine (ExtTerm.stringText b) := by
  have hescaped : ∀ c ∈ ExtTerm.oneLine (latin1 b), c ≠ '\n' ∧ c ≠ '\r' := by
    intro c hc
    obtain ⟨d, -, hd⟩ := List.mem_flatMap.mp hc
    split_ifs at hd with hfeed hreturn
    · rcases List.mem_pair.mp hd with rfl | rfl <;> decide
    · rcases List.mem_pair.mp hd with rfl | rfl <;> decide
    · obtain rfl := List.mem_singleton.mp hd
      exact ⟨hfeed, hreturn⟩
  rw [ExtTerm.stringText, oneLine_ofList]
  intro c hc
  simp only [List.mem_cons, List.mem_append, List.not_mem_nil, or_false] at hc
  rcases hc with rfl | hc | rfl
  · decide
  · exact hescaped c hc
  · decide

/-! ## Decoded names -/

section Utf8

variable {c : Char} {bytes rest : Bytes}

/-- A sequence of bytes that are not ASCII stands for a character that is not. -/
theorem mem_cons_sequence {v : Nat} (front : Bytes) (hpos : c.toNat ≠ 0) (hlt : c.toNat < 128) (hv : 128 ≤ v)
    (hfront : ∀ d ∈ front, 128 ≤ d.toNat) (h : c ∈ cs ↔ UInt8.ofNat c.toNat ∈ rest) :
    c ∈ Char.ofNat v :: cs ↔ UInt8.ofNat c.toNat ∈ front ++ rest := by
  have hchar : c ≠ Char.ofNat v := by
    intro heq
    have hvalue := eq_of_ofNat_eq hpos heq.symm
    omega
  have hbyte : UInt8.ofNat c.toNat ∉ front := by
    intro hmem
    have hhigh := hfront _ hmem
    rw [UInt8.toNat_ofNat', Nat.mod_eq_of_lt (by omega)] at hhigh
    omega
  rw [List.mem_cons, List.mem_append, h]
  simp [hchar, hbyte]

/-- Only its own byte stands for an ASCII character. -/
theorem mem_utf8Chars?_iff (hpos : c.toNat ≠ 0) (hlt : c.toNat < 128) (h : utf8Chars? bytes = some cs) :
    c ∈ cs ↔ UInt8.ofNat c.toNat ∈ bytes := by
  fun_induction utf8Chars? bytes generalizing cs with
  | case1 =>
      obtain rfl := Option.some.inj h
      simp
  | case2 x rest hx ih =>
      obtain ⟨ds, hds, rfl⟩ := Option.map_eq_some_iff.mp h
      have hcode : c = Char.ofNat x.toNat ↔ UInt8.ofNat c.toNat = x := by
        constructor
        · intro heq
          rw [← eq_of_ofNat_eq hpos heq.symm, UInt8.ofNat_toNat]
        · intro heq
          rw [← heq, UInt8.toNat_ofNat', Nat.mod_eq_of_lt (by omega), Char.ofNat_toNat]
      rw [List.mem_cons, List.mem_cons, ih hds, hcode]
  | case4 x hx y rest hrange hy ih =>
      obtain ⟨ds, hds, rfl⟩ := Option.map_eq_some_iff.mp h
      obtain ⟨hlow, hhigh⟩ : 194 ≤ x.toNat ∧ x.toNat ≤ 223 := between_iff.mp hrange
      refine mem_cons_sequence [x, y] hpos hlt (by omega) ?_ (ih hds)
      simpa using ⟨by omega, (isContinuation_iff.mp hy).1⟩
  | case7 x hx y htwo z rest hrange hyz ih =>
      obtain ⟨ds, hds, rfl⟩ := Option.map_eq_some_iff.mp h
      obtain ⟨hlow, hhigh⟩ : 224 ≤ x.toNat ∧ x.toNat ≤ 239 := between_iff.mp hrange
      rw [Bool.and_eq_true, secondOfThree_iff, isContinuation_iff] at hyz
      -- A first byte that carries no bits is followed by one that does.
      have hsecond : x.toNat = 224 → 32 ≤ sixBits y := by
        unfold sixBits
        omega
      refine mem_cons_sequence [x, y, z] hpos hlt (by omega) ?_ (ih hds)
      simpa using ⟨by omega, hyz.1.1.1, hyz.2.1⟩
  | case10 x hx y htwo z hthree w rest hrange hyzw ih =>
      obtain ⟨ds, hds, rfl⟩ := Option.map_eq_some_iff.mp h
      obtain ⟨hlow, hhigh⟩ : 240 ≤ x.toNat ∧ x.toNat ≤ 244 := between_iff.mp hrange
      rw [Bool.and_eq_true, Bool.and_eq_true, secondOfFour_iff, isContinuation_iff, isContinuation_iff] at hyzw
      have hsecond : x.toNat = 240 → 16 ≤ sixBits y := by
        unfold sixBits
        omega
      refine mem_cons_sequence [x, y, z, w] hpos hlt (by omega) ?_ (ih hds)
      simpa using ⟨by omega, hyzw.1.1.1.1, hyzw.1.2.1, hyzw.2.1⟩
  | _ => cases h

theorem oneLine_utf8_iff (h : utf8 bytes = .ok s) : OneLine s ↔ bytes.OneLine := by
  unfold utf8 at h
  split at h
  · next cs hcs =>
    obtain rfl := Except.ok.inj h
    rw [OneLine, String.toList_ofList, mem_utf8Chars?_iff (by decide) (by decide) hcs,
      mem_utf8Chars?_iff (by decide) (by decide) hcs]
    rfl
  · cases h

end Utf8

/-! ## Texts with names in them -/

variable {xs ys : List Bytes}

/-- The text is on one line exactly if the names are. -/
def BreaksWith (s : String) (names : List Bytes) : Prop :=
  OneLine s ↔ ∀ b ∈ names, b.OneLine

theorem breaksWith_nil (h : OneLine s) : BreaksWith s [] :=
  iff_of_true h (by simp)

theorem breaksWith_utf8 {bytes : Bytes} (h : utf8 bytes = .ok s) : BreaksWith s [bytes] := by
  rw [BreaksWith, oneLine_utf8_iff h, List.forall_mem_singleton]

theorem BreaksWith.append (ha : BreaksWith a xs) (hb : BreaksWith b ys) : BreaksWith (a ++ b) (xs ++ ys) := by
  unfold BreaksWith at *
  rw [oneLine_append, ha, hb, List.forall_mem_append]

/-- Text without names in front. -/
theorem BreaksWith.behind {front : String} (h : BreaksWith s xs) (hfront : OneLine front) :
    BreaksWith (front ++ s) xs :=
  (breaksWith_nil hfront).append h

/-- Text without names at the end. -/
theorem BreaksWith.before {back : String} (h : BreaksWith s xs) (hback : OneLine back) : BreaksWith (s ++ back) xs := by
  have hboth := h.append (breaksWith_nil hback)
  rwa [List.append_nil] at hboth

theorem BreaksWith.intercalate {sep : String} (hsep : OneLine sep) {ss : List String} {names : List (List Bytes)}
    (h : List.Forall₂ BreaksWith ss names) : BreaksWith (sep.intercalate ss) names.flatten := by
  rw [BreaksWith, oneLine_intercalate hsep]
  induction h with
  | nil => simp
  | cons hs _ ih =>
      unfold BreaksWith at hs
      rw [List.forall_mem_cons, hs, ih, List.flatten_cons, List.forall_mem_append]

end Text

end BeamDisasm

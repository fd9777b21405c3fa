import BeamDisasm.Text.Utf8
import Mathlib.Tactic.SplitIfs

/-!
# Texts in bytes

The bytes of a text are those of its characters, one after the other. Decoding takes them apart again: the first byte of
a sequence says how many there are, and the second is within the bounds that keep out over-long forms and surrogates. So
the bytes of a text are decoded to the text.
-/
namespace BeamDisasm

namespace Bytes

theorem loop_toList (b : ByteArray) (i : Nat) (r : List UInt8) :
    ByteArray.toList.loop b i r = r.reverse ++ b.data.toList.drop i := by
  fun_induction ByteArray.toList.loop b i r with
  | case1 i r h ih =>
      have hi : i < b.data.toList.length := by simpa using h
      have hget : b.get! i = b.data.toList[i] := by
        cases b with
        | mk d => simp [ByteArray.get!, show i < d.size from h]
      rw [ih, List.drop_eq_getElem_cons hi, hget]
      simp
  | case2 i r h =>
      rw [List.drop_eq_nil_of_le (by simpa using h), List.append_nil]

theorem toByteArray_eq_flatMap (s : String) : s.toByteArray.data.toList = s.toList.flatMap String.utf8EncodeChar := by
  rw [← String.utf8Encode_toList, List.utf8Encode]
  simp

theorem ofText_eq_flatMap (s : String) : ofText s = s.toList.flatMap String.utf8EncodeChar := by
  change ByteArray.toList.loop s.toByteArray 0 [] = _
  rw [loop_toList, ← toByteArray_eq_flatMap]
  simp

end Bytes

namespace Text

variable {a b c d lo hi : UInt8} {rest : Bytes}

theorem between_iff : (lo ≤ a && a ≤ hi) = true ↔ lo.toNat ≤ a.toNat ∧ a.toNat ≤ hi.toNat := by
  simp [UInt8.le_iff_toNat_le]

theorem between_eq_false (h : hi.toNat < a.toNat) : (lo ≤ a && a ≤ hi) = false := by
  simp [UInt8.lt_iff_toNat_lt, h]

theorem isContinuation_iff : isContinuation b = true ↔ 128 ≤ b.toNat ∧ b.toNat ≤ 191 :=
  between_iff

/-- A second byte is a continuation, and within the bound if the first byte sets one. -/
theorem second_iff {x y : UInt8} (hxy : x.toNat ≠ y.toNat) (hlo : 128 ≤ lo.toNat) (hhi : hi.toNat ≤ 191) :
    (if a == x then lo ≤ b && b ≤ 0xBF else if a == y then 0x80 ≤ b && b ≤ hi else isContinuation b) = true ↔
      (128 ≤ b.toNat ∧ b.toNat ≤ 191) ∧ (a.toNat = x.toNat → lo.toNat ≤ b.toNat) ∧
      (a.toNat = y.toNat → b.toNat ≤ hi.toNat) := by
  simp only [beq_iff_eq, ← UInt8.toNat_inj]
  split_ifs with hfirst hlast
  · rw [between_iff]
    change lo.toNat ≤ b.toNat ∧ b.toNat ≤ 191 ↔ _
    omega
  · rw [between_iff]
    change 128 ≤ b.toNat ∧ b.toNat ≤ hi.toNat ↔ _
    omega
  · rw [isContinuation_iff]
    omega

theorem secondOfThree_iff : secondOfThree a b = true ↔
    (128 ≤ b.toNat ∧ b.toNat ≤ 191) ∧ (a.toNat = 224 → 160 ≤ b.toNat) ∧ (a.toNat = 237 → b.toNat ≤ 159) :=
  second_iff (by decide) (by decide) (by decide)

theorem secondOfFour_iff : secondOfFour a b = true ↔
    (128 ≤ b.toNat ∧ b.toNat ≤ 191) ∧ (a.toNat = 240 → 144 ≤ b.toNat) ∧ (a.toNat = 244 → b.toNat ≤ 143) :=
  second_iff (by decide) (by decide) (by decide)

theorem not_lt_of_lead (ha : 128 ≤ a.toNat) : ¬ a < 0x80 := by
  rw [UInt8.not_lt, UInt8.le_iff_toNat_le]
  exact ha

theorem utf8Chars?_one (ha : a.toNat < 128) :
    utf8Chars? (a :: rest) = (utf8Chars? rest).map (Char.ofNat a.toNat :: ·) := by
  have hlow : a < 0x80 := UInt8.lt_iff_toNat_lt.mpr ha
  rw [utf8Chars?.eq_def]
  simp only [hlow, if_true]

theorem utf8Chars?_two (ha : 194 ≤ a.toNat ∧ a.toNat ≤ 223) (hb : isContinuation b = true) :
    utf8Chars? (a :: b :: rest) =
      (utf8Chars? rest).map (Char.ofNat (a.toNat % 32 * 64 + sixBits b) :: ·) := by
  have hlow : ¬ a < 0x80 := not_lt_of_lead (by omega)
  have hlead : (0xC2 ≤ a && a ≤ 0xDF) = true := between_iff.mpr ha
  rw [utf8Chars?.eq_def]
  simp only [hlow, hlead, hb, if_true, if_false]

theorem utf8Chars?_three (ha : 224 ≤ a.toNat ∧ a.toNat ≤ 239) (hb : secondOfThree a b = true)
    (hc : isContinuation c = true) :
    utf8Chars? (a :: b :: c :: rest) =
      (utf8Chars? rest).map (Char.ofNat (a.toNat % 16 * 4096 + sixBits b * 64 + sixBits c) :: ·) := by
  have hlow : ¬ a < 0x80 := not_lt_of_lead (by omega)
  have htwo : (0xC2 ≤ a && a ≤ 0xDF) = false := between_eq_false (show 223 < a.toNat by omega)
  have hlead : (0xE0 ≤ a && a ≤ 0xEF) = true := between_iff.mpr ha
  rw [utf8Chars?.eq_def]
  simp [hlow, htwo, hlead, hb, hc]

theorem utf8Chars?_four (ha : 240 ≤ a.toNat ∧ a.toNat ≤ 244) (hb : secondOfFour a b = true)
    (hc : isContinuation c = true) (hd : isContinuation d = true) :
    utf8Chars? (a :: b :: c :: d :: rest) =
      (utf8Chars? rest).map
        (Char.ofNat (a.toNat % 8 * 262144 + sixBits b * 4096 + sixBits c * 64 + sixBits d) :: ·) := by
  have hlow : ¬ a < 0x80 := not_lt_of_lead (by omega)
  have htwo : (0xC2 ≤ a && a ≤ 0xDF) = false := between_eq_false (show 223 < a.toNat by omega)
  have hthree : (0xE0 ≤ a && a ≤ 0xEF) = false := between_eq_false (show 239 < a.toNat by omega)
  have hlead : (0xF0 ≤ a && a ≤ 0xF4) = true := between_iff.mpr ha
  rw [utf8Chars?.eq_def]
  simp [hlow, htwo, hthree, hlead, hb, hc, hd]

/-- A character that is encoded is read back, whatever follows. -/
theorem utf8Chars?_encode (x : Char) (rest : Bytes) :
    utf8Chars? (String.utf8EncodeChar x ++ rest) = (utf8Chars? rest).map (x :: ·) := by
  have hvalid : x.val.toNat < 0xD800 ∨ 0xDFFF < x.val.toNat ∧ x.val.toNat < 0x110000 := x.valid
  have hself : Char.ofNat x.val.toNat = x := Char.ofNat_toNat x
  have hbyte : ∀ n < 256, (UInt8.ofNat n).toNat = n := fun n hn => UInt8.toNat_ofNat_of_lt' hn
  unfold String.utf8EncodeChar
  generalize x.val.toNat = v at hvalid hself ⊢
  dsimp only
  split_ifs with hone htwo hthree
  · have ha := hbyte v (by omega)
    rw [List.singleton_append, utf8Chars?_one (by omega), ha, hself]
  · have ha := hbyte (v / 64 % 32 + 192) (by omega)
    have hb := hbyte (v % 64 + 128) (by omega)
    have hvalue : (v / 64 % 32 + 192) % 32 * 64 + (v % 64 + 128) % 64 = v := by omega
    rw [List.cons_append, List.singleton_append, utf8Chars?_two (by omega) (isContinuation_iff.mpr (by omega)),
      sixBits, ha, hb, hvalue, hself]
  · have ha := hbyte (v / 4096 % 16 + 224) (by omega)
    have hb := hbyte (v / 64 % 64 + 128) (by omega)
    have hc := hbyte (v % 64 + 128) (by omega)
    have hsecond : secondOfThree (.ofNat (v / 4096 % 16 + 224)) (.ofNat (v / 64 % 64 + 128)) = true := by
      rw [secondOfThree_iff]
      omega
    have hvalue : (v / 4096 % 16 + 224) % 16 * 4096 + (v / 64 % 64 + 128) % 64 * 64 + (v % 64 + 128) % 64 = v := by
      omega
    rw [List.cons_append, List.cons_append, List.singleton_append,
      utf8Chars?_three (by omega) hsecond (isContinuation_iff.mpr (by omega)),
      sixBits, sixBits, ha, hb, hc, hvalue, hself]
  · have ha := hbyte (v / 262144 % 8 + 240) (by omega)
    have hb := hbyte (v / 4096 % 64 + 128) (by omega)
    have hc := hbyte (v / 64 % 64 + 128) (by omega)
    have hd := hbyte (v % 64 + 128) (by omega)
    have hsecond : secondOfFour (.ofNat (v / 262144 % 8 + 240)) (.ofNat (v / 4096 % 64 + 128)) = true := by
      rw [secondOfFour_iff]
      omega
    have hvalue : (v / 262144 % 8 + 240) % 8 * 262144 + (v / 4096 % 64 + 128) % 64 * 4096 +
        (v / 64 % 64 + 128) % 64 * 64 + (v % 64 + 128) % 64 = v := by omega
    rw [List.cons_append, List.cons_append, List.cons_append, List.singleton_append,
      utf8Chars?_four (by omega) hsecond (isContinuation_iff.mpr (by omega)) (isContinuation_iff.mpr (by omega)),
      sixBits, sixBits, sixBits, ha, hb, hc, hd, hvalue, hself]

/-- The bytes of a text are decoded to the text. -/
theorem utf8_ofText (s : String) : utf8 (Bytes.ofText s) = .ok s := by
  have hchars : ∀ cs : List Char, utf8Chars? (cs.flatMap String.utf8EncodeChar) = some cs := by
    intro cs
    induction cs with
    | nil => rfl
    | cons c cs ih => rw [List.flatMap_cons, utf8Chars?_encode, ih, Option.map_some]
  rw [utf8, Bytes.ofText_eq_flatMap, hchars]
  exact congrArg Except.ok String.ofList_toList

end Text

end BeamDisasm

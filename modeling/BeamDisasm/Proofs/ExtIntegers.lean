import BeamDisasm.Proofs.ExtTermRoundTrip
import Mathlib.Tactic.NormNum.Pow

/-!
# Integers as external terms

An integer is written in one byte, in four bytes of two's complement, or by its sign and the digits of its magnitude
with the least significant one first, whichever comes first that it fits. The four bytes are read without a sign, so
integers from `-2 ^ 31` up to `-1` come back larger by `2 ^ 32`. All others come back as they are.
-/
namespace BeamDisasm

namespace ExtForm

/-- Integers that fit a byte. -/
def InByte (z : Int) : Prop := 0 ≤ z ∧ z < 256

/-- Integers that fit a signed word of four bytes. -/
def InWord (z : Int) : Prop := -0x80000000 ≤ z ∧ z < 0x80000000

instance (z : Int) : Decidable (InByte z) := inferInstanceAs (Decidable (_ ∧ _))

instance (z : Int) : Decidable (InWord z) := inferInstanceAs (Decidable (_ ∧ _))

/-- The form of an integer: a byte, a word in two's complement, or a sign and a magnitude. -/
def ofInt (z : Int) : ExtForm :=
  if InByte z then .smallInteger (UInt8.ofNat z.toNat)
  else if InWord z then .integer (UInt32.ofInt z)
  else .smallBig (if z < 0 then 1 else 0) (Bytes.shortest z.natAbs).reverse

variable {z : Int}

theorem ofInt_of_inByte (h : InByte z) : ofInt z = .smallInteger (UInt8.ofNat z.toNat) :=
  if_pos h

theorem ofInt_of_inWord (hbyte : ¬ InByte z) (hword : InWord z) : ofInt z = .integer (UInt32.ofInt z) := by
  rw [ofInt, if_neg hbyte, if_pos hword]

theorem ofInt_of_large (hbyte : ¬ InByte z) (hword : ¬ InWord z) :
    ofInt z = .smallBig (if z < 0 then 1 else 0) (Bytes.shortest z.natAbs).reverse := by
  rw [ofInt, if_neg hbyte, if_neg hword]

/-- A magnitude of 255 digits has a length that fits its field. -/
theorem fits_ofInt (h : z.natAbs < 256 ^ 255) : (ofInt z).Fits := by
  by_cases hbyte : InByte z
  · rw [ofInt_of_inByte hbyte]
    trivial
  by_cases hword : InWord z
  · rw [ofInt_of_inWord hbyte hword]
    trivial
  · rw [ofInt_of_large hbyte hword, Fits, List.length_reverse]
    exact Nat.lt_succ_of_le (Bytes.length_shortest_le_iff.mpr h)

/-! ## Values -/

/-- A word keeps what is left modulo `2 ^ 32`. -/
theorem toNat_uint32_ofInt (z : Int) : (UInt32.ofInt z).toNat = (z % 0x100000000).toNat := by
  rw [UInt32.ofInt, UInt32.toNat_ofNat']
  omega

theorem value_of_inByte (h : InByte z) : (ofInt z).term.value = .ok (.number z) := by
  obtain ⟨hlow, hhigh⟩ := id h
  have hbyte : ((UInt8.ofNat z.toNat).toNat : Int) = z := by
    rw [UInt8.toNat_ofNat']
    omega
  rw [ofInt_of_inByte h, term, ExtTerm.value, hbyte]

/-- A word is read without a sign. -/
theorem value_of_inWord (hbyte : ¬ InByte z) (hword : InWord z) :
    (ofInt z).term.value = .ok (.number (z % 0x100000000)) := by
  have hvalue : ((UInt32.ofInt z).toNat : Int) = z % 0x100000000 := by
    rw [toNat_uint32_ofInt]
    omega
  rw [ofInt_of_inWord hbyte hword, term, ExtTerm.value, hvalue]

theorem value_of_large (hbyte : ¬ InByte z) (hword : ¬ InWord z) : (ofInt z).term.value = .ok (.number z) := by
  have hvalue : ExtTerm.bigValue ((if z < 0 then 1 else 0 : UInt8).toNat : Int)
      (Bytes.shortest z.natAbs).reverse = z := by
    rw [ExtTerm.bigValue, Bytes.littleEndian_eq_toNat_reverse, List.reverse_reverse, Bytes.toNat_shortest]
    by_cases hneg : z < 0
    · rw [if_pos hneg, if_pos (by decide)]
      omega
    · rw [if_neg hneg, if_neg (by decide)]
      omega
  rw [ofInt_of_large hbyte hword, term, ExtTerm.value, hvalue]

/-- The value differs from the integer for words below zero, and only for them. -/
theorem value_ofInt_eq_iff (z : Int) :
    (ofInt z).term.value = .ok (.number z) ↔ ¬ (-0x80000000 ≤ z ∧ z < 0) := by
  by_cases hbyte : InByte z
  · refine iff_of_true (value_of_inByte hbyte) ?_
    rintro ⟨-, hneg⟩
    exact absurd hbyte.1 (not_le.mpr hneg)
  by_cases hword : InWord z
  · obtain ⟨hlow, hhigh⟩ := id hword
    rw [value_of_inWord hbyte hword, Except.ok.injEq, Scalar.number.injEq]
    omega
  · refine iff_of_true (value_of_large hbyte hword) ?_
    rintro ⟨hlow, hneg⟩
    exact hword ⟨hlow, by omega⟩

/-- A word below zero is written in two's complement, and its value is what the same bytes write without a sign. -/
theorem encode_ofInt_of_negative (hlow : -0x80000000 ≤ z) (hneg : z < 0) :
    ∃ b : Bytes, (ofInt z).encode = 98 :: b ∧ b.length = 4 ∧ b.toSigned = z ∧
      (ofInt z).term.value = .ok (.number b.toNat) := by
  have hbyte : ¬ InByte z := fun hz => absurd hz.1 (not_le.mpr hneg)
  have hword : InWord z := ⟨hlow, by omega⟩
  refine ⟨Bytes.ofNat 4 (z % 0x100000000).toNat, ?_, Bytes.length_ofNat 4 _, ?_, ?_⟩
  · rw [ofInt_of_inWord hbyte hword, encode, toNat_uint32_ofInt]
    rfl
  · exact Bytes.toSigned_ofNat_emod hlow hword.2
  · have hfield : Bytes.toNat (Bytes.ofNat 4 (z % 0x100000000).toNat) = (z % 0x100000000).toNat :=
      Bytes.toNat_ofNat (by omega)
    rw [value_of_inWord hbyte hword, hfield, Int.toNat_of_nonneg (Int.emod_nonneg z (by omega))]

/-- Every integer whose magnitude fits is read from what it is written as, and is the value of what is read unless it is
a word below zero. Then its four bytes are read as a number of their own. -/
theorem value_of_read_ofInt_iff (z : Int) (h : z.natAbs < 256 ^ 255) (rest : Bytes) :
    ∃ t, ExtTerm.readMarked (ExtTerm.marker :: ((ofInt z).encode ++ rest)) = .ok t rest ∧
      (t.value = .ok (.number z) ↔ ¬ (-0x80000000 ≤ z ∧ z < 0)) ∧
      (-0x80000000 ≤ z → z < 0 → ∃ b : Bytes, (ofInt z).encode = 98 :: b ∧ b.length = 4 ∧ b.toSigned = z ∧
        t.value = .ok (.number b.toNat)) :=
  ⟨(ofInt z).term, reads_marked (fits_ofInt h) rest, value_ofInt_eq_iff z, encode_ofInt_of_negative⟩

/-- The largest integer below all words has a sign and four digits. -/
theorem value_of_read_ofInt_below_words :
    (ofInt (-2147483649)).encode = [110, 4, 1, 1, 0, 0, 128] ∧
      ∃ t, ExtTerm.readMarked (ExtTerm.marker :: ((ofInt (-2147483649)).encode ++ [7])) = .ok t [7] ∧
        t.value = .ok (.number (-2147483649)) := by
  obtain ⟨t, hread, hvalue, -⟩ := value_of_read_ofInt_iff (-2147483649) (by norm_num) [7]
  exact ⟨by cbv, t, hread, hvalue.mpr (by omega)⟩

/-- Minus one is read as the largest number of four bytes. -/
theorem value_of_minus_one :
    (ofInt (-1)).encode = [98, 255, 255, 255, 255] ∧
      ∃ t, ExtTerm.readMarked (ExtTerm.marker :: (ofInt (-1)).encode) = .ok t [] ∧
        t.value = .ok (.number 4294967295) ∧ t.value ≠ .ok (.number (-1)) := by
  refine ⟨by cbv, _, by cbv, rfl, ?_⟩
  simp [ExtTerm.value]

end ExtForm

end BeamDisasm

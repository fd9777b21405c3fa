import BeamDisasm.Proofs.Bytes
import Mathlib.Data.List.FinRange
import Mathlib.Data.Nat.Digits.Defs

/-!
# The bytes of a number are read in one way

The bytes of an integer are added up by powers of 256, from the highest power down. The bytes of a literal, an atom or a
label are shifted in one after the other, and so are digits of any size. All of them give the number that has the bytes
for its digits, the most significant one first, however many there are and whatever they start with.
-/
namespace BeamDisasm.Bytes

/-- The number with the bytes for digits to base 256. Digits are counted from the least significant one on, so the bytes
are taken from their end. -/
def bigEndian (b : Bytes) : Nat :=
  Nat.ofDigits 256 (b.reverse.map UInt8.toNat)

/-! ## Powers -/

/-- The sum of powers in the order of falling exponents. A byte counts by as many powers as there are bytes behind it,
so the bytes are taken from the other end than the exponents. -/
def fallingSum (b : Bytes) : Nat :=
  (List.finRange b.length).reverse.foldl (fun n (i : Fin b.length) => n + 256 ^ (i : Nat) * (b.get i.rev).toNat) 0

/-- Falling exponents meet the bytes in their order. -/
theorem fallingSum_eq_foldl (b : Bytes) :
    fallingSum b =
      (List.finRange b.length).foldl (fun n (i : Fin b.length) => n + 256 ^ (i.rev : Nat) * (b.get i).toNat) 0 := by
  rw [fallingSum, List.finRange_reverse, List.foldl_map]
  simp only [Fin.rev_rev]

/-- The start value of the sum stays a summand. -/
theorem foldl_powers (b : Bytes) (n : Nat) :
    (List.finRange b.length).foldl (fun n (i : Fin b.length) => n + 256 ^ (i.rev : Nat) * (b.get i).toNat) n =
      n + powerSum b := by
  induction b generalizing n with
  | nil => rfl
  | cons d ds ih =>
      -- the first byte takes the highest exponent, and the exponents left over are those that `ds` has on its own
      rw [powerSum, Nat.pow_eq, ← Nat.add_assoc, ← ih]
      simp [List.finRange_succ, List.foldl_map]

theorem powerSum_eq_fallingSum (b : Bytes) : powerSum b = fallingSum b := by
  rw [fallingSum_eq_foldl, foldl_powers, Nat.zero_add]

/-! ## Shifts -/

/-- Digits that are bytes are shifted in without a sign. -/
theorem eitherBits_byte (n : Nat) (d : UInt8) :
    eitherBits (256 * (n : Int)) (d.toNat : Int) = (((n <<< 8) ||| d.toNat : Nat) : Int) := by
  have hshift : (256 : Int) * n = ((n <<< 8 : Nat) : Int) := by
    rw [Nat.shiftLeft_eq]
    push_cast
    ring
  rw [hshift]
  rfl

theorem joined_bytes (b : Bytes) : joined (b.map fun d => (d.toNat : Int)) = toNat b := by
  rw [joined, toNat, List.foldl_map]
  exact List.foldl_hom Nat.cast fun n d => eitherBits_byte n d

/-! ## Digits -/

theorem littleEndian_eq_ofDigits (b : Bytes) : littleEndian b = Nat.ofDigits 256 (b.map UInt8.toNat) := by
  induction b with
  | nil => rfl
  | cons d ds ih => rw [littleEndian, ih, List.map_cons, Nat.ofDigits_cons]

theorem toNat_eq_bigEndian (b : Bytes) : toNat b = bigEndian b := by
  have hreverse := littleEndian_eq_toNat_reverse b.reverse
  rw [List.reverse_reverse, littleEndian_eq_ofDigits] at hreverse
  exact hreverse.symm

/-- The sum of powers and the shifts give the same number for all bytes, the one that has the bytes for digits, and so
an integer, a literal, an atom and a label with the same bytes have the same number. Bytes in front of others count by
the power that the others leave to them. -/
theorem number_forms_agree (b : Bytes) :
    powerSum b = fallingSum b ∧ powerSum b = toNat b ∧
      joined (b.map fun d => (d.toNat : Int)) = toNat b ∧ toNat b = bigEndian b ∧
      Term.ofTag 1 (.raw b) = .ok (.integer (bigEndian b)) ∧ Term.ofTag 0 (.raw b) = .ok (.literal (bigEndian b)) ∧
      Term.ofTag 2 (.raw b) = .ok (.atom (bigEndian b)) ∧ Term.ofTag 5 (.raw b) = .ok (.label (bigEndian b)) ∧
      ∀ a : Bytes, toNat (a ++ b) = toNat a * 256 ^ b.length + toNat b := by
  have hpowers : powerSum b = bigEndian b := (powerSum_eq_toNat b).trans (toNat_eq_bigEndian b)
  refine ⟨powerSum_eq_fallingSum b, powerSum_eq_toNat b, joined_bytes b, toNat_eq_bigEndian b, ?_, ?_, ?_, ?_,
    fun a => toNat_append a b⟩
  · rw [Term.ofTag, hpowers]
  · rw [Term.ofTag, toNat_eq_bigEndian]
  · rw [Term.ofTag, toNat_eq_bigEndian]
  · rw [Term.ofTag, toNat_eq_bigEndian]

end BeamDisasm.Bytes

import BeamDisasm.Text.Number
import Mathlib.Data.Nat.Digits.Defs

/-!
# Numbers that are too long to be written

A number is written in decimal exactly if it is small enough, and it is then written in its digits. Every number up to
the bound has a text, and none has one from the bound on.
-/
namespace BeamDisasm.Text

variable {n : Int} {s : String} {e : Fault}

/-- A number from a power of ten on has more digits than the power. -/
theorem lt_length_toDigits {n k : Nat} (h : 10 ^ k ≤ n) : k < (Nat.toDigits 10 n).length := by
  induction k generalizing n with
  | zero => exact List.length_pos_iff.mpr Nat.toDigits_ne_nil
  | succ k ih =>
      rw [pow_succ] at h
      have hpow : 0 < 10 ^ k := by positivity
      have hquot := ih (n := n / 10) (by omega)
      rw [Nat.toDigits_of_base_le (by omega) (by omega), List.length_append, List.length_singleton]
      omega

theorem short_iff : Short n ↔ n.natAbs < 10 ^ maxDigits := by
  constructor
  · intro h
    by_contra hlarge
    exact absurd h (not_le.mpr (lt_length_toDigits (not_lt.mp hlarge)))
  · exact Nat.toDigits_length 10 n.natAbs maxDigits (by decide)

theorem short_of_lt {n k : Nat} (hk : k ≤ maxDigits) (h : n < 10 ^ k) : Short n :=
  short_iff.mpr (lt_of_lt_of_le h (Nat.pow_le_pow_right (by decide) hk))

/-- A number of one digit too many. -/
def firstLong : Nat := (10 ^ 215) ^ 20

theorem not_short_firstLong : ¬ Short firstLong := by
  decide +kernel

theorem decimal_eq_ok_iff : decimal n = .ok s ↔ Short n ∧ digits n = s := by
  unfold decimal
  split_ifs with h <;> simp [h]

@[simp] theorem exists_decimal_iff : (∃ s, decimal n = .ok s) ↔ Short n := by
  simp [decimal_eq_ok_iff]

theorem decimal_of_short (h : Short n) : decimal n = .ok (digits n) :=
  if_pos h

theorem decimal_of_not_short (h : ¬ Short n) : decimal n = .error .numeralTooLong :=
  if_neg h

end BeamDisasm.Text

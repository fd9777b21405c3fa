import BeamDisasm.Term.Encode
import Mathlib.Data.List.Induction
import Mathlib.Tactic.Linarith
import Mathlib.Tactic.Ring

/-!
# Numbers in bytes

A byte string is a number to base 256. The shifts of `toNat` and the powers of `powerSum` give the same number,
`ofNat` writes a number in a field of fixed width, and `shortest` in as few bytes as there can be.
-/
namespace BeamDisasm.Bytes

/-- Shifting a byte in is a step of the sum to base 256. -/
theorem shift_or_byte (n : Nat) (d : UInt8) : (n <<< 8) ||| d.toNat = n * 256 + d.toNat := by
  have hd : d.toNat < 2 ^ 8 := d.toNat_lt
  rw [← Nat.shiftLeft_add_eq_or_of_lt hd, Nat.shiftLeft_eq]

/-- The start value of the fold counts as digits in front. -/
private theorem foldl_shift (b : Bytes) (n : Nat) :
    b.foldl (fun n d => (n <<< 8) ||| d.toNat) n = n * 256 ^ b.length + toNat b := by
  induction b generalizing n with
  | nil => simp [toNat]
  | cons d ds ih =>
      have hzero : toNat (d :: ds) = d.toNat * 256 ^ ds.length + toNat ds := by
        simp only [toNat, List.foldl_cons, Nat.zero_shiftLeft, Nat.zero_or]
        exact ih d.toNat
      rw [List.foldl_cons, ih, hzero, shift_or_byte, List.length_cons, Nat.pow_succ]
      ring

@[simp] theorem toNat_nil : toNat [] = 0 := rfl

theorem toNat_cons (d : UInt8) (ds : Bytes) :
    toNat (d :: ds) = d.toNat * 256 ^ ds.length + toNat ds := by
  have h := foldl_shift ds d.toNat
  simpa [toNat] using h

/-- Digits in front count by the power that the digits behind leave to them. -/
theorem toNat_append (a b : Bytes) : toNat (a ++ b) = toNat a * 256 ^ b.length + toNat b := by
  rw [toNat, List.foldl_append, foldl_shift]
  rfl

@[simp] theorem toNat_singleton (d : UInt8) : toNat [d] = d.toNat := by
  simp [toNat_cons]

theorem powerSum_eq_toNat (b : Bytes) : powerSum b = toNat b := by
  induction b with
  | nil => rfl
  | cons d ds ih => rw [powerSum, ih, toNat_cons, Nat.mul_comm, Nat.pow_eq]

/-- A byte string is too short for larger numbers. -/
theorem toNat_lt (b : Bytes) : toNat b < 256 ^ b.length := by
  induction b with
  | nil => simp
  | cons d ds ih =>
      have hd : d.toNat + 1 ≤ 256 := d.toNat_lt
      have hmul : (d.toNat + 1) * 256 ^ ds.length ≤ 256 * 256 ^ ds.length :=
        Nat.mul_le_mul_right _ hd
      rw [toNat_cons, List.length_cons, Nat.pow_succ]
      linarith

theorem toNat_ofNat_mod (n : Nat) : (UInt8.ofNat (n % 256)).toNat = n % 256 := by
  simp

/-! ## Fields of fixed width -/

@[simp] theorem length_ofNat (width n : Nat) : (ofNat width n).length = width := by
  induction width generalizing n with
  | zero => rfl
  | succ width ih => simp [ofNat, ih]

/-- A field holds the numbers that fit it. -/
theorem toNat_ofNat {width n : Nat} (h : n < 256 ^ width) : toNat (ofNat width n) = n := by
  induction width generalizing n with
  | zero =>
      have hn : n = 0 := by simpa using h
      subst hn
      rfl
  | succ width ih =>
      have hdiv : n / 256 < 256 ^ width := by
        rw [Nat.pow_succ] at h
        omega
      rw [ofNat, toNat_append, ih hdiv, toNat_singleton, toNat_ofNat_mod]
      simp only [List.length_singleton, Nat.pow_one]
      omega

/-- A field is the number in it. -/
theorem ofNat_toNat {width : Nat} {b : Bytes} (h : b.length = width) : ofNat width (toNat b) = b := by
  induction b using List.reverseRecOn generalizing width with
  | nil => simp [← h, ofNat]
  | append_singleton b d ih =>
      have hd : d.toNat < 256 := d.toNat_lt
      subst h
      have hdiv : (toNat b * 256 + d.toNat) / 256 = toNat b := by omega
      have hmod : (toNat b * 256 + d.toNat) % 256 = d.toNat := by omega
      simp [ofNat, toNat_append, hdiv, hmod, ih rfl]

/-- Four bytes hold the signed numbers that fit them, in two's complement. -/
theorem toSigned_ofNat_emod {z : Int} (hlow : -0x80000000 ≤ z) (hhigh : z < 0x80000000) :
    toSigned (ofNat 4 (z % 0x100000000).toNat) = z := by
  have hfield : toNat (ofNat 4 (z % 0x100000000).toNat) = (z % 0x100000000).toNat := toNat_ofNat (by omega)
  rw [toSigned]
  simp only [hfield]
  split_ifs <;> omega

/-! ## The shortest bytes -/

@[simp] theorem toNat_shortest (n : Nat) : toNat (shortest n) = n := by
  induction n using Nat.strongRecOn with
  | _ n ih =>
    rw [shortest]
    split
    · next h => simp [h]
    · rw [toNat_append, ih (n / 256) (by omega), toNat_singleton, toNat_ofNat_mod]
      simp only [List.length_singleton, Nat.pow_one]
      omega

/-- A number fits as many bytes as bound it. -/
theorem length_shortest_le_iff {n k : Nat} : (shortest n).length ≤ k ↔ n < 256 ^ k := by
  induction n using Nat.strongRecOn generalizing k with
  | _ n ih =>
    rw [shortest]
    split
    · next h => simp [h]
    · next h =>
      cases k with
      | zero => simp [h]
      | succ k =>
          have hstep := ih (n / 256) (by omega) (k := k)
          simp only [List.length_append, List.length_singleton, Nat.add_le_add_iff_right]
          rw [hstep, Nat.pow_succ]
          omega

/-- No bytes that write a number are fewer than its shortest ones. -/
theorem length_shortest_toNat_le (b : Bytes) : (shortest (toNat b)).length ≤ b.length :=
  length_shortest_le_iff.mpr (toNat_lt b)

/-! ## The other order -/

/-- A byte string whose first byte is the least significant one is a number read from its end. -/
theorem littleEndian_eq_toNat_reverse (b : Bytes) : littleEndian b = toNat b.reverse := by
  induction b with
  | nil => rfl
  | cons d ds ih =>
      rw [littleEndian, ih, List.reverse_cons, toNat_append, toNat_singleton, List.length_singleton]
      ring

end BeamDisasm.Bytes

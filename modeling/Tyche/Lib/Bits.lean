/-
Fields of a machine word: masks, shifts and the arithmetic they stand for.
A field is `n` bits wide from bit `s` on, so its mask is `(2 ^ n - 1) <<< s`.
-/
import Mathlib.Data.Nat.Bitwise

namespace Tyche.Bits

/-- The mask of a field. -/
abbrev mask (n s : Nat) : Nat := (2 ^ n - 1) <<< s

theorem testBit_mask (n s i : Nat) : (mask n s).testBit i = (decide (s ≤ i) && decide (i - s < n)) := by
  rw [mask, Nat.testBit_shiftLeft, Nat.testBit_two_pow_sub_one]

theorem mask_lt {n s w : Nat} (h : s + n ≤ w) : mask n s < 2 ^ w := by
  rw [mask, Nat.shiftLeft_eq]
  calc (2 ^ n - 1) * 2 ^ s < 2 ^ n * 2 ^ s :=
        Nat.mul_lt_mul_of_pos_right (Nat.sub_lt (Nat.two_pow_pos n) Nat.one_pos) (Nat.two_pow_pos s)
    _ = 2 ^ (s + n) := by rw [← pow_add, Nat.add_comm]
    _ ≤ 2 ^ w := Nat.pow_le_pow_right (by decide) h

/-- Reading a field. -/
theorem and_mask_shiftRight (a n s : Nat) : (a &&& mask n s) >>> s = a / 2 ^ s % 2 ^ n := by
  rw [Nat.shiftRight_and_distrib, mask, Nat.shiftLeft_shiftRight, Nat.and_two_pow_sub_one_eq_mod, Nat.shiftRight_eq_div_pow]

/-- Writing a field of a `w`-bit word. -/
theorem set_field {a i n s w : Nat} (ha : a < 2 ^ w) (hi : i < 2 ^ n) (hw : s + n ≤ w) :
    (a &&& (2 ^ w - 1 - mask n s)) ||| (i <<< s) = 2 ^ s * (2 ^ n * (a / 2 ^ (s + n)) + i) + a % 2 ^ s := by
  apply Nat.eq_of_testBit_eq
  intro j
  have hsub : 2 ^ w - 1 - mask n s = 2 ^ w - (mask n s + 1) := by omega
  rw [Nat.testBit_two_pow_mul_add _ (Nat.mod_lt _ (Nat.two_pow_pos s)), Nat.testBit_or, Nat.testBit_and, hsub,
    Nat.testBit_two_pow_sub_succ (mask_lt hw), testBit_mask, Nat.testBit_shiftLeft, Nat.testBit_mod_two_pow,
    Nat.testBit_two_pow_mul_add _ hi, Nat.testBit_div_two_pow]
  by_cases hjs : j < s
  · have hjw : j < w := by omega
    have hsj : ¬ s ≤ j := by omega
    simp [hjs, hsj, hjw]
  · by_cases hjn : j - s < n
    · simp [hjs, hjn, Nat.le_of_not_lt hjs]
    · -- Above the field: bits of `a`, and none from `w` on.
      have hbit : i.testBit (j - s) = false :=
        Nat.testBit_lt_two_pow (hi.trans_le (Nat.pow_le_pow_right (by decide) (Nat.le_of_not_lt hjn)))
      have hj : j - s - n + (s + n) = j := by omega
      by_cases hjw : j < w
      · simp [hjs, hjn, hbit, hj, hjw]
      · have haj : a.testBit j = false :=
          Nat.testBit_lt_two_pow (ha.trans_le (Nat.pow_le_pow_right (by decide) (Nat.le_of_not_lt hjw)))
        simp [hjs, hjn, hbit, hj, hjw, haj]

/-- A word that is one field is its own part under the mask. -/
theorem and_mask_eq_self {a n s : Nat} (hlow : a % 2 ^ s = 0) (ha : a < 2 ^ (s + n)) : a &&& mask n s = a := by
  apply Nat.eq_of_testBit_eq
  intro j
  rw [Nat.testBit_and, testBit_mask]
  by_cases hjs : s ≤ j
  · by_cases hjn : j - s < n
    · simp [hjs, hjn]
    · have haj : a.testBit j = false :=
        Nat.testBit_lt_two_pow (ha.trans_le (Nat.pow_le_pow_right (by decide) (by omega)))
      simp [haj]
  · have haj : (a % 2 ^ s).testBit j = a.testBit j := by rw [Nat.testBit_mod_two_pow]; simp [Nat.lt_of_not_le hjs]
    rw [hlow] at haj
    simp [← haj]

/-- What is under the mask has no bits below the field, and none above. -/
theorem and_mask_mod (a n s : Nat) : (a &&& mask n s) % 2 ^ s = 0 := by
  apply Nat.eq_of_testBit_eq
  intro j
  rw [Nat.testBit_mod_two_pow, Nat.testBit_and, testBit_mask, Nat.zero_testBit]
  by_cases hjs : j < s
  · have hsj : ¬ s ≤ j := by omega
    simp [hsj]
  · simp [hjs]

theorem and_mask_lt (a n s : Nat) : a &&& mask n s < 2 ^ (s + n) :=
  Nat.lt_of_le_of_lt Nat.and_le_right (mask_lt (Nat.le_refl _))

/-- Bits below the field are not in a word that starts with it. -/
theorem and_eq_zero {a b s : Nat} (hlow : a % 2 ^ s = 0) (hb : b < 2 ^ s) : a &&& b = 0 := by
  apply Nat.eq_of_testBit_eq
  intro j
  rw [Nat.testBit_and, Nat.zero_testBit]
  by_cases hjs : j < s
  · have haj : (a % 2 ^ s).testBit j = a.testBit j := by rw [Nat.testBit_mod_two_pow]; simp [hjs]
    rw [hlow] at haj
    simp [← haj]
  · have hbj : b.testBit j = false :=
      Nat.testBit_lt_two_pow (hb.trans_le (Nat.pow_le_pow_right (by decide) (Nat.le_of_not_lt hjs)))
    simp [hbj]

/-- Clearing the low bits. -/
theorem shiftRight_shiftLeft (a s : Nat) : (a >>> s) <<< s = 2 ^ s * (a / 2 ^ s) := by
  rw [Nat.shiftLeft_eq, Nat.shiftRight_eq_div_pow, Nat.mul_comm]

end Tyche.Bits

import Mathlib.Data.Nat.Bitwise

/-! Masks, alignment and flag bits of machine words, over natural numbers. -/

namespace Velox.Lib

private theorem and_mul_two_pow (x m k : Nat) : x &&& m * 2 ^ k = (x / 2 ^ k &&& m) * 2 ^ k := by
  apply Nat.eq_of_testBit_eq
  grind

/-- Masking with a contiguous block of ones keeps exactly those digits. -/
theorem and_block (x : Nat) {k n : Nat} (ordered : k ≤ n) : x &&& (2 ^ n - 2 ^ k) = x % 2 ^ n / 2 ^ k * 2 ^ k := by
  have split : 2 ^ n = 2 ^ k * 2 ^ (n - k) := by rw [← Nat.pow_add, Nat.add_sub_of_le ordered]
  have block : 2 ^ n - 2 ^ k = (2 ^ (n - k) - 1) * 2 ^ k := by
    rw [Nat.sub_mul, Nat.one_mul, split, Nat.mul_comm]
  rw [block, and_mul_two_pow, Nat.and_two_pow_sub_one_eq_mod, split, Nat.mod_mul_right_div_self]

/-- A single flag bit survives a disjunction exactly when one side has it. -/
theorem or_and_ne_zero (x y m : Nat) : (x ||| y) &&& m ≠ 0 ↔ x &&& m ≠ 0 ∨ y &&& m ≠ 0 := by
  rw [Nat.and_or_distrib_right, Ne, Nat.or_eq_zero_iff]
  tauto

theorem or_and_eq_zero (x y m : Nat) : (x ||| y) &&& m = 0 ↔ x &&& m = 0 ∧ y &&& m = 0 := by
  rw [Nat.and_or_distrib_right, Nat.or_eq_zero_iff]

/-- Digits combined by a disjunction of disjoint blocks add up. -/
theorem or_eq_add_of_lt {high low n : Nat} (aligned : high % 2 ^ n = 0) (small : low < 2 ^ n) :
    high ||| low = high + low := by
  have scaled : high = 2 ^ n * (high / 2 ^ n) := by
    rw [Nat.mul_div_cancel' (Nat.dvd_of_mod_eq_zero aligned)]
  rw [scaled, Nat.two_pow_add_eq_or_of_lt small]

end Velox.Lib

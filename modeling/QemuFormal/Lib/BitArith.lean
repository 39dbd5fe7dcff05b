/-
QemuFormal.Lib.BitArith — bit fields of natural numbers as arithmetic.

Byte-level encoders write `PREFIX ||| ((c >>> k) &&& MASK)`: a field of
`c` under a constant prefix. With the mask `2^m - 1` and a prefix that
is a multiple of `2^m`, that is `PREFIX + c / 2^k % 2^m`, a form `omega`
can reason about. These are the rewrites needed for that, and the one
for a mask of high bits, `2^w - 2^k`.
-/
import Mathlib.Data.Nat.Bitwise

namespace BitArith

/-- A multiple of `2^i` or-ed with something below `2^i` is their sum. -/
theorem mul_two_pow_or {i a b : Nat} (h : b < 2 ^ i) : 2 ^ i * a ||| b = 2 ^ i * a + b :=
  (Nat.two_pow_add_eq_or_of_lt h a).symm

/-- A shifted, masked field. -/
theorem shiftRight_and_mask (c k m : Nat) : (c >>> k) &&& (2 ^ m - 1) = c / 2 ^ k % 2 ^ m := by
  rw [Nat.shiftRight_eq_div_pow, Nat.and_two_pow_sub_one_eq_mod]

/-- A masked field at offset 0. -/
theorem and_mask (c m : Nat) : c &&& (2 ^ m - 1) = c % 2 ^ m :=
  Nat.and_two_pow_sub_one_eq_mod c m

/-- The bits `k` to `w - 1`: the mask `2^w - 2^k` keeps the multiple of
`2^k` in `n % 2^w`. -/
theorem and_two_pow_sub_two_pow (n : Nat) {k w : Nat} (hk : k ≤ w) :
    n &&& (2 ^ w - 2 ^ k) = n % 2 ^ w / 2 ^ k * 2 ^ k := by
  apply Nat.eq_of_testBit_eq
  intro i
  rw [show 2 ^ w - 2 ^ k = (2 ^ (w - k) - 1) * 2 ^ k by
      rw [Nat.sub_mul, Nat.one_mul, ← Nat.pow_add, Nat.sub_add_cancel hk],
    Nat.testBit_and, Nat.testBit_mul_two_pow, Nat.testBit_mul_two_pow, Nat.testBit_two_pow_sub_one,
    Nat.testBit_div_two_pow, Nat.testBit_mod_two_pow]
  -- below `k` both sides are clear; from `k` on the mask is the test `i < w`
  by_cases hi : k ≤ i
  · rw [show i - k + k = i by omega]
    by_cases hw : i < w
    · simp [hi, hw, show i - k < w - k by omega]
    · simp [hi, hw, show ¬ i - k < w - k by omega]
  · simp [hi]

end BitArith

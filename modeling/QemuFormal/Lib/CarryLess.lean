/-
QemuFormal.Lib.CarryLess — carry-less multiplication of naturals, and
what it means: the product of polynomials over GF(2).

`clmul k n m` xors `m <<< i` over the bits `i < k` set in `n`: the
schoolbook product with `^^^` for the additions, so no carry moves
between columns. Bit `p` of it is the parity of the products
`n_i ∧ m_(p-i)` (`testBit_clmul`), written with `xorSum`, the xor of
finitely many Booleans. Peeling the lowest bit of `n` instead of the
highest gives `clmul_succ'`, the order of a loop that shifts `n` right
and `m` left.

`toPoly v` is the polynomial over `ZMod 2` whose coefficient of `X ^ i`
is bit `i` of `v`. It turns `^^^` into `+` and `<<< i` into `X ^ i * ·`,
so `clmul k n m` is the product of the polynomials of `n % 2 ^ k` and
`m` (`toPoly_clmul`); the product of a `k`-bit and a `w`-bit number has
at most `k + w - 1` bits (`clmul_lt`).
-/
import Mathlib

namespace CarryLess

/-! ## Parities -/

/-- `f 0 ^^ f 1 ^^ ⋯ ^^ f (k - 1)`. -/
def xorSum (f : Nat → Bool) : Nat → Bool
  | 0 => false
  | k + 1 => xorSum f k ^^ f k

@[simp]
theorem xorSum_zero (f : Nat → Bool) : xorSum f 0 = false := rfl

theorem xorSum_succ (f : Nat → Bool) (k : Nat) : xorSum f (k + 1) = (xorSum f k ^^ f k) := rfl

/-- The first term split off instead of the last. -/
theorem xorSum_succ' (f : Nat → Bool) : ∀ k, xorSum f (k + 1) = (f 0 ^^ xorSum (fun i => f (i + 1)) k)
  | 0 => by simp [xorSum]
  | k + 1 => by rw [xorSum_succ, xorSum_succ' f k, xorSum_succ, Bool.xor_assoc]

theorem xorSum_congr {f g : Nat → Bool} : ∀ {k}, (∀ i < k, f i = g i) → xorSum f k = xorSum g k
  | 0, _ => rfl
  | k + 1, h => by
    rw [xorSum_succ, xorSum_succ, xorSum_congr fun i hi => h i (by omega), h k (by omega)]

theorem xorSum_eq_false {f : Nat → Bool} : ∀ {k}, (∀ i < k, f i = false) → xorSum f k = false
  | 0, _ => rfl
  | k + 1, h => by rw [xorSum_succ, xorSum_eq_false fun i hi => h i (by omega), h k (by omega)]; rfl

/-! ## The product -/

/-- The carry-less product of the low `k` bits of `n` with `m`: the xor of
`m <<< i` over the bits `i < k` set in `n`. -/
def clmul : (k n m : Nat) → Nat
  | 0, _, _ => 0
  | k + 1, n, m => clmul k n m ^^^ (if n.testBit k then m <<< k else 0)

theorem clmul_succ (k n m : Nat) :
    clmul (k + 1) n m = clmul k n m ^^^ (if n.testBit k then m <<< k else 0) := rfl

/-- Bit `p` of the product: the parity of the pairs of bits `n_i`, `m_(p-i)`
with `i < k`. -/
theorem testBit_clmul (n m p : Nat) :
    ∀ k, (clmul k n m).testBit p = xorSum (fun i => n.testBit i && (decide (i ≤ p) && m.testBit (p - i))) k
  | 0 => by simp [clmul]
  | k + 1 => by
    rw [clmul_succ, Nat.testBit_xor, testBit_clmul n m p k, xorSum_succ]
    congr 1
    by_cases hk : n.testBit k
    · rw [if_pos hk, Nat.testBit_shiftLeft, hk, Bool.true_and]
    · rw [if_neg hk, Nat.zero_testBit, Bool.eq_false_iff.2 hk, Bool.false_and]

/-- The product with the lowest bit of `n` split off: `m` if it is set, and
the rest of `n` times `m <<< 1`. -/
theorem clmul_succ' (k n m : Nat) :
    clmul (k + 1) n m = (if n.testBit 0 then m else 0) ^^^ clmul k (n >>> 1) (m <<< 1) := by
  apply Nat.eq_of_testBit_eq
  intro p
  rw [Nat.testBit_xor, testBit_clmul, testBit_clmul, xorSum_succ']
  congr 1
  · by_cases h0 : n.testBit 0 <;> simp [h0]
  · apply xorSum_congr
    intro i _
    rw [Nat.testBit_shiftRight, Nat.testBit_shiftLeft, Nat.add_comm 1 i]
    -- `m_(p-(i+1))` is bit `p - i` of `m <<< 1`, when `i + 1 ≤ p`
    by_cases hp : i + 1 ≤ p
    · simp [hp, show i ≤ p by omega, show p - i ≥ 1 by omega, show p - i - 1 = p - (i + 1) by omega]
    · simp only [hp, decide_false, Bool.false_and, Bool.and_false]
      -- `i ≥ p`: no bit of `m <<< 1` below bit 1
      by_cases hip : i ≤ p
      · simp [show ¬ p - i ≥ 1 by omega]
      · simp [hip]

/-- A `k`-bit number times a `w`-bit one has at most `k + w - 1` bits. -/
theorem clmul_lt (k n : Nat) {m w : Nat} (hm : m < 2 ^ w) : clmul k n m < 2 ^ (k + w - 1) := by
  apply Nat.lt_pow_two_of_testBit
  intro p hp
  rw [testBit_clmul]
  apply xorSum_eq_false
  intro i hi
  -- `p - i ≥ w`, above the bits of `m`
  have hbit : m.testBit (p - i) = false :=
    Nat.testBit_lt_two_pow (lt_of_lt_of_le hm (Nat.pow_le_pow_right (by decide) (by omega)))
  simp [hbit]

/-! ## Lanes -/

/-- Lane `j` of `v` cut into lanes of `w` bits. -/
def lane (w j v : Nat) : Nat := v / 2 ^ (w * j) % 2 ^ w

theorem testBit_lane (w j v q : Nat) : (lane w j v).testBit q = (decide (q < w) && v.testBit (w * j + q)) := by
  rw [lane, Nat.testBit_mod_two_pow, Nat.testBit_div_two_pow, Nat.add_comm q]

theorem lane_lt (w j v : Nat) : lane w j v < 2 ^ w := Nat.mod_lt _ (Nat.two_pow_pos w)

/-- Shifting right by a lane moves every lane down by one. -/
theorem lane_shiftRight (w j v : Nat) : lane w j (v >>> w) = lane w (j + 1) v := by
  rw [lane, lane, Nat.shiftRight_eq_div_pow, Nat.div_div_eq_div_mul, ← Nat.pow_add, Nat.mul_succ, Nat.add_comm w]

/-- A number whose bits sit at multiples of `w`, times `2 ^ w - 1`: each of
its bits fills the `w`-bit lane it starts, and no lane spills into the
next. -/
theorem testBit_mul_fill {w : Nat} (hw : 0 < w) :
    ∀ (L y : Nat), y < 2 ^ (w * L) → (∀ i, y.testBit i = true → i % w = 0) →
      ∀ p, (y * (2 ^ w - 1)).testBit p = y.testBit (w * (p / w))
  | 0, y, hy, _, p => by
    rw [Nat.mul_zero, Nat.pow_zero, Nat.lt_one_iff] at hy
    simp [hy]
  | L + 1, y, hy, hbits, p => by
    -- `y` is its lowest lane, `0` or `1`, and the lanes above it
    have hlow : y % 2 ^ w ≤ 1 := by
      suffices h : y % 2 ^ w < 2 ^ 1 by omega
      apply Nat.lt_pow_two_of_testBit
      intro i hi
      rw [Nat.testBit_mod_two_pow]
      by_cases hiw : i < w
      · cases hb : y.testBit i
        · simp
        · have := hbits i hb
          rw [Nat.mod_eq_of_lt hiw] at this
          omega
      · simp [hiw]
    have hsplit : y * (2 ^ w - 1) = 2 ^ w * (y / 2 ^ w * (2 ^ w - 1)) + y % 2 ^ w * (2 ^ w - 1) := by
      conv_lhs => rw [← Nat.div_add_mod y (2 ^ w)]
      rw [Nat.add_mul, Nat.mul_assoc]
    have hlow_lt : y % 2 ^ w * (2 ^ w - 1) < 2 ^ w := by
      have := Nat.one_le_two_pow (n := w)
      calc y % 2 ^ w * (2 ^ w - 1) ≤ 1 * (2 ^ w - 1) := Nat.mul_le_mul_right _ hlow
        _ < 2 ^ w := by omega
    have hhigh : y / 2 ^ w < 2 ^ (w * L) := by
      rw [Nat.div_lt_iff_lt_mul (Nat.two_pow_pos w), ← Nat.pow_add]
      rwa [Nat.mul_succ] at hy
    have hbits' : ∀ i, (y / 2 ^ w).testBit i = true → i % w = 0 := by
      intro i hi
      rw [Nat.testBit_div_two_pow] at hi
      have := hbits _ hi
      rwa [Nat.add_mod_right] at this
    rw [hsplit, Nat.testBit_two_pow_mul_add _ hlow_lt]
    by_cases hp : p < w
    · -- the lowest lane: all ones or all zeros, as bit `0` of `y`
      rw [if_pos hp, Nat.div_eq_of_lt hp, Nat.mul_zero]
      have hy0 : y.testBit 0 = (y % 2 ^ w).testBit 0 := by
        rw [Nat.testBit_mod_two_pow, decide_eq_true hw, Bool.true_and]
      rw [hy0]
      rcases Nat.le_one_iff_eq_zero_or_eq_one.mp hlow with h0 | h1
      · simp [h0]
      · rw [h1, Nat.one_mul, Nat.testBit_two_pow_sub_one, decide_eq_true hp]
        rfl
    · -- a higher lane: the same statement for `y / 2 ^ w`, one lane down
      rw [if_neg hp, testBit_mul_fill hw L _ hhigh hbits', Nat.testBit_div_two_pow]
      congr 1
      have hdiv : (p - w) / w + 1 = p / w := by
        rw [← Nat.add_div_right _ hw, Nat.sub_add_cancel (by omega)]
      rw [← hdiv, Nat.mul_succ]

/-! ## Polynomials over GF(2) -/

open Polynomial

/-- The polynomial whose coefficient of `X ^ i` is bit `i` of `v`. -/
noncomputable def toPoly (v : Nat) : (ZMod 2)[X] :=
  ∑ i ∈ Finset.range v.size, if v.testBit i then X ^ i else 0

theorem coeff_toPoly (v k : Nat) : (toPoly v).coeff k = if v.testBit k then 1 else 0 := by
  have hterm : ∀ i, (if v.testBit i then (X ^ i : (ZMod 2)[X]) else 0).coeff k =
      if k = i then (if v.testBit k then 1 else 0) else 0 := by
    intro i
    by_cases hi : k = i
    · subst hi
      rw [if_pos rfl]
      split_ifs <;> simp
    · split_ifs <;> simp [coeff_X_pow, hi]
  rw [toPoly, finsetSum_coeff]
  simp only [hterm, Finset.sum_ite_eq, Finset.mem_range]
  -- above `v.size` the bit is clear
  by_cases hk : k < v.size
  · rw [if_pos hk]
  · rw [if_neg hk, Nat.testBit_lt_two_pow (lt_of_lt_of_le (Nat.lt_size_self v)
      (Nat.pow_le_pow_right (by decide) (by omega)))]
    rfl

@[simp]
theorem toPoly_zero : toPoly 0 = 0 := by
  ext k
  simp [coeff_toPoly]

theorem toPoly_xor (a b : Nat) : toPoly (a ^^^ b) = toPoly a + toPoly b := by
  ext k
  rw [coeff_add, coeff_toPoly, coeff_toPoly, coeff_toPoly, Nat.testBit_xor]
  -- in `ZMod 2`, `1 + 1 = 0`
  cases a.testBit k <;> cases b.testBit k <;> decide

theorem toPoly_shiftLeft (a i : Nat) : toPoly (a <<< i) = X ^ i * toPoly a := by
  ext k
  rw [coeff_X_pow_mul', coeff_toPoly, coeff_toPoly, Nat.testBit_shiftLeft]
  by_cases hik : i ≤ k <;> simp [hik]

theorem toPoly_two_pow (k : Nat) : toPoly (2 ^ k) = X ^ k := by
  ext j
  rw [coeff_toPoly, Nat.testBit_two_pow, coeff_X_pow]
  by_cases hj : j = k
  · simp [hj]
  · simp [hj, Ne.symm hj]

theorem toPoly_ite (c : Prop) [Decidable c] (a b : Nat) :
    toPoly (if c then a else b) = if c then toPoly a else toPoly b := by
  split_ifs <;> rfl

/-- The low `k + 1` bits are the low `k` bits and bit `k`. -/
theorem mod_two_pow_succ (n k : Nat) : n % 2 ^ (k + 1) = n % 2 ^ k ^^^ (if n.testBit k then 2 ^ k else 0) := by
  apply Nat.eq_of_testBit_eq
  intro i
  rw [Nat.testBit_xor, Nat.testBit_mod_two_pow, Nat.testBit_mod_two_pow]
  by_cases hi : i = k
  · subst hi
    by_cases hb : n.testBit i <;> simp [hb]
  · have hone : (if n.testBit k then 2 ^ k else 0).testBit i = false := by
      split_ifs
      · rw [Nat.testBit_two_pow, decide_eq_false (Ne.symm hi)]
      · exact Nat.zero_testBit i
    rw [hone, Bool.xor_false]
    by_cases hik : i < k
    · simp [hik, show i < k + 1 by omega]
    · simp [hik, show ¬ i < k + 1 by omega]

/-- `clmul` is the product over GF(2) of `n` cut to `k` bits and `m`. -/
theorem toPoly_clmul (n m : Nat) : ∀ k, toPoly (clmul k n m) = toPoly (n % 2 ^ k) * toPoly m
  | 0 => by simp [clmul, Nat.mod_one]
  | k + 1 => by
    rw [clmul_succ, toPoly_xor, toPoly_clmul n m k, mod_two_pow_succ, toPoly_xor, add_mul, toPoly_ite,
      toPoly_ite, toPoly_shiftLeft, toPoly_two_pow]
    congr 1
    split_ifs
    · rfl
    · rw [toPoly_zero, zero_mul]

end CarryLess

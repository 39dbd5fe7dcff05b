/-
QemuFormal.Util.HostUtilsDiv — the portable 128-bit divisions of
`util/host-utils.c` and the generic `udiv_qrnnd` of
`include/qemu/host-utils.h` are exact.

`udiv_qrnnd` is schoolbook division in base `2^32` with two digits. Each
digit is estimated from the top half `d1` of the divisor and corrected at
most twice: the estimate `u / d1` is never below the digit
(`div_le_estimate`) and, with `d1 ≥ 2^31`, at most two above it
(`estimate_le_div_add_two`, Knuth's Theorem 4.3.1B). The estimate is at
most `2^32 + 1`, so `q * d0` does not wrap; a wrap of `r += d` is what the
test `r >= d` detects. `udivQrnndHalf_spec` settles one digit in each of
the three cases, `udivQrnnd_spec` joins two by long division (`div_split`).

`divu128` shifts the divisor left by its leading zeros (`clz64_spec`) and
the dividend with it (`shifted_dividend`); each of its four branches
leaves a high digit and a remainder `H / d`, `H % d` of the normalised
dividend `H * 2^64 + L`, and `udivQrnnd_unnormalise` finishes all four.
`divs128` divides the magnitudes (`neg128_magnitude`,
`divisor_magnitude_of_neg`) and gives the signs back; a quotient that
keeps its sign is below `2^127` except for `INT128_MIN / -1`
(`natAbs_div_lt`).

The main result is `wideDivision_exact`.
-/
import QemuFormal.Util.HostUtilsMul

namespace QemuFormal.HostUtils


section Estimate

/- One digit of schoolbook division in base `2^32`: the divisor is
`d = d1 * 2^32 + d0` with its top half normalised, the dividend is
`u * 2^32 + digit` with `u < d`. -/
variable {u digit d1 d0 : Nat}

/-- The estimate `u / d1` is at most `2^32 + 1`. -/
theorem estimate_le (hd1 : 2 ^ 31 ≤ d1) (hd0 : d0 < 2 ^ 32) (hu : u < d1 * 2 ^ 32 + d0) :
    u / d1 ≤ 2 ^ 32 + 1 := by
  have hpos : 0 < d1 := by omega
  have h : u / d1 * d1 < (2 ^ 32 + 2) * d1 := by
    have := Nat.div_mul_le_self u d1
    rw [Nat.add_mul]
    omega
  have := Nat.lt_of_mul_lt_mul_right h
  omega

/-- The estimate is never below the quotient digit. -/
theorem div_le_estimate (hd1 : 0 < d1) (hdigit : digit < 2 ^ 32) :
    (u * 2 ^ 32 + digit) / (d1 * 2 ^ 32 + d0) ≤ u / d1 := by
  have hr := Nat.mod_lt u hd1
  have hdm := Nat.div_add_mod u d1
  rw [← Nat.lt_succ_iff, Nat.div_lt_iff_lt_mul (by omega)]
  generalize u / d1 = q at *
  generalize u % d1 = r at *
  subst hdm
  have hlow : r * 2 ^ 32 + digit < d1 * 2 ^ 32 := by
    have := Nat.mul_le_mul_right (2 ^ 32) (Nat.succ_le_of_lt hr)
    rw [Nat.succ_mul] at this
    omega
  -- the digits below the estimate stay under one more `d1 * 2^32`
  calc (d1 * q + r) * 2 ^ 32 + digit = d1 * q * 2 ^ 32 + (r * 2 ^ 32 + digit) := by ring
    _ < d1 * q * 2 ^ 32 + d1 * 2 ^ 32 := Nat.add_lt_add_left hlow _
    _ = (q + 1) * (d1 * 2 ^ 32) := by ring
    _ ≤ (q + 1) * (d1 * 2 ^ 32 + d0) := Nat.mul_le_mul_left _ (Nat.le_add_right _ _)

/-- The estimate overshoots the quotient digit by at most two (Knuth's
Theorem 4.3.1B: the top half of the divisor is at least `2^31`). -/
theorem estimate_le_div_add_two (hd1 : 2 ^ 31 ≤ d1) (hd0 : d0 < 2 ^ 32) (hu : u < d1 * 2 ^ 32 + d0) :
    u / d1 ≤ (u * 2 ^ 32 + digit) / (d1 * 2 ^ 32 + d0) + 2 := by
  have hb := estimate_le hd1 hd0 hu
  have hdq := Nat.lt_mul_div_succ (u * 2 ^ 32 + digit) (show 0 < d1 * 2 ^ 32 + d0 by omega)
  have hqd : u / d1 * d1 * 2 ^ 32 ≤ u * 2 ^ 32 := Nat.mul_le_mul_right _ (Nat.div_mul_le_self u d1)
  -- only the two quotients matter from here on
  generalize u / d1 = q at *
  generalize (u * 2 ^ 32 + digit) / (d1 * 2 ^ 32 + d0) = Q at *
  by_contra hlt
  obtain ⟨k, rfl⟩ : ∃ k, q = k + 3 + Q := ⟨q - 3 - Q, by omega⟩
  -- `(k + Q + 3) * d1 * 2^32 ≤ N < (Q + 1) * d`, so `(k + 2) * d1 * 2^32 < (Q + 1) * d0 ≤ … `
  have hN : (k + 3 + Q) * d1 * 2 ^ 32 < (Q + 1) * (d1 * 2 ^ 32 + d0) := by
    calc (k + 3 + Q) * d1 * 2 ^ 32 ≤ u * 2 ^ 32 := hqd
      _ ≤ u * 2 ^ 32 + digit := Nat.le_add_right _ _
      _ < (d1 * 2 ^ 32 + d0) * (Q + 1) := hdq
      _ = (Q + 1) * (d1 * 2 ^ 32 + d0) := Nat.mul_comm _ _
  have e : (k + 3 + Q) * d1 * 2 ^ 32 = (Q + 1) * (d1 * 2 ^ 32) + (k + 2) * (d1 * 2 ^ 32) := by ring
  have e' : (Q + 1) * (d1 * 2 ^ 32 + d0) = (Q + 1) * (d1 * 2 ^ 32) + (Q + 1) * d0 := by ring
  -- `(k + 2) * d1 * 2^32 < (Q + 1) * d0 < (Q + 1) * 2^32`, so `(k + 2) * d1 < Q + 1`
  have h3 : (Q + 1) * d0 < (Q + 1) * 2 ^ 32 := Nat.mul_lt_mul_of_pos_left hd0 (Nat.succ_pos Q)
  have h4 : (k + 2) * d1 * 2 ^ 32 < (Q + 1) * 2 ^ 32 := by rw [Nat.mul_assoc]; omega
  have h5 := Nat.lt_of_mul_lt_mul_right h4
  have h6 : 2 * d1 ≤ (k + 2) * d1 := Nat.mul_le_mul_right _ (by omega)
  omega

end Estimate

/-! ## `udiv_qrnnd` -/

/-- The halves of the divisor, `d1 = d >> 32` and `d0 = (uint32_t)d`. -/
theorem toNat_divisor_split (d : UInt64) :
    (d >>> 32).toNat = d.toNat / 2 ^ 32 ∧ d.toUInt32.toUInt64.toNat = d.toNat % 2 ^ 32
    ∧ d.toNat = d.toNat / 2 ^ 32 * 2 ^ 32 + d.toNat % 2 ^ 32 := by
  refine ⟨toNat_shiftRight_32 d, by rw [UInt32.toNat_toUInt64, UInt64.toNat_toUInt32], by omega⟩

/-- `(r << 32) | digit` of a remainder below `2^32` and a digit. -/
theorem toNat_shiftLeft_or {r digit : UInt64} (hr : r.toNat < 2 ^ 32) (hdigit : digit.toNat < 2 ^ 32) :
    ((r <<< 32) ||| digit).toNat = r.toNat * 2 ^ 32 + digit.toNat := by
  rw [UInt64.toNat_or, UInt64.toNat_shiftLeft, show (32 : UInt64).toNat % 64 = 32 from rfl, Nat.shiftLeft_eq,
    Nat.mod_eq_of_lt (by omega), Nat.mul_comm, Nat.two_pow_add_eq_or_of_lt (by omega)]

/-- One half step of `udiv_qrnnd`: for `u < d` and `d` normalised, the
quotient digit and the remainder of `(u * 2^32 + digit) / d`. -/
theorem udivQrnndHalf_spec (u digit d : UInt64) (hd : 2 ^ 63 ≤ d.toNat) (hu : u.toNat < d.toNat)
    (hdigit : digit.toNat < 2 ^ 32) :
    (udivQrnndHalf u digit d).1.toNat = (u.toNat * 2 ^ 32 + digit.toNat) / d.toNat
    ∧ (udivQrnndHalf u digit d).2.toNat = (u.toNat * 2 ^ 32 + digit.toNat) % d.toNat := by
  obtain ⟨hd1, hd0, hdd⟩ := toNat_divisor_split d
  have hdlt := d.toNat_lt
  have hD0 : d.toNat % 2 ^ 32 < 2 ^ 32 := Nat.mod_lt _ (by decide)
  have hD1 : 2 ^ 31 ≤ d.toNat / 2 ^ 32 := by omega
  generalize d.toNat / 2 ^ 32 = D1 at *
  generalize d.toNat % 2 ^ 32 = D0 at *
  have hu' : u.toNat < D1 * 2 ^ 32 + D0 := by omega
  -- the estimate `qhat = u / d1` is the digit `Q`, or one or two more
  have hle := estimate_le hD1 hD0 hu'
  have hQle : (u.toNat * 2 ^ 32 + digit.toNat) / (D1 * 2 ^ 32 + D0) ≤ u.toNat / D1 :=
    div_le_estimate (by omega) hdigit
  have hleQ : u.toNat / D1 ≤ (u.toNat * 2 ^ 32 + digit.toNat) / (D1 * 2 ^ 32 + D0) + 2 :=
    estimate_le_div_add_two hD1 hD0 hu'
  rw [← hdd] at hQle hleQ
  have hdm := Nat.div_add_mod u.toNat D1
  have hrm := Nat.mod_lt u.toNat (show 0 < D1 by omega)
  have hNd := Nat.div_add_mod (u.toNat * 2 ^ 32 + digit.toNat) d.toNat
  have hR := Nat.mod_lt (u.toNat * 2 ^ 32 + digit.toNat) (show 0 < d.toNat by omega)
  -- the words of the model
  have hq : (u / (d >>> 32)).toNat = u.toNat / D1 := by rw [UInt64.toNat_div, hd1]
  have hm : (u / (d >>> 32) * d.toUInt32.toUInt64).toNat = u.toNat / D1 * D0 := by
    rw [UInt64.toNat_mul, hq, hd0]
    apply Nat.mod_eq_of_lt
    calc u.toNat / D1 * D0 ≤ (2 ^ 32 + 1) * (2 ^ 32 - 1) := Nat.mul_le_mul hle (by omega)
      _ < 2 ^ 64 := by decide
  have hr : (((u % (d >>> 32)) <<< 32) ||| digit).toNat = u.toNat % D1 * 2 ^ 32 + digit.toNat := by
    rw [toNat_shiftLeft_or (by rw [UInt64.toNat_mod, hd1]; omega) hdigit, UInt64.toNat_mod, hd1]
  unfold udivQrnndHalf
  simp only
  generalize u / (d >>> 32) = q at hq hm
  generalize q * d.toUInt32.toUInt64 = m at hm
  generalize ((u % (d >>> 32)) <<< 32) ||| digit = r at hr
  generalize u.toNat / D1 = qh at *
  generalize u.toNat % D1 = rh at *
  generalize (u.toNat * 2 ^ 32 + digit.toNat) / d.toNat = Q at *
  generalize (u.toNat * 2 ^ 32 + digit.toNat) % d.toNat = R at *
  -- `r - m` is what `qhat * d` leaves of the dividend: `r + qhat * d = Q * d + R + m`
  have e1 : qh * d.toNat = D1 * qh * 2 ^ 32 + qh * D0 := by rw [hdd]; ring
  obtain ⟨k, rfl⟩ : ∃ k, qh = Q + k := ⟨qh - Q, by omega⟩
  have e2 : (Q + k) * d.toNat = d.toNat * Q + k * d.toNat := by ring
  have hm' := m.toNat_lt
  rcases (by omega : k = 0 ∨ k = 1 ∨ k = 2) with rfl | rfl | rfl
  all_goals
    split_ifs with h1 h2 h3 <;>
      simp only [UInt64.lt_iff_toNat_lt, UInt64.le_iff_toNat_le, ge_iff_le, UInt64.toNat_add, UInt64.toNat_sub,
        UInt64.toNat_one] at * <;>
      omega

/-- The two digits of the quotient fit in 32 bits each. -/
theorem digit_div_lt {u digit d : Nat} (hu : u < d) (hdigit : digit < 2 ^ 32) : (u * 2 ^ 32 + digit) / d < 2 ^ 32 := by
  rw [Nat.div_lt_iff_lt_mul (by omega)]
  have := Nat.mul_le_mul_right (2 ^ 32) (Nat.succ_le_of_lt hu)
  rw [Nat.succ_mul, Nat.mul_comm (2 ^ 32) d] at *
  omega

/-- `udiv_qrnnd(r, n1, n0, d)` for `n1 < d` and `d` normalised: the quotient
and the remainder of `(n1:n0) / d`. -/
theorem udivQrnnd_spec (n1 n0 d : UInt64) (hd : 2 ^ 63 ≤ d.toNat) (hn : n1.toNat < d.toNat) :
    (udivQrnnd n1 n0 d).1.toNat = (n1.toNat * 2 ^ 64 + n0.toNat) / d.toNat
    ∧ (udivQrnnd n1 n0 d).2.toNat = (n1.toNat * 2 ^ 64 + n0.toNat) % d.toNat := by
  have hd0 : 0 < d.toNat := by omega
  have hhi : (n0 >>> 32).toNat < 2 ^ 32 := by rw [toNat_shiftRight_32]; have := n0.toNat_lt; omega
  have hlo : n0.toUInt32.toUInt64.toNat < 2 ^ 32 := by rw [UInt32.toNat_toUInt64]; exact UInt32.toNat_lt _
  unfold udivQrnnd
  -- the first digit, from `n1` and the high half of `n0`
  obtain ⟨hq1, hr1⟩ := udivQrnndHalf_spec n1 (n0 >>> 32) d hd hn hhi
  generalize udivQrnndHalf n1 (n0 >>> 32) d = A at hq1 hr1 ⊢
  obtain ⟨q1, r1⟩ := A
  dsimp only at hq1 hr1 ⊢
  have hr1d : r1.toNat < d.toNat := by rw [hr1]; exact Nat.mod_lt _ hd0
  -- the second, from its remainder and the low half
  obtain ⟨hq0, hr0⟩ := udivQrnndHalf_spec r1 n0.toUInt32.toUInt64 d hd hr1d hlo
  generalize udivQrnndHalf r1 n0.toUInt32.toUInt64 d = B at hq0 hr0 ⊢
  obtain ⟨q0, r0⟩ := B
  dsimp only at hq0 hr0 ⊢
  have hq1lt : q1.toNat < 2 ^ 32 := by rw [hq1]; exact digit_div_lt hn hhi
  have hq0lt : q0.toNat < 2 ^ 32 := by rw [hq0]; exact digit_div_lt hr1d hlo
  rw [toNat_shiftRight_32] at hq1 hr1
  rw [UInt32.toNat_toUInt64, UInt64.toNat_toUInt32, hr1] at hq0 hr0
  -- `(n1:n0) = (n1 * 2^32 + n0 / 2^32) * 2^32 + n0 % 2^32`, divided in two steps
  have hsplit : n1.toNat * 2 ^ 64 + n0.toNat = (n1.toNat * 2 ^ 32 + n0.toNat / 2 ^ 32) * 2 ^ 32 + n0.toNat % 2 ^ 32 := by
    omega
  obtain ⟨hdiv, -, hmod⟩ := div_split (h := n1.toNat * 2 ^ 32 + n0.toNat / 2 ^ 32) hd0 (Nat.mod_lt n0.toNat (by decide : 0 < 2 ^ 32))
  rw [toNat_shiftLeft_or hq1lt hq0lt, hq1, hq0, hr0, hsplit, hdiv, hmod]
  exact ⟨rfl, rfl⟩

/-! ## Normalisation by `clz64` -/

/-- Shifting a non-zero word left by its leading zeros sets its top bit and loses nothing. -/
theorem clz64_spec {v : UInt64} (hv : v ≠ 0) :
    clz64 v ≤ 63 ∧ 2 ^ 63 ≤ v.toNat * 2 ^ clz64 v ∧ v.toNat * 2 ^ clz64 v < 2 ^ 64 := by
  have hv' : v.toNat ≠ 0 := by rwa [Ne, ← UInt64.toNat_zero, UInt64.toNat_inj]
  have hlog : v.toNat.log2 < 64 := (Nat.log2_lt hv').2 v.toNat_lt
  have h1 := Nat.log2_self_le hv'
  have h2 := Nat.lt_log2_self (n := v.toNat)
  rw [clz64, if_neg hv]
  refine ⟨by omega, ?_, ?_⟩
  · calc 2 ^ 63 = 2 ^ v.toNat.log2 * 2 ^ (63 - v.toNat.log2) := by rw [← Nat.pow_add]; congr 1; omega
      _ ≤ v.toNat * 2 ^ (63 - v.toNat.log2) := Nat.mul_le_mul_right _ h1
  · calc v.toNat * 2 ^ (63 - v.toNat.log2) < 2 ^ (v.toNat.log2 + 1) * 2 ^ (63 - v.toNat.log2) :=
          Nat.mul_lt_mul_of_pos_right h2 (Nat.two_pow_pos _)
      _ = 2 ^ 64 := by rw [← Nat.pow_add]; congr 1; omega

section Shift

/- A shift count `sh` below 64, as `divu128` has it. -/
variable {sh : UInt64} (hsh : sh.toNat < 64)
include hsh

theorem toNat_shiftLeft_count (x : UInt64) : (x <<< sh).toNat = x.toNat * 2 ^ sh.toNat % 2 ^ 64 := by
  rw [UInt64.toNat_shiftLeft, Nat.mod_eq_of_lt hsh, Nat.shiftLeft_eq]

theorem toNat_shiftRight_count (x : UInt64) : (x >>> sh).toNat = x.toNat / 2 ^ sh.toNat := by
  rw [UInt64.toNat_shiftRight, Nat.mod_eq_of_lt hsh, Nat.shiftRight_eq_div_pow]

/-- The bits of `y` shifted out at the top come in at the bottom of `x`. -/
theorem toNat_shiftLeft_or_shiftRight (hsh0 : 0 < sh.toNat) (x y : UInt64) :
    ((x <<< sh) ||| (y >>> (64 - sh))).toNat = x.toNat * 2 ^ sh.toNat % 2 ^ 64 + y.toNat / 2 ^ (64 - sh.toNat) := by
  have hsub : (64 - sh).toNat = 64 - sh.toNat := by
    rw [UInt64.toNat_sub_of_le _ _ (UInt64.le_iff_toNat_le.mpr (by rw [show (64 : UInt64).toNat = 64 from rfl]; omega))]
    rfl
  have hy : y.toNat / 2 ^ (64 - sh.toNat) < 2 ^ sh.toNat := by
    rw [Nat.div_lt_iff_lt_mul (Nat.two_pow_pos _), ← Nat.pow_add, show sh.toNat + (64 - sh.toNat) = 64 by omega]
    exact y.toNat_lt
  have hx : x.toNat * 2 ^ sh.toNat % 2 ^ 64 = 2 ^ sh.toNat * (x.toNat % 2 ^ (64 - sh.toNat)) := by
    rw [show (2 : Nat) ^ 64 = 2 ^ (64 - sh.toNat) * 2 ^ sh.toNat by rw [← Nat.pow_add]; congr 1; omega,
      Nat.mul_mod_mul_right, Nat.mul_comm]
  rw [UInt64.toNat_or, toNat_shiftLeft_count hsh, toNat_shiftRight_count (by rw [hsub]; omega), hsub, hx,
    Nat.two_pow_add_eq_or_of_lt hy]

end Shift

/-- A word shifted left by `s ≤ 64` across two words. -/
theorem mul_two_pow_split (x s : Nat) (hs : s ≤ 64) : x * 2 ^ s = x / 2 ^ (64 - s) * 2 ^ 64 + x * 2 ^ s % 2 ^ 64 := by
  have h := Nat.div_add_mod (x * 2 ^ s) (2 ^ 64)
  rw [show (2 : Nat) ^ 64 = 2 ^ (64 - s) * 2 ^ s by rw [← Nat.pow_add]; congr 1; omega,
    Nat.mul_div_mul_right _ _ (Nat.two_pow_pos s)] at h
  rw [show (2 : Nat) ^ 64 = 2 ^ (64 - s) * 2 ^ s by rw [← Nat.pow_add]; congr 1; omega]
  rw [Nat.mul_comm (x / 2 ^ (64 - s))]
  omega

/-- Dividing both operands by the same power of two changes the quotient not
at all and the remainder by that power. -/
theorem div_mod_mul_two_pow (n d s : Nat) :
    n * 2 ^ s / (d * 2 ^ s) = n / d ∧ n * 2 ^ s % (d * 2 ^ s) / 2 ^ s = n % d := by
  refine ⟨Nat.mul_div_mul_right _ _ (Nat.two_pow_pos s), ?_⟩
  rw [Nat.mul_mod_mul_right, Nat.mul_div_cancel _ (Nat.two_pow_pos s)]

/-- The dividend shifted left by `0 < s < 64` on three words: the bits
shifted out of `phigh`, `phigh` with the top of `plow`, and `plow`. -/
theorem shifted_dividend (ph pl s : Nat) (hs : s < 64) :
    (ph * 2 ^ 64 + pl) * 2 ^ s
      = (ph / 2 ^ (64 - s) * 2 ^ 64 + (ph * 2 ^ s % 2 ^ 64 + pl / 2 ^ (64 - s))) * 2 ^ 64 + pl * 2 ^ s % 2 ^ 64 := by
  have hph := mul_two_pow_split ph s (by omega)
  have hpl := mul_two_pow_split pl s (by omega)
  rw [show (ph * 2 ^ 64 + pl) * 2 ^ s = ph * 2 ^ s * 2 ^ 64 + pl * 2 ^ s by ring]
  generalize ph * 2 ^ s = a at *
  generalize pl * 2 ^ s = b at *
  generalize ph / 2 ^ (64 - s) = c at *
  generalize pl / 2 ^ (64 - s) = c' at *
  omega

/-- The last `udiv_qrnnd` of `divu128`: from the high digit of the quotient
of the normalised dividend `H * 2^64 + L` and its remainder, the low digit,
and the remainder shifted back. -/
theorem udivQrnnd_unnormalise {rh L d sh : UInt64} {N D H qh : Nat} (hd : 2 ^ 63 ≤ d.toNat)
    (hD : d.toNat = D * 2 ^ sh.toNat) (hsh : sh.toNat < 64) (hq : qh = H / d.toNat) (hr : rh.toNat = H % d.toNat)
    (hN : N * 2 ^ sh.toNat = H * 2 ^ 64 + L.toNat) :
    qh * 2 ^ 64 + (udivQrnnd rh L d).1.toNat = N / D ∧ ((udivQrnnd rh L d).2 >>> sh).toNat = N % D := by
  have hd0 : 0 < d.toNat := by omega
  have hrd : rh.toNat < d.toNat := by rw [hr]; exact Nat.mod_lt _ hd0
  obtain ⟨hq', hr'⟩ := udivQrnnd_spec rh L d hd hrd
  obtain ⟨hdiv, -, hmod⟩ := div_split (h := H) hd0 L.toNat_lt
  obtain ⟨h1, h2⟩ := div_mod_mul_two_pow N D sh.toNat
  rw [toNat_shiftRight_count hsh, hq', hr', hq, hr, ← hmod, ← hdiv, ← hN, hD, h1, h2]
  exact ⟨rfl, rfl⟩

/-- `divu128`: the quotient of `(phigh:plow) / divisor` in `(phigh:plow)` and
the remainder, for every divisor but 0. -/
theorem divu128_spec (plow phigh divisor : UInt64) (hd : divisor ≠ 0) :
    (divu128 plow phigh divisor).2.1.toNat * 2 ^ 64 + (divu128 plow phigh divisor).1.toNat
      = (phigh.toNat * 2 ^ 64 + plow.toNat) / divisor.toNat
    ∧ (divu128 plow phigh divisor).2.2.toNat = (phigh.toNat * 2 ^ 64 + plow.toNat) % divisor.toNat := by
  by_cases hhi : phigh = 0
  · -- one word: a plain division
    have h0 : phigh.toNat = 0 := by rw [hhi]; rfl
    rw [divu128, if_pos (Or.inr hhi), h0, Nat.zero_mul, Nat.zero_add]
    exact ⟨by rw [UInt64.toNat_zero, Nat.zero_mul, Nat.zero_add, UInt64.toNat_div], UInt64.toNat_mod _ _⟩
  obtain ⟨hs63, hnorm, hfit⟩ := clz64_spec hd
  have hsh : (clz64 divisor).toUInt64.toNat = clz64 divisor := by
    rw [show (clz64 divisor).toUInt64 = UInt64.ofNat (clz64 divisor) from rfl, UInt64.toNat_ofNat']
    omega
  have hd0 : 0 < divisor.toNat := Nat.pos_of_ne_zero (by rwa [Ne, ← UInt64.toNat_zero, UInt64.toNat_inj])
  unfold divu128
  rw [if_neg (by tauto)]
  simp only
  generalize (clz64 divisor).toUInt64 = sh at *
  generalize clz64 divisor = s at *
  subst hsh
  have hdiv' : (divisor <<< sh).toNat = divisor.toNat * 2 ^ sh.toNat := by
    rw [toNat_shiftLeft_count (by omega), Nat.mod_eq_of_lt hfit]
  have hsplit := shifted_dividend phigh.toNat plow.toNat sh.toNat (by omega)
  have hnorm' : 2 ^ 63 ≤ (divisor <<< sh).toNat := by rw [hdiv']; exact hnorm
  split_ifs with h1 h2 h3 <;> dsimp only
  · -- `phigh < divisor`, shifted: the high digit is 0
    have hs0 : 0 < sh.toNat := by
      rw [Ne, ← UInt64.toNat_inj, UInt64.toNat_zero] at h2; omega
    have hhi' := toNat_shiftLeft_or_shiftRight (by omega) hs0 phigh plow
    have hlt : phigh.toNat * 2 ^ sh.toNat < divisor.toNat * 2 ^ sh.toNat :=
      Nat.mul_lt_mul_of_pos_right (UInt64.lt_iff_toNat_lt.mp h1) (Nat.two_pow_pos _)
    have hlow : plow.toNat / 2 ^ (64 - sh.toNat) < 2 ^ sh.toNat := by
      rw [Nat.div_lt_iff_lt_mul (Nat.two_pow_pos _), ← Nat.pow_add, show sh.toNat + (64 - sh.toNat) = 64 by omega]
      exact plow.toNat_lt
    have htop : phigh.toNat / 2 ^ (64 - sh.toNat) = 0 := by
      rw [Nat.div_eq_zero_iff_lt (Nat.two_pow_pos _)]
      have := Nat.lt_of_lt_of_le hlt (Nat.le_of_lt hfit)
      rwa [show (2 : Nat) ^ 64 = 2 ^ (64 - sh.toNat) * 2 ^ sh.toNat by rw [← Nat.pow_add]; congr 1; omega,
        Nat.mul_lt_mul_right (Nat.two_pow_pos _)] at this
    rw [Nat.mod_eq_of_lt (by omega : phigh.toNat * 2 ^ sh.toNat < 2 ^ 64)] at hhi' hsplit
    have hH : (phigh <<< sh ||| plow >>> (64 - sh)).toNat < (divisor <<< sh).toNat := by
      have := Nat.mul_le_mul_right (2 ^ sh.toNat) (UInt64.lt_iff_toNat_lt.mp h1)
      rw [Nat.succ_mul] at this
      rw [hhi', hdiv']
      omega
    refine udivQrnnd_unnormalise hnorm' hdiv' (by omega) (by rw [UInt64.toNat_zero, Nat.div_eq_of_lt hH])
      (Nat.mod_eq_of_lt hH).symm ?_
    rw [hsplit, htop, hhi', toNat_shiftLeft_count (by omega)]
    omega
  · -- `phigh < divisor`, already normalised
    have hs : sh.toNat = 0 := by rw [Ne, Decidable.not_not] at h2; rw [h2]; rfl
    rw [hs, Nat.pow_zero, Nat.mul_one] at hdiv' hnorm
    refine udivQrnnd_unnormalise hnorm (by rw [hs, Nat.pow_zero, Nat.mul_one]) (by omega)
      (by rw [UInt64.toNat_zero, Nat.div_eq_of_lt (UInt64.lt_iff_toNat_lt.mp h1)])
      (Nat.mod_eq_of_lt (UInt64.lt_iff_toNat_lt.mp h1)).symm (by rw [hs, Nat.pow_zero, Nat.mul_one])
  · -- `phigh ≥ divisor`, shifted: the high digit from the top three words
    have hs0 : 0 < sh.toNat := by
      rw [Ne, ← UInt64.toNat_inj, UInt64.toNat_zero] at h3; omega
    have hsub : (64 - sh).toNat = 64 - sh.toNat := by
      rw [UInt64.toNat_sub_of_le _ _ (UInt64.le_iff_toNat_le.mpr (by rw [show (64 : UInt64).toNat = 64 from rfl]; omega))]
      rfl
    have htop := toNat_shiftRight_count (by omega : (64 - sh).toNat < 64) phigh
    rw [hsub] at htop
    have htoplt : (phigh >>> (64 - sh)).toNat < (divisor <<< sh).toNat := by
      rw [htop, Nat.div_lt_iff_lt_mul (Nat.two_pow_pos _)]
      calc phigh.toNat < 2 ^ 64 := phigh.toNat_lt
        _ = 2 ^ 63 * 2 ^ 1 := by decide
        _ ≤ (divisor <<< sh).toNat * 2 ^ (64 - sh.toNat) :=
          Nat.mul_le_mul hnorm' (Nat.pow_le_pow_right (by decide) (by omega))
    obtain ⟨hq, hr⟩ := udivQrnnd_spec _ (phigh <<< sh ||| plow >>> (64 - sh)) _ hnorm' htoplt
    refine udivQrnnd_unnormalise hnorm' hdiv' (by omega) hq hr ?_
    rw [hsplit, htop, toNat_shiftLeft_or_shiftRight (by omega) hs0, toNat_shiftLeft_count (by omega)]
  · -- `phigh ≥ divisor`, already normalised: the high digit is 1
    have hs : sh.toNat = 0 := by rw [Ne, Decidable.not_not] at h3; rw [h3]; rfl
    rw [hs, Nat.pow_zero, Nat.mul_one] at hdiv' hnorm
    have hge := UInt64.not_lt.mp h1
    have hge' := UInt64.le_iff_toNat_le.mp hge
    have hlt2 : phigh.toNat < 2 * divisor.toNat := by have := phigh.toNat_lt; omega
    refine udivQrnnd_unnormalise hnorm (by rw [hs, Nat.pow_zero, Nat.mul_one]) (by omega)
      (by rw [UInt64.toNat_one]; exact (Nat.div_eq_of_lt_le (show 1 * divisor.toNat ≤ phigh.toNat by omega)
        (show phigh.toNat < (1 + 1) * divisor.toNat by omega)).symm) ?_
      (by rw [hs, Nat.pow_zero, Nat.mul_one])
    rw [UInt64.toNat_sub_of_le _ _ hge, Nat.mod_eq_sub_mod hge', Nat.mod_eq_of_lt (by omega)]

/-! ## Signed division -/

/-- `neg128` is the negation modulo `2^128`. -/
theorem neg128_spec (hi lo : UInt64) :
    (neg128 hi lo).1.toNat * 2 ^ 64 + (neg128 hi lo).2.toNat = (2 ^ 128 - (hi.toNat * 2 ^ 64 + lo.toNat)) % 2 ^ 128 := by
  have := hi.toNat_lt
  have := lo.toNat_lt
  unfold neg128
  split
  · -- `lo = 0`: only the high word is negated
    rename_i h
    subst h
    simp only [UInt64.toNat_sub, UInt64.toNat_zero]
    omega
  · rename_i h
    have hlo : lo.toNat ≠ 0 := by rwa [Ne, ← UInt64.toNat_zero, UInt64.toNat_inj]
    simp only [UInt64.toNat_not, UInt64.toNat_sub, UInt64.toNat_zero, UInt64.size]
    omega

/-- A negative dividend's magnitude, which `divs128` divides. -/
theorem neg128_magnitude (plow : UInt64) {phigh : Int64} (h : phigh < 0) :
    (neg128 phigh.toUInt64 plow).1.toNat * 2 ^ 64 + (neg128 phigh.toUInt64 plow).2.toNat
      = (phigh.toInt * 2 ^ 64 + plow.toNat).natAbs := by
  have := plow.toNat_lt
  have := phigh.toUInt64.toNat_lt
  rw [lt_zero_iff_toUInt64] at h
  rw [neg128_spec, toInt_eq_toUInt64, if_neg (by omega)]
  omega

theorem magnitude_of_nonneg (plow : UInt64) {phigh : Int64} (h : ¬ phigh < 0) :
    phigh.toUInt64.toNat * 2 ^ 64 + plow.toNat = (phigh.toInt * 2 ^ 64 + plow.toNat).natAbs := by
  rw [lt_zero_iff_toUInt64] at h
  rw [toInt_eq_toUInt64, if_pos (by omega)]
  omega

/-- `-divisor` of a negative divisor is its magnitude, `INT64_MIN` included. -/
theorem divisor_magnitude_of_neg {divisor : Int64} (h : divisor < 0) :
    (-divisor).toUInt64.toNat = divisor.toInt.natAbs := by
  have := divisor.toUInt64.toNat_lt
  rw [lt_zero_iff_toUInt64] at h
  rw [Int64.toUInt64_neg, UInt64.toNat_neg, toInt_eq_toUInt64, if_neg (by omega), UInt64.size]
  omega

theorem divisor_magnitude_of_nonneg {divisor : Int64} (h : ¬ divisor < 0) :
    divisor.toUInt64.toNat = divisor.toInt.natAbs := by
  rw [lt_zero_iff_toUInt64] at h
  rw [toInt_eq_toUInt64, if_pos (by omega)]
  omega

/-- A quotient given a negative sign: `neg128` read as a signed pair. -/
theorem neg128_signed {hi lo : UInt64} (hq : hi.toNat * 2 ^ 64 + lo.toNat ≤ 2 ^ 127) :
    (neg128 hi lo).1.toInt64.toInt * 2 ^ 64 + (neg128 hi lo).2.toNat = -((hi.toNat * 2 ^ 64 + lo.toNat : Nat) : Int) := by
  have hspec := neg128_spec hi lo
  apply signedPair_eq (by omega) (by omega)
  rw [hspec]
  omega

/-- A quotient below `2^127` read as a signed pair. -/
theorem pair_signed {hi lo : UInt64} (hq : hi.toNat * 2 ^ 64 + lo.toNat < 2 ^ 127) :
    hi.toInt64.toInt * 2 ^ 64 + lo.toNat = ((hi.toNat * 2 ^ 64 + lo.toNat : Nat) : Int) :=
  signedPair_eq (by omega) (by omega) (by omega)

/-- A remainder below `2^63`, and its negation, as signed words. -/
theorem rem_signed {rem : UInt64} (h : rem.toNat < 2 ^ 63) :
    rem.toInt64.toInt = rem.toNat ∧ (0 - rem).toInt64.toInt = -(rem.toNat : Int) := by
  rw [toInt_toInt64, toInt_toInt64, if_pos h, UInt64.toNat_sub, UInt64.toNat_zero]
  refine ⟨rfl, ?_⟩
  split_ifs <;> omega

section Signs

/- The dividend and the divisor as signed numbers, and the one quotient
that does not fit. -/
variable {X D : Int} (hXlo : -2 ^ 127 ≤ X) (hXhi : X < 2 ^ 127)

include hXlo hXhi in
/-- The magnitude of a quotient fits in the signed range once negated. -/
theorem natAbs_div_le : X.natAbs / D.natAbs ≤ 2 ^ 127 :=
  Nat.le_trans (Nat.div_le_self _ _) (by omega)

include hXlo hXhi in
/-- A quotient that keeps its sign fits, unless it is `INT128_MIN / -1`. -/
theorem natAbs_div_lt (hD : D ≠ 0) (hov : ¬ (X = -2 ^ 127 ∧ D = -1)) (hsame : X < 0 ↔ D < 0) :
    X.natAbs / D.natAbs < 2 ^ 127 := by
  by_cases hD1 : D.natAbs = 1
  · rw [hD1, Nat.div_one]
    omega
  · have h2 : 2 ^ 127 * 2 ≤ 2 ^ 127 * D.natAbs := Nat.mul_le_mul_left _ (by omega)
    rw [Nat.div_lt_iff_lt_mul (by omega)]
    omega

end Signs

/-- `divs128`: C's truncated quotient and remainder of the signed dividend
`(phigh:plow)`, for every divisor but 0 and every dividend but `INT128_MIN / -1`. -/
theorem divs128_spec (plow : UInt64) (phigh divisor : Int64) (hd : divisor ≠ 0)
    (hov : ¬ (phigh.toInt * 2 ^ 64 + plow.toNat = -2 ^ 127 ∧ divisor.toInt = -1)) :
    (divs128 plow phigh divisor).2.1.toInt * 2 ^ 64 + (divs128 plow phigh divisor).1.toNat
      = (phigh.toInt * 2 ^ 64 + plow.toNat).tdiv divisor.toInt
    ∧ (divs128 plow phigh divisor).2.2.toInt = (phigh.toInt * 2 ^ 64 + plow.toNat).tmod divisor.toInt := by
  have hD0 : divisor.toInt ≠ 0 := fun h => hd (Int64.toInt.inj (by rw [h]; rfl))
  have hplow := plow.toNat_lt
  have hplo := Int64.le_toInt phigh
  have hphi := Int64.toInt_lt phigh
  have hDlo := Int64.le_toInt divisor
  have hDhi := Int64.toInt_lt divisor
  have hXlo : -2 ^ 127 ≤ phigh.toInt * 2 ^ 64 + plow.toNat := by omega
  have hXhi : phigh.toInt * 2 ^ 64 + plow.toNat < 2 ^ 127 := by omega
  have hXs : phigh < 0 ↔ phigh.toInt * 2 ^ 64 + plow.toNat < 0 := by
    rw [Int64.lt_iff_toInt_lt, Int64.toInt_zero]; omega
  have hDs : divisor < 0 ↔ divisor.toInt < 0 := by rw [Int64.lt_iff_toInt_lt, Int64.toInt_zero]
  -- the magnitude of the divisor is a non-zero word
  have hword : ∀ w : UInt64, w.toNat = divisor.toInt.natAbs → w ≠ 0 := by
    rintro w hw rfl
    rw [UInt64.toNat_zero] at hw
    omega
  by_cases hX : phigh < 0 <;> by_cases hD : divisor < 0
  · -- both negative: the quotient is positive, the remainder negative
    simp only [divs128, hX, hD, if_true, Bool.not_true, Bool.false_eq_true, if_false]
    obtain ⟨hq, hr⟩ := divu128_spec _ _ _ (hword _ (divisor_magnitude_of_neg hD))
    rw [neg128_magnitude plow hX, divisor_magnitude_of_neg hD] at hq hr
    generalize divu128 (neg128 phigh.toUInt64 plow).2 (neg128 phigh.toUInt64 plow).1 (-divisor).toUInt64 = R at hq hr ⊢
    obtain ⟨qlo, qhi, rem⟩ := R
    dsimp only at hq hr ⊢
    rw [hXs] at hX
    rw [hDs] at hD
    generalize phigh.toInt * 2 ^ 64 + plow.toNat = X at *
    generalize divisor.toInt = D at *
    have hlt := natAbs_div_lt hXlo hXhi hD0 hov (iff_of_true hX hD)
    have hrem : rem.toNat < 2 ^ 63 := by rw [hr]; have := Nat.mod_lt X.natAbs (show 0 < D.natAbs by omega); omega
    rw [pair_signed (by omega), hq, (rem_signed hrem).2, hr,
      show X = -(X.natAbs : Int) by omega, show D = -(D.natAbs : Int) by omega, Int.neg_tdiv, Int.tdiv_neg,
      Int.neg_neg, Int.neg_tmod, Int.tmod_neg, Int.natAbs_neg, Int.natAbs_neg, Int.natAbs_natCast, Int.natAbs_natCast]
    exact ⟨rfl, rfl⟩
  · -- a negative dividend: both the quotient and the remainder are negative
    simp only [divs128, hX, hD, if_true, if_false]
    obtain ⟨hq, hr⟩ := divu128_spec _ _ _ (hword _ (divisor_magnitude_of_nonneg hD))
    rw [neg128_magnitude plow hX, divisor_magnitude_of_nonneg hD] at hq hr
    generalize divu128 (neg128 phigh.toUInt64 plow).2 (neg128 phigh.toUInt64 plow).1 divisor.toUInt64 = R at hq hr ⊢
    obtain ⟨qlo, qhi, rem⟩ := R
    dsimp only at hq hr ⊢
    rw [hXs] at hX
    rw [hDs] at hD
    generalize phigh.toInt * 2 ^ 64 + plow.toNat = X at *
    generalize divisor.toInt = D at *
    have hle := natAbs_div_le (D := D) hXlo hXhi
    have hrem : rem.toNat < 2 ^ 63 := by rw [hr]; have := Nat.mod_lt X.natAbs (show 0 < D.natAbs by omega); omega
    rw [neg128_signed (by omega), hq, (rem_signed hrem).2, hr,
      show X = -(X.natAbs : Int) by omega, show D = (D.natAbs : Int) by omega, Int.neg_tdiv, Int.neg_tmod,
      Int.natAbs_neg, Int.natAbs_natCast, Int.natAbs_natCast]
    exact ⟨rfl, rfl⟩
  · -- a negative divisor: the quotient is negative, the remainder positive
    simp only [divs128, hX, hD, if_true, if_false, Bool.not_false, Bool.false_eq_true]
    obtain ⟨hq, hr⟩ := divu128_spec _ _ _ (hword _ (divisor_magnitude_of_neg hD))
    rw [magnitude_of_nonneg plow hX, divisor_magnitude_of_neg hD] at hq hr
    generalize divu128 plow phigh.toUInt64 (-divisor).toUInt64 = R at hq hr ⊢
    obtain ⟨qlo, qhi, rem⟩ := R
    dsimp only at hq hr ⊢
    rw [hXs] at hX
    rw [hDs] at hD
    generalize phigh.toInt * 2 ^ 64 + plow.toNat = X at *
    generalize divisor.toInt = D at *
    have hle := natAbs_div_le (D := D) hXlo hXhi
    have hrem : rem.toNat < 2 ^ 63 := by rw [hr]; have := Nat.mod_lt X.natAbs (show 0 < D.natAbs by omega); omega
    rw [neg128_signed (by omega), hq, (rem_signed hrem).1, hr,
      show X = (X.natAbs : Int) by omega, show D = -(D.natAbs : Int) by omega, Int.tdiv_neg, Int.tmod_neg,
      Int.natAbs_neg, Int.natAbs_natCast, Int.natAbs_natCast]
    exact ⟨rfl, rfl⟩
  · -- both non-negative: plain unsigned division
    simp only [divs128, hX, hD, if_false, Bool.false_eq_true]
    obtain ⟨hq, hr⟩ := divu128_spec _ _ _ (hword _ (divisor_magnitude_of_nonneg hD))
    rw [magnitude_of_nonneg plow hX, divisor_magnitude_of_nonneg hD] at hq hr
    generalize divu128 plow phigh.toUInt64 divisor.toUInt64 = R at hq hr ⊢
    obtain ⟨qlo, qhi, rem⟩ := R
    dsimp only at hq hr ⊢
    rw [hXs] at hX
    rw [hDs] at hD
    generalize phigh.toInt * 2 ^ 64 + plow.toNat = X at *
    generalize divisor.toInt = D at *
    have hlt := natAbs_div_lt hXlo hXhi hD0 hov (iff_of_false hX hD)
    have hrem : rem.toNat < 2 ^ 63 := by rw [hr]; have := Nat.mod_lt X.natAbs (show 0 < D.natAbs by omega); omega
    rw [pair_signed (by omega), hq, (rem_signed hrem).1, hr,
      show X = (X.natAbs : Int) by omega, show D = (D.natAbs : Int) by omega, Int.natAbs_natCast, Int.natAbs_natCast]
    exact ⟨rfl, rfl⟩

/-- **Wide division is exact.** `divu128` returns a quotient and a remainder
of the dividend `(phigh:plow)` for every divisor but 0; the generic
`udiv_qrnnd` returns the quotient and the remainder of `(n1:n0) / d` for
`n1 < d` and `d` with its top bit set; and `divs128` returns C's truncated
quotient and remainder of the signed dividend for every divisor but 0 and
every dividend but `INT128_MIN / -1`. -/
theorem wideDivision_exact :
    (∀ plow phigh divisor : UInt64, divisor ≠ 0 →
      ((divu128 plow phigh divisor).2.1.toNat * 2 ^ 64 + (divu128 plow phigh divisor).1.toNat) * divisor.toNat
          + (divu128 plow phigh divisor).2.2.toNat = phigh.toNat * 2 ^ 64 + plow.toNat
      ∧ (divu128 plow phigh divisor).2.2.toNat < divisor.toNat)
    ∧ (∀ n1 n0 d : UInt64, 2 ^ 63 ≤ d.toNat → n1.toNat < d.toNat →
      (udivQrnnd n1 n0 d).1.toNat = (n1.toNat * 2 ^ 64 + n0.toNat) / d.toNat
      ∧ (udivQrnnd n1 n0 d).2.toNat = (n1.toNat * 2 ^ 64 + n0.toNat) % d.toNat)
    ∧ (∀ (plow : UInt64) (phigh divisor : Int64), divisor ≠ 0 →
      ¬ (phigh.toInt * 2 ^ 64 + plow.toNat = -2 ^ 127 ∧ divisor.toInt = -1) →
      (divs128 plow phigh divisor).2.1.toInt * 2 ^ 64 + (divs128 plow phigh divisor).1.toNat
        = (phigh.toInt * 2 ^ 64 + plow.toNat).tdiv divisor.toInt
      ∧ (divs128 plow phigh divisor).2.2.toInt = (phigh.toInt * 2 ^ 64 + plow.toNat).tmod divisor.toInt) := by
  refine ⟨fun plow phigh divisor hd => ?_, udivQrnnd_spec, divs128_spec⟩
  obtain ⟨hq, hr⟩ := divu128_spec plow phigh divisor hd
  have hd0 : 0 < divisor.toNat := Nat.pos_of_ne_zero (by rwa [Ne, ← UInt64.toNat_zero, UInt64.toNat_inj])
  rw [hq, hr, Nat.mul_comm]
  exact ⟨Nat.div_add_mod _ _, Nat.mod_lt _ hd0⟩

theorem wideDivision_exact_minus_seven_by_two :
    (divs128 0xFFFFFFFFFFFFFFF9 (-1) 2).2.1.toInt * 2 ^ 64 + (divs128 0xFFFFFFFFFFFFFFF9 (-1) 2).1.toNat
      = ((-1 : Int64).toInt * 2 ^ 64 + (0xFFFFFFFFFFFFFFF9 : UInt64).toNat).tdiv (2 : Int64).toInt :=
  (wideDivision_exact.2.2 0xFFFFFFFFFFFFFFF9 (-1) 2 (by decide) (by decide)).1

end QemuFormal.HostUtils

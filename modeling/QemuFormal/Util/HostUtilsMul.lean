/-
QemuFormal.Util.HostUtilsMul — the portable wide multiplications of
`util/host-utils.c` and `include/qemu/host-utils.h` are exact.

Every word is read through `toNat` (a pair is `high * 2^64 + low`) and
every step is shown not to wrap before `omega` is given the sum: the
32×32 products of two halves are below `2^64`, with room for a 32-bit
addend (`halves_mul_lt`, `halves_mul_add_lt`).

- `mul64` is schoolbook multiplication on halves; with the four partial
  products named, the carries are linear arithmetic (`mul64_spec`).
- `muls64` subtracts `b` from the high word when `a < 0` and `a` when
  `b < 0`: modulo `2^128` that is the signed product, which lies in
  `[-2^126, 2^126]` and so is the pair read as signed (`signedPair_eq`).
- `mulu128` adds the two products' middle words; what is cut off is the
  carry of that sum and the top word of `phigh * factor`.
- `muldiv64_rounding` divides a 96-bit dividend in two steps of 32 bits:
  long division (`div_split`) gives the same quotient as one division,
  and its high digit is cut to 32 bits, which is the `% 2^64`.

The main result is `wideMultiplication_exact`.
-/
import QemuFormal.Util.HostUtils
import Mathlib.Tactic.Ring
import Mathlib.Tactic.Linarith

namespace QemuFormal.HostUtils

/-! ## Halves of a word -/
@[simp] theorem toNat_lo32 (x : UInt64) : (lo32 x).toNat = x.toNat % 2 ^ 32 := UInt64.toNat_toUInt32 x

@[simp] theorem toNat_hi32 (x : UInt64) : (hi32 x).toNat = x.toNat / 2 ^ 32 := by
  rw [hi32, UInt64.toNat_toUInt32, UInt64.toNat_shiftRight]
  have := x.toNat_lt
  rw [show (32 : UInt64).toNat % 64 = 32 from rfl, Nat.shiftRight_eq_div_pow]
  omega

/-- A 32-bit value shifted to the high half. -/
theorem toNat_shiftLeft_32 (v : UInt32) : (v.toUInt64 <<< 32).toNat = v.toNat * 2 ^ 32 := by
  have hv := v.toNat_lt
  rw [UInt64.toNat_shiftLeft, UInt32.toNat_toUInt64, show (32 : UInt64).toNat % 64 = 32 from rfl,
    Nat.shiftLeft_eq, Nat.mod_eq_of_lt (by omega)]

@[simp] theorem toNat_setHi32 (x : UInt64) (v : UInt32) :
    (setHi32 x v).toNat = x.toNat % 2 ^ 32 + v.toNat * 2 ^ 32 := by
  rw [setHi32, UInt64.toNat_or, UInt64.toNat_and, toNat_shiftLeft_32,
    show (0xFFFFFFFF : UInt64).toNat = 2 ^ 32 - 1 from rfl, Nat.and_two_pow_sub_one_eq_mod,
    Nat.or_comm, Nat.mul_comm, ← Nat.two_pow_add_eq_or_of_lt (Nat.mod_lt _ (by decide))]
  omega

/-- The high-half mask keeps the multiple of `2^32` below a word. -/
theorem and_highMask (n : Nat) (hn : n < 2 ^ 64) : n &&& 0xFFFFFFFF00000000 = n / 2 ^ 32 * 2 ^ 32 := by
  apply Nat.eq_of_testBit_eq
  intro j
  rw [show (0xFFFFFFFF00000000 : Nat) = (2 ^ 32 - 1) * 2 ^ 32 from rfl, Nat.testBit_and,
    Nat.testBit_mul_two_pow, Nat.testBit_mul_two_pow, Nat.testBit_two_pow_sub_one, Nat.testBit_div_two_pow]
  by_cases hj : 32 ≤ j
  · rw [show j - 32 + 32 = j by omega]
    by_cases hj' : j < 64
    · simp [hj, show j - 32 < 32 by omega]
    · simp [Nat.testBit_lt_two_pow (Nat.lt_of_lt_of_le hn (Nat.pow_le_pow_right (by decide) (by omega : 64 ≤ j)))]
  · simp [hj]

@[simp] theorem toNat_setLo32 (x : UInt64) (v : UInt32) :
    (setLo32 x v).toNat = x.toNat / 2 ^ 32 * 2 ^ 32 + v.toNat := by
  rw [setLo32, UInt64.toNat_or, UInt64.toNat_and, UInt32.toNat_toUInt64,
    show (0xFFFFFFFF00000000 : UInt64).toNat = 0xFFFFFFFF00000000 from rfl, and_highMask _ x.toNat_lt,
    Nat.mul_comm, ← Nat.two_pow_add_eq_or_of_lt v.toNat_lt]

/-- The product of two 32-bit values does not wrap. -/
@[simp] theorem toNat_mul_halves (u v : UInt32) : (u.toUInt64 * v.toUInt64).toNat = u.toNat * v.toNat := by
  rw [UInt64.toNat_mul, UInt32.toNat_toUInt64, UInt32.toNat_toUInt64]
  have hprod : u.toNat * v.toNat < 2 ^ 32 * 2 ^ 32 := Nat.mul_lt_mul'' u.toNat_lt v.toNat_lt
  exact Nat.mod_eq_of_lt hprod

/-! ## Products -/

theorem toNat_shiftRight_32 (x : UInt64) : (x >>> 32).toNat = x.toNat / 2 ^ 32 := by
  rw [UInt64.toNat_shiftRight, show (32 : UInt64).toNat % 64 = 32 from rfl, Nat.shiftRight_eq_div_pow]

/-- A product of two halves is below `2^64`. -/
theorem halves_mul_lt {x y : Nat} (hx : x < 2 ^ 32) (hy : y < 2 ^ 32) : x * y < 2 ^ 64 := by
  have h := Nat.mul_lt_mul'' hx hy
  rwa [← Nat.pow_add] at h

theorem mul64_spec (a b : UInt64) : (mul64 a b).2.toNat * 2 ^ 64 + (mul64 a b).1.toNat = a.toNat * b.toNat := by
  -- schoolbook on the halves: `a * b = rh * 2^64 + (rm + rn) * 2^32 + rl`
  have hsplit : a.toNat * b.toNat = a.toNat / 2 ^ 32 * (b.toNat / 2 ^ 32) * 2 ^ 64
      + (a.toNat % 2 ^ 32 * (b.toNat / 2 ^ 32) + a.toNat / 2 ^ 32 * (b.toNat % 2 ^ 32)) * 2 ^ 32
      + a.toNat % 2 ^ 32 * (b.toNat % 2 ^ 32) := by
    conv_lhs => rw [← Nat.div_add_mod a.toNat (2 ^ 32), ← Nat.div_add_mod b.toNat (2 ^ 32)]
    ring
  have hprod : a.toNat * b.toNat < 2 ^ 64 * 2 ^ 64 := Nat.mul_lt_mul'' a.toNat_lt b.toNat_lt
  have ha := a.toNat_lt
  have hb := b.toNat_lt
  have hl : a.toNat % 2 ^ 32 < 2 ^ 32 := Nat.mod_lt _ (by decide)
  have hh : a.toNat / 2 ^ 32 < 2 ^ 32 := by omega
  have hl' : b.toNat % 2 ^ 32 < 2 ^ 32 := Nat.mod_lt _ (by decide)
  have hh' : b.toNat / 2 ^ 32 < 2 ^ 32 := by omega
  have := halves_mul_lt hl hl'
  have := halves_mul_lt hl hh'
  have := halves_mul_lt hh hl'
  have := halves_mul_lt hh hh'
  simp only [mul64, toNat_setHi32, toNat_setLo32, toNat_hi32, toNat_lo32, toNat_mul_halves, UInt64.toNat_add,
    toNat_shiftRight_32, UInt64.toNat_toUInt32, UInt32.toNat_add, UInt32.toNat_toUInt64]
  generalize a.toNat % 2 ^ 32 * (b.toNat % 2 ^ 32) = p at *
  generalize a.toNat % 2 ^ 32 * (b.toNat / 2 ^ 32) = q at *
  generalize a.toNat / 2 ^ 32 * (b.toNat % 2 ^ 32) = r at *
  generalize a.toNat / 2 ^ 32 * (b.toNat / 2 ^ 32) = s at *
  omega

/-! ## Signed words -/

/-- A word read as a signed one. -/
theorem toInt_toInt64 (x : UInt64) :
    x.toInt64.toInt = if x.toNat < 2 ^ 63 then (x.toNat : Int) else x.toNat - 2 ^ 64 := by
  rw [← Int64.toInt_toBitVec, UInt64.toBitVec_toInt64, BitVec.toInt_eq_toNat_cond, UInt64.toNat_toBitVec]
  split_ifs <;> first | rfl | omega

/-- A signed word is its unsigned bits, less `2^64` when negative. -/
theorem toInt_eq_toUInt64 (a : Int64) :
    a.toInt = if a.toUInt64.toNat < 2 ^ 63 then (a.toUInt64.toNat : Int) else a.toUInt64.toNat - 2 ^ 64 := by
  rw [← toInt_toInt64, Int64.toInt64_toUInt64]

theorem lt_zero_iff_toUInt64 (a : Int64) : a < 0 ↔ 2 ^ 63 ≤ a.toUInt64.toNat := by
  have := a.toUInt64.toNat_lt
  rw [Int64.lt_iff_toInt_lt, Int64.toInt_zero, toInt_eq_toUInt64]
  split_ifs <;> omega

/-- A 128-bit pair read as signed is the one value of `[-2^127, 2^127)` with its bits. -/
theorem signedPair_eq {H L : UInt64} {X : Int} (hlo : -2 ^ 127 ≤ X) (hhi : X < 2 ^ 127)
    (hmod : ((H.toNat * 2 ^ 64 + L.toNat : Nat) : Int) % 2 ^ 128 = X % 2 ^ 128) :
    H.toInt64.toInt * 2 ^ 64 + L.toNat = X := by
  have := H.toNat_lt
  have := L.toNat_lt
  rw [toInt_toInt64]
  split_ifs <;> omega

/-- The product of two signed words is at most `2^126` either way. -/
theorem toInt_mul_bounds (a b : Int64) : -2 ^ 126 ≤ a.toInt * b.toInt ∧ a.toInt * b.toInt ≤ 2 ^ 126 := by
  have ha := Int64.le_toInt a
  have ha' := Int64.toInt_lt a
  have hb := Int64.le_toInt b
  have hb' := Int64.toInt_lt b
  have h1 := mul_nonneg (sub_nonneg.2 ha'.le) (sub_nonneg.2 hb)
  have h2 := mul_nonneg (sub_nonneg.2 ha) (sub_nonneg.2 hb'.le)
  have h3 := mul_nonneg (sub_nonneg.2 ha'.le) (sub_nonneg.2 hb'.le)
  have h4 := mul_nonneg (sub_nonneg.2 ha) (sub_nonneg.2 hb)
  constructor <;> linarith

theorem muls64_spec (a b : Int64) :
    (muls64 a b).2.toInt64.toInt * 2 ^ 64 + (muls64 a b).1.toNat = a.toInt * b.toInt := by
  have hmul := mul64_spec a.toUInt64 b.toUInt64
  obtain ⟨hlo, hhi⟩ := toInt_mul_bounds a b
  apply signedPair_eq (by omega) (by omega)
  have hA := a.toUInt64.toNat_lt
  have hB := b.toUInt64.toNat_lt
  rw [toInt_eq_toUInt64 a, toInt_eq_toUInt64 b]
  simp only [muls64, lt_zero_iff_toUInt64]
  generalize mul64 a.toUInt64 b.toUInt64 = m at hmul
  obtain ⟨rl, rh⟩ := m
  dsimp only at hmul ⊢
  -- the product of the unsigned readings, and what a sign subtracts from it
  generalize hA' : a.toUInt64.toNat = A at *
  generalize hB' : b.toUInt64.toNat = B at *
  have e1 : ((A : Int) - 2 ^ 64) * B = (A * B : Nat) - 2 ^ 64 * B := by push_cast; ring
  have e2 : (A : Int) * (B - 2 ^ 64) = (A * B : Nat) - 2 ^ 64 * A := by push_cast; ring
  have e3 : ((A : Int) - 2 ^ 64) * (B - 2 ^ 64) = (A * B : Nat) - 2 ^ 64 * A - 2 ^ 64 * B + 2 ^ 128 := by
    push_cast; ring
  have e0 : (A : Int) * B = (A * B : Nat) := by push_cast; rfl
  generalize A * B = P at *
  rcases Nat.lt_or_ge A (2 ^ 63) with ha | ha <;> rcases Nat.lt_or_ge B (2 ^ 63) with hb | hb
  · simp only [if_neg (Nat.not_le.mpr ha), if_neg (Nat.not_le.mpr hb), if_pos ha, if_pos hb, e0]
    omega
  · simp only [if_neg (Nat.not_le.mpr ha), if_pos hb, if_pos ha, if_neg (Nat.not_lt.mpr hb), e2,
      UInt64.toNat_sub]
    omega
  · simp only [if_neg (Nat.not_le.mpr hb), if_pos ha, if_pos hb, if_neg (Nat.not_lt.mpr ha), e1,
      UInt64.toNat_sub]
    omega
  · simp only [if_pos ha, if_pos hb, if_neg (Nat.not_lt.mpr ha), if_neg (Nat.not_lt.mpr hb), e3,
      UInt64.toNat_sub]
    omega

/-- A product of a half and a 32-bit value leaves room for a 32-bit addend. -/
theorem halves_mul_add_lt {x y r : Nat} (hx : x < 2 ^ 32) (hy : y < 2 ^ 32) (hr : r < 2 ^ 32) :
    x * y + r < 2 ^ 64 := by
  have h : x * y ≤ (2 ^ 32 - 1) * (2 ^ 32 - 1) := Nat.mul_le_mul (by omega) (by omega)
  omega

/-- Long division by `c` of `h * B + l` with `l < B`: the high part's quotient, shifted, plus
the quotient of its remainder joined to the low part, which is a single digit; the remainder
is that of the last step. -/
theorem div_split {h l c B : Nat} (hc : 0 < c) (hl : l < B) :
    (h * B + l) / c = h / c * B + (h % c * B + l) / c
    ∧ (h % c * B + l) / c < B
    ∧ (h * B + l) % c = (h % c * B + l) % c := by
  have hdm := Nat.div_add_mod h c
  have hR := Nat.mod_lt h hc
  have e : h * B + l = (h % c * B + l) + h / c * B * c := by
    conv_lhs => rw [← hdm]
    ring
  refine ⟨?_, ?_, ?_⟩
  · rw [e, Nat.add_mul_div_right _ _ hc, Nat.add_comm]
  · rw [Nat.div_lt_iff_lt_mul hc, Nat.mul_comm B c]
    have := Nat.mul_le_mul_right B (Nat.succ_le_of_lt hR)
    rw [Nat.succ_mul] at this
    omega
  · rw [e, Nat.add_mul_mod_self_right]

theorem muldiv64Rounding_spec (a : UInt64) (b c : UInt32) (roundUp : Bool) (hc : c ≠ 0) :
    (muldiv64Rounding a b c roundUp).toNat
      = (a.toNat * b.toNat + (if roundUp then c.toNat - 1 else 0)) / c.toNat % 2 ^ 64 := by
  have hc0 : 0 < c.toNat := by
    rw [Nat.pos_iff_ne_zero, Ne, ← UInt32.toNat_zero, UInt32.toNat_inj]; exact hc
  have hb := b.toNat_lt
  have hc1 := c.toNat_lt
  have hal : a.toNat % 2 ^ 32 < 2 ^ 32 := Nat.mod_lt _ (by decide)
  have hah : a.toNat / 2 ^ 32 < 2 ^ 32 := by have := a.toNat_lt; omega
  -- the rounding term, and the low product with it added: no wrap
  generalize hr : (if roundUp then c.toNat - 1 else 0) = r
  have hr' : r < 2 ^ 32 := by rw [← hr]; split <;> omega
  have hrl : (if roundUp = true then (lo32 a).toUInt64 * b.toUInt64 + (c - 1).toUInt64
      else (lo32 a).toUInt64 * b.toUInt64).toNat = a.toNat % 2 ^ 32 * b.toNat + r := by
    have hlt := halves_mul_add_lt hal hb hr'
    cases roundUp
    · rw [if_neg Bool.false_ne_true] at hr ⊢
      rw [← hr, toNat_mul_halves, toNat_lo32, Nat.add_zero]
    · rw [if_pos rfl] at hr ⊢
      rw [← hr] at hlt ⊢
      rw [UInt64.toNat_add, toNat_mul_halves, toNat_lo32, UInt32.toNat_toUInt64,
        UInt32.toNat_sub_of_le _ _ (UInt32.le_iff_toNat_le.mpr (by rw [UInt32.toNat_one]; omega)), UInt32.toNat_one]
      exact Nat.mod_eq_of_lt (by omega)
  simp only [muldiv64Rounding]
  generalize (if roundUp = true then (lo32 a).toUInt64 * b.toUInt64 + (c - 1).toUInt64
      else (lo32 a).toUInt64 * b.toUInt64) = rl at hrl
  -- the high product with the carry out of `rl`: no wrap either
  have hrh : ((hi32 a).toUInt64 * b.toUInt64 + rl >>> 32).toNat = a.toNat / 2 ^ 32 * b.toNat + rl.toNat / 2 ^ 32 := by
    have := rl.toNat_lt
    have hlt := halves_mul_add_lt hah hb (by omega : rl.toNat / 2 ^ 32 < 2 ^ 32)
    rw [UInt64.toNat_add, toNat_mul_halves, toNat_hi32, toNat_shiftRight_32]
    exact Nat.mod_eq_of_lt hlt
  generalize (hi32 a).toUInt64 * b.toUInt64 + rl >>> 32 = rh at hrh
  -- the 96-bit dividend `rh * 2^32 + (rl & 0xffffffff)` is `a * b + r`
  have hsplit : a.toNat * b.toNat + r = rh.toNat * 2 ^ 32 + rl.toNat % 2 ^ 32 := by
    have e : a.toNat * b.toNat = a.toNat / 2 ^ 32 * b.toNat * 2 ^ 32 + a.toNat % 2 ^ 32 * b.toNat := by
      conv_lhs => rw [← Nat.div_add_mod a.toNat (2 ^ 32)]
      ring
    omega
  obtain ⟨hdiv, hD, -⟩ := div_split (h := rh.toNat) hc0 (Nat.mod_lt rl.toNat (by decide : 0 < 2 ^ 32))
  have hR := Nat.mod_lt rh.toNat hc0
  have hshift : ((rh % c.toUInt64) <<< 32).toNat = rh.toNat % c.toNat * 2 ^ 32 := by
    rw [UInt64.toNat_shiftLeft, UInt64.toNat_mod, UInt32.toNat_toUInt64,
      show (32 : UInt64).toNat % 64 = 32 from rfl, Nat.shiftLeft_eq]
    exact Nat.mod_eq_of_lt (by omega)
  have hsum : rh.toNat % c.toNat * 2 ^ 32 + rl.toNat % 2 ^ 32 < 2 ^ 64 := by omega
  rw [hsplit, hdiv]
  simp only [Nat.mod_eq_of_lt hsum, toNat_setLo32, toNat_setHi32, UInt64.toNat_toUInt32, UInt64.toNat_div, UInt64.toNat_add, hshift,
    UInt64.toNat_and, show (4294967295 : UInt64).toNat = 2 ^ 32 - 1 from rfl, Nat.and_two_pow_sub_one_eq_mod,
    UInt32.toNat_toUInt64, UInt64.toNat_zero]
  generalize (rh.toNat % c.toNat * 2 ^ 32 + rl.toNat % 2 ^ 32) / c.toNat = D at hD ⊢
  omega

theorem mulu128_spec (plow phigh factor : UInt64) :
    (mulu128 plow phigh factor).2.1.toNat * 2 ^ 64 + (mulu128 plow phigh factor).1.toNat
      = (phigh.toNat * 2 ^ 64 + plow.toNat) * factor.toNat % 2 ^ 128
    ∧ ((mulu128 plow phigh factor).2.2 = true ↔ 2 ^ 128 ≤ (phigh.toNat * 2 ^ 64 + plow.toNat) * factor.toNat) := by
  have hlow := mul64_spec plow factor
  have hprod : plow.toNat * factor.toNat < 2 ^ 128 := by
    have h := Nat.mul_lt_mul'' plow.toNat_lt factor.toNat_lt
    rwa [← Nat.pow_add] at h
  unfold mulu128 mulu64
  by_cases hd : phigh = 0
  · -- one product, which fits
    have h0 : phigh.toNat = 0 := by rw [hd]; rfl
    rw [if_pos hd, h0, Nat.zero_mul, Nat.zero_add, Nat.mod_eq_of_lt hprod]
    exact ⟨hlow, by simp only [Bool.false_eq_true, false_iff, Nat.not_le]; exact hprod⟩
  · -- `(phigh * factor) * 2^64 + plow * factor`, the carry and `bhi` are what is cut off
    have hhigh := mul64_spec phigh factor
    rw [if_neg hd]
    have e : (phigh.toNat * 2 ^ 64 + plow.toNat) * factor.toNat
        = phigh.toNat * factor.toNat * 2 ^ 64 + plow.toNat * factor.toNat := by ring
    rw [e]
    generalize mul64 plow factor = m at hlow
    generalize mul64 phigh factor = m' at hhigh
    obtain ⟨rl, ahi⟩ := m
    obtain ⟨blo, bhi⟩ := m'
    dsimp only at hlow hhigh ⊢
    rw [← hlow, ← hhigh, UInt64.toNat_add, Tcg.uadd64Overflow, Bool.or_eq_true, decide_eq_true_iff, bne_iff_ne,
      Ne, ← UInt64.toNat_inj, UInt64.toNat_zero]
    have := ahi.toNat_lt
    have := blo.toNat_lt
    have := rl.toNat_lt
    omega

/-- **Wide multiplication is exact.** `mulu64` (that is, `mul64`) gives the
128-bit product; `muls64` gives the signed product, read back as a signed
pair; `mulu128` gives the product modulo `2^128` and flags exactly the
products that do not fit; `muldiv64` and `muldiv64_round_up` agree with the
`__int128` versions `a * b / c` and `(a * b + c - 1) / c` cut to 64 bits. -/
theorem wideMultiplication_exact :
    (∀ a b : UInt64, (mulu64 a b).2.toNat * 2 ^ 64 + (mulu64 a b).1.toNat = a.toNat * b.toNat)
    ∧ (∀ a b : Int64, (muls64 a b).2.toInt64.toInt * 2 ^ 64 + (muls64 a b).1.toNat = a.toInt * b.toInt)
    ∧ (∀ plow phigh factor : UInt64,
        (mulu128 plow phigh factor).2.1.toNat * 2 ^ 64 + (mulu128 plow phigh factor).1.toNat
          = (phigh.toNat * 2 ^ 64 + plow.toNat) * factor.toNat % 2 ^ 128
        ∧ ((mulu128 plow phigh factor).2.2 = true
          ↔ 2 ^ 128 ≤ (phigh.toNat * 2 ^ 64 + plow.toNat) * factor.toNat))
    ∧ (∀ (a : UInt64) (b c : UInt32), c ≠ 0 →
        (muldiv64 a b c).toNat = a.toNat * b.toNat / c.toNat % 2 ^ 64
        ∧ (muldiv64RoundUp a b c).toNat = (a.toNat * b.toNat + c.toNat - 1) / c.toNat % 2 ^ 64) := by
  refine ⟨mul64_spec, muls64_spec, mulu128_spec, fun a b c hc => ⟨?_, ?_⟩⟩
  · rw [muldiv64, muldiv64Rounding_spec a b c false hc, if_neg Bool.false_ne_true, Nat.add_zero]
  · have hc0 : 0 < c.toNat := by
      rw [Nat.pos_iff_ne_zero, Ne, ← UInt32.toNat_zero, UInt32.toNat_inj]; exact hc
    rw [muldiv64RoundUp, muldiv64Rounding_spec a b c true hc, if_pos rfl, Nat.add_sub_assoc hc0]

theorem wideMultiplication_exact_muldiv_seven :
    (muldiv64 0xFFFFFFFFFFFFFFFF 0xFFFFFFFF 7).toNat = 0xFFFFFFFFFFFFFFFF * 0xFFFFFFFF / 7 % 2 ^ 64 :=
  (wideMultiplication_exact.2.2.2 0xFFFFFFFFFFFFFFFF 0xFFFFFFFF 7 (by decide)).1

end QemuFormal.HostUtils

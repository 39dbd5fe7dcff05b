/-
QemuFormal.Crypto.ClmulTheorems — every helper of `crypto/clmul.c`
computes carry-less products, lane by lane.

`CarryLess.clmul k a b` is the product of the `k`-bit `a` with `b`, and
`CarryLess.toPoly_clmul` says it is their product in GF(2)[x];
`CarryLess.lane w j v` is lane `j` of `v` cut into `w`-bit lanes. The
statements say what each lane of a result is, from the same lane of the
inputs alone, so no bit crosses from one lane to another.

## How the proof goes

* `bit_spreadMask`: `(x & lsb) * fill`, with `lsb` a bit at the bottom of
  each lane and `fill = 2^w - 1`, is all ones in a lane exactly when the
  lane's lowest bit of `x` is set (`CarryLess.testBit_mul_fill`).
* `bit_laneLoop`: after `count` passes, bit `p` of `r` is the parity of
  bit `p` of `m` shifted `t` times, for the passes `t` where bit `t` of
  `p`'s lane of `n` is set. The shifts of `m` are counted by
  `bit_shiftLane_iterate` (inside a byte) and `bit_shiftLeft_iterate`.
* Matching that parity with `CarryLess.testBit_clmul` lane by lane gives
  `lane_clmul8x8Low` and, for the loops whose `m` has an empty upper
  half in every lane, `lane_laneLoop_shiftLeft`: a bit of `m` that leaves
  its lane's lower half lands in a part that was zero.
* `clmul_32` and `clmul_64_gen` follow `CarryLess.clmul` pass for pass
  (`toNat_clmul32Loop`, `value_clmul64Loop`); `clmul_64_gen` splits each
  `m << i` into the halves `(m << i, m >> (64 - i))` (`value_split`).
-/
import QemuFormal.Crypto.Clmul
import QemuFormal.Lib.CarryLess
import QemuFormal.Lib.Bits
import QemuFormal.Lib.BitArith

namespace QemuFormal.Clmul

open CarryLess Bits

/-! ## The lane masks -/

/-- `(x & lsb) * fill` fills each `w`-bit lane with the lane's lowest bit
of `x`: the product never carries out of a lane. -/
theorem bit_spreadMask {w : Nat} {lsb fill : UInt64} (hw : 0 < w)
    (hlsb : ∀ i < 64, bit lsb i = decide (i % w = 0)) (hfill : fill.toNat = 2 ^ w - 1)
    (hprod : lsb.toNat * fill.toNat < 2 ^ 64) (x : UInt64) {p : Nat} (hp : p < 64) :
    bit ((x &&& lsb) * fill) p = bit x (w * (p / w)) := by
  have hle : (x &&& lsb).toNat ≤ lsb.toNat := by
    rw [UInt64.toNat_and]
    exact Nat.and_le_right
  have hmul : ((x &&& lsb) * fill).toNat = (x &&& lsb).toNat * (2 ^ w - 1) := by
    rw [UInt64.toNat_mul, Nat.mod_eq_of_lt (lt_of_le_of_lt (Nat.mul_le_mul_right _ hle) hprod), hfill]
  -- the bits of `x & lsb` sit at the bottoms of the lanes
  have hbits : ∀ i, (x &&& lsb).toNat.testBit i = true → i % w = 0 := by
    intro i hi
    rw [← bit_eq_testBit, bit_and] at hi
    have hi64 : i < 64 := by
      by_contra hge
      rw [bit_of_ge (by omega), Bool.false_and] at hi
      cases hi
    rw [hlsb i hi64, Bool.and_eq_true, decide_eq_true_iff] at hi
    exact hi.2
  have hy : (x &&& lsb).toNat < 2 ^ (w * 64) :=
    lt_of_lt_of_le (UInt64.toNat_lt _) (Nat.pow_le_pow_right (by decide) (by omega))
  have hlow : w * (p / w) < 64 := lt_of_le_of_lt (Nat.mul_div_le p w) hp
  rw [bit_eq_testBit, hmul, testBit_mul_fill hw 64 _ hy hbits, ← bit_eq_testBit, bit_and,
    hlsb _ hlow, decide_eq_true (Nat.mul_mod_right w _), Bool.and_true]

theorem bit_mask8 (x : UInt64) {p : Nat} (hp : p < 64) :
    bit ((x &&& 0x0101010101010101) * 0xff) p = bit x (8 * (p / 8)) :=
  bit_spreadMask (by decide) (by decide) rfl (by decide) x hp

theorem bit_mask16 (x : UInt64) {p : Nat} (hp : p < 64) :
    bit ((x &&& 0x0001000100010001) * 0xffff) p = bit x (2 * 8 * (p / (2 * 8))) :=
  bit_spreadMask (by decide) (by decide) rfl (by decide) x hp

theorem bit_mask32 (x : UInt64) {p : Nat} (hp : p < 64) :
    bit ((x &&& 0x0000000100000001) * 0xffffffff) p = bit x (2 * 16 * (p / (2 * 16))) :=
  bit_spreadMask (by decide) (by decide) rfl (by decide) x hp

/-! ## The lane loop -/

section LaneLoop

variable {lsb fill : UInt64} {shiftM : UInt64 → UInt64} {w : Nat}

/-- A run of `laneLoop`: bit `p` of the result is bit `p` of `r`, xored
with bit `p` of `m & mask` of every pass `t`, where `m` has been shifted
`t` times and the mask is bit `t` of `p`'s lane of `n`. -/
theorem bit_laneLoop (hmask : ∀ x p, p < 64 → bit ((x &&& lsb) * fill) p = bit x (w * (p / w)))
    {p : Nat} (hp : p < 64) :
    ∀ count n m r, bit (laneLoop lsb fill shiftM count n m r) p =
      (bit r p ^^ xorSum (fun t => bit (shiftM^[t] m) p && bit n (w * (p / w) + t)) count)
  | 0, n, m, r => by simp [laneLoop]
  | count + 1, n, m, r => by
    rw [laneLoop, bit_laneLoop hmask hp count, bit_xor, bit_and, hmask n p hp, xorSum_succ',
      Bool.xor_assoc]
    congr 2
    -- pass `t + 1` from `m` is pass `t` from `shiftM m`, with `n >>> 1`
    apply xorSum_congr
    intro t _
    rw [Function.iterate_succ_apply, bit_shiftRight _ 1 (by decide)]
    congr 2
    simp only [UInt64.toNat_one]
    omega

end LaneLoop

/-- `m = (m << 1) & 0xfefefefefefefefe`, `t` times: bit `p` comes from bit
`p - t`, if that is in the same byte. -/
theorem bit_shiftLane_iterate (m : UInt64) :
    ∀ t {p}, p < 64 →
      bit ((fun m : UInt64 => (m <<< 1) &&& 0xfefefefefefefefe)^[t] m) p = (decide (t ≤ p % 8) && bit m (p - t))
  | 0, p, _ => by simp
  | t + 1, p, hp => by
    have hkeep : ∀ i < 64, bit (0xfefefefefefefefe : UInt64) i = decide (i % 8 ≠ 0) := by decide
    rw [Function.iterate_succ_apply', bit_and, bit_shiftLeft _ 1 (by decide), hkeep p hp]
    simp only [UInt64.toNat_one]
    by_cases h0 : p % 8 = 0
    · simp [h0]
    · -- the bit came from `p - 1`, in the same byte
      rw [bit_shiftLane_iterate m t (by omega), show p - 1 - t = p - (t + 1) by omega]
      by_cases ht : t + 1 ≤ p % 8
      · simp [hp, h0, show 1 ≤ p by omega, show t ≤ (p - 1) % 8 by omega, ht]
      · simp [h0, show ¬ t ≤ (p - 1) % 8 by omega, ht]

/-- `m <<= 1`, `t` times. -/
theorem bit_shiftLeft_iterate (m : UInt64) :
    ∀ t {p}, p < 64 → bit ((fun m : UInt64 => m <<< 1)^[t] m) p = (decide (t ≤ p) && bit m (p - t))
  | 0, p, _ => by simp
  | t + 1, p, hp => by
    rw [Function.iterate_succ_apply', bit_shiftLeft _ 1 (by decide)]
    simp only [UInt64.toNat_one]
    by_cases h1 : 1 ≤ p
    · rw [bit_shiftLeft_iterate m t (by omega), show p - 1 - t = p - (t + 1) by omega]
      by_cases ht : t + 1 ≤ p
      · simp [hp, h1, ht, show t ≤ p - 1 by omega]
      · simp [ht, show ¬ t ≤ p - 1 by omega]
    · simp [h1, show ¬ t + 1 ≤ p by omega]

/-! ## `clmul_8x8_low` -/

/-- `clmul_8x8_low`: each byte of the result is the low byte of the
carry-less product of the same bytes of `n` and `m`. -/
theorem lane_clmul8x8Low (n m : UInt64) {j : Nat} (hj : j < 8) :
    lane 8 j (clmul8x8Low n m).toNat = clmul 8 (lane 8 j n.toNat) (lane 8 j m.toNat) % 2 ^ 8 := by
  apply Nat.eq_of_testBit_eq
  intro q
  rw [testBit_lane, Nat.testBit_mod_two_pow]
  by_cases hq : q < 8
  · have hp : 8 * j + q < 64 := by omega
    rw [decide_eq_true hq, Bool.true_and, Bool.true_and, ← bit_eq_testBit, clmul8x8Low,
      bit_laneLoop (fun x _ hp => bit_mask8 x hp) hp, bit_zero, Bool.false_xor, testBit_clmul,
      show (8 * j + q) / 8 = j by omega]
    apply xorSum_congr
    intro t ht
    rw [bit_shiftLane_iterate m t hp, testBit_lane, testBit_lane, ← bit_eq_testBit, ← bit_eq_testBit,
      show (8 * j + q) % 8 = q by omega]
    by_cases htq : t ≤ q
    · simp [ht, htq, show q - t < 8 by omega, show 8 * j + q - t = 8 * j + (q - t) by omega, Bool.and_comm]
    · simp [htq]
  · simp [hq]

/-! ## The loops whose `m` keeps to the lower half of each lane -/

section HalfLanes

variable {lsb fill : UInt64} {k : Nat}

/-- `k` passes over lanes of `2 * k` bits, with `m <<= 1` and no mask:
while `m` holds nothing in the upper half of any lane, lane `j` of the
result is the full product of the lower halves of lane `j` of `n` and
`m`. A bit of `m` shifted past its lane's lower half stays inside the
lane, and one shifted in from the lane below comes from that lane's
upper half, which is zero. -/
theorem lane_laneLoop_shiftLeft
    (hmask : ∀ x p, p < 64 → bit ((x &&& lsb) * fill) p = bit x (2 * k * (p / (2 * k))))
    (n m : UInt64) (hm : ∀ j i, k ≤ i → i < 2 * k → bit m (2 * k * j + i) = false)
    {j : Nat} (hj : 2 * k * (j + 1) ≤ 64) :
    lane (2 * k) j (laneLoop lsb fill (fun m => m <<< 1) k n m 0).toNat =
      clmul k (lane k (2 * j) n.toNat) (lane k (2 * j) m.toNat) := by
  apply Nat.eq_of_testBit_eq
  intro q
  rw [testBit_lane]
  by_cases hq : q < 2 * k
  · rw [Nat.mul_succ] at hj
    have hp : 2 * k * j + q < 64 := by omega
    have hdiv : (2 * k * j + q) / (2 * k) = j := by
      rw [Nat.mul_add_div (by omega), Nat.div_eq_of_lt hq, Nat.add_zero]
    have hlane : k * (2 * j) = 2 * k * j := by rw [← Nat.mul_assoc, Nat.mul_comm k 2]
    rw [decide_eq_true hq, Bool.true_and, ← bit_eq_testBit, bit_laneLoop hmask hp, bit_zero, Bool.false_xor,
      testBit_clmul, hdiv]
    apply xorSum_congr
    intro t ht
    rw [bit_shiftLeft_iterate m t hp, testBit_lane, testBit_lane, ← bit_eq_testBit, ← bit_eq_testBit, hlane]
    by_cases htq : t ≤ q
    · rw [show 2 * k * j + q - t = 2 * k * j + (q - t) by omega]
      by_cases hqt : q - t < k
      · simp [ht, htq, hqt, show t ≤ 2 * k * j + q by omega, Bool.and_comm]
      · -- past the lower half of the lane: a zero bit of `m`
        simp [htq, hqt, hm j (q - t) (by omega) (by omega)]
    · -- from the lane below, if there is one: its upper half
      rcases Nat.eq_zero_or_pos j with rfl | hj0
      · simp [htq]
      · obtain ⟨j', rfl⟩ : ∃ j', j = j' + 1 := ⟨j - 1, by omega⟩
        rw [Nat.mul_succ, show 2 * k * j' + 2 * k + q - t = 2 * k * j' + (2 * k + q - t) by omega,
          hm j' (2 * k + q - t) (by omega) (by omega)]
        simp [htq]
  · -- above the lane: the product of two `k`-bit lanes has fewer bits
    rw [decide_eq_false hq, Bool.false_and, Nat.testBit_lt_two_pow]
    exact lt_of_lt_of_le (clmul_lt k _ (lane_lt k _ _)) (Nat.pow_le_pow_right (by decide) (by omega))

variable {M : UInt64}

/-- A mask that keeps the lower half of every lane: the lower halves of
`x &&& M` are those of `x`. -/
theorem lane_and_halfMask (hM : ∀ p < 64, bit M p = decide (p % (2 * k) < k)) (x : UInt64) {j : Nat}
    (hj : 2 * k * (j + 1) ≤ 64) :
    lane k (2 * j) (x &&& M).toNat = lane k (2 * j) x.toNat := by
  apply Nat.eq_of_testBit_eq
  intro q
  rw [testBit_lane, testBit_lane, ← bit_eq_testBit, ← bit_eq_testBit, bit_and]
  by_cases hq : q < k
  · rw [Nat.mul_succ] at hj
    have hlane : k * (2 * j) = 2 * k * j := by rw [← Nat.mul_assoc, Nat.mul_comm k 2]
    rw [hlane, hM _ (by omega), Nat.mul_add_mod, Nat.mod_eq_of_lt (by omega), decide_eq_true hq, Bool.and_true]
  · simp [hq]

/-- Under the same mask nothing is left above the lower halves. -/
theorem bit_and_halfMask (hM : ∀ p < 64, bit M p = decide (p % (2 * k) < k)) (x : UInt64) (j i : Nat)
    (hi : k ≤ i) (hi' : i < 2 * k) : bit (x &&& M) (2 * k * j + i) = false := by
  rw [bit_and]
  by_cases h64 : 2 * k * j + i < 64
  · rw [hM _ h64, Nat.mul_add_mod, Nat.mod_eq_of_lt hi', decide_eq_false (by omega), Bool.and_false]
  · rw [bit_of_ge (by omega), Bool.false_and]

end HalfLanes

/-! ## `clmul_8x4_*` and `clmul_16x2_*` -/

theorem bit_halfMask8 : ∀ p < 64, bit (0x00ff00ff00ff00ff : UInt64) p = decide (p % (2 * 8) < 8) := by
  decide

theorem bit_halfMask16 : ∀ p < 64, bit (0x0000ffff0000ffff : UInt64) p = decide (p % (2 * 16) < 16) := by
  decide

/-- `clmul_8x4_even`: 16-bit lane `j` is the product of byte `2 j` of `n`
and `m`. -/
theorem lane_clmul8x4Even (n m : UInt64) {j : Nat} (hj : j < 4) :
    lane 16 j (clmul8x4Even n m).toNat = clmul 8 (lane 8 (2 * j) n.toNat) (lane 8 (2 * j) m.toNat) := by
  rw [clmul8x4Even, clmul8x4EvenInt,
    lane_laneLoop_shiftLeft (fun x _ hp => bit_mask16 x hp) _ _ (bit_and_halfMask bit_halfMask8 m) (by omega),
    lane_and_halfMask bit_halfMask8 n (by omega), lane_and_halfMask bit_halfMask8 m (by omega)]

/-- `clmul_8x4_odd`: 16-bit lane `j` is the product of byte `2 j + 1` of
`n` and `m`. -/
theorem lane_clmul8x4Odd (n m : UInt64) {j : Nat} (hj : j < 4) :
    lane 16 j (clmul8x4Odd n m).toNat = clmul 8 (lane 8 (2 * j + 1) n.toNat) (lane 8 (2 * j + 1) m.toNat) := by
  rw [clmul8x4Odd, lane_clmul8x4Even _ _ hj, UInt64.toNat_shiftRight, UInt64.toNat_shiftRight,
    show (8 : UInt64).toNat % 64 = 8 from rfl, lane_shiftRight, lane_shiftRight]

/-- `clmul_16x2_even`: 32-bit lane `j` is the product of 16-bit half
`2 j` of `n` and `m`. -/
theorem lane_clmul16x2Even (n m : UInt64) {j : Nat} (hj : j < 2) :
    lane 32 j (clmul16x2Even n m).toNat = clmul 16 (lane 16 (2 * j) n.toNat) (lane 16 (2 * j) m.toNat) := by
  rw [clmul16x2Even,
    lane_laneLoop_shiftLeft (fun x _ hp => bit_mask32 x hp) _ _ (bit_and_halfMask bit_halfMask16 m) (by omega),
    lane_and_halfMask bit_halfMask16 n (by omega), lane_and_halfMask bit_halfMask16 m (by omega)]

/-- `clmul_16x2_odd`: 32-bit lane `j` is the product of 16-bit half
`2 j + 1` of `n` and `m`. -/
theorem lane_clmul16x2Odd (n m : UInt64) {j : Nat} (hj : j < 2) :
    lane 32 j (clmul16x2Odd n m).toNat = clmul 16 (lane 16 (2 * j + 1) n.toNat) (lane 16 (2 * j + 1) m.toNat) := by
  rw [clmul16x2Odd, lane_clmul16x2Even _ _ hj, UInt64.toNat_shiftRight, UInt64.toNat_shiftRight,
    show (16 : UInt64).toNat % 64 = 16 from rfl, lane_shiftRight, lane_shiftRight]

/-! ## `clmul_8x4_packed` -/

/-- `unpack_8_to_16`: the lower half of 16-bit lane `j` is byte `j` of `x`,
and the upper half is empty. -/
theorem bit_unpack8To16 (x : UInt64) {j i : Nat} (hj : j < 4) (hi : i < 16) :
    bit (unpack8To16 x) (16 * j + i) = (decide (i < 8) && bit x (8 * j + i)) := by
  have h0 : ∀ p < 64, bit (0x000000ff : UInt64) p = decide (p < 8) := by decide
  have h1 : ∀ p < 64, bit (0x0000ff00 : UInt64) p = decide (8 ≤ p ∧ p < 16) := by decide
  have h2 : ∀ p < 64, bit (0x00ff0000 : UInt64) p = decide (16 ≤ p ∧ p < 24) := by decide
  have h3 : ∀ p < 64, bit (0xff000000 : UInt64) p = decide (24 ≤ p ∧ p < 32) := by decide
  simp only [unpack8To16, bit_or, bit_and, bit_shiftLeft _ _ (by decide : (8 : UInt64).toNat < 64),
    bit_shiftLeft _ _ (by decide : (16 : UInt64).toNat < 64), bit_shiftLeft _ _ (by decide : (24 : UInt64).toNat < 64),
    show (8 : UInt64).toNat = 8 from rfl, show (16 : UInt64).toNat = 16 from rfl, show (24 : UInt64).toNat = 24 from rfl]
  -- one byte of `x` lands in each lane
  rcases (by omega : j = 0 ∨ j = 1 ∨ j = 2 ∨ j = 3) with rfl | rfl | rfl | rfl
  all_goals
    by_cases hi8 : i < 8
    all_goals
      simp (disch := omega) only [h0, h1, h2, h3, decide_eq_true, decide_eq_false, Bool.and_true,
        Bool.and_false, Bool.true_and, Bool.false_and, Bool.or_false, Bool.false_or]
  -- what is left is the index of the byte in `x`
  all_goals (congr 1; omega)

/-- `clmul_8x4_packed`: 16-bit lane `j` is the product of byte `j` of `n`
and `m`. -/
theorem lane_clmul8x4Packed (n m : UInt32) {j : Nat} (hj : j < 4) :
    lane 16 j (clmul8x4Packed n m).toNat = clmul 8 (lane 8 j n.toNat) (lane 8 j m.toNat) := by
  have hlow : ∀ x : UInt32, lane 8 (2 * j) (unpack8To16 x.toUInt64).toNat = lane 8 j x.toNat := by
    intro x
    apply Nat.eq_of_testBit_eq
    intro q
    rw [testBit_lane, testBit_lane, ← bit_eq_testBit]
    by_cases hq : q < 8
    · rw [show 8 * (2 * j) + q = 16 * j + q by omega, bit_unpack8To16 _ hj (by omega), bit_eq_testBit,
        UInt32.toNat_toUInt64, decide_eq_true hq, Bool.true_and]
    · simp [hq]
  have hhigh : ∀ x : UInt32, ∀ j' i, 8 ≤ i → i < 2 * 8 → bit (unpack8To16 x.toUInt64) (2 * 8 * j' + i) = false := by
    intro x j' i hi hi'
    by_cases hj' : j' < 4
    · rw [show 2 * 8 * j' + i = 16 * j' + i by omega, bit_unpack8To16 _ hj' hi', decide_eq_false (by omega),
        Bool.false_and]
    · exact bit_of_ge (by omega)
  rw [clmul8x4Packed, clmul8x4EvenInt,
    lane_laneLoop_shiftLeft (fun x _ hp => bit_mask16 x hp) _ _ (hhigh m) (by omega), hlow, hlow]

/-! ## `clmul_32` -/

/-- A run of the `clmul_32` loop: `r` xored with the product of the low
`c` bits of `n` and `m`, while `m << (c - 1)` fits in the word. -/
theorem toNat_clmul32Loop : ∀ c, c ≤ 32 → ∀ (n : UInt32) (m r : UInt64), m.toNat < 2 ^ (64 - c) →
    (clmul32Loop c n m r).toNat = r.toNat ^^^ clmul c n.toNat m.toNat
  | 0, _, n, m, r, _ => by simp [clmul32Loop, clmul]
  | c + 1, hc, n, m, r, hm => by
    -- `m << 1` does not wrap
    have hdouble : m.toNat * 2 < 2 ^ (64 - c) := by
      rw [show 64 - c = 64 - (c + 1) + 1 by omega, Nat.pow_succ]
      exact Nat.mul_lt_mul_of_pos_right hm (by decide)
    have hshift : (m <<< 1).toNat = m.toNat <<< 1 := by
      rw [UInt64.toNat_shiftLeft, UInt64.toNat_one, Nat.shiftLeft_eq, Nat.pow_one]
      exact Nat.mod_eq_of_lt (lt_of_lt_of_le hdouble (Nat.pow_le_pow_right (by decide) (by omega)))
    -- `n & 1 ? m : 0` tests bit `0` of `n`
    have hsel : (if n &&& 1 ≠ 0 then m else 0).toNat = if n.toNat.testBit 0 then m.toNat else 0 := by
      have hbit : n &&& 1 ≠ 0 ↔ n.toNat.testBit 0 = true := by
        rw [Nat.testBit_zero, decide_eq_true_iff, ne_eq, ← UInt32.toNat_inj, UInt32.toNat_and,
          UInt32.toNat_one, Nat.and_one_is_mod, UInt32.toNat_zero]
        omega
      by_cases h : n.toNat.testBit 0
      · rw [if_pos (hbit.2 h), if_pos h]
      · rw [if_neg (fun h' => h (hbit.1 h')), if_neg h, UInt64.toNat_zero]
    have hm' : (m <<< 1).toNat < 2 ^ (64 - c) := by
      rw [hshift, Nat.shiftLeft_eq, Nat.pow_one]
      exact hdouble
    rw [clmul32Loop, toNat_clmul32Loop c (by omega) _ _ _ hm', UInt64.toNat_xor, hsel, UInt32.toNat_shiftRight,
      hshift, UInt32.toNat_one, clmul_succ', Nat.xor_assoc]

/-- `clmul_32`: the full product of two 32-bit values. -/
theorem toNat_clmul32 (n m32 : UInt32) : (clmul32 n m32).toNat = clmul 32 n.toNat m32.toNat := by
  have hm : m32.toUInt64.toNat < 2 ^ (64 - 32) := by
    rw [UInt32.toNat_toUInt64]
    exact UInt32.toNat_lt m32
  rw [clmul32, toNat_clmul32Loop 32 le_rfl n _ 0 hm, UInt32.toNat_toUInt64, UInt64.toNat_zero, Nat.zero_xor]

/-! ## `clmul_64_gen` -/

/-- The `xor` of two 128-bit values is that of their halves. -/
theorem value_xor {a b c d : Nat} (ha : a < 2 ^ 64) (hc : c < 2 ^ 64) :
    2 ^ 64 * (b ^^^ d) + (a ^^^ c) = (2 ^ 64 * b + a) ^^^ (2 ^ 64 * d + c) := by
  apply Nat.eq_of_testBit_eq
  intro p
  rw [Nat.testBit_xor, Nat.testBit_two_pow_mul_add _ (Nat.xor_lt_two_pow ha hc), Nat.testBit_two_pow_mul_add _ ha,
    Nat.testBit_two_pow_mul_add _ hc]
  by_cases hp : p < 64
  · rw [if_pos hp, if_pos hp, if_pos hp, Nat.testBit_xor]
  · rw [if_neg hp, if_neg hp, if_neg hp, Nat.testBit_xor]

/-- `m << i` as the halves `(m << i, m >> (64 - i))` of a 128-bit value. -/
theorem value_shiftLeft (m i : Nat) (hi : i ≤ 64) :
    2 ^ 64 * (m >>> (64 - i)) + (m <<< i) % 2 ^ 64 = m <<< i := by
  have hhigh : m <<< i / 2 ^ 64 = m >>> (64 - i) := by
    rw [Nat.shiftLeft_eq, Nat.shiftRight_eq_div_pow, show 2 ^ 64 = 2 ^ i * 2 ^ (64 - i) by
      rw [← Nat.pow_add, Nat.add_sub_cancel' hi], ← Nat.div_div_eq_div_mul, Nat.mul_div_cancel _ (Nat.two_pow_pos i)]
  rw [← hhigh, Nat.div_add_mod]

/-- `-((n >> i) & 1)`: all ones when bit `i` of `n` is set, and zero
otherwise. -/
theorem neg_bit_mask (n : UInt64) {i : Nat} (hi : i < 64) :
    -((n >>> i.toUInt64) &&& 1) = if n.toNat.testBit i then 0xFFFFFFFFFFFFFFFF else 0 := by
  have hcount : i.toUInt64.toNat % 64 = i := by
    simp only [Nat.toUInt64, UInt64.toNat_ofNat']
    omega
  have hlow : (n >>> i.toUInt64) &&& 1 = if n.toNat.testBit i then 1 else 0 := by
    apply UInt64.toNat_inj.mp
    rw [UInt64.toNat_and, UInt64.toNat_shiftRight, hcount, UInt64.toNat_one, Nat.and_one_is_mod]
    have hbit : n.toNat.testBit i = decide (n.toNat >>> i % 2 = 1) := by
      rw [← Nat.testBit_zero, Nat.testBit_shiftRight, Nat.add_zero]
    by_cases h : n.toNat.testBit i
    · rw [if_pos h, UInt64.toNat_one]
      rw [h, eq_comm, decide_eq_true_iff] at hbit
      exact hbit
    · rw [if_neg h, UInt64.toNat_zero]
      rw [Bool.eq_false_iff.2 h, eq_comm, decide_eq_false_iff_not] at hbit
      omega
  rw [hlow]
  split_ifs <;> decide

section Clmul64

variable (n m : UInt64)

/-- One pass of the `clmul_64_gen` loop `xor`s `m << i` into the 128-bit
value `(rl, rh)` when bit `i` of `n` is set. -/
theorem value_clmul64Step {i : Nat} (hi1 : 1 ≤ i) (hi : i < 64) (rl rh : UInt64) :
    2 ^ 64 * (rh ^^^ ((m >>> (64 - i).toUInt64) &&& -((n >>> i.toUInt64) &&& 1))).toNat
        + (rl ^^^ ((m <<< i.toUInt64) &&& -((n >>> i.toUInt64) &&& 1))).toNat =
      (2 ^ 64 * rh.toNat + rl.toNat) ^^^ (if n.toNat.testBit i then m.toNat <<< i else 0) := by
  have hcount : i.toUInt64.toNat % 64 = i := by
    simp only [Nat.toUInt64, UInt64.toNat_ofNat']
    omega
  have hcount' : (64 - i).toUInt64.toNat % 64 = 64 - i := by
    simp only [Nat.toUInt64, UInt64.toNat_ofNat']
    omega
  rw [neg_bit_mask n hi, UInt64.toNat_xor, UInt64.toNat_xor,
    value_xor (UInt64.toNat_lt rl) (UInt64.toNat_lt _)]
  congr 1
  by_cases h : n.toNat.testBit i
  · -- the whole of `m << i`, split over the two words
    rw [if_pos h, if_pos h, Word.and_allOnes, Word.and_allOnes, UInt64.toNat_shiftRight, UInt64.toNat_shiftLeft,
      hcount, hcount', value_shiftLeft m.toNat i (by omega)]
  · rw [if_neg h, if_neg h]
    simp

/-- A run of the `clmul_64_gen` loop from pass `i`: the 128-bit value
`(rl, rh)` goes from the product of the low `i` bits of `n` with `m` to
that of the low `i + count` bits. -/
theorem value_clmul64Loop : ∀ count i rl rh, 1 ≤ i → i + count ≤ 64 →
    2 ^ 64 * rh.toNat + rl.toNat = clmul i n.toNat m.toNat →
    2 ^ 64 * (clmul64Loop n m count i rl rh).2.toNat + (clmul64Loop n m count i rl rh).1.toNat =
      clmul (i + count) n.toNat m.toNat
  | 0, i, rl, rh, _, _, hv => by simpa [clmul64Loop] using hv
  | count + 1, i, rl, rh, hi1, hi, hv => by
    have hstep := value_clmul64Step n m hi1 (by omega) rl rh
    rw [hv, ← clmul_succ] at hstep
    rw [clmul64Loop, value_clmul64Loop count (i + 1) _ _ (by omega) (by omega) hstep, Nat.add_right_comm,
      Nat.add_assoc]

/-- `clmul_64_gen`: the full 128-bit product, the low word in the low half
of the `Int128`. -/
theorem toNat_clmul64Gen : (clmul64Gen n m).toNat = clmul 64 n.toNat m.toNat := by
  -- bit 0 sets the low word alone
  have hstart : 2 ^ 64 * (0 : UInt64).toNat + (if n &&& 1 ≠ 0 then m else 0).toNat = clmul 1 n.toNat m.toNat := by
    have hbit : n &&& 1 ≠ 0 ↔ n.toNat.testBit 0 = true := by
      rw [Nat.testBit_zero, decide_eq_true_iff, ne_eq, ← UInt64.toNat_inj, UInt64.toNat_and,
        UInt64.toNat_one, Nat.and_one_is_mod, UInt64.toNat_zero]
      omega
    rw [clmul_succ, UInt64.toNat_zero, Nat.mul_zero, Nat.zero_add, clmul, Nat.zero_xor, Nat.shiftLeft_zero]
    by_cases h : n.toNat.testBit 0
    · rw [if_pos (hbit.2 h), if_pos h]
    · rw [if_neg (fun h' => h (hbit.1 h')), if_neg h, UInt64.toNat_zero]
  rw [clmul64Gen, int128Make128, BitVec.toNat_append, UInt64.toNat_toBitVec, UInt64.toNat_toBitVec,
    Nat.shiftLeft_eq, Nat.mul_comm, BitArith.mul_two_pow_or (UInt64.toNat_lt _),
    value_clmul64Loop n m 63 1 _ 0 le_rfl (by omega) hstart]

end Clmul64

/-! ## All the helpers -/

/-- Every helper of `crypto/clmul.c` computes carry-less products lane by
lane: each lane of its result is the product of the matching lanes of its
inputs, cut to the lane for `clmul_8x8_low` and whole for the others. -/
theorem clmul_lanewise (n m : UInt64) (a b : UInt32) :
    (∀ j < 8, lane 8 j (clmul8x8Low n m).toNat = clmul 8 (lane 8 j n.toNat) (lane 8 j m.toNat) % 2 ^ 8) ∧
    (∀ j < 4, lane 16 j (clmul8x4Even n m).toNat = clmul 8 (lane 8 (2 * j) n.toNat) (lane 8 (2 * j) m.toNat)) ∧
    (∀ j < 4, lane 16 j (clmul8x4Odd n m).toNat =
      clmul 8 (lane 8 (2 * j + 1) n.toNat) (lane 8 (2 * j + 1) m.toNat)) ∧
    (∀ j < 4, lane 16 j (clmul8x4Packed a b).toNat = clmul 8 (lane 8 j a.toNat) (lane 8 j b.toNat)) ∧
    (∀ j < 2, lane 32 j (clmul16x2Even n m).toNat =
      clmul 16 (lane 16 (2 * j) n.toNat) (lane 16 (2 * j) m.toNat)) ∧
    (∀ j < 2, lane 32 j (clmul16x2Odd n m).toNat =
      clmul 16 (lane 16 (2 * j + 1) n.toNat) (lane 16 (2 * j + 1) m.toNat)) ∧
    (clmul32 a b).toNat = clmul 32 a.toNat b.toNat ∧
    (clmul64Gen n m).toNat = clmul 64 n.toNat m.toNat :=
  ⟨fun _ hj => lane_clmul8x8Low n m hj, fun _ hj => lane_clmul8x4Even n m hj,
    fun _ hj => lane_clmul8x4Odd n m hj, fun _ hj => lane_clmul8x4Packed a b hj,
    fun _ hj => lane_clmul16x2Even n m hj, fun _ hj => lane_clmul16x2Odd n m hj,
    toNat_clmul32 a b, toNat_clmul64Gen n m⟩

end QemuFormal.Clmul

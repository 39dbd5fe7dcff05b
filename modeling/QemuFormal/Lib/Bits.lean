/-
QemuFormal.Lib.Bits — the bits of 64-bit words, and of the masks and
shifts that word-at-a-time bitmap code builds.

`bit w j` is bit `j` of the word `w`; a word is fixed by its 64 bits
(`ext_bit`). Each operation is described by what it does to one bit:
`|||`, `&&&` and `~~~` bit by bit, a shift by `s < 64` moves bit `j` to
`j + s` or `j - s`, `~0 << k` holds the bits from `k` up, `~0 >> k` the
bits below `64 - k`, `(1 << n) - 1` the bits below `n`, `(2 << l) - (1 << s)`
the bits `s` to `l`, and `w & (w - 1)`
those of `w` but its lowest set bit. Bit `g` of an array of words is bit
`g % 64` of word `g / 64` (`arrayBit`).
-/
import Mathlib.Data.BitVec
import Mathlib.Data.Nat.Bitwise

namespace Bits

/-- Bit `j` of a word. -/
def bit (w : UInt64) (j : Nat) : Bool := w.toBitVec.getLsbD j

theorem bit_eq_testBit (w : UInt64) (j : Nat) : bit w j = w.toNat.testBit j := rfl

/-- A word is its 64 bits. -/
theorem ext_bit {v w : UInt64} (h : ∀ j < 64, bit v j = bit w j) : v = w :=
  UInt64.toBitVec_inj.mp (BitVec.eq_of_getLsbD_eq h)

theorem bit_of_ge {w : UInt64} {j : Nat} (hj : 64 ≤ j) : bit w j = false :=
  BitVec.getLsbD_of_ge _ _ hj

@[simp] theorem bit_or (v w : UInt64) (j : Nat) : bit (v ||| w) j = (bit v j || bit w j) := by
  simp [bit]

@[simp] theorem bit_and (v w : UInt64) (j : Nat) : bit (v &&& w) j = (bit v j && bit w j) := by
  simp [bit]

@[simp] theorem bit_xor (v w : UInt64) (j : Nat) : bit (v ^^^ w) j = (bit v j ^^ bit w j) := by
  simp [bit]

@[simp] theorem bit_not (w : UInt64) (j : Nat) : bit (~~~w) j = (decide (j < 64) && !bit w j) := by
  simp [bit]

@[simp] theorem bit_zero (j : Nat) : bit 0 j = false := by
  simp [bit]

@[simp] theorem bit_allOnes (j : Nat) : bit (~~~0) j = decide (j < 64) := by
  rw [bit_not, bit_zero, Bool.not_false, Bool.and_true]

/-- A word is non-zero when one of its bits is set. -/
theorem ne_zero_iff_exists_bit (w : UInt64) : w ≠ 0 ↔ ∃ j < 64, bit w j = true := by
  constructor
  · intro h
    by_contra hno
    apply h
    apply ext_bit
    intro j hj
    rw [bit_zero]
    cases hb : bit w j
    · rfl
    · exact absurd ⟨j, hj, hb⟩ hno
  · rintro ⟨j, -, hb⟩ rfl
    rw [bit_zero] at hb
    cases hb

theorem or_ne_zero_iff (v w : UInt64) : v ||| w ≠ 0 ↔ v ≠ 0 ∨ w ≠ 0 := by
  simp only [ne_zero_iff_exists_bit, bit_or, Bool.or_eq_true]
  constructor
  · rintro ⟨j, hj, hv | hw⟩
    · exact .inl ⟨j, hj, hv⟩
    · exact .inr ⟨j, hj, hw⟩
  · rintro (⟨j, hj, hv⟩ | ⟨j, hj, hw⟩)
    · exact ⟨j, hj, .inl hv⟩
    · exact ⟨j, hj, .inr hw⟩

/-- A shift count below 64 is its own value modulo 64. -/
theorem toNat_shiftCount {s : UInt64} (hs : s.toNat < 64) : s.toBitVec.toNat % 64 = s.toNat := by
  simp only [UInt64.toNat_toBitVec]
  omega

theorem bit_shiftLeft (w s : UInt64) (hs : s.toNat < 64) (j : Nat) :
    bit (w <<< s) j = (decide (j < 64) && decide (s.toNat ≤ j) && bit w (j - s.toNat)) := by
  simp only [bit, UInt64.toBitVec_shiftLeft, BitVec.shiftLeft_eq', BitVec.toNat_umod, BitVec.getLsbD_shiftLeft]
  rw [show BitVec.toNat (64 : BitVec 64) = 64 from rfl, toNat_shiftCount hs]
  cases decide (j < 64) <;> cases h : decide (j < s.toNat) <;> simp_all

theorem bit_shiftRight (w s : UInt64) (hs : s.toNat < 64) (j : Nat) : bit (w >>> s) j = bit w (s.toNat + j) := by
  simp only [bit, UInt64.toBitVec_shiftRight, BitVec.ushiftRight_eq', BitVec.toNat_umod, BitVec.getLsbD_ushiftRight]
  rw [show BitVec.toNat (64 : BitVec 64) = 64 from rfl, toNat_shiftCount hs]

/-- `(1 << n) - 1`: the bits below `n`. -/
theorem bit_lowMask (n : UInt64) (hn : n.toNat < 64) (j : Nat) :
    bit ((1 <<< n) - 1) j = decide (j < n.toNat) := by
  have hpow : ((1 : UInt64) <<< n).toNat = 2 ^ n.toNat := by
    rw [UInt64.toNat_shiftLeft, show (1 : UInt64).toNat = 1 from rfl, Nat.one_shiftLeft, Nat.mod_eq_of_lt hn]
    exact Nat.mod_eq_of_lt (Nat.pow_lt_pow_right Nat.one_lt_two hn)
  have hle : (1 : UInt64) ≤ 1 <<< n := by
    rw [UInt64.le_iff_toNat_le, hpow]; exact Nat.one_le_two_pow
  rw [bit_eq_testBit, UInt64.toNat_sub_of_le _ _ hle, hpow, show (1 : UInt64).toNat = 1 from rfl,
    Nat.testBit_two_pow_sub_one]

/-- `(2 << l) - (1 << s)`: the bits `s` to `l`, for `s ≤ l < 64`; at
`l = 63` the shift wraps to 0 and the difference still holds them. -/
theorem bit_rangeMask {s l : Nat} (hsl : s ≤ l) (hl : l < 64) (j : Nat) :
    bit ((2 <<< l.toUInt64) - (1 <<< s.toUInt64)) j = decide (s ≤ j ∧ j ≤ l) := by
  have hl' : l.toUInt64.toNat = l := UInt64.toNat_ofNat_of_lt' (lt_trans hl (by decide))
  have hs' : s.toUInt64.toNat = s := UInt64.toNat_ofNat_of_lt' (lt_of_le_of_lt hsl (lt_trans hl (by decide)))
  have hone : ((1 : UInt64) <<< s.toUInt64).toNat = 2 ^ s := by
    rw [UInt64.toNat_shiftLeft, UInt64.toNat_one, Nat.one_shiftLeft, hs', Nat.mod_eq_of_lt (show s < 64 by omega)]
    exact Nat.mod_eq_of_lt (Nat.pow_lt_pow_right Nat.one_lt_two (show s < 64 by omega))
  have htwo : ((2 : UInt64) <<< l.toUInt64).toNat = 2 ^ (l + 1) % 2 ^ 64 := by
    rw [UInt64.toNat_shiftLeft, hl', Nat.mod_eq_of_lt hl, Nat.shiftLeft_eq, Nat.pow_succ, Nat.mul_comm]
    rfl
  -- the difference is `2^(l+1) - 2^s` also when `2 << 63` wraps
  have hmask : ((2 <<< l.toUInt64) - (1 <<< s.toUInt64) : UInt64).toNat = 2 ^ (l + 1) - 2 ^ s := by
    have hS : 0 < 2 ^ s := Nat.two_pow_pos s
    have hSA : 2 ^ s ≤ 2 ^ (l + 1) := Nat.pow_le_pow_right (by decide) (by omega)
    have hA : 2 ^ (l + 1) ≤ 2 ^ 64 := Nat.pow_le_pow_right (by decide) (by omega)
    rw [UInt64.toNat_sub, hone, htwo]
    generalize 2 ^ (l + 1) = A at *
    generalize 2 ^ s = S at *
    rw [show (2 : Nat) ^ 64 = 18446744073709551616 from rfl] at *
    rcases Nat.lt_or_ge A 18446744073709551616 with h | h
    · rw [Nat.mod_eq_of_lt h]
      omega
    · obtain rfl : A = 18446744073709551616 := by omega
      omega
  have hsplit : 2 ^ (l + 1) - 2 ^ s = 2 ^ s * (2 ^ (l + 1 - s) - 1) := by
    rw [Nat.mul_sub, Nat.mul_one, ← Nat.pow_add, Nat.add_sub_cancel' (by omega)]
  rw [bit_eq_testBit, hmask, hsplit, Nat.mul_comm, Nat.testBit_mul_two_pow]
  by_cases hj : s ≤ j
  · rw [Nat.testBit_two_pow_sub_one]
    simp only [hj, true_and]
    by_cases hjl : j ≤ l
    · simp [hjl, show j - s < l + 1 - s by omega]
    · simp [hjl, show ¬ j - s < l + 1 - s by omega]
  · simp [hj]

/-- The low byte of a word, widened back to a word. -/
theorem bit_toUInt8_toUInt64 (w : UInt64) (i : Nat) : bit w.toUInt8.toUInt64 i = (decide (i < 8) && bit w i) := by
  rw [bit_eq_testBit, bit_eq_testBit, UInt8.toNat_toUInt64, UInt64.toNat_toUInt8, Nat.testBit_mod_two_pow]

/-- A word built by `or`-ing terms into an accumulator has the bits of the
accumulator and those of each term. -/
theorem bit_foldl_or (g : Nat → UInt64) (l : List Nat) (a : UInt64) (b : Nat) :
    bit (l.foldl (fun w j => w ||| g j) a) b = (bit a b || l.any fun j => bit (g j) b) := by
  induction l generalizing a with
  | nil => simp
  | cons j l ih => rw [List.foldl_cons, ih, bit_or, List.any_cons, Bool.or_assoc]

/-- `x & 63` of a count: the count modulo 64. -/
theorem toNat_and_63 (n : Nat) : (n.toUInt64 &&& 63).toNat = n % 64 := by
  rw [UInt64.toNat_and, show (63 : UInt64).toNat = 2 ^ 6 - 1 from rfl, Nat.and_two_pow_sub_one_eq_mod,
    UInt64.toNat_ofNat']
  omega

/-- The complement of a shift count within the word. -/
theorem toNat_sixtyFour_sub {s : UInt64} (hs : s.toNat < 64) : (64 - s).toNat = 64 - s.toNat := by
  rw [UInt64.toNat_sub_of_le _ _ (UInt64.le_iff_toNat_le.mpr (Nat.le_of_lt hs))]
  rfl

/-- `-x & 63` of a count: what the count lacks of a multiple of 64. -/
theorem toNat_neg_and_63 (n : Nat) : ((0 - n.toUInt64) &&& 63).toNat = (64 - n % 64) % 64 := by
  rw [UInt64.toNat_and, show (63 : UInt64).toNat = 2 ^ 6 - 1 from rfl, Nat.and_two_pow_sub_one_eq_mod,
    UInt64.toNat_sub, UInt64.toNat_zero, show n.toUInt64 = UInt64.ofNat n from rfl, UInt64.toNat_ofNat']
  omega

/-- `w & (w - 1)` clears the lowest set bit `k` of `w`. -/
theorem bit_and_sub_one {w : UInt64} {k : Nat} (hk : bit w k = true) (hlow : ∀ j < k, bit w j = false) (j : Nat) :
    bit (w &&& (w - 1)) j = (bit w j && j != k) := by
  have hk64 : k < 64 := by
    by_contra h
    rw [bit_of_ge (by omega)] at hk
    exact Bool.false_ne_true hk
  simp only [bit_eq_testBit] at hk hlow ⊢
  -- below bit `k + 1` the word is `2^k`
  have hmod : w.toNat % 2 ^ (k + 1) = 2 ^ k := by
    apply Nat.eq_of_testBit_eq
    intro i
    rw [Nat.testBit_mod_two_pow, Nat.testBit_two_pow]
    rcases Nat.lt_trichotomy i k with hi | rfl | hi
    · rw [hlow i hi, Bool.and_false, decide_eq_false (by omega)]
    · rw [hk, decide_eq_true (by omega), decide_eq_true rfl, Bool.and_true]
    · rw [decide_eq_false (by omega), decide_eq_false (by omega), Bool.false_and]
  have hsplit : w.toNat = 2 ^ (k + 1) * (w.toNat / 2 ^ (k + 1)) + 2 ^ k := by
    rw [← hmod, Nat.div_add_mod]
  generalize w.toNat / 2 ^ (k + 1) = v at hsplit
  have hone : 1 ≤ w := by
    rw [UInt64.le_iff_toNat_le, UInt64.toNat_one, hsplit]
    have := Nat.one_le_two_pow (n := k)
    omega
  have hsub : (w - 1).toNat = 2 ^ (k + 1) * v + (2 ^ k - 1) := by
    rw [UInt64.toNat_sub_of_le _ _ hone, UInt64.toNat_one, hsplit]
    have := Nat.one_le_two_pow (n := k)
    omega
  have hlt : 2 ^ k < 2 ^ (k + 1) := Nat.pow_lt_pow_right (by decide) (by omega)
  rw [UInt64.toNat_and, Nat.testBit_and, hsub, hsplit, Nat.testBit_two_pow_mul_add _ hlt,
    Nat.testBit_two_pow_mul_add _ (lt_of_le_of_lt (Nat.sub_le _ _) hlt)]
  by_cases hj : j < k + 1
  · rw [if_pos hj, if_pos hj, Nat.testBit_two_pow, Nat.testBit_two_pow_sub_one]
    by_cases hjk : k = j
    · subst hjk
      simp
    · simp [hjk]
  · rw [if_neg hj, if_neg hj, Bool.and_self, bne_iff_ne.mpr (by omega), Bool.and_true]

/-! ## Arrays of words -/

/-- Bit `g` of the array `map[0], map[1], …`. -/
def arrayBit (map : Nat → UInt64) (g : Nat) : Bool := bit (map (g / 64)) (g % 64)

theorem arrayBit_update (map : Nat → UInt64) (w : Nat) (v : UInt64) (g : Nat) :
    arrayBit (Function.update map w v) g = if g / 64 = w then bit v (g % 64) else arrayBit map g := by
  unfold arrayBit
  split
  · subst w; rw [Function.update_self]
  · rw [Function.update_of_ne ‹_›]

/-- The bit at word `w`, position `j < 64`. -/
theorem arrayBit_word (map : Nat → UInt64) (w j : Nat) (hj : j < 64) : arrayBit map (64 * w + j) = bit (map w) j := by
  unfold arrayBit
  rw [show (64 * w + j) / 64 = w by omega, show (64 * w + j) % 64 = j by omega]

/-- A bit within two words of `64 * s`. -/
theorem arrayBit_two_words (map : Nat → UInt64) (s x : Nat) (hx : x < 128) :
    arrayBit map (64 * s + x) = if x < 64 then bit (map s) x else bit (map (s + 1)) (x - 64) := by
  split
  · exact arrayBit_word map s x ‹_›
  · rw [show 64 * s + x = 64 * (s + 1) + (x - 64) by omega]
    exact arrayBit_word map (s + 1) (x - 64) (by omega)

/-- Arrays with the same bits are the same. -/
theorem arrayBit_ext {map map' : Nat → UInt64} (h : ∀ g, arrayBit map g = arrayBit map' g) : map = map' := by
  funext w
  apply ext_bit
  intro j hj
  rw [← arrayBit_word map w j hj, ← arrayBit_word map' w j hj, h]

/-- A word of an array meets a mask when a bit of that word under the mask is set. -/
theorem word_and_ne_zero_iff (map : Nat → UInt64) (p : Nat) (m : UInt64) :
    map p &&& m ≠ 0 ↔ ∃ g, g / 64 = p ∧ bit m (g % 64) = true ∧ arrayBit map g = true := by
  rw [ne_zero_iff_exists_bit]
  constructor
  · rintro ⟨j, hj, hb⟩
    rw [bit_and, Bool.and_eq_true] at hb
    refine ⟨64 * p + j, by omega, by rw [show (64 * p + j) % 64 = j by omega]; exact hb.2, ?_⟩
    rw [arrayBit_word map p j hj]
    exact hb.1
  · rintro ⟨g, rfl, hm, hg⟩
    exact ⟨g % 64, Nat.mod_lt _ (by decide), by rw [bit_and, hm, Bool.and_true]; exact hg⟩

end Bits

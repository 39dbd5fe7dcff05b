/-
QemuFormal.Util.BitmapCopy — the offset copies of `util/bitmap.c`.

`bitmap_copy_with_dst_offset(dst, src, shift, nbits)` puts bit `i` of
`src` at bit `shift + i` of `dst`, and `bitmap_copy_with_src_offset`
takes bit `shift + i` of `src` to bit `i` of `dst`, for `i < nbits`.

When `shift % 64 = 0` both hand whole words to `bitmap_copy`, which takes
`nbits` as a `long` and converts it back to an `unsigned long` where it
compares it with `BITS_PER_LONG` and divides it by 64. It copies
`BITS_TO_LONGS(nbits)` words (`arrayBit_bitmapCopy`) as long as
`nbits + 63` does not wrap; from `2^64 - 63` on it wraps to less than 64,
and nothing is copied (`bitmapCopyWithDstOffset_ulong_max_copies_nothing`).
Otherwise each word of the result is built from two: a whole word from
the rest of one source word and the start of the next
(`bit_srcOffsetWord`, `bit_dstOffsetLow`, `bit_dstOffsetHigh`), and a last
word for the `nbits % 64` bits left, which may or may not reach past the
word boundary (`bit_srcOffsetTail`, `bit_srcOffsetShortTail`,
`bit_dstOffsetTail`, `bit_dstOffsetShortTail`).

The loop of the destination copy writes word `d + 1` whole and or-s into
word `d`, so its invariant says that the bits of the word it stops at
from `shift` up are clear (`copyWithDstOffsetLoop_spec`); the first word
is masked to its bits below `shift` to start it.
-/
import QemuFormal.Util.Bitmap

namespace QemuFormal.Bitmap

open Bits
open Function (update)

/-- A shift that is not a multiple of 64: its word and its offset in the word. -/
theorem shift_split {shift : UInt64} (hsh : shift % 64 ≠ 0) :
    0 < (shift % 64).toNat ∧ (shift % 64).toNat < 64 ∧
      shift.toNat = 64 * bitWord shift.toNat + (shift % 64).toNat := by
  have hk : (shift % 64).toNat = shift.toNat % 64 := UInt64.toNat_mod shift 64
  refine ⟨?_, by omega, by unfold bitWord bitsPerLong; omega⟩
  rcases Nat.eq_zero_or_pos (shift % 64).toNat with h | h
  · exact absurd (UInt64.toNat_inj.mp (by rw [h]; rfl)) hsh
  · exact h

/-- A shift that is a multiple of 64 is its word's first bit. -/
theorem shift_of_mod_eq_zero {shift : UInt64} (hsh : shift % 64 = 0) : shift.toNat = 64 * bitWord shift.toNat := by
  have hk : (shift % 64).toNat = shift.toNat % 64 := UInt64.toNat_mod shift 64
  rw [hsh, UInt64.toNat_zero] at hk
  unfold bitWord bitsPerLong
  omega

section Shift

variable {sh : UInt64} (hsh0 : 0 < sh.toNat) (hsh : sh.toNat < 64)
include hsh0 hsh

/-- A whole word of `bitmap_copy_with_src_offset`: the rest of `src[s]`
from bit `shift`, then the low `shift` bits of `src[s + 1]`. -/
theorem bit_srcOffsetWord (src : Nat → UInt64) (s j : Nat) (hj : j < 64) :
    bit ((src s &&& ~~~((1 <<< sh) - 1)) >>> sh ||| (src (s + 1) &&& ((1 <<< sh) - 1)) <<< (64 - sh)) j =
      arrayBit src (64 * s + sh.toNat + j) := by
  have h64 := toNat_sixtyFour_sub hsh
  rw [Nat.add_assoc, arrayBit_two_words src s _ (by omega)]
  simp only [bit_or, bit_shiftRight _ _ hsh, bit_shiftLeft _ _ (by omega : (64 - sh).toNat < 64), bit_and, bit_not,
    bit_lowMask _ hsh, h64]
  split
  · have : ¬ (64 - sh.toNat ≤ j) := by omega
    simp [this, hj, show sh.toNat + j < 64 by omega]
  · have : ¬ (sh.toNat + j < 64) := by omega
    simp [hj, this, show 64 - sh.toNat ≤ j by omega, show j - (64 - sh.toNat) = sh.toNat + j - 64 by omega,
      show sh.toNat + j - 64 < sh.toNat by omega, bit_of_ge (show 64 ≤ sh.toNat + j by omega)]

/-- The last word of `bitmap_copy_with_src_offset` when the bits left
reach into `src[s + 1]`. -/
theorem bit_srcOffsetTail (src : Nat → UInt64) (s : Nat) (rest : UInt64) (hrest : rest.toNat < 64)
    (hlong : 64 - sh.toNat < rest.toNat) (j : Nat) (hj : j < rest.toNat) :
    bit ((src s &&& ~~~((1 <<< sh) - 1)) >>> sh |||
        (src (s + 1) &&& ((1 <<< (rest - (64 - sh))) - 1)) <<< (64 - sh)) j =
      arrayBit src (64 * s + sh.toNat + j) := by
  have h64 := toNat_sixtyFour_sub hsh
  have hn : (rest - (64 - sh)).toNat = rest.toNat - (64 - sh.toNat) := by
    rw [UInt64.toNat_sub_of_le _ _ (UInt64.le_iff_toNat_le.mpr (by omega)), h64]
  rw [Nat.add_assoc, arrayBit_two_words src s _ (by omega)]
  simp only [bit_or, bit_shiftRight _ _ hsh, bit_shiftLeft _ _ (by omega : (64 - sh).toNat < 64), bit_and, bit_not,
    bit_lowMask _ hsh, bit_lowMask _ (by omega : (rest - (64 - sh)).toNat < 64), h64, hn]
  split
  · have : ¬ (64 - sh.toNat ≤ j) := by omega
    simp [this, show j < 64 by omega, show sh.toNat + j < 64 by omega]
  · have : ¬ (sh.toNat + j < 64) := by omega
    simp [show j < 64 by omega, this, show 64 - sh.toNat ≤ j by omega,
      show j - (64 - sh.toNat) = sh.toNat + j - 64 by omega, show sh.toNat + j - 64 < rest.toNat - (64 - sh.toNat) by omega,
      bit_of_ge (show 64 ≤ sh.toNat + j by omega)]

/-- The last word of `bitmap_copy_with_src_offset` when the bits left
lie in `src[s]`. -/
theorem bit_srcOffsetShortTail (src : Nat → UInt64) (s : Nat) (rest : UInt64)
    (hshort : rest.toNat ≤ 64 - sh.toNat) (j : Nat) (hj : j < rest.toNat) :
    bit ((src s >>> sh) &&& ((1 <<< rest) - 1)) j = arrayBit src (64 * s + sh.toNat + j) := by
  rw [Nat.add_assoc, arrayBit_word src s _ (by omega)]
  simp only [bit_and, bit_shiftRight _ _ hsh, bit_lowMask _ (by omega : rest.toNat < 64)]
  simp [hj]

/-- The word loop of `bitmap_copy_with_src_offset`, entered at the
words `d` of `dst` and `s` of `src`: it fills `nbits / 64` words of `dst`,
each from the bits of `src` `shift` further on, and leaves `nbits % 64`. -/
theorem copyWithSrcOffsetLoop_spec (src : Nat → UInt64) (fuel : Nat) (dst : Nat → UInt64) (d s : Nat)
    (nbits : UInt64) (hfuel : nbits.toNat / 64 < fuel) :
    ∃ (dst' : Nat → UInt64) (rest : UInt64),
      copyWithSrcOffsetLoop src sh (~~~((1 <<< sh) - 1)) ((1 <<< sh) - 1) fuel dst d s nbits =
        (dst', d + nbits.toNat / 64, s + nbits.toNat / 64, rest) ∧ rest.toNat = nbits.toNat % 64 ∧
      ∀ g, arrayBit dst' g = if 64 * d ≤ g ∧ g < 64 * (d + nbits.toNat / 64) then
        arrayBit src (64 * s + sh.toNat + (g - 64 * d)) else arrayBit dst g := by
  induction fuel generalizing dst d s nbits with
  | zero => omega
  | succ fuel ih =>
    rw [copyWithSrcOffsetLoop]
    by_cases hw : nbits ≥ 64
    · rw [if_pos hw]
      dsimp only
      have hwn : 64 ≤ nbits.toNat := UInt64.le_iff_toNat_le.mp hw
      have hsub : (nbits - 64).toNat = nbits.toNat - 64 := UInt64.toNat_sub_of_le _ _ hw
      obtain ⟨dst', rest, hrun, hrest, hbits⟩ := ih (update dst d
        ((src s &&& ~~~((1 <<< sh) - 1)) >>> sh ||| (src (s + 1) &&& ((1 <<< sh) - 1)) <<< (64 - sh)))
        (d + 1) (s + 1) (nbits - 64) (by omega)
      rw [hsub, show d + 1 + (nbits.toNat - 64) / 64 = d + nbits.toNat / 64 by omega,
        show s + 1 + (nbits.toNat - 64) / 64 = s + nbits.toNat / 64 by omega] at hrun
      refine ⟨dst', rest, hrun, by omega, fun g => ?_⟩
      rw [hbits, hsub, arrayBit_update]
      split_ifs
      all_goals first
        | rfl
        | omega
        | (rw [bit_srcOffsetWord hsh0 hsh src s _ (Nat.mod_lt _ (by decide))]; congr 1; omega)
        | (congr 1; omega)
    · rw [if_neg hw]
      have hlt : nbits.toNat < 64 := Nat.lt_of_not_le fun h => hw (UInt64.le_iff_toNat_le.mpr h)
      refine ⟨dst, nbits, by rw [Nat.div_eq_of_lt hlt, Nat.add_zero, Nat.add_zero], by omega, fun g => ?_⟩
      rw [if_neg (by omega)]

/-! ### Destination offset -/

/-- Bits `[shift, 64)` of a word of `bitmap_copy_with_dst_offset`: the
low `64 - shift` bits of `src[s]`, or-ed in. -/
theorem bit_dstOffsetLow (src : Nat → UInt64) (v : UInt64) (s j : Nat) (hj : j < 64) :
    bit (v ||| (src s &&& ((1 <<< (64 - sh)) - 1)) <<< sh) j =
      (bit v j || (decide (sh.toNat ≤ j) && arrayBit src (64 * s + (j - sh.toNat)))) := by
  have h64 := toNat_sixtyFour_sub hsh
  rw [arrayBit_word src s _ (by omega)]
  simp only [bit_or, bit_shiftLeft _ _ hsh, bit_and, bit_lowMask _ (by omega : (64 - sh).toNat < 64), h64]
  by_cases hjk : sh.toNat ≤ j
  · simp [hj, hjk, show j - sh.toNat < 64 - sh.toNat by omega]
  · simp [hjk]

/-- Bits `[0, shift)` of the next word: the high `shift` bits of `src[s]`;
the bits above are cleared. -/
theorem bit_dstOffsetHigh (src : Nat → UInt64) (s j : Nat) :
    bit ((src s &&& ~~~((1 <<< (64 - sh)) - 1)) >>> (64 - sh)) j =
      (decide (j < sh.toNat) && arrayBit src (64 * s + (64 - sh.toNat + j))) := by
  have h64 := toNat_sixtyFour_sub hsh
  simp only [bit_shiftRight _ _ (by omega : (64 - sh).toNat < 64), bit_and, bit_not,
    bit_lowMask _ (by omega : (64 - sh).toNat < 64), h64]
  by_cases hjk : j < sh.toNat
  · rw [arrayBit_word src s _ (by omega)]
    simp [hjk, show 64 - sh.toNat + j < 64 by omega]
  · simp [hjk, bit_of_ge (show 64 ≤ 64 - sh.toNat + j by omega)]

/-- One round of the word loop of `bitmap_copy_with_dst_offset`, from a
word `d` whose bits from `shift` up are clear: it fills bits
`[64 d + shift, 64 (d + 1) + shift)` from `src[s]` and clears the rest of
word `d + 1`. -/
theorem arrayBit_dstOffsetRound (src dst : Nat → UInt64) (d s : Nat)
    (hz : ∀ j, sh.toNat ≤ j → bit (dst d) j = false) (g : Nat) :
    arrayBit (update (update dst d (dst d ||| (src s &&& ((1 <<< (64 - sh)) - 1)) <<< sh)) (d + 1)
        ((src s &&& ~~~((1 <<< (64 - sh)) - 1)) >>> (64 - sh))) g =
      if 64 * d + sh.toNat ≤ g ∧ g < 64 * (d + 1) + sh.toNat then arrayBit src (64 * s + (g - (64 * d + sh.toNat)))
      else if 64 * (d + 1) + sh.toNat ≤ g ∧ g < 64 * (d + 1) + 64 then false else arrayBit dst g := by
  have hj : g % 64 < 64 := Nat.mod_lt _ (by decide)
  rw [arrayBit_update, arrayBit_update]
  by_cases h1 : g / 64 = d + 1
  · rw [if_pos h1, bit_dstOffsetHigh hsh0 hsh src s]
    by_cases hjk : g % 64 < sh.toNat
    · rw [decide_eq_true hjk, Bool.true_and, if_pos (by omega)]
      congr 1
      omega
    · rw [decide_eq_false hjk, Bool.false_and, if_neg (by omega), if_pos (by omega)]
  · rw [if_neg h1]
    by_cases h0 : g / 64 = d
    · rw [if_pos h0, bit_dstOffsetLow hsh0 hsh src _ s _ hj]
      by_cases hjk : sh.toNat ≤ g % 64
      · rw [hz _ hjk, decide_eq_true hjk, Bool.true_and, Bool.false_or, if_pos (by omega)]
        congr 1
        omega
      · rw [decide_eq_false hjk, Bool.false_and, Bool.or_false, if_neg (by omega), if_neg (by omega), arrayBit, h0]
    · rw [if_neg h0, if_neg (by omega), if_neg (by omega)]

/-- The word loop of `bitmap_copy_with_dst_offset`, entered at the words
`d` of `dst` and `s` of `src`, with the bits of word `d` from `shift` up
clear: it fills `nbits / 64` words' worth of bits from `64 d + shift` on,
clears the rest of the word it stops at, and leaves `nbits % 64`. -/
theorem copyWithDstOffsetLoop_spec (src : Nat → UInt64) (fuel : Nat) (dst : Nat → UInt64) (d s : Nat)
    (nbits : UInt64) (hfuel : nbits.toNat / 64 < fuel) (hz : ∀ j, sh.toNat ≤ j → bit (dst d) j = false) :
    ∃ (dst' : Nat → UInt64) (rest : UInt64),
      copyWithDstOffsetLoop src sh (~~~((1 <<< (64 - sh)) - 1)) ((1 <<< (64 - sh)) - 1) fuel dst d s nbits =
        (dst', d + nbits.toNat / 64, s + nbits.toNat / 64, rest) ∧ rest.toNat = nbits.toNat % 64 ∧
      ∀ g, arrayBit dst' g =
        if 64 * d + sh.toNat ≤ g ∧ g < 64 * (d + nbits.toNat / 64) + sh.toNat then
          arrayBit src (64 * s + (g - (64 * d + sh.toNat)))
        else if 64 * (d + nbits.toNat / 64) + sh.toNat ≤ g ∧ g < 64 * (d + nbits.toNat / 64) + 64 then false
        else arrayBit dst g := by
  induction fuel generalizing dst d s nbits with
  | zero => omega
  | succ fuel ih =>
    rw [copyWithDstOffsetLoop]
    by_cases hw : nbits ≥ 64
    · rw [if_pos hw]
      dsimp only
      have hwn : 64 ≤ nbits.toNat := UInt64.le_iff_toNat_le.mp hw
      have hsub : (nbits - 64).toNat = nbits.toNat - 64 := UInt64.toNat_sub_of_le _ _ hw
      -- the next word keeps only the high bits of `src[s]`, below `shift`
      have hz' : ∀ j, sh.toNat ≤ j → bit (update (update dst d (dst d ||| (src s &&& ((1 <<< (64 - sh)) - 1)) <<< sh))
          (d + 1) ((src s &&& ~~~((1 <<< (64 - sh)) - 1)) >>> (64 - sh)) (d + 1)) j = false := by
        intro j hj
        rw [Function.update_self, bit_dstOffsetHigh hsh0 hsh src s, decide_eq_false (by omega), Bool.false_and]
      obtain ⟨dst', rest, hrun, hrest, hbits⟩ := ih _ (d + 1) (s + 1) (nbits - 64) (by omega) hz'
      rw [hsub, show d + 1 + (nbits.toNat - 64) / 64 = d + nbits.toNat / 64 by omega,
        show s + 1 + (nbits.toNat - 64) / 64 = s + nbits.toNat / 64 by omega] at hrun
      refine ⟨dst', rest, hrun, by omega, fun g => ?_⟩
      rw [hbits, hsub, arrayBit_dstOffsetRound hsh0 hsh src dst d s hz]
      split_ifs
      all_goals first
        | rfl
        | omega
        | (congr 1; omega)
    · rw [if_neg hw]
      have hlt : nbits.toNat < 64 := Nat.lt_of_not_le fun h => hw (UInt64.le_iff_toNat_le.mpr h)
      refine ⟨dst, nbits, by rw [Nat.div_eq_of_lt hlt, Nat.add_zero, Nat.add_zero], by omega, fun g => ?_⟩
      rw [Nat.div_eq_of_lt hlt, Nat.add_zero, if_neg (by omega)]
      split
      · rw [arrayBit, show g / 64 = d by omega, hz _ (by omega)]
      · rfl

/-- The last word of `bitmap_copy_with_dst_offset` when the bits left
run past the word: bits `[0, nbits')` of the word after. -/
theorem bit_dstOffsetTail (src : Nat → UInt64) (s : Nat) (n : UInt64) (hn : n.toNat ≤ sh.toNat) (j : Nat) :
    bit ((src s &&& (((1 <<< n) - 1) <<< (64 - sh))) >>> (64 - sh)) j =
      (decide (j < n.toNat) && arrayBit src (64 * s + (64 - sh.toNat + j))) := by
  have h64 := toNat_sixtyFour_sub hsh
  simp only [bit_shiftRight _ _ (by omega : (64 - sh).toNat < 64), bit_and,
    bit_shiftLeft _ _ (by omega : (64 - sh).toNat < 64), bit_lowMask _ (by omega : n.toNat < 64), h64]
  by_cases hjn : j < n.toNat
  · rw [arrayBit_word src s _ (by omega)]
    simp [hjn, show 64 - sh.toNat + j < 64 by omega]
  · simp [hjn]

/-- The last word of `bitmap_copy_with_dst_offset` when the bits left
end inside the word: bits `[shift, shift + nbits')`, or-ed in. -/
theorem bit_dstOffsetShortTail (src : Nat → UInt64) (v : UInt64) (s : Nat) (n : UInt64)
    (hn : n.toNat ≤ 64 - sh.toNat) (j : Nat) (hj : j < 64) :
    bit (v ||| (src s &&& ((1 <<< n) - 1)) <<< sh) j =
      (bit v j || (decide (sh.toNat ≤ j ∧ j - sh.toNat < n.toNat) && arrayBit src (64 * s + (j - sh.toNat)))) := by
  simp only [bit_or, bit_shiftLeft _ _ hsh, bit_and, bit_lowMask _ (by omega : n.toNat < 64)]
  by_cases hjk : sh.toNat ≤ j ∧ j - sh.toNat < n.toNat
  · rw [arrayBit_word src s _ (by omega)]
    simp [hj, hjk]
  · by_cases hk : sh.toNat ≤ j
    · simp [hk, show ¬ j - sh.toNat < n.toNat by omega]
    · simp [hk]

end Shift

/-- Below `shift + nbits`, `bitmap_copy_with_dst_offset` with a shift that
is not a multiple of 64 leaves `dst` under `shift` and copies `src` from
`shift` on. -/
theorem arrayBit_copyWithDstOffset_of_mod_ne_zero (dst src : Nat → UInt64) (shift nbits : UInt64)
    (hsh : shift % 64 ≠ 0) (g : Nat) (hg : g < shift.toNat + nbits.toNat) :
    arrayBit (bitmapCopyWithDstOffset dst src shift nbits) g =
      if shift.toNat ≤ g then arrayBit src (g - shift.toNat) else arrayBit dst g := by
  obtain ⟨hk0, hk64, hshift⟩ := shift_split hsh
  have h64 := toNat_sixtyFour_sub hk64
  -- the first word keeps its bits below `shift` and is cleared above
  have hz : ∀ j, (shift % 64).toNat ≤ j → bit (update dst (bitWord shift.toNat)
      (dst (bitWord shift.toNat) &&& ((1 <<< (shift % 64)) - 1)) (bitWord shift.toNat)) j = false := by
    intro j hj
    rw [Function.update_self, bit_and, bit_lowMask _ hk64, decide_eq_false (by omega), Bool.and_false]
  obtain ⟨dst', rest, hrun, hrest, hbits⟩ := copyWithDstOffsetLoop_spec hk0 hk64 src (nbits.toNat / 64 + 1)
    _ (bitWord shift.toNat) 0 nbits (by omega) hz
  -- after the loop: `64 * m` bits copied from `shift` on, the rest of the last word clear
  have hloop : ∀ g, arrayBit dst' g =
      if shift.toNat ≤ g ∧ g < shift.toNat + 64 * (nbits.toNat / 64) then arrayBit src (g - shift.toNat)
      else if 64 * (bitWord shift.toNat + nbits.toNat / 64) + (shift % 64).toNat ≤ g ∧
        g < 64 * (bitWord shift.toNat + nbits.toNat / 64) + 64 then false
      else arrayBit dst g := by
    intro g
    rw [hbits, arrayBit_update, bit_and, bit_lowMask _ hk64]
    split_ifs
    all_goals first
      | rfl
      | omega
      | (congr 1; omega)
      | (rw [decide_eq_true (by omega), Bool.and_true, arrayBit, ‹g / 64 = _›])
  unfold bitmapCopyWithDstOffset
  rw [if_neg hsh]
  dsimp only
  rw [hrun]
  dsimp only
  have hj : g % 64 < 64 := Nat.mod_lt _ (by decide)
  by_cases hlong : rest > 64 - shift % 64
  · -- the bits left fill the word the loop stopped at and run into the next
    have hl : 64 - (shift % 64).toNat < rest.toNat := by
      rw [← h64]
      exact UInt64.lt_iff_toNat_lt.mp hlong
    have hn : (rest - (64 - shift % 64)).toNat = rest.toNat - (64 - (shift % 64).toNat) := by
      rw [UInt64.toNat_sub_of_le _ _ (UInt64.le_iff_toNat_le.mpr (by omega)), h64]
    rw [if_pos hlong, arrayBit_update, arrayBit_update]
    by_cases h1 : g / 64 = bitWord shift.toNat + nbits.toNat / 64 + 1
    · rw [if_pos h1, bit_dstOffsetTail hk0 hk64 src _ _ (by omega), hn, decide_eq_true (by omega), Bool.true_and,
        if_pos (by omega)]
      congr 1
      omega
    · rw [if_neg h1]
      by_cases h0 : g / 64 = bitWord shift.toNat + nbits.toNat / 64
      · rw [if_pos h0, bit_dstOffsetLow hk0 hk64 src _ _ _ hj, ← h0,
          show bit (dst' (g / 64)) (g % 64) = arrayBit dst' g from rfl, hloop]
        by_cases hjk : (shift % 64).toNat ≤ g % 64
        · rw [if_neg (by omega), if_pos (by omega), decide_eq_true hjk, Bool.true_and, Bool.false_or, if_pos (by omega)]
          congr 1
          omega
        · rw [decide_eq_false hjk, Bool.false_and, Bool.or_false]
          split_ifs <;> first | rfl | omega
      · rw [if_neg h0, hloop]
        split_ifs <;> first | rfl | omega
  · have hs : rest.toNat ≤ 64 - (shift % 64).toNat := by
      rw [← h64]
      exact UInt64.le_iff_toNat_le.mp (UInt64.not_lt.mp hlong)
    rw [if_neg hlong]
    split
    · -- the bits left end inside the word the loop stopped at
      rw [arrayBit_update]
      by_cases h0 : g / 64 = bitWord shift.toNat + nbits.toNat / 64
      · rw [if_pos h0, bit_dstOffsetShortTail hk0 hk64 src _ _ _ hs _ hj, ← h0,
          show bit (dst' (g / 64)) (g % 64) = arrayBit dst' g from rfl, hloop]
        by_cases hjk : (shift % 64).toNat ≤ g % 64
        · rw [if_neg (by omega), if_pos (by omega), decide_eq_true (by omega), Bool.true_and, Bool.false_or,
            if_pos (by omega)]
          congr 1
          omega
        · rw [decide_eq_false (by omega), Bool.false_and, Bool.or_false]
          split_ifs <;> first | rfl | omega
      · rw [if_neg h0, hloop]
        split_ifs <;> first | rfl | omega
    · -- no bits left
      have hzero : rest.toNat = 0 := by
        rw [show rest = 0 from not_not.mp ‹_›]
        rfl
      rw [hloop]
      split_ifs <;> first | rfl | omega

theorem arrayBit_copyWithSrcOffset_of_mod_ne_zero (dst src : Nat → UInt64) (shift nbits : UInt64)
    (hsh : shift % 64 ≠ 0) (i : Nat) (hi : i < nbits.toNat) :
    arrayBit (bitmapCopyWithSrcOffset dst src shift nbits) i = arrayBit src (shift.toNat + i) := by
  obtain ⟨hk0, hk64, hshift⟩ := shift_split hsh
  have h64 := toNat_sixtyFour_sub hk64
  unfold bitmapCopyWithSrcOffset
  rw [if_neg hsh]
  dsimp only
  obtain ⟨dst', rest, hrun, hrest, hbits⟩ := copyWithSrcOffsetLoop_spec hk0 hk64 src (nbits.toNat / 64 + 1) dst 0
    (bitWord shift.toNat) nbits (by omega)
  rw [hrun]
  dsimp only
  by_cases hlong : rest > 64 - shift % 64
  · -- the last word takes the bits left from `src[s]` and `src[s + 1]`
    have hl : 64 - (shift % 64).toNat < rest.toNat := by
      rw [← h64]
      exact UInt64.lt_iff_toNat_lt.mp hlong
    rw [if_pos hlong, arrayBit_update]
    split
    · rw [bit_srcOffsetTail hk0 hk64 src _ rest (by omega) hl _ (by omega)]
      congr 1
      omega
    · rw [hbits, if_pos (by omega)]
      congr 1
      omega
  · have hs : rest.toNat ≤ 64 - (shift % 64).toNat := by
      rw [← h64]
      exact UInt64.le_iff_toNat_le.mp (UInt64.not_lt.mp hlong)
    rw [if_neg hlong]
    split
    · -- the last word takes the bits left from `src[s]`
      rw [arrayBit_update]
      split
      · rw [bit_srcOffsetShortTail hk0 hk64 src _ rest hs _ (by omega)]
        congr 1
        omega
      · rw [hbits, if_pos (by omega)]
        congr 1
        omega
    · -- no bits left
      have hzero : rest.toNat = 0 := by
        rw [show rest = 0 from not_not.mp ‹_›]
        rfl
      rw [hbits, if_pos (by omega)]
      congr 1
      omega

/-! ### The fast path -/

/-- The `long` a caller makes of its `unsigned long` is that `unsigned
long` again where `bitmap_copy` compares and divides it. -/
theorem toNat_toLong_emod (n : UInt64) : (toLong n % 2 ^ 64).toNat = n.toNat := by
  have hn := n.toNat_lt
  unfold toLong
  split <;> omega

/-- `bitmap_copy(dst + d, src + s, (long)nbits)` while `nbits + 63` does
not wrap: below bit `64 d + nbits`, `dst` is kept under word `d` and
holds `src + s` from it. -/
theorem arrayBit_bitmapCopy (dst src : Nat → UInt64) (d s g : Nat) {nbits : UInt64} (hn : nbits.toNat + 63 < 2 ^ 64)
    (hg : g < 64 * d + nbits.toNat) :
    arrayBit (bitmapCopy dst d src s (toLong nbits)) g =
      if 64 * d ≤ g then arrayBit src (64 * s + (g - 64 * d)) else arrayBit dst g := by
  have hwords : bitsToLongs (toLong nbits) = (nbits.toNat + 63) / 64 := by
    unfold bitsToLongs
    rw [toNat_toLong_emod, show bitsPerLong = 64 from rfl, Nat.mod_eq_of_lt (by omega)]
    rfl
  unfold bitmapCopy
  split
  · -- one word: `nbits` is at most 64
    rename_i hsmall
    have h64 : nbits.toNat ≤ 64 := by
      simpa only [smallNbits, toNat_toLong_emod, decide_eq_true_eq, show bitsPerLong = 64 from rfl] using hsmall
    rw [arrayBit_update]
    split
    · rw [if_pos (by omega), arrayBit, show (64 * s + (g - 64 * d)) / 64 = s by omega,
        show (64 * s + (g - 64 * d)) % 64 = g % 64 by omega]
    · rw [if_neg (by omega)]
  · -- `BITS_TO_LONGS(nbits)` words
    show bit (if d ≤ g / 64 ∧ g / 64 < d + bitsToLongs (toLong nbits) then src (s + (g / 64 - d))
      else dst (g / 64)) (g % 64) = _
    rw [hwords]
    split
    · rw [if_pos (by omega), arrayBit, show (64 * s + (g - 64 * d)) / 64 = s + (g / 64 - d) by omega,
        show (64 * s + (g - 64 * d)) % 64 = g % 64 by omega]
    · rw [if_neg (by omega)]
      rfl

/-! ## The offset copies -/

theorem arrayBit_bitmapCopyWithDstOffset (dst src : Nat → UInt64) (shift nbits : UInt64)
    (hn : nbits.toNat + 63 < 2 ^ 64) (g : Nat) (hg : g < shift.toNat + nbits.toNat) :
    arrayBit (bitmapCopyWithDstOffset dst src shift nbits) g =
      if shift.toNat ≤ g then arrayBit src (g - shift.toNat) else arrayBit dst g := by
  by_cases hsh : shift % 64 = 0
  · -- the fast path copies whole words from `dst + BIT_WORD(shift)`
    have hw := shift_of_mod_eq_zero hsh
    unfold bitmapCopyWithDstOffset
    rw [if_pos hsh, arrayBit_bitmapCopy _ _ _ _ _ hn (by omega), ← hw, Nat.mul_zero, Nat.zero_add]
  · exact arrayBit_copyWithDstOffset_of_mod_ne_zero dst src shift nbits hsh g hg

theorem arrayBit_bitmapCopyWithSrcOffset (dst src : Nat → UInt64) (shift nbits : UInt64)
    (hn : nbits.toNat + 63 < 2 ^ 64) (i : Nat) (hi : i < nbits.toNat) :
    arrayBit (bitmapCopyWithSrcOffset dst src shift nbits) i = arrayBit src (shift.toNat + i) := by
  by_cases hsh : shift % 64 = 0
  · have hw := shift_of_mod_eq_zero hsh
    unfold bitmapCopyWithSrcOffset
    rw [if_pos hsh, arrayBit_bitmapCopy _ _ _ _ _ hn (by omega), if_pos (by omega), ← hw,
      Nat.mul_zero, Nat.sub_zero]
  · exact arrayBit_copyWithSrcOffset_of_mod_ne_zero dst src shift nbits hsh i hi

theorem bitmapCopyWithOffset_correct (dst dst' src : Nat → UInt64) (shift nbits : UInt64)
    (hn : nbits.toNat + 63 < 2 ^ 64) :
    (∀ i < nbits.toNat, arrayBit (bitmapCopyWithDstOffset dst src shift nbits) (shift.toNat + i) = arrayBit src i) ∧
    (∀ g < shift.toNat, arrayBit (bitmapCopyWithDstOffset dst src shift nbits) g = arrayBit dst g) ∧
    (∀ i < nbits.toNat, arrayBit (bitmapCopyWithSrcOffset dst' src shift nbits) i = arrayBit src (shift.toNat + i)) ∧
    (∀ i < nbits.toNat,
      arrayBit (bitmapCopyWithSrcOffset dst' (bitmapCopyWithDstOffset dst src shift nbits) shift nbits) i =
        arrayBit src i) := by
  have hdst := arrayBit_bitmapCopyWithDstOffset dst src shift nbits hn
  refine ⟨fun i hi => ?_, fun g hg => ?_, fun i hi => arrayBit_bitmapCopyWithSrcOffset dst' src shift nbits hn i hi,
    fun i hi => ?_⟩
  · rw [hdst _ (by omega), if_pos (by omega), Nat.add_sub_cancel_left]
  · rw [hdst _ (by omega), if_neg (by omega)]
  · rw [arrayBit_bitmapCopyWithSrcOffset _ _ shift nbits hn i hi, hdst _ (by omega), if_pos (by omega),
      Nat.add_sub_cancel_left]

theorem bitmapCopyWithOffset_correct_shift_three :
    (100 : UInt64).toNat + 63 < 2 ^ 64 ∧
    ((∀ i < (100 : UInt64).toNat, arrayBit (bitmapCopyWithDstOffset (fun _ => 0) (fun _ => 5) 3 100) ((3 : UInt64).toNat + i) = arrayBit (fun _ => 5) i) ∧
    (∀ g < (3 : UInt64).toNat, arrayBit (bitmapCopyWithDstOffset (fun _ => 0) (fun _ => 5) 3 100) g = arrayBit (fun _ => 0) g) ∧
    (∀ i < (100 : UInt64).toNat, arrayBit (bitmapCopyWithSrcOffset (fun _ => 0) (fun _ => 5) 3 100) i = arrayBit (fun _ => 5) ((3 : UInt64).toNat + i)) ∧
    (∀ i < (100 : UInt64).toNat,
      arrayBit (bitmapCopyWithSrcOffset (fun _ => 0) (bitmapCopyWithDstOffset (fun _ => 0) (fun _ => 5) 3 100) 3 100) i =
        arrayBit (fun _ => 5) i)) :=
  ⟨by decide, bitmapCopyWithOffset_correct (fun _ => 0) (fun _ => 0) (fun _ => 5) 3 100 (by decide)⟩

/-- `bitmap_copy_with_dst_offset(dst, src, 0, ULONG_MAX)`: `BITS_TO_LONGS`
wraps to 0 and the fast path copies nothing, so bit 0 of `src` does not
reach `dst`. -/
theorem bitmapCopyWithDstOffset_ulong_max_copies_nothing :
    0 < (0xFFFFFFFFFFFFFFFF : UInt64).toNat ∧ arrayBit (fun _ => (~~~0 : UInt64)) 0 = true ∧
      arrayBit (bitmapCopyWithDstOffset (fun _ => 0) (fun _ => ~~~0) 0 0xFFFFFFFFFFFFFFFF) ((0 : UInt64).toNat + 0) =
        false := by
  decide

end QemuFormal.Bitmap

/-
QemuFormal.Util.HbitmapInv — the representation invariant of an HBitmap.

`HBitmap.Inv` is the invariant as the header comment of `struct HBitmap`
states it: a bit of an upper level is set iff the word it stands for in
the level below is nonzero, the sentinel is set and is the only bit of
level 0 that no word backs, the last level has no bit at or past
`size`, and `count` is the number of bits of the last level.

The lengths of the levels follow from `size` alone: a level has one word
per 64 bits of the level below, and at least one (`wordsFor`);
`hbitmapAlloc_sizes` computes them for a new bitmap, and
`hbitmapAlloc_inv` shows that a new bitmap has the invariant.
-/
import QemuFormal.Util.Hbitmap
import QemuFormal.Lib.Bits
import QemuFormal.Lib.Blocks

namespace QemuFormal.Hbitmap

open Bits
open QemuFormal.Bitmap (bitsPerLong)

/-- The invariant of `struct HBitmap`. -/
structure HBitmap.Inv (hb : HBitmap) : Prop where
  summary : ∀ i < hbitmapLevels - 1, ∀ j < hb.sizes (i + 1), arrayBit (hb.levels i) j = (hb.levels (i + 1) j != 0)
  sentinel : bit (hb.levels 0 0) (bitsPerLong - 1) = true
  unbacked : ∀ j < bitsPerLong - 1, hb.sizes 1 ≤ j → bit (hb.levels 0 0) j = false
  tail : ∀ j < bitsPerLong * hb.sizes (hbitmapLevels - 1), hb.size ≤ j →
    arrayBit (hb.levels (hbitmapLevels - 1)) j = false
  count_eq : hb.count = (List.range hb.size).countP (arrayBit (hb.levels (hbitmapLevels - 1)))

/-- `MAX(BITS_TO_LONGS(bits), 1)`: the words a level needs for `bits`
bits of the level below. -/
def wordsFor (bits : Nat) : Nat := max ((bits + 63) / 64) 1

theorem wordsFor_eq_shift (bits : Nat) :
    max ((bits + bitsPerLong - 1) >>> bitsPerLevel) 1 = wordsFor bits := by
  rw [Nat.shiftRight_eq_div_pow]
  rfl

theorem hbitmapAllocLoop_apply (n size : Nat) (sizes : Nat → Nat) (i : Nat) :
    hbitmapAllocLoop n size sizes i = if i < n then (wordsFor^[n - i]) size else sizes i := by
  induction n generalizing size sizes with
  | zero => simp [hbitmapAllocLoop]
  | succ n ih =>
    rw [hbitmapAllocLoop, ih, wordsFor_eq_shift]
    -- the level set by this round is `n`; the rounds after it set the levels below
    by_cases hi : i < n
    · rw [if_pos hi, if_pos (by omega), show n + 1 - i = (n - i) + 1 by omega, Function.iterate_succ_apply]
    · rw [if_neg hi, Function.update_apply]
      by_cases hn : i = n
      · subst hn
        simp
      · rw [if_neg hn, if_neg (by omega)]

/-- The level lengths of `hbitmap_alloc`: level `i` has `wordsFor` applied
`7 - i` times to `size`. -/
theorem hbitmapAlloc_sizes (size granularity i : Nat) (hi : i < hbitmapLevels) :
    (hbitmapAlloc size granularity).sizes i =
      (wordsFor^[hbitmapLevels - i]) ((size + (1 <<< granularity) - 1) >>> granularity) := by
  show hbitmapAllocLoop hbitmapLevels _ _ i = _
  rw [hbitmapAllocLoop_apply, if_pos hi]

/-- `k` rounds of `wordsFor` bring `64^k * m` bits down to `m` words. -/
theorem iterate_wordsFor_le (k : Nat) {s m : Nat} (hs : s ≤ 64 ^ k * m) (hm : 1 ≤ m) : (wordsFor^[k]) s ≤ m := by
  induction k generalizing s with
  | zero => simpa using hs
  | succ k ih =>
    rw [Function.iterate_succ_apply]
    apply ih
    have hpos : 1 ≤ 64 ^ k * m := Nat.mul_le_mul (Nat.pow_pos (by decide)) hm
    rw [pow_succ, Nat.mul_comm (64 ^ k) 64, Nat.mul_assoc] at hs
    unfold wordsFor
    generalize 64 ^ k * m = M at hs hpos ⊢
    omega

theorem bit_hbitmapSentinel (j : Nat) : bit hbitmapSentinel j = (j == 63) := by
  by_cases hj : j < 64
  · have hall : ∀ j < 64, bit hbitmapSentinel j = (j == 63) := by decide
    exact hall j hj
  · rw [bit_of_ge (by omega), eq_comm, beq_eq_false_iff_ne]
    omega

theorem hbitmapAlloc_levels (size granularity i j : Nat) :
    (hbitmapAlloc size granularity).levels i j = if i = 0 ∧ j = 0 then hbitmapSentinel else 0 := by
  show setLevelWord (fun _ _ => 0) 0 0 hbitmapSentinel i j = _
  unfold setLevelWord
  by_cases hi : i = 0
  · subst hi
    by_cases hj : j = 0 <;> simp [hj]
  · simp [hi]

/-- Every word of a new bitmap is zero but word 0 of level 0, which holds
only the sentinel. -/
theorem arrayBit_hbitmapAlloc (size granularity i g : Nat) :
    arrayBit ((hbitmapAlloc size granularity).levels i) g = (i == 0 && g == 63) := by
  unfold arrayBit
  rw [hbitmapAlloc_levels]
  by_cases hi : i = 0 <;> by_cases hg : g / 64 = 0 <;> simp [hi, hg, bit_hbitmapSentinel] <;> omega

/-! ## The invariant the operations keep -/

theorem hbitmapLevels_sub_one : hbitmapLevels - 1 = 6 := rfl

/-- The invariant of `Inv` made strong enough to be kept: `size` counts
the groups of `orig_size` elements, the level lengths are those
`hbitmap_alloc` computes from `size`, every bit of a level that no word
of the level below backs is clear but the sentinel, and the bitmap has
at most `2^HBITMAP_LOG_MAX_SIZE` bits. -/
structure HBitmap.WF (hb : HBitmap) : Prop where
  size_eq : hb.size = (hb.origSize + (1 <<< hb.granularity) - 1) >>> hb.granularity
  size_le : hb.size ≤ 2 ^ hbitmapLogMaxSize
  sizes_last : hb.sizes (hbitmapLevels - 1) = wordsFor hb.size
  sizes_succ : ∀ i < hbitmapLevels - 1, hb.sizes i = wordsFor (hb.sizes (i + 1))
  summary : ∀ i < hbitmapLevels - 1, ∀ j < bitsPerLong * hb.sizes i,
    arrayBit (hb.levels i) j = ((decide (j < hb.sizes (i + 1)) && hb.levels (i + 1) j != 0) ||
      (i == 0 && j == bitsPerLong - 1))
  tail : ∀ j < bitsPerLong * hb.sizes (hbitmapLevels - 1), hb.size ≤ j →
    arrayBit (hb.levels (hbitmapLevels - 1)) j = false
  count_eq : hb.count = (List.range hb.size).countP (arrayBit (hb.levels (hbitmapLevels - 1)))

/-- The groups the bitmap holds: the set bits of the last level. -/
def HBitmap.dirty (hb : HBitmap) : Set Nat :=
  {x | x < hb.size ∧ arrayBit (hb.levels (hbitmapLevels - 1)) x = true}

theorem one_le_wordsFor (n : Nat) : 1 ≤ wordsFor n := by
  unfold wordsFor
  omega

theorem le_mul_wordsFor (n : Nat) : n ≤ 64 * wordsFor n := by
  unfold wordsFor
  omega

theorem div_lt_wordsFor {x n : Nat} (h : x < n) : x / 64 < wordsFor n := by
  unfold wordsFor
  omega

section WF

variable {hb : HBitmap}

theorem HBitmap.WF.sizes_eq_iterate (hwf : hb.WF) {d : Nat} (hd : d ≤ 6) :
    hb.sizes (6 - d) = (wordsFor^[d + 1]) hb.size := by
  induction d with
  | zero => exact hwf.sizes_last
  | succ d ih =>
    rw [Function.iterate_succ_apply', ← ih (by omega), hwf.sizes_succ (6 - (d + 1)) (by rw [hbitmapLevels_sub_one]; omega),
      show 6 - (d + 1) + 1 = 6 - d by omega]

/-- Level 1 has at most 32 words, so the sentinel bit of level 0 stands
for none. -/
theorem HBitmap.WF.sizes_one_le (hwf : hb.WF) : hb.sizes 1 ≤ 32 := by
  rw [hwf.sizes_eq_iterate (d := 5) (by omega)]
  exact iterate_wordsFor_le 6 (le_trans hwf.size_le (by decide)) (by decide)

theorem HBitmap.WF.sizes_zero (hwf : hb.WF) : hb.sizes 0 = 1 := by
  have hone := hwf.sizes_one_le
  rw [hwf.sizes_succ 0 (by decide), Nat.zero_add]
  unfold wordsFor
  omega

/-- The word of level `i + 1` that holds a group is a bit of level `i`
that a word backs. -/
theorem HBitmap.WF.div_lt_sizes (hwf : hb.WF) {x : Nat} (hx : x < hb.size) {d : Nat} (hd : d < 6) :
    x / 64 ^ (d + 1) < hb.sizes (6 - d) := by
  induction d with
  | zero => rw [show 6 - 0 = hbitmapLevels - 1 from rfl, hwf.sizes_last]; exact div_lt_wordsFor hx
  | succ d ih =>
    rw [Blocks.div_pow_succ, hwf.sizes_succ (6 - (d + 1)) (by rw [hbitmapLevels_sub_one]; omega),
      show 6 - (d + 1) + 1 = 6 - d by omega]
    exact div_lt_wordsFor (ih (by omega))

/-- Level `6 - d` holds the blocks of height `d` that the bitmap's groups
occupy, and the sentinel. -/
theorem HBitmap.WF.arrayBit_iff (hwf : hb.WF) {d q : Nat} (hd : d ≤ 6) (hq : q < bitsPerLong * hb.sizes (6 - d)) :
    arrayBit (hb.levels (6 - d)) q = true ↔ Blocks.Occupied hb.dirty 64 d q ∨ (d = 6 ∧ q = 63) := by
  induction d generalizing q with
  | zero =>
    rw [Blocks.occupied_zero]
    by_cases hqs : q < hb.size
    · simp [HBitmap.dirty, hqs, hbitmapLevels_sub_one]
    · rw [show 6 - 0 = hbitmapLevels - 1 from rfl, hwf.tail q hq (Nat.le_of_not_lt hqs)]
      simp [HBitmap.dirty, hqs]
  | succ d ih =>
    have hi : 6 - (d + 1) < hbitmapLevels - 1 := by rw [hbitmapLevels_sub_one]; omega
    rw [hwf.summary _ hi q hq, show 6 - (d + 1) + 1 = 6 - d by omega, Blocks.occupied_succ (by decide)]
    by_cases hqs : q < hb.sizes (6 - d)
    · -- the bit stands for a word of level `6 - d`, nonzero iff one of its blocks is occupied
      have hq63 : ¬(d + 1 = 6 ∧ q = 63) := by
        rintro ⟨hd6, rfl⟩
        have hone := hwf.sizes_one_le
        rw [show 6 - d = 1 by omega] at hqs
        omega
      have hword : hb.levels (6 - d) q ≠ 0 ↔ ∃ r < 64, Blocks.Occupied hb.dirty 64 d (64 * q + r) := by
        rw [ne_zero_iff_exists_bit]
        refine exists_congr fun r => and_congr_right fun hr => ?_
        rw [← arrayBit_word _ q r hr, ih (by omega) (by change 64 * q + r < 64 * hb.sizes (6 - d); omega)]
        exact or_iff_left fun h => by omega
      simp only [hqs, decide_true, Bool.true_and, Bool.or_eq_true, bne_iff_ne, Bool.and_eq_true,
        beq_iff_eq, hword, bitsPerLong]
      constructor
      · rintro (h | ⟨h0, rfl⟩)
        · exact Or.inl h
        · exact absurd ⟨by omega, rfl⟩ hq63
      · rintro (h | h)
        · exact Or.inl h
        · exact absurd h hq63
    · -- no group lies that far
      have hnone : ¬∃ r < 64, Blocks.Occupied hb.dirty 64 d (64 * q + r) := by
        rw [← Blocks.occupied_succ (by decide)]
        rintro ⟨x, hx, hxq⟩
        exact hqs (hxq ▸ hwf.div_lt_sizes hx.1 (by omega))
      simp only [hqs, decide_false, Bool.false_and, Bool.false_or, Bool.and_eq_true, beq_iff_eq, hnone,
        false_or, bitsPerLong]
      omega

/-- The invariant implies the one the header of `struct HBitmap` states. -/
theorem HBitmap.WF.inv (hwf : hb.WF) : hb.Inv := by
  have hone := hwf.sizes_one_le
  refine ⟨fun i hi j hj => ?_, ?_, fun j hj hj1 => ?_, hwf.tail, hwf.count_eq⟩
  · have hj' : j < bitsPerLong * hb.sizes i := by
      rw [hwf.sizes_succ i hi]
      exact lt_of_lt_of_le hj (le_mul_wordsFor _)
    rw [hwf.summary i hi j hj', decide_eq_true hj, Bool.true_and]
    -- the sentinel is past the words of level 1
    by_cases hi0 : i = 0
    · subst hi0
      have hj32 : j < 32 := lt_of_lt_of_le hj hone
      simp [show j ≠ bitsPerLong - 1 by change j ≠ 63; omega]
    · simp [hi0]
  · have h63 := (hwf.arrayBit_iff (d := 6) le_rfl (q := 63)
      (by rw [show 6 - 6 = 0 from rfl, hwf.sizes_zero]; decide)).mpr (Or.inr ⟨rfl, rfl⟩)
    rw [show (63 : Nat) = 64 * 0 + 63 from rfl, arrayBit_word _ 0 63 (by decide)] at h63
    exact h63
  · have hj0 : j < bitsPerLong * hb.sizes 0 := by rw [hwf.sizes_zero]; omega
    have hw : arrayBit (hb.levels 0) j = bit (hb.levels 0 0) j := by
      simpa using arrayBit_word (hb.levels 0) 0 j (by change j < 63 at hj; omega)
    rw [← hw, hwf.summary 0 (by decide) j hj0, Nat.zero_add, decide_eq_false (Nat.not_lt.mpr hj1)]
    simp only [Bool.false_and, Bool.false_or, beq_self_eq_true, Bool.true_and, beq_eq_false_iff_ne]
    change j < 63 at hj
    change ¬j = 63
    omega

end WF

theorem hbitmapAlloc_wf {size granularity : Nat}
    (hsize : (size + (1 <<< granularity) - 1) >>> granularity ≤ 2 ^ hbitmapLogMaxSize) :
    (hbitmapAlloc size granularity).WF := by
  refine ⟨rfl, hsize, ?_, fun i hi => ?_, fun i hi j _ => ?_, fun j _ _ => ?_, ?_⟩
  · rw [hbitmapAlloc_sizes _ _ _ (by decide)]
    rfl
  · rw [hbitmapAlloc_sizes _ _ _ (by omega), hbitmapAlloc_sizes _ _ _ (by omega),
      show hbitmapLevels - i = (hbitmapLevels - (i + 1)) + 1 by omega, Function.iterate_succ_apply']
  · -- the words of level `i + 1` are all zero
    rw [arrayBit_hbitmapAlloc, hbitmapAlloc_levels, if_neg (by omega)]
    simp only [bne_self_eq_false, Bool.and_false, Bool.false_or]
    rfl
  · rw [arrayBit_hbitmapAlloc]
    rfl
  · show 0 = _
    rw [eq_comm, List.countP_eq_zero]
    intro x _
    rw [arrayBit_hbitmapAlloc, show (hbitmapLevels - 1 == 0) = false from rfl, Bool.false_and]
    exact Bool.false_ne_true

/-- A new bitmap has the invariant. -/
theorem hbitmapAlloc_inv {size granularity : Nat}
    (hsize : (size + (1 <<< granularity) - 1) >>> granularity ≤ 2 ^ hbitmapLogMaxSize) :
    (hbitmapAlloc size granularity).Inv :=
  (hbitmapAlloc_wf hsize).inv

end QemuFormal.Hbitmap

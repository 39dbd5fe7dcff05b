/-
QemuFormal.Util.HbitmapTruncate — `hbitmap_truncate`: resizing a bitmap
keeps the invariant and keeps the groups below the new size.

The reallocation loop gives each level, from the last up, the length
`hbitmap_alloc` would give for the new size, and stops at the first level
whose length does not change; the lengths above it follow already
(`hbitmapTruncateLoop_eq`). Growing zeroes the new words; shrinking first
resets the groups past the new size, so that what the shorter arrays
drop is zero.

The invariant of the result is not proved field by field from the old
one: a bitmap with the sizes of the invariant has it as soon as each of
its backed bits is, level by level, the blocks its groups occupy
(`HBitmap.WF.of_arrayBit_iff`, the converse of `HBitmap.WF.arrayBit_iff`).
Growing and shrinking both keep that reading.

`hbitmapTruncate_spec`: from a bitmap with the invariant, and a new size
that passes the `assert`s of `hbitmap_truncate` (at most `INT64_MAX`
elements, in at most `2^HBITMAP_LOG_MAX_SIZE` groups), the call returns
a bitmap with the invariant, `orig_size` the new size, and the set groups
that lie below the new number of groups. Any other size fails an
`assert` (`hbitmapTruncate_eq_none_iff`).
-/
import QemuFormal.Util.HbitmapUpdate

namespace QemuFormal.Hbitmap

open Bits
open Function (update update_self update_of_ne)
open QemuFormal.Bitmap (bitsPerLong)

/-! ## Level lengths -/

section Sizes

theorem wordsFor_mono {m n : Nat} (h : m ≤ n) : wordsFor m ≤ wordsFor n := by
  unfold wordsFor
  omega

theorem iterate_wordsFor_mono (k : Nat) {m n : Nat} (h : m ≤ n) : (wordsFor^[k]) m ≤ (wordsFor^[k]) n := by
  induction k generalizing m n with
  | zero => exact h
  | succ k ih =>
    rw [Function.iterate_succ_apply, Function.iterate_succ_apply]
    exact ih (wordsFor_mono h)

/-- Group `x` of `n` lies in word `x / 64^(d+1)` of the level `d + 1` above
the last, which has `wordsFor` applied `d + 1` times to `n` words. -/
theorem div_pow_lt_iterate_wordsFor {x n : Nat} (hx : x < n) (d : Nat) :
    x / 64 ^ (d + 1) < (wordsFor^[d + 1]) n := by
  induction d with
  | zero => simpa using div_lt_wordsFor hx
  | succ d ih =>
    rw [Blocks.div_pow_succ, Function.iterate_succ_apply']
    exact div_lt_wordsFor ih

/-- Level lengths that follow one another up to level `n` are `wordsFor`
applied to the length of level `n`. -/
theorem eq_iterate_of_chain {S : Nat → Nat} {n : Nat} (hchain : ∀ k, k + 1 ≤ n → S k = wordsFor (S (k + 1))) :
    ∀ d ≤ n, S (n - d) = (wordsFor^[d]) (S n) := by
  intro d
  induction d with
  | zero => intro _; rfl
  | succ d ih =>
    intro hd
    rw [hchain (n - (d + 1)) (by omega), show n - (d + 1) + 1 = n - d by omega, ih (by omega),
      Function.iterate_succ_apply']

end Sizes

/-! ## The invariant from the levels' reading -/

section OfBits

variable {hb : HBitmap}

/-- The converse of `HBitmap.WF.arrayBit_iff`: a bitmap whose size counts
the groups of `orig_size`, whose level lengths are those `hbitmap_alloc`
gives, and whose backed bits are, level by level, the blocks its groups
occupy and the sentinel, has the invariant once `count` counts its
groups. -/
theorem HBitmap.WF.of_arrayBit_iff
    (hsize : hb.size = (hb.origSize + (1 <<< hb.granularity) - 1) >>> hb.granularity)
    (hle : hb.size ≤ 2 ^ hbitmapLogMaxSize)
    (hsizes : ∀ d ≤ 6, hb.sizes (6 - d) = (wordsFor^[d + 1]) hb.size)
    (hbits : ∀ d ≤ 6, ∀ q < bitsPerLong * hb.sizes (6 - d),
      arrayBit (hb.levels (6 - d)) q = true ↔ Blocks.Occupied hb.dirty 64 d q ∨ (d = 6 ∧ q = 63))
    (hcount : hb.count = (List.range hb.size).countP (arrayBit (hb.levels (hbitmapLevels - 1)))) :
    hb.WF := by
  refine ⟨hsize, hle, hsizes 0 (Nat.zero_le 6), fun i hi => ?_, fun i hi j hj => ?_, fun j hj hsj => ?_, hcount⟩
  · have hi6 : i < 6 := hi
    have h1 := hsizes (6 - i) (by omega)
    have h2 := hsizes (5 - i) (by omega)
    rw [Nat.sub_sub_self (by omega)] at h1
    rw [show 6 - (5 - i) = i + 1 by omega, show 5 - i + 1 = 6 - i by omega] at h2
    rw [h1, h2, show 6 - i + 1 = (6 - i) + 1 from rfl, Function.iterate_succ_apply']
  · -- level `i` is the height `d + 1`, the level below it the height `d`
    have hi6 : i < 6 := hi
    obtain ⟨d, hd, rfl⟩ : ∃ d, d < 6 ∧ i = 6 - (d + 1) := ⟨5 - i, by omega, by omega⟩
    rw [show 6 - (d + 1) + 1 = 6 - d by omega]
    rw [Bool.eq_iff_iff, hbits (d + 1) hd j hj, Blocks.occupied_succ (by decide)]
    by_cases hjs : j < hb.sizes (6 - d)
    · -- a backed word: nonzero iff one of its blocks is occupied
      have hword : hb.levels (6 - d) j ≠ 0 ↔ ∃ r < 64, Blocks.Occupied hb.dirty 64 d (64 * j + r) := by
        rw [ne_zero_iff_arrayBit]
        refine exists_congr fun r => and_congr_right fun hr => ?_
        rw [hbits d (by omega) _ (by change 64 * j + r < 64 * hb.sizes (6 - d); omega)]
        exact or_iff_left fun h => by omega
      -- level 1 has at most 32 words, so the sentinel is not among them
      have h32 : hb.sizes 1 ≤ 32 := by
        rw [hsizes 5 (by omega)]
        exact iterate_wordsFor_le 6 (le_trans hle (by decide)) (by decide)
      have hsent : ¬(6 - (d + 1) = 0 ∧ j = bitsPerLong - 1) := by
        rintro ⟨h0, rfl⟩
        rw [show 6 - d = 1 by omega] at hjs
        change 63 < hb.sizes 1 at hjs
        omega
      simp only [hjs, decide_true, Bool.true_and, Bool.or_eq_true, bne_iff_ne, Bool.and_eq_true, beq_iff_eq,
        hword, hsent, or_false]
      exact or_iff_left fun h => hsent ⟨by rw [h.1], h.2⟩
    · -- no group lies that far
      have hnone : ¬∃ r < 64, Blocks.Occupied hb.dirty 64 d (64 * j + r) := by
        rw [← Blocks.occupied_succ (by decide)]
        rintro ⟨x, hx, hxj⟩
        have hlt := div_pow_lt_iterate_wordsFor hx.1 d
        rw [← hsizes d (by omega), hxj] at hlt
        exact hjs hlt
      simp only [hjs, decide_false, Bool.false_and, Bool.false_or, Bool.and_eq_true, beq_iff_eq, hnone,
        false_or, bitsPerLong]
      omega
  · -- past `size` no group is set
    rw [Bool.eq_false_iff]
    intro h
    rw [hbitmapLevels_sub_one] at h
    have := (hbits 0 (Nat.zero_le 6) j hj).mp h
    rw [Blocks.occupied_zero] at this
    rcases this with hx | ⟨h0, _⟩
    · exact absurd hx.1 (Nat.not_lt.mpr hsj)
    · omega

end OfBits

/-! ## The reallocation loop -/

section Loop

/-- The reallocation loop of `hbitmap_truncate` from level `n - 1` up, for
`size` bits of level `n`, on level lengths that follow one another below
`n`: each level below `n` gets the length `hbitmap_alloc` gives, and when
growing its new words are zero. -/
theorem hbitmapTruncateLoop_eq (shrink : Bool) (n : Nat) : ∀ (size : Nat) (hb : HBitmap),
    (∀ k, k + 1 < n → hb.sizes k = wordsFor (hb.sizes (k + 1))) →
    hbitmapTruncateLoop shrink n size hb =
      { hb with
        sizes := fun k => if k < n then (wordsFor^[n - k]) size else hb.sizes k
        levels := fun k j =>
          if k < n ∧ shrink = false ∧ hb.sizes k ≤ j ∧ j < (wordsFor^[n - k]) size then 0 else hb.levels k j } := by
  induction n with
  | zero =>
    intro size hb _
    simp [hbitmapTruncateLoop]
  | succ n ih =>
    intro size hb hchain
    have hw : max ((size + bitsPerLong - 1) / bitsPerLong) 1 = wordsFor size := rfl
    have hS := eq_iterate_of_chain (S := hb.sizes) (n := n) fun k hk => hchain k (by omega)
    simp only [hbitmapTruncateLoop, hw]
    by_cases heq : hb.sizes n = wordsFor size
    · -- level `n` keeps its length, and so do those above it
      rw [if_pos heq]
      have hk : ∀ k < n + 1, hb.sizes k = (wordsFor^[n + 1 - k]) size := by
        intro k hk
        have h := hS (n - k) (by omega)
        rw [Nat.sub_sub_self (by omega), heq] at h
        rw [h, show n + 1 - k = n - k + 1 by omega, Function.iterate_succ_apply]
      cases hb
      dsimp only at hk ⊢
      congr 1
      · funext k j
        split_ifs with h
        · have := hk k h.1
          omega
        · rfl
      · funext k
        split_ifs with h
        · exact hk k h
        · rfl
    · -- level `n` is reallocated by this round, those above it by the rounds after
      rw [if_neg heq, ih]
      · congr 1
        · funext k j
          rcases lt_trichotomy k n with hk | rfl | hk
          · simp [update_of_ne hk.ne, hk, show k < n + 1 by omega, show n + 1 - k = n - k + 1 by omega,
              Function.iterate_succ_apply]
          · cases shrink <;> simp
          · simp [update_of_ne hk.ne', show ¬k < n by omega, show ¬k < n + 1 by omega]
        · funext k
          rcases lt_trichotomy k n with hk | rfl | hk
          · simp [hk, show k < n + 1 by omega, show n + 1 - k = n - k + 1 by omega, Function.iterate_succ_apply]
          · simp
          · simp [update_of_ne hk.ne', show ¬k < n by omega, show ¬k < n + 1 by omega]
      · intro k hk
        simp only
        rw [update_of_ne (by omega), update_of_ne (by omega)]
        exact hchain k (by omega)

end Loop

/-! ## Reallocating the levels of a bitmap with the invariant -/

section Resize

variable {hb : HBitmap} {shrink : Bool} {n size : Nat}

/-- Group counts over two prefixes agree when they count the same groups. -/
theorem countP_range_congr {p q : Nat → Bool} {m k : Nat} (h : ∀ x, x < m ∧ p x = true ↔ x < k ∧ q x = true) :
    (List.range m).countP p = (List.range k).countP q := by
  have hcard : ∀ (m : Nat) (r : Nat → Bool),
      (List.range m).countP r = ((Finset.range m).filter fun x => r x = true).card := by
    intro m r
    rw [Finset.card_def, Finset.filter_val, Finset.range_val, ← Multiset.countP_eq_card_filter, Multiset.range,
      Multiset.coe_countP]
    simp only [Bool.decide_eq_true]
  rw [hcard, hcard]
  congr 1
  ext x
  simp only [Finset.mem_filter, Finset.mem_range]
  exact h x

/-- The word of level `6 - d` that holds an occupied block of height `d`,
or the sentinel, is backed. -/
theorem HBitmap.WF.div_lt_sizes_of_occupied (hwf : hb.WF) {d q : Nat} (hd : d ≤ 6)
    (h : Blocks.Occupied hb.dirty 64 d q ∨ (d = 6 ∧ q = 63)) : q / 64 < hb.sizes (6 - d) := by
  rw [hwf.sizes_eq_iterate hd]
  rcases h with ⟨x, hx, rfl⟩ | ⟨rfl, rfl⟩
  · rw [← Blocks.div_pow_succ]
    exact div_pow_lt_iterate_wordsFor hx.1 d
  · rw [Function.iterate_succ_apply']
    exact lt_of_lt_of_le (by decide) (one_le_wordsFor _)

/-- The reallocation loop run on a bitmap with the invariant, for `size`
groups: level `k` gets `wordsFor` applied `7 - k` times to `size`. -/
theorem hbitmapTruncateLoop_resize (hwf : hb.WF) (shrink : Bool) (n size : Nat) :
    hbitmapTruncateLoop shrink hbitmapLevels size { hb with origSize := n, size := size } =
      { hb with
        origSize := n
        size := size
        sizes := fun k => if k < hbitmapLevels then (wordsFor^[hbitmapLevels - k]) size else hb.sizes k
        levels := fun k j => if k < hbitmapLevels ∧ shrink = false ∧ hb.sizes k ≤ j ∧
          j < (wordsFor^[hbitmapLevels - k]) size then 0 else hb.levels k j } :=
  hbitmapTruncateLoop_eq shrink hbitmapLevels size _ fun k hk =>
    hwf.sizes_succ k (by rw [hbitmapLevels_sub_one]; change k + 1 < 7 at hk; omega)

theorem hbitmapTruncateLoop_sizes (hwf : hb.WF) {d : Nat} (hd : d ≤ 6) :
    (hbitmapTruncateLoop shrink hbitmapLevels size { hb with origSize := n, size := size }).sizes (6 - d) =
      (wordsFor^[d + 1]) size := by
  rw [hbitmapTruncateLoop_resize hwf]
  dsimp only
  rw [show hbitmapLevels = 7 from rfl, if_pos (show 6 - d < 7 by omega), show 7 - (6 - d) = d + 1 by omega]

/-- Where growing reaches, the reallocated level reads zero; elsewhere it
reads as before. -/
theorem arrayBit_hbitmapTruncateLoop (hwf : hb.WF) {d : Nat} (hd : d ≤ 6) (q : Nat) :
    arrayBit ((hbitmapTruncateLoop shrink hbitmapLevels size { hb with origSize := n, size := size }).levels (6 - d)) q =
      (!decide (shrink = false ∧ hb.sizes (6 - d) ≤ q / 64 ∧ q / 64 < (wordsFor^[d + 1]) size) &&
        arrayBit (hb.levels (6 - d)) q) := by
  rw [hbitmapTruncateLoop_resize hwf]
  dsimp only
  rw [show hbitmapLevels = 7 from rfl, show 7 - (6 - d) = d + 1 by omega]
  unfold arrayBit
  dsimp only
  by_cases hz : shrink = false ∧ hb.sizes (6 - d) ≤ q / 64 ∧ q / 64 < (wordsFor^[d + 1]) size
  · rw [if_pos ⟨show 6 - d < 7 by omega, hz⟩, decide_eq_true hz, bit_zero]
    rfl
  · rw [if_neg fun h => hz h.2, decide_eq_false hz]
    rfl

/-- Within the new lengths, the reallocated levels read, level by level,
the blocks the old groups occupy: the words growing adds hold none, and
shrinking keeps only old words. -/
theorem arrayBit_hbitmapTruncateLoop_iff (hwf : hb.WF) (hshrink : shrink = true → size ≤ hb.size)
    {d q : Nat} (hd : d ≤ 6) (hq : q < bitsPerLong * (wordsFor^[d + 1]) size) :
    arrayBit ((hbitmapTruncateLoop shrink hbitmapLevels size { hb with origSize := n, size := size }).levels (6 - d)) q = true ↔
      Blocks.Occupied hb.dirty 64 d q ∨ (d = 6 ∧ q = 63) := by
  rw [arrayBit_hbitmapTruncateLoop hwf hd]
  have hqw : q / 64 < (wordsFor^[d + 1]) size := by change q < 64 * _ at hq; omega
  by_cases hz : shrink = false ∧ hb.sizes (6 - d) ≤ q / 64
  · -- a word that growing adds: zero, and no block nor the sentinel lies there
    rw [decide_eq_true ⟨hz.1, hz.2, hqw⟩, Bool.not_true, Bool.false_and]
    simp only [Bool.false_eq_true, false_iff]
    exact fun h => absurd (hwf.div_lt_sizes_of_occupied hd h) (Nat.not_lt.mpr hz.2)
  · -- an old word: growing, it is below the old length; shrinking, the new length is shorter
    rw [decide_eq_false fun h => hz ⟨h.1, h.2.1⟩, Bool.not_false, Bool.true_and]
    have hold : q < bitsPerLong * hb.sizes (6 - d) := by
      rw [hwf.sizes_eq_iterate hd]
      cases shrink with
      | false =>
        have : q / 64 < hb.sizes (6 - d) := Nat.lt_of_not_le fun h => hz ⟨rfl, h⟩
        rw [hwf.sizes_eq_iterate hd] at this
        change q < 64 * _
        omega
      | true => exact lt_of_lt_of_le hq (Nat.mul_le_mul_left _ (iterate_wordsFor_mono _ (hshrink rfl)))
    exact hwf.arrayBit_iff hd hold

/-- When no group lies past the new size, the reallocation loop keeps the
groups. -/
theorem dirty_hbitmapTruncateLoop (hwf : hb.WF) (hshrink : shrink = true → size ≤ hb.size)
    (hdirty : hb.dirty ⊆ Set.Iio size) :
    (hbitmapTruncateLoop shrink hbitmapLevels size { hb with origSize := n, size := size }).dirty = hb.dirty := by
  have hsize : (hbitmapTruncateLoop shrink hbitmapLevels size { hb with origSize := n, size := size }).size = size := by
    rw [hbitmapTruncateLoop_resize hwf]
  ext x
  have hbit := @arrayBit_hbitmapTruncateLoop_iff hb shrink n size hwf hshrink 0 x (Nat.zero_le 6)
  rw [Blocks.occupied_zero] at hbit
  simp only [HBitmap.dirty, Set.mem_ofPred_eq, hsize, hbitmapLevels_sub_one]
  constructor
  · rintro ⟨hx, hxb⟩
    have hq : x < bitsPerLong * (wordsFor^[0 + 1]) size := lt_of_lt_of_le hx (le_mul_wordsFor _)
    rcases (hbit hq).mp hxb with h | ⟨h, _⟩
    · exact h
    · omega
  · intro hx
    have hxs : x < size := hdirty hx
    exact ⟨hxs, (hbit (lt_of_lt_of_le hxs (le_mul_wordsFor _))).mpr (Or.inl hx)⟩

/-- The reallocation loop rebuilds the invariant for the new size, when
shrinking has left no group past it. -/
theorem hbitmapTruncateLoop_wf (hwf : hb.WF) (hshrink : shrink = true → size ≤ hb.size)
    (hdirty : hb.dirty ⊆ Set.Iio size) (hle : size ≤ 2 ^ hbitmapLogMaxSize)
    (hsize : size = (n + (1 <<< hb.granularity) - 1) >>> hb.granularity) :
    (hbitmapTruncateLoop shrink hbitmapLevels size { hb with origSize := n, size := size }).WF := by
  have hT := hbitmapTruncateLoop_resize hwf shrink n size
  have hdirty' := @dirty_hbitmapTruncateLoop hb shrink n size hwf hshrink hdirty
  refine HBitmap.WF.of_arrayBit_iff (by rw [hT]; exact hsize) (by rw [hT]; exact hle) (fun d hd => ?_)
    (fun d hd q hq => ?_) ?_
  · rw [hbitmapTruncateLoop_sizes hwf hd, hT]
  · rw [hbitmapTruncateLoop_sizes hwf hd] at hq
    rw [hdirty']
    exact arrayBit_hbitmapTruncateLoop_iff hwf hshrink hd hq
  · -- the count: the same groups, counted over the new size
    have hcount : (hbitmapTruncateLoop shrink hbitmapLevels size { hb with origSize := n, size := size }).count =
        hb.count := by
      rw [hT]
    rw [hcount]
    exact hwf.count_eq.trans (countP_range_congr fun x => (Set.ext_iff.mp hdirty' x).symm)

end Resize

/-! ## `hbitmap_truncate` -/

section Truncate

variable {hb : HBitmap}

/-- `hbitmap_reset` reads nothing of `orig_size`. -/
theorem hbitmapReset_with_origSize (hb : HBitmap) (n start count : Nat) :
    hbitmapReset { hb with origSize := n } start count = { hbitmapReset hb start count with origSize := n } := by
  unfold hbitmapReset
  split
  · rfl
  · rw [@hbCountBetween_congr hb { hb with origSize := n } rfl rfl rfl]

/-- The range `hbitmap_truncate` resets before shrinking is not empty, and
its groups are those from the new number of groups to the last old one. -/
theorem truncate_reset_range {n g S : Nat} (hlt : (n + (1 <<< g) - 1) >>> g < S) :
    0 < (S <<< g) - (n + (1 <<< g) - 1) / (1 <<< g) * (1 <<< g) ∧
      ((n + (1 <<< g) - 1) / (1 <<< g) * (1 <<< g)) >>> g = (n + (1 <<< g) - 1) >>> g ∧
      ((n + (1 <<< g) - 1) / (1 <<< g) * (1 <<< g) +
        ((S <<< g) - (n + (1 <<< g) - 1) / (1 <<< g) * (1 <<< g)) - 1) >>> g = S - 1 := by
  simp only [Nat.shiftRight_eq_div_pow, Nat.shiftLeft_eq, Nat.one_mul] at hlt ⊢
  have hG : 0 < 2 ^ g := Nat.two_pow_pos g
  generalize 2 ^ g = G at hG hlt ⊢
  generalize (n + G - 1) / G = T at hlt ⊢
  -- the new groups end at `T * G`, the old ones at `S * G`
  have hTS : T * G < S * G := Nat.mul_lt_mul_of_pos_right hlt hG
  have hlast : (S * G - 1) / G = S - 1 := by
    apply Nat.div_eq_of_lt_le
    · rw [Nat.sub_one_mul]
      omega
    · rw [Nat.sub_add_cancel (by omega)]
      omega
  refine ⟨by omega, Nat.mul_div_cancel T hG, ?_⟩
  rw [Nat.add_sub_cancel' hTS.le, hlast]

section Asserts

variable {n : Nat} (hmax : n ≤ int64Max)
  (hle : (n + (1 <<< hb.granularity) - 1) >>> hb.granularity ≤ 2 ^ hbitmapLogMaxSize)
include hmax hle

/-- The same number of groups: only `orig_size` changes. -/
theorem hbitmapTruncate_of_eq (h : (n + (1 <<< hb.granularity) - 1) >>> hb.granularity = hb.size) :
    hbitmapTruncate hb n = some { hb with origSize := n } := by
  unfold hbitmapTruncate
  dsimp only
  rw [if_neg (not_not.mpr hmax), Nat.one_shiftLeft hbitmapLogMaxSize, if_neg (not_not.mpr hle), if_pos h]

/-- Growing: the levels are reallocated with their new words zero. -/
theorem hbitmapTruncate_of_gt (h : hb.size < (n + (1 <<< hb.granularity) - 1) >>> hb.granularity) :
    hbitmapTruncate hb n = some (hbitmapTruncateLoop false hbitmapLevels
      ((n + (1 <<< hb.granularity) - 1) >>> hb.granularity)
      { hb with origSize := n, size := (n + (1 <<< hb.granularity) - 1) >>> hb.granularity }) := by
  unfold hbitmapTruncate
  dsimp only
  rw [if_neg (not_not.mpr hmax), Nat.one_shiftLeft hbitmapLogMaxSize, if_neg (not_not.mpr hle), if_neg (by omega),
    decide_eq_false (by omega)]
  rfl

/-- Shrinking: the groups from the first whole one past the new size are
reset first, then the levels are reallocated. The range reset is not
empty, so its `assert(fix_count)` holds. -/
theorem hbitmapTruncate_of_lt (h : (n + (1 <<< hb.granularity) - 1) >>> hb.granularity < hb.size) :
    hbitmapTruncate hb n = some (hbitmapTruncateLoop true hbitmapLevels
      ((n + (1 <<< hb.granularity) - 1) >>> hb.granularity)
      { hbitmapReset hb ((n + (1 <<< hb.granularity) - 1) / (1 <<< hb.granularity) * (1 <<< hb.granularity))
          ((hb.size <<< hb.granularity) - (n + (1 <<< hb.granularity) - 1) / (1 <<< hb.granularity) *
            (1 <<< hb.granularity)) with
        origSize := n, size := (n + (1 <<< hb.granularity) - 1) >>> hb.granularity }) := by
  have hfix := (truncate_reset_range h).1
  unfold hbitmapTruncate
  dsimp only
  rw [if_neg (not_not.mpr hmax), Nat.one_shiftLeft hbitmapLogMaxSize, if_neg (not_not.mpr hle), if_neg (by omega),
    decide_eq_true h, if_pos rfl, if_neg (Nat.pos_iff_ne_zero.mp hfix), hbitmapReset_with_origSize]
  rfl

end Asserts

/-- `hbitmap_truncate` fails an `assert` exactly for a size past
`INT64_MAX` or of more than `2^HBITMAP_LOG_MAX_SIZE` groups. -/
theorem hbitmapTruncate_eq_none_iff (n : Nat) :
    hbitmapTruncate hb n = none ↔
      ¬n ≤ int64Max ∨ 2 ^ hbitmapLogMaxSize < (n + (1 <<< hb.granularity) - 1) >>> hb.granularity := by
  constructor
  · intro hnone
    by_contra hok
    rw [not_or, not_not, Nat.not_lt] at hok
    obtain ⟨hmax, hle⟩ := hok
    rcases lt_trichotomy ((n + (1 <<< hb.granularity) - 1) >>> hb.granularity) hb.size with hlt | heq | hgt
    · rw [hbitmapTruncate_of_lt hmax hle hlt] at hnone
      cases hnone
    · rw [hbitmapTruncate_of_eq hmax hle heq] at hnone
      cases hnone
    · rw [hbitmapTruncate_of_gt hmax hle hgt] at hnone
      cases hnone
  · intro hbad
    unfold hbitmapTruncate
    dsimp only
    rcases hbad with hmax | hle
    · rw [if_pos hmax]
    · by_cases hmax : n ≤ int64Max
      · rw [if_neg (not_not.mpr hmax), Nat.one_shiftLeft hbitmapLogMaxSize, if_pos (Nat.not_le.mpr hle)]
      · rw [if_pos hmax]

/-- Groups below `b + 1` that are not in `[a, b]` are those below `a`. -/
theorem diff_Icc_eq_inter_Iio {D : Set Nat} {a b : Nat} (h : D ⊆ Set.Iio (b + 1)) :
    D \ Set.Icc a b = D ∩ Set.Iio a := by
  ext x
  simp only [Set.mem_sdiff, Set.mem_Icc, Set.mem_inter_iff, Set.mem_Iio, not_and, Nat.not_le]
  constructor
  · rintro ⟨hx, hxab⟩
    have : x < b + 1 := h hx
    exact ⟨hx, Nat.lt_of_not_le fun hax => by have := hxab hax; omega⟩
  · rintro ⟨hx, hxa⟩
    exact ⟨hx, fun hax => absurd hax (Nat.not_le.mpr hxa)⟩

/-- `hbitmap_truncate(hb, size)`, for a new size that passes the code's
`assert`s (at most `INT64_MAX` elements in at most
`2^HBITMAP_LOG_MAX_SIZE` groups), returns and keeps the invariant: the
bitmap has `orig_size` the new size, and holds the groups it held below
the new number of groups. -/
theorem hbitmapTruncate_spec (hwf : hb.WF) (n : Nat) (hmax : n ≤ int64Max)
    (hle : (n + (1 <<< hb.granularity) - 1) >>> hb.granularity ≤ 2 ^ hbitmapLogMaxSize) :
    ∃ hb', hbitmapTruncate hb n = some hb' ∧ hb'.WF ∧ hb'.origSize = n ∧
      hb'.dirty = hb.dirty ∩ Set.Iio ((n + (1 <<< hb.granularity) - 1) >>> hb.granularity) := by
  have hsub : hb.dirty ⊆ Set.Iio hb.size := fun x hx => hx.1
  rcases lt_trichotomy ((n + (1 <<< hb.granularity) - 1) >>> hb.granularity) hb.size with hlt | heq | hgt
  · -- shrinking: the groups past the new size are reset first, so the
    -- shorter levels drop only zero words
    obtain ⟨hc, hfirst, hlast⟩ := truncate_reset_range hlt
    have hl : ((n + (1 <<< hb.granularity) - 1) / (1 <<< hb.granularity) * (1 <<< hb.granularity) +
        ((hb.size <<< hb.granularity) - (n + (1 <<< hb.granularity) - 1) / (1 <<< hb.granularity) *
          (1 <<< hb.granularity)) - 1) >>> hb.granularity < hb.size := by
      rw [hlast]
      exact Nat.sub_lt (Nat.zero_lt_of_lt hlt) Nat.one_pos
    have hR := hbitmapReset_wf hwf hl
    have hD := dirty_hbitmapReset hwf hc hl
    rw [hfirst, hlast, diff_Icc_eq_inter_Iio (by rw [Nat.sub_add_cancel (by omega)]; exact hsub)] at hD
    have hshrink : true = true → (n + (1 <<< hb.granularity) - 1) >>> hb.granularity ≤ hb.size := fun _ => hlt.le
    rw [hbitmapTruncate_of_lt hmax hle hlt]
    refine ⟨_, rfl, hbitmapTruncateLoop_wf hR (by simpa using hshrink) (hD ▸ Set.inter_subset_right) hle (by simp), ?_, ?_⟩
    · rw [hbitmapTruncateLoop_resize hR]
    · rw [dirty_hbitmapTruncateLoop hR (by simpa using hshrink) (hD ▸ Set.inter_subset_right), hD]
  · -- the same number of groups: only `orig_size` changes
    rw [hbitmapTruncate_of_eq hmax hle heq, heq, Set.inter_eq_left.mpr hsub]
    exact ⟨_, rfl, ⟨heq.symm, hwf.size_le, hwf.sizes_last, hwf.sizes_succ, hwf.summary, hwf.tail, hwf.count_eq⟩, rfl, rfl⟩
  · -- growing: every group is below the new size, and the new words are zero
    have hdirty : hb.dirty ⊆ Set.Iio ((n + (1 <<< hb.granularity) - 1) >>> hb.granularity) :=
      hsub.trans (Set.Iio_subset_Iio hgt.le)
    rw [hbitmapTruncate_of_gt hmax hle hgt, Set.inter_eq_left.mpr hdirty]
    refine ⟨_, rfl, hbitmapTruncateLoop_wf hwf (fun h => absurd h Bool.false_ne_true) hdirty hle rfl, ?_,
      dirty_hbitmapTruncateLoop hwf (fun h => absurd h Bool.false_ne_true) hdirty⟩
    rw [hbitmapTruncateLoop_resize hwf]

theorem hbitmapTruncate_spec_shrink :
    (hbitmapSet (hbitmapAlloc 256 2) 100 20).WF ∧ 110 ≤ int64Max ∧ (110 + (1 <<< 2) - 1) >>> 2 ≤ 2 ^ hbitmapLogMaxSize ∧
      ∃ hb', hbitmapTruncate (hbitmapSet (hbitmapAlloc 256 2) 100 20) 110 = some hb' ∧ hb'.WF ∧ hb'.origSize = 110 ∧
        hb'.dirty = (hbitmapSet (hbitmapAlloc 256 2) 100 20).dirty ∩ Set.Iio ((110 + (1 <<< 2) - 1) >>> 2) := by
  have hwf : (hbitmapSet (hbitmapAlloc 256 2) 100 20).WF := hbitmapSet_wf (hbitmapAlloc_wf (by decide)) (by decide)
  have hmax : 110 ≤ int64Max := by decide
  have hle : (110 + (1 <<< 2) - 1) >>> 2 ≤ 2 ^ hbitmapLogMaxSize := by decide
  exact ⟨hwf, hmax, hle, hbitmapTruncate_spec hwf 110 hmax hle⟩

end Truncate

end QemuFormal.Hbitmap

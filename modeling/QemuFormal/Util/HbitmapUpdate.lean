/-
QemuFormal.Util.HbitmapUpdate — `hbitmap_set`, `hbitmap_reset` and the
walks over a range of groups that they rest on.

`hb_set_between` sets the bits of a range of groups on the last level
and, on each level above, the bits of the words it made nonzero; where a
word had a bit already (`hbSetLevel_snd`), the levels above had theirs.
`arrayBit_hbSetBetween` says which bits it leaves set, and with
`hbitmapGet_hbitmapSet` an element reads set after `hbitmap_set` iff it
was set before or its group is in the range. `hb_reset_between` clears
the range on the last level and then, on each level above, recomputes
the bits over the words it changed from what those words now hold
(`ResetSpec`, `hbResetBetween_resetSpec`). `hbitmap_set` and
`hbitmap_reset` keep the invariant of `HBitmap.WF`, `count` included:
`hb_count_between` counts the set groups of a range
(`hbCountBetween_eq`), which `hbitmap_set` adds back and
`hbitmap_reset` takes away.

`hbitmap_iter_next_word` gives the next nonzero word, masked to the
elements not yet visited (`hbitmapIterNextWord_spec`).
-/
import QemuFormal.Util.HbitmapSearch

namespace QemuFormal.Hbitmap

open Bits Blocks
open Function (update update_self update_of_ne)
open QemuFormal.Bitmap (bitsPerLong)

/-! ## One level of `hb_set_between` -/

section SetLevel

theorem bit_hbSetElem (elem : UInt64) {start last : Nat} (h : start % 64 ≤ last % 64) (j : Nat) :
    bit (hbSetElem elem start last).1 j = (bit elem j || decide (start % 64 ≤ j ∧ j ≤ last % 64)) := by
  simp only [hbSetElem, and_bitsPerLong_sub_one, bit_or, bit_rangeMask h (Nat.mod_lt _ (by decide))]

/-- A word `hb_set_elem` leaves as it was already had the bits it sets,
so it was not zero. -/
theorem ne_zero_of_hbSetElem_snd {elem : UInt64} {start last : Nat} (h : start % 64 ≤ last % 64)
    (hc : (hbSetElem elem start last).2 = false) : elem ≠ 0 := by
  have heq : elem = (hbSetElem elem start last).1 := by
    simpa [hbSetElem] using hc
  have hbit : bit elem (start % 64) = true := by
    rw [heq, bit_hbSetElem _ h, decide_eq_true ⟨le_rfl, h⟩, Bool.or_true]
  exact (ne_zero_iff_exists_bit elem).mpr ⟨_, Nat.mod_lt _ (by decide), hbit⟩

theorem hbSetWords_fst (w : Nat → UInt64) (i n : Nat) :
    (hbSetWords w i n).1 = fun p => if i ≤ p ∧ p < i + n then ~~~0 else w p := by
  induction n generalizing w i with
  | zero =>
    funext p
    simp [hbSetWords]
  | succ n ih =>
    funext p
    simp only [hbSetWords, ih]
    rcases eq_or_ne p i with rfl | hp
    · simp
    · rw [update_of_ne hp]
      split_ifs <;> first | rfl | omega

theorem hbSetWords_snd (w : Nat → UInt64) (i n : Nat) :
    (hbSetWords w i n).2 = false → ∀ p, i ≤ p → p < i + n → w p ≠ 0 := by
  induction n generalizing w i with
  | zero => intro _ p _ _; omega
  | succ n ih =>
    intro h p hip hpn
    simp only [hbSetWords, Bool.or_eq_false_iff, beq_eq_false_iff_ne] at h
    rcases eq_or_ne p i with rfl | hp
    · exact h.1
    · have := ih _ _ h.2 p (by omega) (by omega)
      rwa [update_of_ne hp] at this

/-- `start | (BITS_PER_LONG - 1)`: the last bit of `start`'s word. -/
theorem or_bitsPerLong_sub_one (s : Nat) : s ||| (bitsPerLong - 1) = 64 * (s / 64) + 63 := by
  apply Nat.eq_of_testBit_eq
  intro i
  rw [Nat.testBit_or, show 64 * (s / 64) + 63 = 2 ^ 6 * (s / 64) + (2 ^ 6 - 1) from rfl,
    Nat.testBit_two_pow_mul_add _ (by decide), show bitsPerLong - 1 = 2 ^ 6 - 1 from rfl,
    Nat.testBit_two_pow_sub_one]
  by_cases hi : i < 6
  · simp [hi]
  · rw [if_neg hi, decide_eq_false hi, Bool.or_false, show s / 64 = s / 2 ^ 6 from rfl, Nat.testBit_div_two_pow,
      Nat.sub_add_cancel (by omega)]

theorem arrayBit_hbSetLevel (w : Nat → UInt64) {s l : Nat} (hsl : s ≤ l) (q : Nat) :
    arrayBit (hbSetLevel w s l).1 q = (arrayBit w q || decide (s ≤ q ∧ q ≤ l)) := by
  simp only [hbSetLevel, shiftRight_bitsPerLevel, shiftLeft_bitsPerLevel, or_bitsPerLong_sub_one,
    Nat.add_sub_cancel, hbSetWords_fst]
  split_ifs with hpos
  · -- the first word from bit `s`, the words between, and the last word up to bit `l`
    simp only [arrayBit_update]
    by_cases hq : q / 64 = l / 64
    · rw [if_pos hq, if_neg (by omega), update_of_ne (by omega), bit_hbSetElem _ (by omega)]
      unfold arrayBit
      rw [hq, decide_eq_decide.mpr (show _ ↔ s ≤ q ∧ q ≤ l by omega)]
    · rw [if_neg hq]
      unfold arrayBit
      dsimp only
      by_cases hmid : s / 64 + 1 ≤ q / 64 ∧ q / 64 < s / 64 + 1 + (l / 64 - s / 64 - 1)
      · rw [if_pos hmid, bit_allOnes, decide_eq_true (Nat.mod_lt q (by decide)),
          decide_eq_true (show s ≤ q ∧ q ≤ l by omega), Bool.or_true]
      · rw [if_neg hmid]
        rcases eq_or_ne (q / 64) (s / 64) with hqs | hqs
        · rw [hqs, update_self, bit_hbSetElem _ (by omega),
            decide_eq_decide.mpr (show _ ↔ s ≤ q ∧ q ≤ l by omega)]
        · rw [update_of_ne hqs, decide_eq_false (show ¬(s ≤ q ∧ q ≤ l) by omega), Bool.or_false]
  · -- one word
    simp only [arrayBit_update]
    by_cases hq : q / 64 = l / 64
    · rw [if_pos hq, bit_hbSetElem _ (by omega)]
      unfold arrayBit
      rw [hq, decide_eq_decide.mpr (show _ ↔ s ≤ q ∧ q ≤ l by omega)]
    · rw [if_neg hq, decide_eq_false (show ¬(s ≤ q ∧ q ≤ l) by omega), Bool.or_false]

/-- When `hb_set_between` reports no change in a level, the words it
touched were all non-zero before. -/
theorem hbSetLevel_snd (w : Nat → UInt64) {s l : Nat} (hsl : s ≤ l) (hc : (hbSetLevel w s l).2 = false) :
    ∀ p, s / 64 ≤ p → p ≤ l / 64 → w p ≠ 0 := by
  intro p hsp hpl
  simp only [hbSetLevel, shiftRight_bitsPerLevel, shiftLeft_bitsPerLevel, or_bitsPerLong_sub_one,
    Nat.add_sub_cancel, hbSetWords_fst] at hc
  split_ifs at hc with hpos
  · simp only [Bool.or_eq_false_iff] at hc
    obtain ⟨⟨h1, h2⟩, h3⟩ := hc
    rw [if_neg (by omega), update_of_ne (by omega)] at h3
    -- the first word, a word between, or the last word
    rcases eq_or_ne p (s / 64) with rfl | hps
    · exact ne_zero_of_hbSetElem_snd (by omega) h1
    · rcases eq_or_ne p (l / 64) with rfl | hpl'
      · exact ne_zero_of_hbSetElem_snd (by omega) h3
      · have := hbSetWords_snd _ _ _ h2 p (by omega) (by omega)
        rwa [update_of_ne hps] at this
  · obtain rfl : p = l / 64 := by omega
    simp only [Bool.false_or] at hc
    exact ne_zero_of_hbSetElem_snd (by omega) hc

end SetLevel

/-! ## One level of `hb_reset_between` -/

section ResetLevel

theorem bit_hbResetElem (elem : UInt64) {start last : Nat} (h : start % 64 ≤ last % 64) (j : Nat) :
    bit (hbResetElem elem start last).1 j = (bit elem j && !decide (start % 64 ≤ j ∧ j ≤ last % 64)) := by
  simp only [hbResetElem, and_bitsPerLong_sub_one, bit_and, bit_not, bit_rangeMask h (Nat.mod_lt _ (by decide))]
  by_cases hj : j < 64
  · simp [hj]
  · simp [hj, bit_of_ge (Nat.le_of_not_lt hj)]

theorem hbResetElem_snd (elem : UInt64) (start last : Nat) :
    (hbResetElem elem start last).2 = true ↔ elem ≠ 0 ∧ (hbResetElem elem start last).1 = 0 := by
  simp [hbResetElem]

/-- Clearing bits leaves a zero word zero. -/
theorem hbResetElem_eq_zero (start last : Nat) : (hbResetElem 0 start last).1 = 0 := by
  simp [hbResetElem]

theorem hbResetWords_fst (w : Nat → UInt64) (i n : Nat) :
    (hbResetWords w i n).1 = fun p => if i ≤ p ∧ p < i + n then 0 else w p := by
  induction n generalizing w i with
  | zero =>
    funext p
    simp [hbResetWords]
  | succ n ih =>
    funext p
    simp only [hbResetWords, ih]
    rcases eq_or_ne p i with rfl | hp
    · simp
    · rw [update_of_ne hp]
      split_ifs <;> first | rfl | omega

theorem hbResetWords_snd (w : Nat → UInt64) (i n : Nat) :
    (hbResetWords w i n).2 = false → ∀ p, i ≤ p → p < i + n → w p = 0 := by
  induction n generalizing w i with
  | zero => intro _ p _ _; omega
  | succ n ih =>
    intro h p hip hpn
    simp only [hbResetWords, Bool.or_eq_false_iff, bne_eq_false_iff_eq] at h
    rcases eq_or_ne p i with rfl | hp
    · exact h.1
    · have := ih _ _ h.2 p (by omega) (by omega)
      rwa [update_of_ne hp] at this

theorem arrayBit_hbResetLevel (w : Nat → UInt64) {s l : Nat} (hsl : s ≤ l) (q : Nat) :
    arrayBit (hbResetLevel w s l).1 q = (arrayBit w q && !decide (s ≤ q ∧ q ≤ l)) := by
  simp only [hbResetLevel, shiftRight_bitsPerLevel, shiftLeft_bitsPerLevel, or_bitsPerLong_sub_one,
    Nat.add_sub_cancel, hbResetWords_fst]
  by_cases hpos : s / 64 < l / 64
  · -- the first word from bit `s`, the words between, and the last word up to bit `l`
    simp only [if_pos hpos, arrayBit_update]
    by_cases hq : q / 64 = l / 64
    · rw [if_pos hq, if_neg (by omega), update_of_ne (by omega), bit_hbResetElem _ (by omega)]
      unfold arrayBit
      rw [hq, decide_eq_decide.mpr (show _ ↔ s ≤ q ∧ q ≤ l by omega)]
    · rw [if_neg hq]
      unfold arrayBit
      dsimp only
      by_cases hmid : s / 64 + 1 ≤ q / 64 ∧ q / 64 < s / 64 + 1 + (l / 64 - s / 64 - 1)
      · rw [if_pos hmid, bit_zero, decide_eq_true (show s ≤ q ∧ q ≤ l by omega), Bool.not_true, Bool.and_false]
      · rw [if_neg hmid]
        rcases eq_or_ne (q / 64) (s / 64) with hqs | hqs
        · rw [hqs, update_self, bit_hbResetElem _ (by omega),
            decide_eq_decide.mpr (show _ ↔ s ≤ q ∧ q ≤ l by omega)]
        · rw [update_of_ne hqs, decide_eq_false (show ¬(s ≤ q ∧ q ≤ l) by omega), Bool.not_false, Bool.and_true]
  · -- one word
    simp only [if_neg hpos, arrayBit_update]
    by_cases hq : q / 64 = l / 64
    · rw [if_pos hq, bit_hbResetElem _ (by omega)]
      unfold arrayBit
      rw [hq, decide_eq_decide.mpr (show _ ↔ s ≤ q ∧ q ≤ l by omega)]
    · rw [if_neg hq, decide_eq_false (show ¬(s ≤ q ∧ q ≤ l) by omega), Bool.not_false, Bool.and_true]

/-- A word `hb_reset_elem` does not blank is zero after iff it was before. -/
theorem hbResetElem_eq_zero_iff {elem : UInt64} {start last : Nat} (h : (hbResetElem elem start last).2 = false) :
    (hbResetElem elem start last).1 = 0 ↔ elem = 0 := by
  constructor
  · intro h0
    by_contra hne
    have := (hbResetElem_snd elem start last).mpr ⟨hne, h0⟩
    rw [h] at this
    exact Bool.false_ne_true this
  · rintro rfl
    exact hbResetElem_eq_zero start last

theorem hbResetElem_eq_zero_of_snd {elem : UInt64} {start last : Nat} (h : (hbResetElem elem start last).2 = true) :
    (hbResetElem elem start last).1 = 0 :=
  ((hbResetElem_snd elem start last).mp h).2

/-- The range `hb_reset_between` passes to the level above, when the level
changed: within the words of `[s, l]`, and not empty. -/
theorem hbResetLevel_range (w : Nat → UInt64) {s l : Nat} (hsl : s ≤ l) (hc : (hbResetLevel w s l).2.1 = true) :
    s / 64 ≤ (hbResetLevel w s l).2.2.1 ∧ (hbResetLevel w s l).2.2.1 ≤ (hbResetLevel w s l).2.2.2 ∧
      (hbResetLevel w s l).2.2.2 ≤ l / 64 := by
  simp only [hbResetLevel, shiftRight_bitsPerLevel, shiftLeft_bitsPerLevel, or_bitsPerLong_sub_one,
    Nat.add_sub_cancel, hbResetWords_fst] at hc ⊢
  by_cases hpos : s / 64 < l / 64
  · simp only [if_pos hpos, if_neg (show ¬(s / 64 + 1 ≤ l / 64 ∧ l / 64 < s / 64 + 1 + (l / 64 - s / 64 - 1)) by omega),
      update_of_ne (show l / 64 ≠ s / 64 by omega)] at hc ⊢
    -- with no word between the two, the loop reports no change
    have hmid : l / 64 - s / 64 - 1 = 0 →
        (hbResetWords (update w (s / 64) (hbResetElem (w (s / 64)) s (64 * (s / 64) + 63)).1) (s / 64 + 1)
          (l / 64 - s / 64 - 1)).2 = false := fun h => by rw [h]; rfl
    generalize (hbResetWords (update w (s / 64) (hbResetElem (w (s / 64)) s (64 * (s / 64) + 63)).1) (s / 64 + 1)
      (l / 64 - s / 64 - 1)).2 = b2 at hc hmid
    generalize (hbResetElem (w (s / 64)) s (64 * (s / 64) + 63)).2 = b1 at hc ⊢
    generalize (hbResetElem (w (l / 64)) (64 * (l / 64)) l).2 = b3 at hc ⊢
    cases b1 <;> cases b2 <;> cases b3 <;> simp at hc hmid ⊢ <;> omega
  · simp only [if_neg hpos, Bool.false_or] at hc ⊢
    rw [if_pos hc]
    omega

/-- The words of `[s, l]` after one level of `hb_reset_between`: those
in the range passed up are zero, and the others are zero iff they were. -/
theorem hbResetLevel_words (w : Nat → UInt64) {s l p : Nat} (hsp : s / 64 ≤ p)
    (hpl : p ≤ l / 64) :
    ((hbResetLevel w s l).2.1 = true ∧ (hbResetLevel w s l).2.2.1 ≤ p ∧ p ≤ (hbResetLevel w s l).2.2.2 →
      (hbResetLevel w s l).1 p = 0) ∧
    (¬((hbResetLevel w s l).2.1 = true ∧ (hbResetLevel w s l).2.2.1 ≤ p ∧ p ≤ (hbResetLevel w s l).2.2.2) →
      ((hbResetLevel w s l).1 p = 0 ↔ w p = 0)) := by
  simp only [hbResetLevel, shiftRight_bitsPerLevel, shiftLeft_bitsPerLevel, or_bitsPerLong_sub_one,
    Nat.add_sub_cancel, hbResetWords_fst]
  by_cases hpos : s / 64 < l / 64
  · simp only [if_pos hpos, if_neg (show ¬(s / 64 + 1 ≤ l / 64 ∧ l / 64 < s / 64 + 1 + (l / 64 - s / 64 - 1)) by omega),
      update_of_ne (show l / 64 ≠ s / 64 by omega)]
    have hwords := hbResetWords_snd (update w (s / 64) (hbResetElem (w (s / 64)) s (64 * (s / 64) + 63)).1)
      (s / 64 + 1) (l / 64 - s / 64 - 1)
    generalize (hbResetWords (update w (s / 64) (hbResetElem (w (s / 64)) s (64 * (s / 64) + 63)).1) (s / 64 + 1)
      (l / 64 - s / 64 - 1)).2 = b2 at hwords ⊢
    rcases eq_or_ne p (l / 64) with rfl | hpl'
    · -- the last word
      rw [update_self]
      cases h3 : (hbResetElem (w (l / 64)) (64 * (l / 64)) l).2
      · exact ⟨fun h => absurd h.2.2 (by simp; omega), fun _ => hbResetElem_eq_zero_iff h3⟩
      · exact ⟨fun _ => hbResetElem_eq_zero_of_snd h3, fun h => absurd ⟨by simp, by split <;> omega, by simp⟩ h⟩
    · rw [update_of_ne hpl']
      rcases eq_or_ne p (s / 64) with rfl | hps
      · -- the first word
        rw [if_neg (show ¬(s / 64 + 1 ≤ s / 64 ∧ s / 64 < s / 64 + 1 + (l / 64 - s / 64 - 1)) by omega),
          update_self]
        cases h1 : (hbResetElem (w (s / 64)) s (64 * (s / 64) + 63)).2
        · exact ⟨fun h => absurd h.2.1 (by simp), fun _ => hbResetElem_eq_zero_iff h1⟩
        · exact ⟨fun _ => hbResetElem_eq_zero_of_snd h1,
            fun h => absurd ⟨by simp, by simp, by split <;> omega⟩ h⟩
      · -- a word between: cleared, and non-zero only if the loop saw it
        rw [if_pos (show s / 64 + 1 ≤ p ∧ p < s / 64 + 1 + (l / 64 - s / 64 - 1) by omega)]
        refine ⟨fun _ => rfl, fun h => ?_⟩
        have hb2 : b2 = false := by
          by_contra hb2
          exact h ⟨by simp [hb2], by split <;> omega, by split <;> omega⟩
        have := hwords hb2 p (by omega) (by omega)
        rw [update_of_ne hps] at this
        exact ⟨fun _ => this, fun _ => rfl⟩
  · -- one word
    obtain rfl : p = l / 64 := by omega
    simp only [if_neg hpos, Bool.false_or, update_self]
    cases h3 : (hbResetElem (w (l / 64)) s l).2
    · exact ⟨fun h => absurd h.1 (by simp), fun _ => hbResetElem_eq_zero_iff h3⟩
    · exact ⟨fun _ => hbResetElem_eq_zero_of_snd h3, fun h => absurd ⟨rfl, by omega, by simp⟩ h⟩

end ResetLevel

/-! ## Set bits and non-zero words across levels -/

section Summary

/-- A word that holds one of the bits `a` to `b` of the array is not zero. -/
theorem ne_zero_of_arrayBit {W : Nat → UInt64} {a b : Nat} (hab : a ≤ b)
    (hset : ∀ q, a ≤ q → q ≤ b → arrayBit W q = true) {p : Nat} (hap : a / 64 ≤ p) (hpb : p ≤ b / 64) :
    W p ≠ 0 := by
  -- the first bit of the range in word `p`
  have hq : max (64 * p) a / 64 = p := by omega
  have hbit := hset (max (64 * p) a) (le_max_right _ _) (max_le (by omega) hab)
  unfold arrayBit at hbit
  rw [hq] at hbit
  exact (ne_zero_iff_exists_bit _).mpr ⟨_, Nat.mod_lt _ (by decide), hbit⟩

variable {levels : Nat → Nat → UInt64} {L s l : Nat}

/-- Under the summary property, the non-zero words `s / 64` to `l / 64`
of level `L + 1` have their bits set in every level above, at the
groups that hold bits `s` to `l`. -/
theorem arrayBit_of_summary (hsl : s ≤ l)
    (hup : ∀ k < L + 1, ∀ p, s / 64 ^ (L + 1 - k) ≤ p → p ≤ l / 64 ^ (L + 1 - k) →
      levels (k + 1) p ≠ 0 → arrayBit (levels k) p = true)
    (htop : ∀ p, s / 64 ≤ p → p ≤ l / 64 → levels (L + 1) p ≠ 0) :
    ∀ n ≤ L, ∀ q, s / 64 ^ (n + 1) ≤ q → q ≤ l / 64 ^ (n + 1) → arrayBit (levels (L - n)) q = true := by
  intro n
  -- induction on the height above level `L + 1`
  induction n with
  | zero =>
    intro _ q hsq hql
    exact hup L (Nat.lt_succ_self L) q (by simpa using hsq) (by simpa using hql) (htop q (by simpa using hsq)
      (by simpa using hql))
  | succ n ih =>
    intro hn q hsq hql
    have hrange : s / 64 ^ (n + 1) ≤ l / 64 ^ (n + 1) := Nat.div_le_div_right hsl
    have hword : levels (L - n) q ≠ 0 := ne_zero_of_arrayBit hrange (ih (by omega))
      (by rw [← div_pow_succ]; exact hsq) (by rw [← div_pow_succ]; exact hql)
    have := hup (L - (n + 1)) (by omega) q (by rwa [show L + 1 - (L - (n + 1)) = n + 1 + 1 by omega])
      (by rwa [show L + 1 - (L - (n + 1)) = n + 1 + 1 by omega])
    rw [show L - (n + 1) + 1 = L - n by omega] at this
    exact this hword

end Summary

/-! ## `hb_set_between` -/

section SetBetween

/-- `hb_set_between(hb, L, s, l)` sets bits `s` to `l` of level `L` and
the bits of the groups that hold them in every level above, when the
levels above have the summary property over those groups. -/
theorem arrayBit_hbSetBetween (L : Nat) : ∀ (levels : Nat → Nat → UInt64) (s l : Nat), s ≤ l →
    (∀ k < L, ∀ p, s / 64 ^ (L - k) ≤ p → p ≤ l / 64 ^ (L - k) →
      levels (k + 1) p ≠ 0 → arrayBit (levels k) p = true) →
    ∀ k q, arrayBit ((hbSetBetween L levels s l).1 k) q =
      (arrayBit (levels k) q || decide (k ≤ L ∧ s / 64 ^ (L - k) ≤ q ∧ q ≤ l / 64 ^ (L - k))) := by
  induction L with
  | zero =>
    intro levels s l hsl _ k q
    have hbits := arrayBit_hbSetLevel (levels 0) hsl
    rw [hbSetBetween]
    generalize hbSetLevel (levels 0) s l = W at hbits ⊢
    obtain ⟨w, c⟩ := W
    dsimp only at hbits ⊢
    rcases eq_or_ne k 0 with rfl | hk
    · rw [update_self, hbits]
      simp
    · rw [update_of_ne hk, decide_eq_false (by omega), Bool.or_false]
  | succ L ih =>
    intro levels s l hsl hup k q
    have hbits := arrayBit_hbSetLevel (levels (L + 1)) hsl
    have hsnd := hbSetLevel_snd (levels (L + 1)) hsl
    rw [hbSetBetween]
    generalize hbSetLevel (levels (L + 1)) s l = W at hbits hsnd ⊢
    obtain ⟨w, c⟩ := W
    dsimp only at hbits hsnd ⊢
    -- level `L + 1` itself, then the levels above it
    have htop : arrayBit (update levels (L + 1) w (L + 1)) q =
        (arrayBit (levels (L + 1)) q || decide (L + 1 ≤ L + 1 ∧ s / 64 ^ (L + 1 - (L + 1)) ≤ q ∧
          q ≤ l / 64 ^ (L + 1 - (L + 1)))) := by
      rw [update_self, hbits]
      simp
    cases c
    · -- no change in level `L + 1`: the levels above have the bits already
      rw [if_neg Bool.false_ne_true]
      dsimp only
      rcases lt_trichotomy k (L + 1) with hk | rfl | hk
      · rw [update_of_ne (by omega)]
        have hset := arrayBit_of_summary hsl hup (hsnd rfl) (L - k) (by omega) q
        rw [show L - (L - k) = k by omega, show L - k + 1 = L + 1 - k by omega] at hset
        by_cases hq : s / 64 ^ (L + 1 - k) ≤ q ∧ q ≤ l / 64 ^ (L + 1 - k)
        · rw [hset hq.1 hq.2, Bool.true_or]
        · rw [decide_eq_false (fun h => hq h.2), Bool.or_false]
      · exact htop
      · rw [update_of_ne (by omega), decide_eq_false (by omega), Bool.or_false]
    · rw [if_pos rfl]
      dsimp only
      rw [shiftRight_bitsPerLevel, shiftRight_bitsPerLevel]
      -- the levels above see level `L + 1` already set, and the groups one level up
      have hup' : ∀ k < L, ∀ p, s / 64 / 64 ^ (L - k) ≤ p → p ≤ l / 64 / 64 ^ (L - k) →
          update levels (L + 1) w (k + 1) p ≠ 0 → arrayBit (update levels (L + 1) w k) p = true := by
        intro k hk p hsp hpl hp
        rw [update_of_ne (by omega)] at hp ⊢
        rw [← div_pow_succ', show L - k + 1 = L + 1 - k by omega] at hsp hpl
        exact hup k (by omega) p hsp hpl hp
      rw [ih _ (s / 64) (l / 64) (Nat.div_le_div_right hsl) hup' k q, ← div_pow_succ', ← div_pow_succ']
      rcases lt_trichotomy k (L + 1) with hk | rfl | hk
      · rw [update_of_ne (by omega), show L - k + 1 = L + 1 - k by omega,
          decide_eq_decide.mpr (and_congr_left fun _ => show k ≤ L ↔ k ≤ L + 1 by omega)]
      · rw [decide_eq_false (by omega), Bool.or_false]
        exact htop
      · rw [update_of_ne (by omega), decide_eq_false (by omega), decide_eq_false (by omega)]

end SetBetween

/-! ## `hb_reset_between` -/

section ResetBetween

theorem bne_zero_congr {x y : UInt64} (h : x = 0 ↔ y = 0) : (x != 0) = (y != 0) := by
  rw [Bool.eq_iff_iff, bne_iff_ne, bne_iff_ne, ne_eq, ne_eq, h]

/-- Ancestors of a range one level further up. -/
theorem div_pow_le_of_le {a b n : Nat} (h : a / 64 ≤ b) : a / 64 ^ (n + 1) ≤ b / 64 ^ n := by
  rw [div_pow_succ']
  exact Nat.div_le_div_right h

/-- What `hb_reset_between(hb, L, s, l)` makes of the levels: bits `s` to
`l` of level `L` cleared; in a level above, each group that holds one of
them summarises the new word below; every other bit as it was. -/
def ResetSpec (levels levels' : Nat → Nat → UInt64) (L s l : Nat) : Prop :=
  ∀ k q, arrayBit (levels' k) q =
    if L < k then arrayBit (levels k) q
    else if k = L then (arrayBit (levels L) q && !decide (s ≤ q ∧ q ≤ l))
    else if s / 64 ^ (L - k) ≤ q ∧ q ≤ l / 64 ^ (L - k) then (levels' (k + 1) q != 0)
    else arrayBit (levels k) q

/-- A word of level `k + 1 ≤ L` whose groups sit outside the range is left
as it was. -/
theorem ResetSpec.frame {levels levels' : Nat → Nat → UInt64} {L s l : Nat} (h : ResetSpec levels levels' L s l)
    {k j : Nat} (hk : k < L) (hj : ¬(s / 64 ^ (L - k) ≤ j ∧ j ≤ l / 64 ^ (L - k))) :
    levels' (k + 1) j = levels (k + 1) j := by
  apply ext_bit
  intro b hb
  rw [← arrayBit_word _ j b hb, ← arrayBit_word _ j b hb, h, if_neg (show ¬L < k + 1 by omega)]
  split_ifs with h1 h2
  · -- level `L` itself: the bits of word `j` are not in `[s, l]`
    have hLk : L - k = 1 := by omega
    rw [hLk, Nat.pow_one] at hj
    rw [← h1, decide_eq_false fun h => hj ⟨by omega, by omega⟩, Bool.not_false, Bool.and_true]
  · exfalso
    rw [show L - k = L - (k + 1) + 1 by omega, div_pow_succ, div_pow_succ] at hj
    exact hj ⟨by omega, by omega⟩
  · rfl

/-- `hb_reset_between(hb, L, s, l)` clears bits `s` to `l` of level `L`,
and in every level above, at the groups that hold them, leaves exactly the
words below that are not zero; elsewhere nothing changes. It needs the
summary property over those groups before. -/
theorem hbResetBetween_resetSpec (L : Nat) : ∀ (levels : Nat → Nat → UInt64) (s l : Nat), s ≤ l →
    (∀ k < L, ∀ p, s / 64 ^ (L - k) ≤ p → p ≤ l / 64 ^ (L - k) →
      arrayBit (levels k) p = (levels (k + 1) p != 0)) →
    ResetSpec levels (hbResetBetween L levels s l).1 L s l := by
  induction L with
  | zero =>
    intro levels s l hsl _ k q
    have hbits := arrayBit_hbResetLevel (levels 0) hsl
    rw [hbResetBetween]
    generalize hbResetLevel (levels 0) s l = R at hbits ⊢
    obtain ⟨w, c, pos, last⟩ := R
    dsimp only at hbits ⊢
    rcases Nat.eq_zero_or_pos k with rfl | hk
    · rw [update_self, hbits, if_neg (Nat.lt_irrefl 0), if_pos rfl]
    · rw [update_of_ne (by omega), if_pos hk]
  | succ L ih =>
    intro levels s l hsl hsum k q
    have hbits := arrayBit_hbResetLevel (levels (L + 1)) hsl
    have hwords := fun p => hbResetLevel_words (levels (L + 1)) (s := s) (l := l) (p := p)
    have hrange := hbResetLevel_range (levels (L + 1)) hsl
    rw [hbResetBetween]
    generalize hbResetLevel (levels (L + 1)) s l = R at hbits hwords hrange ⊢
    obtain ⟨w, c, pos, last⟩ := R
    dsimp only at hbits hwords hrange ⊢
    cases c
    · -- no word became zero: the levels above stay as they are
      simp only [Bool.false_eq_true, if_false]
      rcases lt_trichotomy k (L + 1) with hk | rfl | hk
      · rw [update_of_ne (by omega), if_neg (by omega), if_neg (by omega)]
        split_ifs with hq
        · rw [hsum k hk q hq.1 hq.2]
          rcases eq_or_ne k L with rfl | hkL
          · rw [update_self]
            rw [show k + 1 - k = 1 by omega, Nat.pow_one] at hq
            exact bne_zero_congr ((hwords q hq.1 hq.2).2 (fun h => Bool.false_ne_true h.1)).symm
          · rw [update_of_ne (by omega)]
        · rfl
      · rw [update_self, hbits, if_neg (Nat.lt_irrefl _), if_pos rfl]
      · rw [update_of_ne (by omega), if_pos hk]
    · -- the words that became zero are cleared above, from level `L` on
      simp only [if_true]
      obtain ⟨hsp, hpl, hll⟩ := hrange rfl
      have hsum' : ∀ k < L, ∀ p, pos / 64 ^ (L - k) ≤ p → p ≤ last / 64 ^ (L - k) →
          arrayBit (update levels (L + 1) w k) p = (update levels (L + 1) w (k + 1) p != 0) := by
        intro k hk p h1 h2
        rw [update_of_ne (by omega), update_of_ne (by omega)]
        refine hsum k (by omega) p ?_ ?_
        · rw [show L + 1 - k = L - k + 1 by omega]
          exact le_trans (div_pow_le_of_le hsp) h1
        · rw [show L + 1 - k = L - k + 1 by omega]
          exact le_trans h2 (by rw [div_pow_succ']; exact Nat.div_le_div_right hll)
      have hih := ih (update levels (L + 1) w) pos last hpl hsum'
      generalize (hbResetBetween L (update levels (L + 1) w) pos last).1 = levels' at hih ⊢
      have htop : levels' (L + 1) = w := arrayBit_ext fun x => by
        rw [hih, if_pos (Nat.lt_succ_self L), update_self]
      rcases lt_trichotomy k (L + 1) with hk | rfl | hk
      · rw [hih, if_neg (show ¬L < k by omega), if_neg (show ¬L + 1 < k by omega), if_neg (show k ≠ L + 1 by omega)]
        rcases eq_or_ne k L with rfl | hkL
        · -- level `L`: the words of `[s, l]` it summarises
          rw [if_pos rfl, update_of_ne (show k ≠ k + 1 by omega), htop, show k + 1 - k = 1 by omega, Nat.pow_one]
          by_cases hq : s / 64 ≤ q ∧ q ≤ l / 64
          · rw [if_pos hq]
            by_cases hin : pos ≤ q ∧ q ≤ last
            · rw [decide_eq_true hin, Bool.not_true, Bool.and_false, (hwords q hq.1 hq.2).1 ⟨rfl, hin⟩]
              rfl
            · rw [decide_eq_false hin, Bool.not_false, Bool.and_true,
                hsum k (Nat.lt_succ_self k) q (by simpa using hq.1) (by simpa using hq.2)]
              exact bne_zero_congr ((hwords q hq.1 hq.2).2 (fun h => hin h.2)).symm
          · rw [if_neg hq, decide_eq_false (fun h => hq ⟨by omega, by omega⟩), Bool.not_false, Bool.and_true]
        · -- a level above `L`: its groups of `[pos, last]` are those the recursion handles
          rw [if_neg hkL, update_of_ne (show k ≠ L + 1 by omega)]
          have hsub : pos / 64 ^ (L - k) ≤ q ∧ q ≤ last / 64 ^ (L - k) →
              s / 64 ^ (L + 1 - k) ≤ q ∧ q ≤ l / 64 ^ (L + 1 - k) := by
            rintro ⟨h1, h2⟩
            rw [show L + 1 - k = L - k + 1 by omega, div_pow_succ' s, div_pow_succ' l]
            exact ⟨le_trans (Nat.div_le_div_right hsp) h1, le_trans h2 (Nat.div_le_div_right hll)⟩
          by_cases hin : pos / 64 ^ (L - k) ≤ q ∧ q ≤ last / 64 ^ (L - k)
          · rw [if_pos hin, if_pos (hsub hin)]
          · rw [if_neg hin]
            split_ifs with hq
            · rw [hsum k (by omega) q hq.1 hq.2]
              -- word `q` of level `k + 1` holds no group the recursion cleared
              rw [hih.frame (by omega) hin, update_of_ne (show k + 1 ≠ L + 1 by omega)]
            · rfl
      · rw [hih, if_pos (Nat.lt_succ_self L), update_self, hbits, if_neg (Nat.lt_irrefl _), if_pos rfl]
      · rw [hih, if_pos (by omega), update_of_ne (by omega), if_pos hk]

end ResetBetween

/-! ## `hbitmap_iter_next_word` -/

section NextWord

variable {hb : HBitmap} {t : Nat} {hbi : HBitmapIter}

open QemuFormal.HostUtils (ctz64)

/-- Clearing the current word moves the iterator to the next word. -/
theorem IterAt.clear_word (hit : IterAt hb t hbi) :
    IterAt hb (64 * hbi.pos + 64) { hbi with cur := update hbi.cur 6 0 } := by
  refine ⟨hit.granularity, by dsimp only; omega, by dsimp only; omega, hit.pos_lt, fun b hb64 => ?_,
    fun m hm hm6 => ?_⟩
  · simp only [update_self, bit_and, bit_zero, Bool.false_and, Bool.false_eq_true, false_iff]
    rintro ⟨-, h⟩
    omega
  · simp only [update_of_ne (show 6 - m ≠ 6 by omega)]
    exact hit.upper m hm hm6

theorem hbitmapIterNextWord_of_ne (hc : hbi.cur 6 ≠ 0) :
    hbitmapIterNextWord hb hbi = (some (hbi.pos, hbi.cur 6), { hbi with cur := update hbi.cur 6 0 }) := by
  simp only [hbitmapIterNextWord, hbitmapLevels_sub_one, hc, if_false]

theorem hbitmapIterNextWord_of_eq_zero {hbi' : HBitmapIter} {c : UInt64} (hc : hbi.cur 6 = 0)
    (hs : hbitmapIterSkipWords hb hbi = (hbi', c)) :
    hbitmapIterNextWord hb hbi =
      if c = 0 then (none, hbi') else (some (hbi'.pos, c), { hbi' with cur := update hbi'.cur 6 0 }) := by
  simp only [hbitmapIterNextWord, hbitmapLevels_sub_one, if_pos hc, hs]

/-- From an iterator at `t` whose current word holds no bit that the level
does not, `hbitmap_iter_next_word` returns the word of the least group
from `t` on with its groups from `t` on, and leaves an iterator at the
next word with an empty current word; or it returns none, and no group
is left from `t` on. -/
theorem hbitmapIterNextWord_spec (hwf : hb.WF) (hit : IterAt hb t hbi)
    (hcur : hbi.cur 6 &&& hb.levels 6 hbi.pos = hbi.cur 6) :
    (∃ x c, IsLeast {x | x ∈ hb.dirty ∧ t ≤ x} x ∧ (hbitmapIterNextWord hb hbi).1 = some (x / 64, c) ∧
      (∀ b < 64, bit c b = true ↔ 64 * (x / 64) + b ∈ hb.dirty ∧ t ≤ 64 * (x / 64) + b) ∧
      IterAt hb (64 * (x / 64) + 64) (hbitmapIterNextWord hb hbi).2 ∧ (hbitmapIterNextWord hb hbi).2.cur 6 = 0) ∨
    ((∀ x ∈ hb.dirty, x < t) ∧ (hbitmapIterNextWord hb hbi).1 = none) := by
  by_cases hc : hbi.cur 6 = 0
  · have hc6 : hbi.cur 6 &&& hb.levels 6 hbi.pos = 0 := by rw [hc, UInt64.zero_and]
    rcases hit.skipWords_spec hwf hc6 with ⟨x, cur', hx, hs, hne6, -, hnext⟩ | ⟨hnone, hs⟩
    · -- the word of `x` is past the current one, so all its groups are from `t` on
      have hpos : hbi.pos < x / 64 := lt_of_le_of_ne (by have := hit.pos_le; have := hx.1.2; omega)
        (Ne.symm (hit.ne_pos_of_eq_zero hc6 x hx.1.1 hx.1.2))
      have hle := hit.le_pos
      have hsz : x / 64 < hb.sizes 6 := by simpa using hwf.div_lt_sizes hx.1.1.1 (d := 0) (by decide)
      left
      rw [hbitmapIterNextWord_of_eq_zero hc hs, if_neg hne6]
      refine ⟨x, _, hx, rfl, fun b hb64 => ?_, ?_, by simp only [update_self]⟩
      · have hbits := hwf.bit_iff (m := 0) (by decide) hsz hb64
        rw [occupied_zero] at hbits
        exact ⟨fun h => ⟨(hbits.mp h).resolve_right (by omega), by omega⟩, fun h => hbits.mpr (Or.inl h.1)⟩
      · have := hnext.clear_word
        simpa only [Function.update_idem] using this
    · right
      rw [hbitmapIterNextWord_of_eq_zero hc hs, if_pos rfl]
      exact ⟨hnone, rfl⟩
  · have hc6 : hbi.cur 6 &&& hb.levels 6 hbi.pos ≠ 0 := by rwa [hcur]
    obtain ⟨hleast, -⟩ := hit.next_in_word hc6
    have hx : (64 * hbi.pos + ctz64 (hbi.cur 6 &&& hb.levels 6 hbi.pos)) / 64 = hbi.pos := by
      have := (isLeast_ctz64 hc6).1.1
      omega
    left
    rw [hbitmapIterNextWord_of_ne hc]
    refine ⟨_, _, hleast, by rw [hx], fun b hb64 => ?_, by rw [hx]; exact hit.clear_word,
      by simp only [update_self]⟩
    rw [hx, ← hcur]
    exact hit.last b hb64

end NextWord

/-! ## `hb_count_between` -/

section CountBetween

variable {hb : HBitmap}

open QemuFormal.HostUtils (ctpop64)

instance HBitmap.decidableMemDirty (hb : HBitmap) : DecidablePred (· ∈ hb.dirty) := fun x =>
  inferInstanceAs (Decidable (x < hb.size ∧ arrayBit (hb.levels (hbitmapLevels - 1)) x = true))

/-- The number of groups of `hb` in `[a, b)`. -/
def groupCount (hb : HBitmap) (a b : Nat) : Nat :=
  (List.range' a (b - a)).countP fun x => decide (x ∈ hb.dirty)

theorem range'_split {a m b : Nat} (ham : a ≤ m) (hmb : m ≤ b) :
    List.range' a (b - a) = List.range' a (m - a) ++ List.range' m (b - m) := by
  have := @List.range'_append_1 a (m - a) (b - m)
  rw [Nat.add_sub_cancel' ham, show m - a + (b - m) = b - a by omega] at this
  exact this.symm

theorem groupCount_add {a m b : Nat} (ham : a ≤ m) (hmb : m ≤ b) :
    groupCount hb a b = groupCount hb a m + groupCount hb m b := by
  unfold groupCount
  rw [← List.countP_append, ← range'_split ham hmb]

theorem groupCount_eq_zero {a b : Nat} (h : ∀ x ∈ hb.dirty, a ≤ x → b ≤ x) : groupCount hb a b = 0 := by
  unfold groupCount
  rw [List.countP_eq_zero]
  intro x hx hd
  rw [List.mem_range'_1] at hx
  have := h x (of_decide_eq_true hd) hx.1
  omega

/-- Counting from `a` up to `m` and then from the later of `a` and `m`. -/
theorem groupCount_add_max {a m b : Nat} (hmb : m ≤ b) :
    groupCount hb a m + groupCount hb (max a m) b = groupCount hb a b := by
  by_cases ham : a ≤ m
  · rw [max_eq_right ham, ← groupCount_add ham hmb]
  · rw [max_eq_left (by omega), groupCount_eq_zero fun x _ hax => by omega, Nat.zero_add]

/-- No group in `[m, b)` from `a` on: counting up to `b` is counting up to `m`. -/
theorem groupCount_eq_of_lt {a m b : Nat} (hmb : m ≤ b) (h : ∀ x ∈ hb.dirty, a ≤ x → x < b → x < m) :
    groupCount hb a b = groupCount hb a m := by
  rw [← groupCount_add_max hmb, groupCount_eq_zero (a := max a m) fun x hx hmx => ?_, Nat.add_zero]
  by_contra hxb
  have := h x hx (le_trans (le_max_left _ _) hmx) (by omega)
  have := le_trans (le_max_right _ _) hmx
  omega

/-- Below `size`, counting the groups is counting the set bits of the last level. -/
theorem groupCount_eq_countP {a b : Nat} (hbs : b ≤ hb.size) :
    groupCount hb a b = (List.range' a (b - a)).countP (arrayBit (hb.levels (hbitmapLevels - 1))) :=
  List.countP_congr fun x hx => by
    rw [List.mem_range'_1] at hx
    exact ⟨fun h => (of_decide_eq_true h).2, fun h => decide_eq_true (show x ∈ hb.dirty from ⟨by omega, h⟩)⟩

/-- `ctpopl(cur)` of a word `p` that holds the groups of word `p` in `[t, u)`. -/
theorem ctpop64_eq_groupCount {c : UInt64} {p t u : Nat} (htu : t ≤ u) (ht : t ≤ 64 * p + 64) (hu : 64 * p ≤ u)
    (hc : ∀ b < 64, bit c b = true ↔ 64 * p + b ∈ hb.dirty ∧ t ≤ 64 * p + b ∧ 64 * p + b < u) :
    ctpop64 c = groupCount hb (max t (64 * p)) (min u (64 * p + 64)) := by
  have hword : ctpop64 c =
      (List.range' (64 * p) 64).countP fun x => decide (x ∈ hb.dirty ∧ t ≤ x ∧ x < u) := by
    rw [ctpop64, List.range'_eq_map_range, List.countP_map]
    refine List.countP_congr fun b hb => ?_
    rw [List.mem_range] at hb
    rw [← bit_eq_testBit, hc b hb]
    simp
  -- the word's groups before `t` and from `u` on do not count
  have hsplit : List.range' (64 * p) 64 = List.range' (64 * p) (max t (64 * p) - 64 * p) ++
      (List.range' (max t (64 * p)) (min u (64 * p + 64) - max t (64 * p)) ++
        List.range' (min u (64 * p + 64)) (64 * p + 64 - min u (64 * p + 64))) := by
    rw [← range'_split (by omega) (by omega), ← range'_split (by omega) (by omega), Nat.add_sub_cancel_left]
  rw [hword, hsplit, List.countP_append, List.countP_append, groupCount]
  have hlow : (List.range' (64 * p) (max t (64 * p) - 64 * p)).countP
      (fun x => decide (x ∈ hb.dirty ∧ t ≤ x ∧ x < u)) = 0 :=
    List.countP_eq_zero.mpr fun x hx hP => by
      rw [List.mem_range'_1] at hx
      have := (of_decide_eq_true hP).2.1
      omega
  have hhigh : (List.range' (min u (64 * p + 64)) (64 * p + 64 - min u (64 * p + 64))).countP
      (fun x => decide (x ∈ hb.dirty ∧ t ≤ x ∧ x < u)) = 0 :=
    List.countP_eq_zero.mpr fun x hx hP => by
      rw [List.mem_range'_1] at hx
      have := (of_decide_eq_true hP).2.2
      omega
  rw [hlow, hhigh, Nat.zero_add, Nat.add_zero]
  refine List.countP_congr fun x hx => ?_
  rw [List.mem_range'_1] at hx
  simp only [decide_eq_true_eq]
  exact ⟨fun h => h.1, fun h => ⟨h, by omega, by omega⟩⟩

/-- The loop of `hb_count_between` from an iterator at `t`, with fuel for
every word to the end of the last level: it counts the groups from `t`
before word `E`, and stops at the first word from `E` on that has groups
from `t` on, or when there is none. -/
theorem hbCountBetweenLoop_spec (hwf : hb.WF) (E : Nat) (fuel : Nat) :
    ∀ hbi t count, IterAt hb t hbi → hbi.cur 6 &&& hb.levels 6 hbi.pos = hbi.cur 6 →
      hb.sizes 6 < fuel + t / 64 →
      (hbCountBetweenLoop hb E fuel hbi count).2 = count + groupCount hb t (64 * E) ∧
      (∀ p c, (hbCountBetweenLoop hb E fuel hbi count).1 = some (p, c) → E ≤ p ∧
        (∀ b < 64, bit c b = true ↔ 64 * p + b ∈ hb.dirty ∧ t ≤ 64 * p + b) ∧
        ∀ x ∈ hb.dirty, t ≤ x → x < 64 * p → x < 64 * E) ∧
      ((hbCountBetweenLoop hb E fuel hbi count).1 = none → ∀ x ∈ hb.dirty, t ≤ x → x < 64 * E) := by
  -- induction on the fuel: each step moves `t` past the word it returns
  induction fuel with
  | zero =>
    intro hbi t count _ _ hfuel
    have hnone : ∀ x ∈ hb.dirty, x < t := fun x hx => by
      have := le_mul_wordsFor hb.size
      rw [← hwf.sizes_last, hbitmapLevels_sub_one] at this
      have := hx.1
      omega
    have h0 : hbCountBetweenLoop hb E 0 hbi count = (none, count) := rfl
    rw [h0, groupCount_eq_zero fun x hx htx => absurd (hnone x hx) (by omega)]
    exact ⟨rfl, fun p c h => by simp at h, fun _ x hx htx => absurd (hnone x hx) (by omega)⟩
  | succ fuel ih =>
    intro hbi t count hit hcur hfuel
    rcases hbitmapIterNextWord_spec hwf hit hcur with ⟨x, c, hx, h1, hbits, hit', hcur'⟩ | ⟨hnone, h1⟩
    · have hloop : hbCountBetweenLoop hb E (fuel + 1) hbi count =
          if x / 64 ≥ E then (some (x / 64, c), count)
          else hbCountBetweenLoop hb E fuel (hbitmapIterNextWord hb hbi).2 (count + ctpop64 c) := by
        rw [hbCountBetweenLoop]
        generalize hbitmapIterNextWord hb hbi = N at h1
        obtain ⟨r, hbi'⟩ := N
        dsimp only at h1
        subst h1
        rfl
      -- no group between `t` and the word of `x`
      have hbefore : ∀ y ∈ hb.dirty, t ≤ y → 64 * (x / 64) ≤ y := fun y hy hty => by
        have := hx.2 ⟨hy, hty⟩
        omega
      have htx := hx.1.2
      rw [hloop]
      split_ifs with hE
      · refine ⟨?_, fun p c' h => ?_, fun h => by simp at h⟩
        · rw [groupCount_eq_zero fun y hy hty => le_trans (by omega) (hbefore y hy hty)]
          rfl
        · obtain ⟨rfl, rfl⟩ := Prod.mk.inj (Option.some.inj h)
          exact ⟨hE, hbits, fun y hy hty hyp => absurd (hbefore y hy hty) (by omega)⟩
      · obtain ⟨ih2, ihsome, ihnone⟩ := ih _ (64 * (x / 64) + 64) (count + ctpop64 c) hit'
          (by rw [hcur', UInt64.zero_and]) (by have : t / 64 ≤ x / 64 := Nat.div_le_div_right htx; omega)
        have hword : ctpop64 c = groupCount hb (max t (64 * (x / 64))) (64 * (x / 64) + 64) := by
          rw [ctpop64_eq_groupCount (p := x / 64) (t := t) (u := 64 * (x / 64) + 64) (by omega) (by omega) (by omega)
            fun b hb64 => by rw [hbits b hb64]; exact and_congr_right fun _ => ⟨fun h => ⟨h, by omega⟩, fun h => h.1⟩,
            Nat.min_self]
        refine ⟨?_, fun p c' h => ?_, fun h y hy hty => ?_⟩
        · rw [ih2, hword, Nat.add_assoc, ← groupCount_add (by omega) (by omega),
            groupCount_add (show t ≤ max t (64 * (x / 64)) by omega) (by omega),
            groupCount_eq_zero (a := t) fun y hy hty => max_le hty (hbefore y hy hty), Nat.zero_add]
        · obtain ⟨hEp, hbits', hlt⟩ := ihsome p c' h
          refine ⟨hEp, fun b hb64 => ?_, fun y hy hty hyp => ?_⟩
          · rw [hbits' b hb64]
            exact and_congr_right fun _ => ⟨fun _ => by omega, fun _ => by omega⟩
          · by_cases hy' : 64 * (x / 64) + 64 ≤ y
            · exact hlt y hy hy' hyp
            · omega
        · by_cases hy' : 64 * (x / 64) + 64 ≤ y
          · exact ihnone h y hy hy'
          · omega
    · have hloop : hbCountBetweenLoop hb E (fuel + 1) hbi count = (none, count) := by
        rw [hbCountBetweenLoop]
        generalize hbitmapIterNextWord hb hbi = N at h1
        obtain ⟨r, hbi'⟩ := N
        dsimp only at h1
        subst h1
        rfl
      rw [hloop, groupCount_eq_zero fun y hy hty => absurd (hnone y hy) (by omega)]
      exact ⟨rfl, fun p c h => by simp at h, fun _ y hy hty => absurd (hnone y hy) (by omega)⟩

/-- The word `hbitmap_iter_init` leaves in the last level is bits of the level. -/
theorem hbitmapIterInit_cur_and (hb : HBitmap) (first : Nat) :
    (hbitmapIterInit hb first).cur 6 &&& hb.levels 6 (hbitmapIterInit hb first).pos =
      (hbitmapIterInit hb first).cur 6 := by
  apply ext_bit
  intro b hb64
  simp only [hbitmapIterInit, shiftRight_bitsPerLevel, bit_and,
    bit_hbitmapIterInitLoop (show 6 < hbitmapLevels by decide) hb64, show hbitmapLevels - 6 = 1 from rfl,
    Nat.pow_one]
  cases bit (hb.levels 6 (first >>> hb.granularity / 64)) b <;> simp

/-- A step of the iterator reads the levels only. -/
theorem hbitmapIterNextWord_congr {hb hb' : HBitmap} (hl : hb'.levels = hb.levels) :
    hbitmapIterNextWord hb' = hbitmapIterNextWord hb := by
  funext hbi
  simp only [hbitmapIterNextWord, hbitmapIterSkipWords, hl]

theorem hbCountBetweenLoop_congr {hb hb' : HBitmap} (hl : hb'.levels = hb.levels) (endWord fuel : Nat) :
    ∀ hbi n, hbCountBetweenLoop hb' endWord fuel hbi n = hbCountBetweenLoop hb endWord fuel hbi n := by
  induction fuel with
  | zero => intro _ _; rfl
  | succ fuel ih =>
    intro hbi n
    simp only [hbCountBetweenLoop, hbitmapIterNextWord_congr hl, ih]

/-- `hb_count_between` reads the levels, their lengths and the
granularity, and nothing else of the bitmap. -/
theorem hbCountBetween_congr {hb hb' : HBitmap} (hl : hb'.levels = hb.levels) (hs : hb'.sizes = hb.sizes)
    (hg : hb'.granularity = hb.granularity) : hbCountBetween hb' = hbCountBetween hb := by
  funext start last
  simp only [hbCountBetween, hbCountBetweenLoop_congr hl, hs, hg, hbitmapIterInit, hl]

/-- `hb_count_between(hb, start, last)` is the number of groups in
`[start, last]`. -/
theorem hbCountBetween_eq (hwf : hb.WF) {start last : Nat} (hsl : start ≤ last) (hl : last < hb.size) :
    hbCountBetween hb start last = groupCount hb start (last + 1) := by
  have hp : start <<< hb.granularity >>> hb.granularity < hb.size := by
    rw [shiftLeft_shiftRight]
    omega
  have hit := hbitmapIterInit_iterAt hwf hp
  rw [shiftLeft_shiftRight] at hit
  obtain ⟨h2, hsome, hnone⟩ := hbCountBetweenLoop_spec hwf ((last + 1) / 64) (hb.sizes 6 + 1) _ start 0 hit
    (hbitmapIterInit_cur_and hb _) (by omega)
  simp only [hbCountBetween, shiftRight_bitsPerLevel, and_bitsPerLong_sub_one, hbitmapLevels_sub_one]
  generalize hbCountBetweenLoop hb ((last + 1) / 64) (hb.sizes 6 + 1) (hbitmapIterInit hb (start <<< hb.granularity))
    0 = R at h2 hsome hnone
  obtain ⟨r, cnt⟩ := R
  dsimp only at h2 hsome hnone
  rw [h2, Nat.zero_add]
  rcases r with _ | ⟨p, c⟩
  · -- no word from `end / 64` on
    exact (groupCount_eq_of_lt (by omega) fun x hx hsx _ => hnone rfl x hx hsx).symm
  · obtain ⟨hEp, hbits, hbelow⟩ := hsome p c rfl
    dsimp only
    split_ifs with hpE
    · -- the word of `end`: its groups before `end`
      subst hpE
      have hs : ((last + 1) % 64).toUInt64.toNat = (last + 1) % 64 :=
        UInt64.toNat_ofNat_of_lt' (lt_trans (Nat.mod_lt _ (by decide)) (by decide))
      rw [← groupCount_add_max (show 64 * ((last + 1) / 64) ≤ last + 1 by omega),
        ctpop64_eq_groupCount (p := (last + 1) / 64) (t := start) (u := last + 1) (by omega) (by omega) (by omega)
          fun b hb64 => ?_, min_eq_left (by omega)]
      rw [bit_and, bit_lowMask _ (by rw [hs]; exact Nat.mod_lt _ (by decide)), hs, Bool.and_eq_true, hbits b hb64,
        decide_eq_true_iff, and_assoc]
      exact and_congr_right fun _ => and_congr_right fun _ => by omega
    · exact (groupCount_eq_of_lt (by omega) fun x hx hsx hxl => hbelow x hx hsx (by omega)).symm

/-- On a bitmap that has the invariant once its count is set right,
`hb_count_between(hb, 0, size - 1)` is that count: the number of set
groups. -/
theorem hbCountBetween_all {c : Nat} (hwf : ({ hb with count := c } : HBitmap).WF) (hpos : 0 < hb.size) :
    hbCountBetween hb 0 (hb.size - 1) = (List.range hb.size).countP (arrayBit (hb.levels (hbitmapLevels - 1))) := by
  have hlast : hb.size - 1 < ({ hb with count := c } : HBitmap).size := Nat.sub_lt hpos Nat.one_pos
  have hle : hb.size - 1 + 1 ≤ ({ hb with count := c } : HBitmap).size := hlast
  rw [← @hbCountBetween_congr hb { hb with count := c } rfl rfl rfl, hbCountBetween_eq hwf (Nat.zero_le _) hlast, groupCount_eq_countP hle,
    Nat.sub_add_cancel hpos, Nat.sub_zero, ← List.range_eq_range']

end CountBetween

/-! ## `hbitmap_set` -/

section Set

variable {hb : HBitmap}

/-- Setting the bits `f` to `l` of a list of booleans adds the bits of
`[f, l]` that were clear. -/
theorem countP_or_range {P : Nat → Bool} {n f l : Nat} (hfl : f ≤ l) (hl : l < n) :
    (List.range n).countP (fun x => P x || decide (f ≤ x ∧ x ≤ l)) + (List.range' f (l + 1 - f)).countP P =
      (List.range n).countP P + (l + 1 - f) := by
  have hsplit : List.range n = List.range' 0 f ++ (List.range' f (l + 1 - f) ++ List.range' (l + 1) (n - (l + 1))) := by
    rw [List.range_eq_range', ← range'_split (show f ≤ l + 1 by omega) (show l + 1 ≤ n by omega)]
    simpa using range'_split (a := 0) (Nat.zero_le f) (show f ≤ n by omega)
  have hout : ∀ m k, (m + k ≤ f ∨ l < m) →
      (List.range' m k).countP (fun x => P x || decide (f ≤ x ∧ x ≤ l)) = (List.range' m k).countP P :=
    fun m k hmk => List.countP_congr fun x hx => by
      rw [List.mem_range'_1] at hx
      rw [decide_eq_false (by omega), Bool.or_false]
  have hin : (List.range' f (l + 1 - f)).countP (fun x => P x || decide (f ≤ x ∧ x ≤ l)) = l + 1 - f := by
    rw [List.countP_eq_length.mpr fun x hx => by
      rw [List.mem_range'_1] at hx
      rw [decide_eq_true (by omega), Bool.or_true], List.length_range']
  rw [hsplit, List.countP_append, List.countP_append, List.countP_append, List.countP_append,
    hout 0 f (Or.inl (by omega)), hout (l + 1) _ (Or.inr (by omega)), hin]
  omega

/-- Clearing the bits `f` to `l` of a list of booleans removes the bits
of `[f, l]` that were set. -/
theorem countP_and_not_range {P : Nat → Bool} {n f l : Nat} (hfl : f ≤ l) (hl : l < n) :
    (List.range n).countP (fun x => P x && !decide (f ≤ x ∧ x ≤ l)) + (List.range' f (l + 1 - f)).countP P =
      (List.range n).countP P := by
  have hsplit : List.range n = List.range' 0 f ++ (List.range' f (l + 1 - f) ++ List.range' (l + 1) (n - (l + 1))) := by
    rw [List.range_eq_range', ← range'_split (show f ≤ l + 1 by omega) (show l + 1 ≤ n by omega)]
    simpa using range'_split (a := 0) (Nat.zero_le f) (show f ≤ n by omega)
  have hout : ∀ m k, (m + k ≤ f ∨ l < m) →
      (List.range' m k).countP (fun x => P x && !decide (f ≤ x ∧ x ≤ l)) = (List.range' m k).countP P :=
    fun m k hmk => List.countP_congr fun x hx => by
      rw [List.mem_range'_1] at hx
      rw [decide_eq_false (by omega), Bool.not_false, Bool.and_true]
  have hin : (List.range' f (l + 1 - f)).countP (fun x => P x && !decide (f ≤ x ∧ x ≤ l)) = 0 :=
    List.countP_eq_zero.mpr fun x hx => by
      rw [List.mem_range'_1] at hx
      rw [decide_eq_true (by omega), Bool.not_true, Bool.and_false]
      exact Bool.false_ne_true
  rw [hsplit, List.countP_append, List.countP_append, List.countP_append, List.countP_append,
    hout 0 f (Or.inl (by omega)), hout (l + 1) _ (Or.inr (by omega)), hin]
  omega

theorem ne_zero_iff_arrayBit (W : Nat → UInt64) (j : Nat) :
    W j ≠ 0 ↔ ∃ b < 64, arrayBit W (64 * j + b) = true := by
  rw [ne_zero_iff_exists_bit]
  exact exists_congr fun b => and_congr_right fun hb => by rw [arrayBit_word W j b hb]

/-- The words that hold a bit of `[a, c]` are the words `a / 64` to `c / 64`. -/
theorem exists_word_bit_iff {a c j : Nat} (hac : a ≤ c) :
    (∃ b < 64, a ≤ 64 * j + b ∧ 64 * j + b ≤ c) ↔ a / 64 ≤ j ∧ j ≤ c / 64 := by
  constructor
  · rintro ⟨b, hb, h1, h2⟩
    omega
  · intro h
    exact ⟨max (64 * j) a - 64 * j, by omega, by omega, by omega⟩

/-- Over the blocks that hold the groups of a range, every level of a
bitmap with `WF` summarises the level below: the sentinel lies past them. -/
theorem HBitmap.WF.summary_eq (hwf : hb.WF) {f l : Nat} (hl : l < hb.size) :
    ∀ k < 6, ∀ p, f / 64 ^ (6 - k) ≤ p → p ≤ l / 64 ^ (6 - k) →
      arrayBit (hb.levels k) p = (hb.levels (k + 1) p != 0) := by
  intro k hk p _ hpl
  have hps : p < hb.sizes (k + 1) := by
    have := hwf.div_lt_sizes hl (d := 5 - k) (by omega)
    rw [show 5 - k + 1 = 6 - k by omega, show 6 - (5 - k) = k + 1 by omega] at this
    omega
  have hpk : p < bitsPerLong * hb.sizes k := by
    have := le_mul_wordsFor (hb.sizes (k + 1))
    rw [← hwf.sizes_succ k hk] at this
    change p < 64 * hb.sizes k
    omega
  -- the sentinel is bit 63 of level 0, and level 1 has at most 32 words
  have hsent : (k == 0 && p == bitsPerLong - 1) = false := by
    rcases Nat.eq_zero_or_pos k with rfl | hk0
    · have := hwf.sizes_one_le
      have hp1 : p < hb.sizes 1 := hps
      simp only [beq_self_eq_true, Bool.true_and, beq_eq_false_iff_ne]
      change p ≠ 63
      omega
    · simp [Nat.pos_iff_ne_zero.mp hk0]
  rw [hwf.summary k hk p hpk, decide_eq_true hps, hsent, Bool.or_false, Bool.true_and]

/-- Below the groups of a range, `WF` gives the summary property that
`hb_set_between` needs. -/
theorem HBitmap.WF.summary_up (hwf : hb.WF) {f l : Nat} (hl : l < hb.size) :
    ∀ k < 6, ∀ p, f / 64 ^ (6 - k) ≤ p → p ≤ l / 64 ^ (6 - k) →
      hb.levels (k + 1) p ≠ 0 → arrayBit (hb.levels k) p = true := by
  intro k hk p hfp hpl hp
  rw [hwf.summary_eq hl k hk p hfp hpl, bne_iff_ne.mpr hp]

@[simp] theorem hbitmapSet_size (hb : HBitmap) (start count : Nat) : (hbitmapSet hb start count).size = hb.size := by
  unfold hbitmapSet; split <;> rfl

@[simp] theorem hbitmapSet_origSize (hb : HBitmap) (start count : Nat) :
    (hbitmapSet hb start count).origSize = hb.origSize := by
  unfold hbitmapSet; split <;> rfl

@[simp] theorem hbitmapSet_granularity (hb : HBitmap) (start count : Nat) :
    (hbitmapSet hb start count).granularity = hb.granularity := by
  unfold hbitmapSet; split <;> rfl

@[simp] theorem hbitmapSet_sizes (hb : HBitmap) (start count : Nat) :
    (hbitmapSet hb start count).sizes = hb.sizes := by
  unfold hbitmapSet; split <;> rfl

/-- After `hbitmap_set`, every level holds what it held and the groups of
`[start, start + count)`, or the blocks that hold them. -/
theorem arrayBit_hbitmapSet (hwf : hb.WF) {start count : Nat} (hc : 0 < count)
    (hl : (start + count - 1) >>> hb.granularity < hb.size) (k q : Nat) :
    arrayBit ((hbitmapSet hb start count).levels k) q =
      (arrayBit (hb.levels k) q || decide (k ≤ 6 ∧ start >>> hb.granularity / 64 ^ (6 - k) ≤ q ∧
        q ≤ (start + count - 1) >>> hb.granularity / 64 ^ (6 - k))) := by
  simp only [hbitmapSet, if_neg (Nat.pos_iff_ne_zero.mp hc), hbitmapLevels_sub_one]
  exact arrayBit_hbSetBetween 6 hb.levels _ _ (shiftRight_le_shiftRight (by omega) _) (hwf.summary_up hl) k q

/-- `hbitmap_set(hb, start, count)`: an element reads set iff it was set
or its group meets `[start, start + count)`. -/
theorem hbitmapGet_hbitmapSet (hwf : hb.WF) {start count : Nat} (hc : 0 < count)
    (hl : (start + count - 1) >>> hb.granularity < hb.size) (y : Nat) :
    hbitmapGet (hbitmapSet hb start count) y = (hbitmapGet hb y ||
      decide (start >>> hb.granularity ≤ y >>> hb.granularity ∧
        y >>> hb.granularity ≤ (start + count - 1) >>> hb.granularity)) := by
  rw [hbitmapGet_eq, hbitmapGet_eq, hbitmapSet_granularity, hbitmapLevels_sub_one, arrayBit_hbitmapSet hwf hc hl]
  simp

/-- Setting elements 100 to 119 of a new bitmap in groups of 4 sets element 101. -/
theorem hbitmapGet_hbitmapSet_alloc :
    (hbitmapAlloc 256 2).WF ∧ 0 < 20 ∧ (100 + 20 - 1) >>> (hbitmapAlloc 256 2).granularity < (hbitmapAlloc 256 2).size ∧
      hbitmapGet (hbitmapSet (hbitmapAlloc 256 2) 100 20) 101 = true := by
  have hwf : (hbitmapAlloc 256 2).WF := hbitmapAlloc_wf (by decide)
  refine ⟨hwf, by decide, by decide, ?_⟩
  rw [hbitmapGet_hbitmapSet hwf (by decide) (by decide)]
  decide

/-- `hbitmap_set` keeps the invariant: the new groups are summarised in
every level above, the bits past `size` stay clear, and `count` is
raised by the groups of the range that were clear. -/
theorem hbitmapSet_wf (hwf : hb.WF) {start count : Nat}
    (hl : (start + count - 1) >>> hb.granularity < hb.size) : (hbitmapSet hb start count).WF := by
  rcases Nat.eq_zero_or_pos count with rfl | hc
  · simpa [hbitmapSet] using hwf
  have hbits := arrayBit_hbitmapSet hwf hc hl
  have hfl : start >>> hb.granularity ≤ (start + count - 1) >>> hb.granularity :=
    shiftRight_le_shiftRight (by omega) _
  generalize hF : start >>> hb.granularity = f at hbits hfl
  generalize hL : (start + count - 1) >>> hb.granularity = l at hbits hfl hl
  -- a word of level `i + 1` is non-zero iff it was, or it holds a group of the range
  have hword : ∀ i < 6, ∀ j, (hbitmapSet hb start count).levels (i + 1) j ≠ 0 ↔
      hb.levels (i + 1) j ≠ 0 ∨ (f / 64 ^ (6 - i) ≤ j ∧ j ≤ l / 64 ^ (6 - i)) := by
    intro i hi j
    have hdiv : ∀ x, x / 64 ^ (6 - i) = x / 64 ^ (6 - (i + 1)) / 64 := fun x => by
      rw [show 6 - i = 6 - (i + 1) + 1 by omega, div_pow_succ]
    rw [ne_zero_iff_arrayBit, ne_zero_iff_arrayBit, hdiv f, hdiv l,
      ← exists_word_bit_iff (Nat.div_le_div_right hfl)]
    simp only [hbits, Bool.or_eq_true, decide_eq_true_eq]
    constructor
    · rintro ⟨b, hb64, h | ⟨-, h⟩⟩
      · exact Or.inl ⟨b, hb64, h⟩
      · exact Or.inr ⟨b, hb64, h⟩
    · rintro (⟨b, hb64, h⟩ | ⟨b, hb64, h⟩)
      · exact ⟨b, hb64, Or.inl h⟩
      · exact ⟨b, hb64, Or.inr ⟨by omega, h⟩⟩
  refine ⟨by simpa using hwf.size_eq, by simpa using hwf.size_le, by simpa using hwf.sizes_last,
    by simpa using hwf.sizes_succ, fun i hi j hj => ?_, fun j hj hsj => ?_, ?_⟩
  · -- the summary: a group of the range sits in a word that now is non-zero
    have hi6 : i < 6 := hi
    rw [hbitmapSet_sizes] at hj ⊢
    have hold := hwf.summary i hi j hj
    have hrange : f / 64 ^ (6 - i) ≤ j ∧ j ≤ l / 64 ^ (6 - i) → j < hb.sizes (i + 1) := fun h => by
      have := hwf.div_lt_sizes hl (d := 5 - i) (by omega)
      rw [show 5 - i + 1 = 6 - i by omega, show 6 - (5 - i) = i + 1 by omega] at this
      omega
    have hw := hword i hi6 j
    rw [hbits, hold]
    by_cases hR : f / 64 ^ (6 - i) ≤ j ∧ j ≤ l / 64 ^ (6 - i)
    · rw [decide_eq_true (⟨by omega, hR⟩ : i ≤ 6 ∧ f / 64 ^ (6 - i) ≤ j ∧ j ≤ l / 64 ^ (6 - i)),
        decide_eq_true (hrange hR), bne_iff_ne.mpr (hw.mpr (Or.inr hR))]
      simp
    · rw [decide_eq_false (fun h => hR h.2 : ¬(i ≤ 6 ∧ f / 64 ^ (6 - i) ≤ j ∧ j ≤ l / 64 ^ (6 - i))),
        Bool.or_false]
      by_cases hnz : hb.levels (i + 1) j = 0
      · have hnz' : (hbitmapSet hb start count).levels (i + 1) j = 0 :=
          not_not.mp fun h => (hw.mp h).elim (absurd hnz) hR
        rw [hnz, hnz']
      · rw [bne_iff_ne.mpr hnz, bne_iff_ne.mpr (hw.mpr (Or.inl hnz))]
  · -- past `size` nothing is set
    rw [hbitmapSet_sizes, hbitmapSet_size] at *
    rw [hbits, hwf.tail j hj hsj]
    simp only [hbitmapLevels_sub_one, Nat.sub_self, Nat.pow_zero, Nat.div_one, Bool.false_or,
      decide_eq_false_iff_not]
    omega
  · -- the count: the groups of the range that were clear are added
    have hcount : (hbitmapSet hb start count).count = hb.count + (l - f + 1 - hbCountBetween hb f l) := by
      simp only [hbitmapSet, if_neg (Nat.pos_iff_ne_zero.mp hc), hF, hL]
    rw [hcount, hbCountBetween_eq hwf hfl hl, hwf.count_eq, hbitmapSet_size]
    have hnew : (List.range hb.size).countP (arrayBit ((hbitmapSet hb start count).levels (hbitmapLevels - 1))) =
        (List.range hb.size).countP (fun x => arrayBit (hb.levels (hbitmapLevels - 1)) x || decide (f ≤ x ∧ x ≤ l)) :=
      List.countP_congr fun x _ => by
        rw [hbits]
        simp only [hbitmapLevels_sub_one, Nat.sub_self, Nat.pow_zero, Nat.div_one, le_refl, true_and]
    have hmid := groupCount_eq_countP (a := f) (show l + 1 ≤ hb.size by omega)
    have hle : groupCount hb f (l + 1) ≤ l + 1 - f := by
      rw [hmid]
      exact le_of_le_of_eq (List.countP_le_length) (List.length_range')
    have := countP_or_range (P := arrayBit (hb.levels (hbitmapLevels - 1))) hfl hl
    omega

/-- `hbitmap_set` adds the groups of the range to those the bitmap holds. -/
theorem dirty_hbitmapSet (hwf : hb.WF) {start count : Nat} (hc : 0 < count)
    (hl : (start + count - 1) >>> hb.granularity < hb.size) :
    (hbitmapSet hb start count).dirty =
      hb.dirty ∪ Set.Icc (start >>> hb.granularity) ((start + count - 1) >>> hb.granularity) := by
  ext x
  simp only [HBitmap.dirty, hbitmapLevels_sub_one, hbitmapSet_size, arrayBit_hbitmapSet hwf hc hl,
    Nat.sub_self, pow_zero, Nat.div_one, Set.mem_union, Set.mem_ofPred_eq, Set.mem_Icc, Bool.or_eq_true,
    decide_eq_true_eq]
  -- the range lies below `size`
  have hlt : x ≤ (start + count - 1) >>> hb.granularity → x < hb.size := fun h => lt_of_le_of_lt h hl
  have h66 : (6 ≤ 6) = True := eq_true (Nat.le_refl 6)
  simp only [h66, true_and]
  tauto

end Set

/-! ## `hbitmap_reset` -/

section Reset

variable {hb : HBitmap}

@[simp] theorem hbitmapReset_size (hb : HBitmap) (start count : Nat) :
    (hbitmapReset hb start count).size = hb.size := by
  unfold hbitmapReset; split <;> rfl

@[simp] theorem hbitmapReset_origSize (hb : HBitmap) (start count : Nat) :
    (hbitmapReset hb start count).origSize = hb.origSize := by
  unfold hbitmapReset; split <;> rfl

@[simp] theorem hbitmapReset_granularity (hb : HBitmap) (start count : Nat) :
    (hbitmapReset hb start count).granularity = hb.granularity := by
  unfold hbitmapReset; split <;> rfl

@[simp] theorem hbitmapReset_sizes (hb : HBitmap) (start count : Nat) :
    (hbitmapReset hb start count).sizes = hb.sizes := by
  unfold hbitmapReset; split <;> rfl

/-- The levels after `hbitmap_reset`: the groups of `[start, start + count)`
cleared, and above them what the levels below now hold. -/
theorem hbitmapReset_resetSpec (hwf : hb.WF) {start count : Nat} (hc : 0 < count)
    (hl : (start + count - 1) >>> hb.granularity < hb.size) :
    ResetSpec hb.levels (hbitmapReset hb start count).levels 6 (start >>> hb.granularity)
      ((start + count - 1) >>> hb.granularity) := by
  simp only [hbitmapReset, if_neg (Nat.pos_iff_ne_zero.mp hc), hbitmapLevels_sub_one]
  exact hbResetBetween_resetSpec 6 hb.levels _ _ (shiftRight_le_shiftRight (by omega) _) (hwf.summary_eq hl)

/-- `hbitmap_reset(hb, start, count)`: an element reads set iff it was set
and its group is not one of the groups of `[start, start + count)`. -/
theorem hbitmapGet_hbitmapReset (hwf : hb.WF) {start count : Nat} (hc : 0 < count)
    (hl : (start + count - 1) >>> hb.granularity < hb.size) (y : Nat) :
    hbitmapGet (hbitmapReset hb start count) y = (hbitmapGet hb y &&
      !decide (start >>> hb.granularity ≤ y >>> hb.granularity ∧
        y >>> hb.granularity ≤ (start + count - 1) >>> hb.granularity)) := by
  rw [hbitmapGet_eq, hbitmapGet_eq, hbitmapReset_granularity, hbitmapLevels_sub_one,
    hbitmapReset_resetSpec hwf hc hl, if_neg (Nat.lt_irrefl 6), if_pos rfl]

/-- `hbitmap_reset` keeps the invariant: a level above the range
summarises the words below as they now are, the bits past `size` stay
clear, and `count` loses the groups of the range that were set. -/
theorem hbitmapReset_wf (hwf : hb.WF) {start count : Nat}
    (hl : (start + count - 1) >>> hb.granularity < hb.size) : (hbitmapReset hb start count).WF := by
  rcases Nat.eq_zero_or_pos count with rfl | hc
  · simpa [hbitmapReset] using hwf
  have hspec := hbitmapReset_resetSpec hwf hc hl
  have hfl : start >>> hb.granularity ≤ (start + count - 1) >>> hb.granularity :=
    shiftRight_le_shiftRight (by omega) _
  generalize hF : start >>> hb.granularity = f at hspec hfl
  generalize hL : (start + count - 1) >>> hb.granularity = l at hspec hfl hl
  refine ⟨by simpa using hwf.size_eq, by simpa using hwf.size_le, by simpa using hwf.sizes_last,
    by simpa using hwf.sizes_succ, fun i hi j hj => ?_, fun j hj hsj => ?_, ?_⟩
  · -- the summary: over the range it is what the reset left, elsewhere as it was
    have hi6 : i < 6 := hi
    rw [hbitmapReset_sizes] at hj ⊢
    rw [hspec, if_neg (show ¬6 < i by omega), if_neg (show i ≠ 6 by omega)]
    by_cases hR : f / 64 ^ (6 - i) ≤ j ∧ j ≤ l / 64 ^ (6 - i)
    · rw [if_pos hR]
      have hsum := hwf.summary_eq hl i hi6 j hR.1 hR.2
      rw [hwf.summary i hi j hj] at hsum
      -- the word is backed and is not the sentinel, as the old summary shows
      have hps : j < hb.sizes (i + 1) := by
        have := hwf.div_lt_sizes hl (d := 5 - i) (by omega)
        rw [show 5 - i + 1 = 6 - i by omega, show 6 - (5 - i) = i + 1 by omega] at this
        omega
      have hsent : (i == 0 && j == bitsPerLong - 1) = false := by
        rcases Nat.eq_zero_or_pos i with rfl | hi0
        · have := hwf.sizes_one_le
          have hp1 : j < hb.sizes 1 := hps
          simp only [beq_self_eq_true, Bool.true_and, beq_eq_false_iff_ne]
          change j ≠ 63
          omega
        · simp [Nat.pos_iff_ne_zero.mp hi0]
      rw [decide_eq_true hps, hsent, Bool.or_false, Bool.true_and]
    · rw [if_neg hR, hwf.summary i hi j hj, hspec.frame hi6 hR]
  · -- past `size` nothing is set
    rw [hbitmapReset_sizes, hbitmapReset_size] at *
    have htail := hwf.tail j hj hsj
    rw [hbitmapLevels_sub_one] at htail ⊢
    rw [hspec, if_neg (by decide), if_pos rfl, htail, Bool.false_and]
  · -- the count: the groups of the range that were set are removed
    have hcount : (hbitmapReset hb start count).count = hb.count - hbCountBetween hb f l := by
      simp only [hbitmapReset, if_neg (Nat.pos_iff_ne_zero.mp hc), hF, hL]
    rw [hcount, hbCountBetween_eq hwf hfl hl, hwf.count_eq, hbitmapReset_size]
    have hnew : (List.range hb.size).countP (arrayBit ((hbitmapReset hb start count).levels (hbitmapLevels - 1))) =
        (List.range hb.size).countP
          (fun x => arrayBit (hb.levels (hbitmapLevels - 1)) x && !decide (f ≤ x ∧ x ≤ l)) :=
      List.countP_congr fun x _ => by
        rw [hbitmapLevels_sub_one, hspec, if_neg (by decide), if_pos rfl]
    have hmid := groupCount_eq_countP (a := f) (show l + 1 ≤ hb.size by omega)
    have := countP_and_not_range (P := arrayBit (hb.levels (hbitmapLevels - 1))) hfl hl
    omega

/-- `hbitmap_reset` removes the groups of the range from those the bitmap holds. -/
theorem dirty_hbitmapReset (hwf : hb.WF) {start count : Nat} (hc : 0 < count)
    (hl : (start + count - 1) >>> hb.granularity < hb.size) :
    (hbitmapReset hb start count).dirty =
      hb.dirty \ Set.Icc (start >>> hb.granularity) ((start + count - 1) >>> hb.granularity) := by
  ext x
  have hx := hbitmapReset_resetSpec hwf hc hl 6 x
  rw [if_neg (Nat.lt_irrefl 6), if_pos rfl] at hx
  simp only [HBitmap.dirty, hbitmapLevels_sub_one, hbitmapReset_size, hx, Set.mem_sdiff, Set.mem_ofPred_eq,
    Set.mem_Icc, Bool.and_eq_true, Bool.not_eq_true', decide_eq_false_iff_not]
  tauto

end Reset

/-! ## `hbitmap_reset_all` -/

section ResetAll

variable {hb : HBitmap}

@[simp] theorem hbitmapResetAll_size (hb : HBitmap) : (hbitmapResetAll hb).size = hb.size := rfl

@[simp] theorem hbitmapResetAll_origSize (hb : HBitmap) : (hbitmapResetAll hb).origSize = hb.origSize := rfl

@[simp] theorem hbitmapResetAll_granularity (hb : HBitmap) :
    (hbitmapResetAll hb).granularity = hb.granularity := rfl

@[simp] theorem hbitmapResetAll_sizes (hb : HBitmap) : (hbitmapResetAll hb).sizes = hb.sizes := rfl

theorem hbitmapResetAll_levels (hb : HBitmap) (i j : Nat) :
    (hbitmapResetAll hb).levels i j =
      if i = 0 ∧ j = 0 then hbitmapSentinel
      else if 1 ≤ i ∧ i < hbitmapLevels ∧ j < hb.sizes i then 0 else hb.levels i j := by
  unfold hbitmapResetAll setLevelWord
  by_cases hi : i = 0
  · subst hi
    by_cases hj : j = 0 <;> simp [hj]
  · simp [hi]

/-- After `hbitmap_reset_all` every backed word is zero but word 0 of
level 0, which holds only the sentinel. -/
theorem arrayBit_hbitmapResetAll (hwf : hb.WF) {i q : Nat} (hi : i < hbitmapLevels) (hq : q / 64 < hb.sizes i) :
    arrayBit ((hbitmapResetAll hb).levels i) q = (i == 0 && q == 63) := by
  unfold arrayBit
  rw [hbitmapResetAll_levels]
  rcases Nat.eq_zero_or_pos i with rfl | hi0
  · have hq0 : q / 64 = 0 := by
      have := hwf.sizes_zero
      omega
    rw [if_pos ⟨rfl, hq0⟩, bit_hbitmapSentinel, Nat.mod_eq_of_lt (show q < 64 by omega)]
    rfl
  · rw [if_neg (by omega), if_pos ⟨hi0, hi, hq⟩, bit_zero]
    simp [Nat.pos_iff_ne_zero.mp hi0]

theorem hbitmapResetAll_wf (hwf : hb.WF) : (hbitmapResetAll hb).WF := by
  refine ⟨hwf.size_eq, hwf.size_le, hwf.sizes_last, hwf.sizes_succ, fun i hi j hj => ?_, fun j hj _ => ?_, ?_⟩
  · have hi6 : i < 6 := hi
    have hjw : j / 64 < hb.sizes i := by
      change j < 64 * (hbitmapResetAll hb).sizes i at hj
      rw [hbitmapResetAll_sizes] at hj
      omega
    rw [hbitmapResetAll_sizes, arrayBit_hbitmapResetAll hwf (show i < 7 by omega) hjw]
    -- the words of level `i + 1` are all zero now
    by_cases hjs : j < hb.sizes (i + 1)
    · rw [hbitmapResetAll_levels, if_neg (by omega), if_pos ⟨by omega, show i + 1 < 7 by omega, hjs⟩]
      simp only [bne_self_eq_false, Bool.and_false, Bool.false_or]
      rfl
    · simp only [hjs, decide_false, Bool.false_and, Bool.false_or]
      rfl
  · have hjw : j / 64 < hb.sizes 6 := by
      change j < 64 * (hbitmapResetAll hb).sizes 6 at hj
      rw [hbitmapResetAll_sizes] at hj
      omega
    rw [hbitmapLevels_sub_one, arrayBit_hbitmapResetAll hwf (by decide) hjw]
    rfl
  · show 0 = _
    rw [eq_comm, List.countP_eq_zero]
    intro x hx
    rw [List.mem_range, hbitmapResetAll_size] at hx
    have hxs : x / 64 < hb.sizes (hbitmapLevels - 1) := by
      rw [hwf.sizes_last]
      exact div_lt_wordsFor hx
    rw [arrayBit_hbitmapResetAll hwf (by decide) hxs]
    exact Bool.false_ne_true

/-- `hbitmap_reset_all` leaves no group set. -/
theorem dirty_hbitmapResetAll (hwf : hb.WF) : (hbitmapResetAll hb).dirty = ∅ := by
  ext x
  simp only [HBitmap.dirty, hbitmapResetAll_size, Set.mem_ofPred_eq, Set.mem_empty_iff_false, iff_false, not_and]
  intro hx
  have hxs : x / 64 < hb.sizes (hbitmapLevels - 1) := by
    rw [hwf.sizes_last]
    exact div_lt_wordsFor hx
  rw [arrayBit_hbitmapResetAll hwf (by decide) hxs]
  exact Bool.false_ne_true

end ResetAll

end QemuFormal.Hbitmap

/-
QemuFormal.Util.BitmapTheorems — which bits the range operations of
`util/bitmap.c` touch.

Every range operation walks `[start, start + nr)` as a first word from
bit `start % 64` up, whole words, and a last word below
`(start + nr) % 64`. Its effect on one word is an operation with a mask
(`arrayBit_update_op`); `BITMAP_FIRST_WORD_MASK(c)` on the word of `c`
covers `[c, c + (64 - c % 64))` (`arrayBit_firstWord`), and
`FIRST(c) & LAST(c + n)` covers `[c, c + n)` (`arrayBit_lastWord`).

- `bitmap_set` and `bitmap_clear` share one loop, whose invariant is a
  position `c` with the mask `FIRST(c)` and the bits `64 - c % 64` left
  in its word (`bitmapRangeLoop_spec`); they set, resp. clear, exactly
  the range (`arrayBit_bitmapSet`, `arrayBit_bitmapClear`).
- `bitmap_set_atomic` and `bitmap_test_and_clear_atomic` take the first
  word only when the range goes past it and reset the mask to `~0UL`
  after it: they do what `bitmap_set` and `bitmap_clear` do, and the
  latter reports whether a bit of the range was set.
- `bitmap_test_and_clear` keeps `FIRST(start)` as the mask of the last
  word. When a range starts inside a word and reaches past it, the low
  `start % 64` bits of the last word are neither cleared nor tested
  (`arrayBit_bitmapTestAndClear`, `bitmapTestAndClear_dirty_iff`).
-/
import QemuFormal.Util.Bitmap

namespace QemuFormal.Bitmap

open Bits
open Function (update)

/-! ## The masks -/

theorem bit_bitmapFirstWordMask (start j : Nat) :
    bit (bitmapFirstWordMask start) j = (decide (j < 64) && decide (start % 64 ≤ j)) := by
  have hs := toNat_and_63 start
  rw [bitmapFirstWordMask, bit_shiftLeft _ _ (by omega), hs, bit_allOnes]
  by_cases hj : j < 64
  · have : j - start % 64 < 64 := by omega
    simp [hj, this]
  · simp [hj]

theorem bit_bitmapLastWordMask (nbits j : Nat) :
    bit (bitmapLastWordMask nbits) j = decide (j + (64 - nbits % 64) % 64 < 64) := by
  have hs := toNat_neg_and_63 nbits
  rw [bitmapLastWordMask, bit_shiftRight _ _ (by omega), hs, bit_allOnes, Nat.add_comm]

theorem bitmapFirstWordMask_of_mod_eq_zero {c : Nat} (h : c % 64 = 0) : bitmapFirstWordMask c = ~~~0 := by
  apply ext_bit
  intro j hj
  rw [bit_bitmapFirstWordMask, bit_allOnes, h]
  simp [hj]

/-- Under `FIRST(c)` in the word of `c`: the bits from `c` to the end of that word. -/
theorem inFirstWord_iff (c g : Nat) :
    (g / 64 = c / 64 ∧ bit (bitmapFirstWordMask c) (g % 64) = true) ↔ (c ≤ g ∧ g < c + (64 - c % 64)) := by
  have hj : g % 64 < 64 := Nat.mod_lt _ (by decide)
  simp only [bit_bitmapFirstWordMask, hj, decide_true, Bool.true_and, decide_eq_true_eq]
  omega

/-- Under `FIRST(s) & LAST(c + n)` in the word of `c`, for a range `[c, c + n)` within that word. -/
theorem inLastWord_iff {s c n : Nat} (g : Nat) (hn : n ≤ 64 - c % 64) (hn0 : n ≠ 0) :
    (g / 64 = c / 64 ∧ bit (bitmapFirstWordMask s &&& bitmapLastWordMask (c + n)) (g % 64) = true) ↔
      (g / 64 = c / 64 ∧ s % 64 ≤ g % 64 ∧ g < c + n) := by
  have hj : g % 64 < 64 := Nat.mod_lt _ (by decide)
  simp only [bit_and, bit_bitmapFirstWordMask, bit_bitmapLastWordMask, hj, decide_true, Bool.true_and,
    Bool.and_eq_true, decide_eq_true_eq]
  omega

theorem inLastWord_self_iff {c n : Nat} (g : Nat) (hn : n ≤ 64 - c % 64) (hn0 : n ≠ 0) :
    (g / 64 = c / 64 ∧ bit (bitmapFirstWordMask c &&& bitmapLastWordMask (c + n)) (g % 64) = true) ↔
      (c ≤ g ∧ g < c + n) := by
  rw [inLastWord_iff g hn hn0]
  omega

/-! ## One word under a mask

`op` puts a mask into a word bit by bit, by `f`; a bit outside the mask
stays. -/

section Op

variable {op : UInt64 → UInt64 → UInt64} {f : Bool → Bool → Bool}
  (hop : ∀ w m, ∀ j < 64, bit (op w m) j = f (bit w j) (bit m j)) (hf : ∀ b, f b false = b)
include hop hf

theorem arrayBit_update_op (map : Nat → UInt64) (p : Nat) (m : UInt64) (g : Nat) :
    arrayBit (update map p (op (map p) m)) g =
      if g / 64 = p ∧ bit m (g % 64) = true then f (arrayBit map g) true else arrayBit map g := by
  rw [arrayBit_update]
  by_cases hp : g / 64 = p
  · subst hp
    rw [hop _ _ _ (Nat.mod_lt _ (by decide))]
    cases bit m (g % 64) <;> simp [arrayBit, hf]
  · simp [hp]

theorem arrayBit_firstWord (map : Nat → UInt64) (c g : Nat) :
    arrayBit (update map (c / 64) (op (map (c / 64)) (bitmapFirstWordMask c))) g =
      if c ≤ g ∧ g < c + (64 - c % 64) then f (arrayBit map g) true else arrayBit map g := by
  rw [arrayBit_update_op hop hf]
  simp only [inFirstWord_iff]

theorem arrayBit_lastWord (map : Nat → UInt64) (c n g : Nat) (hn : n ≤ 64 - c % 64) :
    arrayBit (if n ≠ 0 then update map (c / 64) (op (map (c / 64)) (bitmapFirstWordMask c &&& bitmapLastWordMask (c + n)))
      else map) g = if c ≤ g ∧ g < c + n then f (arrayBit map g) true else arrayBit map g := by
  by_cases hn0 : n = 0
  · subst hn0
    simp
  · rw [if_pos hn0, arrayBit_update_op hop hf]
    simp only [inLastWord_self_iff g hn hn0]

/-! ## `bitmap_set` and `bitmap_clear` -/

/-- The loop of `bitmap_set` and `bitmap_clear`, entered at position
`c`: it takes `k` more bits, which leaves fewer than the rest of the
word of `c + k`, and applies `op` to `[c, c + k)`. -/
theorem bitmapRangeLoop_spec (fuel : Nat) (map : Nat → UInt64) (c nr : Nat) (hfuel : nr < fuel) :
    ∃ k ≤ nr, ∃ map' : Nat → UInt64, nr - k < 64 - (c + k) % 64 ∧
      bitmapRangeLoop op fuel map (c / 64) nr (64 - c % 64) (bitmapFirstWordMask c) =
        (map', (c + k) / 64, nr - k, bitmapFirstWordMask (c + k)) ∧
      ∀ g, arrayBit map' g = if c ≤ g ∧ g < c + k then f (arrayBit map g) true else arrayBit map g := by
  induction fuel generalizing map c nr with
  | zero => omega
  | succ fuel ih =>
    rw [bitmapRangeLoop, show bitsPerLong = 64 from rfl]
    by_cases hb : 64 - c % 64 ≤ nr
    · -- the word of `c`, then the loop from the next word boundary
      rw [if_pos hb]
      have hmod : (c + (64 - c % 64)) % 64 = 0 := by omega
      obtain ⟨k, hk, map', hlt, hrun, hbits⟩ :=
        ih (update map (c / 64) (op (map (c / 64)) (bitmapFirstWordMask c))) (c + (64 - c % 64))
          (nr - (64 - c % 64)) (by omega)
      rw [hmod, Nat.sub_zero, bitmapFirstWordMask_of_mod_eq_zero hmod,
        show (c + (64 - c % 64)) / 64 = c / 64 + 1 by omega] at hrun
      refine ⟨64 - c % 64 + k, by omega, map', by omega, ?_, ?_⟩
      · rw [hrun, ← Nat.add_assoc, Nat.sub_sub]
      · intro g
        rw [hbits, arrayBit_firstWord hop hf]
        split_ifs <;> first | rfl | omega
    · rw [if_neg hb]
      refine ⟨0, Nat.zero_le _, map, by omega, rfl, fun g => ?_⟩
      rw [if_neg (by omega)]

theorem arrayBit_bitmapRange (map : Nat → UInt64) (start nr g : Nat) :
    arrayBit (bitmapRange op map start nr) g =
      if start ≤ g ∧ g < start + nr then f (arrayBit map g) true else arrayBit map g := by
  obtain ⟨k, hk, map', hlt, hrun, hbits⟩ := bitmapRangeLoop_spec hop hf (nr + 1) map start nr (Nat.lt_succ_self nr)
  have hsize : start + nr = (start + k) + (nr - k) := by omega
  unfold bitmapRange
  rw [show bitWord start = start / 64 from rfl, show bitsPerLong = 64 from rfl, hrun]
  dsimp only
  rw [hsize, arrayBit_lastWord hop hf map' _ _ g hlt.le, hbits]
  split_ifs <;> first | rfl | omega

/-- The last word from a word boundary, where the mask `FIRST(c)` is `~0UL`. -/
theorem arrayBit_lastWord_boundary (map : Nat → UInt64) (p n g : Nat) (hn : n < 64) :
    arrayBit (if n ≠ 0 then update map p (op (map p) (~~~0 &&& bitmapLastWordMask (64 * p + n))) else map) g =
      if 64 * p ≤ g ∧ g < 64 * p + n then f (arrayBit map g) true else arrayBit map g := by
  have h := arrayBit_lastWord hop hf map (64 * p) n g (by omega)
  rwa [bitmapFirstWordMask_of_mod_eq_zero (by omega), Nat.mul_div_cancel_left _ (by decide)] at h

end Op

theorem bit_or_op (w m : UInt64) (j : Nat) (_ : j < 64) : bit (w ||| m) j = (bit w j || bit m j) :=
  bit_or w m j

theorem bit_and_not_op (w m : UInt64) (j : Nat) (hj : j < 64) : bit (w &&& ~~~m) j = (bit w j && !bit m j) := by
  simp [hj]

theorem arrayBit_bitmapSet (map : Nat → UInt64) (start nr g : Nat) :
    arrayBit (bitmapSet map start nr) g = (arrayBit map g || decide (start ≤ g ∧ g < start + nr)) := by
  rw [bitmapSet, arrayBit_bitmapRange bit_or_op Bool.or_false]
  split_ifs with h <;> simp [h]

theorem arrayBit_bitmapClear (map : Nat → UInt64) (start nr g : Nat) :
    arrayBit (bitmapClear map start nr) g = (arrayBit map g && !decide (start ≤ g ∧ g < start + nr)) := by
  rw [bitmapClear, arrayBit_bitmapRange (f := fun b m => b && !m) bit_and_not_op Bool.and_true]
  split_ifs with h <;> simp [h]

/-! ## `bitmap_set_atomic` -/

/-- The whole-word loop of `bitmap_set_atomic` fills the words `p` to `p + nr / 64`. -/
theorem bitmapSetAtomicLoop_spec (fuel : Nat) (map : Nat → UInt64) (p nr : Nat) (hfuel : nr / 64 < fuel) :
    ∃ map' : Nat → UInt64, bitmapSetAtomicLoop fuel map p nr = (map', p + nr / 64, nr % 64) ∧
      ∀ g, arrayBit map' g = if 64 * p ≤ g ∧ g < 64 * (p + nr / 64) then true else arrayBit map g := by
  induction fuel generalizing map p nr with
  | zero => omega
  | succ fuel ih =>
    rw [bitmapSetAtomicLoop, show bitsPerLong = 64 from rfl]
    by_cases hw : nr ≥ 64
    · rw [if_pos hw]
      obtain ⟨map', hrun, hbits⟩ := ih (update map p (~~~0)) (p + 1) (nr - 64) (by omega)
      refine ⟨map', ?_, fun g => ?_⟩
      · rw [hrun, show p + 1 + (nr - 64) / 64 = p + nr / 64 by omega, show (nr - 64) % 64 = nr % 64 by omega]
      · rw [hbits, arrayBit_update, bit_allOnes, decide_eq_true (Nat.mod_lt _ (by decide))]
        split_ifs <;> first | rfl | omega
    · rw [if_neg hw]
      refine ⟨map, by rw [show nr / 64 = 0 by omega, Nat.add_zero, Nat.mod_eq_of_lt (by omega)], fun g => ?_⟩
      rw [if_neg (by omega)]

/-- `bitmap_set_atomic` sets what `bitmap_set` sets. -/
theorem bitmapSetAtomic_eq_bitmapSet (map : Nat → UInt64) (start nr : Nat) :
    bitmapSetAtomic map start nr = bitmapSet map start nr := by
  apply arrayBit_ext
  intro g
  rw [bitmapSet, arrayBit_bitmapRange bit_or_op Bool.or_false]
  simp only [Bool.or_true]
  unfold bitmapSetAtomic
  rw [show bitWord start = start / 64 from rfl, show bitsPerLong = 64 from rfl]
  dsimp only
  by_cases h1 : nr > 64 - start % 64
  · -- a first word, then whole words and a last word from the next boundary
    rw [if_pos h1]
    obtain ⟨map', hrun, hbits⟩ := bitmapSetAtomicLoop_spec (nr - (64 - start % 64) + 1)
      (update map (start / 64) (map (start / 64) ||| bitmapFirstWordMask start)) (start / 64 + 1)
      (nr - (64 - start % 64)) (by omega)
    simp only [↓reduceIte, hrun]
    rw [show start + nr = 64 * (start / 64 + 1 + (nr - (64 - start % 64)) / 64) + (nr - (64 - start % 64)) % 64
      by omega, arrayBit_lastWord_boundary bit_or_op Bool.or_false _ _ _ _ (Nat.mod_lt _ (by decide)), hbits,
      arrayBit_firstWord bit_or_op Bool.or_false]
    simp only [Bool.or_true]
    split_ifs <;> first | rfl | omega
  · rw [if_neg h1]
    by_cases h0 : start % 64 = 0
    · -- whole words and a last word from the boundary `start`
      obtain ⟨map', hrun, hbits⟩ := bitmapSetAtomicLoop_spec (nr + 1) map (start / 64) nr (by omega)
      simp only [h0, Nat.sub_zero, ↓reduceIte, hrun]
      rw [bitmapFirstWordMask_of_mod_eq_zero h0, show start + nr = 64 * (start / 64 + nr / 64) + nr % 64 by omega,
        arrayBit_lastWord_boundary bit_or_op Bool.or_false _ _ _ _ (Nat.mod_lt _ (by decide)), hbits]
      simp only [Bool.or_true]
      split_ifs <;> first | rfl | omega
    · -- the range lies in the word of `start`
      have hne : ¬ 64 - start % 64 = 64 := by omega
      simp only [hne, ↓reduceIte]
      rw [arrayBit_lastWord bit_or_op Bool.or_false _ _ _ _ (by omega)]
      simp only [Bool.or_true]

/-! ## What a test of words sees -/

/-- Some bit of `[a, b)` is set. -/
def AnySet (map : Nat → UInt64) (a b : Nat) : Prop := ∃ g, a ≤ g ∧ g < b ∧ arrayBit map g = true

theorem anySet_split {map : Nat → UInt64} {a b c : Nat} (hab : a ≤ b) (hbc : b ≤ c) :
    AnySet map a c ↔ AnySet map a b ∨ AnySet map b c := by
  constructor
  · rintro ⟨g, hag, hgc, hg⟩
    by_cases hgb : g < b
    · exact .inl ⟨g, hag, hgb, hg⟩
    · exact .inr ⟨g, by omega, hgc, hg⟩
  · rintro (⟨g, hag, hgb, hg⟩ | ⟨g, hbg, hgc, hg⟩)
    · exact ⟨g, hag, by omega, hg⟩
    · exact ⟨g, by omega, hgc, hg⟩

theorem not_anySet_of_le {map : Nat → UInt64} {a b : Nat} (h : b ≤ a) : ¬ AnySet map a b := by
  rintro ⟨g, hag, hgb, -⟩
  omega

/-- Only the bits of `[a, b)` matter. -/
theorem anySet_congr {map map' : Nat → UInt64} {a b : Nat}
    (h : ∀ g, a ≤ g → g < b → arrayBit map' g = arrayBit map g) : AnySet map' a b ↔ AnySet map a b := by
  constructor
  · rintro ⟨g, hag, hgb, hg⟩
    exact ⟨g, hag, hgb, by rwa [← h g hag hgb]⟩
  · rintro ⟨g, hag, hgb, hg⟩
    exact ⟨g, hag, hgb, by rwa [h g hag hgb]⟩

theorem word_ne_zero_iff (map : Nat → UInt64) (p : Nat) : map p ≠ 0 ↔ AnySet map (64 * p) (64 * p + 64) := by
  rw [ne_zero_iff_exists_bit]
  constructor
  · rintro ⟨j, hj, hb⟩
    exact ⟨64 * p + j, by omega, by omega, by rwa [arrayBit_word map p j hj]⟩
  · rintro ⟨g, hpg, hgp, hb⟩
    refine ⟨g - 64 * p, by omega, ?_⟩
    rwa [← arrayBit_word map p _ (by omega), show 64 * p + (g - 64 * p) = g by omega]

theorem firstWord_ne_zero_iff (map : Nat → UInt64) (c : Nat) :
    map (c / 64) &&& bitmapFirstWordMask c ≠ 0 ↔ AnySet map c (c + (64 - c % 64)) := by
  rw [word_and_ne_zero_iff]
  constructor
  · rintro ⟨g, hg, hm, hb⟩
    obtain ⟨hcg, hgc⟩ := (inFirstWord_iff c g).mp ⟨hg, hm⟩
    exact ⟨g, hcg, hgc, hb⟩
  · rintro ⟨g, hcg, hgc, hb⟩
    obtain ⟨hg, hm⟩ := (inFirstWord_iff c g).mpr ⟨hcg, hgc⟩
    exact ⟨g, hg, hm, hb⟩

theorem lastWord_ne_zero_iff (map : Nat → UInt64) {c n : Nat} (hn : n ≤ 64 - c % 64) (hn0 : n ≠ 0) :
    map (c / 64) &&& (bitmapFirstWordMask c &&& bitmapLastWordMask (c + n)) ≠ 0 ↔ AnySet map c (c + n) := by
  rw [word_and_ne_zero_iff]
  constructor
  · rintro ⟨g, hg, hm, hb⟩
    obtain ⟨hcg, hgc⟩ := (inLastWord_self_iff g hn hn0).mp ⟨hg, hm⟩
    exact ⟨g, hcg, hgc, hb⟩
  · rintro ⟨g, hcg, hgc, hb⟩
    obtain ⟨hg, hm⟩ := (inLastWord_self_iff g hn hn0).mpr ⟨hcg, hgc⟩
    exact ⟨g, hg, hm, hb⟩

/-! ## `bitmap_test_and_clear_atomic` -/

/-- The whole-word loop of `bitmap_test_and_clear_atomic` clears the
words `p` to `p + nr / 64` and collects their bits into `dirty`. -/
theorem bitmapTestAndClearAtomicLoop_spec (fuel : Nat) (map : Nat → UInt64) (p nr : Nat) (dirty : UInt64)
    (hfuel : nr / 64 < fuel) :
    ∃ (map' : Nat → UInt64) (dirty' : UInt64),
      bitmapTestAndClearAtomicLoop fuel map p nr dirty = (map', p + nr / 64, nr % 64, dirty') ∧
      (∀ g, arrayBit map' g = if 64 * p ≤ g ∧ g < 64 * (p + nr / 64) then false else arrayBit map g) ∧
      (dirty' ≠ 0 ↔ dirty ≠ 0 ∨ AnySet map (64 * p) (64 * (p + nr / 64))) := by
  induction fuel generalizing map p nr dirty with
  | zero => omega
  | succ fuel ih =>
    rw [bitmapTestAndClearAtomicLoop, show bitsPerLong = 64 from rfl]
    by_cases hw : nr ≥ 64
    · rw [if_pos hw]
      have hnext : p + 1 + (nr - 64) / 64 = p + nr / 64 := by omega
      have hmod : (nr - 64) % 64 = nr % 64 := by omega
      have hsplit : AnySet map (64 * p) (64 * (p + nr / 64)) ↔
          map p ≠ 0 ∨ AnySet map (64 * (p + 1)) (64 * (p + nr / 64)) := by
        rw [anySet_split (b := 64 * (p + 1)) (by omega) (by omega), word_ne_zero_iff, Nat.mul_succ]
      by_cases hz : map p ≠ 0
      · -- a non-zero word is cleared and its bits go into `dirty`
        rw [if_pos hz]
        obtain ⟨map', dirty', hrun, hbits, hdirty⟩ :=
          ih (update map p 0) (p + 1) (nr - 64) (dirty ||| map p) (by omega)
        rw [hnext, hmod] at hrun
        rw [hnext] at hbits hdirty
        refine ⟨map', dirty', hrun, fun g => ?_, ?_⟩
        · rw [hbits, arrayBit_update, bit_zero]
          split_ifs <;> first | rfl | omega
        · have hrest : AnySet (update map p 0) (64 * (p + 1)) (64 * (p + nr / 64)) ↔
              AnySet map (64 * (p + 1)) (64 * (p + nr / 64)) :=
            anySet_congr fun g hg _ => by rw [arrayBit_update, if_neg (by omega)]
          rw [hdirty, or_ne_zero_iff, hrest, hsplit, or_assoc]
      · -- a zero word has nothing to clear or report
        rw [if_neg hz]
        have hzero : map p = 0 := not_not.mp hz
        obtain ⟨map', dirty', hrun, hbits, hdirty⟩ := ih map (p + 1) (nr - 64) dirty (by omega)
        rw [hnext, hmod] at hrun
        rw [hnext] at hbits hdirty
        refine ⟨map', dirty', hrun, fun g => ?_, ?_⟩
        · rw [hbits]
          by_cases hg : g / 64 = p
          · have : arrayBit map g = false := by
              rw [arrayBit, hg, hzero, bit_zero]
            split_ifs <;> first | rfl | omega
          · split_ifs <;> first | rfl | omega
        · rw [hdirty, hsplit]
          simp only [hz, false_or]
    · rw [if_neg hw]
      have h0 : nr / 64 = 0 := by omega
      refine ⟨map, dirty, by rw [h0, Nat.add_zero, Nat.mod_eq_of_lt (by omega)], fun g => ?_, ?_⟩
      · rw [if_neg (by omega)]
      · rw [h0, Nat.add_zero]
        simp only [not_anySet_of_le (le_refl _), or_false]

/-- The last word of `bitmap_test_and_clear_atomic`, for a range
`[c, c + n)` within the word of `c`. -/
theorem testAndClearAtomicLastWord_spec (map : Nat → UInt64) (dirty : UInt64) {c n : Nat}
    (hn : n ≤ 64 - c % 64) :
    (∀ g, arrayBit (if n ≠ 0 then
        (update map (c / 64) (map (c / 64) &&& ~~~(bitmapFirstWordMask c &&& bitmapLastWordMask (c + n))),
          dirty ||| map (c / 64) &&& (bitmapFirstWordMask c &&& bitmapLastWordMask (c + n)) != 0)
        else (map, dirty != 0)).1 g = if c ≤ g ∧ g < c + n then false else arrayBit map g) ∧
    ((if n ≠ 0 then
        (update map (c / 64) (map (c / 64) &&& ~~~(bitmapFirstWordMask c &&& bitmapLastWordMask (c + n))),
          dirty ||| map (c / 64) &&& (bitmapFirstWordMask c &&& bitmapLastWordMask (c + n)) != 0)
        else (map, dirty != 0)).2 = true ↔ dirty ≠ 0 ∨ AnySet map c (c + n)) := by
  by_cases hn0 : n = 0
  · subst hn0
    simp only [ne_eq, not_true_eq_false, ↓reduceIte, Nat.add_zero]
    refine ⟨fun g => ?_, ?_⟩
    · rw [if_neg (by omega)]
    · rw [bne_iff_ne]
      simp only [not_anySet_of_le (le_refl c), or_false]
  · refine ⟨fun g => ?_, ?_⟩
    · rw [if_pos hn0, arrayBit_update_op (f := fun b m => b && !m) bit_and_not_op Bool.and_true]
      simp only [inLastWord_self_iff g hn hn0, Bool.not_true, Bool.and_false]
    · rw [if_pos hn0, bne_iff_ne, or_ne_zero_iff, lastWord_ne_zero_iff map hn hn0]

theorem bitmapTestAndClearAtomic_spec (map : Nat → UInt64) (start nr : Nat) :
    (bitmapTestAndClearAtomic map start nr).1 = bitmapClear map start nr ∧
      ((bitmapTestAndClearAtomic map start nr).2 = true ↔ AnySet map start (start + nr)) := by
  unfold bitmapTestAndClearAtomic
  rw [show bitWord start = start / 64 from rfl, show bitsPerLong = 64 from rfl]
  dsimp only
  by_cases h1 : nr > 64 - start % 64
  · rw [if_pos h1]
    obtain ⟨map', dirty', hrun, hbits, hdirty⟩ := bitmapTestAndClearAtomicLoop_spec (nr - (64 - start % 64) + 1)
      (update map (start / 64) (map (start / 64) &&& ~~~bitmapFirstWordMask start)) (start / 64 + 1)
      (nr - (64 - start % 64)) (map (start / 64) &&& bitmapFirstWordMask start) (by omega)
    simp only [↓reduceIte, hrun]
    -- the whole words end at the boundary `64 * q`, where the last word starts
    have hq : start + (64 - start % 64) = 64 * (start / 64 + 1) := by omega
    have hsize : start + nr = 64 * (start / 64 + 1 + (nr - (64 - start % 64)) / 64) + (nr - (64 - start % 64)) % 64 := by
      omega
    obtain ⟨hmap, hflag⟩ := testAndClearAtomicLastWord_spec map' dirty'
      (c := 64 * (start / 64 + 1 + (nr - (64 - start % 64)) / 64)) (n := (nr - (64 - start % 64)) % 64) (by omega)
    rw [bitmapFirstWordMask_of_mod_eq_zero (by omega), Nat.mul_div_cancel_left _ (by decide), ← hsize] at hmap hflag
    have hfirst := arrayBit_firstWord (f := fun b m => b && !m) bit_and_not_op Bool.and_true map start
    simp only [Bool.not_true, Bool.and_false, hq] at hfirst
    refine ⟨arrayBit_ext fun g => ?_, ?_⟩
    · rw [hmap, hbits, hfirst, bitmapClear, arrayBit_bitmapRange (f := fun b m => b && !m) bit_and_not_op Bool.and_true]
      simp only [Bool.not_true, Bool.and_false]
      split_ifs <;> first | rfl | omega
    · -- the flag: the first word, the whole words and the last word, each read before it is cleared
      have hwords : AnySet (update map (start / 64) (map (start / 64) &&& ~~~bitmapFirstWordMask start))
          (64 * (start / 64 + 1)) (64 * (start / 64 + 1 + (nr - (64 - start % 64)) / 64)) ↔
          AnySet map (64 * (start / 64 + 1)) (64 * (start / 64 + 1 + (nr - (64 - start % 64)) / 64)) :=
        anySet_congr fun g hg _ => by rw [hfirst, if_neg (by omega)]
      have hlast : AnySet map' (64 * (start / 64 + 1 + (nr - (64 - start % 64)) / 64)) (start + nr) ↔
          AnySet map (64 * (start / 64 + 1 + (nr - (64 - start % 64)) / 64)) (start + nr) :=
        anySet_congr fun g hg _ => by rw [hbits, if_neg (by omega), hfirst, if_neg (by omega)]
      rw [hflag, hdirty, firstWord_ne_zero_iff, hq, hwords, hlast, ← anySet_split (by omega) (by omega),
        ← anySet_split (by omega) (by omega)]
  · rw [if_neg h1]
    have hclear := arrayBit_bitmapRange (f := fun b m => b && !m) bit_and_not_op Bool.and_true map start nr
    simp only [Bool.not_true, Bool.and_false] at hclear
    by_cases h0 : start % 64 = 0
    · -- whole words and a last word from the boundary `start`
      obtain ⟨map', dirty', hrun, hbits, hdirty⟩ := bitmapTestAndClearAtomicLoop_spec (nr + 1) map (start / 64) nr 0
        (by omega)
      simp only [h0, Nat.sub_zero, ↓reduceIte, hrun]
      have hsize : start + nr = 64 * (start / 64 + nr / 64) + nr % 64 := by omega
      obtain ⟨hmap, hflag⟩ := testAndClearAtomicLastWord_spec map' dirty'
        (c := 64 * (start / 64 + nr / 64)) (n := nr % 64) (by omega)
      rw [bitmapFirstWordMask_of_mod_eq_zero (by omega), Nat.mul_div_cancel_left _ (by decide), ← hsize] at hmap hflag
      rw [bitmapFirstWordMask_of_mod_eq_zero h0]
      refine ⟨arrayBit_ext fun g => ?_, ?_⟩
      · rw [hmap, hbits, bitmapClear, hclear]
        split_ifs <;> first | rfl | omega
      · have hlast : AnySet map' (64 * (start / 64 + nr / 64)) (start + nr) ↔
            AnySet map (64 * (start / 64 + nr / 64)) (start + nr) :=
          anySet_congr fun g hg _ => by rw [hbits, if_neg (by omega)]
        rw [hflag, hdirty, hlast, show 64 * (start / 64) = start by omega]
        simp only [ne_eq, not_true_eq_false, false_or]
        rw [← anySet_split (by omega) (by omega)]
    · -- the range lies in the word of `start`
      have hne : ¬ 64 - start % 64 = 64 := by omega
      simp only [hne, ↓reduceIte]
      obtain ⟨hmap, hflag⟩ := testAndClearAtomicLastWord_spec map 0 (c := start) (n := nr) (by omega)
      refine ⟨arrayBit_ext fun g => ?_, ?_⟩
      · rw [hmap, bitmapClear, hclear]
      · rw [hflag]
        simp only [ne_eq, not_true_eq_false, false_or]

/-! ## `bitmap_test_and_clear`

The same three parts as the atomic version, with a flag for `dirty`,
but `mask_to_clear` is not reset after the first word. -/

/-- The whole-word loop of `bitmap_test_and_clear` clears the words `p`
to `p + nr / 64` and raises `dirty` for a non-zero one. -/
theorem bitmapTestAndClearLoop_spec (fuel : Nat) (map : Nat → UInt64) (p nr : Nat) (dirty : Bool)
    (hfuel : nr / 64 < fuel) :
    ∃ (map' : Nat → UInt64) (dirty' : Bool),
      bitmapTestAndClearLoop fuel map p nr dirty = (map', p + nr / 64, nr % 64, dirty') ∧
      (∀ g, arrayBit map' g = if 64 * p ≤ g ∧ g < 64 * (p + nr / 64) then false else arrayBit map g) ∧
      (dirty' = true ↔ dirty = true ∨ AnySet map (64 * p) (64 * (p + nr / 64))) := by
  induction fuel generalizing map p nr dirty with
  | zero => omega
  | succ fuel ih =>
    rw [bitmapTestAndClearLoop, show bitsPerLong = 64 from rfl]
    by_cases hw : nr ≥ 64
    · rw [if_pos hw]
      have hnext : p + 1 + (nr - 64) / 64 = p + nr / 64 := by omega
      have hmod : (nr - 64) % 64 = nr % 64 := by omega
      have hsplit : AnySet map (64 * p) (64 * (p + nr / 64)) ↔
          map p ≠ 0 ∨ AnySet map (64 * (p + 1)) (64 * (p + nr / 64)) := by
        rw [anySet_split (b := 64 * (p + 1)) (by omega) (by omega), word_ne_zero_iff, Nat.mul_succ]
      by_cases hz : map p ≠ 0
      · -- a non-zero word is cleared and raises `dirty`
        rw [if_pos hz]
        obtain ⟨map', dirty', hrun, hbits, hdirty⟩ := ih (update map p 0) (p + 1) (nr - 64) true (by omega)
        rw [hnext, hmod] at hrun
        rw [hnext] at hbits
        refine ⟨map', dirty', hrun, fun g => ?_, ?_⟩
        · rw [hbits, arrayBit_update, bit_zero]
          split_ifs <;> first | rfl | omega
        · simp only [hdirty, hsplit, true_or, true_iff]
          exact .inr (.inl hz)
      · rw [if_neg hz]
        have hzero : map p = 0 := not_not.mp hz
        obtain ⟨map', dirty', hrun, hbits, hdirty⟩ := ih map (p + 1) (nr - 64) dirty (by omega)
        rw [hnext, hmod] at hrun
        rw [hnext] at hbits hdirty
        refine ⟨map', dirty', hrun, fun g => ?_, ?_⟩
        · rw [hbits]
          by_cases hg : g / 64 = p
          · have : arrayBit map g = false := by
              rw [arrayBit, hg, hzero, bit_zero]
            split_ifs <;> first | rfl | omega
          · split_ifs <;> first | rfl | omega
        · rw [hdirty, hsplit]
          simp only [hz, false_or]
    · rw [if_neg hw]
      have h0 : nr / 64 = 0 := by omega
      refine ⟨map, dirty, by rw [h0, Nat.add_zero, Nat.mod_eq_of_lt (by omega)], fun g => ?_, ?_⟩
      · rw [if_neg (by omega)]
      · rw [h0, Nat.add_zero]
        simp only [not_anySet_of_le (le_refl _), or_false]

/-- The bits of the range that `bitmap_test_and_clear` misses: when the
range starts inside a word and goes past it, the last word is cleared
under `FIRST(start) & LAST(start + nr)`, which leaves its bits below
`start % 64`. -/
def TestAndClearMisses (start nr g : Nat) : Prop :=
  start % 64 ≠ 0 ∧ 64 - start % 64 < nr ∧ g / 64 = (start + nr) / 64 ∧ g % 64 < start % 64

instance (start nr g : Nat) : Decidable (TestAndClearMisses start nr g) :=
  inferInstanceAs (Decidable (_ ∧ _ ∧ _ ∧ _))

/-- The last word of `bitmap_test_and_clear`, at the word of `c`, under a
first-word mask of `s` that starts no lower in the word than `c`. -/
theorem testAndClearLastWord_spec (map : Nat → UInt64) (dirty : Bool) {s c n : Nat} (hn : n ≤ 64 - c % 64)
    (hs : c % 64 ≤ s % 64) :
    (∀ g, arrayBit (if n ≠ 0 then
        (update map (c / 64) (map (c / 64) &&& ~~~(bitmapFirstWordMask s &&& bitmapLastWordMask (c + n))),
          dirty || map (c / 64) &&& (bitmapFirstWordMask s &&& bitmapLastWordMask (c + n)) != 0)
        else (map, dirty)).1 g =
      if g / 64 = c / 64 ∧ s % 64 ≤ g % 64 ∧ g < c + n then false else arrayBit map g) ∧
    ((if n ≠ 0 then
        (update map (c / 64) (map (c / 64) &&& ~~~(bitmapFirstWordMask s &&& bitmapLastWordMask (c + n))),
          dirty || map (c / 64) &&& (bitmapFirstWordMask s &&& bitmapLastWordMask (c + n)) != 0)
        else (map, dirty)).2 = true ↔
      dirty = true ∨ ∃ g, (g / 64 = c / 64 ∧ s % 64 ≤ g % 64 ∧ g < c + n) ∧ arrayBit map g = true) := by
  by_cases hn0 : n = 0
  · subst hn0
    simp only [ne_eq, not_true_eq_false, ↓reduceIte, Nat.add_zero]
    refine ⟨fun g => ?_, ?_⟩
    · rw [if_neg (by omega)]
    · constructor
      · exact .inl
      · rintro (h | ⟨g, hg, -⟩)
        · exact h
        · omega
  · refine ⟨fun g => ?_, ?_⟩
    · rw [if_pos hn0, arrayBit_update_op (f := fun b m => b && !m) bit_and_not_op Bool.and_true]
      simp only [inLastWord_iff g hn hn0, Bool.not_true, Bool.and_false]
    · rw [if_pos hn0, Bool.or_eq_true, bne_iff_ne, word_and_ne_zero_iff]
      simp only [← and_assoc, inLastWord_iff _ hn hn0]

theorem bitmapTestAndClear_spec (map : Nat → UInt64) (start nr : Nat) :
    (∀ g, arrayBit (bitmapTestAndClear map start nr).1 g =
      if start ≤ g ∧ g < start + nr ∧ ¬ TestAndClearMisses start nr g then false else arrayBit map g) ∧
    ((bitmapTestAndClear map start nr).2 = true ↔
      ∃ g, (start ≤ g ∧ g < start + nr ∧ ¬ TestAndClearMisses start nr g) ∧ arrayBit map g = true) := by
  unfold bitmapTestAndClear
  rw [show bitWord start = start / 64 from rfl, show bitsPerLong = 64 from rfl]
  dsimp only
  by_cases h1 : nr > 64 - start % 64
  · rw [if_pos h1]
    obtain ⟨map', dirty', hrun, hbits, hdirty⟩ := bitmapTestAndClearLoop_spec (nr - (64 - start % 64) + 1)
      (update map (start / 64) (map (start / 64) &&& ~~~bitmapFirstWordMask start)) (start / 64 + 1)
      (nr - (64 - start % 64)) (map (start / 64) &&& bitmapFirstWordMask start != 0) (by omega)
    simp only [↓reduceIte, hrun]
    -- the last word starts at the boundary `64 * q` but keeps the mask `FIRST(start)`
    have hq : start + (64 - start % 64) = 64 * (start / 64 + 1) := by omega
    have hsize : start + nr = 64 * (start / 64 + 1 + (nr - (64 - start % 64)) / 64) + (nr - (64 - start % 64)) % 64 := by
      omega
    obtain ⟨hmap, hflag⟩ := testAndClearLastWord_spec map' dirty' (s := start)
      (c := 64 * (start / 64 + 1 + (nr - (64 - start % 64)) / 64)) (n := (nr - (64 - start % 64)) % 64) (by omega)
      (by omega)
    rw [Nat.mul_div_cancel_left _ (by decide), ← hsize] at hmap hflag
    have hfirst := arrayBit_firstWord (f := fun b m => b && !m) bit_and_not_op Bool.and_true map start
    simp only [Bool.not_true, Bool.and_false, hq] at hfirst
    refine ⟨fun g => ?_, ?_⟩
    · rw [hmap, hbits, hfirst]
      by_cases hc : start ≤ g ∧ g < start + nr ∧ ¬ TestAndClearMisses start nr g
      · rw [if_pos hc]
        unfold TestAndClearMisses at hc
        split_ifs <;> first | rfl | omega
      · rw [if_neg hc]
        unfold TestAndClearMisses at hc
        split_ifs <;> first | rfl | omega
    · -- the flag: what the three parts read, each before it is cleared
      have hwords : AnySet (update map (start / 64) (map (start / 64) &&& ~~~bitmapFirstWordMask start))
          (64 * (start / 64 + 1)) (64 * (start / 64 + 1 + (nr - (64 - start % 64)) / 64)) ↔
          AnySet map (64 * (start / 64 + 1)) (64 * (start / 64 + 1 + (nr - (64 - start % 64)) / 64)) :=
        anySet_congr fun g hg _ => by rw [hfirst, if_neg (by omega)]
      have hlast : (∃ g, (g / 64 = start / 64 + 1 + (nr - (64 - start % 64)) / 64 ∧ start % 64 ≤ g % 64 ∧
          g < start + nr) ∧ arrayBit map' g = true) ↔
          ∃ g, (g / 64 = start / 64 + 1 + (nr - (64 - start % 64)) / 64 ∧ start % 64 ≤ g % 64 ∧
            g < start + nr) ∧ arrayBit map g = true :=
        exists_congr fun g => and_congr_right fun hg => by rw [hbits, if_neg (by omega), hfirst, if_neg (by omega)]
      rw [hflag, hdirty, bne_iff_ne, firstWord_ne_zero_iff, hq, hwords, hlast]
      simp only [AnySet, ← exists_or]
      refine exists_congr fun g => ?_
      unfold TestAndClearMisses
      by_cases hb : arrayBit map g = true
      · simp only [hb, and_true]
        omega
      · simp [hb]
  · rw [if_neg h1]
    by_cases h0 : start % 64 = 0
    · -- whole words and a last word from the boundary `start`
      obtain ⟨map', dirty', hrun, hbits, hdirty⟩ := bitmapTestAndClearLoop_spec (nr + 1) map (start / 64) nr false
        (by omega)
      simp only [h0, Nat.sub_zero, ↓reduceIte, hrun]
      have hsize : start + nr = 64 * (start / 64 + nr / 64) + nr % 64 := by omega
      obtain ⟨hmap, hflag⟩ := testAndClearLastWord_spec map' dirty' (s := start)
        (c := 64 * (start / 64 + nr / 64)) (n := nr % 64) (by omega) (by omega)
      rw [Nat.mul_div_cancel_left _ (by decide), ← hsize] at hmap hflag
      refine ⟨fun g => ?_, ?_⟩
      · rw [hmap, hbits]
        by_cases hc : start ≤ g ∧ g < start + nr ∧ ¬ TestAndClearMisses start nr g
        · rw [if_pos hc]
          split_ifs <;> first | rfl | omega
        · rw [if_neg hc]
          unfold TestAndClearMisses at hc
          split_ifs <;> first | rfl | omega
      · have hlast : (∃ g, (g / 64 = start / 64 + nr / 64 ∧ start % 64 ≤ g % 64 ∧ g < start + nr) ∧
            arrayBit map' g = true) ↔
            ∃ g, (g / 64 = start / 64 + nr / 64 ∧ start % 64 ≤ g % 64 ∧ g < start + nr) ∧ arrayBit map g = true :=
          exists_congr fun g => and_congr_right fun hg => by rw [hbits, if_neg (by omega)]
        rw [hflag, hdirty, hlast]
        simp only [Bool.false_eq_true, false_or, AnySet, ← exists_or]
        refine exists_congr fun g => ?_
        unfold TestAndClearMisses
        by_cases hb : arrayBit map g = true
        · simp only [hb, and_true]
          omega
        · simp [hb]
    · -- the range lies in the word of `start`
      have hne : ¬ 64 - start % 64 = 64 := by omega
      simp only [hne, ↓reduceIte]
      obtain ⟨hmap, hflag⟩ := testAndClearLastWord_spec map false (s := start) (c := start) (n := nr) (by omega)
        (le_refl _)
      refine ⟨fun g => ?_, ?_⟩
      · rw [hmap]
        by_cases hc : start ≤ g ∧ g < start + nr ∧ ¬ TestAndClearMisses start nr g
        · rw [if_pos hc]
          split_ifs <;> first | rfl | omega
        · rw [if_neg hc]
          unfold TestAndClearMisses at hc
          split_ifs <;> first | rfl | omega
      · rw [hflag]
        simp only [Bool.false_eq_true, false_or]
        refine exists_congr fun g => ?_
        unfold TestAndClearMisses
        by_cases hb : arrayBit map g = true
        · simp only [hb, and_true]
          omega
        · simp [hb]

theorem arrayBit_bitmapTestAndClear (map : Nat → UInt64) (start nr g : Nat) :
    arrayBit (bitmapTestAndClear map start nr).1 g =
      (arrayBit map g && !decide (start ≤ g ∧ g < start + nr ∧ ¬ TestAndClearMisses start nr g)) := by
  rw [(bitmapTestAndClear_spec map start nr).1]
  split_ifs with h <;> simp [h]

theorem bitmapTestAndClear_dirty_iff (map : Nat → UInt64) (start nr : Nat) :
    (bitmapTestAndClear map start nr).2 = true ↔
      ∃ g, (start ≤ g ∧ g < start + nr ∧ ¬ TestAndClearMisses start nr g) ∧ arrayBit map g = true :=
  (bitmapTestAndClear_spec map start nr).2

/-- The range operations bit by bit, for every bitmap, `start` and `nr`:
`bitmap_set` and `bitmap_set_atomic` set exactly `[start, start + nr)`,
`bitmap_clear` and `bitmap_test_and_clear_atomic` clear exactly it, and the
latter returns whether a bit of it was set. `bitmap_test_and_clear` clears
and tests exactly the range less the bits of `TestAndClearMisses`. -/
theorem bitmapRangeOps_exact (map : Nat → UInt64) (start nr g : Nat) :
    arrayBit (bitmapSet map start nr) g = (arrayBit map g || decide (start ≤ g ∧ g < start + nr)) ∧
    arrayBit (bitmapSetAtomic map start nr) g = (arrayBit map g || decide (start ≤ g ∧ g < start + nr)) ∧
    arrayBit (bitmapClear map start nr) g = (arrayBit map g && !decide (start ≤ g ∧ g < start + nr)) ∧
    arrayBit (bitmapTestAndClearAtomic map start nr).1 g =
      (arrayBit map g && !decide (start ≤ g ∧ g < start + nr)) ∧
    ((bitmapTestAndClearAtomic map start nr).2 = true ↔
      ∃ g', start ≤ g' ∧ g' < start + nr ∧ arrayBit map g' = true) ∧
    arrayBit (bitmapTestAndClear map start nr).1 g =
      (arrayBit map g && !decide (start ≤ g ∧ g < start + nr ∧ ¬ TestAndClearMisses start nr g)) ∧
    ((bitmapTestAndClear map start nr).2 = true ↔
      ∃ g', (start ≤ g' ∧ g' < start + nr ∧ ¬ TestAndClearMisses start nr g') ∧ arrayBit map g' = true) := by
  obtain ⟨hclear, hdirty⟩ := bitmapTestAndClearAtomic_spec map start nr
  have hset := arrayBit_bitmapSet map start nr g
  refine ⟨hset, ?_, arrayBit_bitmapClear map start nr g, ?_, hdirty, arrayBit_bitmapTestAndClear map start nr g,
    bitmapTestAndClear_dirty_iff map start nr⟩
  · rw [bitmapSetAtomic_eq_bitmapSet]
    exact hset
  · rw [hclear]
    exact arrayBit_bitmapClear map start nr g

/-- A bitmap whose only set bit is bit 64. -/
def onlyBitSixtyFour : Nat → UInt64 := fun w => if w = 1 then 1 else 0

/-- The range `[4, 68)` over `onlyBitSixtyFour`: the first word is cleared
from bit 4, no whole word follows, and the last word is cleared under
`FIRST(4) & LAST(68) = 0`. Bit 64 stays set and the result is `false`;
`bitmap_test_and_clear_atomic` clears it and returns `true`. -/
theorem bitmapTestAndClear_keeps_bit_of_range :
    arrayBit onlyBitSixtyFour 64 = true ∧ arrayBit (bitmapTestAndClear onlyBitSixtyFour 4 64).1 64 = true ∧
      (bitmapTestAndClear onlyBitSixtyFour 4 64).2 = false ∧
      arrayBit (bitmapTestAndClearAtomic onlyBitSixtyFour 4 64).1 64 = false ∧
      (bitmapTestAndClearAtomic onlyBitSixtyFour 4 64).2 = true := by
  decide

end QemuFormal.Bitmap

/-
QemuFormal.Util.HbitmapIter — `hbitmap_iter_next` returns the groups of
the bitmap in increasing order.

An iterator at `t` (`IterAt`) has returned the groups before `t` and
holds the rest: in its last-level word `pos` the bits from `t` on, and at
each height `m` above, in the word that holds the ancestor of `pos`, the
bits right of that ancestor, and at level 0 the sentinel (`LevelAt`).
The climb of `hbitmap_iter_skip_words` stops at the lowest level that
has a bit left (`skipWordsUp_eq_some`) and the descent follows the
lowest set bit of each word down to the last level (`skipWordsDown_spec`);
by `Blocks` they reach the least group from `t` on. So from an iterator
at `t`, `hbitmap_iter_next` returns that group and leaves an iterator at
the group after it, or returns -1 when there is none
(`hbitmapIterNext_spec`), and `hbitmap_iter_init` gives an iterator at
the group of its first element (`hbitmapIterInit_iterAt`).
-/
import QemuFormal.Util.HbitmapInv

namespace QemuFormal.Hbitmap

open Bits Blocks
open Function (update update_self update_of_ne)
open QemuFormal.Bitmap (bitsPerLong)
open QemuFormal.HostUtils (ctz64 ctz64_spec)

/-! ## Words -/

theorem shiftRight_bitsPerLevel (w : Nat) : w >>> bitsPerLevel = w / 64 := by
  rw [Nat.shiftRight_eq_div_pow]
  rfl

theorem shiftLeft_bitsPerLevel (w : Nat) : w <<< bitsPerLevel = 64 * w := by
  rw [Nat.shiftLeft_eq, Nat.mul_comm]
  rfl

/-- `ctzl` of a nonzero word is its lowest set bit. -/
theorem isLeast_ctz64 {c : UInt64} (hc : c ≠ 0) : IsLeast {j | j < 64 ∧ bit c j = true} (ctz64 c) := by
  obtain ⟨hle, hlow, hbit⟩ := ctz64_spec c
  have hlt : ctz64 c < 64 := by
    refine lt_of_le_of_ne hle fun h64 => hc (ext_bit fun j hj => ?_)
    rw [bit_zero, bit_eq_testBit]
    exact hlow j (h64 ▸ hj)
  refine ⟨⟨hlt, hbit hlt⟩, fun j ⟨_, hj⟩ => Nat.le_of_not_lt fun hjc => ?_⟩
  rw [bit_eq_testBit, hlow j hjc] at hj
  exact Bool.false_ne_true hj

/-- `c & (c - 1)`: the bits of `c` but its lowest. -/
theorem bit_and_sub_one_ctz64 {c : UInt64} (hc : c ≠ 0) (j : Nat) :
    bit (c &&& (c - 1)) j = (bit c j && j != ctz64 c) := by
  obtain ⟨⟨hlt, hk⟩, hleast⟩ := isLeast_ctz64 hc
  refine bit_and_sub_one hk (fun i hi => ?_) j
  cases h : bit c i
  · rfl
  · exact absurd (hleast ⟨by omega, h⟩) (Nat.not_le.mpr hi)

/-! ## Levels as blocks of groups -/

section Levels

variable {hb : HBitmap}

/-- Bit `b` of word `W` of the level at height `m`: block `64 * W + b` of
height `m` is occupied, or it is the sentinel. -/
theorem HBitmap.WF.bit_iff (hwf : hb.WF) {m W b : Nat} (hm : m ≤ 6) (hW : W < hb.sizes (6 - m)) (hb64 : b < 64) :
    bit (hb.levels (6 - m) W) b = true ↔ Occupied hb.dirty 64 m (64 * W + b) ∨ (m = 6 ∧ 64 * W + b = 63) := by
  rw [← arrayBit_word _ W b hb64]
  exact hwf.arrayBit_iff hm (by change 64 * W + b < 64 * hb.sizes (6 - m); omega)

/-- An occupied block of height `m + 1` is a bit backed by a word of the
level below. -/
theorem HBitmap.WF.lt_sizes_of_occupied (hwf : hb.WF) {m q : Nat} (hm : m < 6) (hq : Occupied hb.dirty 64 (m + 1) q) :
    q < hb.sizes (6 - m) := by
  obtain ⟨x, hx, rfl⟩ := hq
  exact hwf.div_lt_sizes hx.1 hm

theorem HBitmap.WF.sizes_last_le (hwf : hb.WF) : hb.sizes 6 ≤ 2 ^ 35 := by
  rw [show 6 = hbitmapLevels - 1 from rfl, hwf.sizes_last]
  exact iterate_wordsFor_le 1 (le_trans hwf.size_le (by decide)) (by decide)

/-- All groups lie in block 0 of height 7. -/
theorem HBitmap.WF.div_eq_zero_of_dirty (hwf : hb.WF) {x : Nat} (hx : x ∈ hb.dirty) : x / 64 ^ 7 = 0 :=
  Nat.div_eq_of_lt (lt_of_lt_of_le hx.1 (le_trans hwf.size_le (by decide)))

/-- The blocks of height 6 that the sentinel's bit would stand for hold no group. -/
theorem HBitmap.WF.not_occupied_sentinel (hwf : hb.WF) : ¬Occupied hb.dirty 64 6 63 := by
  rintro ⟨x, hx, hx63⟩
  have hlt : x < 2 ^ 41 := lt_of_lt_of_le hx.1 hwf.size_le
  have : 63 * 64 ^ 6 ≤ x := (Nat.le_div_iff_mul_le (by decide)).mp hx63.ge
  omega

end Levels

/-! ## The iterator invariant -/

/-- Level `6 - m` of an iterator whose last-level word is `pos`: the bits
it has left, in the word that holds the ancestor of `pos`, are the
occupied blocks right of that ancestor, and at level 0 the sentinel. -/
def LevelAt (hb : HBitmap) (pos m : Nat) (v : UInt64) : Prop :=
  ∀ b < 64, bit (v &&& hb.levels (6 - m) (pos / 64 ^ m)) b = true ↔
    (Right 64 pos m (64 * (pos / 64 ^ m) + b) ∧ Occupied hb.dirty 64 m (64 * (pos / 64 ^ m) + b)) ∨
      (m = 6 ∧ b = 63)

/-- An iterator that has returned the groups before `t` and holds the
rest. -/
structure IterAt (hb : HBitmap) (t : Nat) (hbi : HBitmapIter) : Prop where
  granularity : hbi.granularity = hb.granularity
  pos_le : 64 * hbi.pos ≤ t
  le_pos : t ≤ 64 * hbi.pos + 64
  pos_lt : hbi.pos < hb.sizes 6
  last : ∀ b < 64, bit (hbi.cur 6 &&& hb.levels 6 hbi.pos) b = true ↔
    64 * hbi.pos + b ∈ hb.dirty ∧ t ≤ 64 * hbi.pos + b
  upper : ∀ m, 1 ≤ m → m ≤ 6 → LevelAt hb hbi.pos m (hbi.cur (6 - m))

/-! ## The climb and the descent -/

section Skip

variable {levels : Nat → Nat → UInt64} {cur : Nat → UInt64}

/-- A climb that runs out found no bits left at any level below `k`. -/
theorem skipWordsUp_eq_none {k w : Nat} (h : skipWordsUp levels cur k w = none) :
    ∀ j < k, cur j &&& levels j (w / 64 ^ (k - j)) = 0 := by
  induction k generalizing w with
  | zero => intro j hj; omega
  | succ k ih =>
    simp only [skipWordsUp, shiftRight_bitsPerLevel] at h
    split_ifs at h with hc
    intro j hj
    rcases Nat.lt_succ_iff_lt_or_eq.mp hj with hj | rfl
    · rw [show k + 1 - j = k - j + 1 by omega, div_pow_succ']
      exact ih h j hj
    · rw [Nat.add_sub_cancel_left, Nat.pow_one]
      exact hc

/-- The climb stops at the first level below `k` that has bits left. -/
theorem skipWordsUp_eq_some {k w i w' : Nat} {c : UInt64} (h : skipWordsUp levels cur k w = some (i, w', c)) :
    i < k ∧ w' = w / 64 ^ (k - i) ∧ c = cur i &&& levels i w' ∧ c ≠ 0 ∧
      ∀ j, i < j → j < k → cur j &&& levels j (w / 64 ^ (k - j)) = 0 := by
  induction k generalizing w with
  | zero => simp [skipWordsUp] at h
  | succ k ih =>
    simp only [skipWordsUp, shiftRight_bitsPerLevel] at h
    split_ifs at h with hc
    · -- nothing at level `k`: the climb goes on from `w / 64`
      obtain ⟨hik, hw', hc', hne, hzero⟩ := ih h
      refine ⟨by omega, by rw [hw', show k + 1 - i = k - i + 1 by omega, div_pow_succ'], hc', hne,
        fun j hij hjk => ?_⟩
      rcases Nat.lt_succ_iff_lt_or_eq.mp hjk with hjk | rfl
      · rw [show k + 1 - j = k - j + 1 by omega, div_pow_succ']
        exact hzero j hij hjk
      · rw [Nat.add_sub_cancel_left, Nat.pow_one]
        exact hc
    · obtain ⟨rfl, rfl, rfl⟩ := h
      refine ⟨Nat.lt_succ_self _, by rw [Nat.add_sub_cancel_left, Nat.pow_one], rfl, hc, fun j hij hjk => ?_⟩
      omega

end Skip

section Descent

variable {hb : HBitmap}

/-- The descent from the bit `ctzl(c)` of word `w` at height `n` ends at
the word of the least group below that bit. Each level it passes keeps
the bits of its word right of the path, and returns the last-level word. -/
theorem skipWordsDown_spec (hwf : hb.WF) {n w x p : Nat} {cur cur' : Nat → UInt64} {c c' : UInt64}
    (hn : 1 ≤ n) (hn6 : n ≤ 6) (hx : IsLeast {x | x ∈ hb.dirty ∧ x / 64 ^ n = 64 * w + ctz64 c} x)
    (h : skipWordsDown hb.levels n (6 - n) w cur c = (p, cur', c')) :
    p = x / 64 ∧ c' = hb.levels 6 (x / 64) ∧ cur' (6 - n) = c &&& (c - 1) ∧
      (∀ m, 1 ≤ m → m < n → cur' (6 - m) =
        hb.levels (6 - m) (x / 64 ^ (m + 1)) &&& (hb.levels (6 - m) (x / 64 ^ (m + 1)) - 1)) ∧
      ∀ j, (j < 6 - n ∨ 6 ≤ j) → cur' j = cur j := by
  induction n generalizing w cur c with
  | zero => omega
  | succ n ih =>
    simp only [skipWordsDown, shiftLeft_bitsPerLevel, show 6 - (n + 1) + 1 = 6 - n by omega] at h
    -- the bit followed here is block `q` of height `n + 1`
    set q := 64 * w + ctz64 c with hq
    rcases Nat.eq_zero_or_pos n with rfl | hn1
    · simp only [skipWordsDown, Prod.mk.injEq] at h
      obtain ⟨rfl, rfl, rfl⟩ := h
      have hxq : x / 64 = q := hx.1.2
      refine ⟨hxq.symm, by rw [hxq], Function.update_self .., fun m hm hm1 => by omega, fun j hj => ?_⟩
      exact Function.update_of_ne (by omega) _ _
    · -- below `q` the descent goes on from the first occupied sub-block
      have hocc : Occupied hb.dirty 64 (n + 1) q := ⟨x, hx.1.1, hx.1.2⟩
      have hqs := hwf.lt_sizes_of_occupied (by omega) hocc
      have hfirst : IsLeast {r | r < 64 ∧ Occupied hb.dirty 64 n (64 * q + r)} (ctz64 (hb.levels (6 - n) q)) := by
        have hbits : ∀ r < 64, bit (hb.levels (6 - n) q) r = true ↔ Occupied hb.dirty 64 n (64 * q + r) := by
          intro r hr
          rw [hwf.bit_iff (by omega) hqs hr]
          exact or_iff_left fun h6 => by omega
        have hne : hb.levels (6 - n) q ≠ 0 := by
          obtain ⟨r, hr, hor⟩ := (occupied_succ (by decide)).mp hocc
          exact (ne_zero_iff_exists_bit _).mpr ⟨r, hr, (hbits r hr).mpr hor⟩
        obtain ⟨⟨hlt, hbit⟩, hleast⟩ := isLeast_ctz64 hne
        exact ⟨⟨hlt, (hbits _ hlt).mp hbit⟩, fun r ⟨hr, hor⟩ => hleast ⟨hr, (hbits r hr).mpr hor⟩⟩
      have hx' := (isLeast_block_iff_first_child (by decide) hfirst).mp hx
      obtain ⟨hp, hc', hcn, hpath, hrest⟩ := ih (by omega) (by omega) hx' h
      refine ⟨hp, hc', ?_, fun m hm hmn => ?_, fun j hj => ?_⟩
      · rw [hrest _ (Or.inl (by omega)), Function.update_self]
      · rcases Nat.lt_or_eq_of_le (Nat.lt_succ_iff.mp hmn) with hmn | rfl
        · exact hpath m hm hmn
        · rw [hcn, hx.1.2]
      · rw [hrest j (by omega), Function.update_of_ne (by omega)]

end Descent

/-! ## One call of `hbitmap_iter_next` -/

section Steps
variable {hb : HBitmap} {hbi : HBitmapIter}

/-- A bit left in the current word: it is returned. -/
theorem hbitmapIterNext_of_ne (hc : hbi.cur 6 &&& hb.levels 6 hbi.pos ≠ 0) :
    hbitmapIterNext hb hbi =
      ((((64 * hbi.pos + ctz64 (hbi.cur 6 &&& hb.levels 6 hbi.pos)) <<< hbi.granularity : Nat) : Int),
        { hbi with cur := update hbi.cur 6 ((hbi.cur 6 &&& hb.levels 6 hbi.pos) &&&
          ((hbi.cur 6 &&& hb.levels 6 hbi.pos) - 1)) }) := by
  simp only [hbitmapIterNext, hbitmapLevels_sub_one, hc, if_false, shiftLeft_bitsPerLevel]

/-- No bit left in the current word: the result of the skip decides. -/
theorem hbitmapIterNext_of_eq_zero {hbi' : HBitmapIter} {c : UInt64} (hc : hbi.cur 6 &&& hb.levels 6 hbi.pos = 0)
    (hs : hbitmapIterSkipWords hb hbi = (hbi', c)) :
    hbitmapIterNext hb hbi = if c = 0 then (-1, hbi') else
      ((((64 * hbi'.pos + ctz64 c) <<< hbi'.granularity : Nat) : Int),
        { hbi' with cur := update hbi'.cur 6 (c &&& (c - 1)) }) := by
  simp only [hbitmapIterNext, hbitmapLevels_sub_one, if_pos hc, hs, shiftLeft_bitsPerLevel]

theorem hbitmapIterSkipWords_of_sentinel {w' : Nat} (h : skipWordsUp hb.levels hbi.cur 6 hbi.pos = some (0, w', hbitmapSentinel)) :
    hbitmapIterSkipWords hb hbi = (hbi, 0) := by
  simp only [hbitmapIterSkipWords, hbitmapLevels_sub_one, h, and_self, if_true]

theorem hbitmapIterSkipWords_of_descent {i w' p : Nat} {c c' : UInt64} {cur' : Nat → UInt64}
    (h : skipWordsUp hb.levels hbi.cur 6 hbi.pos = some (i, w', c)) (hs : ¬(i = 0 ∧ c = hbitmapSentinel))
    (hd : skipWordsDown hb.levels (6 - i) i w' hbi.cur c = (p, cur', c')) :
    hbitmapIterSkipWords hb hbi = ({ hbi with pos := p, cur := cur' }, c') := by
  simp only [hbitmapIterSkipWords, hbitmapLevels_sub_one, h, if_neg hs, hd]

end Steps

/-! ## The levels after a descent -/

section Path
variable {hb : HBitmap}

theorem LevelAt.of_div_eq {pos pos' m : Nat} {v : UInt64} (h : LevelAt hb pos m v) (hm : 1 ≤ m)
    (hpos : pos' / 64 ^ (m - 1) = pos / 64 ^ (m - 1)) : LevelAt hb pos' m v := by
  have hw : pos' / 64 ^ m = pos / 64 ^ m := by
    rw [show m = m - 1 + 1 by omega, div_pow_succ, div_pow_succ, hpos]
  intro b hb64
  have hb' := h b hb64
  unfold Right at hb' ⊢
  rwa [hw, hpos]

/-- A level the descent passed through, at the group `x` it reached: the
word that holds the ancestor of `x`, without its lowest bit, which is
that ancestor. -/
theorem levelAt_path (hwf : hb.WF) {x m : Nat} (hm : 1 ≤ m) (hm6 : m < 6)
    (hx : IsLeast {y | y ∈ hb.dirty ∧ y / 64 ^ (m + 1) = x / 64 ^ (m + 1)} x) :
    LevelAt hb (x / 64) m (hb.levels (6 - m) (x / 64 ^ (m + 1)) &&& (hb.levels (6 - m) (x / 64 ^ (m + 1)) - 1)) := by
  set W := x / 64 ^ (m + 1) with hW
  set v := hb.levels (6 - m) W with hv
  have hWpos : x / 64 / 64 ^ m = W := (div_pow_succ' x 64 m).symm
  have hanc_pos : x / 64 / 64 ^ (m - 1) = x / 64 ^ m := by
    rw [← div_pow_succ', Nat.sub_add_cancel hm]
  have hWs : W < hb.sizes (6 - m) := hwf.lt_sizes_of_occupied hm6 ⟨x, hx.1.1, rfl⟩
  have hbits : ∀ b < 64, bit v b = true ↔ Occupied hb.dirty 64 m (64 * W + b) := fun b hb64 => by
    rw [hwf.bit_iff (by omega) hWs hb64]
    exact or_iff_left fun h => by omega
  have hmod : x / 64 ^ m % 64 < 64 := Nat.mod_lt _ (by decide)
  have hne : v ≠ 0 := (ne_zero_iff_exists_bit v).mpr
    ⟨_, hmod, (hbits _ hmod).mpr ⟨x, hx.1.1, div_pow_eq_child rfl⟩⟩
  have hfirst : IsLeast {r | r < 64 ∧ Occupied hb.dirty 64 m (64 * W + r)} (ctz64 v) := by
    obtain ⟨⟨hlt, hbit⟩, hleast⟩ := isLeast_ctz64 hne
    exact ⟨⟨hlt, (hbits _ hlt).mp hbit⟩, fun r ⟨hr, hor⟩ => hleast ⟨hr, (hbits r hr).mpr hor⟩⟩
  -- the lowest bit of the word is the ancestor of `x`
  have hanc : x / 64 ^ m = 64 * W + ctz64 v := ((isLeast_block_iff_first_child (by decide) hfirst).mp hx).1.2
  intro b hb64
  unfold Right
  rw [hWpos, hanc_pos, hanc, ← hv, bit_and, bit_and_sub_one_ctz64 hne]
  simp only [Bool.and_eq_true, bne_iff_ne, hbits b hb64]
  constructor
  · rintro ⟨⟨hocc, hb0⟩, -⟩
    have hle := hfirst.2 ⟨hb64, hocc⟩
    exact Or.inl ⟨⟨by omega, by omega⟩, hocc⟩
  · rintro (⟨⟨-, hlt⟩, hocc⟩ | ⟨h6, -⟩)
    · exact ⟨⟨hocc, by omega⟩, hocc⟩
    · omega

/-- The level where the descent started: the bits right of the bit it
followed. -/
theorem levelAt_start (hwf : hb.WF) {pos m x q : Nat} {v : UInt64} (hm : 1 ≤ m)
    (hlev : LevelAt hb pos m v) (hc : v &&& hb.levels (6 - m) (pos / 64 ^ m) ≠ 0)
    (hq : q = 64 * (pos / 64 ^ m) + ctz64 (v &&& hb.levels (6 - m) (pos / 64 ^ m)))
    (hqleast : IsLeast {r | Right 64 pos m r ∧ Occupied hb.dirty 64 m r} q) (hxq : x / 64 ^ m = q) :
    LevelAt hb (x / 64) m ((v &&& hb.levels (6 - m) (pos / 64 ^ m)) &&&
      ((v &&& hb.levels (6 - m) (pos / 64 ^ m)) - 1)) := by
  set W := pos / 64 ^ m with hW
  set c := v &&& hb.levels (6 - m) W with hcdef
  have hctz : ctz64 c < 64 := (isLeast_ctz64 hc).1.1
  have hWx : x / 64 / 64 ^ m = W := by
    rw [← div_pow_succ', div_pow_succ, hxq, hq]
    omega
  have hanc_pos : x / 64 / 64 ^ (m - 1) = q := by
    rw [← div_pow_succ', Nat.sub_add_cancel hm, hxq]
  -- the bit followed is a block, not the sentinel
  have hctz63 : m = 6 → ctz64 c ≠ 63 := by
    intro h6 h63
    have hqs := hwf.lt_sizes_of_occupied (m := m - 1) (by omega)
      (by rw [Nat.sub_add_cancel hm]; exact hqleast.1.2)
    have hone := hwf.sizes_one_le
    rw [show 6 - (m - 1) = 1 by omega] at hqs
    omega
  obtain ⟨⟨-, hpq⟩, -⟩ := hqleast.1
  intro b hb64
  have hcb := hlev b hb64
  rw [← hW, ← hcdef] at hcb
  rw [hWx]
  unfold Right at hcb ⊢
  rw [hWx, hanc_pos, bit_and, bit_and_sub_one_ctz64 hc]
  constructor
  · intro hbit
    simp only [Bool.and_eq_true, bne_iff_ne] at hbit
    rcases hcb.mp hbit.1.1 with ⟨⟨hr, hright⟩, hocc⟩ | hsent
    · have hle := hqleast.2 ⟨⟨hr, hright⟩, hocc⟩
      exact Or.inl ⟨⟨hr, by rw [hq] at hle ⊢; omega⟩, hocc⟩
    · exact Or.inr hsent
  · rintro (⟨⟨hr, hlt⟩, hocc⟩ | ⟨h6, rfl⟩)
    · have hbit := hcb.mpr (Or.inl ⟨⟨hr, by omega⟩, hocc⟩)
      have hbl : bit (hb.levels (6 - m) W) b = true := by
        rw [hcdef, bit_and, Bool.and_eq_true] at hbit
        exact hbit.2
      rw [hbit, hbl, bne_iff_ne.mpr (by rw [hq] at hlt; omega)]
      rfl
    · have hbit := hcb.mpr (Or.inr ⟨h6, rfl⟩)
      have hbl : bit (hb.levels (6 - m) W) 63 = true := by
        rw [hcdef, bit_and, Bool.and_eq_true] at hbit
        exact hbit.2
      rw [hbit, hbl, bne_iff_ne.mpr (Ne.symm (hctz63 h6))]
      rfl

/-- The last-level word of the group `x` the descent reached, when `x` is
the least group of its word. -/
theorem last_path (hwf : hb.WF) {x : Nat} (hx : IsLeast {y | y ∈ hb.dirty ∧ y / 64 = x / 64} x) :
    hb.levels 6 (x / 64) ≠ 0 ∧ ctz64 (hb.levels 6 (x / 64)) = x % 64 ∧
      ∀ b < 64, bit ((hb.levels 6 (x / 64) &&& (hb.levels 6 (x / 64) - 1)) &&& hb.levels 6 (x / 64)) b = true ↔
        64 * (x / 64) + b ∈ hb.dirty ∧ x + 1 ≤ 64 * (x / 64) + b := by
  have hxs : x / 64 < hb.sizes 6 := by
    simpa using hwf.div_lt_sizes hx.1.1.1 (d := 0) (by decide)
  have hbits : ∀ b < 64, bit (hb.levels 6 (x / 64)) b = true ↔ 64 * (x / 64) + b ∈ hb.dirty := fun b hb64 => by
    rw [show (6 : Nat) = 6 - 0 from rfl, hwf.bit_iff (le_of_lt (by decide)) hxs hb64, occupied_zero]
    exact or_iff_left fun h => by omega
  have hmod : x % 64 < 64 := Nat.mod_lt _ (by decide)
  have hxbit : bit (hb.levels 6 (x / 64)) (x % 64) = true := (hbits _ hmod).mpr (by rw [Nat.div_add_mod]; exact hx.1.1)
  have hne : hb.levels 6 (x / 64) ≠ 0 := (ne_zero_iff_exists_bit _).mpr ⟨_, hmod, hxbit⟩
  -- the lowest bit of the word is `x`
  have hctz : ctz64 (hb.levels 6 (x / 64)) = x % 64 := by
    refine (isLeast_ctz64 hne).unique ⟨⟨hmod, hxbit⟩, fun j ⟨hj, hbj⟩ => ?_⟩
    have hle := hx.2 ⟨(hbits j hj).mp hbj, by omega⟩
    omega
  refine ⟨hne, hctz, fun b hb64 => ?_⟩
  rw [bit_and, bit_and_sub_one_ctz64 hne, hctz]
  simp only [Bool.and_eq_true, bne_iff_ne, hbits b hb64]
  constructor
  · rintro ⟨⟨hmem, hbx⟩, -⟩
    have hle := hx.2 ⟨hmem, by omega⟩
    exact ⟨hmem, by omega⟩
  · rintro ⟨hmem, hlt⟩
    exact ⟨⟨hmem, by omega⟩, hmem⟩

end Path

/-! ## `hbitmap_iter_next` -/

section Next
variable {hb : HBitmap} {t : Nat} {hbi : HBitmapIter}

/-- With bits left in its word, the iterator returns the lowest: it is the
least group from `t` on, and the iterator is then at the group after it. -/
theorem IterAt.next_in_word (hit : IterAt hb t hbi) (hc : hbi.cur 6 &&& hb.levels 6 hbi.pos ≠ 0) :
    IsLeast {x | x ∈ hb.dirty ∧ t ≤ x} (64 * hbi.pos + ctz64 (hbi.cur 6 &&& hb.levels 6 hbi.pos)) ∧
      IterAt hb (64 * hbi.pos + ctz64 (hbi.cur 6 &&& hb.levels 6 hbi.pos) + 1)
        { hbi with cur := update hbi.cur 6 ((hbi.cur 6 &&& hb.levels 6 hbi.pos) &&&
          ((hbi.cur 6 &&& hb.levels 6 hbi.pos) - 1)) } := by
  set c := hbi.cur 6 &&& hb.levels 6 hbi.pos with hcdef
  obtain ⟨⟨hlt, hbit⟩, hleast⟩ := isLeast_ctz64 hc
  have hmem := (hit.last _ hlt).mp hbit
  have hpos := hit.pos_le
  refine ⟨⟨hmem, fun y ⟨hy, hty⟩ => ?_⟩, ?_⟩
  · -- a later group in the same word is a later bit of it
    by_cases hyw : y / 64 = hbi.pos
    · have hy' : 64 * hbi.pos + y % 64 = y := by rw [← hyw, Nat.div_add_mod]
      have hbity : bit c (y % 64) = true :=
        (hit.last _ (Nat.mod_lt _ (by decide))).mpr (by rw [hy']; exact ⟨hy, hty⟩)
      have := hleast ⟨Nat.mod_lt _ (by decide), hbity⟩
      omega
    · omega
  · refine ⟨hit.granularity, by dsimp only; omega, by dsimp only; omega, hit.pos_lt, fun b hb64 => ?_,
      fun m hm hm6 => ?_⟩
    · simp only [Function.update_self]
      rw [bit_and, bit_and_sub_one_ctz64 hc]
      have hcb := hit.last b hb64
      rw [← hcdef] at hcb
      constructor
      · intro hb'
        simp only [Bool.and_eq_true, bne_iff_ne] at hb'
        have hle := hleast ⟨hb64, hb'.1.1⟩
        exact ⟨(hcb.mp hb'.1.1).1, by omega⟩
      · rintro ⟨hmem', hlt'⟩
        have hcbit := hcb.mpr ⟨hmem', by omega⟩
        have hlb : bit (hb.levels 6 hbi.pos) b = true := by
          rw [hcdef, bit_and, Bool.and_eq_true] at hcbit
          exact hcbit.2
        rw [hcbit, hlb, bne_iff_ne.mpr (by omega)]
        rfl
    · simp only [Function.update_of_ne (show 6 - m ≠ 6 by omega)]
      exact hit.upper m hm hm6

/-- An empty current word: no group from `t` on lies in it. -/
theorem IterAt.ne_pos_of_eq_zero (hit : IterAt hb t hbi) (hc : hbi.cur 6 &&& hb.levels 6 hbi.pos = 0) :
    ∀ y ∈ hb.dirty, t ≤ y → y / 64 ≠ hbi.pos := by
  intro y hy hty hyw
  have hy' : 64 * hbi.pos + y % 64 = y := by rw [← hyw, Nat.div_add_mod]
  have hbit := (hit.last _ (Nat.mod_lt _ (by decide))).mpr (by rw [hy']; exact ⟨hy, hty⟩)
  rw [hc, bit_zero] at hbit
  exact Bool.false_ne_true hbit

/-- An empty word at height `k`: no block right of the ancestor of `pos`
there is occupied. -/
theorem IterAt.not_occupied_of_eq_zero (hit : IterAt hb t hbi) {k : Nat} (hk1 : 1 ≤ k) (hk6 : k ≤ 6)
    (h0 : hbi.cur (6 - k) &&& hb.levels (6 - k) (hbi.pos / 64 ^ k) = 0) :
    ∀ r, Right 64 hbi.pos k r → ¬Occupied hb.dirty 64 k r := by
  intro r hr hocc
  have hr' : 64 * (hbi.pos / 64 ^ k) + r % 64 = r := by rw [← hr.1, Nat.div_add_mod]
  have hbit := (hit.upper k hk1 hk6 (r % 64) (Nat.mod_lt _ (by decide))).mpr
    (Or.inl (by rw [hr']; exact ⟨hr, hocc⟩))
  rw [h0, bit_zero] at hbit
  exact Bool.false_ne_true hbit

/-- With no bit left below level 0 and only the sentinel at level 0, no
group is left from `t` on. -/
theorem IterAt.lt_of_sentinel (hwf : hb.WF) (hit : IterAt hb t hbi) (hc : hbi.cur 6 &&& hb.levels 6 hbi.pos = 0)
    (hzero : ∀ j, 0 < j → j < 6 → hbi.cur j &&& hb.levels j (hbi.pos / 64 ^ (6 - j)) = 0)
    (hsent : hbi.cur 0 &&& hb.levels 0 (hbi.pos / 64 ^ 6) = hbitmapSentinel) :
    ∀ x ∈ hb.dirty, x < t := by
  have hpos0 : hbi.pos / 64 ^ 6 = 0 :=
    Nat.div_eq_of_lt (lt_of_lt_of_le hit.pos_lt (le_trans hwf.sizes_last_le (by decide)))
  refine lt_of_forall_not_right (B := 64) (by decide) hit.pos_le (hit.ne_pos_of_eq_zero hc)
    (fun k hk1 hk6 r hr hocc => ?_) (fun y hy => by rw [hwf.div_eq_zero_of_dirty hy, hpos0])
  rcases Nat.lt_or_eq_of_le hk6 with hk6' | rfl
  · refine hit.not_occupied_of_eq_zero hk1 hk6 ?_ r hr hocc
    rw [show hbi.pos / 64 ^ k = hbi.pos / 64 ^ (6 - (6 - k)) by rw [Nat.sub_sub_self hk6]]
    exact hzero (6 - k) (by omega) (by omega)
  · -- at level 0 only the sentinel is left, and it stands for no group
    have hr' : 64 * (hbi.pos / 64 ^ 6) + r % 64 = r := by rw [← hr.1, Nat.div_add_mod]
    have hbit := (hit.upper 6 hk1 le_rfl (r % 64) (Nat.mod_lt _ (by decide))).mpr
      (Or.inl (by rw [hr']; exact ⟨hr, hocc⟩))
    rw [show 6 - 6 = 0 from rfl, hsent, bit_hbitmapSentinel, beq_iff_eq] at hbit
    rw [hpos0] at hr'
    have hr63 : r = 63 := by omega
    exact hwf.not_occupied_sentinel (hr63 ▸ hocc)

/-- The climb stopped at height `m` with bits left: the bit the descent
follows is the first occupied block right of the ancestors of `pos`, and
the least group below it is the least group from `t` on. -/
theorem IterAt.isLeast_of_climb (hit : IterAt hb t hbi) {m : Nat} (hm : 1 ≤ m) (hm6 : m ≤ 6)
    (hc6 : hbi.cur 6 &&& hb.levels 6 hbi.pos = 0)
    (hzero : ∀ j, 6 - m < j → j < 6 → hbi.cur j &&& hb.levels j (hbi.pos / 64 ^ (6 - j)) = 0)
    (hc : hbi.cur (6 - m) &&& hb.levels (6 - m) (hbi.pos / 64 ^ m) ≠ 0)
    (hsent : ¬(m = 6 ∧ hbi.cur (6 - m) &&& hb.levels (6 - m) (hbi.pos / 64 ^ m) = hbitmapSentinel)) :
    IsLeast {r | Right 64 hbi.pos m r ∧ Occupied hb.dirty 64 m r}
        (64 * (hbi.pos / 64 ^ m) + ctz64 (hbi.cur (6 - m) &&& hb.levels (6 - m) (hbi.pos / 64 ^ m))) ∧
      ∀ x, IsLeast {x | x ∈ hb.dirty ∧ x / 64 ^ m =
          64 * (hbi.pos / 64 ^ m) + ctz64 (hbi.cur (6 - m) &&& hb.levels (6 - m) (hbi.pos / 64 ^ m))} x →
        IsLeast {x | x ∈ hb.dirty ∧ t ≤ x} x := by
  set c := hbi.cur (6 - m) &&& hb.levels (6 - m) (hbi.pos / 64 ^ m) with hcdef
  obtain ⟨⟨hlt, hbit⟩, hleast⟩ := isLeast_ctz64 hc
  have hlev := hit.upper m hm hm6
  -- the lowest bit is not the sentinel, which would be alone in `c`
  have hnot : ¬(m = 6 ∧ ctz64 c = 63) := by
    rintro ⟨h6, h63⟩
    refine hsent ⟨h6, ext_bit fun j hj => ?_⟩
    rw [bit_hbitmapSentinel]
    rcases Nat.lt_or_eq_of_le (Nat.lt_succ_iff.mp hj) with hj | rfl
    · cases hcj : bit c j
      · exact (beq_eq_false_iff_ne.mpr (by omega)).symm
      · exact absurd (hleast ⟨by omega, hcj⟩) (by omega)
    · rw [beq_self_eq_true, ← h63]
      exact hbit
  have hq : Right 64 hbi.pos m (64 * (hbi.pos / 64 ^ m) + ctz64 c) ∧
      Occupied hb.dirty 64 m (64 * (hbi.pos / 64 ^ m) + ctz64 c) :=
    ((hlev _ hlt).mp hbit).resolve_right hnot
  have hqleast : IsLeast {r | Right 64 hbi.pos m r ∧ Occupied hb.dirty 64 m r} (64 * (hbi.pos / 64 ^ m) + ctz64 c) := by
    refine ⟨hq, fun r ⟨hr, hocc⟩ => ?_⟩
    have hr' : 64 * (hbi.pos / 64 ^ m) + r % 64 = r := by rw [← hr.1, Nat.div_add_mod]
    have hrbit := (hlev _ (Nat.mod_lt _ (by decide))).mpr (Or.inl (by rw [hr']; exact ⟨hr, hocc⟩))
    have := hleast ⟨Nat.mod_lt _ (by decide), hrbit⟩
    omega
  refine ⟨hqleast, fun x hx => isLeast_ge_of_right (by decide) hit.pos_le hit.le_pos hm
    (hit.ne_pos_of_eq_zero hc6) (fun k hk1 hkm => hit.not_occupied_of_eq_zero hk1 (by omega) ?_) hqleast hx⟩
  rw [show hbi.pos / 64 ^ k = hbi.pos / 64 ^ (6 - (6 - k)) by rw [Nat.sub_sub_self (by omega)]]
  exact hzero (6 - k) (by omega) (by omega)

/-- The iterator after the descent reached the group `x`, and returned it. -/
theorem IterAt.after_descent (hwf : hb.WF) (hit : IterAt hb t hbi) {m q x : Nat} {cur' : Nat → UInt64}
    (hm : 1 ≤ m) (hm6 : m ≤ 6) (hc : hbi.cur (6 - m) &&& hb.levels (6 - m) (hbi.pos / 64 ^ m) ≠ 0)
    (hq : q = 64 * (hbi.pos / 64 ^ m) + ctz64 (hbi.cur (6 - m) &&& hb.levels (6 - m) (hbi.pos / 64 ^ m)))
    (hqleast : IsLeast {r | Right 64 hbi.pos m r ∧ Occupied hb.dirty 64 m r} q)
    (hx : IsLeast {x | x ∈ hb.dirty ∧ x / 64 ^ m = q} x)
    (hstart : cur' (6 - m) = (hbi.cur (6 - m) &&& hb.levels (6 - m) (hbi.pos / 64 ^ m)) &&&
      ((hbi.cur (6 - m) &&& hb.levels (6 - m) (hbi.pos / 64 ^ m)) - 1))
    (hpath : ∀ k, 1 ≤ k → k < m → cur' (6 - k) =
      hb.levels (6 - k) (x / 64 ^ (k + 1)) &&& (hb.levels (6 - k) (x / 64 ^ (k + 1)) - 1))
    (hrest : ∀ j, (j < 6 - m ∨ 6 ≤ j) → cur' j = hbi.cur j) :
    IterAt hb (x + 1)
      { hbi with pos := x / 64, cur := update cur' 6 (hb.levels 6 (x / 64) &&& (hb.levels 6 (x / 64) - 1)) } := by
  have hword := isLeast_sub_block hx hm
  simp only [Nat.pow_one] at hword
  obtain ⟨-, -, hlast⟩ := last_path hwf hword
  have hctz : ctz64 (hbi.cur (6 - m) &&& hb.levels (6 - m) (hbi.pos / 64 ^ m)) < 64 := (isLeast_ctz64 hc).1.1
  -- above height `m` the ancestors of `x` are those of `pos`
  have hparent : x / 64 ^ (m + 1) = hbi.pos / 64 ^ m := by
    rw [div_pow_succ, hx.1.2, hq]
    omega
  refine ⟨hit.granularity, by dsimp only; omega, by dsimp only; omega,
    by simpa using hwf.div_lt_sizes hx.1.1.1 (d := 0) (by decide), fun b hb64 => ?_, fun k hk hk6 => ?_⟩
  · simp only [Function.update_self]
    exact hlast b hb64
  · simp only [Function.update_of_ne (show 6 - k ≠ 6 by omega)]
    rcases Nat.lt_trichotomy k m with hkm | rfl | hkm
    · rw [hpath k hk hkm]
      exact levelAt_path hwf hk (by omega) (isLeast_sub_block hx (by omega))
    · rw [hstart]
      exact levelAt_start hwf hm (hit.upper k hk hk6) hc hq hqleast hx.1.2
    · rw [hrest _ (Or.inl (by omega))]
      refine (hit.upper k hk hk6).of_div_eq hk ?_
      rw [← div_pow_succ', Nat.sub_add_cancel hk]
      rw [show k = k - 1 + 1 by omega] at ⊢
      rw [div_pow_succ_eq_of_le hparent (by omega), Nat.add_sub_cancel]

/-- With no bit left in its word, `hbitmap_iter_skip_words` climbs and
descends to the word of the least group from `t` on, and returns that
word; or, with only the sentinel left, it returns 0 and no group is left
from `t` on. -/
theorem IterAt.skipWords_spec (hwf : hb.WF) (hit : IterAt hb t hbi) (hc6 : hbi.cur 6 &&& hb.levels 6 hbi.pos = 0) :
    (∃ x cur', IsLeast {x | x ∈ hb.dirty ∧ t ≤ x} x ∧
      hbitmapIterSkipWords hb hbi = ({ hbi with pos := x / 64, cur := cur' }, hb.levels 6 (x / 64)) ∧
      hb.levels 6 (x / 64) ≠ 0 ∧ ctz64 (hb.levels 6 (x / 64)) = x % 64 ∧
      IterAt hb (x + 1)
        { hbi with pos := x / 64, cur := update cur' 6 (hb.levels 6 (x / 64) &&& (hb.levels 6 (x / 64) - 1)) }) ∨
    ((∀ x ∈ hb.dirty, x < t) ∧ hbitmapIterSkipWords hb hbi = (hbi, 0)) := by
  rcases hS : skipWordsUp hb.levels hbi.cur 6 hbi.pos with _ | ⟨i, w', c⟩
  · -- the sentinel is left at level 0, so the climb cannot run out
    exfalso
    have h0 := skipWordsUp_eq_none hS 0 (by decide)
    have hbit := (hit.upper 6 (by decide) le_rfl 63 (by decide)).mpr (Or.inr ⟨rfl, rfl⟩)
    rw [show 6 - 6 = 0 from rfl, h0, bit_zero] at hbit
    exact Bool.false_ne_true hbit
  · obtain ⟨hi, hw', hc', hne, hzero⟩ := skipWordsUp_eq_some hS
    by_cases hsent : i = 0 ∧ c = hbitmapSentinel
    · obtain ⟨rfl, rfl⟩ := hsent
      exact Or.inr ⟨hit.lt_of_sentinel hwf hc6 hzero (by rw [hc', hw']), hbitmapIterSkipWords_of_sentinel hS⟩
    · obtain ⟨m, hm1, hm6, rfl⟩ : ∃ m, 1 ≤ m ∧ m ≤ 6 ∧ i = 6 - m := ⟨6 - i, by omega, by omega, by omega⟩
      rw [Nat.sub_sub_self hm6] at hw'
      subst hw' hc'
      obtain ⟨hqleast, hclimb⟩ := hit.isLeast_of_climb hm1 hm6 hc6 hzero hne
        (fun ⟨h6, h⟩ => hsent ⟨by omega, h⟩)
      obtain ⟨x, hx⟩ := exists_isLeast_block hqleast.1.2
      -- descend from the bit the climb found to the least group below it
      rcases hd : skipWordsDown hb.levels (6 - (6 - m)) (6 - m) (hbi.pos / 64 ^ m) hbi.cur
        (hbi.cur (6 - m) &&& hb.levels (6 - m) (hbi.pos / 64 ^ m)) with ⟨p, cur', c''⟩
      have hd' := hd
      rw [Nat.sub_sub_self hm6] at hd'
      obtain ⟨rfl, rfl, hstart, hpath, hrest⟩ := skipWordsDown_spec hwf hm1 hm6 hx hd'
      have hword := isLeast_sub_block hx hm1
      simp only [Nat.pow_one] at hword
      obtain ⟨hne6, hctz, -⟩ := last_path hwf hword
      exact Or.inl ⟨x, cur', hclimb x hx, hbitmapIterSkipWords_of_descent hS hsent hd, hne6, hctz,
        hit.after_descent hwf hm1 hm6 hne rfl hqleast hx hstart hpath hrest⟩

/-- From an iterator at `t`, `hbitmap_iter_next` returns the least group
from `t` on, scaled to its first element, and leaves an iterator at the
group after it; or it returns -1, leaves the iterator as it was, and no
group is left from `t` on. -/
theorem hbitmapIterNext_spec (hwf : hb.WF) (hit : IterAt hb t hbi) :
    (∃ x, IsLeast {x | x ∈ hb.dirty ∧ t ≤ x} x ∧
      (hbitmapIterNext hb hbi).1 = ((x <<< hb.granularity : Nat) : Int) ∧
      IterAt hb (x + 1) (hbitmapIterNext hb hbi).2) ∨
    ((∀ x ∈ hb.dirty, x < t) ∧ hbitmapIterNext hb hbi = (-1, hbi)) := by
  by_cases hc6 : hbi.cur 6 &&& hb.levels 6 hbi.pos = 0
  · -- the word is used up: the skip decides
    rcases hit.skipWords_spec hwf hc6 with ⟨x, cur', hx, hs, hne6, hctz, hnext⟩ | ⟨hnone, hs⟩
    · left
      rw [hbitmapIterNext_of_eq_zero hc6 hs, if_neg hne6]
      refine ⟨x, hx, ?_, hnext⟩
      dsimp only
      rw [hctz, Nat.div_add_mod, hit.granularity]
    · right
      rw [hbitmapIterNext_of_eq_zero hc6 hs, if_pos rfl]
      exact ⟨hnone, rfl⟩
  · left
    obtain ⟨hleast, hnext⟩ := hit.next_in_word hc6
    rw [hbitmapIterNext_of_ne hc6]
    exact ⟨_, hleast, by rw [hit.granularity], hnext⟩

end Next

/-! ## `hbitmap_iter_init` -/

/-- `~((1UL << s) - 1)`: the bits from `s` on. -/
theorem bit_not_lowMask {s b : Nat} (hs : s < 64) (hb : b < 64) :
    bit (~~~((1 <<< s.toUInt64) - 1)) b = decide (s ≤ b) := by
  have hs' : s.toUInt64.toNat = s := UInt64.toNat_ofNat_of_lt' (lt_trans hs (by decide))
  rw [bit_not, bit_lowMask _ (by omega), hs']
  simp only [decide_eq_true hb, Bool.true_and]
  by_cases h : b < s
  · simp [h]
  · simp [h]
    omega

/-- `~(1UL << s)`: every bit but `s`. -/
theorem bit_not_single {s b : Nat} (hs : s < 64) (hb : b < 64) :
    bit (~~~((1 : UInt64) <<< s.toUInt64)) b = decide (b ≠ s) := by
  have hs' : s.toUInt64.toNat = s := UInt64.toNat_ofNat_of_lt' (lt_trans hs (by decide))
  rw [bit_not, bit_shiftLeft _ _ (by omega), hs', bit_eq_testBit, UInt64.toNat_one,
    show (1 : Nat) = 2 ^ 0 from rfl, Nat.testBit_two_pow, decide_eq_true hb]
  by_cases h : b = s
  · simp [h]
  · by_cases hsb : s ≤ b
    · simp [hsb, h, show 0 ≠ b - s by omega]
    · simp [hsb, h]

theorem and_bitsPerLong_sub_one (pos : Nat) : pos &&& (bitsPerLong - 1) = pos % 64 :=
  Nat.and_two_pow_sub_one_eq_mod pos 6

theorem hbitmapIterInitLoop_of_le {levels : Nat → Nat → UInt64} {k j : Nat} (hkj : k ≤ j) (pos : Nat)
    (cur : Nat → UInt64) : hbitmapIterInitLoop levels k pos cur j = cur j := by
  induction k generalizing pos cur with
  | zero => rfl
  | succ k ih =>
    simp only [hbitmapIterInitLoop]
    rw [ih (by omega), update_of_ne (by omega)]

/-- The loop of `hbitmap_iter_init` from level `k - 1` down, at the bit
`pos` of level `k`: at level `j` the word that holds the ancestor of
`pos`, without the bits before that ancestor, and but on the last level
without the ancestor itself. -/
theorem bit_hbitmapIterInitLoop {levels : Nat → Nat → UInt64} {k j b : Nat} (hjk : j < k) (hb : b < 64)
    (pos : Nat) (cur : Nat → UInt64) :
    bit (hbitmapIterInitLoop levels k pos cur j) b = (bit (levels j (pos / 64 ^ (k - j))) b &&
      decide (pos / 64 ^ (k - 1 - j) % 64 ≤ b) && (j == hbitmapLevels - 1 || b != pos / 64 ^ (k - 1 - j) % 64)) := by
  induction k generalizing pos cur with
  | zero => omega
  | succ k ih =>
    simp only [hbitmapIterInitLoop, shiftRight_bitsPerLevel, and_bitsPerLong_sub_one]
    rcases Nat.lt_or_eq_of_le (Nat.lt_succ_iff.mp hjk) with hjk | rfl
    · rw [ih hjk, ← div_pow_succ', show k - j + 1 = k + 1 - j by omega, ← div_pow_succ',
        show k - 1 - j + 1 = k + 1 - 1 - j by omega]
    · have hs := Nat.mod_lt pos (show 0 < 64 by decide)
      rw [hbitmapIterInitLoop_of_le le_rfl, update_self, show j + 1 - j = 1 by omega,
        show j + 1 - 1 - j = 0 by omega, Nat.pow_one, Nat.pow_zero, Nat.div_one]
      by_cases hj : j = hbitmapLevels - 1
      · rw [if_neg (not_not.mpr hj), bit_and, bit_not_lowMask hs hb, hj]
        simp
      · rw [if_pos hj, bit_and, bit_and, bit_not_lowMask hs hb, bit_not_single hs hb, beq_false_of_ne hj,
          Bool.false_or, bne, decide_not, beq_eq_decide]

/-- `hbitmap_iter_init(hbi, hb, first)` gives an iterator at the group of
`first`. -/
theorem hbitmapIterInit_iterAt {hb : HBitmap} (hwf : hb.WF) {first : Nat} (hp : first >>> hb.granularity < hb.size) :
    IterAt hb (first >>> hb.granularity) (hbitmapIterInit hb first) := by
  set p := first >>> hb.granularity with hpdef
  have hlev : hbitmapLevels = 7 := rfl
  have hps : p / 64 < hb.sizes 6 := by simpa using hwf.div_lt_sizes hp (d := 0) (by decide)
  have heq : hbitmapIterInit hb first =
      { pos := p / 64, granularity := hb.granularity, cur := hbitmapIterInitLoop hb.levels 7 p fun _ => 0 } := by
    simp only [hbitmapIterInit, shiftRight_bitsPerLevel, hpdef]
    rfl
  rw [heq]
  refine ⟨rfl, by dsimp only; omega, by dsimp only; omega, hps, fun b hb64 => ?_, fun m hm hm6 => ?_⟩
  · -- the last level keeps the bits from `p` on
    have hbits := hwf.bit_iff (m := 0) (le_of_lt (by decide)) hps hb64
    rw [occupied_zero] at hbits
    dsimp only
    rw [bit_and, bit_hbitmapIterInitLoop (by decide) hb64]
    simp only [show 7 - 6 = 1 from rfl, show 7 - 1 - 6 = 0 from rfl, Nat.pow_one, Nat.pow_zero,
      Nat.div_one, hbitmapLevels_sub_one, beq_self_eq_true, Bool.true_or, Bool.and_true]
    rw [show (6 : Nat) - 0 = 6 from rfl] at hbits
    constructor
    · intro h
      simp only [Bool.and_eq_true, decide_eq_true_eq] at h
      exact ⟨(hbits.mp h.1.1).resolve_right (by omega), by omega⟩
    · rintro ⟨hmem, hle⟩
      simp only [Bool.and_eq_true, decide_eq_true_eq]
      exact ⟨⟨hbits.mpr (Or.inl hmem), by omega⟩, hbits.mpr (Or.inl hmem)⟩
  · -- level `6 - m` keeps the blocks right of the ancestor of `p`
    have hW : p / 64 / 64 ^ m = p / 64 ^ (m + 1) := (div_pow_succ' p 64 m).symm
    have hanc : p / 64 / 64 ^ (m - 1) = 64 * (p / 64 ^ (m + 1)) + p / 64 ^ m % 64 := by
      rw [← div_pow_succ', Nat.sub_add_cancel hm, div_pow_succ p 64 m, Nat.div_add_mod]
    have hWs : p / 64 ^ (m + 1) < hb.sizes (6 - m) := by
      rcases Nat.lt_or_eq_of_le hm6 with hm6 | rfl
      · exact hwf.div_lt_sizes hp hm6
      · rw [Nat.div_eq_of_lt (lt_of_lt_of_le hp (le_trans hwf.size_le (by decide))), show 6 - 6 = 0 from rfl,
          hwf.sizes_zero]
        decide
    have hs63 : p / 64 ^ m % 64 < 63 ∨ m < 6 := by
      rcases Nat.lt_or_eq_of_le hm6 with hm6 | rfl
      · exact Or.inr hm6
      · have := lt_of_lt_of_le hp hwf.size_le
        left
        rw [Nat.mod_eq_of_lt (Nat.div_lt_of_lt_mul (lt_of_lt_of_le this (by decide)))]
        exact Nat.div_lt_of_lt_mul (lt_of_lt_of_le this (by decide))
    intro b hb64
    have hbits := hwf.bit_iff (by omega) hWs hb64
    dsimp only
    unfold Right
    rw [hW, hanc, bit_and, bit_hbitmapIterInitLoop (by omega) hb64, show 7 - (6 - m) = m + 1 by omega,
      show 7 - 1 - (6 - m) = m by omega, beq_false_of_ne (show 6 - m ≠ hbitmapLevels - 1 by
        rw [hbitmapLevels_sub_one]; omega), Bool.false_or]
    simp only [Bool.and_eq_true, decide_eq_true_eq, bne_iff_ne]
    constructor
    · rintro ⟨⟨⟨hbit, hle⟩, hne⟩, -⟩
      rcases hbits.mp hbit with hocc | ⟨h6, h63⟩
      · exact Or.inl ⟨⟨by omega, by omega⟩, hocc⟩
      · exact Or.inr ⟨h6, by omega⟩
    · rintro (⟨⟨-, hlt⟩, hocc⟩ | ⟨h6, rfl⟩)
      · have hbit := hbits.mpr (Or.inl hocc)
        exact ⟨⟨⟨hbit, by omega⟩, by omega⟩, hbit⟩
      · -- the sentinel is right of every ancestor: `p` is below `2^41`
        have hW0 : p / 64 ^ (m + 1) = 0 := by
          rw [h6]
          exact Nat.div_eq_of_lt (lt_of_lt_of_le hp (le_trans hwf.size_le (by decide)))
        have hbit := hbits.mpr (Or.inr ⟨h6, by omega⟩)
        have hs := hs63.resolve_right (by omega)
        exact ⟨⟨⟨hbit, by omega⟩, by omega⟩, hbit⟩

end QemuFormal.Hbitmap

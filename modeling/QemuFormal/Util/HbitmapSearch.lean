/-
QemuFormal.Util.HbitmapSearch — what iterating and searching an HBitmap
returns, for a bitmap with the invariant `WF`.

The groups of the bitmap are `HBitmap.dirty`; an element is set
(`hbitmap_get`) iff its group is one (`hbitmapGet_iff`).
- Iterating from `first` returns the groups from the group of `first`
  on, each once and in increasing order, as their first element, and
  then -1 for ever (`hbitmapIterInit_run`).
- `hbitmap_next_dirty` returns the first set element of the range it is
  given, clipped to `orig_size`, or -1 (`hbitmapNextDirty_spec`), and
  `hbitmap_next_zero` the first clear one (`hbitmapNextZero_spec`).
- `hbitmap_next_dirty_area` returns the run of set elements that starts
  at the first set one, up to the end of the range, up to
  `max_dirty_count` elements, or up to a clear element
  (`hbitmapNextDirtyArea_spec`), and `hbitmap_status` the longest prefix
  of the range whose elements are all set or all clear
  (`hbitmapStatus_eq_runLength`). `runLength` states both by reading
  the elements one at a time.

Both searches find a group and answer with its first element from
`start` on; `search_of_group` turns the one answer into the other.
-/
import QemuFormal.Util.HbitmapIter

namespace QemuFormal.Hbitmap

open Bits Blocks
open QemuFormal.Bitmap (bitsPerLong)

/-! ## Elements and groups -/

/-- `1UL << s`: the single bit `s`. -/
theorem bit_single {s b : Nat} (hs : s < 64) (hb : b < 64) :
    bit ((1 : UInt64) <<< s.toUInt64) b = decide (b = s) := by
  have hnot := bit_not_single hs hb
  rw [bit_not, decide_eq_true hb, Bool.true_and] at hnot
  cases h : bit ((1 : UInt64) <<< s.toUInt64) b <;> simp_all

/-- `w & (1UL << s) != 0` tests bit `s`. -/
theorem and_single_ne_zero (w : UInt64) {s : Nat} (hs : s < 64) :
    (w &&& (1 : UInt64) <<< s.toUInt64 != 0) = bit w s := by
  cases hw : bit w s
  · have h0 : w &&& (1 : UInt64) <<< s.toUInt64 = 0 := ext_bit fun j hj => by
      rw [bit_and, bit_single hs hj, bit_zero]
      by_cases hjs : j = s
      · rw [hjs, hw]
        rfl
      · rw [decide_eq_false hjs, Bool.and_false]
    rw [h0]
    rfl
  · refine bne_iff_ne.mpr fun h0 => ?_
    have hbit : bit (w &&& (1 : UInt64) <<< s.toUInt64) s = true := by
      rw [bit_and, bit_single hs hs, hw, decide_eq_true rfl]
      rfl
    rw [h0, bit_zero] at hbit
    exact Bool.false_ne_true hbit

/-- `hbitmap_get` reads the bit of the element's group. -/
theorem hbitmapGet_eq (hb : HBitmap) (item : Nat) :
    hbitmapGet hb item = arrayBit (hb.levels (hbitmapLevels - 1)) (item >>> hb.granularity) := by
  simp only [hbitmapGet, shiftRight_bitsPerLevel, and_bitsPerLong_sub_one]
  exact and_single_ne_zero _ (Nat.mod_lt _ (by decide))

/-! A group `x` of granularity `g` holds the elements `y` with
`y >> g = x`, from `x << g` on. Both searches find a group and answer
with its first element from `start` on. -/

section Groups

theorem shiftRight_le_shiftRight {x y : Nat} (h : x ≤ y) (g : Nat) : x >>> g ≤ y >>> g := by
  rw [Nat.shiftRight_eq_div_pow, Nat.shiftRight_eq_div_pow]
  exact Nat.div_le_div_right h

theorem le_shiftRight_iff {x y g : Nat} : x ≤ y >>> g ↔ x <<< g ≤ y := by
  rw [Nat.shiftRight_eq_div_pow, Nat.shiftLeft_eq]
  exact Nat.le_div_iff_mul_le (Nat.two_pow_pos g)

theorem shiftLeft_le_shiftLeft {x y : Nat} (h : x ≤ y) (g : Nat) : x <<< g ≤ y <<< g := by
  rw [Nat.shiftLeft_eq, Nat.shiftLeft_eq]
  exact Nat.mul_le_mul_right _ h

theorem shiftLeft_shiftRight (x g : Nat) : x <<< g >>> g = x := by
  rw [Nat.shiftLeft_eq, Nat.shiftRight_eq_div_pow, Nat.mul_div_cancel _ (Nat.two_pow_pos g)]

variable {P : Nat → Prop} {g start E : Nat}

/-- When no group from `start`'s on with its first element below `E`
has `P`, no element of `[start, E)` is in such a group. -/
theorem not_of_forall_group (hall : ∀ r, start >>> g ≤ r → r <<< g < E → ¬P r) :
    ∀ y, start ≤ y → y < E → ¬P (y >>> g) := fun y hy hyE =>
  hall (y >>> g) (shiftRight_le_shiftRight hy g) (lt_of_le_of_lt (le_shiftRight_iff.mp le_rfl) hyE)

/-- The first element of `[start, E)` in a group with `P` is the first
element from `start` on of the first such group, when that lies below `E`. -/
theorem isLeast_max_shiftLeft {x : Nat} (hx : IsLeast {r | P r ∧ start >>> g ≤ r} x)
    (hxE : x <<< g < E) (hsE : start < E) :
    IsLeast {y | start ≤ y ∧ y < E ∧ P (y >>> g)} (max start (x <<< g)) := by
  -- the answer is in group `x`: `start` when that is in it, else the group's first element
  have hgx : max start (x <<< g) >>> g = x := by
    apply Nat.le_antisymm
    · rcases Nat.le_total start (x <<< g) with h | h
      · rw [max_eq_right h, shiftLeft_shiftRight]
      · rw [max_eq_left h]
        exact hx.1.2
    · exact le_shiftRight_iff.mpr (le_max_right _ _)
  refine ⟨⟨le_max_left _ _, max_lt hsE hxE, by rw [hgx]; exact hx.1.1⟩, ?_⟩
  rintro y ⟨hy, -, hP⟩
  exact max_le hy (le_shiftRight_iff.mp (hx.2 ⟨hP, shiftRight_le_shiftRight hy g⟩))

/-- Past the first group with `P`, up to `E`, no element is in a group with `P`. -/
theorem not_of_isLeast_group {x : Nat} (hx : IsLeast {r | P r ∧ start >>> g ≤ r} x)
    (hxE : E ≤ x <<< g) : ∀ y, start ≤ y → y < E → ¬P (y >>> g) :=
  not_of_forall_group fun r hr hrE (hP : P r) =>
    absurd (lt_of_lt_of_le hrE hxE) (Nat.not_lt.mpr (shiftLeft_le_shiftLeft (hx.2 ⟨hP, hr⟩) g))

/-- A search over groups answers the search over elements: `v` is the
first element of `[start, E)` whose group has `P`, or -1 when there is none. -/
theorem search_of_group {Q : Nat → Prop} (hPQ : ∀ y, start ≤ y → y < E → (Q y ↔ P (y >>> g)))
    (hsE : start < E) {v : Int}
    (hv : (∃ x, IsLeast {r | P r ∧ start >>> g ≤ r} x ∧
        v = if x <<< g < E then ((max start (x <<< g) : Nat) : Int) else -1) ∨
      ((∀ r, start >>> g ≤ r → r <<< g < E → ¬P r) ∧ v = -1)) :
    (∃ y, IsLeast {y | start ≤ y ∧ y < E ∧ Q y} y ∧ v = y) ∨
      ((∀ y, start ≤ y → y < E → ¬Q y) ∧ v = -1) := by
  have hset : {y | start ≤ y ∧ y < E ∧ Q y} = {y | start ≤ y ∧ y < E ∧ P (y >>> g)} :=
    Set.ext fun y => and_congr_right fun hy => and_congr_right fun hyE => hPQ y hy hyE
  have hnone : (∀ y, start ≤ y → y < E → ¬P (y >>> g)) → ∀ y, start ≤ y → y < E → ¬Q y :=
    fun h y hy hyE hQ => h y hy hyE ((hPQ y hy hyE).mp hQ)
  rcases hv with ⟨x, hx, rfl⟩ | ⟨hall, rfl⟩
  · by_cases hxE : x <<< g < E
    · rw [if_pos hxE, hset]
      exact Or.inl ⟨_, isLeast_max_shiftLeft hx hxE hsE, rfl⟩
    · rw [if_neg hxE]
      exact Or.inr ⟨hnone (not_of_isLeast_group hx (Nat.le_of_not_lt hxE)), rfl⟩
  · exact Or.inr ⟨hnone (not_of_forall_group hall), rfl⟩

end Groups

section Sizes

variable {hb : HBitmap}

/-- An element below `orig_size` lies in a group below `size`. -/
theorem HBitmap.WF.shiftRight_lt_size (hwf : hb.WF) {y : Nat} (hy : y < hb.origSize) :
    y >>> hb.granularity < hb.size := by
  rw [hwf.size_eq, Nat.shiftRight_eq_div_pow, Nat.shiftRight_eq_div_pow, Nat.shiftLeft_eq, Nat.one_mul]
  have hG := Nat.two_pow_pos hb.granularity
  generalize 2 ^ hb.granularity = G at *
  have h1 : y / G * G ≤ y := Nat.div_mul_le_self y G
  have h2 : (y / G + 1) * G ≤ hb.origSize + G - 1 := by
    rw [Nat.succ_mul]
    omega
  exact Nat.lt_of_succ_le ((Nat.le_div_iff_mul_le hG).mpr h2)

/-- The first element of a group below `size` is below `orig_size`. -/
theorem HBitmap.WF.shiftLeft_lt_origSize (hwf : hb.WF) {x : Nat} (hx : x < hb.size) :
    x <<< hb.granularity < hb.origSize := by
  rw [hwf.size_eq, Nat.shiftRight_eq_div_pow, Nat.shiftLeft_eq, Nat.one_mul] at hx
  rw [Nat.shiftLeft_eq]
  have hG := Nat.two_pow_pos hb.granularity
  generalize 2 ^ hb.granularity = G at *
  have h2 : (x + 1) * G ≤ hb.origSize + G - 1 := (Nat.le_div_iff_mul_le hG).mp hx
  rw [Nat.succ_mul] at h2
  omega

/-- An element below `orig_size` is set iff its group is dirty. -/
theorem HBitmap.WF.hbitmapGet_iff (hwf : hb.WF) {y : Nat} (hy : y < hb.origSize) :
    hbitmapGet hb y = true ↔ y >>> hb.granularity ∈ hb.dirty := by
  rw [hbitmapGet_eq]
  exact ⟨fun h => ⟨hwf.shiftRight_lt_size hy, h⟩, fun h => h.2⟩

end Sizes

/-! ## Iterating -/

/-- The values of `n` calls of `hbitmap_iter_next` in a row. -/
def hbitmapIterRun (hb : HBitmap) : Nat → HBitmapIter → List Int
  | 0, _ => []
  | n + 1, hbi => (hbitmapIterNext hb hbi).1 :: hbitmapIterRun hb n (hbitmapIterNext hb hbi).2

/-- The groups from `t` on, in increasing order. -/
def dirtyFrom (hb : HBitmap) (t : Nat) : List Nat :=
  (List.range hb.size).filter fun x => decide (t ≤ x) && arrayBit (hb.levels (hbitmapLevels - 1)) x

theorem mem_dirtyFrom {hb : HBitmap} {t x : Nat} : x ∈ dirtyFrom hb t ↔ x ∈ hb.dirty ∧ t ≤ x := by
  simp only [dirtyFrom, List.mem_filter, List.mem_range, Bool.and_eq_true, decide_eq_true_eq, HBitmap.dirty,
    Set.mem_ofPred_eq]
  tauto

theorem dirtyFrom_eq_nil {hb : HBitmap} {t : Nat} (h : ∀ x ∈ hb.dirty, x < t) : dirtyFrom hb t = [] :=
  List.eq_nil_iff_forall_not_mem.mpr fun x hx => by
    have := mem_dirtyFrom.mp hx
    exact absurd (h x this.1) (Nat.not_lt.mpr this.2)

/-- The least group from `t` on heads the groups from `t` on. -/
theorem dirtyFrom_eq_cons {hb : HBitmap} {t x : Nat} (hx : IsLeast {x | x ∈ hb.dirty ∧ t ≤ x} x) :
    dirtyFrom hb t = x :: dirtyFrom hb (x + 1) := by
  obtain ⟨⟨⟨hxs, hxb⟩, htx⟩, hleast⟩ := hx
  -- the positions before `x`, `x` itself, and those after it
  have hsplit : List.range hb.size = List.range' 0 x ++ [x] ++ List.range' (x + 1) (hb.size - (x + 1)) := by
    have happ := @List.range'_append_1 0 (x + 1) (hb.size - (x + 1))
    rw [Nat.zero_add, Nat.add_sub_cancel' (by omega : x + 1 ≤ hb.size), List.range'_1_concat, Nat.zero_add] at happ
    rw [List.range_eq_range', ← happ]
  have hmem : ∀ {u y : Nat}, (decide (u ≤ y) && arrayBit (hb.levels (hbitmapLevels - 1)) y) = true →
      u ≤ y ∧ arrayBit (hb.levels (hbitmapLevels - 1)) y = true := by
    intro u y h
    simpa using h
  -- nothing before `x` is a group from `t` on, nor anything up to `x` one from `x + 1` on
  have hlow : (List.range' 0 x).filter (fun y => decide (t ≤ y) && arrayBit (hb.levels (hbitmapLevels - 1)) y) = [] :=
    List.filter_eq_nil_iff.mpr fun y hy hP => by
      rw [List.mem_range'_1] at hy
      have := hleast ⟨⟨by omega, (hmem hP).2⟩, (hmem hP).1⟩
      omega
  have hlow' : (List.range' 0 x ++ [x]).filter
      (fun y => decide (x + 1 ≤ y) && arrayBit (hb.levels (hbitmapLevels - 1)) y) = [] :=
    List.filter_eq_nil_iff.mpr fun y hy hP => by
      rw [List.mem_append, List.mem_range'_1, List.mem_singleton] at hy
      have := (hmem hP).1
      omega
  have hself : [x].filter (fun y => decide (t ≤ y) && arrayBit (hb.levels (hbitmapLevels - 1)) y) = [x] := by
    rw [List.filter_singleton, decide_eq_true htx, hxb]
    rfl
  -- after `x` both filters keep the same groups
  have hhigh : (List.range' (x + 1) (hb.size - (x + 1))).filter
        (fun y => decide (t ≤ y) && arrayBit (hb.levels (hbitmapLevels - 1)) y) =
      (List.range' (x + 1) (hb.size - (x + 1))).filter
        (fun y => decide (x + 1 ≤ y) && arrayBit (hb.levels (hbitmapLevels - 1)) y) :=
    List.filter_congr fun y hy => by
      rw [List.mem_range'_1] at hy
      rw [decide_eq_true (show t ≤ y by omega), decide_eq_true (show x + 1 ≤ y by omega)]
  unfold dirtyFrom
  rw [hsplit, List.filter_append, List.filter_append, hlow, hself, hhigh, List.filter_append, hlow']
  rfl

/-- From an iterator at `t`, `n` calls of `hbitmap_iter_next` return the
groups from `t` on in increasing order, each as its first element, and
then -1. -/
theorem hbitmapIterRun_of_iterAt {hb : HBitmap} (hwf : hb.WF) {t : Nat} {hbi : HBitmapIter} (hit : IterAt hb t hbi)
    (n : Nat) :
    hbitmapIterRun hb n hbi =
      ((dirtyFrom hb t).map (fun x => ((x <<< hb.granularity : Nat) : Int))).take n ++
        List.replicate (n - (dirtyFrom hb t).length) (-1) := by
  induction n generalizing t hbi with
  | zero => simp [hbitmapIterRun]
  | succ n ih =>
    rcases hbitmapIterNext_spec hwf hit with ⟨x, hx, hval, hnext⟩ | ⟨hnone, hend⟩
    · rw [hbitmapIterRun, hval, ih hnext, dirtyFrom_eq_cons hx, List.map_cons, List.take_succ_cons,
        List.length_cons, Nat.add_sub_add_right, List.cons_append]
    · rw [hbitmapIterRun, hend, ih hit, dirtyFrom_eq_nil hnone]
      simp [List.replicate_succ]

/-- Iterating from `first` returns each group from the group of `first` on,
once and in increasing order, as its first element, and then -1. -/
theorem hbitmapIterInit_run {hb : HBitmap} (hwf : hb.WF) {first : Nat} (hp : first >>> hb.granularity < hb.size)
    (n : Nat) :
    hbitmapIterRun hb n (hbitmapIterInit hb first) =
      ((dirtyFrom hb (first >>> hb.granularity)).map (fun x => ((x <<< hb.granularity : Nat) : Int))).take n ++
        List.replicate (n - (dirtyFrom hb (first >>> hb.granularity)).length) (-1) :=
  hbitmapIterRun_of_iterAt hwf (hbitmapIterInit_iterAt hwf hp) n

/-- From element 5 of a new bitmap of 256 elements in groups of 4, the
iterator returns -1 at once and for ever. -/
theorem hbitmapIterInit_run_alloc :
    (hbitmapAlloc 256 2).WF ∧ 5 >>> (hbitmapAlloc 256 2).granularity < (hbitmapAlloc 256 2).size ∧
      hbitmapIterRun (hbitmapAlloc 256 2) 2 (hbitmapIterInit (hbitmapAlloc 256 2) 5) = [-1, -1] := by
  have hwf : (hbitmapAlloc 256 2).WF := hbitmapAlloc_wf (by decide)
  refine ⟨hwf, by decide, ?_⟩
  rw [hbitmapIterInit_run hwf (by decide) 2]
  decide

/-! ## `hbitmap_next_dirty` -/

section NextDirty

variable {hb : HBitmap}

/-- `hbitmap_next_dirty(hb, start, count)` returns the first set element
of `[start, start + count)` below `orig_size`, or -1 when there is none. -/
theorem hbitmapNextDirty_spec (hwf : hb.WF) (start count : Nat) :
    (∃ y, IsLeast {y | start ≤ y ∧ y < min (start + count) hb.origSize ∧ hbitmapGet hb y = true} y ∧
      hbitmapNextDirty hb start count = y) ∨
    ((∀ y, start ≤ y → y < min (start + count) hb.origSize → hbitmapGet hb y = false) ∧
      hbitmapNextDirty hb start count = -1) := by
  by_cases hs : start ≥ hb.origSize ∨ count = 0
  · -- an empty range
    right
    refine ⟨fun y hy hyE => by omega, ?_⟩
    simp only [hbitmapNextDirty, if_pos hs]
  · have hso : start < hb.origSize := by omega
    have hE : (if count > hb.origSize - start then hb.origSize else start + count) =
        min (start + count) hb.origSize := by
      split <;> omega
    -- the iterator finds the first dirty group from `start`'s on
    have hgroup : (∃ x, IsLeast {r | r ∈ hb.dirty ∧ start >>> hb.granularity ≤ r} x ∧
        hbitmapNextDirty hb start count = if x <<< hb.granularity < min (start + count) hb.origSize
          then ((max start (x <<< hb.granularity) : Nat) : Int) else -1) ∨
        ((∀ r, start >>> hb.granularity ≤ r → r <<< hb.granularity < min (start + count) hb.origSize →
          r ∉ hb.dirty) ∧ hbitmapNextDirty hb start count = -1) := by
      rcases hbitmapIterNext_spec hwf (hbitmapIterInit_iterAt hwf (hwf.shiftRight_lt_size hso)) with
        ⟨x, hx, hval, -⟩ | ⟨hnone, hnext⟩
      · refine Or.inl ⟨x, hx, ?_⟩
        generalize x <<< hb.granularity = z at hval ⊢
        simp only [hbitmapNextDirty, if_neg hs, hE, hval]
        split_ifs <;> omega
      · refine Or.inr ⟨fun r hr _ hmem => absurd (hnone r hmem) (Nat.not_lt.mpr hr), ?_⟩
        simp only [hbitmapNextDirty, if_neg hs, hE, hnext]
        rw [if_pos (Or.inl (by decide))]
    rcases search_of_group (Q := fun y => hbitmapGet hb y = true)
      (fun y _ hyE => hwf.hbitmapGet_iff (lt_of_lt_of_le hyE (min_le_right _ _))) (by omega) hgroup with
      h | ⟨h, hv⟩
    · exact Or.inl h
    · exact Or.inr ⟨fun y hy hyE => Bool.eq_false_iff.mpr (h y hy hyE), hv⟩

end NextDirty

/-! ## `hbitmap_next_zero` -/

section NextZero

variable {hb : HBitmap}

open QemuFormal.HostUtils (cto64)

/-- `cto64(w)` is the lowest clear bit of a word that has one. -/
theorem isLeast_cto64 {w : UInt64} (hw : w ≠ ~~~0) : IsLeast {j | j < 64 ∧ bit w j = false} (cto64 w) := by
  have hne : ~~~w ≠ 0 := fun h => hw (by rw [← h, UInt64.not_not])
  have hclear : ∀ j < 64, bit (~~~w) j = true ↔ bit w j = false := fun j hj => by
    simp [bit_not, hj]
  obtain ⟨⟨hlt, hbit⟩, hleast⟩ := isLeast_ctz64 hne
  exact ⟨⟨hlt, (hclear _ hlt).mp hbit⟩, fun j ⟨hj, hb⟩ => hleast ⟨hj, (hclear j hj).mpr hb⟩⟩

/-- The loop `do pos++; while (pos < sz && lastLev[pos] == ~0)` stops at
the first word after `pos` that is at `sz` or not all ones, given fuel
to reach `sz`. -/
theorem nextZeroSkip_isLeast (L : Nat → UInt64) (sz : Nat) (fuel : Nat) :
    ∀ pos, sz ≤ pos + fuel + 1 →
      IsLeast {k | pos < k ∧ (sz ≤ k ∨ L k ≠ ~~~0)} (nextZeroSkip L sz (fuel + 1) pos) := by
  -- the loop's fuel counts down as `pos` counts up
  induction fuel with
  | zero =>
    intro pos hsz
    have hstop : ¬(pos + 1 < sz ∧ L (pos + 1) = ~~~0) := by omega
    simp only [nextZeroSkip, if_neg hstop]
    exact ⟨⟨by omega, Or.inl (by omega)⟩, fun k hk => hk.1⟩
  | succ f ih =>
    intro pos hsz
    by_cases hgo : pos + 1 < sz ∧ L (pos + 1) = ~~~0
    · rw [nextZeroSkip.eq_2, if_pos hgo]
      obtain ⟨hmem, hleast⟩ := ih (pos + 1) (by omega)
      refine ⟨⟨Nat.lt_of_succ_lt hmem.1, hmem.2⟩, fun k ⟨hk, hstop⟩ => hleast ⟨?_, hstop⟩⟩
      -- word `pos + 1` does not stop the loop
      rcases Nat.lt_or_ge (pos + 1) k with h | h
      · exact h
      · obtain rfl : k = pos + 1 := by omega
        exact absurd hstop (not_or.mpr ⟨by omega, not_not.mpr hgo.2⟩)
    · simp only [nextZeroSkip, if_neg hgo]
      refine ⟨⟨by omega, ?_⟩, fun k hk => hk.1⟩
      by_cases hlt : pos + 1 < sz
      · exact Or.inr fun h => hgo ⟨hlt, h⟩
      · exact Or.inl (by omega)

/-- The first clear bit from `p0` on, found in word `w`: `c` reads word
`w` from bit `lo` on and is set below it, and the bits from `p0` up to
bit `lo` of word `w` are set. -/
theorem isLeast_clear_of_word {L : Nat → UInt64} {c : UInt64} {p0 w lo : Nat} (hc : c ≠ ~~~0)
    (hbits : ∀ i < 64, bit c i = (bit (L w) i || decide (i < lo))) (hp0 : p0 ≤ 64 * w + lo)
    (hset : ∀ r, p0 ≤ r → r < 64 * w + lo → arrayBit L r = true) :
    IsLeast {r | arrayBit L r = false ∧ p0 ≤ r} (64 * w + cto64 c) := by
  obtain ⟨⟨hj, hjc⟩, hleast⟩ := isLeast_cto64 hc
  have hjbit := hbits _ hj
  rw [hjc, eq_comm, Bool.or_eq_false_iff, decide_eq_false_iff_not] at hjbit
  refine ⟨⟨by rw [arrayBit_word L _ _ hj]; exact hjbit.1, by omega⟩, fun r ⟨hr, hpr⟩ => ?_⟩
  -- a clear bit before it is in word `w`, from bit `lo` on, where `c` reads it
  refine Nat.le_of_not_lt fun hlt => ?_
  by_cases hrl : r < 64 * w + lo
  · rw [hset r hpr hrl] at hr
    exact Bool.noConfusion hr
  · have hr' : r = 64 * w + r % 64 := by omega
    rw [hr', arrayBit_word L _ _ (Nat.mod_lt _ (by decide))] at hr
    have hci := hbits _ (Nat.mod_lt r (by decide))
    rw [hr, Bool.false_or, decide_eq_false (by omega)] at hci
    have := hleast ⟨Nat.mod_lt r (by decide), hci⟩
    omega

/-- The bits from `p0` on before the word where the skip stops are set,
when those of `p0`'s word are. -/
theorem arrayBit_of_lt_skip {L : Nat → UInt64} {sz p0 q : Nat}
    (hcur : ∀ i, p0 % 64 ≤ i → i < 64 → bit (L (p0 / 64)) i = true)
    (hq : IsLeast {k | p0 / 64 < k ∧ (sz ≤ k ∨ L k ≠ ~~~0)} q) :
    ∀ r, p0 ≤ r → r < 64 * q → arrayBit L r = true := by
  intro r hr hrq
  have hr' : r = 64 * (r / 64) + r % 64 := (Nat.div_add_mod r 64).symm
  rw [hr', arrayBit_word L _ _ (Nat.mod_lt _ (by decide))]
  rcases Nat.lt_or_ge (p0 / 64) (r / 64) with hw | hw
  · -- a word the loop went past is all ones
    have hfull : ¬(sz ≤ r / 64 ∨ L (r / 64) ≠ ~~~0) := fun hstop =>
      absurd (hq.2 ⟨hw, hstop⟩) (by omega)
    rw [not_not.mp (not_or.mp hfull).2, bit_allOnes]
    exact decide_eq_true (Nat.mod_lt r (by decide))
  · have hw' : r / 64 = p0 / 64 := le_antisymm hw (Nat.div_le_div_right hr)
    rw [hw']
    exact hcur _ (by omega) (Nat.mod_lt r (by decide))

/-- `lastLev[pos] | ((1UL << s) - 1)`: the word with the bits below `s` set. -/
theorem bit_or_lowMask (v : UInt64) {s : Nat} (hs : s < 64) (i : Nat) :
    bit (v ||| ((1 <<< s.toUInt64) - 1)) i = (bit v i || decide (i < s)) := by
  have hs' : s.toUInt64.toNat = s := UInt64.toNat_ofNat_of_lt' (lt_trans hs (by decide))
  rw [bit_or, bit_lowMask _ (by omega), hs']

/-- The last group `hbitmap_next_zero` looks at: `end_bit` bounds the
groups whose first element is in `[start, start + count)` below `orig_size`. -/
theorem HBitmap.WF.lt_endBit_iff (hwf : hb.WF) (start count : Nat) (hc : 0 < count) (r : Nat) :
    r < (if count > hb.origSize - start then hb.size else (start + count - 1) >>> hb.granularity + 1) ↔
      r <<< hb.granularity < min (start + count) hb.origSize := by
  split
  · rw [show min (start + count) hb.origSize = hb.origSize by omega]
    exact ⟨hwf.shiftLeft_lt_origSize, fun h => shiftLeft_shiftRight r hb.granularity ▸ hwf.shiftRight_lt_size h⟩
  · rw [show min (start + count) hb.origSize = start + count by omega, Nat.lt_succ_iff, le_shiftRight_iff]
    omega

/-- `hbitmap_next_zero(hb, start, count)` returns the first clear element
of `[start, start + count)` below `orig_size`, or -1 when there is none. -/
theorem hbitmapNextZero_spec (hwf : hb.WF) (start count : Nat) :
    (∃ y, IsLeast {y | start ≤ y ∧ y < min (start + count) hb.origSize ∧ hbitmapGet hb y = false} y ∧
      hbitmapNextZero hb start count = y) ∨
    ((∀ y, start ≤ y → y < min (start + count) hb.origSize → hbitmapGet hb y = true) ∧
      hbitmapNextZero hb start count = -1) := by
  by_cases hs : start ≥ hb.origSize ∨ count = 0
  · -- an empty range
    right
    refine ⟨fun y hy hyE => by omega, ?_⟩
    simp only [hbitmapNextZero, if_pos hs]
  · have hend := hwf.lt_endBit_iff start count (Nat.pos_of_ne_zero (by omega))
    have hp0 : start >>> hb.granularity < _ := (hend _).mpr
      (lt_of_le_of_lt (le_shiftRight_iff.mp le_rfl) (by omega))
    -- the words searched find the first clear group from `start`'s on
    have hgroup : (∃ x, IsLeast {r | arrayBit (hb.levels (hbitmapLevels - 1)) r = false ∧
          start >>> hb.granularity ≤ r} x ∧
        hbitmapNextZero hb start count = if x <<< hb.granularity < min (start + count) hb.origSize
          then ((max start (x <<< hb.granularity) : Nat) : Int) else -1) ∨
        ((∀ r, start >>> hb.granularity ≤ r → r <<< hb.granularity < min (start + count) hb.origSize →
          ¬arrayBit (hb.levels (hbitmapLevels - 1)) r = false) ∧ hbitmapNextZero hb start count = -1) := by
      simp only [hbitmapNextZero, if_neg hs, shiftRight_bitsPerLevel, shiftLeft_bitsPerLevel,
        and_bitsPerLong_sub_one]
      generalize (if count > hb.origSize - start then hb.size else (start + count - 1) >>> hb.granularity + 1) = eb
        at hend hp0 ⊢
      generalize hb.levels (hbitmapLevels - 1) = L
      generalize start >>> hb.granularity = p0 at hp0 ⊢
      -- the answer `res` of the words is tested against `end_bit`
      have hres : ∀ x, (if x ≥ eb then (-1 : Int) else if x <<< hb.granularity < start then (start : Int)
          else ((x <<< hb.granularity : Nat) : Int)) = if x <<< hb.granularity < min (start + count) hb.origSize
          then ((max start (x <<< hb.granularity) : Nat) : Int) else -1 := by
        intro x
        have hx := hend x
        generalize x <<< hb.granularity = z at hx ⊢
        split_ifs <;> omega
      have hsz : eb ≤ 64 * ((eb + bitsPerLong - 1) / 64) := by
        rw [show bitsPerLong = 64 from rfl]
        omega
      have hpos : p0 / 64 < (eb + bitsPerLong - 1) / 64 := by
        rw [show bitsPerLong = 64 from rfl]
        omega
      generalize (eb + bitsPerLong - 1) / 64 = sz at hsz hpos ⊢
      by_cases hcur : L (p0 / 64) ||| ((1 <<< (p0 % 64).toUInt64) - 1) = ~~~0
      · -- the rest of `p0`'s word is set: skip the words of all ones
        have hword : ∀ i, p0 % 64 ≤ i → i < 64 → bit (L (p0 / 64)) i = true := fun i hi hi64 => by
          have h := congrArg (fun c => bit c i) hcur
          simp only [bit_or_lowMask _ (Nat.mod_lt p0 (by decide)), bit_allOnes, decide_eq_true hi64,
            decide_eq_false (Nat.not_lt.mpr hi), Bool.or_false] at h
          exact h
        obtain ⟨s, rfl⟩ : ∃ s, sz = s + 1 := ⟨sz - 1, by omega⟩
        have hq := nextZeroSkip_isLeast L (s + 1) s (p0 / 64) (by omega)
        rw [if_pos hcur]
        generalize nextZeroSkip L (s + 1) (s + 1) (p0 / 64) = q at hq ⊢
        have hset := arrayBit_of_lt_skip hword hq
        by_cases hqs : q ≥ s + 1
        · right
          rw [if_pos hqs]
          refine ⟨fun r hr hrE hclear => ?_, rfl⟩
          rw [hset r hr (by have := (hend r).mpr hrE; omega)] at hclear
          exact Bool.noConfusion hclear
        · left
          rw [if_neg hqs]
          have hLq : L q ≠ ~~~0 := hq.1.2.resolve_left hqs
          have hbits : ∀ i < 64, bit (L q) i = (bit (L q) i || decide (i < 0)) := fun i _ => by simp
          have hq0 := hq.1.1
          refine ⟨_, isLeast_clear_of_word hLq hbits (by omega) hset, hres _⟩
      · -- a clear bit in `p0`'s word
        left
        rw [if_neg hcur]
        have hp := Nat.div_add_mod p0 64
        refine ⟨_, isLeast_clear_of_word hcur (fun i _ => bit_or_lowMask _ (Nat.mod_lt p0 (by decide)) i) (by omega)
          (fun r hr hlt => absurd hlt (by omega)), hres _⟩
    rcases search_of_group (Q := fun y => hbitmapGet hb y = false)
      (fun y _ _ => by rw [hbitmapGet_eq]) (by omega) hgroup with h | ⟨h, hv⟩
    · exact Or.inl h
    · exact Or.inr ⟨fun y hy hyE => eq_true_of_ne_false (h y hy hyE), hv⟩

end NextZero

/-! ## Runs: what `hbitmap_status` and `hbitmap_next_dirty_area` measure -/

section Runs

/-- The length of the run of `b` in `f` from `start`, cut at `count`:
the bits read one at a time. -/
def runLength (f : Nat → Bool) (b : Bool) (start : Nat) : (count : Nat) → Nat
  | 0 => 0
  | count + 1 => if f start = b then runLength f b (start + 1) count + 1 else 0

/-- A run of `b` from `start` of length `n` that stops at `count` or at a
bit that is not `b` is the one `runLength` measures. -/
theorem runLength_eq {f : Nat → Bool} {b : Bool} (count : Nat) :
    ∀ start n, n ≤ count → (∀ y, start ≤ y → y < start + n → f y = b) →
      (n < count → f (start + n) ≠ b) → runLength f b start count = n := by
  induction count with
  | zero =>
    intro start n hn _ _
    simp only [runLength]
    omega
  | succ c ih =>
    intro start n hn hrun hstop
    rcases n with _ | n
    · -- the run is empty: bit `start` is not `b`
      have hne : f start ≠ b := hstop (Nat.succ_pos c)
      simp only [runLength, if_neg hne]
    · have hb : f start = b := hrun start le_rfl (by omega)
      simp only [runLength, if_pos hb]
      rw [ih (start + 1) n (by omega) (fun y hy hyn => hrun y (by omega) (by omega))
        (fun hlt => by rw [show start + 1 + n = start + (n + 1) by omega]; exact hstop (by omega))]

/-- What `runLength` measures: a run of `b` from `start`, no longer than
`count`, that stops at `count` or at a bit that is not `b`. -/
theorem runLength_spec {f : Nat → Bool} {b : Bool} (count : Nat) :
    ∀ start, runLength f b start count ≤ count ∧
      (∀ y, start ≤ y → y < start + runLength f b start count → f y = b) ∧
      (runLength f b start count < count → f (start + runLength f b start count) ≠ b) := by
  induction count with
  | zero =>
    intro start
    simp only [runLength, Nat.add_zero]
    exact ⟨le_rfl, fun y hy hys => absurd hys (by omega), fun h => absurd h (Nat.lt_irrefl 0)⟩
  | succ c ih =>
    intro start
    by_cases hb : f start = b
    · obtain ⟨hle, hrun, hstop⟩ := ih (start + 1)
      simp only [runLength, if_pos hb]
      refine ⟨by omega, fun y hy hyn => ?_, fun hlt => ?_⟩
      · rcases Nat.eq_or_lt_of_le hy with rfl | hy'
        · exact hb
        · exact hrun y hy' (by omega)
      · rw [show start + (runLength f b (start + 1) c + 1) = start + 1 + runLength f b (start + 1) c by omega]
        exact hstop (by omega)
    · simp only [runLength, if_neg hb]
      exact ⟨Nat.zero_le _, fun y hy hyn => absurd hyn (by omega), fun _ => hb⟩

theorem runLength_pos {f : Nat → Bool} {b : Bool} {start count : Nat} (hc : 0 < count) (hf : f start = b) :
    0 < runLength f b start count := by
  obtain ⟨c, rfl⟩ := Nat.exists_eq_succ_of_ne_zero (Nat.pos_iff_ne_zero.mp hc)
  simp only [runLength, if_pos hf]
  omega

end Runs

/-! ## `hbitmap_status` and `hbitmap_next_dirty_area` -/

section Status

variable {hb : HBitmap}

/-- `hbitmap_status(hb, start, count, &pnum)` reads element `start`, and
`pnum` is the length of the run of its value from `start`, cut at `count`:
the two searches give what reading the elements one by one gives. -/
theorem hbitmapStatus_eq_runLength (hwf : hb.WF) {start count : Nat} (hc : 0 < count)
    (hend : start + count ≤ hb.origSize) :
    hbitmapStatus hb start count =
      (hbitmapGet hb start, runLength (hbitmapGet hb) (hbitmapGet hb start) start count) := by
  have hE : min (start + count) hb.origSize = start + count := min_eq_left hend
  rcases hbitmapNextDirty_spec hwf start count with ⟨y, ⟨⟨hy, hyE, hyset⟩, hyleast⟩, hval⟩ | ⟨hclean, hval⟩
  · rw [hE] at hyE hyleast
    by_cases hys : start < y
    · -- a clean prefix up to `y`
      have hstart : hbitmapGet hb start = false :=
        Bool.eq_false_iff.mpr fun h => absurd (hyleast ⟨le_rfl, by omega, h⟩) (by omega)
      have hrun := runLength_eq (f := hbitmapGet hb) (b := false) count start (y - start)
        (by omega) (fun z hz hzy => Bool.eq_false_iff.mpr fun h => absurd (hyleast ⟨hz, by omega, h⟩) (by omega))
        (fun _ => by rw [show start + (y - start) = y by omega, hyset]; decide)
      have hne : (y : Int) ≠ -1 := by omega
      have hgt : (y : Int) > start := by omega
      simp only [hbitmapStatus, hval, if_neg hne, if_pos hgt, hstart, hrun]
      congr 1
      omega
    · -- a dirty prefix: `next_zero` ends it
      obtain rfl : y = start := by omega
      rcases hbitmapNextZero_spec hwf y count with ⟨z, ⟨⟨hz, hzE, hzclear⟩, hzleast⟩, hzval⟩ | ⟨hset, hzval⟩
      · rw [hE] at hzE hzleast
        have hzy : y < z := lt_of_le_of_ne hz fun h => by rw [← h, hyset] at hzclear; exact Bool.noConfusion hzclear
        have hrun := runLength_eq (f := hbitmapGet hb) (b := true) count y (z - y)
          (by omega) (fun w hw hwz => Bool.not_eq_false _ ▸ fun h => absurd (hzleast ⟨hw, by omega, h⟩) (by omega))
          (fun _ => by rw [show y + (z - y) = z by omega, hzclear]; decide)
        have hne : (z : Int) ≠ -1 := by omega
        simp only [hbitmapStatus, hval, hzval, if_neg (show (y : Int) ≠ -1 by omega),
          if_neg (lt_irrefl (y : Int)), if_neg hne, hyset, hrun]
        congr 1
        omega
      · rw [hE] at hset
        have hrun := runLength_eq (f := hbitmapGet hb) (b := true) count y count le_rfl
          hset (fun h => absurd h (lt_irrefl _))
        simp only [hbitmapStatus, hval, hzval, if_neg (show (y : Int) ≠ -1 by omega),
          if_neg (lt_irrefl (y : Int)), hyset, hrun, if_true]
  · -- no element is set
    rw [hE] at hclean
    have hstart := hclean start le_rfl (by omega)
    have hrun := runLength_eq (f := hbitmapGet hb) (b := false) count start count le_rfl
      hclean (fun h => absurd h (lt_irrefl _))
    simp only [hbitmapStatus, hval, hstart, hrun]
    rfl

/-- On a new bitmap, the twenty elements from 10 are one clear run. -/
theorem hbitmapStatus_eq_runLength_alloc :
    (hbitmapAlloc 256 2).WF ∧ 0 < 20 ∧ 10 + 20 ≤ (hbitmapAlloc 256 2).origSize ∧
      hbitmapStatus (hbitmapAlloc 256 2) 10 20 = (false, 20) := by
  have hwf : (hbitmapAlloc 256 2).WF := hbitmapAlloc_wf (by decide)
  refine ⟨hwf, by decide, by decide, ?_⟩
  rw [hbitmapStatus_eq_runLength hwf (by decide) (by decide)]
  decide

/-- `hbitmap_next_dirty_area(hb, start, end, max_dirty_count, …)` finds
the first set element of `[start, end)` below `orig_size`, and the run of
set elements from it, cut at `end` and at `max_dirty_count`; it finds
nothing when no element there is set. -/
theorem hbitmapNextDirtyArea_spec (hwf : hb.WF) (start end_ m : Nat) :
    (hbitmapNextDirtyArea hb start end_ m = none ∧
      ∀ y, start ≤ y → y < min end_ hb.origSize → hbitmapGet hb y = false) ∨
    ∃ ds, IsLeast {y | start ≤ y ∧ y < min end_ hb.origSize ∧ hbitmapGet hb y = true} ds ∧
      hbitmapNextDirtyArea hb start end_ m =
        some (ds, runLength (hbitmapGet hb) true ds (min (min end_ hb.origSize - ds) m)) := by
  by_cases hse : start ≥ min end_ hb.origSize
  · -- an empty range
    left
    refine ⟨?_, fun y hy hyE => by omega⟩
    simp only [hbitmapNextDirtyArea, if_pos hse]
  · have hE : min (start + (min end_ hb.origSize - start)) hb.origSize = min end_ hb.origSize := by omega
    rcases hbitmapNextDirty_spec hwf start (min end_ hb.origSize - start) with
      ⟨y, hy, hval⟩ | ⟨hclean, hval⟩
    · right
      rw [hE] at hy
      refine ⟨y, hy, ?_⟩
      obtain ⟨⟨-, hyE, hyset⟩, -⟩ := hy
      -- `next_zero` ends the run, within `min(end - y, max_dirty_count)`
      have hc : min (y + min (min end_ hb.origSize - y) m) hb.origSize = y + min (min end_ hb.origSize - y) m := by
        omega
      have hnz : ¬((y : Int) < 0) := by omega
      rcases hbitmapNextZero_spec hwf y (min (min end_ hb.origSize - y) m) with
        ⟨z, ⟨⟨hz, hzE, hzclear⟩, hzleast⟩, hzval⟩ | ⟨hset, hzval⟩
      · rw [hc] at hzE hzleast
        have hzy : y < z := lt_of_le_of_ne hz fun h => by rw [← h, hyset] at hzclear; exact Bool.noConfusion hzclear
        have hrun := runLength_eq (f := hbitmapGet hb) (b := true) (min (min end_ hb.origSize - y) m) y (z - y)
          (by omega) (fun w hw hwz => Bool.not_eq_false _ ▸ fun h => absurd (hzleast ⟨hw, by omega, h⟩) (by omega))
          (fun _ => by rw [show y + (z - y) = z by omega, hzclear]; decide)
        simp only [hbitmapNextDirtyArea, if_neg hse, hval, if_neg hnz, Int.toNat_natCast,
          Nat.add_sub_cancel_left, hzval, hrun]
        rw [if_pos (by omega)]
      · rw [hc] at hset
        have hrun := runLength_eq (f := hbitmapGet hb) (b := true) (min (min end_ hb.origSize - y) m) y
          (min (min end_ hb.origSize - y) m) le_rfl hset (fun h => absurd h (lt_irrefl _))
        simp only [hbitmapNextDirtyArea, if_neg hse, hval, if_neg hnz, Int.toNat_natCast,
          Nat.add_sub_cancel_left, hzval, hrun]
        rw [if_neg (by decide), Nat.add_sub_cancel_left]
    · left
      rw [hE] at hclean
      refine ⟨?_, hclean⟩
      simp only [hbitmapNextDirtyArea, if_neg hse, hval]
      rw [if_pos (by decide)]

end Status

end QemuFormal.Hbitmap

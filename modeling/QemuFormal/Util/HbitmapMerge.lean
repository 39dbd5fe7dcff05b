/-
QemuFormal.Util.HbitmapMerge — `hbitmap_merge(a, b, result)`: the result
holds every element that `a` or `b` holds.

Read by elements, a bitmap holds the elements below `orig_size` whose
group is set (`HBitmap.setElems`), and its set groups are the groups of
those elements (`HBitmap.WF.dirty_eq_image`).

`hbitmap_sparse_merge(dst, src)` walks the dirty areas of `src` with
`hbitmap_next_dirty_area` and sets each in `dst`; its loop runs on fuel
`src.size + 1`. Each area ends at a clear element or at `orig_size`, so
the next one starts in a later group of `src`: `sparseMergeMeasure`, the
groups left, goes down at each step and the fuel never runs out
(`hbitmapSparseMergeLoop_spec`). The loop then sets in `dst` the group of
every element `src` holds.

`hbitmapMerge_spec`: on bitmaps with the invariant and the same
`orig_size`, the result of `hbitmap_merge` has the invariant and holds,
in its own groups, exactly the elements of `a` and of `b`; this for
every branch the code takes, whenever the granularities of `a` and `b`
differ or the result has theirs. (When `a` and `b` share a granularity
and the result has another, the merge loses elements and breaks the
invariant: `hbitmapMerge_other_granularity_loses_item`.)
-/
import QemuFormal.Util.HbitmapUpdate

namespace QemuFormal.Hbitmap

open Bits
open Function (update update_self update_of_ne)
open QemuFormal.Bitmap (bitsPerLong)

/-! ## Bitmaps as sets of elements -/

section Elements

variable {hb : HBitmap}

/-- The elements below `orig_size` that the bitmap holds. -/
def HBitmap.setElems (hb : HBitmap) : Set Nat := {y | y < hb.origSize ∧ hbitmapGet hb y = true}

/-- The elements of one group read alike. -/
theorem hbitmapGet_congr {y y' : Nat} (h : y >>> hb.granularity = y' >>> hb.granularity) :
    hbitmapGet hb y = hbitmapGet hb y' := by
  rw [hbitmapGet_eq, hbitmapGet_eq, h]

/-- The groups of a bitmap with the invariant are the groups of its elements. -/
theorem HBitmap.WF.dirty_eq_image (hwf : hb.WF) : hb.dirty = (fun y => y >>> hb.granularity) '' hb.setElems := by
  ext x
  constructor
  · intro hx
    refine ⟨x <<< hb.granularity, ⟨hwf.shiftLeft_lt_origSize hx.1, ?_⟩, shiftLeft_shiftRight x _⟩
    rw [hbitmapGet_eq, shiftLeft_shiftRight]
    exact hx.2
  · rintro ⟨y, ⟨hy, hget⟩, rfl⟩
    exact (hwf.hbitmapGet_iff hy).mp hget

/-- The groups of the elements of `[a, b)`. -/
theorem image_shiftRight_Ico (g : Nat) {a b : Nat} (hab : a < b) :
    (fun y => y >>> g) '' Set.Ico a b = Set.Icc (a >>> g) ((b - 1) >>> g) := by
  ext x
  constructor
  · rintro ⟨y, ⟨hay, hyb⟩, rfl⟩
    exact ⟨shiftRight_le_shiftRight hay g, shiftRight_le_shiftRight (by omega) g⟩
  · rintro ⟨hax, hxb⟩
    -- the first element of group `x` that is in `[a, b)`
    refine ⟨max a (x <<< g), ⟨le_max_left _ _, ?_⟩, ?_⟩
    · have := le_shiftRight_iff.mp hxb
      omega
    · show max a (x <<< g) >>> g = x
      rcases le_total a (x <<< g) with h | h
      · rw [max_eq_right h, shiftLeft_shiftRight]
      · rw [max_eq_left h]
        have := shiftRight_le_shiftRight h g
        rw [shiftLeft_shiftRight] at this
        omega

end Elements

/-! ## `hbitmap_sparse_merge` -/

section SparseMerge

variable {src : HBitmap}

/-- The groups of `src` from the group of `offset` on, or none from
`orig_size` on: what the loop of `hbitmap_sparse_merge` has left. -/
def sparseMergeMeasure (src : HBitmap) (offset : Nat) : Nat :=
  if offset < src.origSize then src.size - offset >>> src.granularity else 0

/-- A dirty area of `src` from `offset`: the elements of `src` from
`offset` on are the area and those after it. -/
theorem setElems_from_eq {offset ds len : Nat}
    (hds : IsLeast {y | offset ≤ y ∧ y < src.origSize ∧ hbitmapGet src y = true} ds)
    (hend : ds + len ≤ src.origSize) (hrun : ∀ y, ds ≤ y → y < ds + len → hbitmapGet src y = true) :
    {y | offset ≤ y ∧ y ∈ src.setElems} = Set.Ico ds (ds + len) ∪ {y | ds + len ≤ y ∧ y ∈ src.setElems} := by
  obtain ⟨⟨hoff, -, -⟩, hleast⟩ := hds
  ext y
  simp only [HBitmap.setElems, Set.mem_ofPred_eq, Set.mem_union, Set.mem_Ico]
  constructor
  · rintro ⟨hoy, hy, hget⟩
    -- nothing of `src` lies between `offset` and the area
    have hdsy : ds ≤ y := hleast ⟨hoy, hy, hget⟩
    rcases Nat.lt_or_ge y (ds + len) with h | h
    · exact Or.inl ⟨hdsy, h⟩
    · exact Or.inr ⟨h, hy, hget⟩
  · rintro (⟨hdsy, hy⟩ | ⟨hy, hyo, hget⟩)
    · exact ⟨by omega, by omega, hrun y hdsy hy⟩
    · exact ⟨by omega, hyo, hget⟩

/-- The loop of `hbitmap_sparse_merge(dst, src)` from `offset`, with more
fuel than groups left: it sets in `dst` the group of every element of
`src` from `offset` on, and keeps the invariant. -/
theorem hbitmapSparseMergeLoop_spec (hsrc : src.WF) (hmax : src.origSize ≤ int64Max) (fuel : Nat) :
    ∀ dst offset, dst.WF → dst.origSize = src.origSize → sparseMergeMeasure src offset < fuel →
      (hbitmapSparseMergeLoop src fuel dst offset).WF ∧
      (hbitmapSparseMergeLoop src fuel dst offset).granularity = dst.granularity ∧
      (hbitmapSparseMergeLoop src fuel dst offset).origSize = dst.origSize ∧
      (hbitmapSparseMergeLoop src fuel dst offset).dirty =
        dst.dirty ∪ (fun y => y >>> dst.granularity) '' {y | offset ≤ y ∧ y ∈ src.setElems} := by
  induction fuel with
  | zero => intro _ _ _ _ h; omega
  | succ fuel ih =>
    intro dst offset hdst horig hfuel
    rcases hbitmapNextDirtyArea_spec hsrc offset src.origSize int64Max with ⟨hnone, hclear⟩ | ⟨ds, hds, harea⟩
    · -- no dirty area is left: `dst` is the result
      simp only [hbitmapSparseMergeLoop, hnone]
      refine ⟨hdst, trivial, trivial, ?_⟩
      have hempty : {y | offset ≤ y ∧ y ∈ src.setElems} = ∅ := by
        ext y
        simp only [HBitmap.setElems, Set.mem_ofPred_eq, Set.mem_empty_iff_false, iff_false, not_and]
        intro hoy hy hget
        rw [hclear y hoy (by rw [min_self]; exact hy)] at hget
        exact Bool.false_ne_true hget
      rw [hempty, Set.image_empty, Set.union_empty]
    · -- the area `[ds, ds + len)`, set in `dst`; the loop goes on from its end
      rw [min_self] at hds harea
      have hdsl := hds.1
      obtain ⟨hoff, hdsz, hdsget⟩ := hdsl
      rw [min_eq_left (le_trans (Nat.sub_le _ _) hmax)] at harea
      generalize hlen : runLength (hbitmapGet src) true ds (src.origSize - ds) = len at harea
      obtain ⟨hle, hrun, hstop⟩ := hlen ▸ runLength_spec (f := hbitmapGet src) (b := true) (src.origSize - ds) ds
      have hpos : 0 < len := hlen ▸ runLength_pos (by omega) hdsget
      have hl : (ds + len - 1) >>> dst.granularity < dst.size := hdst.shiftRight_lt_size (by omega)
      have hfuel' : sparseMergeMeasure src (ds + len) < fuel := by
        unfold sparseMergeMeasure at hfuel ⊢
        rw [if_pos (show offset < src.origSize by omega)] at hfuel
        have hsz := hsrc.shiftRight_lt_size (show offset < src.origSize by omega)
        split
        · -- the area ends at a clear element, in a later group than `ds`
          have hclear : hbitmapGet src (ds + len) ≠ true := hstop (by omega)
          have hgroup : ds >>> src.granularity < (ds + len) >>> src.granularity := by
            rcases Nat.lt_or_ge (ds >>> src.granularity) ((ds + len) >>> src.granularity) with h | h
            · exact h
            · have heq : (ds + len) >>> src.granularity = ds >>> src.granularity :=
                le_antisymm h (shiftRight_le_shiftRight (by omega) _)
              exact absurd ((hbitmapGet_congr heq).trans hdsget) hclear
          have := shiftRight_le_shiftRight hoff src.granularity
          omega
        · omega
      simp only [hbitmapSparseMergeLoop, harea]
      obtain ⟨hwf', hg', ho', hdirty'⟩ := ih (hbitmapSet dst ds len) (ds + len) (hbitmapSet_wf hdst hl)
        (by rw [hbitmapSet_origSize, horig]) hfuel'
      refine ⟨hwf', by rw [hg', hbitmapSet_granularity], by rw [ho', hbitmapSet_origSize], ?_⟩
      rw [hdirty', dirty_hbitmapSet hdst hpos hl, hbitmapSet_granularity,
        setElems_from_eq hds (by omega) hrun, Set.image_union, image_shiftRight_Ico _ (by omega),
        Set.union_assoc]

/-- `hbitmap_sparse_merge(dst, src)`: `dst` keeps the invariant and gains
the group of every element of `src`. -/
theorem hbitmapSparseMerge_spec {dst : HBitmap} (hsrc : src.WF) (hmax : src.origSize ≤ int64Max) (hdst : dst.WF)
    (horig : dst.origSize = src.origSize) :
    (hbitmapSparseMerge dst src).WF ∧ (hbitmapSparseMerge dst src).granularity = dst.granularity ∧
      (hbitmapSparseMerge dst src).origSize = dst.origSize ∧
      (hbitmapSparseMerge dst src).dirty = dst.dirty ∪ (fun y => y >>> dst.granularity) '' src.setElems := by
  have hfuel : sparseMergeMeasure src 0 < src.size + 1 := by
    unfold sparseMergeMeasure
    rw [Nat.zero_shiftRight]
    split <;> omega
  have hall : {y | 0 ≤ y ∧ y ∈ src.setElems} = src.setElems := by
    ext y
    simp
  have := hbitmapSparseMergeLoop_spec hsrc hmax (src.size + 1) dst 0 hdst horig hfuel
  rwa [hall] at this

end SparseMerge

/-! ## `hbitmap_merge` -/

section Merge

variable {hb : HBitmap}

/-- The bitmap that `result` is before `hbitmap_merge(a, b, result)`. -/
def MergeResult.bitmap (a b : HBitmap) : MergeResult → HBitmap
  | .a => a
  | .b => b
  | .other result => result

/-- Two bitmaps with the invariant and the same size have the same level
lengths. -/
theorem HBitmap.WF.sizes_eq {hb' : HBitmap} (hwf : hb.WF) (hwf' : hb'.WF) (hs : hb.size = hb'.size) {i : Nat}
    (hi : i ≤ 6) : hb.sizes i = hb'.sizes i := by
  have h := hwf.sizes_eq_iterate (d := 6 - i) (by omega)
  have h' := hwf'.sizes_eq_iterate (d := 6 - i) (by omega)
  rw [show 6 - (6 - i) = i by omega] at h h'
  rw [h, h', hs]

/-- A bitmap with the invariant whose count is zero holds no element. -/
theorem HBitmap.WF.setElems_eq_empty (hwf : hb.WF) (h : hbitmapCount hb = 0) : hb.setElems = ∅ := by
  have hcount : hb.count = 0 := by
    unfold hbitmapCount at h
    rw [Nat.shiftLeft_eq] at h
    exact (Nat.mul_eq_zero.mp h).resolve_right (Nat.two_pow_pos _).ne'
  rw [hwf.count_eq, List.countP_eq_zero] at hcount
  ext y
  simp only [HBitmap.setElems, Set.mem_ofPred_eq, Set.mem_empty_iff_false, iff_false, not_and]
  intro hy hget
  obtain ⟨hys, hbit⟩ := (hwf.hbitmapGet_iff hy).mp hget
  exact hcount _ (List.mem_range.mpr hys) hbit

/-- A bitmap with the invariant and a non-zero count is not empty. -/
theorem HBitmap.WF.size_pos (hwf : hb.WF) (h : hbitmapCount hb ≠ 0) : 0 < hb.size := by
  rcases Nat.eq_zero_or_pos hb.size with hs | hs
  · refine absurd ?_ h
    unfold hbitmapCount
    rw [hwf.count_eq, hs]
    simp
  · exact hs

/-- The levels after the word-by-word loop of `hbitmap_merge(a, b,
result)`: the words of `a` and `b` `or`-ed over the lengths of `a`. -/
def mergeLevels (a b R : HBitmap) (i j : Nat) : UInt64 :=
  if i < hbitmapLevels ∧ j < a.sizes i then a.levels i j ||| b.levels i j else R.levels i j

/-- A bit of a word that the word-by-word merge `or`-ed. -/
theorem arrayBit_mergeLevels {a b R : HBitmap} {i q : Nat} (hi : i < hbitmapLevels) (hq : q / 64 < a.sizes i) :
    arrayBit (mergeLevels a b R i) q = (arrayBit (a.levels i) q || arrayBit (b.levels i) q) := by
  unfold arrayBit mergeLevels
  rw [if_pos ⟨hi, hq⟩, bit_or]

/-- The last branch of `hbitmap_merge(a, b, result)`: the word-by-word
loop, then the count recounted by `hb_count_between`. -/
def mergeWords (a b R : HBitmap) : HBitmap :=
  { R with levels := mergeLevels a b R, count := hbCountBetween { R with levels := mergeLevels a b R } 0 (R.size - 1) }

/-- The word-by-word merge of `a` and `b` into `R`, all three of one size,
keeps the invariant and holds the groups of both. -/
theorem mergeWords_spec {a b R : HBitmap} (ha : a.WF) (hb : b.WF) (hR : R.WF) (hsa : a.size = R.size)
    (hsb : b.size = R.size) (hpos : 0 < R.size) :
    (mergeWords a b R).WF ∧ (mergeWords a b R).dirty = a.dirty ∪ b.dirty := by
  unfold mergeWords
  have hsizes_a : ∀ i ≤ 6, a.sizes i = R.sizes i := fun i hi => ha.sizes_eq hR hsa hi
  have hsizes_b : ∀ i ≤ 6, b.sizes i = R.sizes i := fun i hi => hb.sizes_eq hR hsb hi
  generalize hL : mergeLevels a b R = L
  -- a backed bit of the merged levels is the `or` of the two
  have hbit : ∀ i ≤ 6, ∀ q, q / 64 < R.sizes i → arrayBit (L i) q = (arrayBit (a.levels i) q || arrayBit (b.levels i) q) :=
    fun i hi q hq => hL ▸ arrayBit_mergeLevels (show i < 7 by omega) (by rw [hsizes_a i hi]; exact hq)
  have hword : ∀ i ≤ 6, ∀ j, j < R.sizes i → L i j = a.levels i j ||| b.levels i j := fun i hi j hj => by
    rw [← hL]
    exact if_pos ⟨show i < 7 by omega, by rw [hsizes_a i hi]; exact hj⟩
  let R3 : HBitmap := { R with levels := L, count := (List.range R.size).countP (arrayBit (L (hbitmapLevels - 1))) }
  have hwf3 : R3.WF := by
    refine ⟨hR.size_eq, hR.size_le, hR.sizes_last, hR.sizes_succ, fun i hi j hj => ?_, fun j hj hsj => ?_, rfl⟩
    · -- each summary bit is the `or` of the two summaries
      have hi6 : i < 6 := hi
      have hj' : j < 64 * R.sizes i := hj
      change arrayBit (L i) j = ((decide (j < R.sizes (i + 1)) && L (i + 1) j != 0) || (i == 0 && j == bitsPerLong - 1))
      rw [hbit i (by omega) j (by omega), ha.summary i hi j (by rw [hsizes_a i (by omega)]; exact hj'),
        hb.summary i hi j (by rw [hsizes_b i (by omega)]; exact hj'), hsizes_a (i + 1) (by omega),
        hsizes_b (i + 1) (by omega)]
      by_cases hjs : j < R.sizes (i + 1)
      · rw [hword (i + 1) (by omega) j hjs]
        have hor : (a.levels (i + 1) j ||| b.levels (i + 1) j != 0) =
            (a.levels (i + 1) j != 0 || b.levels (i + 1) j != 0) := by
          rw [Bool.eq_iff_iff, Bool.or_eq_true, bne_iff_ne, bne_iff_ne, bne_iff_ne, or_ne_zero_iff]
        rw [hor, decide_eq_true hjs, Bool.true_and, Bool.true_and, Bool.true_and]
        generalize (a.levels (i + 1) j != 0) = A
        generalize (b.levels (i + 1) j != 0) = B
        generalize (i == 0 && j == bitsPerLong - 1) = c
        revert A B c
        decide
      · simp [hjs]
    · -- past `size` neither has a bit
      have hj' : j < 64 * R.sizes 6 := hj
      change arrayBit (L 6) j = false
      have hta := ha.tail j (by rw [hbitmapLevels_sub_one, hsizes_a 6 le_rfl]; exact hj') (by rw [hsa]; exact hsj)
      have htb := hb.tail j (by rw [hbitmapLevels_sub_one, hsizes_b 6 le_rfl]; exact hj') (by rw [hsb]; exact hsj)
      rw [hbitmapLevels_sub_one] at hta htb
      rw [hbit 6 le_rfl j (by omega), hta, htb, Bool.or_false]
  have hcount : hbCountBetween { R with levels := L } 0 (R.size - 1) = R3.count := hbCountBetween_all hwf3 hpos
  refine ⟨?_, ?_⟩
  · rw [hcount]
    exact hwf3
  · have hxs : ∀ {x}, x < R.size → x / 64 < R.sizes 6 := fun hx => by
      have := hR.sizes_last
      rw [hbitmapLevels_sub_one] at this
      rw [this]
      exact div_lt_wordsFor hx
    ext x
    simp only [HBitmap.dirty, hbitmapLevels_sub_one, Set.mem_ofPred_eq, Set.mem_union]
    constructor
    · rintro ⟨hx, hbx⟩
      rw [hbit 6 le_rfl x (hxs hx), Bool.or_eq_true] at hbx
      rcases hbx with h | h
      · exact Or.inl ⟨hsa ▸ hx, h⟩
      · exact Or.inr ⟨hsb ▸ hx, h⟩
    · rintro (⟨hx, h⟩ | ⟨hx, h⟩)
      · refine ⟨hsa ▸ hx, ?_⟩
        rw [hbit 6 le_rfl x (hxs (hsa ▸ hx)), h, Bool.true_or]
      · refine ⟨hsb ▸ hx, ?_⟩
        rw [hbit 6 le_rfl x (hxs (hsb ▸ hx)), h, Bool.or_true]

/-- Bitmaps with the invariant, one `orig_size` and one granularity have
one size. -/
theorem HBitmap.WF.size_eq_of {hb' : HBitmap} (hwf : hb.WF) (hwf' : hb'.WF) (ho : hb.origSize = hb'.origSize)
    (hg : hb.granularity = hb'.granularity) : hb.size = hb'.size := by
  rw [hwf.size_eq, hwf'.size_eq, ho, hg]

/-- `hbitmap_merge(a, b, result)` on bitmaps with the invariant and one
`orig_size` (which the code asserts), below `INT64_MAX` (which
`hbitmap_alloc` asserts), when the granularities of `a` and `b` differ or
the result has theirs: the result keeps the invariant, and its groups
are those of the elements of `a` and of `b`. -/
theorem hbitmapMerge_spec {a b : HBitmap} {r : MergeResult} (ha : a.WF) (hb : b.WF) (hR : (r.bitmap a b).WF)
    (hoa : a.origSize = (r.bitmap a b).origSize) (hob : b.origSize = (r.bitmap a b).origSize)
    (hmax : (r.bitmap a b).origSize ≤ int64Max)
    (hgran : a.granularity ≠ b.granularity ∨
      a.granularity = (r.bitmap a b).granularity ∧ b.granularity = (r.bitmap a b).granularity) :
    (hbitmapMerge a b r).WF ∧
      (hbitmapMerge a b r).dirty = (fun y => y >>> (r.bitmap a b).granularity) '' (a.setElems ∪ b.setElems) := by
  cases r with
  | a =>
    simp only [MergeResult.bitmap] at hR hoa hob hmax hgran ⊢
    unfold hbitmapMerge
    simp only [Bool.false_eq_true, and_false, and_true, false_or, Bool.not_true, Bool.not_false, Bool.false_and,
      if_false, if_true]
    split_ifs with hcb hcab hg
    · -- `b` is empty: `a` is the result
      rw [hb.setElems_eq_empty hcb, Set.union_empty, ← ha.dirty_eq_image]
      exact ⟨ha, rfl⟩
    · exact absurd hcab.2 hcb
    · -- `b` merged into `a` element by element
      obtain ⟨hwf, -, -, hdirty⟩ := hbitmapSparseMerge_spec hb (hob ▸ hmax) ha hob.symm
      rw [hdirty, ha.dirty_eq_image, Set.image_union]
      exact ⟨hwf, rfl⟩
    · -- one granularity: word by word
      have hg' : a.granularity = b.granularity := not_not.mp hg
      have hsb := hb.size_eq_of ha hob hg'.symm
      obtain ⟨hwf, hdirty⟩ := mergeWords_spec ha hb ha rfl hsb (hsb ▸ hb.size_pos hcb)
      refine ⟨hwf, ?_⟩
      change (mergeWords a b a).dirty = _
      rw [hdirty, ha.dirty_eq_image, hb.dirty_eq_image, ← hg', Set.image_union]
  | b =>
    simp only [MergeResult.bitmap] at hR hoa hob hmax hgran ⊢
    unfold hbitmapMerge
    simp only [Bool.false_eq_true, and_false, and_true, or_false, Bool.not_true, Bool.not_false,
      Bool.and_false, if_false, if_true]
    split_ifs with hca hcab hg
    · -- `a` is empty: `b` is the result
      rw [ha.setElems_eq_empty hca, Set.empty_union, ← hb.dirty_eq_image]
      exact ⟨hb, rfl⟩
    · exact absurd hcab.1 hca
    · -- `a` merged into `b` element by element
      obtain ⟨hwf, -, -, hdirty⟩ := hbitmapSparseMerge_spec ha (hoa ▸ hmax) hb hoa.symm
      rw [hdirty, hb.dirty_eq_image, Set.image_union, Set.union_comm]
      exact ⟨hwf, rfl⟩
    · have hg' : a.granularity = b.granularity := not_not.mp hg
      have hsa := ha.size_eq_of hb hoa hg'
      obtain ⟨hwf, hdirty⟩ := mergeWords_spec ha hb hb hsa rfl (hsa ▸ ha.size_pos hca)
      refine ⟨hwf, ?_⟩
      change (mergeWords a b b).dirty = _
      rw [hdirty, ha.dirty_eq_image, hb.dirty_eq_image, hg', Set.image_union]
  | other R =>
    simp only [MergeResult.bitmap] at hR hoa hob hmax hgran ⊢
    unfold hbitmapMerge
    simp only [Bool.false_eq_true, and_false, or_self, Bool.not_false, Bool.and_self, if_false, if_true]
    split_ifs with hcab hg
    · -- both empty: the result is cleared
      rw [ha.setElems_eq_empty hcab.1, hb.setElems_eq_empty hcab.2, Set.union_empty, Set.image_empty]
      exact ⟨hbitmapResetAll_wf hR, dirty_hbitmapResetAll hR⟩
    · -- the result cleared, then `a` and `b` merged into it element by element
      have hR1 := hbitmapResetAll_wf hR
      obtain ⟨hwf2, hg2, ho2, hdirty2⟩ := hbitmapSparseMerge_spec ha (hoa ▸ hmax) hR1 hoa.symm
      obtain ⟨hwf3, -, -, hdirty3⟩ := hbitmapSparseMerge_spec hb (hob ▸ hmax) hwf2 (ho2.trans hob.symm)
      refine ⟨hwf3, ?_⟩
      rw [hdirty3, hdirty2, dirty_hbitmapResetAll hR, Set.empty_union, hg2, hbitmapResetAll_granularity,
        Set.image_union]
    · -- one granularity, which the result shares: word by word
      obtain ⟨hga, hgb⟩ := hgran.resolve_left hg
      have hsa := ha.size_eq_of hR hoa hga
      have hsb := hb.size_eq_of hR hob hgb
      have hpos : 0 < R.size := by
        by_cases hca : hbitmapCount a = 0
        · exact hsb ▸ hb.size_pos fun hcb => hcab ⟨hca, hcb⟩
        · exact hsa ▸ ha.size_pos hca
      obtain ⟨hwf, hdirty⟩ := mergeWords_spec ha hb hR hsa hsb hpos
      refine ⟨hwf, ?_⟩
      change (mergeWords a b R).dirty = _
      rw [hdirty, ha.dirty_eq_image, hb.dirty_eq_image, hga, hgb, Set.image_union]

/-- Merging into `a`, in groups of 4 with elements 100 to 119 set, a
bitmap `b` of single elements with element 7 set: `b` is merged element
by element. -/
theorem hbitmapMerge_spec_sparse :
    (hbitmapSet (hbitmapAlloc 256 2) 100 20).WF ∧ (hbitmapSet (hbitmapAlloc 256 0) 7 1).WF ∧
      (hbitmapSet (hbitmapAlloc 256 0) 7 1).origSize = (hbitmapSet (hbitmapAlloc 256 2) 100 20).origSize ∧
      (hbitmapSet (hbitmapAlloc 256 2) 100 20).origSize ≤ int64Max ∧
      (hbitmapSet (hbitmapAlloc 256 2) 100 20).granularity ≠ (hbitmapSet (hbitmapAlloc 256 0) 7 1).granularity ∧
      ((hbitmapMerge (hbitmapSet (hbitmapAlloc 256 2) 100 20) (hbitmapSet (hbitmapAlloc 256 0) 7 1) .a).WF ∧
        (hbitmapMerge (hbitmapSet (hbitmapAlloc 256 2) 100 20) (hbitmapSet (hbitmapAlloc 256 0) 7 1) .a).dirty =
          (fun y => y >>> 2) '' ((hbitmapSet (hbitmapAlloc 256 2) 100 20).setElems ∪
            (hbitmapSet (hbitmapAlloc 256 0) 7 1).setElems)) := by
  have ha : (hbitmapSet (hbitmapAlloc 256 2) 100 20).WF := hbitmapSet_wf (hbitmapAlloc_wf (by decide)) (by decide)
  have hb : (hbitmapSet (hbitmapAlloc 256 0) 7 1).WF := hbitmapSet_wf (hbitmapAlloc_wf (by decide)) (by decide)
  have hob : (hbitmapSet (hbitmapAlloc 256 0) 7 1).origSize = (hbitmapSet (hbitmapAlloc 256 2) 100 20).origSize := by
    simp [hbitmapAlloc]
  have hmax : (hbitmapSet (hbitmapAlloc 256 2) 100 20).origSize ≤ int64Max := by
    simp [hbitmapAlloc, int64Max]
  have hg : (hbitmapSet (hbitmapAlloc 256 2) 100 20).granularity ≠ (hbitmapSet (hbitmapAlloc 256 0) 7 1).granularity := by
    simp [hbitmapAlloc]
  exact ⟨ha, hb, hob, hmax, hg, hbitmapMerge_spec (r := .a) ha hb ha rfl hob hmax (Or.inl hg)⟩

end Merge

end QemuFormal.Hbitmap

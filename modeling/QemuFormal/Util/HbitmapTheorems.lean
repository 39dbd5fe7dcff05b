/-
QemuFormal.Util.HbitmapTheorems — what the operations of `util/hbitmap.c`
do to the bits a bitmap holds.

`hbitmap_merge` when the result has another granularity. The header
asks only that the three bitmaps have the same size, and
`hbitmap_merge` asserts no more (`orig_size` equal). When `a` and `b`
share a granularity it copies their words, level by level, into the
result's arrays as they are, without looking at the granularity of the
result: a bit that stands for group `j` of `a` then stands for group `j`
of the result, which covers other elements. `hbitmapMerge_other_granularity_loses_item`
shows an element set in `a` that the merge loses, and
`hbitmapMerge_other_granularity_breaks_inv` that the result holds a bit
past its size, so that it no longer has the invariant of `struct
HBitmap`. (In C the copy runs over `a->sizes[i]` words, more than the
result has when its granularity is coarser.)
-/
import QemuFormal.Util.HbitmapInv

namespace QemuFormal.Hbitmap

open Bits

/-! ## Merging into a bitmap of another granularity -/

/-- Two elements at granularity 0, element 1 set. -/
def mergeA : HBitmap := hbitmapSet (hbitmapAlloc 2 0) 1 1

/-- Two elements at granularity 0, none set. -/
def mergeB : HBitmap := hbitmapAlloc 2 0

/-- Two elements at granularity 1: one group, which holds both. -/
def mergeR : HBitmap := hbitmapAlloc 2 1

/-- `hbitmap_merge(a, b, r)` for `a` with element 1 set, `b` empty, both
of granularity 0, and `r` of granularity 1: the merge copies the word
`0b10` of `a` into `r`, where bit 1 is past the one group that `r` has.
Element 1 is not set in the result, and its count is 0. -/
theorem hbitmapMerge_other_granularity_loses_item :
    hbitmapGet mergeA 1 = true ∧ hbitmapGet (hbitmapMerge mergeA mergeB (.other mergeR)) 1 = false ∧
      hbitmapCount (hbitmapMerge mergeA mergeB (.other mergeR)) = 0 := by
  refine ⟨by decide, by decide, by decide⟩

/-- The same merge takes bitmaps that have the invariant to one that has
not: the last level of the result holds bit 1, at its size. -/
theorem hbitmapMerge_other_granularity_breaks_inv :
    mergeA.Inv ∧ mergeB.Inv ∧ mergeR.Inv ∧ ¬(hbitmapMerge mergeA mergeB (.other mergeR)).Inv := by
  refine ⟨⟨by decide, by decide, by decide, by decide, by decide⟩,
    hbitmapAlloc_inv (by decide), hbitmapAlloc_inv (by decide), fun h => ?_⟩
  have htail := h.tail 1 (by decide) (by decide)
  revert htail
  decide

end QemuFormal.Hbitmap

/-
QemuFormal.Util.Range — 64-bit address ranges, after `include/qemu/range.h`
and `util/range.c`.

A `Range` holds the inclusive bounds `[lob, upb]` as `uint64_t`s; it is
empty when `lob > upb` (the code keeps `lob = upb + 1` for that). The
arithmetic is `UInt64`'s, so `lob - 1` and `upb + 1` wrap as in C, and
the guards of `range_compare` are modelled as written.

* `rangeCompare` is `range_compare`: `-1` when `a` ends before `b` starts
  with a gap between them, `1` the other way round, `0` when they overlap
  or touch.
* `rangeListInsert` is `range_list_insert`: the skip loop, the insertion
  before the first greater element, and the loop that merges successors
  into the element `data` was merged into.
* `rangeInverseArray` is `range_inverse_array`, with `append_new_range`
  and `range_set_bounds`.

Assertions. `range_set_bounds` asserts that the bounds it is given make a
non-empty range; its callers compute those bounds, so the assertion is
modelled: `rangeSetBounds` is `none` when it fails, and so are the
functions that call it. The other assertions (`range_compare`,
`range_lob` and `range_upb` are only given non-empty ranges) are about
the arguments a caller passes, and are hypotheses of the theorems.
-/
import Mathlib.Data.List.Infix

namespace QemuFormal

/-- `struct Range`: inclusive bounds. -/
structure Range where
  lob : UInt64
  upb : UInt64
  deriving DecidableEq, Repr

/-- `range_is_empty`. -/
def rangeIsEmpty (r : Range) : Bool := r.lob > r.upb

/-- `range_contains`. -/
def rangeContains (r : Range) (val : UInt64) : Bool := val ≥ r.lob && val ≤ r.upb

/-- `range_set_bounds`: the range `[lob, upb]`, or `none` where its
assertion that the range is not empty fails. -/
def rangeSetBounds (lob upb : UInt64) : Option Range :=
  if lob > upb then none else some ⟨lob, upb⟩

/-- `range_contains_range`. -/
def rangeContainsRange (range1 range2 : Range) : Bool :=
  if rangeIsEmpty range1 || rangeIsEmpty range2 then false
  else range1.lob ≤ range2.lob && range1.upb ≥ range2.upb

/-- `range_extend`: the least range holding both. -/
def rangeExtend (range extendBy : Range) : Range :=
  if rangeIsEmpty extendBy then range
  else if rangeIsEmpty range then extendBy
  else
    { lob := if range.lob > extendBy.lob then extendBy.lob else range.lob
      upb := if range.upb < extendBy.upb then extendBy.upb else range.upb }

/-- `range_compare`. The `lob &&` guards keep `lob - 1` from wrapping. -/
def rangeCompare (a b : Range) : Int :=
  if b.lob ≠ 0 ∧ b.lob - 1 > a.upb then -1
  else if a.lob ≠ 0 ∧ a.lob - 1 > b.upb then 1
  else 0

/-! ## `range_list_insert` -/

/-- The merge loop of `range_list_insert`: the element `r` absorbs its
successors while they overlap or touch it. -/
def rangeListMerge (r : Range) : List Range → List Range
  | [] => [r]
  | n :: rest => if rangeCompare r n = 0 then rangeListMerge (rangeExtend r n) rest else r :: n :: rest

/-- `range_list_insert(list, data)`: skip the elements strictly less
than `data`; insert `data` before the next one if that is strictly
greater (or there is none); else merge `data` into it and merge the
successors that now overlap. -/
def rangeListInsert : List Range → Range → List Range
  | [], data => [data]
  | l :: rest, data =>
    if rangeCompare l data < 0 then l :: rangeListInsert rest data
    else if rangeCompare l data > 0 then data :: l :: rest
    else rangeListMerge (rangeExtend l data) rest

/-! ## `range_inverse_array` -/

/-- `append_new_range`: `g_list_append` of a new range `[lob, upb]`. -/
def appendNewRange (list : List Range) (lob upb : UInt64) : Option (List Range) :=
  (rangeSetBounds lob upb).map fun r => list ++ [r]

/-- The loop of `range_inverse_array` from the range `r` on: the gap
after each range that is not followed by a touching one, stopping at a
range that starts at or above `high`, and the gap after the last range. -/
def rangeInverseGaps (high : UInt64) (out : List Range) : List Range → Option (List Range)
  | [] => some out
  | [r] => if r.upb < high then appendNewRange out (r.upb + 1) high else some out
  | r :: rn :: rest =>
    if r.lob ≥ high then some out
    else if rangeCompare r rn ≠ 0 then do
      let out ← appendNewRange out (r.upb + 1) (min (rn.lob - 1) high)
      rangeInverseGaps high out (rn :: rest)
    else rangeInverseGaps high out (rn :: rest)

/-- `range_inverse_array(in, rev, low, high)`: the list `*rev` ends as,
or `none` where an assertion fails. -/
def rangeInverseArray (inList rev : List Range) (low high : UInt64) : Option (List Range) :=
  match inList.dropWhile fun r => r.upb < low with
  | [] => appendNewRange rev low high
  | r :: rest => do
    -- the first range starts above `low`: the gap before it
    let out ← if r.lob > low then appendNewRange rev low (min (r.lob - 1) high) else some rev
    rangeInverseGaps high out (r :: rest)

end QemuFormal

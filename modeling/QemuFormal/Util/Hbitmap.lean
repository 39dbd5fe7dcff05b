/-
QemuFormal.Util.Hbitmap — the hierarchical bitmap (`util/hbitmap.c`).

An HBitmap holds `size` bits, each standing for a group of
`2^granularity` elements, in the last of `HBITMAP_LEVELS` arrays of
words. Every other level summarizes the one below it: bit `j` of level
`i` is set iff word `j` of level `i + 1` is nonzero. Level 0 is a single
word, whose top bit is never needed for that and serves as a sentinel.
Setting a range sets its bits in the last level and, if a word changed,
the bits of the words of the range one level up; resetting a range
clears its bits and, where a word became zero, its bit one level up. An
iterator keeps, for each level, the bits of the current word it has not
visited: it climbs until a level has bits left and descends along the
lowest ones.

Model choices.
- `long` has 64 bits: `BITS_PER_LONG` is 64, `BITS_PER_LEVEL` 6 and
  `HBITMAP_LEVELS` 7. A level is a function from word indices to words,
  its length is in `sizes`; words past the length hold what the last
  reallocation left there.
- Element offsets and bit positions are `uint64_t`, `int64_t` and
  `size_t` values that the code keeps below `2^63`: they are `Nat`s, and
  the functions that return `-1` for "none" return an `Int`.
- The meta bitmap is not modelled (`hb->meta` is NULL), nor are the
  trace points. A failing `assert` of `serialization_chunk`,
  `hbitmap_serialization_align` or `hbitmap_truncate` makes the function
  and its callers return `none`; the other functions' assertions are
  preconditions of the theorems about them.
- The loops over words and over dirty areas take as fuel a bound on
  their rounds from their caller. The climb of `hbitmap_iter_skip_words`
  relies on the sentinel to stop at level 0; below it the C code would
  underflow the level index, which the model turns into the end of the
  iteration (`skipWordsUp` returns `none`).
- The result of `hbitmap_merge` may be `a` or `b` itself: `MergeResult`
  says which.
-/
import QemuFormal.Util.Bitmap
import QemuFormal.Util.HostUtils

namespace QemuFormal.Hbitmap

open Function (update)
open QemuFormal.Bitmap (bitsPerLong)
open QemuFormal.HostUtils (ctz64 cto64 ctpop64)

def bitsPerLevel : Nat := 6

def hbitmapLogMaxSize : Nat := 41

def hbitmapLevels : Nat := hbitmapLogMaxSize / bitsPerLevel + 1

/-- `1UL << (BITS_PER_LONG - 1)`, the sentinel bit of level 0. -/
def hbitmapSentinel : UInt64 := 1 <<< (bitsPerLong - 1).toUInt64

/-- `INT64_MAX` -/
def int64Max : Nat := 2 ^ 63 - 1

/-- `struct HBitmap`, without its meta bitmap. -/
structure HBitmap where
  origSize : Nat
  size : Nat
  count : Nat
  granularity : Nat
  levels : Nat → Nat → UInt64
  sizes : Nat → Nat

/-- `hb->levels[i][j] = v` -/
def setLevelWord (levels : Nat → Nat → UInt64) (i j : Nat) (v : UInt64) : Nat → Nat → UInt64 :=
  update levels i (update (levels i) j v)

/-! ## Allocation -/

/-- The loop of `hbitmap_alloc` from level `i` up: each level has one bit
per word of the level below, and at least one word. -/
def hbitmapAllocLoop : (i size : Nat) → (Nat → Nat) → (Nat → Nat)
  | 0, _, sizes => sizes
  | i + 1, size, sizes =>
    let size := max ((size + bitsPerLong - 1) >>> bitsPerLevel) 1
    hbitmapAllocLoop i size (update sizes i size)

/-- `hbitmap_alloc(size, granularity)`: every word zero but the sentinel. -/
def hbitmapAlloc (size granularity : Nat) : HBitmap :=
  let origSize := size
  let size := (size + (1 <<< granularity) - 1) >>> granularity
  { origSize := origSize, size := size, count := 0, granularity := granularity,
    levels := setLevelWord (fun _ _ => 0) 0 0 hbitmapSentinel,
    sizes := hbitmapAllocLoop hbitmapLevels size fun _ => 0 }

/-! ## Iteration -/

/-- `HBitmapIter`: the last-level word `pos` the iterator is at, and for
each level the bits of its current word that are still to visit. -/
structure HBitmapIter where
  pos : Nat
  granularity : Nat
  cur : Nat → UInt64

/-- The loop of `hbitmap_iter_init` from level `i - 1` down to 0, at the
bit `pos` of the level below. -/
def hbitmapIterInitLoop (levels : Nat → Nat → UInt64) : (i pos : Nat) → (Nat → UInt64) → (Nat → UInt64)
  | 0, _, cur => cur
  | i + 1, pos, cur =>
    let bit := pos &&& (bitsPerLong - 1)
    let pos := pos >>> bitsPerLevel
    -- Drop bits representing items before first.
    let c := levels i pos &&& ~~~((1 <<< bit.toUInt64) - 1)
    -- Level i+1 was added already: its bit here has been processed.
    let c := if i ≠ hbitmapLevels - 1 then c &&& ~~~(1 <<< bit.toUInt64) else c
    hbitmapIterInitLoop levels i pos (update cur i c)

/-- `hbitmap_iter_init(hbi, hb, first)` -/
def hbitmapIterInit (hb : HBitmap) (first : Nat) : HBitmapIter :=
  let pos := first >>> hb.granularity
  { pos := pos >>> bitsPerLevel, granularity := hb.granularity,
    cur := hbitmapIterInitLoop hb.levels hbitmapLevels pos fun _ => 0 }

/-- The `do … while (cur == 0)` climb of `hbitmap_iter_skip_words` from
level `i`: the level, position and bits of the first word that has bits
left. `none` is the climb running below level 0. -/
def skipWordsUp (levels : Nat → Nat → UInt64) (cur : Nat → UInt64) : (i pos : Nat) → Option (Nat × Nat × UInt64)
  | 0, _ => none
  | i + 1, pos =>
    let pos := pos >>> bitsPerLevel
    let c := cur i &&& levels i pos
    if c = 0 then skipWordsUp levels cur i pos else some (i, pos, c)

/-- The `for` descent of `hbitmap_iter_skip_words`, `n` levels from level
`i`: follow the lowest set bit of `c`, drop it from `hbi->cur[i]`, and
load the word it stands for. -/
def skipWordsDown (levels : Nat → Nat → UInt64) :
    (n i pos : Nat) → (Nat → UInt64) → UInt64 → Nat × (Nat → UInt64) × UInt64
  | 0, _, pos, cur, c => (pos, cur, c)
  | n + 1, i, pos, cur, c =>
    let pos := (pos <<< bitsPerLevel) + ctz64 c
    let cur := update cur i (c &&& (c - 1))
    skipWordsDown levels n (i + 1) pos cur (levels (i + 1) pos)

/-- `hbitmap_iter_skip_words(hbi)`: move to the next nonzero word of the
last level and return it, or return 0 at the end. -/
def hbitmapIterSkipWords (hb : HBitmap) (hbi : HBitmapIter) : HBitmapIter × UInt64 :=
  match skipWordsUp hb.levels hbi.cur (hbitmapLevels - 1) hbi.pos with
  | none => (hbi, 0)
  | some (i, pos, c) =>
    -- Check for end of iteration: only the sentinel is left.
    if i = 0 ∧ c = hbitmapSentinel then (hbi, 0)
    else
      let (pos, cur, c) := skipWordsDown hb.levels (hbitmapLevels - 1 - i) i pos hbi.cur c
      ({ hbi with pos := pos, cur := cur }, c)

/-- `hbitmap_iter_next(hbi)`: the next set item, or `-1`. -/
def hbitmapIterNext (hb : HBitmap) (hbi : HBitmapIter) : Int × HBitmapIter :=
  let c := hbi.cur (hbitmapLevels - 1) &&& hb.levels (hbitmapLevels - 1) hbi.pos
  let (hbi, c) := if c = 0 then hbitmapIterSkipWords hb hbi else (hbi, c)
  if c = 0 then (-1, hbi)
  else
    -- The next call will resume work from the next bit.
    let hbi := { hbi with cur := update hbi.cur (hbitmapLevels - 1) (c &&& (c - 1)) }
    let item := (hbi.pos <<< bitsPerLevel) + ctz64 c
    (((item <<< hbi.granularity : Nat) : Int), hbi)

/-- `hbitmap_iter_next_word(hbi, p_cur)`: the index and bits of the next
nonzero word, or `none` (the C code returns `-1` and stores 0). -/
def hbitmapIterNextWord (hb : HBitmap) (hbi : HBitmapIter) : Option (Nat × UInt64) × HBitmapIter :=
  let c := hbi.cur (hbitmapLevels - 1)
  let (hbi, c) := if c = 0 then hbitmapIterSkipWords hb hbi else (hbi, c)
  if c = 0 then (none, hbi)
  -- The next call will resume work from the next word.
  else (some (hbi.pos, c), { hbi with cur := update hbi.cur (hbitmapLevels - 1) 0 })

/-- The `for (;;)` loop of `hb_count_between`: add up the words before
word `endWord`, and return the word that stopped the loop. -/
def hbCountBetweenLoop (hb : HBitmap) (endWord : Nat) :
    (fuel : Nat) → HBitmapIter → Nat → Option (Nat × UInt64) × Nat
  | 0, _, count => (none, count)
  | fuel + 1, hbi, count =>
    match hbitmapIterNextWord hb hbi with
    | (none, _) => (none, count)
    | (some (pos, c), hbi) =>
      if pos ≥ endWord then (some (pos, c), count)
      else hbCountBetweenLoop hb endWord fuel hbi (count + ctpop64 c)

/-- `hb_count_between(hb, start, last)`: the set bits of the last level in
`[start, last]`. -/
def hbCountBetween (hb : HBitmap) (start last : Nat) : Nat :=
  let hbi := hbitmapIterInit hb (start <<< hb.granularity)
  let end_ := last + 1
  match hbCountBetweenLoop hb (end_ >>> bitsPerLevel) (hb.sizes (hbitmapLevels - 1) + 1) hbi 0 with
  | (some (pos, c), count) =>
    -- Drop bits representing the END-th and subsequent items.
    if pos = end_ >>> bitsPerLevel then
      count + ctpop64 (c &&& ((1 <<< (end_ &&& (bitsPerLong - 1)).toUInt64) - 1))
    else count
  | (none, count) => count

/-! ## Setting and resetting -/

/-- `hb_set_elem(elem, start, last)`: set bits `start % 64` to `last % 64`
of the word; whether it changed. -/
def hbSetElem (elem : UInt64) (start last : Nat) : UInt64 × Bool :=
  let mask := (2 <<< (last &&& (bitsPerLong - 1)).toUInt64) - (1 <<< (start &&& (bitsPerLong - 1)).toUInt64)
  (elem ||| mask, elem != (elem ||| mask))

/-- The `for (;;)` loop of `hb_set_between`: the `n` words from `i` set
to all ones; whether one of them was zero. -/
def hbSetWords (w : Nat → UInt64) : (i n : Nat) → (Nat → UInt64) × Bool
  | _, 0 => (w, false)
  | i, n + 1 =>
    let (w', changed) := hbSetWords (update w i (~~~0)) (i + 1) n
    (w', (w i == 0) || changed)

/-- The work of `hb_set_between` in one level: bits `start` to `last` of
the array set; whether some bit changed. -/
def hbSetLevel (w : Nat → UInt64) (start last : Nat) : (Nat → UInt64) × Bool :=
  let pos := start >>> bitsPerLevel
  let lastpos := last >>> bitsPerLevel
  let (w, changed, start) :=
    if pos < lastpos then
      let next := (start ||| (bitsPerLong - 1)) + 1
      let (e, c₁) := hbSetElem (w pos) start (next - 1)
      let (w, c₂) := hbSetWords (update w pos e) (pos + 1) (lastpos - pos - 1)
      -- after the loop `start` is the first bit of word `lastpos`
      (w, c₁ || c₂, lastpos <<< bitsPerLevel)
    else (w, false, start)
  let (e, c₃) := hbSetElem (w lastpos) start last
  (update w lastpos e, changed || c₃)

/-- `hb_set_between(hb, level, start, last)`: set the bits in `level`
and, if some changed, the words' bits in the levels above. -/
def hbSetBetween : (level : Nat) → (Nat → Nat → UInt64) → (start last : Nat) → (Nat → Nat → UInt64) × Bool
  | level, levels, start, last =>
    let (w, changed) := hbSetLevel (levels level) start last
    let levels := update levels level w
    match level with
    | 0 => (levels, changed)
    | level + 1 =>
      if changed then ((hbSetBetween level levels (start >>> bitsPerLevel) (last >>> bitsPerLevel)).1, changed)
      else (levels, changed)

/-- `hbitmap_set(hb, start, count)` -/
def hbitmapSet (hb : HBitmap) (start count : Nat) : HBitmap :=
  if count = 0 then hb
  else
    let last := start + count - 1
    let first := start >>> hb.granularity
    let last := last >>> hb.granularity
    let n := last - first + 1
    { hb with
      count := hb.count + (n - hbCountBetween hb first last),
      levels := (hbSetBetween (hbitmapLevels - 1) hb.levels first last).1 }

/-- `hb_reset_elem(elem, start, last)`: clear bits `start % 64` to
`last % 64` of the word; whether it went from nonzero to zero. -/
def hbResetElem (elem : UInt64) (start last : Nat) : UInt64 × Bool :=
  let mask := (2 <<< (last &&& (bitsPerLong - 1)).toUInt64) - (1 <<< (start &&& (bitsPerLong - 1)).toUInt64)
  (elem &&& ~~~mask, elem != 0 && (elem &&& ~~~mask) == 0)

/-- The `for (;;)` loop of `hb_reset_between`: the `n` words from `i`
cleared; whether one of them was nonzero. -/
def hbResetWords (w : Nat → UInt64) : (i n : Nat) → (Nat → UInt64) × Bool
  | _, 0 => (w, false)
  | i, n + 1 =>
    let (w', changed) := hbResetWords (update w i 0) (i + 1) n
    (w', (w i != 0) || changed)

/-- The work of `hb_reset_between` in one level: bits `start` to `last`
cleared; whether some word became zero, and the range of words whose
bits the level above must clear (`pos` moves past a first word and
`lastpos` before a last word that still has bits). -/
def hbResetLevel (w : Nat → UInt64) (start last : Nat) : (Nat → UInt64) × Bool × Nat × Nat :=
  let pos := start >>> bitsPerLevel
  let lastpos := last >>> bitsPerLevel
  let (w, changed, pos, start) :=
    if pos < lastpos then
      let next := (start ||| (bitsPerLong - 1)) + 1
      let (e, blanked) := hbResetElem (w pos) start (next - 1)
      let (w, c) := hbResetWords (update w pos e) (pos + 1) (lastpos - pos - 1)
      (w, blanked || c, (if blanked then pos else pos + 1), lastpos <<< bitsPerLevel)
    else (w, false, pos, start)
  let (e, blanked) := hbResetElem (w lastpos) start last
  (update w lastpos e, changed || blanked, pos, if blanked then lastpos else lastpos - 1)

/-- `hb_reset_between(hb, level, start, last)` -/
def hbResetBetween : (level : Nat) → (Nat → Nat → UInt64) → (start last : Nat) → (Nat → Nat → UInt64) × Bool
  | level, levels, start, last =>
    let (w, changed, pos, lastpos) := hbResetLevel (levels level) start last
    let levels := update levels level w
    match level with
    | 0 => (levels, changed)
    | level + 1 =>
      if changed then ((hbResetBetween level levels pos lastpos).1, changed)
      else (levels, changed)

/-- `hbitmap_reset(hb, start, count)` -/
def hbitmapReset (hb : HBitmap) (start count : Nat) : HBitmap :=
  if count = 0 then hb
  else
    let last := start + count - 1
    let first := start >>> hb.granularity
    let last := last >>> hb.granularity
    { hb with
      count := hb.count - hbCountBetween hb first last,
      levels := (hbResetBetween (hbitmapLevels - 1) hb.levels first last).1 }

/-- `hbitmap_reset_all(hb)`: the levels below 0 cleared, level 0 back to
the sentinel. -/
def hbitmapResetAll (hb : HBitmap) : HBitmap :=
  let levels := fun i j => if 1 ≤ i ∧ i < hbitmapLevels ∧ j < hb.sizes i then 0 else hb.levels i j
  { hb with levels := setLevelWord levels 0 0 hbitmapSentinel, count := 0 }

/-! ## Queries -/

/-- `hbitmap_get(hb, item)` -/
def hbitmapGet (hb : HBitmap) (item : Nat) : Bool :=
  let pos := item >>> hb.granularity
  let bit := (1 : UInt64) <<< (pos &&& (bitsPerLong - 1)).toUInt64
  hb.levels (hbitmapLevels - 1) (pos >>> bitsPerLevel) &&& bit != 0

/-- `hbitmap_empty(hb)` -/
def hbitmapEmpty (hb : HBitmap) : Bool := hb.count == 0

/-- `hbitmap_granularity(hb)` -/
def hbitmapGranularity (hb : HBitmap) : Nat := hb.granularity

/-- `hbitmap_count(hb)`: the number of elements in set groups. -/
def hbitmapCount (hb : HBitmap) : Nat := hb.count <<< hb.granularity

/-- `hbitmap_next_dirty(hb, start, count)` -/
def hbitmapNextDirty (hb : HBitmap) (start count : Nat) : Int :=
  if start ≥ hb.origSize ∨ count = 0 then -1
  else
    let end_ := if count > hb.origSize - start then hb.origSize else start + count
    let firstDirtyOff := (hbitmapIterNext hb (hbitmapIterInit hb start)).1
    if firstDirtyOff < 0 ∨ firstDirtyOff ≥ end_ then -1
    else max (start : Int) firstDirtyOff

/-- The `do pos++; while (…)` loop of `hbitmap_next_zero`: skip the
words of all ones before word `sz`. -/
def nextZeroSkip (lastLev : Nat → UInt64) (sz : Nat) : (fuel pos : Nat) → Nat
  | 0, pos => pos
  | fuel + 1, pos =>
    let pos := pos + 1
    if pos < sz ∧ lastLev pos = ~~~0 then nextZeroSkip lastLev sz fuel pos else pos

/-- `hbitmap_next_zero(hb, start, count)` -/
def hbitmapNextZero (hb : HBitmap) (start count : Nat) : Int :=
  let pos := (start >>> hb.granularity) >>> bitsPerLevel
  let lastLev := hb.levels (hbitmapLevels - 1)
  if start ≥ hb.origSize ∨ count = 0 then -1
  else
    let endBit := if count > hb.origSize - start then hb.size else ((start + count - 1) >>> hb.granularity) + 1
    let sz := (endBit + bitsPerLong - 1) >>> bitsPerLevel
    -- The zero bits of the first word before start are set.
    let startBitOffset := (start >>> hb.granularity) &&& (bitsPerLong - 1)
    let cur := lastLev pos ||| ((1 <<< startBitOffset.toUInt64) - 1)
    let found : Option (Nat × UInt64) :=
      if cur = ~~~0 then
        let pos := nextZeroSkip lastLev sz sz pos
        if pos ≥ sz then none else some (pos, lastLev pos)
      else some (pos, cur)
    match found with
    | none => -1
    | some (pos, cur) =>
      let res := (pos <<< bitsPerLevel) + cto64 cur
      if res ≥ endBit then -1
      else
        let res := res <<< hb.granularity
        if res < start then start else res

/-- `hbitmap_next_dirty_area(hb, start, end, max_dirty_count, …)`: the
dirty area found, as `(dirty_start, dirty_count)`. -/
def hbitmapNextDirtyArea (hb : HBitmap) (start end_ maxDirtyCount : Nat) : Option (Nat × Nat) :=
  let end_ := min end_ hb.origSize
  if start ≥ end_ then none
  else
    let s := hbitmapNextDirty hb start (end_ - start)
    if s < 0 then none
    else
      let start := s.toNat
      let end_ := start + min (end_ - start) maxDirtyCount
      let nextZero := hbitmapNextZero hb start (end_ - start)
      let end_ := if nextZero ≥ 0 then nextZero.toNat else end_
      some (start, end_ - start)

/-- `hbitmap_status(hb, start, count, pnum)`: whether the prefix is
dirty, and its length `*pnum`. -/
def hbitmapStatus (hb : HBitmap) (start count : Nat) : Bool × Nat :=
  let nextDirty := hbitmapNextDirty hb start count
  if nextDirty = -1 then (false, count)
  else if nextDirty > start then (false, (nextDirty - start).toNat)
  else
    let nextZero := hbitmapNextZero hb start count
    if nextZero = -1 then (true, count)
    else (true, (nextZero - start).toNat)

/-! ## Resizing and merging -/

/-- The reallocation loop of `hbitmap_truncate` from level `i - 1` up,
for `size` bits at level `i`: it stops at the first level whose length
does not change. A grown array has zero words at its end. -/
def hbitmapTruncateLoop (shrink : Bool) : (i size : Nat) → HBitmap → HBitmap
  | 0, _, hb => hb
  | i + 1, size, hb =>
    let size := max ((size + bitsPerLong - 1) / bitsPerLong) 1
    if hb.sizes i = size then hb
    else
      let old := hb.sizes i
      let w := hb.levels i
      let w := if !shrink then fun j => if old ≤ j ∧ j < size then 0 else w j else w
      hbitmapTruncateLoop shrink i size { hb with sizes := update hb.sizes i size, levels := update hb.levels i w }

/-- `hbitmap_truncate(hb, size)`; `none` where one of its `assert`s fails. -/
def hbitmapTruncate (hb : HBitmap) (size : Nat) : Option HBitmap :=
  let numElements := size
  if ¬size ≤ int64Max then none
  else
    let hb := { hb with origSize := size }
    let size := (size + (1 <<< hb.granularity) - 1) >>> hb.granularity
    if ¬size ≤ 1 <<< hbitmapLogMaxSize then none
    else
      let shrink := decide (size < hb.size)
      if size = hb.size then some hb
      else
        -- Clear the bits being lost, from the first full group on.
        let hb :=
          if shrink then
            let start := (numElements + (1 <<< hb.granularity) - 1) / (1 <<< hb.granularity) * (1 <<< hb.granularity)
            let fixCount := (hb.size <<< hb.granularity) - start
            if fixCount = 0 then none else some (hbitmapReset hb start fixCount)
          else some hb
        hb.map fun hb => hbitmapTruncateLoop shrink hbitmapLevels size { hb with size := size }

/-- The loop of `hbitmap_sparse_merge(dst, src)`: set in `dst` each dirty
area of `src` from `offset` on. -/
def hbitmapSparseMergeLoop (src : HBitmap) : (fuel : Nat) → HBitmap → Nat → HBitmap
  | 0, dst, _ => dst
  | fuel + 1, dst, offset =>
    match hbitmapNextDirtyArea src offset src.origSize int64Max with
    | none => dst
    | some (offset, count) => hbitmapSparseMergeLoop src fuel (hbitmapSet dst offset count) (offset + count)

/-- `hbitmap_sparse_merge(dst, src)`: `dst |= src` by elements. -/
def hbitmapSparseMerge (dst src : HBitmap) : HBitmap :=
  hbitmapSparseMergeLoop src (src.size + 1) dst 0

/-- The bitmap `hbitmap_merge` writes to: `a`, `b` or another one. -/
inductive MergeResult
  | a
  | b
  | other (result : HBitmap)

/-- `hbitmap_merge(a, b, result)`: the new `result`. -/
def hbitmapMerge (a b : HBitmap) (r : MergeResult) : HBitmap :=
  let result := match r with
    | .a => a
    | .b => b
    | .other result => result
  let isA : Bool := match r with
    | .a => true
    | _ => false
  let isB : Bool := match r with
    | .b => true
    | _ => false
  if (hbitmapCount a = 0 ∧ isB = true) ∨ (hbitmapCount b = 0 ∧ isA = true) then result
  else if hbitmapCount a = 0 ∧ hbitmapCount b = 0 then hbitmapResetAll result
  else if a.granularity ≠ b.granularity then
    let result := if !isA && !isB then hbitmapResetAll result else result
    let result := if !isA then hbitmapSparseMerge result a else result
    if !isB then hbitmapSparseMerge result b else result
  else
    -- Word by word over the levels of `a`, which has the size of `b`.
    let levels := fun i j => if i < hbitmapLevels ∧ j < a.sizes i then a.levels i j ||| b.levels i j
      else result.levels i j
    let result := { result with levels := levels }
    -- Recompute the dirty count
    { result with count := hbCountBetween result 0 (result.size - 1) }

/-! ## Serialization -/

/-- `hbitmap_is_serializable(hb)` -/
def hbitmapIsSerializable (hb : HBitmap) : Bool := hb.granularity < 58

/-- `hbitmap_serialization_align(hb)`: 64 bits of the last level, in
elements; `none` where `hb` is not serializable. -/
def hbitmapSerializationAlign (hb : HBitmap) : Option Nat :=
  if hbitmapIsSerializable hb then some (64 <<< hb.granularity) else none

/-- `serialization_chunk(hb, start, count, …)`: the first word of the
last level that the chunk covers, and the number of words. It asserts
that `start` is aligned to `hbitmap_serialization_align`, that the last
group is below `size`, and that `count` is aligned unless the chunk ends
at the last group; a failing `assert` is `none`. -/
def serializationChunk (hb : HBitmap) (start count : Nat) : Option (Nat × Nat) := do
  let last := start + count - 1
  let gran ← hbitmapSerializationAlign hb
  if start &&& (gran - 1) ≠ 0 then none
  else if ¬last >>> hb.granularity < hb.size then none
  else if last >>> hb.granularity ≠ hb.size - 1 ∧ count &&& (gran - 1) ≠ 0 then none
  else
    let start := (start >>> hb.granularity) >>> bitsPerLevel
    let last := (last >>> hb.granularity) >>> bitsPerLevel
    some (start, last - start + 1)

/-- `hbitmap_serialization_size(hb, start, count)`, in bytes. -/
def hbitmapSerializationSize (hb : HBitmap) (start count : Nat) : Option Nat :=
  if count = 0 then some 0
  else do
    let (_, elCount) ← serializationChunk hb start count
    some (elCount * 8)

/-- `cpu_to_le64(w)` stored with `memcpy`: the bytes of a word, least
significant first. -/
def wordBytes (w : UInt64) : List UInt8 := (List.range 8).map fun k => (w >>> (8 * k).toUInt64).toUInt8

/-- `hbitmap_serialize_part(hb, buf, start, count)`: the bytes written to `buf`. -/
def hbitmapSerializePart (hb : HBitmap) (start count : Nat) : Option (List UInt8) :=
  if count = 0 then some []
  else do
    let (first, n) ← serializationChunk hb start count
    some ((List.range n).flatMap fun k => wordBytes (hb.levels (hbitmapLevels - 1) (first + k)))

/-- `memcpy` then `le64_to_cpus`: word `k` of a buffer of little-endian words. -/
def bufWord (buf : List UInt8) (k : Nat) : UInt64 :=
  (List.range 8).foldl (fun w j => w ||| ((buf.getD (8 * k + j) 0).toUInt64 <<< (8 * j).toUInt64)) 0

/-- The loop of `hbitmap_deserialize_finish` from level `lev - 1` up, for
a level below of `size` words: each level rebuilt from the one below. -/
def hbitmapDeserializeFinishLoop : (lev size : Nat) → (Nat → Nat → UInt64) → (Nat → Nat → UInt64)
  | 0, _, levels => levels
  | lev + 1, size, levels =>
    let prevSize := size
    let size := max ((size + bitsPerLong - 1) >>> bitsPerLevel) 1
    let w : Nat → UInt64 := fun j => if j < size then 0 else levels lev j
    let w := (List.range prevSize).foldl
      (fun w i =>
        if levels (lev + 1) i ≠ 0 then update w (i >>> bitsPerLevel) (w (i >>> bitsPerLevel) |||
          (1 <<< (i &&& (bitsPerLong - 1)).toUInt64))
        else w) w
    hbitmapDeserializeFinishLoop lev size (update levels lev w)

/-- `hbitmap_deserialize_finish(bitmap)`: the upper levels, the sentinel
and the count rebuilt from the last level. -/
def hbitmapDeserializeFinish (hb : HBitmap) : HBitmap :=
  let size := max ((hb.size + bitsPerLong - 1) >>> bitsPerLevel) 1
  let levels := hbitmapDeserializeFinishLoop (hbitmapLevels - 1) size hb.levels
  let hb := { hb with levels := setLevelWord levels 0 0 (levels 0 0 ||| hbitmapSentinel) }
  { hb with count := hbCountBetween hb 0 (hb.size - 1) }

/-- `hbitmap_deserialize_part(hb, buf, start, count, finish)` -/
def hbitmapDeserializePart (hb : HBitmap) (buf : List UInt8) (start count : Nat) (finish : Bool) :
    Option HBitmap :=
  if count = 0 then some hb
  else do
    let (first, n) ← serializationChunk hb start count
    let lastLev := hb.levels (hbitmapLevels - 1)
    let lastLev := fun j => if first ≤ j ∧ j < first + n then bufWord buf (j - first) else lastLev j
    let hb := { hb with levels := update hb.levels (hbitmapLevels - 1) lastLev }
    some (if finish then hbitmapDeserializeFinish hb else hb)

/-- `memset(first, c, el_count * sizeof(unsigned long))` over the words of
the last level that a chunk covers: each becomes `v`. -/
def hbitmapDeserializeFill (v : UInt64) (hb : HBitmap) (start count : Nat) (finish : Bool) : Option HBitmap :=
  if count = 0 then some hb
  else do
    let (first, n) ← serializationChunk hb start count
    let lastLev := hb.levels (hbitmapLevels - 1)
    let lastLev := fun j => if first ≤ j ∧ j < first + n then v else lastLev j
    let hb := { hb with levels := update hb.levels (hbitmapLevels - 1) lastLev }
    some (if finish then hbitmapDeserializeFinish hb else hb)

/-- `hbitmap_deserialize_zeroes(hb, start, count, finish)` -/
def hbitmapDeserializeZeroes (hb : HBitmap) (start count : Nat) (finish : Bool) : Option HBitmap :=
  hbitmapDeserializeFill 0 hb start count finish

/-- `hbitmap_deserialize_ones(hb, start, count, finish)`: bytes `0xff`. -/
def hbitmapDeserializeOnes (hb : HBitmap) (start count : Nat) (finish : Bool) : Option HBitmap :=
  hbitmapDeserializeFill 0xFFFFFFFFFFFFFFFF hb start count finish

end QemuFormal.Hbitmap

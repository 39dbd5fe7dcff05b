/-
QemuFormal.Util.Bitmap — bitmaps of `unsigned long` words
(`util/bitmap.c`, `include/qemu/bitmap.h`, `include/qemu/bitops.h`).

A bitmap is the array `map[0], map[1], …`; bit `nr` is bit
`nr % BITS_PER_LONG` of word `BIT_WORD(nr)`. The range operations walk
the words of `[start, start + nr)`: a first word from bit
`start % BITS_PER_LONG` up (`BITMAP_FIRST_WORD_MASK`), whole words, and a
last word below `(start + nr) % BITS_PER_LONG` (`BITMAP_LAST_WORD_MASK`).
The offset copies move `nbits` bits by a shift that is not a multiple of
the word size, building each word from two.

Model choices.
- `BITS_PER_LONG` is 64 and a word is a `UInt64`; a bitmap is a function
  from word indices to words, and a pointer into it is a word index.
- `start` and `nr` of the range operations are `long`s the code asserts
  to be non-negative: they are `Nat`s. `shift` and `nbits` of the copies
  are `unsigned long`s: they are `UInt64`s, and `bitmap_copy` receives
  `nbits` converted to `long`.
- Each `while` loop takes as fuel a bound on its number of rounds, which
  its caller gives; the loop stops on its own condition before the fuel
  runs out. The atomic operations are their plain effect on the words;
  the barriers are left out.
-/
import Mathlib.Logic.Function.Basic
import QemuFormal.Lib.Bits

namespace QemuFormal.Bitmap

open Function (update)

def bitsPerLong : Nat := 64

/-- `BIT_WORD(nr)` -/
def bitWord (nr : Nat) : Nat := nr / bitsPerLong

/-- `BITMAP_FIRST_WORD_MASK(start)`: `~0UL << (start & (BITS_PER_LONG - 1))`. -/
def bitmapFirstWordMask (start : Nat) : UInt64 := ~~~0 <<< (start.toUInt64 &&& 63)

/-- `BITMAP_LAST_WORD_MASK(nbits)`: `~0UL >> (-(nbits) & (BITS_PER_LONG - 1))`. -/
def bitmapLastWordMask (nbits : Nat) : UInt64 := ~~~0 >>> ((0 - nbits.toUInt64) &&& 63)

/-- `test_bit(nr, addr)` -/
def testBit (nr : Nat) (addr : Nat → UInt64) : Bool :=
  1 &&& (addr (bitWord nr) >>> (nr.toUInt64 &&& 63)) != 0

/-! ## Setting and clearing a range -/

/-- The `while (nr - bits_to_set >= 0)` loop that `bitmap_set` and
`bitmap_clear` share: `op` puts the mask into the word at `p`. It returns
the bitmap, `p`, `nr` and the mask it stops with. -/
def bitmapRangeLoop (op : UInt64 → UInt64 → UInt64) :
    Nat → (Nat → UInt64) → Nat → Nat → Nat → UInt64 → (Nat → UInt64) × Nat × Nat × UInt64
  | 0, map, p, nr, _, mask => (map, p, nr, mask)
  | fuel + 1, map, p, nr, bits, mask =>
    if bits ≤ nr then bitmapRangeLoop op fuel (update map p (op (map p) mask)) (p + 1) (nr - bits) bitsPerLong (~~~0)
    else (map, p, nr, mask)

/-- The body of `bitmap_set` and `bitmap_clear`. Each round takes at
least one bit off `nr`, so `nr + 1` rounds are enough. -/
def bitmapRange (op : UInt64 → UInt64 → UInt64) (map : Nat → UInt64) (start nr : Nat) : Nat → UInt64 :=
  let size := start + nr
  let (map, p, nr, mask) :=
    bitmapRangeLoop op (nr + 1) map (bitWord start) nr (bitsPerLong - start % bitsPerLong) (bitmapFirstWordMask start)
  if nr ≠ 0 then update map p (op (map p) (mask &&& bitmapLastWordMask size)) else map

/-- `bitmap_set`: `*p |= mask_to_set`. -/
def bitmapSet (map : Nat → UInt64) (start nr : Nat) : Nat → UInt64 :=
  bitmapRange (fun w mask => w ||| mask) map start nr

/-- `bitmap_clear`: `*p &= ~mask_to_clear`. -/
def bitmapClear (map : Nat → UInt64) (start nr : Nat) : Nat → UInt64 :=
  bitmapRange (fun w mask => w &&& ~~~mask) map start nr

/-! ## The three-part operations -/

/-- The full-word loop of `bitmap_set_atomic`. -/
def bitmapSetAtomicLoop : Nat → (Nat → UInt64) → Nat → Nat → (Nat → UInt64) × Nat × Nat
  | 0, map, p, nr => (map, p, nr)
  | fuel + 1, map, p, nr =>
    if nr ≥ bitsPerLong then bitmapSetAtomicLoop fuel (update map p (~~~0)) (p + 1) (nr - bitsPerLong)
    else (map, p, nr)

/-- `bitmap_set_atomic`: a first word only when the range goes past it,
whole words only from a word boundary, then a last word. -/
def bitmapSetAtomic (map : Nat → UInt64) (start nr : Nat) : Nat → UInt64 :=
  let size := start + nr
  let p := bitWord start
  let bits := bitsPerLong - start % bitsPerLong
  let mask := bitmapFirstWordMask start
  -- first word
  let (map, p, nr, bits, mask) :=
    if nr > bits then (update map p (map p ||| mask), p + 1, nr - bits, bitsPerLong, ~~~0)
    else (map, p, nr, bits, mask)
  -- full words
  let (map, p, nr) := if bits = bitsPerLong then bitmapSetAtomicLoop (nr + 1) map p nr else (map, p, nr)
  -- last word
  if nr ≠ 0 then update map p (map p ||| (mask &&& bitmapLastWordMask size)) else map

/-- The full-word loop of `bitmap_test_and_clear`. -/
def bitmapTestAndClearLoop : Nat → (Nat → UInt64) → Nat → Nat → Bool → (Nat → UInt64) × Nat × Nat × Bool
  | 0, map, p, nr, dirty => (map, p, nr, dirty)
  | fuel + 1, map, p, nr, dirty =>
    if nr ≥ bitsPerLong then
      if map p ≠ 0 then bitmapTestAndClearLoop fuel (update map p 0) (p + 1) (nr - bitsPerLong) true
      else bitmapTestAndClearLoop fuel map (p + 1) (nr - bitsPerLong) dirty
    else (map, p, nr, dirty)

/-- `bitmap_test_and_clear`: the bitmap, and whether a bit of the range
was set. After the first word `mask_to_clear` is left as it was. -/
def bitmapTestAndClear (map : Nat → UInt64) (start nr : Nat) : (Nat → UInt64) × Bool :=
  let size := start + nr
  let p := bitWord start
  let bits := bitsPerLong - start % bitsPerLong
  let mask := bitmapFirstWordMask start
  -- first word
  let (map, p, nr, bits, dirty) :=
    if nr > bits then (update map p (map p &&& ~~~mask), p + 1, nr - bits, bitsPerLong, map p &&& mask != 0)
    else (map, p, nr, bits, false)
  -- full words
  let (map, p, nr, dirty) :=
    if bits = bitsPerLong then bitmapTestAndClearLoop (nr + 1) map p nr dirty else (map, p, nr, dirty)
  -- last word
  if nr ≠ 0 then
    let mask := mask &&& bitmapLastWordMask size
    (update map p (map p &&& ~~~mask), dirty || map p &&& mask != 0)
  else (map, dirty)

/-- The full-word loop of `bitmap_test_and_clear_atomic`: `old_bits` of
each non-zero word go into `dirty`. -/
def bitmapTestAndClearAtomicLoop :
    Nat → (Nat → UInt64) → Nat → Nat → UInt64 → (Nat → UInt64) × Nat × Nat × UInt64
  | 0, map, p, nr, dirty => (map, p, nr, dirty)
  | fuel + 1, map, p, nr, dirty =>
    if nr ≥ bitsPerLong then
      if map p ≠ 0 then bitmapTestAndClearAtomicLoop fuel (update map p 0) (p + 1) (nr - bitsPerLong) (dirty ||| map p)
      else bitmapTestAndClearAtomicLoop fuel map (p + 1) (nr - bitsPerLong) dirty
    else (map, p, nr, dirty)

/-- `bitmap_test_and_clear_atomic`: as `bitmap_test_and_clear`, with the
mask reset to `~0UL` after the first word and the cleared bits collected
in a word. -/
def bitmapTestAndClearAtomic (map : Nat → UInt64) (start nr : Nat) : (Nat → UInt64) × Bool :=
  let size := start + nr
  let p := bitWord start
  let bits := bitsPerLong - start % bitsPerLong
  let mask := bitmapFirstWordMask start
  -- first word
  let (map, p, nr, bits, mask, dirty) :=
    if nr > bits then
      (update map p (map p &&& ~~~mask), p + 1, nr - bits, bitsPerLong, (~~~0 : UInt64), map p &&& mask)
    else (map, p, nr, bits, mask, (0 : UInt64))
  -- full words
  let (map, p, nr, dirty) :=
    if bits = bitsPerLong then bitmapTestAndClearAtomicLoop (nr + 1) map p nr dirty else (map, p, nr, dirty)
  -- last word
  if nr ≠ 0 then
    let mask := mask &&& bitmapLastWordMask size
    (update map p (map p &&& ~~~mask), (dirty ||| (map p &&& mask)) != 0)
  else (map, dirty != 0)

/-! ## Copies -/

/-- `(long)nbits`: an `unsigned long` read as a `long`. -/
def toLong (n : UInt64) : Int := if n.toNat < 2 ^ 63 then n.toNat else n.toNat - 2 ^ 64

/-- `small_nbits(nbits)`: `nbits <= BITS_PER_LONG`, a `long` against a
`size_t`, so the `long` is compared as an `unsigned long`. -/
def smallNbits (nbits : Int) : Bool := (nbits % 2 ^ 64).toNat ≤ bitsPerLong

/-- `BITS_TO_LONGS(nbits)`: `DIV_ROUND_UP(nbits, BITS_PER_BYTE * sizeof(long))`,
whose divisor is a `size_t`, so the sum wraps as an `unsigned long`. -/
def bitsToLongs (nbits : Int) : Nat := ((nbits % 2 ^ 64).toNat + bitsPerLong - 1) % 2 ^ 64 / bitsPerLong

/-- `bitmap_copy(dst + d, src + s, nbits)`: one word for a small bitmap,
else the `memcpy` of `BITS_TO_LONGS(nbits)` words. -/
def bitmapCopy (dst : Nat → UInt64) (d : Nat) (src : Nat → UInt64) (s : Nat) (nbits : Int) : Nat → UInt64 :=
  if smallNbits nbits then update dst d (src s)
  else fun w => if d ≤ w ∧ w < d + bitsToLongs nbits then src (s + (w - d)) else dst w

/-- The word loop of `bitmap_copy_with_src_offset`: it returns `dst`, the
word indices `d` and `s` it reached, and the `nbits` left. -/
def copyWithSrcOffsetLoop (src : Nat → UInt64) (shift leftMask rightMask : UInt64) :
    Nat → (Nat → UInt64) → Nat → Nat → UInt64 → (Nat → UInt64) × Nat × Nat × UInt64
  | 0, dst, d, s, nbits => (dst, d, s, nbits)
  | fuel + 1, dst, d, s, nbits =>
    if nbits ≥ 64 then
      let w := (src s &&& leftMask) >>> shift
      let w := w ||| ((src (s + 1) &&& rightMask) <<< (64 - shift))
      copyWithSrcOffsetLoop src shift leftMask rightMask fuel (update dst d w) (d + 1) (s + 1) (nbits - 64)
    else (dst, d, s, nbits)

/-- `bitmap_copy_with_src_offset(dst, src, shift, nbits)`: bit `i` of
`dst` from bit `shift + i` of `src`. -/
def bitmapCopyWithSrcOffset (dst src : Nat → UInt64) (shift nbits : UInt64) : Nat → UInt64 :=
  let s := bitWord shift.toNat
  let shift := shift % 64
  if shift = 0 then bitmapCopy dst 0 src s (toLong nbits)
  else
    let rightMask := ((1 : UInt64) <<< shift) - 1
    let leftMask := ~~~rightMask
    let (dst, d, s, nbits) :=
      copyWithSrcOffsetLoop src shift leftMask rightMask (nbits.toNat / 64 + 1) dst 0 s nbits
    if nbits > 64 - shift then
      let w := (src s &&& leftMask) >>> shift
      let nbits := nbits - (64 - shift)
      let lastMask := ((1 : UInt64) <<< nbits) - 1
      update dst d (w ||| ((src (s + 1) &&& lastMask) <<< (64 - shift)))
    else if nbits ≠ 0 then
      let lastMask := ((1 : UInt64) <<< nbits) - 1
      update dst d ((src s >>> shift) &&& lastMask)
    else dst

/-- The word loop of `bitmap_copy_with_dst_offset`. -/
def copyWithDstOffsetLoop (src : Nat → UInt64) (shift leftMask rightMask : UInt64) :
    Nat → (Nat → UInt64) → Nat → Nat → UInt64 → (Nat → UInt64) × Nat × Nat × UInt64
  | 0, dst, d, s, nbits => (dst, d, s, nbits)
  | fuel + 1, dst, d, s, nbits =>
    if nbits ≥ 64 then
      let dst := update dst d (dst d ||| ((src s &&& rightMask) <<< shift))
      let dst := update dst (d + 1) ((src s &&& leftMask) >>> (64 - shift))
      copyWithDstOffsetLoop src shift leftMask rightMask fuel dst (d + 1) (s + 1) (nbits - 64)
    else (dst, d, s, nbits)

/-- `bitmap_copy_with_dst_offset(dst, src, shift, nbits)`: bit
`shift + i` of `dst` from bit `i` of `src`. -/
def bitmapCopyWithDstOffset (dst src : Nat → UInt64) (shift nbits : UInt64) : Nat → UInt64 :=
  let d := bitWord shift.toNat
  let shift := shift % 64
  if shift = 0 then bitmapCopy dst d src 0 (toLong nbits)
  else
    let rightMask := ((1 : UInt64) <<< (64 - shift)) - 1
    let leftMask := ~~~rightMask
    let dst := update dst d (dst d &&& (((1 : UInt64) <<< shift) - 1))
    let (dst, d, s, nbits) :=
      copyWithDstOffsetLoop src shift leftMask rightMask (nbits.toNat / 64 + 1) dst d 0 nbits
    if nbits > 64 - shift then
      let dst := update dst d (dst d ||| ((src s &&& rightMask) <<< shift))
      let nbits := nbits - (64 - shift)
      let lastMask := (((1 : UInt64) <<< nbits) - 1) <<< (64 - shift)
      update dst (d + 1) ((src s &&& lastMask) >>> (64 - shift))
    else if nbits ≠ 0 then
      let lastMask := ((1 : UInt64) <<< nbits) - 1
      update dst d (dst d ||| ((src s &&& lastMask) <<< shift))
    else dst

end QemuFormal.Bitmap

/-
QemuFormal.Util.BufferIsZero — `util/bufferiszero.c` and its x86 vector
versions: whether `len` bytes at `buf` are all zero.

Every version reads the buffer in units of `W` bytes (a `uint64_t`, an
`__m128i` or an `__m256i`) and `or`s them together. The first and last
units are loaded unaligned at `buf` and `buf + len - W`; the middle is
read in aligned units from `p = ALIGN_DOWN(buf + W, W)` up to
`e = ALIGN_DOWN(buf + len - 1, W)`. The three versions for `len >= 256`
first collect the seven units before `e` (`e[-7] .. e[-1]`) and then
test the aligned blocks of eight units from `p` while `p < e - 7`,
returning `false` on the first block that is not zero.

Model choices.
- Memory is `ByteMem`: the buffer is `ByteMem.window buf bytes`, with no
  byte outside it, so a load outside the buffer makes the result `none`.
- A load is the little-endian value of its bytes (x86); `|` on words
  and vectors is `|||` on those values. The `or` of a block is taken
  unit after unit: the vector code's interleaving of `v` and `w` under
  `SSE_REASSOC_BARRIER` only fixes an evaluation order.
- `_mm_movemask_epi8(_mm_cmpeq_epi8(v, zero))` is computed lane by lane.
- Pointers are addresses; `p < e - 7` on unit pointers is
  `p < e - 7 * W` on addresses.
- The loops are structurally recursive on a bound on their passes,
  `len`: every pass moves `p` on by at least a unit.
-/
import QemuFormal.Lib.ByteMem

namespace QemuFormal.BufferIsZero

open ByteMem

/-- `_mm_movemask_epi8(_mm_cmpeq_epi8(v, zero))` over the `n` byte
lanes of `v`: bit `k` is set when byte `k` of `v` is zero. -/
def movemaskCmpeqZero : (n v : Nat) → Nat
  | 0, _ => 0
  | n + 1, v => (if v % 256 = 0 then 1 else 0) + 2 * movemaskCmpeqZero n (v / 256)

/-- `buffer_is_zero_sample3(buf, len)`: `!buf[0] && !buf[len - 1] &&
!buf[len / 2]`, each byte read only when the one before it is zero. -/
def bufferIsZeroSample3 (mem : Nat → Option UInt8) (buf len : Nat) : Option Bool :=
  (mem buf).bind fun b => if b ≠ 0 then some false else
  (mem (buf + len - 1)).bind fun b => if b ≠ 0 then some false else
  (mem (buf + len / 2)).map fun b => b == 0

/-- `while (p < e) { t |= *p++; }` over aligned `uint64_t`s, for `fuel`
passes: the final `t`. -/
def wordsLoop (mem : Nat → Option UInt8) (e : Nat) : (fuel p t : Nat) → Option Nat
  | 0, _, t => some t
  | fuel + 1, p, t =>
    if p < e then (load mem p 8).bind fun w => wordsLoop mem e fuel (p + 8) (t ||| w)
    else some t

/-- `buffer_is_zero_int_lt256(buf, len)`. -/
def bufferIsZeroIntLt256 (mem : Nat → Option UInt8) (buf len : Nat) : Option Bool :=
  if len ≤ 8 then
    (load mem buf 4).bind fun a => (load mem (buf + len - 4) 4).map fun b => (a ||| b) == 0
  else
    (load mem buf 8).bind fun a => (load mem (buf + len - 8) 8).bind fun b =>
      -- Read 0 to 31 aligned words from the middle.
      (wordsLoop mem (alignDown (buf + len - 1) 8) len (alignDown (buf + 8) 8) (a ||| b)).map
        fun t => t == 0

/-- `p[0] | p[1] | ... | p[n - 1]` over units of `W` bytes. -/
def unitsOr (mem : Nat → Option UInt8) (W : Nat) : (p n : Nat) → Option Nat
  | _, 0 => some 0
  | p, n + 1 => (load mem p W).bind fun u => (unitsOr mem W (p + W) n).map fun t => u ||| t

/-- The unaligned first and last units, `or`ed with the partial block
`e[-7] | ... | e[-1]` before the aligned end `e`. -/
def headTailOr (mem : Nat → Option UInt8) (W buf len : Nat) : Option Nat :=
  (load mem buf W).bind fun v => (load mem (buf + len - W) W).bind fun w =>
    (unitsOr mem W (alignDown (buf + len - 1) W - 7 * W) 7).map fun t => v ||| w ||| t

/-- `do { if (!isZero(t)) return false; t = p[0] | ... | p[7]; p += 8; }
while (p < e - 7); return isZero(t);` for `fuel` passes. -/
def blocksLoop (mem : Nat → Option UInt8) (W : Nat) (isZero : Nat → Bool) (e : Nat) :
    (fuel p t : Nat) → Option Bool
  | 0, _, t => some (isZero t)
  | fuel + 1, p, t =>
    if !isZero t then some false
    else (unitsOr mem W p 8).bind fun t =>
      if p + 8 * W < e - 7 * W then blocksLoop mem W isZero e fuel (p + 8 * W) t
      else some (isZero t)

/-- The version for `len >= 256` on units of `W` bytes whose block loop
is a `do ... while`. -/
def bufferZeroBlocks (mem : Nat → Option UInt8) (W : Nat) (isZero : Nat → Bool) (buf len : Nat) :
    Option Bool :=
  (headTailOr mem W buf len).bind fun t =>
    blocksLoop mem W isZero (alignDown (buf + len - 1) W) len (alignDown (buf + W) W) t

/-- `buffer_is_zero_int_ge256(buf, len)`: `uint64_t` units, tested by
`if (t)`. -/
def bufferIsZeroIntGe256 (mem : Nat → Option UInt8) (buf len : Nat) : Option Bool :=
  bufferZeroBlocks mem 8 (fun t => t == 0) buf len

/-- `buffer_zero_sse2(buf, len)`: `__m128i` units, tested by
`_mm_movemask_epi8(_mm_cmpeq_epi8(v, zero)) == 0xFFFF`. -/
def bufferZeroSse2 (mem : Nat → Option UInt8) (buf len : Nat) : Option Bool :=
  bufferZeroBlocks mem 16 (fun v => movemaskCmpeqZero 16 v == 0xFFFF) buf len

/-- `buffer_zero_avx2(buf, len)`: `__m256i` units, and a `for` loop over
the blocks, so no block is read when `p >= e - 7` from the start. -/
def bufferZeroAvx2 (mem : Nat → Option UInt8) (buf len : Nat) : Option Bool :=
  (headTailOr mem 32 buf len).bind fun v =>
    -- Loop over complete 256-byte blocks.
    if alignDown (buf + 32) 32 < alignDown (buf + len - 1) 32 - 7 * 32 then
      blocksLoop mem 32 (fun v => movemaskCmpeqZero 32 v == 0xFFFFFFFF) (alignDown (buf + len - 1) 32) len
        (alignDown (buf + 32) 32) v
    else some (movemaskCmpeqZero 32 v == 0xFFFFFFFF)

/-- `accel_table` with `CONFIG_AVX2_OPT`: what `buffer_is_zero_accel`
may point to, whether `best_accel` or `test_buffer_is_zero_next_accel`
chose it. -/
def accelTable : List ((Nat → Option UInt8) → Nat → Nat → Option Bool) :=
  [bufferIsZeroIntGe256, bufferZeroSse2, bufferZeroAvx2]

/-- `buffer_is_zero_ool(buf, len)`, with `buffer_is_zero_accel` being
`accel`. -/
def bufferIsZeroOol (accel : (Nat → Option UInt8) → Nat → Nat → Option Bool)
    (mem : Nat → Option UInt8) (buf len : Nat) : Option Bool :=
  if len = 0 then some true
  else (bufferIsZeroSample3 mem buf len).bind fun s =>
    if !s then some false
    -- All bytes are covered for any len <= 3.
    else if len ≤ 3 then some true
    else if len ≥ 256 then accel mem buf len
    else bufferIsZeroIntLt256 mem buf len

/-- `buffer_is_zero_ge256(buf, len)`. -/
def bufferIsZeroGe256 (accel : (Nat → Option UInt8) → Nat → Nat → Option Bool)
    (mem : Nat → Option UInt8) (buf len : Nat) : Option Bool :=
  accel mem buf len

/-- `buffer_is_zero(buf, len)` under `__OPTIMIZE__`, where `constLen` is
`__builtin_constant_p(len)`; without it `buffer_is_zero` is
`buffer_is_zero_ool`, the case `constLen = false`. -/
def bufferIsZero (accel : (Nat → Option UInt8) → Nat → Nat → Option Bool) (constLen : Bool)
    (mem : Nat → Option UInt8) (buf len : Nat) : Option Bool :=
  if constLen ∧ len ≥ 256 then
    (bufferIsZeroSample3 mem buf len).bind fun s =>
      if s then bufferIsZeroGe256 accel mem buf len else some false
  else bufferIsZeroOol accel mem buf len

end QemuFormal.BufferIsZero

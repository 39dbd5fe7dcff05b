/-
QemuFormal.Migration.XbzrleAvx512 — `xbzrle_encode_buffer_avx512`, the
encoder `init_accel` installs as `xbzrle_encode_buffer` when the host has
AVX512BW.

It walks the pages 64 bytes at a time. For each chunk it loads both pages
under a mask (the last chunk holds the `slen % 64` residual bytes, and
its other lanes load as zero in both) and compares them into a 64-bit
mask `comp`, bit `k` set when byte `k` agrees. The inner loop then
scans `comp`: `ctz64(~comp)` equal bytes, `ctz64(comp)` differing ones.
`zrun_len` and `nzrun_len` carry a run across chunks, so an nzrun is
written only when the next equal byte is found (or at the end), and a
zrun length only when the next differing byte is. `never_same` makes
the first zrun length be written even when it is zero.

Model choices, as in `Xbzrle`.
- `dst` is the list of bytes written, `dst[0..d)`, and `d` its length;
  every write of the encoder is at `dst + d`, so a write at or past
  `dlen` shows as `dst` longer than `dlen`.
- A failing `g_assert` (in `uleb128_encode_small`) is `none`.
- The inner `while (bytes_to_check)` loop is structurally recursive on a
  bound on its passes; every pass consumes a byte of the chunk or leaves
  the loop, so `bytes_to_check + 1` passes are enough.
- `comp >>= num` never shifts by 64 (`num` is 64 only on a full chunk,
  which takes a fast path instead), so `UInt64`'s shift is the C one.
-/
import QemuFormal.Migration.Xbzrle

namespace QemuFormal.Xbzrle

/-- The lowest set bit of `val` from bit `k` on, looking at `fuel` bits,
and `k + fuel` when there is none. -/
def ctzFrom (val : Nat) : (fuel k : Nat) → Nat
  | 0, k => k
  | fuel + 1, k => if val.testBit k then k else ctzFrom val fuel (k + 1)

/-- `ctz64(val)`: the index of the lowest set bit, and 64 when `val` is
zero. -/
def ctz64 (val : UInt64) : Nat := ctzFrom val.toNat 64 0

/-- `_mm512_cmpeq_epi8_mask` of `_mm512_mask_loadu_epi8(r, mask, old_buf + i)`
and the same load of `new_buf`, with `r` zero: bit `k` is set when lane
`k` of the two loads agrees, and a lane outside `mask` is zero in both. -/
def cmpeqMask (old new : Bytes) (i : Nat) (mask : UInt64) : UInt64 :=
  (List.range 64).foldl (fun comp k =>
    let lane (buf : Bytes) : UInt8 := if mask.toNat.testBit k then byteAt buf (i + k) else 0
    if lane old = lane new then comp ||| (1 <<< k.toUInt64) else comp) 0

/-- The variables of the encoder that live across chunks: `zrun_len`,
`nzrun_len`, `i`, `never_same`, and `dst[0, d)`. -/
structure Avx512Vars where
  zrunLen : Nat
  nzrunLen : Nat
  i : Nat
  neverSame : Bool
  dst : Bytes
deriving DecidableEq, Repr

/-- How a pass of the inner loop ends: `return -1` having written `dst`,
leaving the loop (`break`, or `bytes_to_check` down to zero), or going
round again with `bytes_to_check`, `comp` and `is_same`. -/
inductive ChunkNext where
  | fail (dst : Bytes)
  | stop (v : Avx512Vars)
  | more (bytesToCheck : Nat) (comp : UInt64) (isSame : Bool) (v : Avx512Vars)
deriving DecidableEq, Repr

/-- `d += uleb128_encode_small(dst + d, n)`. -/
def emitLength (dst : Bytes) (n : Nat) : Option Bytes :=
  (uleb128EncodeSmall n).map (dst ++ ·)

/-- `d += uleb128_encode_small(dst + d, nzrun_len); if (d + nzrun_len > dlen)
return -1; nzrun_start = new_buf + i - nzrun_len; memcpy(dst + d,
nzrun_start, nzrun_len); d += nzrun_len;`: `.error` holds what was
written before the `return -1`. -/
def flushNzrun (new : Bytes) (dlen : Int) (i nzrunLen : Nat) (dst : Bytes) : Option (Except Bytes Bytes) :=
  (emitLength dst nzrunLen).map fun dst =>
    if (dst.length : Int) + nzrunLen > dlen then .error dst
    else .ok (dst ++ (new.drop (i - nzrunLen)).take nzrunLen)

/-- The `if (is_same)` block of a pass: write the nzrun that the equal
byte at `i` ends, then scan the zrun. `more` goes on to the rest of the
pass with what is left of the chunk. -/
def zrunPart (new : Bytes) (dlen : Int) (count512s bytesToCheck : Nat) (comp : UInt64) (v : Avx512Vars) :
    Option ChunkNext :=
  let flushed : Option (Except Bytes Avx512Vars) :=
    if v.nzrunLen ≠ 0 then
      (flushNzrun new dlen v.i v.nzrunLen v.dst).map fun
        | .error dst => .error dst
        | .ok dst => .ok { v with dst := dst, nzrunLen := 0 }
    else some (.ok v)
  flushed.bind fun
    | .error dst => some (.fail dst)
    | .ok v =>
      -- 64 data at a time for speed
      if count512s ≠ 0 ∧ comp = 0xffffffffffffffff then
        some (.stop { v with i := v.i + 64, zrunLen := v.zrunLen + 64 })
      else
        let num := min (ctz64 (~~~comp)) bytesToCheck
        let v := { v with neverSame := false, zrunLen := v.zrunLen + num, i := v.i + num }
        if bytesToCheck - num ≠ 0 then
          -- still has different data after same data
          (emitLength v.dst v.zrunLen).map fun dst =>
            .more (bytesToCheck - num) (comp >>> num.toUInt64) true { v with dst := dst, zrunLen := 0 }
        else some (.stop v)

/-- The rest of a pass: write the zrun length the differing byte at `i`
ends (or the first, empty one), then scan the nzrun, and write it if an
equal byte ends it inside the chunk. -/
def nzrunPart (new : Bytes) (dlen : Int) (bytesToCheck : Nat) (comp : UInt64) (v : Avx512Vars) :
    Option ChunkNext :=
  -- never_same only acts if data begins with diff in first count512s
  let written : Option Avx512Vars :=
    if v.neverSame ∨ v.zrunLen ≠ 0 then
      (emitLength v.dst v.zrunLen).map fun dst => { v with dst := dst, zrunLen := 0, neverSame := false }
    else some v
  written.bind fun v =>
    -- has diff, 64 data at a time for speed
    if bytesToCheck = 64 ∧ comp = 0 then
      some (.stop { v with i := v.i + 64, nzrunLen := v.nzrunLen + 64 })
    else
      let num := min (ctz64 comp) bytesToCheck
      let v := { v with nzrunLen := v.nzrunLen + num, i := v.i + num }
      if bytesToCheck - num ≠ 0 then
        -- mask like 111000
        (flushNzrun new dlen v.i v.nzrunLen v.dst).map fun
          | .error dst => .fail dst
          | .ok dst => .more (bytesToCheck - num) (comp >>> num.toUInt64) true { v with dst := dst, nzrunLen := 0 }
      else some (.stop v)

/-- One pass of `while (bytes_to_check)`, after its test. -/
def chunkStep (new : Bytes) (dlen : Int) (count512s bytesToCheck : Nat) (comp : UInt64) (isSame : Bool)
    (v : Avx512Vars) : Option ChunkNext :=
  if (v.dst.length : Int) + 2 > dlen then some (.fail v.dst)
  else if isSame then
    (zrunPart new dlen count512s bytesToCheck comp v).bind fun
      | .more bytesToCheck comp _ v => nzrunPart new dlen bytesToCheck comp v
      | r => some r
  else nzrunPart new dlen bytesToCheck comp v

/-- `while (bytes_to_check) { ... }` over one chunk, for `fuel` passes. -/
def chunkLoop (new : Bytes) (dlen : Int) (count512s : Nat) :
    (fuel bytesToCheck : Nat) → (comp : UInt64) → (isSame : Bool) → Avx512Vars → Option ChunkNext
  | 0, _, _, _, v => some (.stop v)
  | fuel + 1, bytesToCheck, comp, isSame, v =>
    if bytesToCheck = 0 then some (.stop v)
    else (chunkStep new dlen count512s bytesToCheck comp isSame v).bind fun
      | .more bytesToCheck comp isSame v => chunkLoop new dlen count512s fuel bytesToCheck comp isSame v
      | r => some r

/-- `while (count512s) { ... }`: the chunks from the one at `v.i`;
`.error` holds what was written before a `return -1`. -/
def chunksLoop (old new : Bytes) (dlen : Int) (countResidual : Nat) (maskResidual : UInt64) :
    (count512s : Nat) → Avx512Vars → Option (Except Bytes Avx512Vars)
  | 0, v => some (.ok v)
  | count512s + 1, v =>
    -- the last chunk is the residual one
    let bytesToCheck := if count512s + 1 = 1 then countResidual else 64
    let mask : UInt64 := if count512s + 1 = 1 then maskResidual else 0xffffffffffffffff
    let comp := cmpeqMask old new v.i mask
    (chunkLoop new dlen count512s (bytesToCheck + 1) bytesToCheck comp (comp &&& 1 ≠ 0) v).bind fun
      | .fail dst => some (.error dst)
      | .stop v | .more _ _ _ v => chunksLoop old new dlen countResidual maskResidual count512s v

/-- `xbzrle_encode_buffer_avx512(old_buf, new_buf, slen, dst, dlen)`: the
return value and every byte written to `dst`. -/
def xbzrleEncodeBufferAvx512 (old new : Bytes) (slen : Nat) (dlen : Int) : Option (Int × Bytes) :=
  -- add 1 to include residual part in main loop
  let count512s := (slen >>> 6) + 1
  let countResidual := slen &&& 0b111111
  let maskResidual : UInt64 := (1 <<< countResidual.toUInt64) - 1
  (chunksLoop old new dlen countResidual maskResidual count512s ⟨0, 0, 0, true, []⟩).bind fun
    | .error dst => some (-1, dst)
    | .ok v =>
      if v.nzrunLen ≠ 0 then
        (flushNzrun new dlen v.i v.nzrunLen v.dst).map fun
          | .error dst => (-1, dst)
          | .ok dst => (dst.length, dst)
      else some (v.dst.length, v.dst)

end QemuFormal.Xbzrle

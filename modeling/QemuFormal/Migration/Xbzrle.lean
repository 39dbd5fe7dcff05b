/-
QemuFormal.Migration.Xbzrle — `migration/xbzrle.c`: the XBZRLE delta of a
page against the version the destination already has.

  page = zrun nzrun | zrun nzrun page
  zrun = length        nzrun = length byte...       (lengths in ULEB128)

`xbzrle_encode_buffer` (the generic C version) walks the old and the new
page together from offset `i`. It scans the run of equal bytes (zrun) and
then the run of differing bytes (nzrun), and writes their lengths and the
new bytes of the nzrun; the last zrun is not written. Each scan goes a
byte at a time until a multiple of `sizeof(long)` is left before the end
of the page, and then a `long` at a time. For a zrun that means while the
two words are equal. For an nzrun it means while no byte of their `xor`
is zero, which the has-zero-byte test `(xor - mask) & ~xor & (mask << 7)`
detects. Once a word has an equal byte, the scan goes back to bytes
inside it. The encoder checks room in `dst` before each step and
returns `-1` when there is none. `xbzrle_decode_buffer` replays the runs
onto the old page and rejects malformed input: fewer than two bytes
before a run, a zero-length zrun after the first, an empty nzrun, and
runs past the end of either buffer.

Model choices.
- Buffers are byte lists.
- The encoder's `dst` is the list of bytes it has written, `dst[0..d)`,
  and `d` is its length.
- A `long` is 8 bytes loaded little-endian, as on x86-64.
- A failing `g_assert` is `none`. The encoder asserts that `slen` is a
  multiple of `sizeof(long)`; pointer alignment is not modelled.
- Every `while` loop is a function structurally recursive on a bound on
  its iterations (`fuel`), which the caller makes large enough.
  `while (i < slen && ...)` over single bytes is the same loop bounded
  by `slen - i`. The byte loop that ends an nzrun inside a word is
  bounded by `sizeof(long)`, since the test found an equal byte in that
  word.
-/
import QemuFormal.Lib.Swar
import QemuFormal.Util.Cutils

namespace QemuFormal.Xbzrle

/-- `sizeof(long)`. -/
def sizeofLong : Nat := 8

/-- `*(long *)(buf + i)`. -/
def loadLong (buf : Bytes) (i : Nat) : UInt64 :=
  UInt64.ofNat (Swar.value (((buf.drop i).take sizeofLong).map UInt8.toNat))

/-- `(unsigned long)0x0101010101010101ULL`. -/
def mask : UInt64 := 0x0101010101010101

/-- `(xor - mask) & ~xor & (mask << 7)`, the test for a zero byte. -/
def hasZeroByte (xor : UInt64) : Bool :=
  (xor - mask) &&& ~~~xor &&& (mask <<< 7) != 0

/-! ## The encoder -/

/-- The byte loops: advance `i` while the pages agree at `i` (`eq`) or
differ there (`!eq`), at most `fuel` times, counting into `len`. Returns
the fuel left (the `res` of the loops that count it down), `i` and
`len`. -/
def runBytes (old new : Bytes) (eq : Bool) : (fuel i len : Nat) → Nat × Nat × Nat
  | 0, i, len => (0, i, len)
  | fuel + 1, i, len =>
    if (byteAt old i == byteAt new i) = eq then runBytes old new eq fuel (i + 1) (len + 1)
    else (fuel + 1, i, len)

/-- `while (i < slen && *(long *)(old_buf + i) == *(long *)(new_buf + i))
{ i += sizeof(long); zrun_len += sizeof(long); }`, for `fuel` words. -/
def zrunWords (old new : Bytes) (slen : Nat) : (fuel i zrunLen : Nat) → Nat × Nat
  | 0, i, zrunLen => (i, zrunLen)
  | fuel + 1, i, zrunLen =>
    if i < slen ∧ loadLong old i = loadLong new i then
      zrunWords old new slen fuel (i + sizeofLong) (zrunLen + sizeofLong)
    else (i, zrunLen)

/-- The word loop of an nzrun, for `fuel` words: a word with an equal
byte ends the nzrun at that byte. -/
def nzrunWords (old new : Bytes) (slen : Nat) : (fuel i nzrunLen : Nat) → Nat × Nat
  | 0, i, nzrunLen => (i, nzrunLen)
  | fuel + 1, i, nzrunLen =>
    if i < slen then
      if hasZeroByte (loadLong old i ^^^ loadLong new i) then
        let (_, i, nzrunLen) := runBytes old new false sizeofLong i nzrunLen
        (i, nzrunLen)
      else nzrunWords old new slen fuel (i + sizeofLong) (nzrunLen + sizeofLong)
    else (i, nzrunLen)

/-- The zrun from `i`: the new `i` and `zrun_len`. -/
def zrunScan (old new : Bytes) (slen i : Nat) : Nat × Nat :=
  let (res, i, zrunLen) := runBytes old new true ((slen - i) % sizeofLong) i 0
  if res = 0 then
    let (i, zrunLen) := zrunWords old new slen slen i zrunLen
    -- go over the rest
    let (_, i, zrunLen) := runBytes old new true (slen - i) i zrunLen
    (i, zrunLen)
  else (i, zrunLen)

/-- The nzrun from `i`: the new `i` and `nzrun_len`. -/
def nzrunScan (old new : Bytes) (slen i : Nat) : Nat × Nat :=
  let (res, i, nzrunLen) := runBytes old new false ((slen - i) % sizeofLong) i 0
  if res = 0 then nzrunWords old new slen slen i nzrunLen else (i, nzrunLen)

/-- The `while (i < slen)` loop from offset `i`, having written `dst`
(so `d = dst.length`), for `fuel` iterations: the return value and what
has been written. -/
def encodeLoop (old new : Bytes) (slen : Nat) (dlen : Int) : (fuel i : Nat) → (dst : Bytes) →
    Option (Int × Bytes)
  | 0, _, dst => some (dst.length, dst)
  | fuel + 1, i, dst =>
    if i < slen then
      if (dst.length : Int) + 2 > dlen then some (-1, dst)
      else
        let (i, zrunLen) := zrunScan old new slen i
        -- buffer unchanged
        if zrunLen = slen then some (0, dst)
        -- skip last zero run
        else if i = slen then some (dst.length, dst)
        else (uleb128EncodeSmall zrunLen).bind fun zrunBytes =>
          let dst := dst ++ zrunBytes
          let nzrunStart := i
          if (dst.length : Int) + 2 > dlen then some (-1, dst)
          else
            let (i, nzrunLen) := nzrunScan old new slen i
            (uleb128EncodeSmall nzrunLen).bind fun nzrunBytes =>
              let dst := dst ++ nzrunBytes
              if (dst.length : Int) + nzrunLen > dlen then some (-1, dst)
              else encodeLoop old new slen dlen fuel i (dst ++ (new.drop nzrunStart).take nzrunLen)
    else some (dst.length, dst)

/-- `xbzrle_encode_buffer(old_buf, new_buf, slen, dst, dlen)`: the return
value and `dst[0..d)`. Every iteration moves `i` on, so `slen + 1`
iterations are enough. -/
def xbzrleEncodeBuffer (old new : Bytes) (slen : Nat) (dlen : Int) : Option (Int × Bytes) :=
  if slen % sizeofLong ≠ 0 then none else encodeLoop old new slen dlen (slen + 1) 0 []

/-! ## The decoder -/

/-- `memcpy(dst + d, src + i, count)`. -/
def memcpy (dst : Bytes) (d : Nat) (src : Bytes) (i count : Nat) : Bytes :=
  dst.take d ++ (src.drop i).take count ++ dst.drop (d + count)

/-- The `while (i < slen)` loop of the decoder from offset `i` of `src`
and `d` of `dst`, for `fuel` iterations: the return value and `dst`. -/
def decodeLoop (src : Bytes) (slen dlen : Nat) : (fuel i d : Nat) → (dst : Bytes) → Int × Bytes
  | 0, _, d, dst => (d, dst)
  | fuel + 1, i, d, dst =>
    if i < slen then
      -- zrun
      if slen - i < 2 then (-1, dst)
      else match uleb128DecodeSmall src i with
      | none => (-1, dst)
      | some (ret, count) =>
        if i ≠ 0 ∧ count = 0 then (-1, dst)
        else
          let i := i + ret
          let d := d + count
          if d > dlen then (-1, dst)
          -- nzrun
          else if slen - i < 2 then (-1, dst)
          else match uleb128DecodeSmall src i with
          | none => (-1, dst)
          | some (ret, count) =>
            if count = 0 then (-1, dst)
            else
              let i := i + ret
              if d + count > dlen ∨ i + count > slen then (-1, dst)
              else decodeLoop src slen dlen fuel (i + count) (d + count) (memcpy dst d src i count)
    else (d, dst)

/-- `xbzrle_decode_buffer(src, slen, dst, dlen)`: the return value and
`dst`. Every iteration reads at least one byte of `src`, so `slen`
iterations are enough. -/
def xbzrleDecodeBuffer (src : Bytes) (slen : Nat) (dst : Bytes) (dlen : Nat) : Int × Bytes :=
  decodeLoop src slen dlen slen 0 0 dst

end QemuFormal.Xbzrle

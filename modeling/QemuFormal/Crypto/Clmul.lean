/-
QemuFormal.Crypto.Clmul — the carry-less multiply helpers of
`crypto/clmul.c`.

Three of them (`clmul_8x8_low`, `clmul_8x4_even_int`, `clmul_16x2_even`)
run the same loop over lanes of a 64-bit word: a mask holding, in each
lane, copies of the lane's lowest bit of `n` (`(n & lsb) * fill`), an
`xor` of `m & mask` into `r`, then `n >>= 1` and a shift of `m`. It is
`laneLoop`, with each function's `lsb`, `fill` and shift of `m`.
`clmul_32` and `clmul_64_gen` have loops of their own.

Model choices.
- `uint64_t` and `uint32_t` are `UInt64` and `UInt32`, whose operations
  wrap as C's do; a shift count is below the width on every call, so
  `UInt64`'s shift (count modulo 64) is the C one.
- The `for (int i = 0; i < k; ++i)` loops are structurally recursive on
  the passes left.
- `Int128` is the `CONFIG_INT128` one of `QemuFormal.Util.Int128`.
-/
import QemuFormal.Util.Int128

namespace QemuFormal.Clmul

/-- `for (count passes) { mask = (n & lsb) * fill; r ^= m & mask;
n >>= 1; m = shiftM(m); }`, the loop of the lane-wise helpers. -/
def laneLoop (lsb fill : UInt64) (shiftM : UInt64 → UInt64) : (count : Nat) → (n m r : UInt64) → UInt64
  | 0, _, _, r => r
  | count + 1, n, m, r =>
    let mask := (n &&& lsb) * fill
    laneLoop lsb fill shiftM count (n >>> 1) (shiftM m) (r ^^^ (m &&& mask))

/-- `clmul_8x8_low(n, m)`: `m` moves left inside its byte,
`m = (m << 1) & 0xfefefefefefefefe`. -/
def clmul8x8Low (n m : UInt64) : UInt64 :=
  laneLoop 0x0101010101010101 0xff (fun m => (m <<< 1) &&& 0xfefefefefefefefe) 8 n m 0

/-- `clmul_8x4_even_int(n, m)`. -/
def clmul8x4EvenInt (n m : UInt64) : UInt64 :=
  laneLoop 0x0001000100010001 0xffff (fun m => m <<< 1) 8 n m 0

/-- `clmul_8x4_even(n, m)`. -/
def clmul8x4Even (n m : UInt64) : UInt64 :=
  clmul8x4EvenInt (n &&& 0x00ff00ff00ff00ff) (m &&& 0x00ff00ff00ff00ff)

/-- `clmul_8x4_odd(n, m)`. -/
def clmul8x4Odd (n m : UInt64) : UInt64 :=
  clmul8x4Even (n >>> 8) (m >>> 8)

/-- `unpack_8_to_16(x)`: byte `j` of `x` to the low byte of 16-bit
lane `j`. -/
def unpack8To16 (x : UInt64) : UInt64 :=
  (x &&& (0x000000ff : UInt64))
    ||| ((x &&& (0x0000ff00 : UInt64)) <<< (8 : UInt64))
    ||| ((x &&& (0x00ff0000 : UInt64)) <<< (16 : UInt64))
    ||| ((x &&& (0xff000000 : UInt64)) <<< (24 : UInt64))

/-- `clmul_8x4_packed(n, m)`: the `uint32_t` arguments widen to
`uint64_t` for `unpack_8_to_16`. -/
def clmul8x4Packed (n m : UInt32) : UInt64 :=
  clmul8x4EvenInt (unpack8To16 n.toUInt64) (unpack8To16 m.toUInt64)

/-- `clmul_16x2_even(n, m)`. -/
def clmul16x2Even (n m : UInt64) : UInt64 :=
  laneLoop 0x0000000100000001 0xffffffff (fun m => m <<< 1) 16
    (n &&& 0x0000ffff0000ffff) (m &&& 0x0000ffff0000ffff) 0

/-- `clmul_16x2_odd(n, m)`. -/
def clmul16x2Odd (n m : UInt64) : UInt64 :=
  clmul16x2Even (n >>> 16) (m >>> 16)

/-- `for (count passes) { r ^= n & 1 ? m : 0; n >>= 1; m <<= 1; }`. -/
def clmul32Loop : (count : Nat) → (n : UInt32) → (m r : UInt64) → UInt64
  | 0, _, _, r => r
  | count + 1, n, m, r => clmul32Loop count (n >>> 1) (m <<< 1) (r ^^^ (if n &&& 1 ≠ 0 then m else 0))

/-- `clmul_32(n, m32)`. -/
def clmul32 (n m32 : UInt32) : UInt64 :=
  clmul32Loop 32 n m32.toUInt64 0

/-- `for (; i < 64; ++i) { mask = -((n >> i) & 1); rl ^= (m << i) & mask;
rh ^= (m >> (64 - i)) & mask; }` from `i`, for `count` passes. -/
def clmul64Loop (n m : UInt64) : (count i : Nat) → (rl rh : UInt64) → UInt64 × UInt64
  | 0, _, rl, rh => (rl, rh)
  | count + 1, i, rl, rh =>
    let mask := -((n >>> i.toUInt64) &&& 1)
    clmul64Loop n m count (i + 1) (rl ^^^ ((m <<< i.toUInt64) &&& mask))
      (rh ^^^ ((m >>> (64 - i).toUInt64) &&& mask))

/-- `clmul_64_gen(n, m)`. -/
def clmul64Gen (n m : UInt64) : Int128 :=
  -- Bit 0 can only influence the low 64-bit result.
  let rl := if n &&& 1 ≠ 0 then m else 0
  let r := clmul64Loop n m 63 1 rl 0
  int128Make128 r.1 r.2

end QemuFormal.Clmul

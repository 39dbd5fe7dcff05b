/-
QemuFormal.Util.HostUtils256 — the 256-by-128 divisions of
`util/host-utils.c`: `udiv256_qrnnd`, `divu256` and `divs256`, on the
`__int128_t` build of `Int128`.

`udiv256_qrnnd` is `udiv_qrnnd` one size up: base `2^64`, each quotient
digit estimated from the top half of the divisor and corrected at most
twice; its two halves repeat one block, `udiv256QrnndHalf`. It needs
`n1 < d` and `d` normalised.

`divu256` normalises the divisor by its leading zeros and shifts the
dividend with it. When the high half of the dividend is at least the
divisor, the bits shifted out of it become the top digit `dhighest`,
computed with `int128_rshift`, the arithmetic shift; `divu128` computes
the same digit with a logical shift. For a high half with its top bit
set the arithmetic shift fills `dhighest` with ones, `dhighest ≥ d`, and
`udiv256_qrnnd` runs outside its precondition:
`divu256_top_bit_wrong_quotient` is such a division.
-/
import QemuFormal.Util.Int128

namespace QemuFormal

open HostUtils

/-- One half of `udiv256_qrnnd`: divide `u * 2^64 + digit` by `d` from
the estimate `u / d1`, corrected at most twice. The quotient digit and
the remainder. -/
def udiv256QrnndHalf (u : Int128) (digit : UInt64) (d : Int128) : Int128 × Int128 :=
  let d0 := int128Make64 (int128Getlo d)
  let d1 := int128Make64 (int128Gethi d)
  let r := int128Remu u d1
  let q := int128Divu u d1
  let (mp0, mp1, _) := mulu128 (int128Getlo q) (int128Gethi q) (int128Getlo d0)
  let m := int128Make128 mp0 mp1
  let r := int128Make128 digit (int128Getlo r)
  let (q, r) :=
    if int128Ult r m then
      let q := int128Sub q int128One
      let r := int128Add r d
      if int128Uge r d then
        if int128Ult r m then (int128Sub q int128One, int128Add r d) else (q, r)
      else (q, r)
    else (q, r)
  (q, int128Sub r m)

/-- `udiv256_qrnnd(r, n1, n0, d)`: the low 128 bits of the quotient of
`(n1:n0)` by `d`, and the remainder. -/
def udiv256Qrnnd (n1 n0 d : Int128) : Int128 × Int128 :=
  let (q1, r1) := udiv256QrnndHalf n1 (int128Gethi n0) d
  let (q0, r0) := udiv256QrnndHalf r1 (int128Getlo n0) d
  (int128Or (int128Lshift q1 64) q0, r0)

/-- `divu256(plow, phigh, divisor)`: the quotient in `(phigh:plow)` and the
remainder. -/
def divu256 (plow phigh divisor : Int128) : Int128 × Int128 × Int128 :=
  let dhi := phigh
  let dlo := plow
  if !int128Nz divisor || !int128Nz dhi then
    (int128Divu dlo divisor, int128Zero, int128Remu dlo divisor)
  else
    let sh := clz128 divisor
    if int128Ult dhi divisor then
      -- normalize the divisor, shifting the dividend accordingly
      let (divisor, dhi, dlo) :=
        if sh ≠ 0 then
          (int128Lshift divisor sh, int128Or (int128Lshift dhi sh) (int128Urshift dlo (128 - sh)),
            int128Lshift dlo sh)
        else (divisor, dhi, dlo)
      let (plow, rem) := udiv256Qrnnd dhi dlo divisor
      (plow, int128Zero, int128Urshift rem sh)
    else
      let (phigh, dhi, dlo, divisor) :=
        if sh ≠ 0 then
          let divisor := int128Lshift divisor sh
          let dhighest := int128Rshift dhi (128 - sh)
          let dhi' := int128Or (int128Lshift dhi sh) (int128Urshift dlo (128 - sh))
          let dlo := int128Lshift dlo sh
          let (phigh, dhi) := udiv256Qrnnd dhighest dhi' divisor
          (phigh, dhi, dlo, divisor)
        else
          -- the high part of the quotient is 1
          (int128One, int128Sub dhi divisor, dlo, divisor)
      let (plow, rem) := udiv256Qrnnd dhi dlo divisor
      (plow, phigh, int128Urshift rem sh)

/-- `divs256(plow, phigh, divisor)`: divide the magnitudes, then give the
quotient and the remainder their signs. -/
def divs256 (plow phigh divisor : Int128) : Int128 × Int128 × Int128 :=
  let (negQuotient, negRemainder, unsigHi, unsigLo) :=
    if !int128Nonneg phigh then
      if !int128Nz plow then (true, true, int128Neg phigh, plow)
      else (true, true, int128Not phigh, int128Neg plow)
    else (false, false, phigh, plow)
  let (negQuotient, divisor) :=
    if !int128Nonneg divisor then (!negQuotient, int128Neg divisor) else (negQuotient, divisor)
  let (unsigLo, unsigHi, rem) := divu256 unsigLo unsigHi divisor
  let (phigh, plow) :=
    if negQuotient then
      if !int128Nz unsigLo then (int128Neg unsigHi, int128Zero) else (int128Not unsigHi, int128Neg unsigLo)
    else (unsigHi, unsigLo)
  (plow, phigh, if negRemainder then int128Neg rem else rem)

/-- `2^255 / 2^126`: the top bit of the high half is set and the divisor
has one leading zero. `dhighest` comes out as all ones instead of `1`,
and the quotient as `(2^128 - 2) * 2^128` instead of `2^129`. `divs256`
divides the magnitude of `-2^255` the same way and negates the wrong
quotient into `+2^129`. -/
theorem divu256_top_bit_wrong_quotient :
    divu256 0 0x80000000000000000000000000000000 0x40000000000000000000000000000000 =
      (0, 0xFFFFFFFFFFFFFFFFFFFFFFFFFFFFFFFE, 0) ∧
    ((divu256 0 0x80000000000000000000000000000000 0x40000000000000000000000000000000).2.1.toNat * 2 ^ 128 +
        (divu256 0 0x80000000000000000000000000000000 0x40000000000000000000000000000000).1.toNat) *
          2 ^ 126 +
        (divu256 0 0x80000000000000000000000000000000 0x40000000000000000000000000000000).2.2.toNat ≠
      2 ^ 255 ∧
    divs256 0 0x80000000000000000000000000000000 0x40000000000000000000000000000000 = (0, 2, 0) := by
  decide

end QemuFormal

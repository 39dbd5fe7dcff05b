/-
QemuFormal.Util.HostUtils — the portable wide multiplications and
divisions of `util/host-utils.c` and `include/qemu/host-utils.h`, the
versions built without `CONFIG_INT128`.

Model choices.
- Words are `UInt64`, `UInt32` and `Int64`, with the wrap-around of the
  C types. A function that writes through `plow` and `phigh` returns the
  new `(*plow, *phigh)` (and its own result last).
- The `LL` union of `mul64` and `muldiv64_rounding` puts `l.low` on the
  low half of `ll` on either host byte order (the struct lists its
  fields in the order that makes it so): `lo32`/`hi32` read the halves
  and `setLo32`/`setHi32` store into one.
- `udiv_qrnnd` is the generic C version; its two halves repeat one block
  word for word, which is `udivQrnndHalf`. Likewise the two negations of
  a pair in `divs128` are one block, `neg128`.
- A division by zero is undefined in C; `UInt64` division gives 0.
-/
import QemuFormal.Tcg.CarryFold

namespace QemuFormal.HostUtils

/-! ## Halves of a word -/

/-- `l.low`: the low half. -/
def lo32 (x : UInt64) : UInt32 := x.toUInt32

/-- `l.high`: the high half. -/
def hi32 (x : UInt64) : UInt32 := (x >>> 32).toUInt32

/-- `x.l.low = v`. -/
def setLo32 (x : UInt64) (v : UInt32) : UInt64 := (x &&& (0xFFFFFFFF00000000 : UInt64)) ||| v.toUInt64

/-- `x.l.high = v`. -/
def setHi32 (x : UInt64) (v : UInt32) : UInt64 := (x &&& (0xFFFFFFFF : UInt64)) ||| (v.toUInt64 <<< 32)

/-- `clz64`: the leading zeros of a word, 64 for zero. -/
def clz64 (val : UInt64) : Nat := if val = 0 then 64 else 63 - val.toNat.log2

/-- `ctz32(val)`: `val ? __builtin_ctz(val) : 32`, the trailing zeros of a
32-bit word. -/
def ctz32 (val : UInt32) : Nat := if val = 0 then 32 else val.toBitVec.ctz.toNat

/-- `cto32(val)`: `ctz32(~val)`, the trailing ones. -/
def cto32 (val : UInt32) : Nat := ctz32 (~~~val)

/-- `ctz64(val)`: `val ? __builtin_ctzll(val) : 64`. -/
def ctz64 (val : UInt64) : Nat := if val = 0 then 64 else val.toBitVec.ctz.toNat

/-- `cto64(val)`: `ctz64(~val)`, the trailing ones. -/
def cto64 (val : UInt64) : Nat := ctz64 (~~~val)

/-- `ctpop64(val)`: `__builtin_popcountll(val)`, the number of set bits. -/
def ctpop64 (val : UInt64) : Nat := (List.range 64).countP fun j => val.toNat.testBit j

/-- `ctz32` is the index of the lowest set bit, and 32 when there is none. -/
theorem ctz32_spec (val : UInt32) :
    ctz32 val ≤ 32 ∧ (∀ k < ctz32 val, val.toNat.testBit k = false) ∧
      (ctz32 val < 32 → val.toNat.testBit (ctz32 val) = true) := by
  unfold ctz32
  split_ifs with h0
  · subst h0
    exact ⟨le_rfl, fun k _ => Nat.zero_testBit k, fun h => absurd h (Nat.lt_irrefl _)⟩
  · have hx : val.toBitVec ≠ 0#32 := fun h => h0 (UInt32.toBitVec_inj.mp h)
    have hlt : val.toBitVec.ctz.toNat < 32 := by
      have := BitVec.ctz_lt_iff_ne_zero.mpr hx
      rw [BitVec.lt_def] at this
      simpa using this
    exact ⟨hlt.le, fun k hk => BitVec.getLsbD_false_of_lt_ctz hk,
      fun _ => BitVec.getLsbD_true_ctz_of_ne_zero hx⟩

/-- `ctz64` is the index of the lowest set bit, and 64 when there is none. -/
theorem ctz64_spec (val : UInt64) :
    ctz64 val ≤ 64 ∧ (∀ k < ctz64 val, val.toNat.testBit k = false) ∧
      (ctz64 val < 64 → val.toNat.testBit (ctz64 val) = true) := by
  unfold ctz64
  split_ifs with h0
  · subst h0
    exact ⟨le_rfl, fun k _ => Nat.zero_testBit k, fun h => absurd h (Nat.lt_irrefl _)⟩
  · have hx : val.toBitVec ≠ 0#64 := fun h => h0 (UInt64.toBitVec_inj.mp h)
    have hlt : val.toBitVec.ctz.toNat < 64 := by
      have := BitVec.ctz_lt_iff_ne_zero.mpr hx
      rw [BitVec.lt_def] at this
      simpa using this
    exact ⟨hlt.le, fun k hk => BitVec.getLsbD_false_of_lt_ctz hk,
      fun _ => BitVec.getLsbD_true_ctz_of_ne_zero hx⟩

theorem testBit_not_uint32 (val : UInt32) (k : Nat) :
    (~~~val).toNat.testBit k = (decide (k < 32) && !val.toNat.testBit k) := by
  have := BitVec.getLsbD_not (x := val.toBitVec) (i := k)
  simpa [BitVec.getLsbD, UInt32.toBitVec_not] using this

/-- `ctz32` of a word whose bits below `sc` are clear and whose bit `k`
above is `!P k` ends the run of `P` from `sc`. -/
theorem ctz32_run {val : UInt32} {sc : Nat} {P : Nat → Bool} (hsc : sc ≤ 32)
    (hv : ∀ k < 32, val.toNat.testBit k = (decide (sc ≤ k) && !P k)) :
    sc ≤ ctz32 val ∧ ctz32 val ≤ 32 ∧ (∀ k, sc ≤ k → k < ctz32 val → P k = true) ∧
      (ctz32 val < 32 → P (ctz32 val) = false) := by
  obtain ⟨hle, hlow, hbit⟩ := ctz32_spec val
  -- the lowest set bit is not below `sc`, where every bit is clear
  have hsc' : sc ≤ ctz32 val := by
    by_contra h
    have hset := hbit (by omega)
    rw [hv _ (by omega), decide_eq_false (by omega), Bool.false_and] at hset
    exact Bool.false_ne_true hset
  refine ⟨hsc', hle, fun k hk hkc => ?_, fun hc => ?_⟩
  · have hclear := hlow k hkc
    rw [hv k (by omega), decide_eq_true hk, Bool.true_and, Bool.not_eq_false'] at hclear
    exact hclear
  · have hset := hbit hc
    rw [hv _ hc, decide_eq_true hsc', Bool.true_and, Bool.not_eq_true'] at hset
    exact hset

/-- `cto32` of a word whose bits below `sc` are set and whose bit `k` above
is `P k` ends the run of `P` from `sc`. -/
theorem cto32_run {val : UInt32} {sc : Nat} {P : Nat → Bool} (hsc : sc ≤ 32)
    (hv : ∀ k < 32, val.toNat.testBit k = (decide (k < sc) || P k)) :
    sc ≤ cto32 val ∧ cto32 val ≤ 32 ∧ (∀ k, sc ≤ k → k < cto32 val → P k = true) ∧
      (cto32 val < 32 → P (cto32 val) = false) := by
  refine ctz32_run hsc fun k hk => ?_
  rw [testBit_not_uint32, hv k hk, decide_eq_true hk, Bool.true_and, Bool.not_or]
  by_cases h : k < sc
  · simp [h]
  · simp [h, Nat.le_of_not_lt h]

/-! ## Multiplication -/

/-- `mul64(plow, phigh, a, b)`: four 32×32 products and two carries. -/
def mul64 (a b : UInt64) : UInt64 × UInt64 :=
  let rl := (lo32 a).toUInt64 * (lo32 b).toUInt64
  let rm := (lo32 a).toUInt64 * (hi32 b).toUInt64
  let rn := (hi32 a).toUInt64 * (lo32 b).toUInt64
  let rh := (hi32 a).toUInt64 * (hi32 b).toUInt64
  let c := (hi32 rl).toUInt64 + (lo32 rm).toUInt64 + (lo32 rn).toUInt64
  let rl := setHi32 rl c.toUInt32
  let c := c >>> 32
  let c := c + (hi32 rm).toUInt64 + (hi32 rn).toUInt64 + (lo32 rh).toUInt64
  let rh := setLo32 rh c.toUInt32
  let rh := setHi32 rh (hi32 rh + (c >>> 32).toUInt32)
  (rl, rh)

/-- `mulu64`: unsigned 64×64 → 128. -/
def mulu64 (a b : UInt64) : UInt64 × UInt64 := mul64 a b

/-- `muls64`: the unsigned product, with the high word adjusted for a
negative operand. -/
def muls64 (a b : Int64) : UInt64 × UInt64 :=
  let (plow, rh) := mul64 a.toUInt64 b.toUInt64
  let rh := if b < 0 then rh - a.toUInt64 else rh
  let rh := if a < 0 then rh - b.toUInt64 else rh
  (plow, rh)

/-- `mulu128(plow, phigh, factor)`: `(phigh:plow) * factor`, and whether it
was truncated to 128 bits. -/
def mulu128 (plow phigh factor : UInt64) : UInt64 × UInt64 × Bool :=
  let dhi := phigh
  let dlo := plow
  if dhi = 0 then
    let (plow, phigh) := mulu64 dlo factor
    (plow, phigh, false)
  else
    let (plow, ahi) := mulu64 dlo factor
    let (blo, bhi) := mulu64 dhi factor
    -- `uadd64_overflow(ahi, blo, phigh)` stores the sum
    (plow, ahi + blo, Tcg.uadd64Overflow ahi blo || bhi != 0)

/-- `muldiv64_rounding(a, b, c, round_up)`: `a * b / c` through a 96-bit
intermediate, rounded up on request. -/
def muldiv64Rounding (a : UInt64) (b c : UInt32) (roundUp : Bool) : UInt64 :=
  let rl := (lo32 a).toUInt64 * b.toUInt64
  let rl := if roundUp then rl + (c - 1).toUInt64 else rl
  let rh := (hi32 a).toUInt64 * b.toUInt64
  let rh := rh + (rl >>> 32)
  let res := setHi32 0 (rh / c.toUInt64).toUInt32
  setLo32 res ((((rh % c.toUInt64) <<< 32) + (rl &&& (0xffffffff : UInt64))) / c.toUInt64).toUInt32

def muldiv64 (a : UInt64) (b c : UInt32) : UInt64 := muldiv64Rounding a b c false

def muldiv64RoundUp (a : UInt64) (b c : UInt32) : UInt64 := muldiv64Rounding a b c true

/-! ## Division -/

/-- One half of the generic `udiv_qrnnd`: divide `u * 2^32 + digit` by `d`
from the estimate `u / d1`, corrected at most twice. It returns the
quotient digit and the remainder. -/
def udivQrnndHalf (u digit d : UInt64) : UInt64 × UInt64 :=
  let d0 := d.toUInt32.toUInt64
  let d1 := d >>> 32
  let r := u % d1
  let q := u / d1
  let m := q * d0
  let r := (r <<< 32) ||| digit
  let (q, r) :=
    if r < m then
      let q := q - 1
      let r := r + d
      -- `r >= d`: the addition did not wrap
      if r ≥ d then
        if r < m then (q - 1, r + d) else (q, r)
      else (q, r)
    else (q, r)
  (q, r - m)

/-- `udiv_qrnnd(r, n1, n0, d)`: `(n1:n0) / d` and its remainder, for
`n1 < d` and `d` with its top bit set. -/
def udivQrnnd (n1 n0 d : UInt64) : UInt64 × UInt64 :=
  let (q1, r1) := udivQrnndHalf n1 (n0 >>> 32) d
  let (q0, r0) := udivQrnndHalf r1 n0.toUInt32.toUInt64 d
  ((q1 <<< 32) ||| q0, r0)

/-- `divu128(plow, phigh, divisor)`: the quotient in `(phigh:plow)` and
the remainder. -/
def divu128 (plow phigh divisor : UInt64) : UInt64 × UInt64 × UInt64 :=
  let dhi := phigh
  let dlo := plow
  if divisor = 0 ∨ dhi = 0 then (dlo / divisor, 0, dlo % divisor)
  else
    let sh := (clz64 divisor).toUInt64
    if dhi < divisor then
      -- normalize the divisor, shifting the dividend accordingly
      let (divisor, dhi, dlo) :=
        if sh ≠ 0 then (divisor <<< sh, (dhi <<< sh) ||| (dlo >>> (64 - sh)), dlo <<< sh)
        else (divisor, dhi, dlo)
      let (plow, rem) := udivQrnnd dhi dlo divisor
      (plow, 0, rem >>> sh)
    else
      let (phigh, dhi, dlo, divisor) :=
        if sh ≠ 0 then
          let divisor := divisor <<< sh
          let dhighest := dhi >>> (64 - sh)
          let dhi' := (dhi <<< sh) ||| (dlo >>> (64 - sh))
          let dlo := dlo <<< sh
          let (phigh, dhi) := udivQrnnd dhighest dhi' divisor
          (phigh, dhi, dlo, divisor)
        else
          -- the high part of the quotient is 1
          (1, dhi - divisor, dlo, divisor)
      let (plow, rem) := udivQrnnd dhi dlo divisor
      (plow, phigh, rem >>> sh)

/-- The negation of `(hi:lo)` as `divs128` writes it, twice: `-hi` when
`lo = 0` (and `lo` stays 0), otherwise `~hi` and `-lo`. -/
def neg128 (hi lo : UInt64) : UInt64 × UInt64 :=
  if lo = 0 then (0 - hi, lo) else (~~~hi, 0 - lo)

/-- `divs128(plow, phigh, divisor)`: divide the magnitudes, then give the
quotient and the remainder their signs. -/
def divs128 (plow : UInt64) (phigh divisor : Int64) : UInt64 × Int64 × Int64 :=
  let (negQuotient, negRemainder, unsigHi, unsigLo) :=
    if phigh < 0 then
      let (unsigHi, unsigLo) := neg128 phigh.toUInt64 plow
      (true, true, unsigHi, unsigLo)
    else (false, false, phigh.toUInt64, plow)
  let (negQuotient, divisor) := if divisor < 0 then (!negQuotient, -divisor) else (negQuotient, divisor)
  let (unsigLo, unsigHi, rem) := divu128 unsigLo unsigHi divisor.toUInt64
  let (phigh, plow) := if negQuotient then neg128 unsigHi unsigLo else (unsigHi, unsigLo)
  (plow, phigh.toInt64, if negRemainder then (0 - rem).toInt64 else rem.toInt64)

end QemuFormal.HostUtils

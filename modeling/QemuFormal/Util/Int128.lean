/-
QemuFormal.Util.Int128 — the 128-bit integers of `include/qemu/int128.h`
and `util/int128.c`, in both builds.

* Where the compiler has `__int128` (`CONFIG_INT128`), `Int128` is
  `__int128_t`: 128 bits, two's complement, with the signed and unsigned
  readings the C casts choose. It is `BitVec 128`; `int128_rshift` is the
  arithmetic shift of the signed type and `int128_urshift` the logical one.
* Without it, `Int128` is `struct Int128 { uint64_t lo; int64_t hi; }`
  and every operation works on the two halves (`Int128S`, the `…S`
  functions). Division goes through Kanthak's `divrem128`, which uses
  `divu128` and `mulu64` of `host-utils`.

Shift counts are `Nat`, in `[0, 128)` as every caller passes. A division
by zero is undefined in C; the callers exclude it.
-/
import QemuFormal.Util.HostUtils

namespace QemuFormal

open HostUtils

/-! ## `CONFIG_INT128`: `__int128_t` -/

/-- `__int128_t`. -/
abbrev Int128 := BitVec 128

def int128Make64 (a : UInt64) : Int128 := a.toBitVec.setWidth 128

/-- `(__uint128_t)hi << 64 | lo`. -/
def int128Make128 (lo hi : UInt64) : Int128 := hi.toBitVec ++ lo.toBitVec

def int128Getlo (a : Int128) : UInt64 := UInt64.ofBitVec (a.setWidth 64)

/-- `a >> 64` as `int64_t`; callers read it back as `uint64_t`. -/
def int128Gethi (a : Int128) : UInt64 := UInt64.ofBitVec ((a.sshiftRight 64).setWidth 64)

def int128Zero : Int128 := 0

def int128One : Int128 := 1

def int128Not (a : Int128) : Int128 := ~~~a

def int128And (a b : Int128) : Int128 := a &&& b

def int128Or (a b : Int128) : Int128 := a ||| b

def int128Xor (a b : Int128) : Int128 := a ^^^ b

/-- `a >> n` on the signed type: the sign bit is copied in. -/
def int128Rshift (a : Int128) (n : Nat) : Int128 := a.sshiftRight n

/-- `(__uint128_t)a >> n`. -/
def int128Urshift (a : Int128) (n : Nat) : Int128 := a >>> n

def int128Lshift (a : Int128) (n : Nat) : Int128 := a <<< n

def int128Add (a b : Int128) : Int128 := a + b

def int128Neg (a : Int128) : Int128 := -a

def int128Sub (a b : Int128) : Int128 := a - b

def int128Nonneg (a : Int128) : Bool := !a.msb

def int128Eq (a b : Int128) : Bool := a == b

def int128Ge (a b : Int128) : Bool := b.sle a

def int128Uge (a b : Int128) : Bool := b.ule a

def int128Lt (a b : Int128) : Bool := a.slt b

def int128Le (a b : Int128) : Bool := a.sle b

def int128Gt (a b : Int128) : Bool := b.slt a

def int128Ult (a b : Int128) : Bool := a.ult b

def int128Nz (a : Int128) : Bool := a != 0

def clz128 (a : Int128) : Nat :=
  if a.sshiftRight 64 ≠ 0 then clz64 (UInt64.ofBitVec ((a.sshiftRight 64).setWidth 64))
  else if a ≠ 0 then clz64 (UInt64.ofBitVec (a.setWidth 64)) + 64 else 128

/-- `(__uint128_t)a / (__uint128_t)b`. -/
def int128Divu (a b : Int128) : Int128 := a / b

/-- `(__uint128_t)a % (__uint128_t)b`. -/
def int128Remu (a b : Int128) : Int128 := a % b

/-- `a / b` on the signed type: truncating. -/
def int128Divs (a b : Int128) : Int128 := a.sdiv b

/-- `a % b` on the signed type: the sign of `a`. -/
def int128Rems (a b : Int128) : Int128 := a.srem b

/-! ## Without `CONFIG_INT128`: `struct Int128` -/

/-- `struct Int128 { uint64_t lo; int64_t hi; }`. -/
structure Int128S where
  lo : UInt64
  hi : Int64
  deriving DecidableEq

/-- The `__int128_t` with the same bits. -/
def Int128S.toNative (a : Int128S) : Int128 := int128Make128 a.lo a.hi.toUInt64

/-- `x >> k` on `int64_t`: the arithmetic shift of the compilers QEMU
builds with. -/
def sar64 (x : Int64) (k : Nat) : Int64 := Int64.ofBitVec (x.toBitVec.sshiftRight k)

def int128Make64S (a : UInt64) : Int128S := ⟨a, 0⟩

def int128Make128S (lo hi : UInt64) : Int128S := ⟨lo, hi.toInt64⟩

def int128GetloS (a : Int128S) : UInt64 := a.lo

def int128GethiS (a : Int128S) : Int64 := a.hi

def int128ZeroS : Int128S := int128Make64S 0

def int128OneS : Int128S := int128Make64S 1

def int128NotS (a : Int128S) : Int128S := int128Make128S (~~~a.lo) (~~~a.hi).toUInt64

def int128AndS (a b : Int128S) : Int128S := int128Make128S (a.lo &&& b.lo) (a.hi &&& b.hi).toUInt64

def int128OrS (a b : Int128S) : Int128S := int128Make128S (a.lo ||| b.lo) (a.hi ||| b.hi).toUInt64

def int128XorS (a b : Int128S) : Int128S := int128Make128S (a.lo ^^^ b.lo) (a.hi ^^^ b.hi).toUInt64

def int128RshiftS (a : Int128S) (n : Nat) : Int128S :=
  if n = 0 then a
  else
    let h := sar64 a.hi (n % 64)
    if 64 ≤ n then int128Make128S h.toUInt64 (sar64 h 63).toUInt64
    else int128Make128S ((a.lo >>> n.toUInt64) ||| (a.hi.toUInt64 <<< (64 - n).toUInt64)) h.toUInt64

def int128UrshiftS (a : Int128S) (n : Nat) : Int128S :=
  if n = 0 then a
  else
    let h := a.hi.toUInt64 >>> (n % 64).toUInt64
    if 64 ≤ n then int128Make64S h
    else int128Make128S ((a.lo >>> n.toUInt64) ||| (a.hi.toUInt64 <<< (64 - n).toUInt64)) h

/-- `a.hi << n` on `int64_t` wraps as the unsigned shift does. -/
def int128LshiftS (a : Int128S) (n : Nat) : Int128S :=
  let l := a.lo <<< (n % 64).toUInt64
  if 64 ≤ n then int128Make128S 0 l
  else if 0 < n then int128Make128S l ((a.hi.toUInt64 <<< n.toUInt64) ||| (a.lo >>> (64 - n).toUInt64))
  else a

/-- The carry is `lo < a.lo`. -/
def int128AddS (a b : Int128S) : Int128S :=
  let lo := a.lo + b.lo
  int128Make128S lo (a.hi.toUInt64 + b.hi.toUInt64 + if lo < a.lo then 1 else 0)

def int128NegS (a : Int128S) : Int128S :=
  let lo := 0 - a.lo
  int128Make128S lo (~~~a.hi.toUInt64 + if lo = 0 then 1 else 0)

def int128SubS (a b : Int128S) : Int128S :=
  int128Make128S (a.lo - b.lo) (a.hi.toUInt64 - b.hi.toUInt64 - if a.lo < b.lo then 1 else 0)

def int128NonnegS (a : Int128S) : Bool := decide (0 ≤ a.hi)

def int128EqS (a b : Int128S) : Bool := a.lo == b.lo && a.hi == b.hi

def int128GeS (a b : Int128S) : Bool := decide (b.hi < a.hi) || (a.hi == b.hi && decide (b.lo ≤ a.lo))

def int128UgeS (a b : Int128S) : Bool :=
  decide (b.hi.toUInt64 < a.hi.toUInt64) || (a.hi == b.hi && decide (b.lo ≤ a.lo))

def int128LtS (a b : Int128S) : Bool := !int128GeS a b

def int128UltS (a b : Int128S) : Bool := !int128UgeS a b

def int128LeS (a b : Int128S) : Bool := int128GeS b a

def int128GtS (a b : Int128S) : Bool := !int128LeS a b

def int128NzS (a : Int128S) : Bool := a.lo != 0 || a.hi != 0

def clz128S (a : Int128S) : Nat :=
  if a.hi ≠ 0 then clz64 a.hi.toUInt64 else if a.lo ≠ 0 then clz64 a.lo + 64 else 128

/-- The quotient estimate of `divrem128` for a divisor with a non-zero
high word: the top word `hi` of the divisor shifted left by `s`, and the
dividend divided by it, shifted back. The `else` branch takes `hi` off
the dividend's high word first, so that `divu128`'s quotient fits a word,
and puts it back as the `1` above the quotient. -/
def divrem128Estimate (u : Int128S) (hi : UInt64) (s : Nat) : UInt64 :=
  if hi > u.hi.toUInt64 then
    let lo := (divu128 u.lo u.hi.toUInt64 hi).1
    (int128GethiS (int128LshiftS (int128Make128S lo 0) s)).toUInt64
  else
    -- prevent overflow
    let lo := (divu128 u.lo (u.hi.toUInt64 - hi) hi).1
    (int128GethiS (int128LshiftS (int128Make128S lo 1) s)).toUInt64

/-- `divrem128(u, v, &q)`: the remainder, and the quotient stored to `q`. -/
def divrem128 (u v : Int128S) : Int128S × Int128S :=
  let s := clz64 v.hi.toUInt64
  if s = 64 then
    -- `uu ÷ 0v`: `divu128` does it
    let r := divu128 u.lo u.hi.toUInt64 v.lo
    (int128Make128S r.2.2 0, int128Make128S r.1 r.2.1)
  else
    let hi := (int128GethiS (int128LshiftS v s)).toUInt64
    let lo := divrem128Estimate u hi s
    let qq := int128Make64S lo
    let tmp := lo * v.hi.toUInt64
    let p := mulu64 lo v.lo
    let hi := p.2 + tmp
    -- `quotient * divisor >= 2**128 > dividend`, or `> dividend`
    let (qq, lo, hi) :=
      if hi < tmp ∨ hi > u.hi.toUInt64 ∨ (hi = u.hi.toUInt64 ∧ p.1 > u.lo) then
        let qlo := qq.lo - 1
        let p := mulu64 qlo v.lo
        ({ qq with lo := qlo }, p.1, p.2 + qlo * v.hi.toUInt64)
      else (qq, p.1, hi)
    (int128Make128S (u.lo - lo) (u.hi.toUInt64 - (hi + if u.lo < lo then 1 else 0)), qq)

def int128DivuS (a b : Int128S) : Int128S := (divrem128 a b).2

def int128RemuS (a b : Int128S) : Int128S := (divrem128 a b).1

def int128DivsS (a b : Int128S) : Int128S :=
  let sgna := !int128NonnegS a
  let sgnb := !int128NonnegS b
  let a := if sgna then int128NegS a else a
  let b := if sgnb then int128NegS b else b
  let q := (divrem128 a b).2
  if sgna ≠ sgnb then int128NegS q else q

def int128RemsS (a b : Int128S) : Int128S :=
  let sgna := !int128NonnegS a
  let sgnb := !int128NonnegS b
  let a := if sgna then int128NegS a else a
  let b := if sgnb then int128NegS b else b
  let r := (divrem128 a b).1
  if sgna then int128NegS r else r

end QemuFormal

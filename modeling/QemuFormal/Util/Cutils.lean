/-
QemuFormal.Util.Cutils — C-locale character classes and the checked
string-to-integer conversions of `util/cutils.c`.

The libc conversions `strtoll` / `strtoull` / `strtoul` are modelled by
their C standard behaviour in base 10 on an LP64 host (so `long` and
`long long` are 64 bits): skip `isspace`, an optional sign, the longest
run of decimal digits; no digits is "no conversion" with the end pointer
at the start; a value out of range saturates and sets `ERANGE`;
`strtoull` negates a `-` number modulo 2^64. Offsets stand for pointers:
`endOfs` is how many bytes of the string the conversion consumed.

`qemu_strtoi64`, `qemu_strtou64` and `qemu_strtoul` wrap them through
`check_strtox_error`, which turns "no conversion" and (when the caller
passes no end pointer) trailing characters into `-EINVAL`.

`uleb128_encode_small` / `uleb128_decode_small` write and read numbers
below 2^14 in one or two ULEB128 bytes.
-/
import QemuFormal.QObject.Core

namespace QemuFormal

/-! ## C-locale `ctype.h` -/

/-- `isspace`: space, `\t`, `\n`, `\v`, `\f`, `\r`. -/
def cIsspace (c : UInt8) : Bool := c == 0x20 || (0x09 ≤ c && c ≤ 0x0D)

/-- `isdigit`. -/
def cIsdigit (c : UInt8) : Bool := 0x30 ≤ c && c ≤ 0x39

/-- `isalpha`. -/
def cIsalpha (c : UInt8) : Bool := (0x41 ≤ c && c ≤ 0x5A) || (0x61 ≤ c && c ≤ 0x7A)

/-- `isalnum`. -/
def cIsalnum (c : UInt8) : Bool := cIsalpha c || cIsdigit c

/-- `isxdigit`. -/
def cIsxdigit (c : UInt8) : Bool :=
  cIsdigit c || (0x41 ≤ c && c ≤ 0x46) || (0x61 ≤ c && c ≤ 0x66)

/-- The byte at offset `i`, reading past the end as the NUL terminator. -/
def byteAt (s : Bytes) (i : Nat) : UInt8 := s.getD i 0

/-- `strstart(str, val, &ptr)`: the rest of `str` after `val` when `str`
starts with `val`. -/
def strstart : Bytes → Bytes → Option Bytes
  | str, [] => some str
  -- `*p` is the terminating NUL and `*q` is not
  | [], _ :: _ => none
  | p :: str, q :: val => if p = q then strstart str val else none

/-! ## libc conversions, base 10 -/

/-- `EINVAL` and `ERANGE` on Linux. -/
def einval : Int := 22
def erange : Int := 34

/-- The value of a run of decimal digits. -/
def digitsValue (ds : Bytes) : Nat := ds.foldl (fun v d => 10 * v + (d.toNat - 0x30)) 0

/-- The base-10 scan shared by the `strto*` family: whitespace, sign,
digits. `none` when there is no digit ("no conversion"); else whether
the number is negative, its magnitude, and the bytes consumed. -/
def strtoScan (s : Bytes) : Option (Bool × Nat × Nat) :=
  let ws := (s.takeWhile cIsspace).length
  let rest := s.drop ws
  let (neg, signLen) :=
    match rest.head? with
    | some 0x2D => (true, 1)
    | some 0x2B => (false, 1)
    | _ => (false, 0)
  let ds := (rest.drop signLen).takeWhile cIsdigit
  if ds.isEmpty then none else some (neg, digitsValue ds, ws + signLen + ds.length)

/-- What a conversion returns: the value, the end offset, and whether
`errno` was set to `ERANGE`. -/
structure Strto (α : Type) where
  value : α
  endOfs : Nat
  rangeError : Bool

/-- `strtoll(s, &ep, 10)`. -/
def strtoll (s : Bytes) : Strto Int :=
  match strtoScan s with
  | none => ⟨0, 0, false⟩
  | some (neg, m, n) =>
    let v : Int := if neg then -m else m
    if v > 2 ^ 63 - 1 then ⟨2 ^ 63 - 1, n, true⟩
    else if v < -2 ^ 63 then ⟨-2 ^ 63, n, true⟩
    else ⟨v, n, false⟩

/-- `strtoull(s, &ep, 10)`, and `strtoul` on LP64. -/
def strtoull (s : Bytes) : Strto Nat :=
  match strtoScan s with
  | none => ⟨0, 0, false⟩
  | some (neg, m, n) =>
    if m > 2 ^ 64 - 1 then ⟨2 ^ 64 - 1, n, true⟩
    else ⟨if neg then (2 ^ 64 - m) % 2 ^ 64 else m, n, false⟩

/-! ## `util/cutils.c` -/

/-- `check_strtox_error(nptr, ep, endptr, check_zero, libc_errno)`:
the return code and the end offset stored through `endptr` (when
`hasEnd`). The Windows `"0x"` workaround re-reads the string with
`strtol`. -/
def checkStrtoxError (s : Bytes) (ep : Nat) (hasEnd checkZero : Bool) (libcErrno : Int) :
    Int × Nat :=
  let ep :=
    if checkZero && ep == 0 && libcErrno == 0 then
      let r := strtoll s
      if r.value == 0 && !r.rangeError && (byteAt s r.endOfs == 0x78 || byteAt s r.endOfs == 0x58)
      then r.endOfs else ep
    else ep
  if libcErrno == 0 && ep == 0 then (-einval, ep)
  else if !hasEnd && byteAt s ep != 0 then (-einval, ep)
  else (-libcErrno, ep)

/-- A checked conversion's result: return code, value, end offset. -/
structure Checked (α : Type) where
  ret : Int
  value : α
  endOfs : Nat

/-- `qemu_strtoi64(s, hasEnd ? &end : NULL, 10, &result)`. -/
def qemuStrtoi64 (s : Bytes) (hasEnd : Bool) : Checked Int :=
  let r := strtoll s
  let (ret, ep) := checkStrtoxError s r.endOfs hasEnd (r.value == 0) (if r.rangeError then erange else 0)
  ⟨ret, r.value, ep⟩

/-- `qemu_strtou64(s, hasEnd ? &end : NULL, 10, &result)`; on `ERANGE`
the result is forced to `-1`. -/
def qemuStrtou64 (s : Bytes) (hasEnd : Bool) : Checked Nat :=
  let r := strtoull s
  let value := if r.rangeError then 2 ^ 64 - 1 else r.value
  let (ret, ep) := checkStrtoxError s r.endOfs hasEnd (value == 0) (if r.rangeError then erange else 0)
  ⟨ret, value, ep⟩

/-- `qemu_strtoul`: the same as `qemu_strtou64` on LP64. -/
def qemuStrtoul (s : Bytes) (hasEnd : Bool) : Checked Nat := qemuStrtou64 s hasEnd

/-! ## ULEB128 of 14-bit numbers -/

/-- `uleb128_encode_small(out, n)`: the one or two bytes it writes, or
`none` where `g_assert(n <= 0x3fff)` fails. -/
def uleb128EncodeSmall (n : Nat) : Option Bytes :=
  if n ≤ 0x3fff then
    if n < 0x80 then some [UInt8.ofNat n]
    else some [UInt8.ofNat ((n &&& 0x7f) ||| 0x80), UInt8.ofNat (n >>> 7)]
  else none

/-- `uleb128_decode_small(s + i, &n)`: the bytes read and `n`, or `none`
for the `-1` of a number needing a third byte. -/
def uleb128DecodeSmall (s : Bytes) (i : Nat) : Option (Nat × Nat) :=
  if byteAt s i &&& 0x80 = 0 then some (1, (byteAt s i).toNat)
  else if byteAt s (i + 1) &&& 0x80 ≠ 0 then none
  else some (2, (byteAt s i &&& 0x7f).toNat ||| (byteAt s (i + 1)).toNat <<< 7)

end QemuFormal

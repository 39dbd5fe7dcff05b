/-
QemuFormal.Util.Unicode — modified UTF-8, after `util/unicode.c`.

Modified UTF-8 is UTF-8 except that U+0000 is `C0 80`, so an encoded
string never holds a NUL byte. `modUtf8Codepoint` decodes one sequence
(`mod_utf8_codepoint`) and reports how many bytes it read, which is
where `*end` points; `modUtf8Encode` is `mod_utf8_encode`, returning the
bytes it writes before the terminating NUL.

A code point is valid when it is in U+0000..U+10FFFF, not one of the 66
noncharacters, and not a surrogate (`is_valid_codepoint`). Code points
are C `int`s here, hence `Int`: `cvt4hex` and the surrogate-pair logic of
the JSON parser hand `-1` to `mod_utf8_encode`.
-/
import QemuFormal.Util.Cutils

namespace QemuFormal

/-- `is_valid_codepoint`. A negative `int` compares above `0x10FFFFu`
once converted to `unsigned`. -/
def isValidCodepoint (cp : Int) : Bool :=
  if cp < 0 ∨ cp > 0x10FFFF then false
  else if (0xFDD0 ≤ cp ∧ cp ≤ 0xFDEF) ∨ cp.toNat &&& 0xFFFE = 0xFFFE then false
  else if 0xD800 ≤ cp ∧ cp ≤ 0xDFFF then false
  else true

/-- `min_cp[len - 2]`: the least code point that needs `len` bytes. -/
def minCp (len : Nat) : Nat :=
  match len with
  | 2 => 0x80
  | 3 => 0x800
  | 4 => 0x10000
  | 5 => 0x200000
  | _ => 0x4000000

/-- The number of leading one bits of a lead byte (`len` in
`mod_utf8_codepoint`), for a byte in `0xC0..0xFD`. -/
def leadLength (byte : UInt8) : Nat :=
  if byte < 0xE0 then 2 else if byte < 0xF0 then 3 else if byte < 0xF8 then 4
  else if byte < 0xFC then 5 else 6

/-- The continuation loop of `mod_utf8_codepoint`: read `k` more
continuation bytes into `cp`, while at most `n` bytes may be read in all
and `i` have been. `none` when one is missing (`cp = -1`, `*end` after
the bytes read so far), else the code point and the bytes read. -/
def readContinuation (n : Nat) : Nat → Nat → Nat → Bytes → Option Nat × Nat
  | 0, i, cp, _ => (some cp, i)
  | k + 1, i, cp, s =>
    let byte : UInt8 := if i < n then s.headD 0 else 0
    if byte &&& 0xC0 != 0x80 then (none, i)
    else readContinuation n k (i + 1) (cp * 64 + (byte &&& 0x3F).toNat) s.tail

/-- `mod_utf8_codepoint(s, n, &end)`: the code point (or `-1`) and the
number of bytes up to `*end`. -/
def modUtf8Codepoint (s : Bytes) (n : Nat) : Int × Nat :=
  match s with
  | [] => (-1, 0)
  | byte :: rest =>
    if n = 0 ∨ byte = 0 then (-1, 0)
    else if byte < 0x80 then (byte.toNat, 1)
    else if byte ≥ 0xFE then (-1, 1)
    else if byte &&& 0x40 = 0 then (-1, 1)
    else
      let len := leadLength byte
      let lead := (byte &&& ((0x80 >>> len.toUInt8) - 1)).toNat
      match readContinuation n (len - 1) 1 lead rest with
      | (none, i) => (-1, i)
      | (some cp, i) =>
        if !isValidCodepoint cp then (-1, i)
        else if cp < minCp len ∧ ¬(cp = 0 ∧ len = 2) then (-1, i)
        else (cp, i)

/-- `mod_utf8_encode(buf, bufsz, codepoint)`: the bytes written before
the NUL, or `none` for an invalid code point (return value `-1`). -/
def modUtf8Encode (cp : Int) : Option Bytes :=
  if !isValidCodepoint cp then none
  else
    let c := cp.toNat
    if 0 < c ∧ c ≤ 0x7F then some [(c &&& 0x7F).toUInt8]
    else if c ≤ 0x7FF then
      some [(0xC0 ||| ((c >>> 6) &&& 0x1F)).toUInt8, (0x80 ||| (c &&& 0x3F)).toUInt8]
    else if c ≤ 0xFFFF then
      some [(0xE0 ||| ((c >>> 12) &&& 0x0F)).toUInt8, (0x80 ||| ((c >>> 6) &&& 0x3F)).toUInt8,
        (0x80 ||| (c &&& 0x3F)).toUInt8]
    else
      some [(0xF0 ||| ((c >>> 18) &&& 0x07)).toUInt8, (0x80 ||| ((c >>> 12) &&& 0x3F)).toUInt8,
        (0x80 ||| ((c >>> 6) &&& 0x3F)).toUInt8, (0x80 ||| (c &&& 0x3F)).toUInt8]

end QemuFormal

/-
QemuFormal.Net.Checksum — Internet checksums, after `net/checksum.c`.

`net_checksum_add_cont(len, buf, seq)` is taken on the `len` bytes at `buf`
(none when `len ≤ 0`); its sums are `uint32_t`, so `UInt32` here.
`seq` is an `int`, whose parity `seq & 1` is `seq % 2`.
`net_checksum_finish` is its loop, by well-founded recursion on the sum.

`net_checksum_add_iov` walks the elements as in `util/iov.c` (`IoVec` over
memory): `iov_off`, `size` and `csum_offset` are `uint32_t`, `iovec_off`
and `len` are `size_t`, and `len` passes to `net_checksum_add_cont` as an
`int` (`toCInt`).

`net_checksum_calculate(data, length, csum_flag)` is taken on the `length`
bytes at `data`, an `int` for every frame below `2^31` bytes; its blocks
are `netChecksumMacHdrLen` (the `switch` on the Ethernet protocol),
`netChecksumCalculateIpSum` (`CSUM_IP`), `netChecksumCalculateL3` (what
follows) and `netChecksumCalculateL4` (the TCP and UDP cases). Every access goes through a checked load or store
(`ldubP`, `lduwBeP`, `stwBeP`, `stwHeP`, `loadBytes`) that is `none` at an
offset past `length`: a result `none` means the function read or wrote
outside the packet, and up to that access every value it read was in the
packet, so the model follows the C control flow exactly until then.
`length` and `ip_len` are `int`s; comparing them with a `sizeof` converts
them to `size_t` (`toSizeT`). `stw_he_p` is the store of a little-endian
host; both of its calls store `0`, which every byte order writes alike.
The `IP_PROTO_TCP` and `IP_PROTO_UDP` cases differ only in their flag,
header size and checksum offset, and are one definition.
-/
import QemuFormal.Util.Iov
import Mathlib.Algebra.Group.Int.Defs
import Mathlib.Algebra.Group.Nat.Defs

namespace QemuFormal

/-! ## Sums -/

/-- An `int` holding a `size_t` or `uint32_t` value below `2^32`. -/
def toCInt (n : Nat) : Int := (Int32.ofNat n).toInt

/-- An `int` converted to `size_t`. -/
def toSizeT (x : Int) : Nat := (x % 2 ^ 64).toNat

/-- The loop of `net_checksum_add_cont`: the bytes at even offsets are
added to `sum1` and those at odd offsets to `sum2`; an odd last byte goes
to `sum1`. -/
def netChecksumAddContLoop : List UInt8 → UInt32 → UInt32 → UInt32 × UInt32
  | a :: b :: rest, sum1, sum2 => netChecksumAddContLoop rest (sum1 + a.toUInt32) (sum2 + b.toUInt32)
  | [a], sum1, sum2 => (sum1 + a.toUInt32, sum2)
  | [], sum1, sum2 => (sum1, sum2)

/-- `net_checksum_add_cont(len, buf, seq)` on the bytes `buf` at `buf`. -/
def netChecksumAddCont (buf : List UInt8) (seq : Int) : UInt32 :=
  let (sum1, sum2) := netChecksumAddContLoop buf 0 0
  if seq % 2 = 1 then sum1 + (sum2 <<< 8) else sum2 + (sum1 <<< 8)

/-- `net_checksum_add(len, buf)`. -/
def netChecksumAdd (buf : List UInt8) : UInt32 := netChecksumAddCont buf 0

theorem toNat_shiftRight_16 (sum : UInt32) : (sum >>> 16).toNat = sum.toNat / 65536 := by
  rw [UInt32.toNat_shiftRight, Nat.shiftRight_eq_div_pow]
  rfl

theorem toNat_and_0xFFFF (sum : UInt32) : (sum &&& (0xFFFF : UInt32)).toNat = sum.toNat % 65536 := by
  rw [UInt32.toNat_and, show ((0xFFFF : UInt32).toNat) = 2 ^ 16 - 1 from rfl, Nat.and_two_pow_sub_one_eq_mod]

/-- One round of the loop of `net_checksum_finish` on a sum of more than
16 bits makes it smaller. -/
theorem netChecksumFinish_decreasing (sum : UInt32) (h : sum >>> 16 ≠ 0) :
    ((sum &&& (0xFFFF : UInt32)) + (sum >>> 16)).toNat < sum.toNat := by
  have hs : sum.toNat / 65536 ≠ 0 := by
    intro h0
    apply h
    apply UInt32.toNat_inj.mp
    rw [toNat_shiftRight_16, h0]
    rfl
  have hlt := sum.toNat_lt
  have hfit : sum.toNat % 65536 + sum.toNat / 65536 < 2 ^ 32 := by omega
  rw [UInt32.toNat_add, toNat_and_0xFFFF, toNat_shiftRight_16, Nat.mod_eq_of_lt hfit]
  omega

/-- `net_checksum_finish`: fold the carries back until the sum fits in 16
bits, and complement. -/
def netChecksumFinish (sum : UInt32) : UInt16 :=
  if _h : sum >>> 16 ≠ 0 then netChecksumFinish ((sum &&& (0xFFFF : UInt32)) + (sum >>> 16))
  else (~~~sum).toUInt16
termination_by sum.toNat
decreasing_by exact netChecksumFinish_decreasing sum _h

/-- `net_raw_checksum(data, length)`. -/
def netRawChecksum (data : List UInt8) : UInt16 := netChecksumFinish (netChecksumAdd data)

/-- `net_checksum_tcpudp(length, proto, addrs, buf)` on the 8 bytes at
`addrs` and the `length` bytes at `buf`. -/
def netChecksumTcpudp (length proto : UInt16) (addrs buf : List UInt8) : UInt16 :=
  netChecksumFinish (netChecksumAdd buf + netChecksumAdd addrs + (proto.toUInt32 + length.toUInt32))

/-- The loop of `net_checksum_add_iov`, at element `iov` with `iovecOff`
bytes before it. -/
def netChecksumAddIovLoop (mem : Mem) :
    List IoVec → (iovecOff : Nat) → (iovOff size csumOffset res : UInt32) → UInt32
  | [], _, _, _, _, res => res
  | e :: rest, iovecOff, iovOff, size, csumOffset, res =>
    if size = 0 then res
    else if iovOff.toNat < iovecOff + e.len then
      let len := min (iovecOff + e.len - iovOff.toNat) size.toNat
      let chunkBuf := e.base + (iovOff.toNat - iovecOff)
      let res := res + netChecksumAddCont (memRead mem chunkBuf (toCInt len).toNat) (toCInt csumOffset.toNat)
      netChecksumAddIovLoop mem rest (iovecOff + e.len) (iovOff + len.toUInt32) (size - len.toUInt32)
        (csumOffset + len.toUInt32) res
    else netChecksumAddIovLoop mem rest (iovecOff + e.len) iovOff size csumOffset res

/-- `net_checksum_add_iov(iov, iov_cnt, iov_off, size, csum_offset)`. -/
def netChecksumAddIov (mem : Mem) (iov : List IoVec) (iovOff size csumOffset : UInt32) : UInt32 :=
  netChecksumAddIovLoop mem iov 0 iovOff size csumOffset 0

/-! ## Packet accesses -/

/-- `ldub_p(data + i)`. -/
def ldubP (data : List UInt8) (i : Nat) : Option UInt8 := data[i]?

/-- `lduw_be_p(data + i)`. -/
def lduwBeP (data : List UInt8) (i : Nat) : Option UInt16 := do
  let hi ← data[i]?
  let lo ← data[i + 1]?
  pure ((hi.toUInt16 <<< 8) ||| lo.toUInt16)

/-- `stw_be_p(data + i, v)`. -/
def stwBeP (data : List UInt8) (i : Nat) (v : UInt16) : Option (List UInt8) :=
  if i + 1 < data.length then some ((data.set i (v >>> 8).toUInt8).set (i + 1) v.toUInt8) else none

/-- `stw_he_p(data + i, v)`. -/
def stwHeP (data : List UInt8) (i : Nat) (v : UInt16) : Option (List UInt8) :=
  if i + 1 < data.length then some ((data.set i v.toUInt8).set (i + 1) (v >>> 8).toUInt8) else none

/-- The `n` bytes at `data + i`, as a checksum reads them. -/
def loadBytes (data : List UInt8) (i n : Nat) : Option (List UInt8) :=
  if i + n ≤ data.length then some ((data.drop i).take n) else none

def sizeofEthHeader : Nat := 14
def sizeofVlanHeader : Nat := 4
def sizeofIpHeader : Nat := 20
def sizeofTcpHeader : Nat := 20
def sizeofUdpHeader : Nat := 8

def ETH_P_VLAN : UInt16 := 0x8100
def ETH_P_DVLAN : UInt16 := 0x88a8
def IP_PROTO_TCP : UInt8 := 6
def IP_PROTO_UDP : UInt8 := 17
def CSUM_IP : Nat := 0x01
def CSUM_TCP : Nat := 0x02
def CSUM_UDP : Nat := 0x04

/-- `IP_HDR_GET_LEN(ip)`. -/
def ipHdrGetLen (data : List UInt8) (ip : Nat) : Option Nat := do
  let verLen ← ldubP data ip
  pure ((verLen &&& 0x0F).toNat <<< 2)

/-- The `switch` on the Ethernet protocol in `net_checksum_calculate`: the
length of the MAC header. -/
def netChecksumMacHdrLen (data : List UInt8) : Option Nat := do
  let proto ← lduwBeP data 12
  if proto = ETH_P_VLAN then pure (sizeofEthHeader + sizeofVlanHeader)
  else if proto = ETH_P_DVLAN then do
    let inner ← lduwBeP data (sizeofEthHeader + 2)
    if inner = ETH_P_VLAN then pure (sizeofEthHeader + 2 * sizeofVlanHeader)
    else pure (sizeofEthHeader + sizeofVlanHeader)
  else pure sizeofEthHeader

/-- The `CSUM_IP` block of `net_checksum_calculate`. -/
def netChecksumCalculateIpSum (data : List UInt8) (ip : Nat) : Option (List UInt8) := do
  let data ← stwHeP data (ip + 10) 0
  let hl ← ipHdrGetLen data ip
  let hdr ← loadBytes data ip hl
  stwBeP data (ip + 10) (netRawChecksum hdr)

/-- The `IP_PROTO_TCP` and `IP_PROTO_UDP` cases of `net_checksum_calculate`:
`csum` is the flag, `hdrSize` the header's `sizeof` and `sumOff` the offset
of its checksum field; the header is taken at `ip + 1`. -/
def netChecksumCalculateL4 (data : List UInt8) (ip : Nat) (ipLen : Int) (ipP : UInt8)
    (csumFlag csum hdrSize sumOff : Nat) : Option (List UInt8) :=
  if csumFlag &&& csum = 0 then some data
  else
    let l4 := ip + sizeofIpHeader
    if toSizeT ipLen < hdrSize then some data
    else do
      let data ← stwHeP data (l4 + sumOff) 0
      -- `net_checksum_tcpudp` takes `ip_len` as a `uint16_t`
      let length : UInt16 := UInt16.ofNat (ipLen % 2 ^ 16).toNat
      let seg ← loadBytes data l4 length.toNat
      let addrs ← loadBytes data (ip + 12) 8
      stwBeP data (l4 + sumOff) (netChecksumTcpudp length ipP.toUInt16 addrs seg)

/-- `net_checksum_calculate` after its `CSUM_IP` block: the fragment and
length checks and the `switch` on the protocol, for the IPv4 header at
`ip` with `length` bytes of the frame from it. -/
def netChecksumCalculateL3 (data : List UInt8) (ip : Nat) (length : Int) (csumFlag : Nat) : Option (List UInt8) := do
  let ipOff ← lduwBeP data (ip + 6)
  -- `IP4_IS_FRAGMENT(ip)`: `IP_OFFMASK | IP_MF`
  if ipOff &&& 0x3fff ≠ 0 then some data
  else do
    let ipLen ← lduwBeP data (ip + 2)
    if length < ipLen.toNat then some data
    else do
      let hl ← ipHdrGetLen data ip
      let ipLen : Int := ipLen.toNat - hl
      let ipP ← ldubP data (ip + 9)
      if ipP = IP_PROTO_TCP then netChecksumCalculateL4 data ip ipLen ipP csumFlag CSUM_TCP sizeofTcpHeader 16
      else if ipP = IP_PROTO_UDP then netChecksumCalculateL4 data ip ipLen ipP csumFlag CSUM_UDP sizeofUdpHeader 6
      else some data

/-- `net_checksum_calculate(data, length, csum_flag)`: the packet after it,
or `none` when it touches a byte past `length`. -/
def netChecksumCalculate (data : List UInt8) (csumFlag : Nat) : Option (List UInt8) :=
  let length : Int := data.length
  if toSizeT length < sizeofEthHeader then some data
  else do
    let macHdrLen ← netChecksumMacHdrLen data
    let length := length - macHdrLen
    if toSizeT length < sizeofIpHeader then some data
    else do
      let ip := macHdrLen
      let verLen ← ldubP data ip
      -- `IP_HEADER_VERSION(ip) != IP_HEADER_VERSION_4`
      if (verLen >>> 4) &&& 0xf ≠ 4 then some data
      else do
        let data ← if csumFlag &&& CSUM_IP ≠ 0 then netChecksumCalculateIpSum data ip else some data
        netChecksumCalculateL3 data ip length csumFlag

end QemuFormal

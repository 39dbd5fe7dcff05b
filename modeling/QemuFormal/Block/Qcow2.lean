/-
QemuFormal.Block.Qcow2 — the qcow2 L2 entries: how `block/qcow2.h` and
`block/qcow2-cluster.c` classify an entry and its subclusters, how a
compressed cluster's entry is written, and how it is read back.

A standard L2 entry holds a host offset (bits 9 to 55) and flags; a
compressed one holds the host offset in its low `csize_shift` bits and,
above them, the number of 512-byte sectors it spans beyond the first.
An image with extended L2 entries (`has_subclusters`) pairs each entry
with a 64-bit bitmap: bit `i` says subcluster `i` is allocated, bit
`32 + i` that it reads as zeroes.

Model choices.
- `Qcow2State` holds the fields these functions read; `cluster_bits` is
  in `[MIN_CLUSTER_BITS, MAX_CLUSTER_BITS]`, which `qcow2_do_open`
  checks, and the masks are computed from it as `qcow2_do_open` does.
- Entries and bitmaps are `uint64_t`, so `UInt64`. Host offsets,
  `compressed_size` and `nb_csectors` are non-negative and far below
  `2^63` here, so the `int64_t` and `int` arithmetic on them is that of
  `Nat`; `compressed_size` is positive at the only call site.
- A failing `assert` or `g_assert_not_reached` is `none`.
- `qcow2_alloc_compressed_cluster_offset` reads the L2 entry at `offset`
  (`oldL2Entry`) and gets `qcow2_alloc_bytes`'s result (`allocBytes`, an
  offset or a negative errno) as arguments; it returns what it writes to
  the L2 slice and to `*host_offset`.
-/
import QemuFormal.Util.HostUtils
import QemuFormal.Util.Cutils

namespace QemuFormal.Qcow2

open HostUtils

/-- `EIO` on Linux. -/
def eio : Int := 5

/-! ## Constants -/

/-- `QCOW_MAX_CLUSTER_OFFSET`. -/
def qcowMaxClusterOffset : Nat := (1 <<< 56) - 1

def qcowOflagCopied : UInt64 := (1 : UInt64) <<< (63 : UInt64)

def qcowOflagCompressed : UInt64 := (1 : UInt64) <<< (62 : UInt64)

def qcowOflagZero : UInt64 := 1

/-- `QCOW_EXTL2_SUBCLUSTERS_PER_CLUSTER`. -/
def qcowExtl2SubclustersPerCluster : Nat := 32

/-- `QCOW_OFLAG_SUB_ALLOC(X)`: subcluster `X` is allocated. -/
def qcowOflagSubAlloc (x : Nat) : UInt64 := 1 <<< x.toUInt64

/-- `QCOW_OFLAG_SUB_ZERO(X)`: subcluster `X` reads as zeroes. -/
def qcowOflagSubZero (x : Nat) : UInt64 := qcowOflagSubAlloc x <<< 32

/-- `QCOW_OFLAG_SUB_ALLOC_RANGE(X, Y)`: subclusters `[X, Y)` are allocated. -/
def qcowOflagSubAllocRange (x y : Nat) : UInt64 := qcowOflagSubAlloc y - qcowOflagSubAlloc x

/-- `QCOW_OFLAG_SUB_ZERO_RANGE(X, Y)`. -/
def qcowOflagSubZeroRange (x y : Nat) : UInt64 := qcowOflagSubAllocRange x y <<< 32

def qcowL2BitmapAllAlloc : UInt64 := qcowOflagSubAllocRange 0 32

/-- `QCOW2_COMPRESSED_SECTOR_SIZE`. -/
def qcow2CompressedSectorSize : Nat := 512

/-- `L2E_OFFSET_MASK`. -/
def l2eOffsetMask : UInt64 := 0x00fffffffffffe00

/-! ## The image -/

/-- The fields of `BDRVQcow2State` (and of the `BlockDriverState`) that
these functions read. -/
structure Qcow2State where
  clusterBits : Nat
  /-- `has_subclusters(s)`: the image has extended L2 entries. -/
  hasSubclusters : Bool
  /-- `has_data_file(bs)`: the data clusters are in an external file. -/
  hasDataFile : Bool
  clusterBits_ge : 9 ≤ clusterBits
  clusterBits_le : clusterBits ≤ 21

namespace Qcow2State

variable (s : Qcow2State)

def clusterSize : Nat := 1 <<< s.clusterBits

/-- `s->csize_shift = (62 - (s->cluster_bits - 8))`. -/
def csizeShift : Nat := 62 - (s.clusterBits - 8)

/-- `s->csize_mask = (1 << (s->cluster_bits - 8)) - 1`. -/
def csizeMask : Nat := (1 <<< (s.clusterBits - 8)) - 1

/-- `s->cluster_offset_mask = (1LL << s->csize_shift) - 1`. -/
def clusterOffsetMask : Nat := (1 <<< s.csizeShift) - 1

def subclustersPerCluster : Nat := if s.hasSubclusters then qcowExtl2SubclustersPerCluster else 1

end Qcow2State

/-! ## Classifying entries -/

/-- `QCow2ClusterType`. -/
inductive Qcow2ClusterType where
  | unallocated
  | zeroPlain
  | zeroAlloc
  | normal
  | compressed
deriving DecidableEq, Repr

/-- `QCow2SubclusterType`. -/
inductive Qcow2SubclusterType where
  | unallocatedPlain
  | unallocatedAlloc
  | zeroPlain
  | zeroAlloc
  | normal
  | compressed
  | invalid
deriving DecidableEq, Repr

/-- `qcow2_get_cluster_type(bs, l2_entry)`. -/
def qcow2GetClusterType (s : Qcow2State) (l2Entry : UInt64) : Qcow2ClusterType :=
  if l2Entry &&& qcowOflagCompressed ≠ 0 then .compressed
  else if l2Entry &&& qcowOflagZero ≠ 0 ∧ !s.hasSubclusters then
    if l2Entry &&& l2eOffsetMask ≠ 0 then .zeroAlloc else .zeroPlain
  else if l2Entry &&& l2eOffsetMask = 0 then
    -- Offset 0 generally means unallocated, but it is ambiguous with
    -- external data files because 0 is a valid offset there.
    if s.hasDataFile ∧ l2Entry &&& qcowOflagCopied ≠ 0 then .normal else .unallocated
  else .normal

/-- `qcow2_get_subcluster_type(bs, l2_entry, l2_bitmap, sc_index)`; the
check for `.invalid` looks at the whole entry and bitmap. -/
def qcow2GetSubclusterType (s : Qcow2State) (l2Entry l2Bitmap : UInt64) (scIndex : Nat) :
    Option Qcow2SubclusterType :=
  if scIndex < s.subclustersPerCluster then
    if s.hasSubclusters then
      match qcow2GetClusterType s l2Entry with
      | .compressed => some .compressed
      | .normal =>
        if (l2Bitmap >>> 32) &&& l2Bitmap ≠ 0 then some .invalid
        else if l2Bitmap &&& qcowOflagSubZero scIndex ≠ 0 then some .zeroAlloc
        else if l2Bitmap &&& qcowOflagSubAlloc scIndex ≠ 0 then some .normal
        else some .unallocatedAlloc
      | .unallocated =>
        if l2Bitmap &&& qcowL2BitmapAllAlloc ≠ 0 then some .invalid
        else if l2Bitmap &&& qcowOflagSubZero scIndex ≠ 0 then some .zeroPlain
        else some .unallocatedPlain
      | _ => none
    else
      match qcow2GetClusterType s l2Entry with
      | .compressed => some .compressed
      | .zeroPlain => some .zeroPlain
      | .zeroAlloc => some .zeroAlloc
      | .normal => some .normal
      | .unallocated => some .unallocatedPlain
  else none

/-- `qcow2_get_subcluster_range_type(bs, l2_entry, l2_bitmap, sc_from,
&type)`: the number of subclusters from `sc_from` of the type of
`sc_from`, or `-EINVAL`, and `*type`. -/
def qcow2GetSubclusterRangeType (s : Qcow2State) (l2Entry l2Bitmap : UInt64) (scFrom : Nat) :
    Option (Int × Qcow2SubclusterType) :=
  (qcow2GetSubclusterType s l2Entry l2Bitmap scFrom).bind fun type =>
    if type = .invalid then some (-einval, type)
    else if !s.hasSubclusters ∨ type = .compressed then some (s.subclustersPerCluster - scFrom, type)
    else
      match type with
      | .normal =>
        let val : UInt32 := (l2Bitmap ||| qcowOflagSubAllocRange 0 scFrom).toUInt32
        some (cto32 val - scFrom, type)
      | .zeroPlain | .zeroAlloc =>
        let val : UInt32 := ((l2Bitmap ||| qcowOflagSubZeroRange 0 scFrom) >>> 32).toUInt32
        some (cto32 val - scFrom, type)
      | .unallocatedPlain | .unallocatedAlloc =>
        let val : UInt32 := (((l2Bitmap >>> 32) ||| l2Bitmap) &&& ~~~(qcowOflagSubAllocRange 0 scFrom)).toUInt32
        some (ctz32 val - scFrom, type)
      | _ => none

/-! ## Compressed clusters -/

/-- What `qcow2_alloc_compressed_cluster_offset` does: nothing (an
external data file), fail with a negative errno, or write an L2 entry
(and, with subclusters, a zero bitmap) and return the host offset. -/
inductive AllocCompressed where
  | noop
  | error (ret : Int)
  | written (l2Entry : UInt64) (l2Bitmap : Option UInt64) (hostOffset : UInt64)
deriving DecidableEq, Repr

/-- `qcow2_alloc_compressed_cluster_offset(bs, offset, compressed_size,
&host_offset)` past `get_cluster_table`. -/
def qcow2AllocCompressedClusterOffset (s : Qcow2State) (oldL2Entry : UInt64) (allocBytes : Int)
    (compressedSize : Nat) : Option AllocCompressed :=
  if s.hasDataFile then some .noop
  -- Compression can't overwrite anything.
  else if oldL2Entry &&& l2eOffsetMask ≠ 0 then some (.error (-eio))
  else if allocBytes < 0 then some (.error allocBytes)
  else
    let clusterOffset := allocBytes.toNat
    let nbCsectors := (clusterOffset + compressedSize - 1) / qcow2CompressedSectorSize -
      clusterOffset / qcow2CompressedSectorSize
    -- The offset and size must fit in their fields of the L2 table entry
    if clusterOffset &&& s.clusterOffsetMask = clusterOffset ∧ nbCsectors &&& s.csizeMask = nbCsectors then
      let l2Entry := clusterOffset.toUInt64 ||| qcowOflagCompressed ||| (nbCsectors.toUInt64 <<< s.csizeShift.toUInt64)
      some (.written l2Entry (if s.hasSubclusters then some 0 else none) (l2Entry &&& s.clusterOffsetMask.toUInt64))
    else none

/-- `qcow2_parse_compressed_l2_entry(bs, l2_entry, &coffset, &csize)`. -/
def qcow2ParseCompressedL2Entry (s : Qcow2State) (l2Entry : UInt64) : Option (Nat × Nat) :=
  if qcow2GetClusterType s l2Entry = .compressed then
    let coffset := (l2Entry &&& s.clusterOffsetMask.toUInt64).toNat
    let nbCsectors := ((l2Entry >>> s.csizeShift.toUInt64) &&& s.csizeMask.toUInt64).toNat + 1
    some (coffset, nbCsectors * qcow2CompressedSectorSize - (coffset &&& (qcow2CompressedSectorSize - 1)))
  else none

end QemuFormal.Qcow2

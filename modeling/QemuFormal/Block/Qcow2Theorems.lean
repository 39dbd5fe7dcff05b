/-
QemuFormal.Block.Qcow2Theorems — qcow2 L2 entries are written and read
exactly.

* Compressed clusters (`qcow2AllocCompressed_spec`): for every cluster
  size, every compressed size up to a cluster and every host offset that
  fits `cluster_offset_mask`, both assertions of
  `qcow2_alloc_compressed_cluster_offset` hold, and the entry it writes
  is a compressed one from which `qcow2_parse_compressed_l2_entry` reads
  back the offset and the bytes up to the end of the last 512-byte
  sector the data touches.
* Subclusters (`qcow2GetSubclusterRangeType_spec`): the count
  `qcow2_get_subcluster_range_type` returns is `-EINVAL` exactly for an
  invalid entry, and otherwise the length of the maximal run of
  subclusters from `sc_from` whose type is that of `sc_from` (`IsTypeRun`).

## How the proof goes

The compressed entry is, as a number, `o + 2^csize_shift * (2^(cluster_bits
- 8) + nb_csectors)` (`toNat_compressedEntry`): the sector count fits
below the flag at bit 62 because `csize_shift + cluster_bits - 8 = 62` and
a compressed cluster of at most one cluster touches at most
`cluster_size / 512 + 1` sectors (`nbCsectors_lt`). Every read of the
entry is then a division or a remainder of that sum.

For subclusters, `qcow2_get_subcluster_type` is described bit by bit
(`subclusterType_normal`, `subclusterType_unallocated`), and each of the
three `cto32`/`ctz32` counts scans a word whose bits below `sc_from` are
forced and whose bit `k` above is "subcluster `k` has the type"
(`cto32_run`, `ctz32_run`).
-/
import QemuFormal.Block.Qcow2
import QemuFormal.Lib.Bits

namespace QemuFormal.Qcow2

open HostUtils

/-! ## The fields of the image -/

namespace Qcow2State

variable (s : Qcow2State)

/-- The sector count ends where the compressed flag starts. -/
theorem csizeShift_add : s.csizeShift + (s.clusterBits - 8) = 62 := by
  have := s.clusterBits_ge
  have := s.clusterBits_le
  unfold csizeShift
  omega

theorem csizeShift_le : s.csizeShift ≤ 61 := by
  have := s.clusterBits_ge
  have := s.csizeShift_add
  omega

theorem clusterOffsetMask_eq : s.clusterOffsetMask = 2 ^ s.csizeShift - 1 := by
  rw [clusterOffsetMask, Nat.one_shiftLeft]

theorem csizeMask_eq : s.csizeMask = 2 ^ (s.clusterBits - 8) - 1 := by
  rw [csizeMask, Nat.one_shiftLeft]

theorem clusterSize_eq : s.clusterSize = 2 ^ s.clusterBits := by
  rw [clusterSize, Nat.one_shiftLeft]

end Qcow2State

/-! ## Compressed clusters -/

theorem toNat_toUInt64_of_lt {n : Nat} (h : n < 2 ^ 64) : n.toUInt64.toNat = n :=
  UInt64.toNat_ofNat'.trans (Nat.mod_eq_of_lt h)

/-- A compressed cluster of at most a cluster touches at most
`cluster_size / 512 + 1` sectors, so `nb_csectors` (one less) fits in
`csize_mask`. -/
theorem nbCsectors_lt (s : Qcow2State) {o cs : Nat} (hcs : cs ≤ s.clusterSize) :
    (o + cs - 1) / 512 - o / 512 < 2 ^ (s.clusterBits - 8) := by
  have hge := s.clusterBits_ge
  -- with `P = 2^(cluster_bits - 9)`: a cluster is `512 P` bytes, the bound `2 P`
  have hcluster : s.clusterSize = 512 * 2 ^ (s.clusterBits - 9) := by
    rw [s.clusterSize_eq, show s.clusterBits = 9 + (s.clusterBits - 9) by omega, Nat.pow_add]
    simp
  have hbound : 2 ^ (s.clusterBits - 8) = 2 * 2 ^ (s.clusterBits - 9) := by
    rw [show s.clusterBits - 8 = s.clusterBits - 9 + 1 by omega, Nat.pow_succ, Nat.mul_comm]
  have hP := Nat.one_le_two_pow (n := s.clusterBits - 9)
  rw [hbound]
  omega

/-- The entry of a compressed cluster at `o` spanning `nb + 1` sectors, as a
number: `o`, the sector count above it, and the flag at bit 62. -/
theorem toNat_compressedEntry (s : Qcow2State) {o nb : Nat} (ho : o < 2 ^ s.csizeShift)
    (hnb : nb < 2 ^ (s.clusterBits - 8)) :
    (o.toUInt64 ||| qcowOflagCompressed ||| (nb.toUInt64 <<< s.csizeShift.toUInt64)).toNat =
      2 ^ s.csizeShift * (2 ^ (s.clusterBits - 8) + nb) + o := by
  have hsum := s.csizeShift_add
  have hsh := s.csizeShift_le
  have hpow : 2 ^ (s.clusterBits - 8) * 2 ^ s.csizeShift = 2 ^ 62 := by
    rw [← Nat.pow_add, Nat.add_comm, hsum]
  have ho64 : o < 2 ^ 64 := lt_of_lt_of_le ho (Nat.pow_le_pow_right (by decide) (by omega))
  -- the sector count ends below the flag
  have hlow : nb * 2 ^ s.csizeShift < 2 ^ 62 := by
    rw [← hpow]
    exact Nat.mul_lt_mul_of_pos_right hnb (Nat.two_pow_pos _)
  have hnb64 : nb * 2 ^ s.csizeShift < 2 ^ 64 := lt_trans hlow (by decide)
  have hnb' : nb < 2 ^ 64 := lt_of_le_of_lt (Nat.le_mul_of_pos_right nb (Nat.two_pow_pos _)) hnb64
  have hflag : qcowOflagCompressed.toNat = 2 ^ 62 := rfl
  rw [UInt64.toNat_or, UInt64.toNat_or, hflag, UInt64.toNat_shiftLeft, toNat_toUInt64_of_lt ho64,
    toNat_toUInt64_of_lt hnb', toNat_toUInt64_of_lt (show s.csizeShift < 2 ^ 64 by omega),
    Nat.mod_eq_of_lt (show s.csizeShift < 64 by omega)]
  -- the flag and the sector count are disjoint bits above the offset
  have hhigh : 2 ^ s.csizeShift * (2 ^ (s.clusterBits - 8) + nb) = 2 ^ 62 * 1 ||| nb * 2 ^ s.csizeShift := by
    rw [← Nat.two_pow_add_eq_or_of_lt hlow 1, ← hpow]
    ring
  rw [Nat.shiftLeft_eq, Nat.mod_eq_of_lt hnb64, Nat.two_pow_add_eq_or_of_lt ho, hhigh, Nat.mul_one]
  ac_rfl

/-! Reading a compressed entry back: `e` is an entry whose value is that of
`toNat_compressedEntry`. -/

section CompressedEntry

variable (s : Qcow2State) {e : UInt64} {o nb : Nat}

theorem testBit_compressedEntry_62 (ho : o < 2 ^ s.csizeShift) (hnb : nb < 2 ^ (s.clusterBits - 8))
    (he : e.toNat = 2 ^ s.csizeShift * (2 ^ (s.clusterBits - 8) + nb) + o) :
    e.toNat.testBit 62 = true := by
  have hsum := s.csizeShift_add
  -- bit 62 is bit `cluster_bits - 8` of the high part, the `1` above the sector count
  rw [he, Nat.testBit_two_pow_mul_add _ ho, if_neg (by omega), show 62 - s.csizeShift = s.clusterBits - 8 by omega,
    ← Nat.mul_one (2 ^ (s.clusterBits - 8)), Nat.testBit_two_pow_mul_add _ hnb, if_neg (Nat.lt_irrefl _), Nat.sub_self]
  rfl

theorem qcow2GetClusterType_compressedEntry (ho : o < 2 ^ s.csizeShift)
    (hnb : nb < 2 ^ (s.clusterBits - 8))
    (he : e.toNat = 2 ^ s.csizeShift * (2 ^ (s.clusterBits - 8) + nb) + o) :
    qcow2GetClusterType s e = .compressed := by
  have h62 := testBit_compressedEntry_62 s ho hnb he
  rw [qcow2GetClusterType, if_pos]
  intro h
  have h0 := congrArg UInt64.toNat h
  rw [UInt64.toNat_and, show qcowOflagCompressed.toNat = 2 ^ 62 from rfl, Nat.and_two_pow, h62] at h0
  simp at h0

/-- `*coffset = l2_entry & s->cluster_offset_mask` is the offset. -/
theorem offset_compressedEntry (ho : o < 2 ^ s.csizeShift)
    (he : e.toNat = 2 ^ s.csizeShift * (2 ^ (s.clusterBits - 8) + nb) + o) :
    (e &&& s.clusterOffsetMask.toUInt64).toNat = o := by
  have hsh : 2 ^ s.csizeShift ≤ 2 ^ 61 := Nat.pow_le_pow_right (by decide) s.csizeShift_le
  rw [UInt64.toNat_and, s.clusterOffsetMask_eq, toNat_toUInt64_of_lt (by omega),
    Nat.and_two_pow_sub_one_eq_mod, he, Nat.mul_add_mod, Nat.mod_eq_of_lt ho]

/-- `(l2_entry >> s->csize_shift) & s->csize_mask` is the sector count. -/
theorem sectors_compressedEntry (ho : o < 2 ^ s.csizeShift) (hnb : nb < 2 ^ (s.clusterBits - 8))
    (he : e.toNat = 2 ^ s.csizeShift * (2 ^ (s.clusterBits - 8) + nb) + o) :
    ((e >>> s.csizeShift.toUInt64) &&& s.csizeMask.toUInt64).toNat = nb := by
  have hsh := s.csizeShift_le
  have hmask : 2 ^ (s.clusterBits - 8) ≤ 2 ^ 13 :=
    Nat.pow_le_pow_right (by decide) (by have := s.clusterBits_le; omega)
  rw [UInt64.toNat_and, UInt64.toNat_shiftRight, toNat_toUInt64_of_lt (by omega),
    Nat.mod_eq_of_lt (show s.csizeShift < 64 by omega), s.csizeMask_eq, toNat_toUInt64_of_lt (by omega),
    Nat.and_two_pow_sub_one_eq_mod, Nat.shiftRight_eq_div_pow, he, Nat.mul_add_div (Nat.two_pow_pos _),
    Nat.div_eq_of_lt ho, Nat.add_zero, Nat.add_mod_left, Nat.mod_eq_of_lt hnb]

end CompressedEntry

/-- The compressed entry round trip: for every cluster size, every
compressed size up to a cluster and every offset that fits
`cluster_offset_mask`, `qcow2_alloc_compressed_cluster_offset` never fails
an assertion, and when it writes, it writes a compressed entry from which
`qcow2_parse_compressed_l2_entry` reads the offset and the bytes up to the
end of the last 512-byte sector the data touches. -/
theorem qcow2AllocCompressed_spec (s : Qcow2State) (oldL2Entry : UInt64) {o cs : Nat}
    (hcs : 1 ≤ cs) (hcs' : cs ≤ s.clusterSize) (ho : o ≤ s.clusterOffsetMask) :
    qcow2AllocCompressedClusterOffset s oldL2Entry o cs ≠ none ∧
      (s.hasDataFile = false → oldL2Entry &&& l2eOffsetMask = 0 →
        ∃ l2Entry, qcow2AllocCompressedClusterOffset s oldL2Entry o cs =
            some (.written l2Entry (if s.hasSubclusters then some 0 else none) o.toUInt64) ∧
          qcow2GetClusterType s l2Entry = .compressed ∧
          ∃ csize, qcow2ParseCompressedL2Entry s l2Entry = some (o, csize) ∧
            o + csize = ((o + cs - 1) / qcow2CompressedSectorSize + 1) * qcow2CompressedSectorSize) := by
  have ho' : o < 2 ^ s.csizeShift := by
    have := s.clusterOffsetMask_eq
    have := Nat.two_pow_pos s.csizeShift
    omega
  have hnb := nbCsectors_lt s (o := o) hcs'
  -- both assertions: the offset and the sector count fit their masks
  have hfit1 : o &&& s.clusterOffsetMask = o := by
    rw [s.clusterOffsetMask_eq, Nat.and_two_pow_sub_one_eq_mod, Nat.mod_eq_of_lt ho']
  have hfit2 : ((o + cs - 1) / 512 - o / 512) &&& s.csizeMask = (o + cs - 1) / 512 - o / 512 := by
    rw [s.csizeMask_eq, Nat.and_two_pow_sub_one_eq_mod, Nat.mod_eq_of_lt hnb]
  have he := toNat_compressedEntry s ho' hnb
  have ho64 : o < 2 ^ 64 :=
    lt_of_lt_of_le ho' (Nat.pow_le_pow_right (by decide) (by have := s.csizeShift_le; omega))
  have hhost : (o.toUInt64 ||| qcowOflagCompressed |||
      (((o + cs - 1) / 512 - o / 512).toUInt64 <<< s.csizeShift.toUInt64)) &&& s.clusterOffsetMask.toUInt64 =
      o.toUInt64 :=
    UInt64.toNat_inj.mp (by rw [offset_compressedEntry s ho' he, toNat_toUInt64_of_lt ho64])
  have hwritten : s.hasDataFile = false → oldL2Entry &&& l2eOffsetMask = 0 →
      qcow2AllocCompressedClusterOffset s oldL2Entry o cs =
        some (.written (o.toUInt64 ||| qcowOflagCompressed |||
          (((o + cs - 1) / 512 - o / 512).toUInt64 <<< s.csizeShift.toUInt64))
          (if s.hasSubclusters then some 0 else none) o.toUInt64) := by
    intro hdf hold
    simp only [qcow2AllocCompressedClusterOffset, hdf, hold, qcow2CompressedSectorSize, Int.toNat_natCast,
      hfit1, hfit2, hhost]
    simp
  refine ⟨?_, fun hdf hold => ⟨_, hwritten hdf hold, qcow2GetClusterType_compressedEntry s ho' hnb he, ?_⟩⟩
  · -- the other paths return before the assertions
    cases hdf : s.hasDataFile
    · by_cases hold : oldL2Entry &&& l2eOffsetMask = 0
      · simp [hwritten hdf hold]
      · simp [qcow2AllocCompressedClusterOffset, hdf, hold]
    · simp [qcow2AllocCompressedClusterOffset, hdf]
  · refine ⟨((o + cs - 1) / 512 - o / 512 + 1) * qcow2CompressedSectorSize -
      (o &&& (qcow2CompressedSectorSize - 1)), ?_, ?_⟩
    · simp only [qcow2ParseCompressedL2Entry, qcow2GetClusterType_compressedEntry s ho' hnb he,
        offset_compressedEntry s ho' he, sectors_compressedEntry s ho' hnb he, if_true]
    · -- `o & 511` is the offset into its sector
      rw [show qcow2CompressedSectorSize - 1 = 2 ^ 9 - 1 from rfl, Nat.and_two_pow_sub_one_eq_mod,
        qcow2CompressedSectorSize]
      omega

/-! ## The subcluster bitmap

Bit `i` of the bitmap is `QCOW_OFLAG_SUB_ALLOC(i)`, bit `32 + i` is
`QCOW_OFLAG_SUB_ZERO(i)`. -/

open Bits

theorem bit_one (j : Nat) : bit 1 j = decide (j = 0) := by
  rw [bit_eq_testBit, show (1 : UInt64).toNat = 2 ^ 0 from rfl, Nat.testBit_two_pow]
  exact decide_eq_decide.mpr eq_comm

theorem bit_qcowOflagSubAlloc {x : Nat} (hx : x < 64) (j : Nat) :
    bit (qcowOflagSubAlloc x) j = decide (j = x) := by
  rw [qcowOflagSubAlloc, bit_shiftLeft _ _ (by rw [toNat_toUInt64_of_lt (by omega)]; exact hx),
    toNat_toUInt64_of_lt (by omega), bit_one]
  by_cases hj : j = x
  · simp [hj, hx]
  · simp only [hj, decide_false, Bool.and_eq_false_iff, decide_eq_false_iff_not]
    omega

theorem bit_qcowOflagSubZero {x : Nat} (hx : x < 32) (j : Nat) :
    bit (qcowOflagSubZero x) j = decide (j = 32 + x) := by
  rw [qcowOflagSubZero, bit_shiftLeft _ _ (by decide), bit_qcowOflagSubAlloc (by omega),
    show (32 : UInt64).toNat = 32 from rfl]
  by_cases hj : j = 32 + x
  · simp [hj]
    omega
  · simp only [hj, decide_false, Bool.and_eq_false_iff, decide_eq_false_iff_not]
    omega

theorem bit_qcowOflagSubAllocRange_zero {y : Nat} (hy : y ≤ 32) (j : Nat) :
    bit (qcowOflagSubAllocRange 0 y) j = decide (j < y) := by
  have hy' : y.toUInt64.toNat = y := toNat_toUInt64_of_lt (by omega)
  rw [qcowOflagSubAllocRange, qcowOflagSubAlloc, qcowOflagSubAlloc,
    show (1 : UInt64) <<< (0 : Nat).toUInt64 = 1 from rfl, bit_lowMask _ (by omega), hy']

theorem bit_qcowOflagSubZeroRange_zero {y : Nat} (hy : y ≤ 32) (j : Nat) :
    bit (qcowOflagSubZeroRange 0 y) j = decide (32 ≤ j ∧ j < 32 + y) := by
  rw [qcowOflagSubZeroRange, bit_shiftLeft _ _ (by decide), bit_qcowOflagSubAllocRange_zero hy]
  rw [show (32 : UInt64).toNat = 32 from rfl, ← Bool.decide_and, ← Bool.decide_and]
  exact decide_eq_decide.mpr (by omega)

theorem bit_qcowL2BitmapAllAlloc (j : Nat) : bit qcowL2BitmapAllAlloc j = decide (j < 32) :=
  bit_qcowOflagSubAllocRange_zero le_rfl j

/-- A test against a single-bit mask reads that bit. -/
theorem and_ne_zero_iff_of_single {w m : UInt64} {x : Nat} (hx : x < 64) (hm : ∀ j, bit m j = decide (j = x)) :
    w &&& m ≠ 0 ↔ bit w x = true := by
  rw [ne_zero_iff_exists_bit]
  constructor
  · rintro ⟨j, -, hj⟩
    rw [bit_and, hm, Bool.and_eq_true, decide_eq_true_iff] at hj
    exact hj.2 ▸ hj.1
  · intro hw
    exact ⟨x, hx, by rw [bit_and, hm, hw]; simp⟩

/-- `(l2_bitmap >> 32) & l2_bitmap`: some subcluster is both allocated and zero. -/
theorem shiftRight_and_ne_zero_iff (b : UInt64) :
    (b >>> 32) &&& b ≠ 0 ↔ ∃ k < 32, bit b (32 + k) = true ∧ bit b k = true := by
  rw [ne_zero_iff_exists_bit]
  constructor
  · rintro ⟨k, hk, hb⟩
    rw [bit_and, bit_shiftRight _ _ (by decide), Bool.and_eq_true] at hb
    refine ⟨k, ?_, hb⟩
    by_contra hge
    rw [bit_of_ge (by simp; omega)] at hb
    exact Bool.false_ne_true hb.1
  · rintro ⟨k, hk, hz, ha⟩
    exact ⟨k, by omega, by rw [bit_and, bit_shiftRight _ _ (by decide)]; simp [hz, ha]⟩

/-- `l2_bitmap & QCOW_L2_BITMAP_ALL_ALLOC`: some subcluster is allocated. -/
theorem and_allAlloc_ne_zero_iff (b : UInt64) :
    b &&& qcowL2BitmapAllAlloc ≠ 0 ↔ ∃ k < 32, bit b k = true := by
  rw [ne_zero_iff_exists_bit]
  constructor
  · rintro ⟨k, -, hb⟩
    rw [bit_and, bit_qcowL2BitmapAllAlloc, Bool.and_eq_true, decide_eq_true_iff] at hb
    exact ⟨k, hb.2, hb.1⟩
  · rintro ⟨k, hk, ha⟩
    exact ⟨k, by omega, by rw [bit_and, bit_qcowL2BitmapAllAlloc, ha, decide_eq_true hk, Bool.and_true]⟩

/-! ## Subcluster types -/

section SubclusterType

variable (s : Qcow2State) (e b : UInt64)

theorem subclustersPerCluster_of_subclusters {s : Qcow2State} (hsub : s.hasSubclusters = true) :
    s.subclustersPerCluster = 32 := by
  simp [Qcow2State.subclustersPerCluster, hsub, qcowExtl2SubclustersPerCluster]

/-- With extended L2 entries the zero flag is a plain bit, so a cluster is
compressed, normal or unallocated. -/
theorem qcow2GetClusterType_of_subclusters (hsub : s.hasSubclusters = true) :
    qcow2GetClusterType s e = .compressed ∨ qcow2GetClusterType s e = .normal ∨
      qcow2GetClusterType s e = .unallocated := by
  unfold qcow2GetClusterType
  split_ifs <;> simp_all

theorem subclusterType_compressed (hc : qcow2GetClusterType s e = .compressed) {i : Nat}
    (hi : i < s.subclustersPerCluster) : qcow2GetSubclusterType s e b i = some .compressed := by
  cases hsub : s.hasSubclusters <;> simp [qcow2GetSubclusterType, hi, hsub, hc]

/-- Without extended L2 entries the one subcluster has the cluster's type,
which is never invalid. -/
theorem subclusterType_of_not_subclusters (hsub : s.hasSubclusters = false) :
    ∃ t, qcow2GetSubclusterType s e b 0 = some t ∧ t ≠ .invalid := by
  have h0 : 0 < s.subclustersPerCluster := by simp [Qcow2State.subclustersPerCluster, hsub]
  cases hc : qcow2GetClusterType s e <;> simp [qcow2GetSubclusterType, h0, hsub, hc]

/-- A normal cluster with extended L2 entries and no subcluster both
allocated and zero: subcluster `i` is read from its two bits. -/
theorem subclusterType_normal (hsub : s.hasSubclusters = true) (hc : qcow2GetClusterType s e = .normal)
    (hvalid : ∀ k < 32, ¬(bit b (32 + k) = true ∧ bit b k = true)) {i : Nat} (hi : i < 32) :
    qcow2GetSubclusterType s e b i =
      some (if bit b (32 + i) then .zeroAlloc else if bit b i then .normal else .unallocatedAlloc) := by
  have hinv : ¬((b >>> 32) &&& b ≠ 0) := fun h =>
    let ⟨k, hk, hza⟩ := (shiftRight_and_ne_zero_iff b).mp h
    hvalid k hk hza
  simp only [qcow2GetSubclusterType, subclustersPerCluster_of_subclusters hsub, if_pos hi, hsub, hc,
    if_neg hinv, and_ne_zero_iff_of_single (by omega : 32 + i < 64) (bit_qcowOflagSubZero hi),
    and_ne_zero_iff_of_single (by omega : i < 64) (bit_qcowOflagSubAlloc (by omega)), if_true]
  split_ifs <;> rfl

theorem subclusterType_normal_invalid (hsub : s.hasSubclusters = true) (hc : qcow2GetClusterType s e = .normal)
    (hinv : ∃ k < 32, bit b (32 + k) = true ∧ bit b k = true) {i : Nat} (hi : i < 32) :
    qcow2GetSubclusterType s e b i = some .invalid := by
  simp only [qcow2GetSubclusterType, subclustersPerCluster_of_subclusters hsub, if_pos hi, hsub, hc,
    if_pos ((shiftRight_and_ne_zero_iff b).mpr hinv), if_true]

/-- An unallocated cluster with extended L2 entries and no subcluster
allocated: subcluster `i` is read from its zero bit. -/
theorem subclusterType_unallocated (hsub : s.hasSubclusters = true)
    (hc : qcow2GetClusterType s e = .unallocated) (hvalid : ∀ k < 32, bit b k = false) {i : Nat} (hi : i < 32) :
    qcow2GetSubclusterType s e b i = some (if bit b (32 + i) then .zeroPlain else .unallocatedPlain) := by
  have hinv : ¬(b &&& qcowL2BitmapAllAlloc ≠ 0) := fun h =>
    let ⟨k, hk, ha⟩ := (and_allAlloc_ne_zero_iff b).mp h
    Bool.false_ne_true ((hvalid k hk).symm.trans ha)
  simp only [qcow2GetSubclusterType, subclustersPerCluster_of_subclusters hsub, if_pos hi, hsub, hc,
    if_neg hinv, and_ne_zero_iff_of_single (by omega : 32 + i < 64) (bit_qcowOflagSubZero hi), if_true]
  split_ifs <;> rfl

theorem subclusterType_unallocated_invalid (hsub : s.hasSubclusters = true)
    (hc : qcow2GetClusterType s e = .unallocated) (hinv : ∃ k < 32, bit b k = true) {i : Nat} (hi : i < 32) :
    qcow2GetSubclusterType s e b i = some .invalid := by
  simp only [qcow2GetSubclusterType, subclustersPerCluster_of_subclusters hsub, if_pos hi, hsub, hc,
    if_pos ((and_allAlloc_ne_zero_iff b).mpr hinv), if_true]

end SubclusterType

/-! ## Runs of subclusters -/

/-- The subclusters `[scFrom, scFrom + n)` all have the type of `scFrom`, and
the run is maximal: it reaches the end of the cluster or a subcluster of
another type. -/
def IsTypeRun (s : Qcow2State) (l2Entry l2Bitmap : UInt64) (scFrom n : Nat) : Prop :=
  scFrom + n ≤ s.subclustersPerCluster ∧
    (∀ i, scFrom ≤ i → i < scFrom + n →
      qcow2GetSubclusterType s l2Entry l2Bitmap i = qcow2GetSubclusterType s l2Entry l2Bitmap scFrom) ∧
    (scFrom + n < s.subclustersPerCluster →
      qcow2GetSubclusterType s l2Entry l2Bitmap (scFrom + n) ≠ qcow2GetSubclusterType s l2Entry l2Bitmap scFrom)

theorem testBit_toUInt32 (w : UInt64) {k : Nat} (hk : k < 32) : w.toUInt32.toNat.testBit k = bit w k := by
  rw [UInt64.toNat_toUInt32, Nat.testBit_mod_two_pow, bit_eq_testBit]
  simp [hk]

section Runs

variable {s : Qcow2State} {e b : UInt64} {sc : Nat}

/-- A run of a predicate that holds exactly at the subclusters of the type
of `sc`, from `sc` up to `c`, is a maximal run of that type. -/
theorem isTypeRun_of_run (hsub : s.hasSubclusters = true) {P : Nat → Bool} {c : Nat}
    (hP : ∀ k < 32, P k = true ↔ qcow2GetSubclusterType s e b k = qcow2GetSubclusterType s e b sc)
    (hrun : sc ≤ c ∧ c ≤ 32 ∧ (∀ k, sc ≤ k → k < c → P k = true) ∧ (c < 32 → P c = false)) :
    IsTypeRun s e b sc (c - sc) := by
  obtain ⟨hsc, hc, hin, hend⟩ := hrun
  rw [IsTypeRun, subclustersPerCluster_of_subclusters hsub, Nat.add_sub_cancel' hsc]
  refine ⟨hc, fun k hk hkc => (hP k (by omega)).mp (hin k hk hkc), fun hc' heq => ?_⟩
  have hPc := (hP c hc').mpr heq
  rw [hend hc'] at hPc
  exact Bool.false_ne_true hPc

/-- The word `cto32` scans for a normal subcluster: the allocation bits,
with those below `sc` set. -/
theorem testBit_normalWord (hsc : sc ≤ 32) {k : Nat} (hk : k < 32) :
    (b ||| qcowOflagSubAllocRange 0 sc).toUInt32.toNat.testBit k = (decide (k < sc) || bit b k) := by
  rw [testBit_toUInt32 _ hk, bit_or, bit_qcowOflagSubAllocRange_zero hsc, Bool.or_comm]

/-- The word `cto32` scans for a zero subcluster: the zero bits, with those
below `sc` set. -/
theorem testBit_zeroWord (hsc : sc ≤ 32) {k : Nat} (hk : k < 32) :
    ((b ||| qcowOflagSubZeroRange 0 sc) >>> 32).toUInt32.toNat.testBit k = (decide (k < sc) || bit b (32 + k)) := by
  rw [testBit_toUInt32 _ hk, bit_shiftRight _ _ (by decide), show (32 : UInt64).toNat = 32 from rfl, bit_or,
    bit_qcowOflagSubZeroRange_zero hsc, Bool.or_comm]
  exact congrArg (· || _) (decide_eq_decide.mpr (by omega))

/-- The word `ctz32` scans for an unallocated subcluster: the subclusters
allocated or zero, with those below `sc` cleared. -/
theorem testBit_unallocatedWord (hsc : sc ≤ 32) {k : Nat} (hk : k < 32) :
    (((b >>> 32) ||| b) &&& ~~~(qcowOflagSubAllocRange 0 sc)).toUInt32.toNat.testBit k =
      (decide (sc ≤ k) && !!(bit b (32 + k) || bit b k)) := by
  rw [testBit_toUInt32 _ hk, bit_and, bit_or, bit_shiftRight _ _ (by decide), bit_not,
    bit_qcowOflagSubAllocRange_zero hsc, show (32 : UInt64).toNat = 32 from rfl, Bool.not_not]
  by_cases h : sc ≤ k
  · simp [h, Nat.not_lt.mpr h, show k < 64 by omega]
  · simp [h, Nat.lt_of_not_le h]

/-- A normal subcluster of a valid normal cluster: `cto32` counts the
allocated subclusters from `sc`. -/
theorem rangeType_run_normal (hsub : s.hasSubclusters = true) (hc : qcow2GetClusterType s e = .normal)
    (hvalid : ∀ k < 32, ¬(bit b (32 + k) = true ∧ bit b k = true)) (hsc : sc < 32)
    (hz : bit b (32 + sc) = false) (ha : bit b sc = true) :
    ∃ n : Nat, qcow2GetSubclusterRangeType s e b sc = some ((n : Int), .normal) ∧ IsTypeRun s e b sc n := by
  have hty := fun i (hi : i < 32) => subclusterType_normal s e b hsub hc hvalid hi
  have hrun := cto32_run (P := fun k => bit b k) hsc.le fun k hk => testBit_normalWord hsc.le hk
  refine ⟨_, ?_, isTypeRun_of_run hsub (fun k hk => ?_) hrun⟩
  · rw [Nat.cast_sub hrun.1]
    simp [qcow2GetSubclusterRangeType, hty sc hsc, hz, ha, hsub]
  · -- valid: an allocated subcluster is not zero, so it is normal
    have hk' := hvalid k hk
    rw [hty k hk, hty sc hsc, hz, ha]
    revert hk'
    cases bit b (32 + k) <;> cases bit b k <;> simp

/-- A zero subcluster of a valid normal cluster: `cto32` counts the zero
subclusters from `sc`. -/
theorem rangeType_run_zeroAlloc (hsub : s.hasSubclusters = true) (hc : qcow2GetClusterType s e = .normal)
    (hvalid : ∀ k < 32, ¬(bit b (32 + k) = true ∧ bit b k = true)) (hsc : sc < 32)
    (hz : bit b (32 + sc) = true) :
    ∃ n : Nat, qcow2GetSubclusterRangeType s e b sc = some ((n : Int), .zeroAlloc) ∧ IsTypeRun s e b sc n := by
  have hty := fun i (hi : i < 32) => subclusterType_normal s e b hsub hc hvalid hi
  have hrun := cto32_run (P := fun k => bit b (32 + k)) hsc.le fun k hk => testBit_zeroWord hsc.le hk
  refine ⟨_, ?_, isTypeRun_of_run hsub (fun k hk => ?_) hrun⟩
  · rw [Nat.cast_sub hrun.1]
    simp [qcow2GetSubclusterRangeType, hty sc hsc, hz, hsub]
  · rw [hty k hk, hty sc hsc, hz]
    cases bit b (32 + k) <;> cases bit b k <;> simp

/-- An unallocated subcluster of a valid normal cluster: `ctz32` counts the
subclusters from `sc` neither allocated nor zero. -/
theorem rangeType_run_unallocatedAlloc (hsub : s.hasSubclusters = true)
    (hc : qcow2GetClusterType s e = .normal) (hvalid : ∀ k < 32, ¬(bit b (32 + k) = true ∧ bit b k = true))
    (hsc : sc < 32) (hz : bit b (32 + sc) = false) (ha : bit b sc = false) :
    ∃ n : Nat, qcow2GetSubclusterRangeType s e b sc = some ((n : Int), .unallocatedAlloc) ∧
      IsTypeRun s e b sc n := by
  have hty := fun i (hi : i < 32) => subclusterType_normal s e b hsub hc hvalid hi
  have hrun := ctz32_run (P := fun k => !(bit b (32 + k) || bit b k)) hsc.le
    fun k hk => testBit_unallocatedWord hsc.le hk
  refine ⟨_, ?_, isTypeRun_of_run hsub (fun k hk => ?_) hrun⟩
  · rw [Nat.cast_sub hrun.1]
    simp [qcow2GetSubclusterRangeType, hty sc hsc, hz, ha, hsub]
  · rw [hty k hk, hty sc hsc, hz, ha]
    cases bit b (32 + k) <;> cases bit b k <;> simp

/-- A zero subcluster of a valid unallocated cluster. -/
theorem rangeType_run_zeroPlain (hsub : s.hasSubclusters = true) (hc : qcow2GetClusterType s e = .unallocated)
    (hvalid : ∀ k < 32, bit b k = false) (hsc : sc < 32) (hz : bit b (32 + sc) = true) :
    ∃ n : Nat, qcow2GetSubclusterRangeType s e b sc = some ((n : Int), .zeroPlain) ∧ IsTypeRun s e b sc n := by
  have hty := fun i (hi : i < 32) => subclusterType_unallocated s e b hsub hc hvalid hi
  have hrun := cto32_run (P := fun k => bit b (32 + k)) hsc.le fun k hk => testBit_zeroWord hsc.le hk
  refine ⟨_, ?_, isTypeRun_of_run hsub (fun k hk => ?_) hrun⟩
  · rw [Nat.cast_sub hrun.1]
    simp [qcow2GetSubclusterRangeType, hty sc hsc, hz, hsub]
  · rw [hty k hk, hty sc hsc, hz]
    cases bit b (32 + k) <;> simp

/-- An unallocated subcluster of a valid unallocated cluster. -/
theorem rangeType_run_unallocatedPlain (hsub : s.hasSubclusters = true)
    (hc : qcow2GetClusterType s e = .unallocated) (hvalid : ∀ k < 32, bit b k = false) (hsc : sc < 32)
    (hz : bit b (32 + sc) = false) :
    ∃ n : Nat, qcow2GetSubclusterRangeType s e b sc = some ((n : Int), .unallocatedPlain) ∧
      IsTypeRun s e b sc n := by
  have hty := fun i (hi : i < 32) => subclusterType_unallocated s e b hsub hc hvalid hi
  have hrun := ctz32_run (P := fun k => !(bit b (32 + k) || bit b k)) hsc.le
    fun k hk => testBit_unallocatedWord hsc.le hk
  refine ⟨_, ?_, isTypeRun_of_run hsub (fun k hk => ?_) hrun⟩
  · rw [Nat.cast_sub hrun.1]
    simp [qcow2GetSubclusterRangeType, hty sc hsc, hz, hsub]
  · rw [hty k hk, hty sc hsc, hz, hvalid k hk]
    cases bit b (32 + k) <;> simp

end Runs

/-! ## The count of `qcow2_get_subcluster_range_type` -/

/-- Every subcluster of the cluster has a type, and the count is `-EINVAL`
for an invalid one (which needs extended L2 entries) and a maximal run for
the others. -/
theorem rangeType_cases (s : Qcow2State) (e b : UInt64) {sc : Nat} (hsc : sc < s.subclustersPerCluster) :
    ∃ t, qcow2GetSubclusterType s e b sc = some t ∧
      ((t = .invalid ∧ s.hasSubclusters = true ∧
          qcow2GetSubclusterRangeType s e b sc = some (-einval, .invalid)) ∨
        (t ≠ .invalid ∧ ∃ n : Nat, qcow2GetSubclusterRangeType s e b sc = some ((n : Int), t) ∧
          IsTypeRun s e b sc n ∧
          (t = .compressed ∨ s.hasSubclusters = false → (n : Int) = s.subclustersPerCluster - sc))) := by
  cases hsub : s.hasSubclusters
  case false =>
    -- one subcluster, of the cluster's type
    have hspc : s.subclustersPerCluster = 1 := by simp [Qcow2State.subclustersPerCluster, hsub]
    obtain rfl : sc = 0 := by omega
    obtain ⟨t, ht, hinv⟩ := subclusterType_of_not_subclusters s e b hsub
    refine ⟨t, ht, .inr ⟨hinv, 1, ?_, ?_, fun _ => by rw [hspc]; rfl⟩⟩
    · simp [qcow2GetSubclusterRangeType, ht, hinv, hsub, hspc]
    · rw [IsTypeRun, hspc]
      exact ⟨le_rfl, fun i _ hi => by rw [show i = 0 by omega], fun h => absurd h (Nat.lt_irrefl _)⟩
  case true =>
    have hspc := subclustersPerCluster_of_subclusters hsub
    rw [hspc] at hsc
    rcases qcow2GetClusterType_of_subclusters s e hsub with hc | hc | hc
    · -- compressed: the whole rest of the cluster
      have hty := fun i (hi : i < 32) => subclusterType_compressed s e b hc (hspc ▸ hi)
      refine ⟨_, hty sc hsc, .inr ⟨by decide, 32 - sc, ?_, ?_, fun _ => by rw [hspc]; omega⟩⟩
      · simp only [qcow2GetSubclusterRangeType, hty sc hsc, Option.bind_some, hspc]
        simp
        omega
      · rw [IsTypeRun, hspc]
        exact ⟨by omega, fun i _ hi => by rw [hty i (by omega), hty sc hsc], fun h => absurd h (by omega)⟩
    · by_cases hinv : ∃ k < 32, bit b (32 + k) = true ∧ bit b k = true
      · have ht := subclusterType_normal_invalid s e b hsub hc hinv hsc
        exact ⟨_, ht, .inl ⟨rfl, rfl, by simp [qcow2GetSubclusterRangeType, ht]⟩⟩
      · have hvalid : ∀ k < 32, ¬(bit b (32 + k) = true ∧ bit b k = true) := fun k hk h => hinv ⟨k, hk, h⟩
        have ht := subclusterType_normal s e b hsub hc hvalid hsc
        -- the type of `sc` is read from its zero and allocation bits
        cases hz : bit b (32 + sc) <;> cases ha : bit b sc <;>
          simp only [hz, ha, Bool.false_eq_true, if_false, if_true] at ht
        · obtain ⟨n, hr, hrun⟩ := rangeType_run_unallocatedAlloc hsub hc hvalid hsc hz ha
          exact ⟨_, ht, .inr ⟨by decide, n, hr, hrun, by simp⟩⟩
        · obtain ⟨n, hr, hrun⟩ := rangeType_run_normal hsub hc hvalid hsc hz ha
          exact ⟨_, ht, .inr ⟨by decide, n, hr, hrun, by simp⟩⟩
        · obtain ⟨n, hr, hrun⟩ := rangeType_run_zeroAlloc hsub hc hvalid hsc hz
          exact ⟨_, ht, .inr ⟨by decide, n, hr, hrun, by simp⟩⟩
        · obtain ⟨n, hr, hrun⟩ := rangeType_run_zeroAlloc hsub hc hvalid hsc hz
          exact ⟨_, ht, .inr ⟨by decide, n, hr, hrun, by simp⟩⟩
    · by_cases hinv : ∃ k < 32, bit b k = true
      · have ht := subclusterType_unallocated_invalid s e b hsub hc hinv hsc
        exact ⟨_, ht, .inl ⟨rfl, rfl, by simp [qcow2GetSubclusterRangeType, ht]⟩⟩
      · have hvalid : ∀ k < 32, bit b k = false := fun k hk => by
          cases h : bit b k
          · rfl
          · exact absurd ⟨k, hk, h⟩ hinv
        have ht := subclusterType_unallocated s e b hsub hc hvalid hsc
        cases hz : bit b (32 + sc) <;> simp only [hz, Bool.false_eq_true, if_false, if_true] at ht
        · obtain ⟨n, hr, hrun⟩ := rangeType_run_unallocatedPlain hsub hc hvalid hsc hz
          exact ⟨_, ht, .inr ⟨by decide, n, hr, hrun, by simp⟩⟩
        · obtain ⟨n, hr, hrun⟩ := rangeType_run_zeroPlain hsub hc hvalid hsc hz
          exact ⟨_, ht, .inr ⟨by decide, n, hr, hrun, by simp⟩⟩

/-- `qcow2_get_subcluster_range_type` returns `-EINVAL` exactly when
`qcow2_get_subcluster_type` reports the entry invalid, and otherwise the
length of the maximal run of subclusters from `sc_from` of the type of
`sc_from`: all the rest of the cluster for a compressed entry or an image
without extended L2 entries. -/
theorem qcow2GetSubclusterRangeType_spec (s : Qcow2State) (l2Entry l2Bitmap : UInt64) {scFrom : Nat}
    (hsc : scFrom < s.subclustersPerCluster) :
    ∃ type ret, qcow2GetSubclusterType s l2Entry l2Bitmap scFrom = some type ∧
      qcow2GetSubclusterRangeType s l2Entry l2Bitmap scFrom = some (ret, type) ∧
      (ret = -einval ↔ type = .invalid) ∧
      (type ≠ .invalid → ∃ n : Nat, ret = n ∧ IsTypeRun s l2Entry l2Bitmap scFrom n) ∧
      (type = .compressed ∨ s.hasSubclusters = false → ret = s.subclustersPerCluster - scFrom) := by
  obtain ⟨t, ht, hcases⟩ := rangeType_cases s l2Entry l2Bitmap hsc
  rcases hcases with ⟨rfl, hsub, hr⟩ | ⟨hinv, n, hr, hrun, hfull⟩
  · refine ⟨_, _, ht, hr, iff_of_true rfl rfl, fun h => absurd rfl h, fun h => ?_⟩
    simp [hsub] at h
  · refine ⟨t, n, ht, hr, ⟨fun h => ?_, fun h => absurd h hinv⟩, fun _ => ⟨n, rfl, hrun⟩, hfull⟩
    -- a count is never negative
    rw [einval] at h
    omega

/-- qcow2 L2 entries are encoded and decoded exactly: compressed entries
round-trip through `qcow2_alloc_compressed_cluster_offset` and
`qcow2_parse_compressed_l2_entry`, and `qcow2_get_subcluster_range_type`
counts maximal runs of subclusters of one type. -/
theorem qcow2L2Entry_exact :
    (∀ (s : Qcow2State) (oldL2Entry : UInt64) (o cs : Nat),
      1 ≤ cs → cs ≤ s.clusterSize → o ≤ s.clusterOffsetMask →
      qcow2AllocCompressedClusterOffset s oldL2Entry o cs ≠ none ∧
        (s.hasDataFile = false → oldL2Entry &&& l2eOffsetMask = 0 →
          ∃ l2Entry, qcow2AllocCompressedClusterOffset s oldL2Entry o cs =
              some (.written l2Entry (if s.hasSubclusters then some 0 else none) o.toUInt64) ∧
            qcow2GetClusterType s l2Entry = .compressed ∧
            ∃ csize, qcow2ParseCompressedL2Entry s l2Entry = some (o, csize) ∧
              o + csize = ((o + cs - 1) / qcow2CompressedSectorSize + 1) * qcow2CompressedSectorSize)) ∧
    (∀ (s : Qcow2State) (l2Entry l2Bitmap : UInt64) (scFrom : Nat), scFrom < s.subclustersPerCluster →
      ∃ type ret, qcow2GetSubclusterType s l2Entry l2Bitmap scFrom = some type ∧
        qcow2GetSubclusterRangeType s l2Entry l2Bitmap scFrom = some (ret, type) ∧
        (ret = -einval ↔ type = .invalid) ∧
        (type ≠ .invalid → ∃ n : Nat, ret = n ∧ IsTypeRun s l2Entry l2Bitmap scFrom n) ∧
        (type = .compressed ∨ s.hasSubclusters = false → ret = s.subclustersPerCluster - scFrom)) :=
  ⟨fun s oldL2Entry _ _ hcs hcs' ho => qcow2AllocCompressed_spec s oldL2Entry hcs hcs' ho,
    fun s l2Entry l2Bitmap _ hsc => qcow2GetSubclusterRangeType_spec s l2Entry l2Bitmap hsc⟩

end QemuFormal.Qcow2

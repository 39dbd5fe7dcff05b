/-
QemuFormal.Migration.DirtyBitmapTheorems — the bulk phase of dirty-bitmap
migration brings the source bitmap to the destination, all-zero chunks
included.

How the proof goes.
- One chunk (`dirtyBitmapLoadBits_sendBitmapBits`): what the destination
  makes of a chunk `send_bitmap_bits` sent is what deserializing the
  source's serialization of it makes (`hbitmapCopyChunk`). For a
  `ZEROES` chunk the buffer the source tested was all zero, so every
  word of it was zero (`bufWord_eq_zero`) and filling the chunk with
  zeroes writes the same words (`hbitmapDeserializePart_of_zero`).
  Otherwise the size the destination needs is the one the source
  serialized, so the checks on `buf_size` pass, and the padding is never
  read (`bufWord_append`).
- A run of chunks (`dirtyBitmapLoadChunks_sendBitmapBits`) is then the
  run of copies `hbitmapDeserializeChunks` of `Util.HbitmapSerialize`.
- The bulk phase (`bulkPhase_spec`) sends, from any sector on, chunks
  that start a whole number of chunks further, cover every sector up to
  the end, and are whole but for the last (`IsBulkChunk`); it completes
  within the rounds the sectors need, as long as each such chunk passes
  the `assert`s of `serialization_chunk`. From sector 0 each does
  (`chunkAligned_of_isBulkChunk`): a chunk of `2^(g + 4)` sectors is
  `2^7` alignments of `2^(g + 6)` bytes, and the last chunk ends at the
  last element, in the last group.
- A chunk that covers an element covers its word of the last level
  (`chunksCover_of_mem`), and every word of the last level has an
  element, so after `hbitmap_deserialize_finish` the destination holds
  the groups of the source (`hbitmapDeserializeFinish_select`).

`dirtyBitmapMigration_bulk`: for a source bitmap of a node of `total`
sectors with a granularity from 512 bytes to `2^27` bytes, and a
destination of the same size and granularity, the bulk phase completes
and every chunk it sends passes the `assert`s of `serialization_chunk`;
the destination loads every chunk without error, abort or cancellation,
and after `dirty_bitmap_load_complete` it has the invariant and the
source's groups. The zero test may be any test that answers true only
for all-zero buffers.
-/
import QemuFormal.Migration.DirtyBitmap
import QemuFormal.Util.HbitmapSerialize
import QemuFormal.Util.BufferIsZeroTheorems

namespace QemuFormal.DirtyBitmap

open QemuFormal.Hbitmap
open QemuFormal.BufferIsZero (bufferIsZero accelTable bufferZeroAvx2 bufferIsZero_exact)
open ByteMem (window)
open Function (update)

/-! ## Words of a buffer -/

section Words

/-- A buffer of zero bytes holds zero words. -/
theorem bufWord_eq_zero {buf : List UInt8} (h : ∀ b ∈ buf, b = 0) (k : Nat) : bufWord buf k = 0 := by
  apply bufWord_eq
  intro j _
  have hzero : ((0 : UInt64) >>> (8 * j).toUInt64).toUInt8 = 0 := by simp
  rw [hzero, List.getD_eq_getElem?_getD]
  rcases hget : buf[8 * k + j]? with _ | b
  · rfl
  · rw [Option.getD_some, h b (List.mem_of_getElem? hget)]

/-- Padding after a word is not read with it. -/
theorem bufWord_append {buf : List UInt8} (pad : List UInt8) {k : Nat} (hk : 8 * k + 8 ≤ buf.length) :
    bufWord (buf ++ pad) k = bufWord buf k := by
  unfold bufWord
  apply List.foldl_ext
  intro w j hj
  rw [List.getD_append _ _ _ _ (by rw [List.mem_range] at hj; omega)]

end Words

/-! ## Deserializing a chunk -/

section Deserialize

/-- Deserializing a buffer of zero words fills the chunk with zeroes. -/
theorem hbitmapDeserializePart_of_zero (hb : HBitmap) {buf : List UInt8} (h : ∀ k, bufWord buf k = 0)
    (start count : Nat) : hbitmapDeserializePart hb buf start count false = hbitmapDeserializeZeroes hb start count false := by
  simp only [hbitmapDeserializePart, hbitmapDeserializeZeroes, hbitmapDeserializeFill, h]

/-- Padding past the words of a chunk is not read. -/
theorem hbitmapDeserializePart_append (hb : HBitmap) {buf : List UInt8} (pad : List UInt8) {start count : Nat}
    (hlen : 8 * (chunkWords hb start count).2 ≤ buf.length) :
    hbitmapDeserializePart hb (buf ++ pad) start count false = hbitmapDeserializePart hb buf start count false := by
  rcases Nat.eq_zero_or_pos count with rfl | hc
  · simp [hbitmapDeserializePart]
  by_cases hal : ChunkAligned hb start count
  · rw [hbitmapDeserializePart_of_aligned hb _ hc hal, hbitmapDeserializePart_of_aligned hb _ hc hal]
    congr 4
    funext j
    split_ifs with hj
    · rw [bufWord_append pad (by omega)]
    · rfl
  · -- both fail the same `assert`
    simp only [hbitmapDeserializePart, if_neg (Nat.pos_iff_ne_zero.mp hc), serializationChunk_eq, if_neg hal,
      Option.bind_eq_bind, Option.bind_none]

end Deserialize

/-! ## One chunk -/

section Chunk

variable {isZero : List UInt8 → Bool}

/-- The bytes `[start_sector << 9, (start_sector + nr_sectors) << 9)` of a
chunk of sectors, as start and count. -/
def sectorBytes (p : Nat × Nat) : Nat × Nat := (p.1 <<< bdrvSectorBits, p.2 <<< bdrvSectorBits)

/-- A chunk `send_bitmap_bits` puts on the stream is a bits chunk of the
sectors it was asked for. -/
theorem sendBitmapBits_fields {bitmap : HBitmap} {start nr : Nat} {c : BitsChunk}
    (h : sendBitmapBits isZero bitmap start nr = some c) :
    c.flags &&& dirtyBitmapMigFlagBits ≠ 0 ∧ c.startSector = start ∧ c.nrSectors = nr := by
  simp only [sendBitmapBits, Option.bind_eq_bind, Option.bind_eq_some_iff] at h
  obtain ⟨sz, -, ser, -, h⟩ := h
  split at h
  · cases h
    exact ⟨by dsimp only; decide, rfl, rfl⟩
  · cases h
    exact ⟨by dsimp only; decide, rfl, rfl⟩

/-- A chunk that passes the `assert`s of `serialization_chunk` is sent. -/
theorem sendBitmapBits_isSome {bitmap : HBitmap} {start nr : Nat} (hnr : 0 < nr <<< bdrvSectorBits)
    (hal : ChunkAligned bitmap (start <<< bdrvSectorBits) (nr <<< bdrvSectorBits)) :
    (sendBitmapBits isZero bitmap start nr).isSome := by
  simp only [sendBitmapBits, hbitmapSerializationSize_of_aligned hnr hal, hbitmapSerializePart_of_aligned hnr hal,
    Option.bind_eq_bind, Option.bind_some]
  split <;> rfl

/-- The destination loads a chunk `send_bitmap_bits` sent as if it
deserialized the source's serialization of it: the `ZEROES` shortcut and
the size checks change nothing, for a zero test that answers true only
for all-zero buffers. -/
theorem dirtyBitmapLoadBits_sendBitmapBits (hz : ∀ buf, isZero buf = true → ∀ b ∈ buf, b = 0)
    {src dst d1 : HBitmap} (hg : dst.granularity = src.granularity) (hs : dst.size = src.size)
    {start nr : Nat} {c : BitsChunk} (hnr : 0 < nr) (hstart : start <<< bdrvSectorBits < 2 ^ 64)
    (hsmall : (chunkWords src (start <<< bdrvSectorBits) (nr <<< bdrvSectorBits)).2 * 8 ≤ 10 * chunkSize)
    (hsend : sendBitmapBits isZero src start nr = some c)
    (hcopy : hbitmapCopyChunk src dst (sectorBytes (start, nr)) = some d1) :
    dirtyBitmapLoadBits { flags := c.flags, bitmap := dst, cancelled := false } c =
      some (.ok { flags := c.flags, bitmap := d1, cancelled := false }) := by
  have hc : 0 < nr <<< bdrvSectorBits := by
    rw [Nat.shiftLeft_eq]
    exact Nat.mul_pos hnr (Nat.two_pow_pos _)
  have hfirst : (start <<< bdrvSectorBits) % 2 ^ 64 = start <<< bdrvSectorBits := Nat.mod_eq_of_lt hstart
  -- the words the source serialized, and what the destination made of them
  rw [hbitmapCopyChunk, Option.bind_eq_bind, Option.bind_eq_some_iff] at hcopy
  obtain ⟨ser, hser, hdes⟩ := hcopy
  change hbitmapSerializePart src (start <<< bdrvSectorBits) (nr <<< bdrvSectorBits) = some ser at hser
  change hbitmapDeserializePart dst ser (start <<< bdrvSectorBits) (nr <<< bdrvSectorBits) false = some d1 at hdes
  have hal := aligned_of_hbitmapSerializePart hc hser
  have hlen : ser.length = (chunkWords src (start <<< bdrvSectorBits) (nr <<< bdrvSectorBits)).2 * 8 := by
    rw [hbitmapSerializePart_of_aligned hc hal, Option.some.injEq] at hser
    rw [← hser, length_flatMap_wordBytes, Nat.mul_comm]
  -- the size the destination computes is the one the source serialized
  have hsz := hbitmapSerializationSize_of_aligned hc hal
  have hneed := hbitmapSerializationSize_congr hg hs ▸ hsz
  generalize hszw : (chunkWords src (start <<< bdrvSectorBits) (nr <<< bdrvSectorBits)).2 * 8 = sz
    at hlen hsmall hsz hneed
  simp only [sendBitmapBits, hsz, hser, Option.bind_eq_bind, Option.bind_some] at hsend
  by_cases hzero : isZero (ser ++ List.replicate (qemuAlignUp sz (4 * 8) - sz) 0) = true
  · -- a `ZEROES` chunk: the words the source serialized were zero
    rw [if_pos hzero, Option.some.injEq] at hsend
    subst hsend
    have hw : ∀ k, bufWord ser k = 0 := bufWord_eq_zero fun b hb => hz _ hzero b (List.mem_append_left _ hb)
    have hflag : (dirtyBitmapMigFlagBits ||| dirtyBitmapMigFlagZeroes) &&& dirtyBitmapMigFlagZeroes ≠ 0 := by decide
    simp only [dirtyBitmapLoadBits, hfirst, hflag, ne_eq, not_false_eq_true, if_true, Bool.not_false,
      ← hbitmapDeserializePart_of_zero dst hw, hdes, Option.bind_eq_bind, Option.bind_some]
  · -- a chunk with its buffer: the sizes match what the destination needs
    rw [if_neg hzero, Option.some.injEq] at hsend
    subst hsend
    have hflag : dirtyBitmapMigFlagBits &&& dirtyBitmapMigFlagZeroes = 0 := by decide
    have hA : sz ≤ qemuAlignUp sz (4 * 8) ∧ qemuAlignUp sz (4 * 8) ≤ 10 * chunkSize := by
      have : chunkSize = 1024 := rfl
      unfold qemuAlignUp
      omega
    have hbuf : (ser ++ List.replicate (qemuAlignUp sz (4 * 8) - sz) 0).length = qemuAlignUp sz (4 * 8) := by
      rw [List.length_append, List.length_replicate]
      omega
    -- the words of the chunk are those the source serialized, before the padding
    have hwords : 8 * (chunkWords dst (start <<< bdrvSectorBits) (nr <<< bdrvSectorBits)).2 ≤ ser.length := by
      have hcw : chunkWords dst (start <<< bdrvSectorBits) (nr <<< bdrvSectorBits) =
          chunkWords src (start <<< bdrvSectorBits) (nr <<< bdrvSectorBits) := by
        unfold chunkWords
        rw [hg]
      rw [hcw]
      omega
    simp only [dirtyBitmapLoadBits, hfirst, hflag, ne_eq, not_true_eq_false, if_false, hbuf, Nat.min_self,
      gt_iff_lt, Nat.not_lt.mpr hA.2, Nat.not_lt.mpr hA.1, lt_irrefl, or_self, List.take_of_length_le hbuf.le,
      Bool.false_eq_true, hneed, Option.bind_eq_bind, Option.bind_some, hbitmapDeserializePart_append dst _ hwords,
      hdes]

end Chunk

/-! ## A run of chunks -/

section Run

variable {isZero : List UInt8 → Bool}

/-- The destination loads a run of chunks the source sent as the run of
copies of `Util.HbitmapSerialize`: no chunk fails, aborts or cancels the
load. -/
theorem dirtyBitmapLoadChunks_sendBitmapBits (hz : ∀ buf, isZero buf = true → ∀ b ∈ buf, b = 0)
    {src : HBitmap} {runs : List (Nat × Nat)} {cs : List BitsChunk}
    (hsent : List.Forall₂ (fun p c => sendBitmapBits isZero src p.1 p.2 = some c) runs cs)
    (hruns : ∀ p ∈ runs, 0 < p.2 ∧ p.1 <<< bdrvSectorBits < 2 ^ 64 ∧
      (chunkWords src (sectorBytes p).1 (sectorBytes p).2).2 * 8 ≤ 10 * chunkSize) :
    ∀ (flags : Nat) (dst B : HBitmap), dst.granularity = src.granularity → dst.size = src.size →
      hbitmapDeserializeChunks src dst (runs.map sectorBytes) = some B →
      ∃ flags', dirtyBitmapLoadChunks { flags, bitmap := dst, cancelled := false } cs =
        some (.ok { flags := flags', bitmap := B, cancelled := false }) := by
  induction hsent with
  | nil =>
    intro flags dst B _ _ hB
    cases hB
    exact ⟨flags, rfl⟩
  | @cons p c runs cs hpc _ ih =>
    intro flags dst B hg hs hB
    obtain ⟨hnr, hstart, hsmall⟩ := hruns p List.mem_cons_self
    -- the first chunk, then the rest from the bitmap it leaves
    rw [List.map_cons, hbitmapDeserializeChunks_cons, Option.bind_eq_some_iff] at hB
    obtain ⟨d1, hcopy, hrest⟩ := hB
    have hone := dirtyBitmapLoadBits_sendBitmapBits hz hg hs hnr hstart hsmall hpc hcopy
    obtain ⟨hg1, hs1⟩ := hbitmapCopyChunk_shape hcopy
    obtain ⟨flags', hload⟩ := ih (fun q hq => hruns q (List.mem_cons_of_mem p hq)) c.flags d1 B
      (hg1.trans hg) (hs1.trans hs) hrest
    refine ⟨flags', ?_⟩
    simp only [dirtyBitmapLoadChunks, if_pos (sendBitmapBits_fields hpc).1, hone]
    exact hload

/-- Every chunk of a run of sends is sent for one of its runs of sectors. -/
theorem exists_run_of_mem_sent {bitmap : HBitmap} {runs : List (Nat × Nat)} {cs : List BitsChunk}
    (h : List.Forall₂ (fun p c => sendBitmapBits isZero bitmap p.1 p.2 = some c) runs cs) {c : BitsChunk}
    (hc : c ∈ cs) : ∃ p ∈ runs, sendBitmapBits isZero bitmap p.1 p.2 = some c := by
  induction h with
  | nil => cases hc
  | cons hpc _ ih =>
    rcases List.mem_cons.mp hc with rfl | hc
    · exact ⟨_, List.mem_cons_self, hpc⟩
    · obtain ⟨p, hp, hsend⟩ := ih hc
      exact ⟨p, List.mem_cons_of_mem _ hp, hsend⟩

end Run

/-! ## The bulk phase -/

section Bulk

variable {isZero : List UInt8 → Bool}

/-- A chunk of sectors the bulk phase may send from `dbms`: it starts a
whole number of chunks after `cur_sector`, is not empty, ends by the end
of the node, and has `sectors_per_chunk` sectors unless it is the last. -/
def IsBulkChunk (dbms : SaveBitmapState) (p : Nat × Nat) : Prop :=
  dbms.curSector ≤ p.1 ∧ (p.1 - dbms.curSector) % dbms.sectorsPerChunk = 0 ∧ 0 < p.2 ∧
    p.2 ≤ dbms.sectorsPerChunk ∧ p.1 + p.2 ≤ dbms.totalSectors ∧
    (p.2 = dbms.sectorsPerChunk ∨ p.1 + p.2 = dbms.totalSectors)

theorem bulkPhase_of_completed (fuel : Nat) {dbms : SaveBitmapState} (h : dbms.bulkCompleted = true) :
    bulkPhase isZero fuel dbms = some ([], dbms) := by
  cases fuel with
  | zero => rfl
  | succ fuel => simp [bulkPhase, h]

theorem bulkPhase_succ {fuel : Nat} {dbms dbms1 : SaveBitmapState} {c : BitsChunk} (h : dbms.bulkCompleted = false)
    (hsend : bulkPhaseSendChunk isZero dbms = some (c, dbms1)) :
    bulkPhase isZero (fuel + 1) dbms = (bulkPhase isZero fuel dbms1).map fun r => (c :: r.1, r.2) := by
  simp only [bulkPhase, h, Bool.false_eq_true, if_false, hsend, Option.bind_eq_bind, Option.bind_some]
  cases bulkPhase isZero fuel dbms1 <;> rfl

/-- A chunk the bulk phase may send after a whole chunk is one it may
send before it. -/
theorem IsBulkChunk.of_next {dbms : SaveBitmapState} {b : Bool} {p : Nat × Nat}
    (h : IsBulkChunk { dbms with curSector := dbms.curSector + dbms.sectorsPerChunk, bulkCompleted := b } p) :
    IsBulkChunk dbms p := by
  obtain ⟨h1, h2, h3, h4, h5, h6⟩ := h
  dsimp only at h1 h2 h4 h5 h6
  refine ⟨by omega, ?_, h3, h4, h5, h6⟩
  rw [show p.1 - dbms.curSector = p.1 - (dbms.curSector + dbms.sectorsPerChunk) + dbms.sectorsPerChunk by omega,
    Nat.add_mod_right, h2]

/-- From a sector below the end, and as long as every chunk it may send
is sent, the bulk phase sends chunks it may send that cover every sector
up to the end, and completes within the rounds the remaining sectors
need. -/
theorem bulkPhase_spec (fuel : Nat) : ∀ dbms : SaveBitmapState,
    dbms.bulkCompleted = false → dbms.curSector < dbms.totalSectors → 0 < dbms.sectorsPerChunk →
    dbms.sectorsPerChunk < 2 ^ 32 → dbms.totalSectors - dbms.curSector ≤ fuel * dbms.sectorsPerChunk →
    (∀ p, IsBulkChunk dbms p → (sendBitmapBits isZero dbms.bitmap p.1 p.2).isSome) →
    ∃ runs cs dbms', bulkPhase isZero fuel dbms = some (cs, dbms') ∧ dbms'.bulkCompleted = true ∧
      List.Forall₂ (fun p c => sendBitmapBits isZero dbms.bitmap p.1 p.2 = some c) runs cs ∧
      (∀ p ∈ runs, IsBulkChunk dbms p) ∧
      ∀ x, dbms.curSector ≤ x → x < dbms.totalSectors → ∃ p ∈ runs, p.1 ≤ x ∧ x < p.1 + p.2 := by
  induction fuel with
  | zero => intro dbms _ hcur _ _ hfuel; omega
  | succ fuel ih =>
    intro dbms hcomp hcur hspc hspc32 hfuel hsendable
    -- one chunk of `nr` sectors from `cur_sector`
    have hnr : min (dbms.totalSectors - dbms.curSector) dbms.sectorsPerChunk % 2 ^ 32 =
        min (dbms.totalSectors - dbms.curSector) dbms.sectorsPerChunk :=
      Nat.mod_eq_of_lt (lt_of_le_of_lt (Nat.min_le_right _ _) hspc32)
    generalize hN : min (dbms.totalSectors - dbms.curSector) dbms.sectorsPerChunk = nr at hnr
    have hfirst : IsBulkChunk dbms (dbms.curSector, nr) :=
      ⟨le_rfl, by simp, by omega, by omega, by omega, by omega⟩
    obtain ⟨c, hc⟩ := Option.isSome_iff_exists.mp (hsendable _ hfirst)
    have hsend : bulkPhaseSendChunk isZero dbms =
        some (c, { dbms with curSector := dbms.curSector + nr,
                             bulkCompleted := decide (dbms.totalSectors ≤ dbms.curSector + nr) }) := by
      simp only [bulkPhaseSendChunk, hN, hnr, hc, hcomp, Bool.false_or, Option.bind_eq_bind, Option.bind_some]
    rw [bulkPhase_succ hcomp hsend]
    by_cases hend : dbms.totalSectors ≤ dbms.curSector + nr
    · -- the last chunk reaches the end
      rw [bulkPhase_of_completed fuel (decide_eq_true hend)]
      refine ⟨[(dbms.curSector, nr)], [c], _, rfl, decide_eq_true hend, .cons hc .nil, ?_, ?_⟩
      · intro p hp
        rw [List.mem_singleton] at hp
        subst hp
        exact hfirst
      · intro x hx1 hx2
        exact ⟨_, List.mem_singleton_self _, hx1, by omega⟩
    · -- a whole chunk, and the rest from the sector after it
      obtain rfl : nr = dbms.sectorsPerChunk := by omega
      obtain ⟨runs, cs, dbms', hrun, hdone, hsent, hin, hcov⟩ := ih
        { dbms with curSector := dbms.curSector + dbms.sectorsPerChunk,
                    bulkCompleted := decide (dbms.totalSectors ≤ dbms.curSector + dbms.sectorsPerChunk) }
        (decide_eq_false hend) (by simp only; omega) hspc hspc32
        (by simp only; rw [Nat.add_mul, Nat.one_mul] at hfuel; omega) fun p hp => hsendable p hp.of_next
      refine ⟨(dbms.curSector, dbms.sectorsPerChunk) :: runs, c :: cs, dbms', by rw [hrun]; rfl, hdone,
        .cons hc hsent, ?_, ?_⟩
      · intro p hp
        rcases List.mem_cons.mp hp with rfl | hp
        · exact hfirst
        · exact (hin p hp).of_next
      · intro x hx1 hx2
        by_cases hx : x < dbms.curSector + dbms.sectorsPerChunk
        · exact ⟨_, List.mem_cons_self, hx1, hx⟩
        · obtain ⟨p, hp, hpx⟩ := hcov x (by simp only; omega) hx2
          exact ⟨p, List.mem_cons_of_mem _ hp, hpx⟩

end Bulk

/-! ## The whole bulk phase -/

section Migration

variable {isZero : List UInt8 → Bool}

/-- `sectors_per_chunk` is `2^(g + 4)` for a granularity of `2^g` bytes
from 512 bytes to `2^27` bytes. -/
theorem initSaveBitmapState_sectorsPerChunk {bitmap : HBitmap} (h9 : bdrvSectorBits ≤ bitmap.granularity)
    (h28 : bitmap.granularity < 28) (totalSectors : Nat) :
    (initSaveBitmapState bitmap totalSectors).sectorsPerChunk = 2 ^ (bitmap.granularity + 4) := by
  change 9 ≤ bitmap.granularity at h9
  have hgran : bdrvDirtyBitmapGranularity bitmap = 2 ^ bitmap.granularity := by
    unfold bdrvDirtyBitmapGranularity hbitmapGranularity
    rw [Nat.shiftLeft_eq, Nat.one_mul]
    exact Nat.mod_eq_of_lt (Nat.pow_lt_pow_right (by decide) (by omega))
  have hsec : 2 ^ bitmap.granularity >>> bdrvSectorBits = 2 ^ (bitmap.granularity - 9) := by
    rw [Nat.shiftRight_eq_div_pow]
    exact Nat.pow_div h9 (by decide)
  show chunkSize * 8 * (bdrvDirtyBitmapGranularity bitmap >>> bdrvSectorBits) = _
  rw [hgran, hsec, show chunkSize * 8 = 2 ^ 13 from rfl, ← Nat.pow_add]
  congr 1
  omega

/-- A chunk of at most `64 * K` groups spans at most `K + 1` words of the
last level. -/
theorem chunkWords_snd_le (hb : HBitmap) {start count K : Nat} (hc : 0 < count)
    (hK : count ≤ 64 * K * 2 ^ hb.granularity) : (chunkWords hb start count).2 ≤ K + 1 := by
  have hG := Nat.two_pow_pos hb.granularity
  have hlast : (start + count - 1) >>> hb.granularity ≤ start >>> hb.granularity + 64 * K := by
    rw [Nat.shiftRight_eq_div_pow, Nat.shiftRight_eq_div_pow]
    calc (start + count - 1) / 2 ^ hb.granularity
        ≤ (start + 64 * K * 2 ^ hb.granularity) / 2 ^ hb.granularity := Nat.div_le_div_right (by omega)
      _ = start / 2 ^ hb.granularity + 64 * K := Nat.add_mul_div_right _ _ hG
  simp only [chunkWords, show ∀ x, x >>> bitsPerLevel = x / 64 from fun x => Nat.shiftRight_eq_div_pow x 6]
  generalize (start + count - 1) >>> hb.granularity = l at hlast
  generalize start >>> hb.granularity = f at hlast
  omega

/-- A chunk covers the word of the last level of each of its elements. -/
theorem chunksCover_of_mem (hb : HBitmap) {chunks : List (Nat × Nat)} {c : Nat × Nat} (hc : c ∈ chunks)
    {y : Nat} (h1 : c.1 ≤ y) (h2 : y < c.1 + c.2) :
    chunksCover hb chunks (y >>> hb.granularity / 64) = true := by
  have hfirst := shiftRight_le_shiftRight h1 hb.granularity
  have hlast := shiftRight_le_shiftRight (show y ≤ c.1 + c.2 - 1 by omega) hb.granularity
  unfold chunksCover
  rw [List.any_eq_true]
  refine ⟨c, hc, decide_eq_true ⟨by omega, ?_⟩⟩
  simp only [chunkWords, show ∀ x, x >>> bitsPerLevel = x / 64 from fun x => Nat.shiftRight_eq_div_pow x 6]
  generalize (c.1 + c.2 - 1) >>> hb.granularity = l at hlast
  generalize c.1 >>> hb.granularity = f at hfirst
  generalize y >>> hb.granularity = x at hfirst hlast
  omega

/-- Every chunk the bulk phase may send from sector 0 passes the `assert`s
of `serialization_chunk`: it starts at a multiple of `sectors_per_chunk`,
a multiple of the alignment in bytes; it ends by the last element; and a
chunk shorter than `sectors_per_chunk` ends at the last element, in the
last group. -/
theorem chunkAligned_of_isBulkChunk {src : HBitmap} (hsrc : src.WF) (h9 : bdrvSectorBits ≤ src.granularity)
    (h28 : src.granularity < 28) {total : Nat} (horig : src.origSize = total <<< bdrvSectorBits) {p : Nat × Nat}
    (hp : IsBulkChunk (initSaveBitmapState src total) p) :
    ChunkAligned src (sectorBytes p).1 (sectorBytes p).2 := by
  have hspc := initSaveBitmapState_sectorsPerChunk h9 h28 total
  obtain ⟨-, hmod, hp2, -, hend, hlast⟩ := hp
  rw [hspc] at hmod hlast
  change p.1 % _ = 0 at hmod
  change p.1 + p.2 ≤ total at hend
  change p.2 = _ ∨ p.1 + p.2 = total at hlast
  change 9 ≤ src.granularity at h9
  -- in bytes, a chunk of `2^(g + 4)` sectors is `2^7` alignments of `2^(g + 6)` bytes
  have hchunk : 2 ^ (src.granularity + 4) * 2 ^ bdrvSectorBits = 2 ^ (src.granularity + 6) * 2 ^ 7 := by
    rw [← Nat.pow_add, ← Nat.pow_add]
    rfl
  have hbytes : ∀ n, n % 2 ^ (src.granularity + 4) = 0 → (n <<< bdrvSectorBits) % 2 ^ (src.granularity + 6) = 0 := by
    intro n hn
    obtain ⟨k, rfl⟩ := Nat.dvd_of_mod_eq_zero hn
    rw [Nat.shiftLeft_eq, Nat.mul_right_comm, hchunk, Nat.mul_assoc, Nat.mul_mod_right]
  have horig' : src.origSize = total * 512 := by
    rw [horig, Nat.shiftLeft_eq]
    rfl
  have hlastByte : (sectorBytes p).1 + (sectorBytes p).2 - 1 = (p.1 + p.2) * 512 - 1 := by
    simp only [sectorBytes, Nat.shiftLeft_eq]
    change p.1 * 512 + p.2 * 512 - 1 = _
    rw [Nat.add_mul]
  refine ⟨by omega, hbytes p.1 hmod, ?_, fun hne => ?_⟩
  · rw [hlastByte]
    exact hsrc.shiftRight_lt_size (by rw [horig']; have := Nat.mul_le_mul_right 512 hend; omega)
  · rcases hlast with hfull | hto
    · exact hbytes p.2 (by rw [hfull, Nat.mod_self])
    · -- the last chunk ends at the last element, in the last group
      rw [hlastByte, hto, ← horig', hsrc.shiftRight_pred_origSize (by omega)] at hne
      exact absurd rfl hne

/-- The bulk phase of dirty-bitmap migration: for a source bitmap of a
node of `total` sectors with a granularity from 512 bytes to `2^27`
bytes, and a destination of the same size and granularity, the bulk
phase completes within the rounds its chunks need, every chunk it sends
passes the `assert`s of `serialization_chunk`, the destination loads
them all without error, abort or cancellation, and after
`dirty_bitmap_load_complete` it has the invariant and holds the groups
of the source. -/
theorem dirtyBitmapMigration_bulk (hz : ∀ buf, isZero buf = true → ∀ b ∈ buf, b = 0)
    {src dst : HBitmap} (hsrc : src.WF) (hdst : dst.WF) (hg : dst.granularity = src.granularity)
    (hsize : dst.size = src.size) (h9 : bdrvSectorBits ≤ src.granularity) (h28 : src.granularity < 28)
    {total : Nat} (horig : src.origSize = total <<< bdrvSectorBits) (hmax : src.origSize ≤ int64Max)
    (hpos : 0 < total) {fuel : Nat} (hfuel : total ≤ fuel * (initSaveBitmapState src total).sectorsPerChunk)
    (flags : Nat) :
    ∃ cs dbms', bulkPhase isZero fuel (initSaveBitmapState src total) = some (cs, dbms') ∧
      dbms'.bulkCompleted = true ∧
      (∀ c ∈ cs, ChunkAligned src (c.startSector <<< bdrvSectorBits) (c.nrSectors <<< bdrvSectorBits)) ∧
      ∃ s, dirtyBitmapLoadChunks { flags, bitmap := dst, cancelled := false } cs = some (.ok s) ∧
        s.cancelled = false ∧ (dirtyBitmapLoadComplete s).bitmap.WF ∧
        (dirtyBitmapLoadComplete s).bitmap.dirty = src.dirty := by
  have hspc := initSaveBitmapState_sectorsPerChunk h9 h28 total
  have hal := fun p (hp : IsBulkChunk (initSaveBitmapState src total) p) =>
    chunkAligned_of_isBulkChunk hsrc h9 h28 horig hp
  change 9 ≤ src.granularity at h9
  have horig' : src.origSize = total * 512 := by
    rw [horig, Nat.shiftLeft_eq]
    rfl
  have hbytePos : ∀ n, 0 < n → 0 < n <<< bdrvSectorBits := fun n hn => by
    rw [Nat.shiftLeft_eq]
    exact Nat.mul_pos hn (Nat.two_pow_pos _)
  -- the chunks of sectors the source sends, from sector 0 to the end
  obtain ⟨runs, cs, dbms', hrun, hdone, hsent, hin, hcov⟩ := @bulkPhase_spec isZero fuel (initSaveBitmapState src total) rfl
    hpos (by rw [hspc]; exact Nat.two_pow_pos _) (by rw [hspc]; exact Nat.pow_lt_pow_right (by decide) (by omega))
    (by show total - 0 ≤ _; omega) fun p hp => sendBitmapBits_isSome (hbytePos _ hp.2.2.1) (hal p hp)
  -- each starts below `INT64_MAX` bytes and serializes to at most `10 * CHUNK_SIZE` bytes
  have hruns : ∀ p ∈ runs, 0 < p.2 ∧ p.1 <<< bdrvSectorBits < 2 ^ 64 ∧
      (chunkWords src (sectorBytes p).1 (sectorBytes p).2).2 * 8 ≤ 10 * chunkSize := by
    intro p hp
    obtain ⟨-, -, hp2, hpspc, hpend, -⟩ := hin p hp
    rw [hspc] at hpspc
    change p.1 + p.2 ≤ total at hpend
    have hbytes : p.2 <<< bdrvSectorBits ≤ 64 * 128 * 2 ^ src.granularity := by
      calc p.2 <<< bdrvSectorBits ≤ 2 ^ (src.granularity + 4) <<< bdrvSectorBits := shiftLeft_le_shiftLeft hpspc _
        _ = 64 * 128 * 2 ^ src.granularity := by
          have hexp : src.granularity + 4 + bdrvSectorBits = 13 + src.granularity := by
            change _ + 4 + 9 = _
            omega
          rw [Nat.shiftLeft_eq, ← Nat.pow_add, hexp, Nat.pow_add]
    have hn := @chunkWords_snd_le src (p.1 <<< bdrvSectorBits) _ 128 (hbytePos _ hp2) hbytes
    refine ⟨hp2, ?_, ?_⟩
    · rw [Nat.shiftLeft_eq]
      change p.1 * 512 < 2 ^ 64
      have : int64Max < 2 ^ 64 := by decide
      omega
    · change (chunkWords src (p.1 <<< bdrvSectorBits) (p.2 <<< bdrvSectorBits)).2 * 8 ≤ 10 * 1024
      omega
  -- the destination after the last chunk, and after `hbitmap_deserialize_finish`
  have hpos' : 0 < dst.size := by
    rw [hsize]
    have := hsrc.shiftRight_lt_size (show 0 < src.origSize by omega)
    rwa [Nat.zero_shiftRight] at this
  have hchunks := hbitmapDeserializeChunks_eq src (runs.map sectorBytes) (by
    intro c hc _
    obtain ⟨p, hp, rfl⟩ := List.mem_map.mp hc
    exact hal p (hin p hp)) dst hg hsize
  obtain ⟨flags', hload⟩ := dirtyBitmapLoadChunks_sendBitmapBits hz hsent hruns flags dst _ hg hsize hchunks
  obtain ⟨hwf, hmem⟩ := hbitmapDeserializeFinish_select hsrc hdst hsize hpos' (chunksCover src (runs.map sectorBytes))
  refine ⟨cs, dbms', hrun, hdone, fun c hc => ?_, _, hload, rfl, hwf, Set.ext fun x => (hmem x).trans ?_⟩
  · -- a chunk sent is sent for a run of sectors the bulk phase may send
    obtain ⟨p, hp, hpc⟩ := exists_run_of_mem_sent hsent hc
    obtain ⟨-, h1, h2⟩ := sendBitmapBits_fields hpc
    rw [h1, h2]
    exact hal p (hin p hp)
  by_cases hx : x < src.size
  · -- the first element of group `x` is in a sector that a chunk covers
    have hy := hsrc.shiftLeft_lt_origSize hx
    obtain ⟨p, hp, hp1, hp2⟩ := hcov ((x <<< src.granularity) / 512) (Nat.zero_le _) (by change _ < total; omega)
    have hbytes : (sectorBytes p).1 ≤ x <<< src.granularity ∧
        x <<< src.granularity < (sectorBytes p).1 + (sectorBytes p).2 := by
      simp only [sectorBytes, Nat.shiftLeft_eq]
      change p.1 * 512 ≤ _ ∧ _ < p.1 * 512 + p.2 * 512
      omega
    have hcover := chunksCover_of_mem src (List.mem_map_of_mem hp) hbytes.1 hbytes.2
    rw [shiftLeft_shiftRight] at hcover
    rw [if_pos hcover]
  · -- neither bitmap holds a group from `size` on
    have hsrc' : x ∉ src.dirty := fun h => hx h.1
    have hdst' : x ∉ dst.dirty := fun h => hx (hsize ▸ h.1)
    split <;> simp only [hsrc', hdst']

/-- `buffer_is_zero` on the buffer alone in memory is a zero test the
bulk phase may use: whichever entry of `accel_table` it runs, it answers
true only for an all-zero buffer. -/
theorem bufferIsZero_zeroTest {accel : (Nat → Option UInt8) → Nat → Nat → Option Bool} (h : accel ∈ accelTable)
    (constLen : Bool) (base : Nat) (buf : List UInt8)
    (hz : (bufferIsZero accel constLen (window base buf) base buf.length).getD false = true) : ∀ b ∈ buf, b = 0 := by
  rw [(bufferIsZero_exact base buf).1 accel h constLen, Option.getD_some, List.all_eq_true] at hz
  exact fun b hb => beq_iff_eq.mp (hz b hb)

/-- A node of 100 sectors whose bitmap, in groups of one sector, has
bytes 1000 to 5999 dirty, migrated in one chunk into a new bitmap, with
`buffer_is_zero` as the zero test. -/
theorem dirtyBitmapMigration_bulk_one_chunk :
    (∀ buf, (bufferIsZero bufferZeroAvx2 false (window 0 buf) 0 buf.length).getD false = true → ∀ b ∈ buf, b = 0) ∧
    (hbitmapSet (hbitmapAlloc 51200 9) 1000 5000).WF ∧ (hbitmapAlloc 51200 9).WF ∧
    (hbitmapAlloc 51200 9).granularity = (hbitmapSet (hbitmapAlloc 51200 9) 1000 5000).granularity ∧
    (hbitmapAlloc 51200 9).size = (hbitmapSet (hbitmapAlloc 51200 9) 1000 5000).size ∧
    bdrvSectorBits ≤ (hbitmapSet (hbitmapAlloc 51200 9) 1000 5000).granularity ∧
    (hbitmapSet (hbitmapAlloc 51200 9) 1000 5000).granularity < 28 ∧
    (hbitmapSet (hbitmapAlloc 51200 9) 1000 5000).origSize = 100 <<< bdrvSectorBits ∧
    (hbitmapSet (hbitmapAlloc 51200 9) 1000 5000).origSize ≤ int64Max ∧ 0 < 100 ∧
    100 ≤ 1 * (initSaveBitmapState (hbitmapSet (hbitmapAlloc 51200 9) 1000 5000) 100).sectorsPerChunk ∧
    ∃ cs dbms', bulkPhase (fun buf => (bufferIsZero bufferZeroAvx2 false (window 0 buf) 0 buf.length).getD false) 1
        (initSaveBitmapState (hbitmapSet (hbitmapAlloc 51200 9) 1000 5000) 100) = some (cs, dbms') ∧
      dbms'.bulkCompleted = true ∧
      (∀ c ∈ cs, ChunkAligned (hbitmapSet (hbitmapAlloc 51200 9) 1000 5000) (c.startSector <<< bdrvSectorBits)
        (c.nrSectors <<< bdrvSectorBits)) ∧
      ∃ s, dirtyBitmapLoadChunks { flags := 0, bitmap := hbitmapAlloc 51200 9, cancelled := false } cs = some (.ok s) ∧
        s.cancelled = false ∧ (dirtyBitmapLoadComplete s).bitmap.WF ∧
        (dirtyBitmapLoadComplete s).bitmap.dirty = (hbitmapSet (hbitmapAlloc 51200 9) 1000 5000).dirty := by
  have hz := bufferIsZero_zeroTest (show bufferZeroAvx2 ∈ accelTable by simp [accelTable]) false 0
  have hdst : (hbitmapAlloc 51200 9).WF := hbitmapAlloc_wf (by decide)
  have hsrc : (hbitmapSet (hbitmapAlloc 51200 9) 1000 5000).WF := hbitmapSet_wf hdst (by decide)
  have hg : (hbitmapAlloc 51200 9).granularity = (hbitmapSet (hbitmapAlloc 51200 9) 1000 5000).granularity := by simp
  have hsize : (hbitmapAlloc 51200 9).size = (hbitmapSet (hbitmapAlloc 51200 9) 1000 5000).size := by simp
  have hfuel : 100 ≤ 1 * (initSaveBitmapState (hbitmapSet (hbitmapAlloc 51200 9) 1000 5000) 100).sectorsPerChunk := by
    decide
  exact ⟨hz, hsrc, hdst, hg, hsize, by decide, by decide, by decide, by decide, by decide, hfuel,
    dirtyBitmapMigration_bulk hz hsrc hdst hg hsize (by decide) (by decide) (by decide) (by decide) (by decide)
      hfuel 0⟩

end Migration

end QemuFormal.DirtyBitmap

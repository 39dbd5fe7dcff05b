/-
QemuFormal.Util.HbitmapSerialize — migrating a bitmap: its last level
written out by `hbitmap_serialize_part`, read back by
`hbitmap_deserialize_part`, and the levels above rebuilt by
`hbitmap_deserialize_finish`.

A chunk `[start, start + count)` of elements stands for a range of words
of the last level (`serialization_chunk`), provided it passes the
`assert`s there: `start` aligned to 64 groups, the last group below
`size`, `count` aligned unless the chunk ends at the last group
(`ChunkAligned`, `serializationChunk_eq`); any other chunk aborts.
`hbitmap_serialize_part` writes those words as little-endian bytes and
`hbitmap_deserialize_part` reads them back: each word survives the trip
(`bufWord_wordBytes`), so a chunk copies the words it covers from the
source (`hbitmapCopyChunk_eq`, `hbitmapDeserializeChunks_eq`).

`hbitmap_deserialize_finish` trusts the last level and rebuilds every
level above it, each bit set iff the word below it is non-zero, then the
sentinel and the count. From any last level with no bit past `size`, on a
bitmap whose sizes are those `hbitmap_alloc` gives, it makes a bitmap with
the invariant (`hbitmapDeserializeFinish_wf`).

`hbitmapDeserializeChunks_finish`: deserializing chunks of a source that
pass the `assert`s into a destination of the same size and granularity
returns, and finishing then gives a bitmap with the invariant whose
groups are the source's on the words the chunks cover and the
destination's elsewhere.
-/
import QemuFormal.Util.HbitmapUpdate

namespace QemuFormal.Hbitmap

open Bits
open Function (update update_self update_of_ne)
open QemuFormal.Bitmap (bitsPerLong)

/-! ## The bytes of a word -/

section Bytes

theorem length_wordBytes (w : UInt64) : (wordBytes w).length = 8 := by
  simp [wordBytes]

/-- A buffer whose bytes `8 k` to `8 k + 7` are those of `w`, least
significant first, holds `w` as its word `k`. -/
theorem bufWord_eq {buf : List UInt8} {k : Nat} {w : UInt64}
    (hbytes : ∀ j < 8, buf.getD (8 * k + j) 0 = (w >>> (8 * j).toUInt64).toUInt8) : bufWord buf k = w := by
  apply ext_bit
  intro b hb
  -- byte `j` puts bits `8 j` to `8 j + 7` of `w` in place, and no other
  have hterm : ∀ j < 8, bit ((buf.getD (8 * k + j) 0).toUInt64 <<< (8 * j).toUInt64) b =
      (decide (8 * j ≤ b ∧ b < 8 * j + 8) && bit w b) := by
    intro j hj
    have hs : (8 * j).toUInt64.toNat = 8 * j :=
      UInt64.toNat_ofNat_of_lt' (lt_of_lt_of_le (show 8 * j < 64 by omega) (by decide))
    rw [hbytes j hj, bit_shiftLeft _ _ (by omega), hs, bit_toUInt8_toUInt64, bit_shiftRight _ _ (by omega), hs]
    by_cases hjb : 8 * j ≤ b
    · rw [Nat.add_sub_cancel' hjb]
      by_cases hlt : b < 8 * j + 8
      · simp [hb, hjb, hlt, show b - 8 * j < 8 by omega]
      · simp [hlt, show ¬b - 8 * j < 8 by omega]
    · simp [hjb]
  have hfold := bit_foldl_or (fun j => (buf.getD (8 * k + j) 0).toUInt64 <<< (8 * j).toUInt64) (List.range 8) 0 b
  unfold bufWord
  rw [hfold, bit_zero, Bool.false_or]
  apply Bool.eq_iff_iff.mpr
  rw [List.any_eq_true]
  constructor
  · rintro ⟨j, hj, hbit⟩
    rw [List.mem_range] at hj
    rw [hterm j hj, Bool.and_eq_true] at hbit
    exact hbit.2
  · intro hw
    refine ⟨b / 8, List.mem_range.mpr (by omega), ?_⟩
    rw [hterm _ (by omega), hw, Bool.and_true]
    exact decide_eq_true (by omega)

theorem length_flatMap_wordBytes (f : Nat → UInt64) (n : Nat) :
    ((List.range n).flatMap fun k => wordBytes (f k)).length = 8 * n := by
  induction n with
  | zero => rfl
  | succ n ih =>
    rw [List.range_succ, List.flatMap_append, List.length_append, ih, List.flatMap_singleton, length_wordBytes]
    omega

/-- Byte `j` of word `k` of a run of encoded words. -/
theorem getD_flatMap_wordBytes (f : Nat → UInt64) {n k j : Nat} (hk : k < n) (hj : j < 8) :
    ((List.range n).flatMap fun k => wordBytes (f k)).getD (8 * k + j) 0 = (f k >>> (8 * j).toUInt64).toUInt8 := by
  induction n with
  | zero => omega
  | succ n ih =>
    rw [List.range_succ, List.flatMap_append, List.flatMap_singleton]
    rcases Nat.lt_or_ge k n with hkn | hkn
    · rw [List.getD_append _ _ _ _ (by rw [length_flatMap_wordBytes]; omega), ih hkn]
    · obtain rfl : k = n := by omega
      rw [List.getD_append_right _ _ _ _ (by rw [length_flatMap_wordBytes]; omega), length_flatMap_wordBytes,
        Nat.add_sub_cancel_left]
      simp [wordBytes, hj]

/-- `le64_to_cpus` after `memcpy` reads back each word `cpu_to_le64` wrote. -/
theorem bufWord_wordBytes (f : Nat → UInt64) {n k : Nat} (hk : k < n) :
    bufWord ((List.range n).flatMap fun k => wordBytes (f k)) k = f k :=
  bufWord_eq fun _ hj => getD_flatMap_wordBytes f hk hj

end Bytes

/-! ## The `assert`s of `serialization_chunk` -/

section Asserts

/-- The words of the last level that a chunk of elements stands for, the
first and how many, as `serialization_chunk` computes them once its
`assert`s pass. -/
def chunkWords (hb : HBitmap) (start count : Nat) : Nat × Nat :=
  let first := (start >>> hb.granularity) >>> bitsPerLevel
  (first, ((start + count - 1) >>> hb.granularity) >>> bitsPerLevel - first + 1)

/-- The `assert`s of `serialization_chunk` in arithmetic: the bitmap is
serializable, `start` is a multiple of the alignment `2^(granularity + 6)`,
the last group is below `size`, and `count` is a multiple of the
alignment unless the chunk ends at the last group. -/
def ChunkAligned (hb : HBitmap) (start count : Nat) : Prop :=
  hb.granularity < 58 ∧ start % 2 ^ (hb.granularity + 6) = 0 ∧
    (start + count - 1) >>> hb.granularity < hb.size ∧
    ((start + count - 1) >>> hb.granularity ≠ hb.size - 1 → count % 2 ^ (hb.granularity + 6) = 0)

instance (hb : HBitmap) (start count : Nat) : Decidable (ChunkAligned hb start count) := by
  unfold ChunkAligned
  infer_instance

/-- The mask `gran - 1` of `serialization_chunk` takes the remainder by
the alignment. -/
theorem and_serializationAlign_sub_one (g x : Nat) : x &&& (64 <<< g - 1) = x % 2 ^ (g + 6) := by
  rw [show 64 <<< g = 2 ^ (g + 6) by rw [Nat.shiftLeft_eq, Nat.pow_add, Nat.mul_comm], Nat.and_two_pow_sub_one_eq_mod]

/-- `serialization_chunk` returns the words of the chunk exactly when its
`assert`s pass. -/
theorem serializationChunk_eq (hb : HBitmap) (start count : Nat) :
    serializationChunk hb start count =
      if ChunkAligned hb start count then some (chunkWords hb start count) else none := by
  unfold serializationChunk hbitmapSerializationAlign hbitmapIsSerializable ChunkAligned chunkWords
  by_cases hs : hb.granularity < 58
  · simp only [hs, decide_true, if_true, Option.bind_eq_bind, Option.bind_some, and_serializationAlign_sub_one,
      true_and]
    -- the three `assert`s in turn
    by_cases h1 : start % 2 ^ (hb.granularity + 6) = 0
    · by_cases h2 : (start + count - 1) >>> hb.granularity < hb.size
      · by_cases h3 : (start + count - 1) >>> hb.granularity ≠ hb.size - 1 → count % 2 ^ (hb.granularity + 6) = 0
        · simp only [h1, h2, ne_eq, not_true_eq_false, if_false, true_and]
          rw [if_neg (by tauto)]
          exact (if_pos h3).symm
        · simp only [h1, h2, ne_eq, not_true_eq_false, if_false, true_and]
          rw [if_pos (by tauto)]
          exact (if_neg h3).symm
      · simp [h1, h2]
    · simp [h1]
  · simp [hs]

theorem serializationChunk_of_aligned {hb : HBitmap} {start count : Nat} (h : ChunkAligned hb start count) :
    serializationChunk hb start count = some (chunkWords hb start count) := by
  rw [serializationChunk_eq, if_pos h]

theorem aligned_of_serializationChunk {hb : HBitmap} {start count : Nat} {p : Nat × Nat}
    (h : serializationChunk hb start count = some p) : ChunkAligned hb start count ∧ p = chunkWords hb start count := by
  rw [serializationChunk_eq] at h
  split at h
  · exact ⟨by assumption, (Option.some.inj h).symm⟩
  · cases h

/-- `serialization_chunk` reads only the granularity and the size. -/
theorem serializationChunk_congr {hb hb' : HBitmap} (hg : hb.granularity = hb'.granularity) (hs : hb.size = hb'.size) :
    serializationChunk hb = serializationChunk hb' := by
  unfold serializationChunk hbitmapSerializationAlign hbitmapIsSerializable
  rw [hg, hs]

theorem hbitmapSerializationSize_congr {hb hb' : HBitmap} (hg : hb.granularity = hb'.granularity)
    (hs : hb.size = hb'.size) : hbitmapSerializationSize hb = hbitmapSerializationSize hb' := by
  unfold hbitmapSerializationSize
  rw [serializationChunk_congr hg hs]

/-- The last element of a bitmap with the invariant is in its last group,
so a chunk that ends there passes the third `assert` whatever its count. -/
theorem HBitmap.WF.shiftRight_pred_origSize {hb : HBitmap} (hwf : hb.WF) (hpos : 0 < hb.origSize) :
    (hb.origSize - 1) >>> hb.granularity = hb.size - 1 := by
  have hG := Nat.two_pow_pos hb.granularity
  rw [hwf.size_eq, Nat.shiftRight_eq_div_pow, Nat.shiftRight_eq_div_pow, Nat.one_shiftLeft,
    show hb.origSize + 2 ^ hb.granularity - 1 = hb.origSize - 1 + 2 ^ hb.granularity by omega,
    Nat.add_div_right _ hG, Nat.add_sub_cancel]

theorem hbitmapSerializationSize_of_aligned {hb : HBitmap} {start count : Nat} (hc : 0 < count)
    (h : ChunkAligned hb start count) :
    hbitmapSerializationSize hb start count = some ((chunkWords hb start count).2 * 8) := by
  rw [hbitmapSerializationSize, if_neg (Nat.pos_iff_ne_zero.mp hc), serializationChunk_of_aligned h]
  rfl

theorem hbitmapSerializePart_of_aligned {hb : HBitmap} {start count : Nat} (hc : 0 < count)
    (h : ChunkAligned hb start count) :
    hbitmapSerializePart hb start count = some ((List.range (chunkWords hb start count).2).flatMap fun k =>
      wordBytes (hb.levels 6 ((chunkWords hb start count).1 + k))) := by
  rw [hbitmapSerializePart, if_neg (Nat.pos_iff_ne_zero.mp hc), serializationChunk_of_aligned h]
  rfl

/-- `hbitmap_deserialize_part` without `finish`, on a chunk that passes
the `assert`s: the words of the chunk read from the buffer. -/
theorem hbitmapDeserializePart_of_aligned (hb : HBitmap) (buf : List UInt8) {start count : Nat} (hc : 0 < count)
    (h : ChunkAligned hb start count) :
    hbitmapDeserializePart hb buf start count false =
      some { hb with levels := update hb.levels 6 fun j =>
               if (chunkWords hb start count).1 ≤ j ∧
                   j < (chunkWords hb start count).1 + (chunkWords hb start count).2 then
                 bufWord buf (j - (chunkWords hb start count).1)
               else hb.levels 6 j } := by
  rw [hbitmapDeserializePart, if_neg (Nat.pos_iff_ne_zero.mp hc), serializationChunk_of_aligned h]
  rfl

/-- A chunk `hbitmap_serialize_part` writes passed the `assert`s. -/
theorem aligned_of_hbitmapSerializePart {hb : HBitmap} {buf : List UInt8} {start count : Nat} (hc : 0 < count)
    (h : hbitmapSerializePart hb start count = some buf) : ChunkAligned hb start count := by
  rw [hbitmapSerializePart, if_neg (Nat.pos_iff_ne_zero.mp hc), Option.bind_eq_bind, Option.bind_eq_some_iff] at h
  obtain ⟨p, hp, -⟩ := h
  exact (aligned_of_serializationChunk hp).1

end Asserts

/-! ## `hbitmap_deserialize_part`, chunk by chunk -/

section Chunks

/-- Whether one of `chunks` stands for word `j` of the last level. -/
def chunksCover (hb : HBitmap) (chunks : List (Nat × Nat)) (j : Nat) : Bool :=
  chunks.any fun c => decide (0 < c.2 ∧ (chunkWords hb c.1 c.2).1 ≤ j ∧
    j < (chunkWords hb c.1 c.2).1 + (chunkWords hb c.1 c.2).2)

/-- One chunk of a migration: `hbitmap_serialize_part(src, buf, start,
count)`, then `hbitmap_deserialize_part(hb, buf, start, count, false)`. -/
def hbitmapCopyChunk (src hb : HBitmap) (c : Nat × Nat) : Option HBitmap := do
  let buf ← hbitmapSerializePart src c.1 c.2
  hbitmapDeserializePart hb buf c.1 c.2 false

/-- `hbitmapCopyChunk` for each chunk in turn: a migration before its
last call. -/
def hbitmapDeserializeChunks (src dst : HBitmap) (chunks : List (Nat × Nat)) : Option HBitmap :=
  chunks.foldlM (hbitmapCopyChunk src) dst

theorem hbitmapDeserializeChunks_cons (src dst : HBitmap) (c : Nat × Nat) (chunks : List (Nat × Nat)) :
    hbitmapDeserializeChunks src dst (c :: chunks) =
      (hbitmapCopyChunk src dst c).bind fun hb => hbitmapDeserializeChunks src hb chunks := rfl

/-- Word `k` of the chunk written by `hbitmap_serialize_part`. -/
theorem bufWord_hbitmapSerializePart {hb : HBitmap} {start count k : Nat} {buf : List UInt8} (hc : 0 < count)
    (h : hbitmapSerializePart hb start count = some buf) (hk : k < (chunkWords hb start count).2) :
    bufWord buf k = hb.levels 6 ((chunkWords hb start count).1 + k) := by
  rw [hbitmapSerializePart, if_neg (Nat.pos_iff_ne_zero.mp hc), Option.bind_eq_bind, Option.bind_eq_some_iff] at h
  obtain ⟨p, hp, hbuf⟩ := h
  obtain ⟨-, rfl⟩ := aligned_of_serializationChunk hp
  cases hbuf
  exact bufWord_wordBytes (fun k => hb.levels (hbitmapLevels - 1) ((chunkWords hb start count).1 + k)) hk

/-- One chunk that passes the `assert`s copies from `src` the words of
the last level it stands for. -/
theorem hbitmapCopyChunk_eq {src dst : HBitmap} (hg : dst.granularity = src.granularity) (hs : dst.size = src.size)
    {c : Nat × Nat} (hal : 0 < c.2 → ChunkAligned src c.1 c.2) :
    hbitmapCopyChunk src dst c =
      some { dst with levels := update dst.levels 6 fun j =>
               if chunksCover src [c] j then src.levels 6 j else dst.levels 6 j } := by
  rcases Nat.eq_zero_or_pos c.2 with h0 | hc
  · simp [hbitmapCopyChunk, hbitmapSerializePart, hbitmapDeserializePart, h0, chunksCover, Function.update_eq_self]
  have hal' : ChunkAligned dst c.1 c.2 := by
    have h := serializationChunk_of_aligned (hal hc)
    rw [← serializationChunk_congr hg hs] at h
    exact (aligned_of_serializationChunk h).1
  have hwords : chunkWords dst c.1 c.2 = chunkWords src c.1 c.2 := by
    unfold chunkWords
    rw [hg]
  have hser := hbitmapSerializePart_of_aligned hc (hal hc)
  rw [hbitmapCopyChunk, hser, Option.bind_eq_bind, Option.bind_some, hbitmapDeserializePart_of_aligned dst _ hc hal',
    hwords]
  congr 3
  funext j
  simp only [chunksCover, List.any_cons, List.any_nil, Bool.or_false, decide_eq_true_eq, hc, true_and]
  split_ifs with hj
  · rw [bufWord_hbitmapSerializePart hc hser (by omega), Nat.add_sub_cancel' hj.1]
  · rfl

/-- A chunk that `hbitmapCopyChunk` loads changes only the levels. -/
theorem hbitmapCopyChunk_shape {src dst hb : HBitmap} {c : Nat × Nat} (h : hbitmapCopyChunk src dst c = some hb) :
    hb.granularity = dst.granularity ∧ hb.size = dst.size := by
  rw [hbitmapCopyChunk, Option.bind_eq_bind, Option.bind_eq_some_iff] at h
  obtain ⟨buf, -, h⟩ := h
  unfold hbitmapDeserializePart at h
  split at h
  · cases h
    exact ⟨rfl, rfl⟩
  · rw [Option.bind_eq_bind, Option.bind_eq_some_iff] at h
    obtain ⟨p, -, h⟩ := h
    cases h
    exact ⟨rfl, rfl⟩

/-- After any list of chunks that pass the `assert`s, the last level holds
the words of `src` that some chunk stands for and those of `dst`
elsewhere; nothing else changes. -/
theorem hbitmapDeserializeChunks_eq (src : HBitmap) (chunks : List (Nat × Nat))
    (hok : ∀ c ∈ chunks, 0 < c.2 → ChunkAligned src c.1 c.2) :
    ∀ dst : HBitmap, dst.granularity = src.granularity → dst.size = src.size →
      hbitmapDeserializeChunks src dst chunks =
        some { dst with levels := update dst.levels 6 fun j =>
                 if chunksCover src chunks j then src.levels 6 j else dst.levels 6 j } := by
  induction chunks with
  | nil =>
    intro dst _ _
    simp [hbitmapDeserializeChunks, chunksCover, Function.update_eq_self]
  | cons c chunks ih =>
    intro dst hg hs
    -- the first chunk, then the rest from where it left the bitmap
    have hpart := hbitmapCopyChunk_eq hg hs (hok c List.mem_cons_self)
    have hrest := ih (fun c' hc' => hok c' (List.mem_cons_of_mem c hc'))
    rw [hbitmapDeserializeChunks_cons, hpart, Option.bind_some, hrest _ (by exact hg) (by exact hs),
      Function.update_idem]
    congr 4
    funext j
    have hcons : chunksCover src (c :: chunks) j = (chunksCover src [c] j || chunksCover src chunks j) := by
      simp [chunksCover]
    rw [hcons]
    cases chunksCover src chunks j <;> simp

end Chunks

/-! ## `hbitmap_deserialize_finish` -/

section Finish

/-- The inner loop of `hbitmap_deserialize_finish` over the words `l` of
the level below: it sets the bit of each non-zero one. -/
theorem arrayBit_finishFold (below : Nat → UInt64) (l : List Nat) (w : Nat → UInt64) (q : Nat) :
    arrayBit (l.foldl (fun w i => if below i ≠ 0 then update w (i >>> bitsPerLevel)
        (w (i >>> bitsPerLevel) ||| (1 <<< (i &&& (bitsPerLong - 1)).toUInt64)) else w) w) q =
      (arrayBit w q || l.any fun i => decide (below i ≠ 0) && i == q) := by
  induction l generalizing w with
  | nil => simp
  | cons i l ih =>
    rw [List.foldl_cons, ih, List.any_cons]
    by_cases hi : below i ≠ 0
    · rw [if_pos hi, arrayBit_update, shiftRight_bitsPerLevel, and_bitsPerLong_sub_one]
      by_cases hq : q / 64 = i / 64
      · -- the same word: bit `q` is set now iff it was or `q = i`
        have hiq : (i == q) = decide (q % 64 = i % 64) := by
          rw [Bool.eq_iff_iff, beq_iff_eq, decide_eq_true_iff]
          omega
        rw [if_pos hq, bit_or, bit_single (Nat.mod_lt _ (by decide)) (Nat.mod_lt _ (by decide)), hiq,
          decide_eq_true hi, Bool.true_and]
        unfold arrayBit
        rw [hq, Bool.or_assoc]
      · have hiq : (i == q) = false := by
          rw [beq_eq_false_iff_ne]
          rintro rfl
          exact hq rfl
        rw [if_neg hq, hiq, Bool.and_false, Bool.false_or]
    · rw [if_neg hi, decide_eq_false hi, Bool.false_and, Bool.false_or]

/-- The loop of `hbitmap_deserialize_finish` from level `lev - 1` up, with
level lengths `S` in which each is the number of words for the one below:
the levels from `lev` down are as they were, and each level above `lev`
holds, for each word of the level below as rebuilt, whether it is
non-zero. -/
theorem hbitmapDeserializeFinishLoop_spec (S : Nat → Nat) (lev : Nat) :
    ∀ levels : Nat → Nat → UInt64, (∀ k < lev, S k = wordsFor (S (k + 1))) →
      (∀ k, lev ≤ k → hbitmapDeserializeFinishLoop lev (S lev) levels k = levels k) ∧
      ∀ k < lev, ∀ q < 64 * S k, arrayBit (hbitmapDeserializeFinishLoop lev (S lev) levels k) q =
        (decide (q < S (k + 1)) && hbitmapDeserializeFinishLoop lev (S lev) levels (k + 1) q != 0) := by
  induction lev with
  | zero => exact fun levels _ => ⟨fun _ _ => rfl, fun _ hk => absurd hk (Nat.not_lt_zero _)⟩
  | succ lev ih =>
    intro levels hS
    have hsize : max ((S (lev + 1) + bitsPerLong - 1) >>> bitsPerLevel) 1 = S lev := by
      rw [wordsFor_eq_shift, hS lev (by omega)]
    -- this pass rebuilds level `lev` from level `lev + 1`; the loop then goes on from `lev`
    simp only [hbitmapDeserializeFinishLoop, hsize]
    generalize hW : (List.range (S (lev + 1))).foldl (fun w i => if levels (lev + 1) i ≠ 0 then
        update w (i >>> bitsPerLevel) (w (i >>> bitsPerLevel) ||| (1 <<< (i &&& (bitsPerLong - 1)).toUInt64))
        else w) (fun j => if j < S lev then 0 else levels lev j) = W
    obtain ⟨hkeep, hsum⟩ := ih (update levels lev W) fun k hk => hS k (by omega)
    have hW' : ∀ q < 64 * S lev, arrayBit W q = (decide (q < S (lev + 1)) && levels (lev + 1) q != 0) := by
      intro q hq
      rw [← hW, arrayBit_finishFold]
      -- the word was cleared first, and `q` is one of the words below iff `q < S (lev + 1)`
      have hzero : arrayBit (fun j => if j < S lev then 0 else levels lev j) q = false := by
        unfold arrayBit
        dsimp only
        rw [if_pos (by omega), bit_zero]
      rw [hzero, Bool.false_or]
      apply Bool.eq_iff_iff.mpr
      simp only [List.any_eq_true, List.mem_range, Bool.and_eq_true, decide_eq_true_eq, beq_iff_eq, bne_iff_ne]
      constructor
      · rintro ⟨i, hi, hne, rfl⟩
        exact ⟨hi, hne⟩
      · rintro ⟨hi, hne⟩
        exact ⟨q, hi, hne, rfl⟩
    refine ⟨fun k hk => ?_, fun k hk q hq => ?_⟩
    · rw [hkeep k (by omega), update_of_ne (by omega)]
    · rcases Nat.lt_or_ge k lev with hkl | hkl
      · exact hsum k hkl q hq
      · obtain rfl : k = lev := by omega
        rw [hkeep k le_rfl, update_self, hkeep (k + 1) (by omega), update_of_ne (by omega), hW' q hq]

/-- `hbitmap_deserialize_finish` on the sizes of a bitmap with the
invariant and any last level with no bit past `size`: the levels above
are rebuilt to summarise it, and the result has the invariant. The last
level is kept as it is. -/
theorem hbitmapDeserializeFinish_wf {hb : HBitmap} (hwf : hb.WF) (hpos : 0 < hb.size) (L : Nat → Nat → UInt64)
    (htail : ∀ j < bitsPerLong * hb.sizes 6, hb.size ≤ j → arrayBit (L 6) j = false) :
    (hbitmapDeserializeFinish { hb with levels := L }).WF ∧
      (hbitmapDeserializeFinish { hb with levels := L }).levels 6 = L 6 := by
  obtain ⟨hkeep, hsum⟩ := hbitmapDeserializeFinishLoop_spec hb.sizes 6 L fun k hk => hwf.sizes_succ k hk
  generalize hF : hbitmapDeserializeFinishLoop 6 (hb.sizes 6) L = F at hkeep hsum
  have hsize : max ((hb.size + bitsPerLong - 1) >>> bitsPerLevel) 1 = hb.sizes 6 := by
    rw [wordsFor_eq_shift, ← hwf.sizes_last]
    rfl
  -- the bitmap with the rebuilt levels and the count the invariant asks for
  let hb2 : HBitmap := { hb with levels := setLevelWord F 0 0 (F 0 0 ||| hbitmapSentinel) }
  let hb3 : HBitmap := { hb2 with count := (List.range hb.size).countP (arrayBit (hb2.levels (hbitmapLevels - 1))) }
  have hfin : hbitmapDeserializeFinish { hb with levels := L } = { hb2 with count := hbCountBetween hb2 0 (hb.size - 1) } := by
    simp only [hbitmapDeserializeFinish, hsize, hbitmapLevels_sub_one, hF]
    rfl
  have hlev : ∀ i, i ≠ 0 → hb2.levels i = F i := fun i hi => update_of_ne hi _ _
  have hwf3 : hb3.WF := by
    refine ⟨hwf.size_eq, hwf.size_le, hwf.sizes_last, hwf.sizes_succ, fun i hi j hj => ?_, fun j hj hsj => ?_, rfl⟩
    · -- the summary: from the loop above level 0, and with the sentinel at level 0
      have hi6 : i < 6 := hi
      change arrayBit (hb2.levels i) j = ((decide (j < hb.sizes (i + 1)) && hb2.levels (i + 1) j != 0) ||
        (i == 0 && j == bitsPerLong - 1))
      rw [hlev (i + 1) (Nat.succ_ne_zero i)]
      have hj' : j < 64 * hb.sizes i := hj
      rcases Nat.eq_zero_or_pos i with rfl | hi0
      · have hj64 : j < 64 := by
          rw [hwf.sizes_zero] at hj'
          omega
        have hsum0 := hsum 0 (by decide) j hj'
        unfold arrayBit at hsum0 ⊢
        rw [show j / 64 = 0 by omega, show j % 64 = j by omega] at hsum0 ⊢
        show bit (update (F 0) 0 (F 0 0 ||| hbitmapSentinel) 0) j = _
        rw [update_self, bit_or, hsum0, bit_hbitmapSentinel]
        rfl
      · rw [hlev i (by omega), hsum i hi6 j hj']
        simp [Nat.pos_iff_ne_zero.mp hi0]
    · -- past `size`: the last level is `L 6`
      change arrayBit (hb2.levels 6) j = false
      rw [hlev 6 (by decide), hkeep 6 le_rfl]
      exact htail j hj hsj
  -- the count `hb_count_between` recomputes is the one the invariant asks for
  have hcount : hbCountBetween hb2 0 (hb.size - 1) = hb3.count := hbCountBetween_all hwf3 hpos
  refine ⟨?_, ?_⟩
  · rw [hfin, hcount]
    exact hwf3
  · rw [hfin]
    show hb2.levels 6 = L 6
    rw [hlev 6 (by decide), hkeep 6 le_rfl]

end Finish

/-! ## Migration -/

@[simp] theorem hbitmapDeserializeFinish_size (hb : HBitmap) : (hbitmapDeserializeFinish hb).size = hb.size := rfl

/-- Finishing a last level whose words come from `src` where `P` holds and
from `dst` elsewhere, for bitmaps of one size with the invariant, gives a
bitmap with the invariant; it holds the groups of `src` on the words where
`P` holds and those of `dst` elsewhere. -/
theorem hbitmapDeserializeFinish_select {src dst : HBitmap} (hsrc : src.WF) (hdst : dst.WF)
    (hsize : dst.size = src.size) (hpos : 0 < dst.size) (P : Nat → Bool) :
    (hbitmapDeserializeFinish { dst with levels := update dst.levels 6 fun j => if P j then src.levels 6 j else dst.levels 6 j }).WF ∧
      ∀ x, x ∈ (hbitmapDeserializeFinish { dst with levels := update dst.levels 6 fun j => if P j then src.levels 6 j else dst.levels 6 j }).dirty ↔
        if P (x / 64) then x ∈ src.dirty else x ∈ dst.dirty := by
  -- the last level: word by word from `src` or from `dst`
  have hlast : ∀ x, arrayBit (update dst.levels 6 (fun j => if P j then src.levels 6 j
      else dst.levels 6 j) 6) x =
        if P (x / 64) then arrayBit (src.levels 6) x else arrayBit (dst.levels 6) x := by
    intro x
    unfold arrayBit
    rw [update_self]
    split <;> rfl
  have hsizes : src.sizes 6 = dst.sizes 6 := by
    have h1 := hsrc.sizes_last
    have h2 := hdst.sizes_last
    rw [hbitmapLevels_sub_one] at h1 h2
    rw [h1, h2, hsize]
  obtain ⟨hwf, hlev⟩ := hbitmapDeserializeFinish_wf hdst hpos _ fun j hj hsj => by
    have htail_src := hsrc.tail j (by rw [hbitmapLevels_sub_one, hsizes]; exact hj) (hsize ▸ hsj)
    have htail_dst := hdst.tail j (by rw [hbitmapLevels_sub_one]; exact hj) hsj
    rw [hbitmapLevels_sub_one] at htail_src htail_dst
    rw [hlast]
    split
    · exact htail_src
    · exact htail_dst
  refine ⟨hwf, fun x => ?_⟩
  simp only [HBitmap.dirty, hbitmapDeserializeFinish_size, hbitmapLevels_sub_one, hlev, hlast, Set.mem_ofPred_eq]
  split
  · rw [hsize]
  · rfl

/-- Deserializing chunks of `src` that pass the `assert`s of
`serialization_chunk` into `dst`, of the same size and granularity,
returns; finishing then gives a bitmap with the invariant, which holds
the groups of `src` on the words of the last level that a chunk covers,
and those of `dst` elsewhere. -/
theorem hbitmapDeserializeChunks_finish {src dst : HBitmap} (hsrc : src.WF) (hdst : dst.WF)
    (hg : dst.granularity = src.granularity) (hsize : dst.size = src.size) (hpos : 0 < dst.size)
    (chunks : List (Nat × Nat)) (hok : ∀ c ∈ chunks, 0 < c.2 → ChunkAligned src c.1 c.2) :
    ∃ hb, hbitmapDeserializeChunks src dst chunks = some hb ∧ (hbitmapDeserializeFinish hb).WF ∧
      ∀ x, x ∈ (hbitmapDeserializeFinish hb).dirty ↔
        if chunksCover src chunks (x / 64) then x ∈ src.dirty else x ∈ dst.dirty :=
  ⟨_, hbitmapDeserializeChunks_eq src chunks hok dst hg hsize, hbitmapDeserializeFinish_select hsrc hdst hsize hpos _⟩

/-- A bitmap of 500 elements in groups of 4 with elements 100 to 299 set,
migrated into a new one in a chunk of 256 elements and a last, shorter
one. -/
theorem hbitmapDeserializeChunks_finish_two_chunks :
    (hbitmapSet (hbitmapAlloc 500 2) 100 200).WF ∧ (hbitmapAlloc 500 2).WF ∧
      (hbitmapAlloc 500 2).granularity = (hbitmapSet (hbitmapAlloc 500 2) 100 200).granularity ∧
      (hbitmapAlloc 500 2).size = (hbitmapSet (hbitmapAlloc 500 2) 100 200).size ∧ 0 < (hbitmapAlloc 500 2).size ∧
      (∀ c ∈ [(0, 256), (256, 244)], 0 < c.2 → ChunkAligned (hbitmapSet (hbitmapAlloc 500 2) 100 200) c.1 c.2) ∧
      ∃ hb, hbitmapDeserializeChunks (hbitmapSet (hbitmapAlloc 500 2) 100 200) (hbitmapAlloc 500 2)
          [(0, 256), (256, 244)] = some hb ∧ (hbitmapDeserializeFinish hb).WF ∧
        ∀ x, x ∈ (hbitmapDeserializeFinish hb).dirty ↔
          if chunksCover (hbitmapSet (hbitmapAlloc 500 2) 100 200) [(0, 256), (256, 244)] (x / 64) then
            x ∈ (hbitmapSet (hbitmapAlloc 500 2) 100 200).dirty else x ∈ (hbitmapAlloc 500 2).dirty := by
  have hdst : (hbitmapAlloc 500 2).WF := hbitmapAlloc_wf (by decide)
  have hsrc : (hbitmapSet (hbitmapAlloc 500 2) 100 200).WF := hbitmapSet_wf hdst (by decide)
  have hg : (hbitmapAlloc 500 2).granularity = (hbitmapSet (hbitmapAlloc 500 2) 100 200).granularity := by simp
  have hsize : (hbitmapAlloc 500 2).size = (hbitmapSet (hbitmapAlloc 500 2) 100 200).size := by simp
  have hok : ∀ c ∈ [(0, 256), (256, 244)], 0 < c.2 → ChunkAligned (hbitmapSet (hbitmapAlloc 500 2) 100 200) c.1 c.2 := by
    simp only [ChunkAligned, hbitmapSet_granularity, hbitmapSet_size]
    decide
  exact ⟨hsrc, hdst, hg, hsize, by decide, hok, hbitmapDeserializeChunks_finish hsrc hdst hg hsize (by decide) _ hok⟩

end QemuFormal.Hbitmap

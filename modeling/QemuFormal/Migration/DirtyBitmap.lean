/-
QemuFormal.Migration.DirtyBitmap — `migration/block-dirty-bitmap.c`: the
bulk phase that sends a dirty bitmap in chunks, and the loading of those
chunks into the bitmap of the destination.

The source walks its bitmap from sector 0 in chunks of
`sectors_per_chunk` sectors, `CHUNK_SIZE` bytes of serialized bitmap
each (`bulk_phase_send_chunk`). For each chunk, `send_bitmap_bits`
serializes the words of the last level the chunk covers into a buffer
padded to 32 bytes; if the buffer is all zero it sends only the chunk's
position with `DIRTY_BITMAP_MIG_FLAG_ZEROES`, and otherwise the buffer
too. The destination (`dirty_bitmap_load_bits`) fills the chunk's words
with zero for a `ZEROES` chunk, and otherwise checks the buffer's size
against what its own bitmap needs and deserializes it; a size that does
not match cancels the incoming migration. `dirty_bitmap_load_complete`
rebuilds the levels above the last (`hbitmap_deserialize_finish`).

Model choices.
- One bitmap: the loops over `dbms_list` and over the loaded bitmaps
  run this for each of them. The bitmap is its `HBitmap`: the
  `bdrv_dirty_bitmap_*` functions called here pass it to the `hbitmap_*`
  function of the same name, and `bdrv_dirty_bitmap_granularity` is
  `1U << hbitmap_granularity`.
- A chunk on the stream is the record of what `send_bitmap_bits` puts:
  the header's flags, `start_sector`, `nr_sectors` and, unless the chunk
  is all zero, the buffer's size and the buffer. Node and bitmap names
  in the header, and the other kinds of header (`START`, `COMPLETE`,
  `EOS`), are not modelled.
- `buffer_is_zero` is the parameter `isZero`; `QemuFormal.BufferIsZero`
  models it.
- `nr_sectors` is a `uint32_t` (`% 2^32`); `start_sector << 9` on the
  destination is a `uint64_t` (`% 2^64`). The other sector and byte
  counts stay below `2^63` on a run and are `Nat`s.
- The bulk phase runs without a rate limit (`bulk_phase(f, s, false)`),
  its loop bounded by `fuel`.
- A failing `assert` in the `hbitmap_*` functions aborts the process:
  the functions that call them return `none`.
- Cancelling the incoming migration marks the state cancelled; that it
  also drops the bitmaps is not modelled, since nothing reads them after.
-/
import QemuFormal.Util.Hbitmap

namespace QemuFormal.DirtyBitmap

open QemuFormal.Hbitmap

/-- `BDRV_SECTOR_BITS` -/
def bdrvSectorBits : Nat := 9

/-- `CHUNK_SIZE` -/
def chunkSize : Nat := 1 <<< 10

/-- `DIRTY_BITMAP_MIG_FLAG_ZEROES` -/
def dirtyBitmapMigFlagZeroes : Nat := 0x02

/-- `DIRTY_BITMAP_MIG_FLAG_BITS` -/
def dirtyBitmapMigFlagBits : Nat := 0x40

/-- `EIO` -/
def eio : Int := 5

/-- `QEMU_ALIGN_UP(n, m)` -/
def qemuAlignUp (n m : Nat) : Nat := (n + m - 1) / m * m

/-- `bdrv_dirty_bitmap_granularity(bitmap)`: `1U << hbitmap_granularity`. -/
def bdrvDirtyBitmapGranularity (hb : HBitmap) : Nat := (1 <<< hbitmapGranularity hb) % 2 ^ 32

/-! ## The source -/

/-- A `DIRTY_BITMAP_MIG_FLAG_BITS` chunk as `send_bitmap_bits` puts it on
the stream. -/
structure BitsChunk where
  flags : Nat
  startSector : Nat
  nrSectors : Nat
  bufSize : Nat
  buf : List UInt8
  deriving Repr, DecidableEq

/-- `send_bitmap_bits(f, s, dbms, start_sector, nr_sectors)` -/
def sendBitmapBits (isZero : List UInt8 → Bool) (bitmap : HBitmap) (startSector nrSectors : Nat) :
    Option BitsChunk := do
  -- align for buffer_is_zero()
  let align := 4 * 8
  let unalignedSize ← hbitmapSerializationSize bitmap (startSector <<< bdrvSectorBits)
    (nrSectors <<< bdrvSectorBits)
  let bufSize := qemuAlignUp unalignedSize align
  -- `g_malloc0(buf_size)`, then the serialized words
  let part ← hbitmapSerializePart bitmap (startSector <<< bdrvSectorBits) (nrSectors <<< bdrvSectorBits)
  let buf := part ++ List.replicate (bufSize - unalignedSize) 0
  let flags := dirtyBitmapMigFlagBits
  if isZero buf then
    some { flags := flags ||| dirtyBitmapMigFlagZeroes, startSector, nrSectors, bufSize := 0, buf := [] }
  else
    some { flags, startSector, nrSectors, bufSize, buf }

/-- `SaveBitmapState`: what the bulk phase reads and moves. -/
structure SaveBitmapState where
  bitmap : HBitmap
  totalSectors : Nat
  sectorsPerChunk : Nat
  curSector : Nat
  bulkCompleted : Bool

/-- The `SaveBitmapState` that `init_dirty_bitmap_migration` makes for a
bitmap of a node of `totalSectors` sectors (`bdrv_nb_sectors`). -/
def initSaveBitmapState (bitmap : HBitmap) (totalSectors : Nat) : SaveBitmapState :=
  { bitmap, totalSectors,
    sectorsPerChunk := chunkSize * 8 * (bdrvDirtyBitmapGranularity bitmap >>> bdrvSectorBits),
    curSector := 0, bulkCompleted := false }

/-- `bulk_phase_send_chunk(f, s, dbms)`: the chunk sent, and the state after. -/
def bulkPhaseSendChunk (isZero : List UInt8 → Bool) (dbms : SaveBitmapState) :
    Option (BitsChunk × SaveBitmapState) := do
  let nrSectors := min (dbms.totalSectors - dbms.curSector) dbms.sectorsPerChunk % 2 ^ 32
  let c ← sendBitmapBits isZero dbms.bitmap dbms.curSector nrSectors
  let curSector := dbms.curSector + nrSectors
  some (c, { dbms with curSector, bulkCompleted := dbms.bulkCompleted || decide (dbms.totalSectors ≤ curSector) })

/-- `while (!dbms->bulk_completed) bulk_phase_send_chunk(f, s, dbms)`, for
at most `fuel` rounds: the chunks sent, and the state after. -/
def bulkPhase (isZero : List UInt8 → Bool) : (fuel : Nat) → SaveBitmapState →
    Option (List BitsChunk × SaveBitmapState)
  | 0, dbms => some ([], dbms)
  | fuel + 1, dbms =>
    if dbms.bulkCompleted then some ([], dbms)
    else do
      let (c, dbms) ← bulkPhaseSendChunk isZero dbms
      let (cs, dbms) ← bulkPhase isZero fuel dbms
      some (c :: cs, dbms)

/-! ## The destination -/

/-- `DBMLoadState`, for the bitmap being loaded. -/
structure DBMLoadState where
  flags : Nat
  bitmap : HBitmap
  cancelled : Bool

/-- `cancel_incoming_locked(s)` -/
def cancelIncomingLocked (s : DBMLoadState) : DBMLoadState :=
  if s.cancelled then s else { s with cancelled := true }

/-- `dirty_bitmap_load_bits(f, s)`, the chunk `c` being what the stream
holds after its header: `-EIO`, or the state after the chunk. -/
def dirtyBitmapLoadBits (s : DBMLoadState) (c : BitsChunk) : Option (Except Int DBMLoadState) :=
  let firstByte := (c.startSector <<< bdrvSectorBits) % 2 ^ 64
  let nrBytes := c.nrSectors <<< bdrvSectorBits
  if s.flags &&& dirtyBitmapMigFlagZeroes ≠ 0 then
    if !s.cancelled then do
      let bitmap ← hbitmapDeserializeZeroes s.bitmap firstByte nrBytes false
      some (.ok { s with bitmap })
    else some (.ok s)
  else
    let bufSize := c.bufSize
    if bufSize > 10 * chunkSize then some (.error (-eio))
    else
      -- `qemu_get_buffer` reads what the stream holds, up to `buf_size`
      let ret := min bufSize c.buf.length
      if ret ≠ bufSize then some (.error (-eio))
      else if s.cancelled then some (.ok s)
      else do
        let neededSize ← hbitmapSerializationSize s.bitmap firstByte nrBytes
        if neededSize > bufSize ∨ bufSize > qemuAlignUp neededSize (4 * 8) then some (.ok (cancelIncomingLocked s))
        else do
          let bitmap ← hbitmapDeserializePart s.bitmap (c.buf.take bufSize) firstByte nrBytes false
          some (.ok { s with bitmap })

/-- The rounds of `dirty_bitmap_load` over bits chunks: the header sets
`s->flags`, then `dirty_bitmap_load_bits` reads the chunk; an error stops
the load. -/
def dirtyBitmapLoadChunks (s : DBMLoadState) : List BitsChunk → Option (Except Int DBMLoadState)
  | [] => some (.ok s)
  | c :: cs =>
    let s := { s with flags := c.flags }
    if s.flags &&& dirtyBitmapMigFlagBits ≠ 0 then
      match dirtyBitmapLoadBits s c with
      | none => none
      | some (.error e) => some (.error e)
      | some (.ok s) => dirtyBitmapLoadChunks s cs
    else dirtyBitmapLoadChunks s cs

/-- `dirty_bitmap_load_complete(f, s)`: the levels above the last rebuilt. -/
def dirtyBitmapLoadComplete (s : DBMLoadState) : DBMLoadState :=
  if s.cancelled then s else { s with bitmap := hbitmapDeserializeFinish s.bitmap }

end QemuFormal.DirtyBitmap

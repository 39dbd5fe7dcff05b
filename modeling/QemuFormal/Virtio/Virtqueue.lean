/-
QemuFormal.Virtio.Virtqueue — taking buffers off a virtqueue and handing
them back (`hw/virtio/virtio.c`).

The guest offers buffers in a ring. `virtqueue_pop` takes the next one,
walks its descriptor chain, maps each buffer and returns an element
holding the scatter lists. A device that cannot use an element yet
hands it back with `virtqueue_unpop`, or its last `num` elements with
`virtqueue_rewind`, and the next pop is meant to fetch them again.

There are two ring layouts. In the split ring the guest publishes heads
in an `avail` ring, read at the free-running 16-bit `last_avail_idx`;
an element takes one slot of it whatever its chain. In the packed ring
the device reads the descriptor ring itself from `last_avail_idx`, with
a wrap counter that flips at the end of the ring; a chain of `n`
descriptors takes `n` slots, an indirect table one.

Model choices.
- `Guest` is what a pop reads of guest memory: the descriptors of a
  table at a guest address, the `avail` index and ring, the length the
  region caches map, and the DMA mapping of a buffer. It is fixed while
  the device pops, unpops and rewinds.
- The region caches are set up (`vring_get_region_caches` is not NULL).
  The writes a pop makes for `VIRTIO_RING_F_EVENT_IDX` and
  `VIRTIO_F_IN_ORDER` go to memory no pop reads and are left out, as are
  `elem->len`, which a pop does not set, and the trace points. Unmapping
  (`virtqueue_unmap_sg`, `virtqueue_undo_map_desc`) changes no state a
  pop reads.
- `virtio_error` is the `.error` outcome with its message: the pop
  returns NULL and the device is broken.
-/
import Mathlib.Data.Nat.Basic

namespace QemuFormal.Virtio

/-! ## Rings and descriptors -/

def vringDescFNext : UInt16 := 1
def vringDescFWrite : UInt16 := 2
def vringDescFIndirect : UInt16 := 4
def vringPackedDescFAvail : UInt16 := 7
def vringPackedDescFUsed : UInt16 := 15

def virtqueueMaxSize : Nat := 1024

/-- `sizeof(VRingDesc)`, which is also `sizeof(VRingPackedDesc)`. -/
def sizeofVRingDesc : Nat := 16

structure VRingDesc where
  addr : UInt64
  len : UInt32
  flags : UInt16
  next : UInt16
  deriving DecidableEq, Repr

structure VRingPackedDesc where
  addr : UInt64
  len : UInt32
  id : UInt16
  flags : UInt16
  deriving DecidableEq, Repr

/-- What a pop reads of guest memory. -/
structure Guest where
  /-- Descriptor `i` of the split table at a guest address. -/
  splitDesc : UInt64 → Nat → VRingDesc
  /-- Descriptor `i` of the packed table at a guest address. -/
  packedDesc : UInt64 → Nat → VRingPackedDesc
  /-- `avail->idx` -/
  availIdx : UInt16
  /-- `avail->ring[i]` -/
  availRing : Nat → UInt16
  /-- `caches->desc.len` -/
  descCacheLen : Nat
  /-- `address_space_cache_init` on `[addr, addr + len)`: the length it maps. -/
  cacheInit : UInt64 → UInt32 → Int
  /-- `dma_memory_map(pa, &len, dir)`: the host pointer and the length it
  maps, or `none` for NULL. -/
  dmaMap : UInt64 → UInt64 → Bool → Option (UInt64 × UInt64)

/-- One entry of a scatter list: `addr[i]` and the `iovec` it maps to. -/
structure SgEntry where
  addr : UInt64
  base : UInt64
  len : UInt64
  deriving DecidableEq, Repr

/-- `VirtQueueElement`, with `out_num` and `in_num` the lengths of its lists. -/
structure VirtQueueElement where
  index : UInt32
  ndescs : UInt32
  outSg : List SgEntry
  inSg : List SgEntry
  deriving DecidableEq, Repr

/-- The fields of `VirtQueue` that popping, unpopping and rewinding read
or write. -/
@[ext] structure VirtQueue where
  /-- `vring.num` -/
  num : UInt32
  /-- `vring.desc` and `vring.avail`: guest addresses, `0` when unset. -/
  desc : UInt64
  avail : UInt64
  lastAvailIdx : UInt16
  lastAvailWrapCounter : Bool
  shadowAvailIdx : UInt16
  shadowAvailWrapCounter : Bool
  inuse : UInt32
  deriving DecidableEq, Repr

/-- The fields of `VirtIODevice` a pop reads or writes. -/
structure VirtIODevice where
  disabled : Bool
  broken : Bool
  /-- `VIRTIO_F_RING_PACKED` has been negotiated. -/
  ringPacked : Bool
  deriving DecidableEq, Repr

def virtioDeviceDisabled (vdev : VirtIODevice) : Bool := vdev.disabled || vdev.broken

/-! ## Mapping the buffers of a chain -/

/-- The `while (sz)` loop of `virtqueue_map_desc`. `room` is
`max_num_sg - num_sg`, so `num_sg == max_num_sg` is `room = 0`. -/
def virtqueueMapDescLoop (g : Guest) (isWrite : Bool) :
    Nat → UInt64 → UInt64 → List SgEntry → Except String (List SgEntry)
  | room, pa, sz, sg =>
    if sz = 0 then .ok sg
    else match room with
      | 0 => .error "virtio: too many write descriptors in indirect table"
      | room + 1 =>
        match g.dmaMap pa sz isWrite with
        | none => .error "virtio: bogus descriptor or out of resources"
        | some (base, len) => virtqueueMapDescLoop g isWrite room (pa + len) (sz - len) (sg ++ [⟨pa, base, len⟩])

/-- `virtqueue_map_desc`: the buffer `[pa, pa + sz)` appended to `sg`. -/
def virtqueueMapDesc (g : Guest) (sg : List SgEntry) (maxNumSg : Nat) (isWrite : Bool) (pa sz : UInt64) :
    Except String (List SgEntry) :=
  if sz = 0 then .error "virtio: zero sized buffers are not allowed"
  else virtqueueMapDescLoop g isWrite (maxNumSg - sg.length) pa sz sg

/-- The buffers collected so far: `out_num` device-readable ones, then
`in_num` device-writable ones. -/
structure Collected where
  outSg : List SgEntry
  inSg : List SgEntry
  deriving DecidableEq, Repr

/-- The mapping step of the loop body that both pops share. -/
def collectDesc (g : Guest) (c : Collected) (flags : UInt16) (addr : UInt64) (len : UInt32) :
    Except String Collected :=
  if flags &&& vringDescFWrite ≠ 0 then
    (virtqueueMapDesc g c.inSg (virtqueueMaxSize - c.outSg.length) true addr len.toUInt64).map
      fun sg => { c with inSg := sg }
  else if c.inSg.length ≠ 0 then .error "Incorrect order for descriptors"
  else
    (virtqueueMapDesc g c.outSg virtqueueMaxSize false addr len.toUInt64).map
      fun sg => { c with outSg := sg }

/-! ## The split ring -/

/-- `virtio_queue_empty_rcu`, which refreshes `shadow_avail_idx` when it
reads `avail->idx`. -/
def virtioQueueEmptyRcu (vdev : VirtIODevice) (vq : VirtQueue) (g : Guest) : Bool × VirtQueue :=
  if virtioDeviceDisabled vdev then (true, vq)
  else if vq.avail = 0 then (true, vq)
  else if vq.shadowAvailIdx ≠ vq.lastAvailIdx then (false, vq)
  else (g.availIdx = vq.lastAvailIdx, { vq with shadowAvailIdx := g.availIdx })

/-- `virtqueue_get_head` -/
def virtqueueGetHead (vq : VirtQueue) (g : Guest) (idx : UInt32) : Except String UInt32 :=
  let head := (g.availRing (idx % vq.num).toNat).toUInt32
  if head ≥ vq.num then .error ("Guest says index " ++ toString head ++ " is available")
  else .ok head

/-- The outcome of `virtqueue_split_read_next_desc` and
`virtqueue_packed_read_next_desc`. -/
inductive ReadDesc (α : Type) where
  | done
  | more (desc : α)
  | error (msg : String)

/-- `virtqueue_split_read_next_desc` on the table at `cache`. -/
def virtqueueSplitReadNextDesc (g : Guest) (desc : VRingDesc) (cache : UInt64) (max : Nat) : ReadDesc VRingDesc :=
  if desc.flags &&& vringDescFNext = 0 then .done
  else if desc.next.toNat ≥ max then .error ("Desc next is " ++ toString desc.next)
  else .more (g.splitDesc cache desc.next.toNat)

/-- The descriptor loop of `virtqueue_split_pop`. `room` is
`max - elem_entries`, so `++elem_entries > max` is `room = 0`. -/
def virtqueueSplitCollect (g : Guest) (cache : UInt64) (max : Nat) :
    Nat → VRingDesc → Collected → Except String Collected
  | room, desc, c => do
    let c ← collectDesc g c desc.flags desc.addr desc.len
    match room with
    | 0 => throw "Looped descriptor"
    | room + 1 =>
      match virtqueueSplitReadNextDesc g desc cache max with
      | .done => pure c
      | .more desc => virtqueueSplitCollect g cache max room desc c
      | .error msg => throw msg

/-- The chain from its first descriptor, through an indirect table if it
names one: the collected buffers. -/
def virtqueueSplitChain (vq : VirtQueue) (g : Guest) (head : UInt32) : Except String Collected := do
  if g.descCacheLen < vq.num.toNat * sizeofVRingDesc then throw "Cannot map descriptor ring"
  let desc := g.splitDesc vq.desc head.toNat
  if desc.flags &&& vringDescFIndirect ≠ 0 then
    if desc.len = 0 ∨ desc.len.toNat % sizeofVRingDesc ≠ 0 then
      throw "Invalid size for indirect buffer table"
    if g.cacheInit desc.addr desc.len < desc.len.toNat then throw "Cannot map indirect buffer"
    let max := desc.len.toNat / sizeofVRingDesc
    virtqueueSplitCollect g desc.addr max max (g.splitDesc desc.addr 0) ⟨[], []⟩
  else virtqueueSplitCollect g vq.desc vq.num.toNat vq.num.toNat desc ⟨[], []⟩

/-- `virtqueue_split_pop`. `last_avail_idx` moves on as the head is read,
before the chain is walked. -/
def virtqueueSplitPop (vdev : VirtIODevice) (vq : VirtQueue) (g : Guest) :
    VirtQueue × Except String (Option VirtQueueElement) :=
  let (empty, vq) := virtioQueueEmptyRcu vdev vq g
  if empty then (vq, .ok none)
  else if vq.inuse ≥ vq.num then (vq, .error "Virtqueue size exceeded")
  else
    let idx := vq.lastAvailIdx
    let vq := { vq with lastAvailIdx := idx + 1 }
    match virtqueueGetHead vq g idx.toUInt32 with
    | .error msg => (vq, .error msg)
    | .ok head =>
      match virtqueueSplitChain vq g head with
      | .error msg => (vq, .error msg)
      | .ok c => ({ vq with inuse := vq.inuse + 1 }, .ok (some ⟨head, 1, c.outSg, c.inSg⟩))

/-! ## The packed ring -/

/-- `is_desc_avail` -/
def isDescAvail (flags : UInt16) (wrapCounter : Bool) : Bool :=
  let avail := flags &&& (1 <<< vringPackedDescFAvail) ≠ 0
  let used := flags &&& (1 <<< vringPackedDescFUsed) ≠ 0
  avail ≠ used && avail = wrapCounter

/-- `virtio_queue_packed_empty_rcu`: only the flags of the next
descriptor are read. -/
def virtioQueuePackedEmptyRcu (vq : VirtQueue) (g : Guest) : Bool :=
  if vq.desc = 0 then true
  else !isDescAvail (g.packedDesc vq.desc vq.lastAvailIdx.toNat).flags vq.lastAvailWrapCounter

/-- `virtqueue_packed_read_next_desc` on the table at `cache`: the next
index and descriptor. In the ring the index wraps to the start. -/
def virtqueuePackedReadNextDesc (vq : VirtQueue) (g : Guest) (desc : VRingPackedDesc) (cache : UInt64)
    (max next : Nat) (indirect : Bool) : ReadDesc (Nat × VRingPackedDesc) :=
  if !indirect && desc.flags &&& vringDescFNext = 0 then .done
  else
    let next := next + 1
    if next = max ∧ indirect then .done
    else
      let next := if next = max then next - vq.num.toNat else next
      .more (next, g.packedDesc cache next)

/-- The descriptor loop of `virtqueue_packed_pop`: the buffers, the
number of descriptors walked (`elem_entries`) and the last one. -/
def virtqueuePackedCollect (vq : VirtQueue) (g : Guest) (cache : UInt64) (max : Nat) (indirect : Bool) :
    Nat → Nat → Nat → VRingPackedDesc → Collected → Except String (Collected × Nat × VRingPackedDesc)
  | room, elemEntries, i, desc, c => do
    let c ← collectDesc g c desc.flags desc.addr desc.len
    let elemEntries := elemEntries + 1
    match room with
    | 0 => throw "Looped descriptor"
    | room + 1 =>
      match virtqueuePackedReadNextDesc vq g desc cache max i indirect with
      | .done => pure (c, elemEntries, desc)
      | .more (i, desc) => virtqueuePackedCollect vq g cache max indirect room elemEntries i desc c
      | .error msg => throw msg

/-- The chain at `last_avail_idx`: the buffers, the buffer id and
`ndescs`. A chain in the ring takes its id from its last descriptor and
counts every descriptor; an indirect table is one descriptor, with the
id of the ring's. -/
def virtqueuePackedChain (vq : VirtQueue) (g : Guest) : Except String (Collected × UInt16 × Nat) := do
  if g.descCacheLen < vq.num.toNat * sizeofVRingDesc then throw "Cannot map descriptor ring"
  let desc := g.packedDesc vq.desc vq.lastAvailIdx.toNat
  if desc.flags &&& vringDescFIndirect ≠ 0 then
    if desc.len.toNat % sizeofVRingDesc ≠ 0 then throw "Invalid size for indirect buffer table"
    if g.cacheInit desc.addr desc.len < desc.len.toNat then throw "Cannot map indirect buffer"
    let max := desc.len.toNat / sizeofVRingDesc
    let (c, _, _) ← virtqueuePackedCollect vq g desc.addr max true max 0 0 (g.packedDesc desc.addr 0) ⟨[], []⟩
    pure (c, desc.id, 1)
  else
    let (c, elemEntries, last) ←
      virtqueuePackedCollect vq g vq.desc vq.num.toNat false vq.num.toNat 0 vq.lastAvailIdx.toNat desc ⟨[], []⟩
    pure (c, last.id, elemEntries)

/-- `virtqueue_packed_pop`: `last_avail_idx` and `inuse` move on by
`ndescs`. -/
def virtqueuePackedPop (vq : VirtQueue) (g : Guest) : VirtQueue × Except String (Option VirtQueueElement) :=
  if virtioQueuePackedEmptyRcu vq g then (vq, .ok none)
  else if vq.inuse ≥ vq.num then (vq, .error "Virtqueue size exceeded")
  else
    match virtqueuePackedChain vq g with
    | .error msg => (vq, .error msg)
    | .ok (c, id, ndescs) =>
      let elem : VirtQueueElement := ⟨id.toUInt32, ndescs.toUInt32, c.outSg, c.inSg⟩
      let idx := vq.lastAvailIdx + elem.ndescs.toUInt16
      let inuse := vq.inuse + elem.ndescs
      let (idx, wrap) :=
        if idx.toUInt32 ≥ vq.num then (idx - vq.num.toUInt16, !vq.lastAvailWrapCounter)
        else (idx, vq.lastAvailWrapCounter)
      ({ vq with
          lastAvailIdx := idx, lastAvailWrapCounter := wrap, inuse := inuse,
          shadowAvailIdx := idx, shadowAvailWrapCounter := wrap }, .ok (some elem))

/-! ## Popping, and handing back -/

/-- `virtqueue_pop`. A `virtio_error` breaks the device. -/
def virtqueuePop (vdev : VirtIODevice) (vq : VirtQueue) (g : Guest) :
    VirtIODevice × VirtQueue × Option VirtQueueElement :=
  if virtioDeviceDisabled vdev then (vdev, vq, none)
  else
    let (vq, r) := if vdev.ringPacked then virtqueuePackedPop vq g else virtqueueSplitPop vdev vq g
    match r with
    | .ok elem => (vdev, vq, elem)
    | .error _ => ({ vdev with broken := true }, vq, none)

/-- `virtqueue_detach_element` -/
def virtqueueDetachElement (vq : VirtQueue) (elem : VirtQueueElement) : VirtQueue :=
  { vq with inuse := vq.inuse - elem.ndescs }

/-- `virtqueue_split_rewind` -/
def virtqueueSplitRewind (vq : VirtQueue) (num : UInt32) : VirtQueue :=
  { vq with lastAvailIdx := vq.lastAvailIdx - num.toUInt16 }

/-- `virtqueue_packed_rewind`. The sum is taken in `unsigned int` and
stored in the 16-bit index. -/
def virtqueuePackedRewind (vq : VirtQueue) (num : UInt32) : VirtQueue :=
  if vq.lastAvailIdx.toUInt32 < num then
    { vq with lastAvailIdx := (vq.num + vq.lastAvailIdx.toUInt32 - num).toUInt16,
              lastAvailWrapCounter := !vq.lastAvailWrapCounter }
  else { vq with lastAvailIdx := vq.lastAvailIdx - num.toUInt16 }

/-- `virtqueue_unpop`: one step back, then `inuse` drops by `ndescs`. -/
def virtqueueUnpop (vdev : VirtIODevice) (vq : VirtQueue) (elem : VirtQueueElement) : VirtQueue :=
  let vq := if vdev.ringPacked then virtqueuePackedRewind vq 1 else virtqueueSplitRewind vq 1
  virtqueueDetachElement vq elem

/-- `virtqueue_rewind` -/
def virtqueueRewind (vdev : VirtIODevice) (vq : VirtQueue) (num : UInt32) : Bool × VirtQueue :=
  if num > vq.inuse then (false, vq)
  else
    let vq := { vq with inuse := vq.inuse - num }
    (true, if vdev.ringPacked then virtqueuePackedRewind vq num else virtqueueSplitRewind vq num)

end QemuFormal.Virtio

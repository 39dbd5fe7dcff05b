/-
QemuFormal.Virtio.Notify — when the device interrupts the driver after
returning buffers (`hw/virtio/virtio.c`, `vring_need_event` of
`linux/virtio_ring.h`).

A flush moves the used index on. `virtio_should_notify` then decides
whether to interrupt. With `VIRTIO_RING_F_EVENT_IDX` the driver names an
event index (`used_event` on the split ring, `off_wrap` on the packed
ring) and the device interrupts when the used index has moved across it
since the last check: the check remembers the index it saw in
`signalled_used`. When `signalled_used` is no longer a trustworthy
reference point (the 16-bit index may have gone around it, or the packed
ring wrapped), the flush clears `signalled_used_valid` and the next check
interrupts regardless.

Model choices.
- `UsedIndex` holds the four fields of `VirtQueue` this bookkeeping
  reads or writes; `inuse`, the guest addresses and the avail side are
  in `VirtQueue` of `Virtqueue`, which `virtio_queue_empty` reads.
- What the checks read of guest memory: `used_event` is
  `avail->ring[num]`, the slot after the avail ring, so it is
  `Guest.availRing num`; `avail->flags` and the packed driver event
  structure are arguments.
- The features the checks test are `NotifyFeatures`. The region caches
  are set up. The packed flush's descriptor writes are left out: only
  the number of descriptors it returns moves the index.
-/
import QemuFormal.Virtio.InOrder

namespace QemuFormal.Virtio

def vringAvailFNoInterrupt : UInt16 := 1

def vringPackedEventFlagEnable : UInt16 := 0
def vringPackedEventFlagDisable : UInt16 := 1
def vringPackedEventFlagDesc : UInt16 := 2

/-- The negotiated features the notification check tests. -/
structure NotifyFeatures where
  /-- `VIRTIO_F_NOTIFY_ON_EMPTY` -/
  notifyOnEmpty : Bool
  /-- `VIRTIO_RING_F_EVENT_IDX` -/
  eventIdx : Bool
  deriving DecidableEq, Repr

/-- `used_idx`, `used_wrap_counter`, `signalled_used` and
`signalled_used_valid`. -/
structure UsedIndex where
  usedIdx : UInt16
  usedWrapCounter : Bool
  signalledUsed : UInt16
  signalledUsedValid : Bool
  deriving DecidableEq, Repr

/-- `vring_need_event(event_idx, new_idx, old)`: should moving the index
from `old` to `new_idx` trigger the event at `event_idx`? -/
def vringNeedEvent (eventIdx newIdx old : UInt16) : Bool :=
  newIdx - eventIdx - 1 < newIdx - old

/-! ## Flushes -/

/-- The index update of `virtqueue_split_flush` and of the split path of
`virtqueue_ordered_flush`: `new = old + count`, then `signalled_used_valid`
is cleared if `(int16_t)(new - signalled_used) < (uint16_t)(new - old)`. -/
def flushUsedIndex (u : UsedIndex) (count : Nat) : UsedIndex :=
  let old := u.usedIdx
  let new := old + count.toUInt16
  { u with usedIdx := new,
           signalledUsedValid :=
             if (new - u.signalledUsed).toInt16.toInt < ((new - old).toNat : Int) then false
             else u.signalledUsedValid }

/-- `virtqueue_split_flush(vq, count)`, with `used` the guest address
`vring.used`. -/
def virtqueueSplitFlush (vq : VirtQueue) (used : UInt64) (u : UsedIndex) (count : UInt32) : VirtQueue × UsedIndex :=
  if used = 0 then (vq, u)
  else ({ vq with inuse := vq.inuse - count }, flushUsedIndex u count.toNat)

/-- The index update of `virtqueue_packed_flush` and of the packed path of
`virtqueue_ordered_flush`: `used_idx += ndescs`, and past the end of the
ring it wraps, flips the wrap counter and clears `signalled_used_valid`. -/
def packedUsedIndexAdvance (num : UInt32) (u : UsedIndex) (ndescs : UInt32) : UsedIndex :=
  let idx := u.usedIdx + ndescs.toUInt16
  if idx.toUInt32 ≥ num then
    { u with usedIdx := idx - num.toUInt16, usedWrapCounter := !u.usedWrapCounter, signalledUsedValid := false }
  else { u with usedIdx := idx }

/-- `ndescs` of `virtqueue_packed_flush`: `used_elems[0].ndescs`, then
`used_elems[i].ndescs` for `0 < i < count`. -/
def packedFlushNdescs (usedElems : Nat → UsedElem) : (count : Nat) → UInt32
  | 0 => (usedElems 0).ndescs
  | 1 => (usedElems 0).ndescs
  | count + 2 => packedFlushNdescs usedElems (count + 1) + (usedElems (count + 1)).ndescs

/-- `virtqueue_packed_flush(vq, count)`. -/
def virtqueuePackedFlush (vq : VirtQueue) (usedElems : Nat → UsedElem) (u : UsedIndex) (count : Nat) :
    VirtQueue × UsedIndex :=
  if vq.desc = 0 then (vq, u)
  else
    let ndescs := packedFlushNdescs usedElems count
    ({ vq with inuse := vq.inuse - ndescs }, packedUsedIndexAdvance vq.num u ndescs)

/-! ## The checks -/

/-- `virtio_split_should_notify(vdev, vq)`: whether to interrupt, and the
queue and indices after the check. `virtio_queue_empty` is only
consulted, and may only refresh the shadow index, when the first two
tests of the `&&` hold. -/
def virtioSplitShouldNotify (vdev : VirtIODevice) (feat : NotifyFeatures) (vq : VirtQueue) (g : Guest)
    (availFlags : UInt16) (u : UsedIndex) : Bool × VirtQueue × UsedIndex :=
  -- Always notify when queue is empty (when feature acknowledge)
  let (empty, vq) := if feat.notifyOnEmpty ∧ vq.inuse = 0 then virtioQueueEmptyRcu vdev vq g else (false, vq)
  if empty then (true, vq, u)
  else if !feat.eventIdx then (availFlags &&& vringAvailFNoInterrupt = 0, vq, u)
  else
    let v := u.signalledUsedValid
    let old := u.signalledUsed
    let new := u.usedIdx
    (!v || vringNeedEvent (g.availRing vq.num.toNat) new old, vq,
      { u with signalledUsedValid := true, signalledUsed := new })

/-- `VRingPackedDescEvent`, the driver's event suppression structure. -/
structure VRingPackedDescEvent where
  offWrap : UInt16
  flags : UInt16
  deriving DecidableEq, Repr

/-- `vring_packed_need_event(vq, wrap, off_wrap, new, old)`: an event
offset from the other lap is taken `vring.num` back. The `int` offset is
passed on as a `uint16_t`, so the subtraction is modulo `2^16`. -/
def vringPackedNeedEvent (num : UInt32) (wrap : Bool) (offWrap new old : UInt16) : Bool :=
  let off := offWrap &&& ~~~((1 : UInt16) <<< 15)
  let off := if wrap ≠ (offWrap >>> 15 = 1) then off - num.toUInt16 else off
  vringNeedEvent off new old

/-- `virtio_packed_should_notify(vdev, vq)` on the driver event structure
`e` it reads. -/
def virtioPackedShouldNotify (num : UInt32) (e : VRingPackedDescEvent) (u : UsedIndex) : Bool × UsedIndex :=
  let old := u.signalledUsed
  let new := u.usedIdx
  let v := u.signalledUsedValid
  let u := { u with signalledUsed := new, signalledUsedValid := true }
  if e.flags = vringPackedEventFlagDisable then (false, u)
  else if e.flags = vringPackedEventFlagEnable then (true, u)
  else (!v || vringPackedNeedEvent num u.usedWrapCounter e.offWrap new old, u)

end QemuFormal.Virtio

/-
QemuFormal.Virtio.InOrder — in-order completion on the split ring
(`VIRTIO_F_IN_ORDER`, `hw/virtio/virtio.c`).

With `VIRTIO_F_IN_ORDER` the device must hand buffers back in the order
it took them. A pop records its element in `used_elems` at its avail
position. `virtqueue_fill` does not write the used ring: it looks for
the element in `used_elems`, from `used_idx` on, and marks it filled
with its length. `virtqueue_flush` then publishes the run of filled
elements that starts at `used_idx`, in order, and moves `used_idx` past
them.

Model choices.
- `InOrderQueue` extends the queue of `Virtqueue` with what in-order
  completion reads or writes: `used_idx`, `used_elems` (a function on
  slot numbers, the array has room for every slot), the `used->ring`
  entries the guest reads, `signalled_used` and its validity, and the
  guest address `vring.used`.
- Slot numbers, step counts and sums of `ndescs` are `unsigned int` in
  the source; they are `Nat` here. With `vring.num` at most
  `VIRTQUEUE_MAX_SIZE` they stay far below `2^32`. The differences of
  16-bit indices taken `% vring.num` are converted to `unsigned int`
  first, and are `UInt32` differences here.
- `elem->len` is not set by a pop; the pop copies it into `used_elems`
  all the same, so the pop takes it as an argument.
- The `while` loops are recursive on a fuel that bounds their passes:
  each pass of the fill adds at least one to `steps`, so `max_steps`
  passes end it, and each pass of the flush clears one of the `num`
  filled slots.
- The region caches are set up; unmapping (`virtqueue_unmap_sg`) and the
  log messages are left out, but whether the fill found its element is
  returned, since that is what `cannot fill buffer id` reports.
-/
import QemuFormal.Virtio.Virtqueue

namespace QemuFormal.Virtio

/-- `VRingUsedElem`: an entry of the used ring. -/
structure VRingUsedElem where
  id : UInt32
  len : UInt32
  deriving DecidableEq, Repr

/-- A slot of `vq->used_elems`: the fields of the `VirtQueueElement` that
in-order completion reads or writes. -/
structure UsedElem where
  index : UInt32
  len : UInt32
  ndescs : UInt32
  inOrderFilled : Bool
  deriving DecidableEq, Repr

/-- The split ring with in-order completion. -/
structure InOrderQueue where
  vq : VirtQueue
  /-- `vring.used`: the guest address of the used ring, `0` when unset. -/
  used : UInt64
  usedIdx : UInt16
  usedElems : Nat → UsedElem
  /-- `used->ring[i]`, as the guest reads it. -/
  usedRing : Nat → VRingUsedElem
  signalledUsed : UInt16
  signalledUsedValid : Bool

/-- `slots[i] := e`, the other slots unchanged. -/
def setSlot {α : Type} (slots : Nat → α) (i : Nat) (e : α) : Nat → α :=
  fun j => if j = i then e else slots j

/-! ## Pop -/

/-- `virtqueue_split_pop` with `VIRTIO_F_IN_ORDER`: after the pop, the
element is recorded at `(last_avail_idx - 1) % vring.num`, the avail
position it was taken from. -/
def virtqueueSplitPopInOrder (vdev : VirtIODevice) (q : InOrderQueue) (g : Guest) (elemLen : UInt32) :
    InOrderQueue × Except String (Option VirtQueueElement) :=
  let (vq, r) := virtqueueSplitPop vdev q.vq g
  match r with
  | .ok (some elem) =>
    let idx := ((vq.lastAvailIdx.toUInt32 - 1) % vq.num).toNat
    let slot : UsedElem := { q.usedElems idx with index := elem.index, len := elemLen, ndescs := elem.ndescs }
    ({ q with vq := vq, usedElems := setSlot q.usedElems idx slot }, r)
  | _ => ({ q with vq := vq }, r)

/-! ## Fill -/

/-- The search loop of `virtqueue_ordered_fill`, at slot `i` after `steps`
steps: the slot holding the element gets `len` and is marked filled, and
`true` says it was found. A slot with `ndescs` zero or above `num` stops
the search. -/
def orderedFillLoop (num maxSteps : Nat) (index len : UInt32) :
    (fuel i steps : Nat) → (Nat → UsedElem) → (Nat → UsedElem) × Bool
  | 0, _, _, usedElems => (usedElems, false)
  | fuel + 1, i, steps, usedElems =>
    if steps < maxSteps then
      let slot := usedElems i
      if slot.index = index then
        (setSlot usedElems i { slot with len := len, inOrderFilled := true }, true)
      else
        let ndescs := slot.ndescs.toNat
        -- Defensive sanity check
        if ndescs = 0 ∨ ndescs > num then (usedElems, false)
        else
          let i := i + ndescs
          orderedFillLoop num maxSteps index len fuel (if i ≥ num then i - num else i) (steps + ndescs) usedElems
    else (usedElems, false)

/-- `virtqueue_ordered_fill(vq, elem, len)`: the search starts at
`used_idx % num` and takes at most `max_steps = (last_avail_idx -
used_idx) % num` steps. -/
def virtqueueOrderedFill (q : InOrderQueue) (elem : VirtQueueElement) (len : UInt32) : InOrderQueue × Bool :=
  let i := (q.usedIdx.toUInt32 % q.vq.num).toNat
  let maxSteps := ((q.vq.lastAvailIdx.toUInt32 - q.usedIdx.toUInt32) % q.vq.num).toNat
  let (usedElems, found) := orderedFillLoop q.vq.num.toNat maxSteps elem.index len maxSteps i 0 q.usedElems
  ({ q with usedElems := usedElems }, found)

/-- `virtqueue_fill(vq, elem, len, idx)` with `VIRTIO_F_IN_ORDER`. -/
def virtqueueFillInOrder (vdev : VirtIODevice) (q : InOrderQueue) (elem : VirtQueueElement) (len : UInt32) :
    InOrderQueue :=
  if virtioDeviceDisabled vdev then q
  else (virtqueueOrderedFill q elem len).1

/-! ## Flush -/

/-- The loop of `virtqueue_ordered_flush` on the split ring, at slot `i`
with `ndescs` published so far: each filled slot is written to
`used->ring[i]` and cleared. -/
def orderedFlushLoop (num : Nat) :
    (fuel i ndescs : Nat) → (Nat → UsedElem) → (Nat → VRingUsedElem) →
      Nat × (Nat → UsedElem) × (Nat → VRingUsedElem)
  | 0, _, ndescs, usedElems, usedRing => (ndescs, usedElems, usedRing)
  | fuel + 1, i, ndescs, usedElems, usedRing =>
    let slot := usedElems i
    if slot.inOrderFilled then
      let usedRing := setSlot usedRing i ⟨slot.index, slot.len⟩
      let usedElems := setSlot usedElems i { slot with inOrderFilled := false }
      let i := i + slot.ndescs.toNat
      orderedFlushLoop num fuel (if i ≥ num then i - num else i) (ndescs + slot.ndescs.toNat) usedElems usedRing
    else (ndescs, usedElems, usedRing)

/-- `virtqueue_ordered_flush` on the split ring: publish the filled run
from `used_idx % num`, then set `used_idx` (and the guest's `used->idx`)
past it. -/
def virtqueueOrderedFlush (q : InOrderQueue) : InOrderQueue :=
  let i := (q.usedIdx.toUInt32 % q.vq.num).toNat
  let old := q.usedIdx
  if q.used = 0 then q
  -- First expected in-order element isn't ready, nothing to do
  else if !(q.usedElems i).inOrderFilled then q
  else
    let (ndescs, usedElems, usedRing) := orderedFlushLoop q.vq.num.toNat q.vq.num.toNat i 0 q.usedElems q.usedRing
    let new := old + ndescs.toUInt16
    let signalledUsedValid :=
      if (new - q.signalledUsed).toInt16.toInt < ((new - old).toNat : Int) then false else q.signalledUsedValid
    { q with usedElems := usedElems, usedRing := usedRing, usedIdx := new, signalledUsedValid := signalledUsedValid,
             vq := { q.vq with inuse := q.vq.inuse - ndescs.toUInt32 } }

/-- `virtqueue_flush(vq, count)` with `VIRTIO_F_IN_ORDER`. -/
def virtqueueFlushInOrder (vdev : VirtIODevice) (q : InOrderQueue) (count : UInt32) : InOrderQueue :=
  if virtioDeviceDisabled vdev then { q with vq := { q.vq with inuse := q.vq.inuse - count } }
  else virtqueueOrderedFlush q

end QemuFormal.Virtio

/-
QemuFormal.Virtio.InOrderTheorems — a full ring loses every in-order
completion.

`virtqueue_ordered_fill` searches `used_elems` for the element at most
`max_steps = (last_avail_idx - used_idx) % vring.num` steps from
`used_idx`. That is the number of descriptors in flight, except when all
`vring.num` of them are: then it is `0`, the search never starts and the
fill is dropped with `cannot fill buffer id` (`virtqueueOrderedFill_full`).

Nothing stops a device from taking the whole ring: `virtqueue_split_pop`
refuses only when `inuse` has reached `vring.num`. After `vring.num`
pops from a queue with nothing in flight (`SplitPops`, `splitPops_spec`),
every fill is dropped, so the flush never finds the slot at `used_idx`
filled and publishes nothing (`virtqueueOrderedFlush_of_not_filled`,
`inOrder_full_ring_never_published`): the elements are never returned to
the guest, and the queue cannot pop again. `inOrder_full_ring_run` runs
it on a ring of two buffers.
-/
import QemuFormal.Virtio.InOrder
import QemuFormal.Virtio.VirtqueueTheorems

namespace QemuFormal.Virtio

/-! ## The fill -/

/-- Once `steps` has reached `max_steps` the search is over, without a
match. -/
theorem orderedFillLoop_of_le {num maxSteps : Nat} {index len : UInt32} {i steps : Nat}
    (usedElems : Nat → UsedElem) (h : maxSteps ≤ steps) :
    ∀ fuel, orderedFillLoop num maxSteps index len fuel i steps usedElems = (usedElems, false)
  | 0 => rfl
  | _ + 1 => by simp [orderedFillLoop, Nat.not_lt.mpr h]

/-- A fill with `max_steps = 0` changes nothing and does not find its
element. -/
theorem virtqueueOrderedFill_of_maxSteps_zero (q : InOrderQueue) (elem : VirtQueueElement) (len : UInt32)
    (h : (q.vq.lastAvailIdx.toUInt32 - q.usedIdx.toUInt32) % q.vq.num = 0) :
    virtqueueOrderedFill q elem len = (q, false) := by
  simp only [virtqueueOrderedFill, h, UInt32.toNat_zero,
    orderedFillLoop_of_le q.usedElems (Nat.zero_le 0)]

/-- With `vring.num` descriptors in flight the difference of the two
free-running indices is a multiple of `vring.num`, for every ring size
that divides `2^16`. -/
theorem inFlight_mod_num_eq_zero {lastAvailIdx usedIdx : UInt16} {num : UInt32}
    (hfull : lastAvailIdx = usedIdx + num.toUInt16) (hnum : num.toNat ∣ 65536) :
    (lastAvailIdx.toUInt32 - usedIdx.toUInt32) % num = 0 := by
  have hU := usedIdx.toNat_lt
  have hn : num.toNat ≤ 65536 := Nat.le_of_dvd (by decide) hnum
  have hL : lastAvailIdx.toNat = (usedIdx.toNat + num.toNat) % 65536 := by
    rw [hfull, UInt16.toNat_add, UInt32.toNat_toUInt16]
    omega
  have h32 : num.toNat ∣ 2 ^ 32 := Nat.dvd_trans hnum ⟨65536, rfl⟩
  apply UInt32.toNat_inj.mp
  rw [UInt32.toNat_mod, UInt32.toNat_sub, UInt16.toNat_toUInt32, UInt16.toNat_toUInt32, UInt32.toNat_zero,
    Nat.mod_mod_of_dvd _ h32, hL]
  apply Nat.mod_eq_zero_of_dvd
  -- the difference is `num + 2^32`, or `num + 2^32 - 2^16` when the 16-bit index wrapped
  by_cases hwrap : usedIdx.toNat + num.toNat < 65536
  · rw [show 2 ^ 32 - usedIdx.toNat + (usedIdx.toNat + num.toNat) % 65536 = num.toNat + 2 ^ 32 by omega]
    exact Nat.dvd_add (Nat.dvd_refl _) h32
  · rw [show 2 ^ 32 - usedIdx.toNat + (usedIdx.toNat + num.toNat) % 65536 = num.toNat + (2 ^ 32 - 65536) by
      omega]
    exact Nat.dvd_add (Nat.dvd_refl _) (Nat.dvd_sub h32 hnum)

/-- **A full ring drops every fill.** When `vring.num` descriptors are in
flight, `virtqueue_ordered_fill` finds no element and changes nothing. -/
theorem virtqueueOrderedFill_full (q : InOrderQueue) (elem : VirtQueueElement) (len : UInt32)
    (hfull : q.vq.lastAvailIdx = q.usedIdx + q.vq.num.toUInt16) (hnum : q.vq.num.toNat ∣ 65536) :
    virtqueueOrderedFill q elem len = (q, false) :=
  virtqueueOrderedFill_of_maxSteps_zero q elem len (inFlight_mod_num_eq_zero hfull hnum)

/-! ## The flush -/

/-- A flush that finds the slot at `used_idx` not filled publishes
nothing: the used ring, `used_idx` and `inuse` stay. -/
theorem virtqueueOrderedFlush_of_not_filled (q : InOrderQueue)
    (h : (q.usedElems (q.usedIdx.toUInt32 % q.vq.num).toNat).inOrderFilled = false) :
    virtqueueOrderedFlush q = q := by
  simp only [virtqueueOrderedFlush, h, Bool.not_false, if_true, ite_self]

/-! ## Pops -/

/-- The in-order pop returns what the pop returns, leaves the queue as the
pop does, and keeps `used_idx`. -/
theorem virtqueueSplitPopInOrder_eq (vdev : VirtIODevice) (q : InOrderQueue) (g : Guest) (elemLen : UInt32) :
    (virtqueueSplitPopInOrder vdev q g elemLen).2 = (virtqueueSplitPop vdev q.vq g).2 ∧
      (virtqueueSplitPopInOrder vdev q g elemLen).1.vq = (virtqueueSplitPop vdev q.vq g).1 ∧
      (virtqueueSplitPopInOrder vdev q g elemLen).1.usedIdx = q.usedIdx := by
  unfold virtqueueSplitPopInOrder
  cases virtqueueSplitPop vdev q.vq g with
  | mk vq' r =>
    -- both branches return the pop's result and queue
    rcases r with _ | _ | _ <;> exact ⟨rfl, rfl, rfl⟩

/-- An in-order pop that returns an element moves `last_avail_idx` on by
one and keeps `used_idx` and the ring size. -/
theorem virtqueueSplitPopInOrder_eq_some {vdev : VirtIODevice} {q q' : InOrderQueue} {g : Guest}
    {elemLen : UInt32} {e : VirtQueueElement}
    (h : virtqueueSplitPopInOrder vdev q g elemLen = (q', .ok (some e))) :
    q'.vq.lastAvailIdx = q.vq.lastAvailIdx + 1 ∧ q'.vq.num = q.vq.num ∧ q'.usedIdx = q.usedIdx := by
  obtain ⟨hr, hvq, hused⟩ := virtqueueSplitPopInOrder_eq vdev q g elemLen
  rw [h] at hr hvq hused
  have hpop : virtqueueSplitPop vdev q.vq g = (q'.vq, .ok (some e)) := Prod.ext hvq.symm hr.symm
  obtain ⟨vq₀, hem, -, -, hq'⟩ := virtqueueSplitPop_eq_some hpop
  obtain ⟨-, -, hvq₀, -⟩ := virtioQueueEmptyRcu_eq_false hem
  rw [hq', hvq₀]
  exact ⟨rfl, rfl, hused⟩

/-- A pop copies the element into its slot but leaves every slot's
`in_order_filled` flag as it was. -/
theorem virtqueueSplitPopInOrder_inOrderFilled (vdev : VirtIODevice) (q : InOrderQueue) (g : Guest)
    (elemLen : UInt32) (i : Nat) :
    ((virtqueueSplitPopInOrder vdev q g elemLen).1.usedElems i).inOrderFilled = (q.usedElems i).inOrderFilled := by
  unfold virtqueueSplitPopInOrder
  cases virtqueueSplitPop vdev q.vq g with
  | mk vq' r =>
    rcases r with _ | _ | _
    · rfl
    · rfl
    · dsimp only [setSlot]
      split_ifs with hi
      · rw [hi]
      · rfl

/-! ## Runs of pops -/

/-- `q'` is reached from `q` by `k` in-order pops that each returned an
element, of whatever the guest offered at the time. -/
inductive SplitPops (vdev : VirtIODevice) : InOrderQueue → InOrderQueue → Nat → Prop
  | refl (q : InOrderQueue) : SplitPops vdev q q 0
  | pop {q q' q'' : InOrderQueue} {k : Nat} (g : Guest) (elemLen : UInt32) (e : VirtQueueElement) :
      SplitPops vdev q q' k → virtqueueSplitPopInOrder vdev q' g elemLen = (q'', .ok (some e)) →
      SplitPops vdev q q'' (k + 1)

/-- `k` pops move `last_avail_idx` on by `k` and leave `used_idx`, the ring
size and every `in_order_filled` flag. -/
theorem splitPops_spec {vdev : VirtIODevice} {q q' : InOrderQueue} {k : Nat} (h : SplitPops vdev q q' k) :
    q'.vq.lastAvailIdx = q.vq.lastAvailIdx + k.toUInt16 ∧ q'.vq.num = q.vq.num ∧ q'.usedIdx = q.usedIdx ∧
      ∀ i, (q'.usedElems i).inOrderFilled = (q.usedElems i).inOrderFilled := by
  induction h with
  | refl => exact ⟨by simp, rfl, rfl, fun _ => rfl⟩
  | @pop q₁ q₂ k g elemLen e _ hpop ih =>
    obtain ⟨hlast, hnum, hused⟩ := virtqueueSplitPopInOrder_eq_some hpop
    obtain ⟨ihlast, ihnum, ihused, ihfilled⟩ := ih
    have hfilled := virtqueueSplitPopInOrder_inOrderFilled vdev q₁ g elemLen
    rw [hpop] at hfilled
    refine ⟨?_, hnum.trans ihnum, hused.trans ihused, fun i => (hfilled i).trans (ihfilled i)⟩
    rw [hlast, ihlast, UInt16.add_assoc]
    exact congrArg _ (UInt16.ofNat_add _ 1).symm

/-- **Taking the whole ring loses every completion.** After `vring.num`
pops from a queue with nothing in flight and no slot filled, any fills of
any elements followed by a flush leave the queue as the pops left it:
nothing is published, `used_idx` stays and `inuse` stays at
`vring.num`. -/
theorem inOrder_full_ring_never_published {vdev : VirtIODevice} (hdis : virtioDeviceDisabled vdev = false)
    {q q' : InOrderQueue} (hempty : q.vq.lastAvailIdx = q.usedIdx)
    (hunfilled : ∀ i, (q.usedElems i).inOrderFilled = false) (hnum : q.vq.num.toNat ∣ 65536)
    (hpops : SplitPops vdev q q' q.vq.num.toNat) (fills : List (VirtQueueElement × UInt32)) (count : UInt32) :
    virtqueueFlushInOrder vdev (fills.foldl (fun q₁ f => virtqueueFillInOrder vdev q₁ f.1 f.2) q') count = q' := by
  obtain ⟨hlast, hnum', hused, hfilled⟩ := splitPops_spec hpops
  have hfull : q'.vq.lastAvailIdx = q'.usedIdx + q'.vq.num.toUInt16 := by
    rw [hlast, hused, hempty, hnum']
    exact congrArg _ (UInt16.ofNat_uInt32ToNat _)
  -- every fill is dropped, so the fills leave `q'` unchanged
  have hfills : ∀ fs : List (VirtQueueElement × UInt32),
      fs.foldl (fun q₁ f => virtqueueFillInOrder vdev q₁ f.1 f.2) q' = q' := by
    intro fs
    induction fs with
    | nil => rfl
    | cons f fs ih =>
      rw [List.foldl_cons, virtqueueFillInOrder, if_neg (by simp [hdis]),
        virtqueueOrderedFill_full q' f.1 f.2 hfull (hnum' ▸ hnum)]
      exact ih
  rw [hfills, virtqueueFlushInOrder, if_neg (by simp [hdis])]
  exact virtqueueOrderedFlush_of_not_filled q' ((hfilled _).trans (hunfilled _))

/-! ## A ring of two -/

/-- A guest that offers two buffers on a split ring of two descriptors:
heads `0` and `1`, each one device-writable descriptor of 64 bytes. -/
def twoBufferGuest : Guest where
  splitDesc := fun _ i =>
    if i = 0 then ⟨0x8000, 64, vringDescFWrite, 0⟩
    else if i = 1 then ⟨0x9000, 64, vringDescFWrite, 0⟩
    else ⟨0, 0, 0, 0⟩
  packedDesc := fun _ _ => ⟨0, 0, 0, 0⟩
  availIdx := 2
  availRing := fun i => if i = 1 then 1 else 0
  descCacheLen := 32
  cacheInit := fun _ _ => 0
  dmaMap := fun pa sz _ => some (pa, sz)

/-- A split-ring device that negotiated `VIRTIO_F_IN_ORDER`. -/
def inOrderDevice : VirtIODevice := ⟨false, false, false⟩

/-- The ring of two with nothing in flight and no slot filled. -/
def idleInOrderQueue : InOrderQueue :=
  ⟨⟨2, 0x1000, 0x2000, 0, true, 0, true, 0⟩, 0x3000, 0, fun _ => ⟨0, 0, 0, false⟩, fun _ => ⟨0, 0⟩, 0, true⟩

/-- The queue after the device popped the first buffer. -/
def oneInFlightQueue : InOrderQueue := (virtqueueSplitPopInOrder inOrderDevice idleInOrderQueue twoBufferGuest 0).1

/-- The queue after the device popped both buffers. -/
def fullInOrderQueue : InOrderQueue := (virtqueueSplitPopInOrder inOrderDevice oneInFlightQueue twoBufferGuest 0).1

/-- The device pops both buffers (heads 0 and 1), fills them with 64
bytes each and flushes: nothing is published, `used_idx` stays 0 and
`inuse` stays 2, so the guest never gets its buffers back. -/
theorem inOrder_full_ring_run :
    SplitPops inOrderDevice idleInOrderQueue fullInOrderQueue 2 ∧
      virtqueueFlushInOrder inOrderDevice
          ([(⟨0, 1, [], [⟨0x8000, 0x8000, 64⟩]⟩, 64), (⟨1, 1, [], [⟨0x9000, 0x9000, 64⟩]⟩, 64)].foldl
            (fun q₁ f => virtqueueFillInOrder inOrderDevice q₁ f.1 f.2) fullInOrderQueue) 2 = fullInOrderQueue ∧
      fullInOrderQueue.usedIdx = 0 ∧ fullInOrderQueue.vq.inuse = 2 := by
  have hpops : SplitPops inOrderDevice idleInOrderQueue fullInOrderQueue 2 :=
    .pop twoBufferGuest 0 ⟨1, 1, [], [⟨0x9000, 0x9000, 64⟩]⟩
      (.pop twoBufferGuest 0 ⟨0, 1, [], [⟨0x8000, 0x8000, 64⟩]⟩ (.refl _) (Prod.ext rfl rfl)) (Prod.ext rfl rfl)
  exact ⟨hpops, inOrder_full_ring_never_published rfl rfl (fun _ => rfl) (by decide) hpops _ _, rfl, rfl⟩

end QemuFormal.Virtio

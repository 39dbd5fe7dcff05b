/-
QemuFormal.Virtio.NotifyTheorems — event-index notification never loses
an interrupt the driver asked for.

The driver asks to be interrupted once the used index passes an event
index. The device does not see the index move entry by entry: it checks
at `virtio_should_notify`, and compares the index then with the index at
the previous check (`signalled_used`). So what the checks can promise is
stated about the flushes between two checks.

  §1 Indices      — `vringNeedEvent_iff`: `vring_need_event` is a test
                    on distances from `old`; `passesEvent` (the entries
                    published by a move of the index include the event
                    index) is the same test (`passesEvent_iff`).
  §2 Split flush  — `SignalledInv` (while `signalled_used` is trusted,
                    the index is less than `2^15` past it) holds after
                    every flush (`signalledInv_flushUsedIndex`); over a
                    run of flushes that keeps it trusted the distance from
                    `signalled_used` adds up (`flushRun_dist`), so a run
                    passes the event index exactly when the index went
                    from before it to past it.
  §3 Split check  — what `virtio_split_should_notify` returns, the runs
                    of flushes and checks from a reset
                    (`SplitReachable`), and that the flush functions of
                    the model are such flushes.
  §4 Packed ring  — positions on the packed ring are `Lap` pairs; a run
                    that keeps `signalled_used` trusted never wraps, so
                    it stays in one lap (`packedFlushRun_lap`).
  §5 The result   — `eventIdx_notify_since_last_check`, and the runs
                    where a check that returned `false` came in between,
                    or `VIRTIO_F_NOTIFY_ON_EMPTY` interrupts with nothing
                    passed.
-/
import QemuFormal.Virtio.Notify
import QemuFormal.Virtio.VirtqueueTheorems
import QemuFormal.Lib.Lap

namespace QemuFormal.Virtio

/-! ## §1 Indices -/

theorem toNat_sub_uint16 (a b : UInt16) : (a - b).toNat = (a.toNat + 65536 - b.toNat) % 65536 := by
  rw [UInt16.toNat_sub]
  have := b.toNat_lt
  omega

/-- `(int16_t)x`: the two's complement reading of the 16 bits. -/
theorem toInt_toInt16 (x : UInt16) :
    x.toInt16.toInt = if x.toNat < 32768 then (x.toNat : Int) else (x.toNat : Int) - 65536 := by
  simp only [UInt16.toInt16, Int16.toInt, BitVec.toInt]
  show (if 2 * x.toNat < 65536 then (x.toNat : Int) else (x.toNat : Int) - 65536) = _
  by_cases h : x.toNat < 32768
  · rw [if_pos (by omega), if_pos h]
  · rw [if_neg (by omega), if_neg h]

/-- `vring_need_event(e, new, old)` holds when `e` is closer past `old`
than `new` is: `new - e - 1 < new - old` is that test shifted by `old`. -/
theorem vringNeedEvent_iff (e new old : UInt16) :
    vringNeedEvent e new old = true ↔ (e - old).toNat < (new - old).toNat := by
  have he := e.toNat_lt
  have hn := new.toNat_lt
  have ho := old.toNat_lt
  simp only [vringNeedEvent, decide_eq_true_eq, UInt16.lt_iff_toNat_lt, toNat_sub_uint16, UInt16.toNat_one]
  omega

/-- Moving the used index from `old` to `new` publishes the entries at
`old, old + 1, …, new - 1` (16-bit indices): it passes the event index
`e` when `e` is one of them. -/
def passesEvent (e old new : UInt16) : Prop := ∃ k < (new - old).toNat, old + k.toUInt16 = e

instance (e old new : UInt16) : Decidable (passesEvent e old new) :=
  inferInstanceAs (Decidable (∃ k, k < (new - old).toNat ∧ old + k.toUInt16 = e))

theorem passesEvent_iff {e old new : UInt16} : passesEvent e old new ↔ (e - old).toNat < (new - old).toNat := by
  constructor
  · rintro ⟨k, hk, rfl⟩
    have hk16 : k < 65536 := lt_trans hk (UInt16.toNat_lt _)
    have hback : old + k.toUInt16 - old = k.toUInt16 := by grind
    rw [hback, UInt16.toNat_ofNat_of_lt' hk16]
    exact hk
  · intro h
    refine ⟨(e - old).toNat, h, ?_⟩
    rw [Nat.toUInt16_eq, UInt16.ofNat_toNat]
    grind

/-! ## §2 Split flush -/

section SplitFlush

variable {u : UsedIndex} {c : Nat} {cs : List Nat}

@[simp] theorem flushUsedIndex_usedIdx (u : UsedIndex) (c : Nat) :
    (flushUsedIndex u c).usedIdx = u.usedIdx + c.toUInt16 := rfl

@[simp] theorem flushUsedIndex_signalledUsed (u : UsedIndex) (c : Nat) :
    (flushUsedIndex u c).signalledUsed = u.signalledUsed := rfl

@[simp] theorem flushUsedIndex_usedWrapCounter (u : UsedIndex) (c : Nat) :
    (flushUsedIndex u c).usedWrapCounter = u.usedWrapCounter := rfl

theorem toNat_toUInt16 (c : Nat) : c.toUInt16.toNat = c % 65536 := by
  simp

/-- A flush moves the index on by `count`, modulo `2^16`. -/
theorem toNat_flushUsedIndex_move (u : UsedIndex) (c : Nat) :
    ((flushUsedIndex u c).usedIdx - u.usedIdx).toNat = c % 65536 := by
  have hback : u.usedIdx + c.toUInt16 - u.usedIdx = c.toUInt16 := by grind
  rw [flushUsedIndex_usedIdx, hback, toNat_toUInt16]

/-- The `(int16_t)` test of the flush: `signalled_used` stays trusted
exactly when it was and the index ends less than `2^15`, and at least the
`count` just published, past it. -/
theorem flushUsedIndex_valid_iff (u : UsedIndex) (c : Nat) :
    (flushUsedIndex u c).signalledUsedValid = true ↔
      u.signalledUsedValid = true ∧ c % 65536 ≤ (u.usedIdx + c.toUInt16 - u.signalledUsed).toNat ∧
        (u.usedIdx + c.toUInt16 - u.signalledUsed).toNat < 32768 := by
  have hmove : (u.usedIdx + c.toUInt16 - u.usedIdx).toNat = c % 65536 := toNat_flushUsedIndex_move u c
  -- a negative `int16_t` distance is below every count
  have htest : (u.usedIdx + c.toUInt16 - u.signalledUsed).toInt16.toInt < ((c % 65536 : Nat) : Int) ↔
      ¬(c % 65536 ≤ (u.usedIdx + c.toUInt16 - u.signalledUsed).toNat ∧
        (u.usedIdx + c.toUInt16 - u.signalledUsed).toNat < 32768) := by
    have := (u.usedIdx + c.toUInt16 - u.signalledUsed).toNat_lt
    rw [toInt_toInt16]
    split <;> omega
  unfold flushUsedIndex
  dsimp only
  rw [hmove]
  split_ifs with h
  · simp only [false_iff, not_and]
    exact fun _ hle hlt => htest.mp h ⟨hle, hlt⟩
  · exact ⟨fun hv => ⟨hv, not_not.mp (mt htest.mpr h)⟩, fun hv => hv.1⟩

/-- While `signalled_used` is trusted, the used index is less than `2^15`
entries past it. A check leaves the index at `signalled_used`, and the
flushes keep it. -/
def SignalledInv (u : UsedIndex) : Prop :=
  u.signalledUsedValid = true → (u.usedIdx - u.signalledUsed).toNat < 32768

/-- The flush itself enforces `SignalledInv`: whatever it was before. -/
theorem signalledInv_flushUsedIndex (u : UsedIndex) (c : Nat) : SignalledInv (flushUsedIndex u c) := by
  intro h
  simpa using ((flushUsedIndex_valid_iff u c).mp h).2.2

/-- A flush that keeps `signalled_used` trusted starts less than `2^15`
past it and moves `count` (modulo `2^16`) further, so the distances add
without wrapping. -/
theorem flushUsedIndex_dist (hu : SignalledInv u) (h : (flushUsedIndex u c).signalledUsedValid = true) :
    u.signalledUsedValid = true ∧
      ((flushUsedIndex u c).usedIdx - u.signalledUsed).toNat = (u.usedIdx - u.signalledUsed).toNat + c % 65536 := by
  obtain ⟨hv, hle, hlt⟩ := (flushUsedIndex_valid_iff u c).mp h
  have hd := hu hv
  have hi := u.usedIdx.toNat_lt
  have hs := u.signalledUsed.toNat_lt
  refine ⟨hv, ?_⟩
  simp only [flushUsedIndex_usedIdx, toNat_sub_uint16, UInt16.toNat_add, toNat_toUInt16] at hle hlt hd ⊢
  omega

/-- Such a flush passes `e` exactly when `e` lies between the distances
from `signalled_used` before and after it. -/
theorem passesEvent_flush_iff (hu : SignalledInv u) (h : (flushUsedIndex u c).signalledUsedValid = true)
    (e : UInt16) :
    passesEvent e u.usedIdx (flushUsedIndex u c).usedIdx ↔
      (u.usedIdx - u.signalledUsed).toNat ≤ (e - u.signalledUsed).toNat ∧
        (e - u.signalledUsed).toNat < ((flushUsedIndex u c).usedIdx - u.signalledUsed).toNat := by
  obtain ⟨hv, hdist⟩ := flushUsedIndex_dist hu h
  have hd := hu hv
  have hlt : ((flushUsedIndex u c).usedIdx - u.signalledUsed).toNat < 32768 := by
    simpa using signalledInv_flushUsedIndex u c h
  rw [passesEvent_iff, toNat_flushUsedIndex_move, hdist]
  rw [hdist] at hlt
  have he := e.toNat_lt
  have hi := u.usedIdx.toNat_lt
  have hs := u.signalledUsed.toNat_lt
  simp only [toNat_sub_uint16] at hd hlt ⊢
  omega

/-- The used index after the flushes `counts`, in order. -/
def flushRun (u : UsedIndex) (counts : List Nat) : UsedIndex := counts.foldl flushUsedIndex u

@[simp] theorem flushRun_nil (u : UsedIndex) : flushRun u [] = u := rfl

@[simp] theorem flushRun_cons (u : UsedIndex) (c : Nat) (cs : List Nat) :
    flushRun u (c :: cs) = flushRun (flushUsedIndex u c) cs := rfl

@[simp] theorem flushRun_signalledUsed (u : UsedIndex) (cs : List Nat) :
    (flushRun u cs).signalledUsed = u.signalledUsed := by
  induction cs generalizing u with
  | nil => rfl
  | cons c cs ih => rw [flushRun_cons, ih, flushUsedIndex_signalledUsed]

/-- No flush makes `signalled_used` trusted again. -/
theorem valid_of_flushRun (h : (flushRun u cs).signalledUsedValid = true) : u.signalledUsedValid = true := by
  induction cs generalizing u with
  | nil => exact h
  | cons c cs ih => exact ((flushUsedIndex_valid_iff u c).mp (ih h)).1

/-- Some flush of `counts`, starting at the index `idx`, passes `e`. -/
def passedDuring (e : UInt16) : UInt16 → List Nat → Prop
  | _, [] => False
  | idx, c :: cs => passesEvent e idx (idx + c.toUInt16) ∨ passedDuring e (idx + c.toUInt16) cs

instance instDecidablePassedDuring (e : UInt16) : (idx : UInt16) → (cs : List Nat) → Decidable (passedDuring e idx cs)
  | _, [] => isFalse (fun h => h)
  | idx, c :: cs =>
    haveI := instDecidablePassedDuring e (idx + c.toUInt16) cs
    inferInstanceAs (Decidable (_ ∨ _))

/-- Over a run of flushes that keeps `signalled_used` trusted, the
distance from it only grows, and the run passes `e` exactly when `e`
lies between the distances at its start and at its end. -/
theorem flushRun_dist (hu : SignalledInv u) (h : (flushRun u cs).signalledUsedValid = true) (e : UInt16) :
    (u.usedIdx - u.signalledUsed).toNat ≤ ((flushRun u cs).usedIdx - u.signalledUsed).toNat ∧
      (passedDuring e u.usedIdx cs ↔
        (u.usedIdx - u.signalledUsed).toNat ≤ (e - u.signalledUsed).toNat ∧
          (e - u.signalledUsed).toNat < ((flushRun u cs).usedIdx - u.signalledUsed).toNat) := by
  induction cs generalizing u with
  | nil => simp [passedDuring]
  | cons c cs ih =>
    have h₁ : (flushUsedIndex u c).signalledUsedValid = true :=
      valid_of_flushRun (show (flushRun (flushUsedIndex u c) cs).signalledUsedValid = true from h)
    obtain ⟨-, hdist⟩ := flushUsedIndex_dist hu h₁
    obtain ⟨hmono, hpass⟩ := ih (signalledInv_flushUsedIndex u c) h
    have hstep := passesEvent_flush_iff hu h₁ e
    simp only [flushUsedIndex_signalledUsed, flushUsedIndex_usedIdx] at hmono hpass hstep hdist
    rw [flushRun_cons, passedDuring, hstep, hpass]
    omega

end SplitFlush

/-! ## §3 Split check -/

section SplitCheck

variable {vdev : VirtIODevice} {feat : NotifyFeatures} {vq : VirtQueue} {g : Guest} {availFlags : UInt16}
  {u : UsedIndex}

theorem virtioQueueEmptyRcu_num (vdev : VirtIODevice) (vq : VirtQueue) (g : Guest) :
    (virtioQueueEmptyRcu vdev vq g).2.num = vq.num := by
  unfold virtioQueueEmptyRcu
  split_ifs <;> rfl

/-- With `VIRTIO_RING_F_EVENT_IDX` the check interrupts when the empty
test fires, when `signalled_used` is not trusted, or when `used_event` is
closer past `signalled_used` than the used index. -/
theorem virtioSplitShouldNotify_eventIdx (h : feat.eventIdx = true) :
    (virtioSplitShouldNotify vdev feat vq g availFlags u).1 =
      ((feat.notifyOnEmpty && vq.inuse == 0 && (virtioQueueEmptyRcu vdev vq g).1) ||
        (!u.signalledUsedValid || vringNeedEvent (g.availRing vq.num.toNat) u.usedIdx u.signalledUsed)) := by
  unfold virtioSplitShouldNotify
  by_cases hne : feat.notifyOnEmpty = true ∧ vq.inuse = 0
  · rw [if_pos hne]
    obtain ⟨hn, hi⟩ := hne
    -- the empty test may refresh the shadow index, never `vring.num`
    have hnum := virtioQueueEmptyRcu_num vdev vq g
    cases hq : virtioQueueEmptyRcu vdev vq g with
    | mk empty vq' =>
      rw [hq] at hnum
      cases empty <;> simp [h, hn, hi, ← hnum]
  · rw [if_neg hne]
    have hoff : (feat.notifyOnEmpty && vq.inuse == 0) = false := by
      simpa [Bool.and_eq_true, beq_iff_eq] using hne
    simp [h, hoff]

/-- A check either leaves the bookkeeping alone (the empty test fired, or
there are no event indices) or takes the index as its new reference. -/
theorem virtioSplitShouldNotify_state (vdev : VirtIODevice) (feat : NotifyFeatures) (vq : VirtQueue) (g : Guest)
    (availFlags : UInt16) (u : UsedIndex) :
    (virtioSplitShouldNotify vdev feat vq g availFlags u).2.2 = u ∨
      (virtioSplitShouldNotify vdev feat vq g availFlags u).2.2 =
        { u with signalledUsedValid := true, signalledUsed := u.usedIdx } := by
  unfold virtioSplitShouldNotify
  split_ifs <;> cases virtioQueueEmptyRcu vdev vq g <;> simp only <;> split_ifs <;> simp

theorem signalledInv_virtioSplitShouldNotify (hu : SignalledInv u) :
    SignalledInv (virtioSplitShouldNotify vdev feat vq g availFlags u).2.2 := by
  rcases virtioSplitShouldNotify_state vdev feat vq g availFlags u with h | h <;> rw [h]
  · exact hu
  · intro _
    simp

/-- The used-index bookkeeping of a split queue, from its reset, through
any flushes and notification checks. -/
inductive SplitReachable : UsedIndex → Prop
  | reset : SplitReachable ⟨0, true, 0, false⟩
  | flush {u : UsedIndex} (count : Nat) : SplitReachable u → SplitReachable (flushUsedIndex u count)
  | check {u : UsedIndex} (vdev : VirtIODevice) (feat : NotifyFeatures) (vq : VirtQueue) (g : Guest)
      (availFlags : UInt16) :
      SplitReachable u → SplitReachable (virtioSplitShouldNotify vdev feat vq g availFlags u).2.2

theorem SplitReachable.signalledInv (h : SplitReachable u) : SignalledInv u := by
  induction h with
  | reset => intro h; cases h
  | flush count _ _ => exact signalledInv_flushUsedIndex _ count
  | check vdev feat vq g availFlags _ ih => exact signalledInv_virtioSplitShouldNotify ih

/-- `virtqueue_split_flush` either does nothing (no used ring) or is a
flush of `count` entries. -/
theorem virtqueueSplitFlush_usedIndex (vq : VirtQueue) (used : UInt64) (u : UsedIndex) (count : UInt32) :
    (virtqueueSplitFlush vq used u count).2 = u ∨
      (virtqueueSplitFlush vq used u count).2 = flushUsedIndex u count.toNat := by
  unfold virtqueueSplitFlush
  split_ifs
  · exact .inl rfl
  · exact .inr rfl

theorem SplitReachable.splitFlush (h : SplitReachable u) (vq : VirtQueue) (used : UInt64) (count : UInt32) :
    SplitReachable (virtqueueSplitFlush vq used u count).2 := by
  rcases virtqueueSplitFlush_usedIndex vq used u count with h' | h' <;> rw [h']
  · exact h
  · exact .flush _ h

/-- The used-index bookkeeping of an in-order queue. The split ring
never moves the wrap counter, which stays at its reset value. -/
def InOrderQueue.usedIndex (q : InOrderQueue) : UsedIndex :=
  ⟨q.usedIdx, true, q.signalledUsed, q.signalledUsedValid⟩

/-- `virtqueue_ordered_flush` either publishes nothing or is a flush of
the `ndescs` of the run it publishes. -/
theorem virtqueueOrderedFlush_usedIndex (q : InOrderQueue) :
    (virtqueueOrderedFlush q).usedIndex = q.usedIndex ∨
      ∃ ndescs, (virtqueueOrderedFlush q).usedIndex = flushUsedIndex q.usedIndex ndescs := by
  unfold virtqueueOrderedFlush
  dsimp only
  by_cases h0 : q.used = 0
  · exact .inl (by rw [if_pos h0])
  by_cases hf : (!(q.usedElems (q.usedIdx.toUInt32 % q.vq.num).toNat).inOrderFilled) = true
  · exact .inl (by rw [if_neg h0, if_pos hf])
  · exact .inr ⟨_, by rw [if_neg h0, if_neg hf]; rfl⟩

theorem SplitReachable.orderedFlush {q : InOrderQueue} (h : SplitReachable q.usedIndex) :
    SplitReachable (virtqueueOrderedFlush q).usedIndex := by
  rcases virtqueueOrderedFlush_usedIndex q with h' | ⟨ndescs, h'⟩ <;> rw [h']
  · exact h
  · exact .flush _ h

end SplitCheck

/-! ## §4 Packed ring -/

section Packed

variable {num : UInt32} {u : UsedIndex} {n : UInt32} {ns : List UInt32} {e : VRingPackedDescEvent}

/-- The used index and its wrap counter, as a position of `Lap`. -/
def UsedIndex.lap (u : UsedIndex) : Nat × Bool := (u.usedIdx.toNat, u.usedWrapCounter)

/-- The packed used index as the flushes keep it: inside a ring of at
most `2^15` slots (an event offset has 15 bits) and, while
`signalled_used` is trusted, not behind it. -/
structure PackedUsedWF (num : UInt32) (u : UsedIndex) : Prop where
  num_le : num.toNat ≤ 32768
  idx_lt : u.usedIdx.toNat < num.toNat
  signalled_le : u.signalledUsedValid = true → u.signalledUsed.toNat ≤ u.usedIdx.toNat

@[simp] theorem packedUsedIndexAdvance_signalledUsed (num : UInt32) (u : UsedIndex) (n : UInt32) :
    (packedUsedIndexAdvance num u n).signalledUsed = u.signalledUsed := by
  unfold packedUsedIndexAdvance
  dsimp only
  split_ifs <;> rfl

/-- Publishing at most `num` descriptors is `Lap.advance`, and stops
trusting `signalled_used` exactly when the index wraps. -/
theorem packedUsedIndexAdvance_spec (hwf : PackedUsedWF num u) (hn : n.toNat ≤ num.toNat) :
    (packedUsedIndexAdvance num u n).lap = Lap.advance num.toNat n.toNat u.lap ∧
      (packedUsedIndexAdvance num u n).signalledUsedValid =
        (u.signalledUsedValid && decide (u.usedIdx.toNat + n.toNat < num.toNat)) := by
  obtain ⟨hwrap, hsum, hsub⟩ := toNat_packedStep hwf.idx_lt hwf.num_le hn
  unfold packedUsedIndexAdvance UsedIndex.lap Lap.advance
  dsimp only
  by_cases hw : num.toNat ≤ u.usedIdx.toNat + n.toNat
  · rw [if_pos (hwrap.mpr hw), if_pos hw, hsub hw]
    simp [Nat.not_lt.mpr hw]
  · rw [if_neg (mt hwrap.mp hw), if_neg hw, hsum]
    simp [Nat.not_le.mp hw]

theorem PackedUsedWF.advance (hwf : PackedUsedWF num u) (hn : n.toNat ≤ num.toNat) :
    PackedUsedWF num (packedUsedIndexAdvance num u n) := by
  obtain ⟨hlap, hvalid⟩ := packedUsedIndexAdvance_spec hwf hn
  have hlt := Lap.advance_lt (p := u.lap) hwf.idx_lt hn
  rw [← hlap] at hlt
  refine ⟨hwf.num_le, hlt, fun hv => ?_⟩
  -- trusted after the flush: it did not wrap, so the index only moved on
  rw [hvalid, Bool.and_eq_true, decide_eq_true_eq] at hv
  have hidx : (packedUsedIndexAdvance num u n).lap.1 = u.usedIdx.toNat + n.toNat := by
    rw [hlap, Lap.advance_of_lt hv.2]
    rfl
  have := hwf.signalled_le hv.1
  simp only [UsedIndex.lap] at hidx
  rw [packedUsedIndexAdvance_signalledUsed, hidx]
  omega

/-- The used index after publishing `ns` descriptors, flush by flush. -/
def packedFlushRun (num : UInt32) (u : UsedIndex) (ns : List UInt32) : UsedIndex :=
  ns.foldl (packedUsedIndexAdvance num) u

@[simp] theorem packedFlushRun_nil (num : UInt32) (u : UsedIndex) : packedFlushRun num u [] = u := rfl

@[simp] theorem packedFlushRun_cons (num : UInt32) (u : UsedIndex) (n : UInt32) (ns : List UInt32) :
    packedFlushRun num u (n :: ns) = packedFlushRun num (packedUsedIndexAdvance num u n) ns := rfl

@[simp] theorem packedFlushRun_signalledUsed (num : UInt32) (u : UsedIndex) (ns : List UInt32) :
    (packedFlushRun num u ns).signalledUsed = u.signalledUsed := by
  induction ns generalizing u with
  | nil => rfl
  | cons n ns ih => rw [packedFlushRun_cons, ih, packedUsedIndexAdvance_signalledUsed]

/-- Some flush of `ns` descriptors, from the position `p` of a ring of
`num` slots, passes the position `ev`. -/
def packedPassedDuring (num : Nat) (ev : Nat × Bool) : Nat × Bool → List Nat → Prop
  | _, [] => False
  | p, n :: ns => (∃ k < n, Lap.advance num k p = ev) ∨ packedPassedDuring num ev (Lap.advance num n p) ns

/-- A run of flushes that keeps `signalled_used` trusted never wraps: it
stays in its lap, the index only moves on, and it passes `ev` exactly
when `ev` is on that lap between the index at its start and at its end. -/
theorem packedFlushRun_lap (hwf : PackedUsedWF num u) (hns : ∀ n ∈ ns, n.toNat ≤ num.toNat)
    (h : (packedFlushRun num u ns).signalledUsedValid = true) (ev : Nat × Bool) :
    u.signalledUsedValid = true ∧ (packedFlushRun num u ns).usedWrapCounter = u.usedWrapCounter ∧
      u.usedIdx.toNat ≤ (packedFlushRun num u ns).usedIdx.toNat ∧
      (packedPassedDuring num.toNat ev u.lap (ns.map UInt32.toNat) ↔
        ev.2 = u.usedWrapCounter ∧ u.usedIdx.toNat ≤ ev.1 ∧ ev.1 < (packedFlushRun num u ns).usedIdx.toNat) := by
  induction ns generalizing u with
  | nil =>
    refine ⟨h, rfl, Nat.le_refl _, ?_⟩
    simp only [packedPassedDuring, List.map_nil, packedFlushRun_nil, false_iff]
    omega
  | cons n ns ih =>
    have hn := hns n List.mem_cons_self
    obtain ⟨hv₁, hw₁, hle₁, hpass₁⟩ :=
      ih (hwf.advance hn) (fun m hm => hns m (List.mem_cons_of_mem n hm)) h
    obtain ⟨hlap, hvalid⟩ := packedUsedIndexAdvance_spec hwf hn
    -- the first flush kept the trust, so it did not wrap
    rw [hvalid, Bool.and_eq_true, decide_eq_true_eq] at hv₁
    rw [Lap.advance_of_lt hv₁.2] at hlap
    simp only [UsedIndex.lap, Prod.mk.injEq] at hlap hpass₁ ⊢
    simp only [hlap.1, hlap.2] at hle₁ hw₁ hpass₁
    rw [packedFlushRun_cons]
    refine ⟨hv₁.1, hw₁, by omega, ?_⟩
    rw [List.map_cons, packedPassedDuring, Lap.exists_advance_eq_iff hv₁.2, Lap.advance_of_lt hv₁.2, hpass₁]
    -- the passed positions of the first flush and of the rest join up
    constructor
    · rintro (⟨hw, h₁, h₂⟩ | ⟨hw, h₁, h₂⟩)
      · exact ⟨hw, h₁, by omega⟩
      · exact ⟨hw, by omega, h₂⟩
    · rintro ⟨hw, h₁, h₂⟩
      by_cases hfirst : ev.1 < u.usedIdx.toNat + n.toNat
      · exact .inl ⟨hw, h₁, hfirst⟩
      · exact .inr ⟨hw, by omega, h₂⟩

/-- The driver's event position: bits 0 to 14 of `off_wrap` are the
offset, bit 15 the wrap counter. -/
def packedEventLap (offWrap : UInt16) : Nat × Bool := (offWrap.toNat % 32768, decide (32768 ≤ offWrap.toNat))

theorem toNat_offWrap_off (offWrap : UInt16) :
    (offWrap &&& ~~~((1 : UInt16) <<< 15)).toNat = offWrap.toNat % 32768 := by
  have hmask : ~~~((1 : UInt16) <<< 15) = 32767 := by decide
  rw [hmask, UInt16.toNat_and]
  show offWrap.toNat &&& (2 ^ 15 - 1) = offWrap.toNat % 2 ^ 15
  exact Nat.and_two_pow_sub_one_eq_mod _ _

theorem offWrap_wrap_iff (offWrap : UInt16) : (offWrap >>> 15 = 1) ↔ 32768 ≤ offWrap.toNat := by
  have := offWrap.toNat_lt
  rw [← UInt16.toNat_inj, UInt16.toNat_shiftRight]
  simp only [Nat.shiftRight_eq_div_pow]
  show offWrap.toNat / 2 ^ 15 = 1 ↔ _
  omega

/-- An event on the lap of `wrap` is taken as it is: `vring_need_event`
on its offset. -/
theorem vringPackedNeedEvent_same_lap {wrap : Bool} {offWrap : UInt16} (h : (packedEventLap offWrap).2 = wrap)
    (new old : UInt16) :
    vringPackedNeedEvent num wrap offWrap new old = vringNeedEvent (offWrap &&& ~~~((1 : UInt16) <<< 15)) new old := by
  have hsame : ¬(wrap ≠ (offWrap >>> 15 = 1)) := by
    rw [offWrap_wrap_iff, ← h, packedEventLap]
    simp
  unfold vringPackedNeedEvent
  dsimp only
  rw [if_neg hsame]

/-- In `DESC` mode the packed check interrupts when `signalled_used` is
not trusted, or when `vring_packed_need_event` says so. -/
theorem virtioPackedShouldNotify_desc (hdesc : e.flags = vringPackedEventFlagDesc) :
    (virtioPackedShouldNotify num e u).1 =
      (!u.signalledUsedValid || vringPackedNeedEvent num u.usedWrapCounter e.offWrap u.usedIdx u.signalledUsed) := by
  unfold virtioPackedShouldNotify
  rw [hdesc, if_neg (by decide), if_neg (by decide)]

/-- `virtqueue_packed_flush` either does nothing (no descriptor ring) or
publishes the `ndescs` of its elements. -/
theorem virtqueuePackedFlush_usedIndex (vq : VirtQueue) (usedElems : Nat → UsedElem) (u : UsedIndex) (count : Nat) :
    (virtqueuePackedFlush vq usedElems u count).2 = u ∨
      (virtqueuePackedFlush vq usedElems u count).2 =
        packedUsedIndexAdvance vq.num u (packedFlushNdescs usedElems count) := by
  unfold virtqueuePackedFlush
  split_ifs
  · exact .inl rfl
  · exact .inr rfl

/-- The used-index bookkeeping of a packed queue of `num` slots, from its
reset, through flushes of at most `num` descriptors and notification
checks. -/
inductive PackedReachable (num : UInt32) : UsedIndex → Prop
  | reset : PackedReachable num ⟨0, true, 0, false⟩
  | flush {u : UsedIndex} (ndescs : UInt32) :
      ndescs.toNat ≤ num.toNat → PackedReachable num u → PackedReachable num (packedUsedIndexAdvance num u ndescs)
  | check {u : UsedIndex} (e : VRingPackedDescEvent) :
      PackedReachable num u → PackedReachable num (virtioPackedShouldNotify num e u).2

theorem PackedReachable.wf (h0 : 0 < num.toNat) (hnum : num.toNat ≤ 32768) (h : PackedReachable num u) :
    PackedUsedWF num u := by
  induction h with
  | reset => exact ⟨hnum, h0, fun h => by cases h⟩
  | flush ndescs hn _ ih => exact ih.advance hn
  | check e _ ih =>
    -- the check takes the index as its new reference
    refine ⟨hnum, ?_, fun _ => ?_⟩ <;> unfold virtioPackedShouldNotify <;> split_ifs
    all_goals first | exact ih.idx_lt | exact Nat.le_refl _

theorem PackedReachable.packedFlush (h : PackedReachable num u) (vq : VirtQueue) (hvq : vq.num = num)
    (usedElems : Nat → UsedElem) (count : Nat) (hn : (packedFlushNdescs usedElems count).toNat ≤ num.toNat) :
    PackedReachable num (virtqueuePackedFlush vq usedElems u count).2 := by
  rcases virtqueuePackedFlush_usedIndex vq usedElems u count with h' | h' <;> rw [h']
  · exact h
  · rw [hvq]
    exact .flush _ hn h

end Packed

/-! ## §5 The result -/

section Notify

variable {vdev : VirtIODevice} {feat : NotifyFeatures} {vq : VirtQueue} {g : Guest} {availFlags : UInt16}
  {u : UsedIndex} {cs : List Nat} {num : UInt32} {ns : List UInt32} {e : VRingPackedDescEvent}

/-- Split ring: if the flushes since a reachable point passed
`used_event`, the check interrupts. -/
theorem splitShouldNotify_of_passedDuring (hu : SplitReachable u) (h : feat.eventIdx = true)
    (hpass : passedDuring (g.availRing vq.num.toNat) u.usedIdx cs) :
    (virtioSplitShouldNotify vdev feat vq g availFlags (flushRun u cs)).1 = true := by
  rw [virtioSplitShouldNotify_eventIdx h]
  cases hv : (flushRun u cs).signalledUsedValid
  · simp
  · obtain ⟨-, hiff⟩ := flushRun_dist hu.signalledInv hv (g.availRing vq.num.toNat)
    have hneed : vringNeedEvent (g.availRing vq.num.toNat) (flushRun u cs).usedIdx u.signalledUsed = true := by
      rw [vringNeedEvent_iff]
      exact (hiff.mp hpass).2
    rw [flushRun_signalledUsed, hneed, Bool.or_true, Bool.or_true]

/-- Split ring: flushes from the index a check took as its reference that
kept it trusted and did not pass `used_event` leave the check quiet,
unless the empty test of `VIRTIO_F_NOTIFY_ON_EMPTY` fires. -/
theorem splitShouldNotify_of_not_passedDuring (hchecked : u.signalledUsed = u.usedIdx) (h : feat.eventIdx = true)
    (hempty : ¬(feat.notifyOnEmpty = true ∧ vq.inuse = 0 ∧ (virtioQueueEmptyRcu vdev vq g).1 = true))
    (hpass : ¬passedDuring (g.availRing vq.num.toNat) u.usedIdx cs)
    (hv : (flushRun u cs).signalledUsedValid = true) :
    (virtioSplitShouldNotify vdev feat vq g availFlags (flushRun u cs)).1 = false := by
  have hu : SignalledInv u := by
    intro _
    simp [hchecked]
  obtain ⟨-, hiff⟩ := flushRun_dist hu hv (g.availRing vq.num.toNat)
  have hneed : vringNeedEvent (g.availRing vq.num.toNat) (flushRun u cs).usedIdx
      (flushRun u cs).signalledUsed = false := by
    rw [Bool.eq_false_iff, ne_eq, vringNeedEvent_iff, flushRun_signalledUsed]
    intro hlt
    -- from the reference itself, every event index short of the end was passed
    exact hpass (hiff.mpr ⟨by simp [hchecked], hlt⟩)
  have hoff : (feat.notifyOnEmpty && vq.inuse == 0 && (virtioQueueEmptyRcu vdev vq g).1) = false := by
    simpa [Bool.and_eq_true, beq_iff_eq, and_assoc] using hempty
  rw [virtioSplitShouldNotify_eventIdx h, hoff, hv, hneed]
  rfl

/-- Packed ring in `DESC` mode: if the flushes since a well-formed point
passed the driver's event position, the check interrupts. -/
theorem packedShouldNotify_of_passedDuring (hwf : PackedUsedWF num u) (hns : ∀ n ∈ ns, n.toNat ≤ num.toNat)
    (hdesc : e.flags = vringPackedEventFlagDesc)
    (hpass : packedPassedDuring num.toNat (packedEventLap e.offWrap) u.lap (ns.map UInt32.toNat)) :
    (virtioPackedShouldNotify num e (packedFlushRun num u ns)).1 = true := by
  rw [virtioPackedShouldNotify_desc hdesc]
  cases hv : (packedFlushRun num u ns).signalledUsedValid
  · rfl
  · obtain ⟨hv₀, hw, -, hiff⟩ := packedFlushRun_lap hwf hns hv (packedEventLap e.offWrap)
    obtain ⟨hlap, hfrom, hto⟩ := hiff.mp hpass
    have hs := hwf.signalled_le hv₀
    have hend := (packedFlushRun num u ns).usedIdx.toNat_lt
    rw [← hw] at hlap
    rw [Bool.not_true, Bool.false_or, vringPackedNeedEvent_same_lap hlap, vringNeedEvent_iff,
      packedFlushRun_signalledUsed, toNat_sub_uint16, toNat_sub_uint16, toNat_offWrap_off]
    -- `signalled_used`, the offset and the end are on one lap, in this order
    simp only [packedEventLap] at hfrom hto
    omega

/-- Event-index notification over runs of flushes and checks. On the
split ring: from any point reachable from a reset, flushes that pass the
`used_event` the next check reads make it interrupt; from the index a
check took as its reference, flushes that keep it trusted and pass no
`used_event` leave the next check quiet, unless `VIRTIO_F_NOTIFY_ON_EMPTY`
finds the queue empty. On the packed ring in `DESC` mode, with at most
`2^15` slots and flushes of at most `num` descriptors: flushes that pass
the driver's event position make the next check interrupt. -/
theorem eventIdx_notify_since_last_check (vdev : VirtIODevice) (feat : NotifyFeatures) (vq : VirtQueue) (g : Guest)
    (availFlags : UInt16) (u : UsedIndex) (cs : List Nat) (num : UInt32) (up : UsedIndex) (ns : List UInt32)
    (e : VRingPackedDescEvent) (hu : SplitReachable u) (h : feat.eventIdx = true) (hup : PackedReachable num up)
    (h0 : 0 < num.toNat) (hnum : num.toNat ≤ 32768) (hns : ∀ n ∈ ns, n.toNat ≤ num.toNat)
    (hdesc : e.flags = vringPackedEventFlagDesc) :
    (passedDuring (g.availRing vq.num.toNat) u.usedIdx cs →
      (virtioSplitShouldNotify vdev feat vq g availFlags (flushRun u cs)).1 = true) ∧
    (u.signalledUsed = u.usedIdx →
      ¬(feat.notifyOnEmpty = true ∧ vq.inuse = 0 ∧ (virtioQueueEmptyRcu vdev vq g).1 = true) →
      ¬passedDuring (g.availRing vq.num.toNat) u.usedIdx cs → (flushRun u cs).signalledUsedValid = true →
      (virtioSplitShouldNotify vdev feat vq g availFlags (flushRun u cs)).1 = false) ∧
    (packedPassedDuring num.toNat (packedEventLap e.offWrap) up.lap (ns.map UInt32.toNat) →
      (virtioPackedShouldNotify num e (packedFlushRun num up ns)).1 = true) :=
  ⟨splitShouldNotify_of_passedDuring hu h,
    fun hchecked hempty hpass hv => splitShouldNotify_of_not_passedDuring hchecked h hempty hpass hv,
    packedShouldNotify_of_passedDuring (hup.wf h0 hnum) hns hdesc⟩

/-- A working split-ring device. -/
def splitDevice : VirtIODevice := ⟨false, false, false⟩

/-- `VIRTIO_RING_F_EVENT_IDX` without `VIRTIO_F_NOTIFY_ON_EMPTY`. -/
def eventIdxFeatures : NotifyFeatures := ⟨false, true⟩

/-- A ring of eight with nothing available and nothing in flight. -/
def eventRing : VirtQueue := ⟨8, 0x1000, 0x2000, 0, true, 0, true, 0⟩

/-- A guest whose driver has written `used_event = ev`, with nothing on
its avail ring. -/
def usedEventGuest (ev : UInt16) : Guest where
  splitDesc := fun _ _ => ⟨0, 0, 0, 0⟩
  packedDesc := fun _ _ => ⟨0, 0, 0, 0⟩
  availIdx := 0
  availRing := fun _ => ev
  descCacheLen := 0
  cacheInit := fun _ _ => 0
  dmaMap := fun _ _ _ => none

/-- From a reset: a split run of five entries and one, with `used_event`
at 2, and a packed run of three descriptors towards the event at offset
2 on the first lap. -/
theorem eventIdx_notify_reset_run :
    SplitReachable ⟨0, true, 0, false⟩ ∧ eventIdxFeatures.eventIdx = true ∧ PackedReachable 8 ⟨0, true, 0, false⟩ ∧
      0 < (8 : UInt32).toNat ∧ (8 : UInt32).toNat ≤ 32768 ∧ (∀ n ∈ [(3 : UInt32)], n.toNat ≤ (8 : UInt32).toNat) ∧
      (⟨0x8002, 2⟩ : VRingPackedDescEvent).flags = vringPackedEventFlagDesc ∧
      ((passedDuring ((usedEventGuest 2).availRing eventRing.num.toNat) 0 [5, 1] →
          (virtioSplitShouldNotify splitDevice eventIdxFeatures eventRing (usedEventGuest 2) 0
            (flushRun ⟨0, true, 0, false⟩ [5, 1])).1 = true) ∧
        ((0 : UInt16) = 0 →
          ¬(eventIdxFeatures.notifyOnEmpty = true ∧ eventRing.inuse = 0 ∧
            (virtioQueueEmptyRcu splitDevice eventRing (usedEventGuest 2)).1 = true) →
          ¬passedDuring ((usedEventGuest 2).availRing eventRing.num.toNat) 0 [5, 1] →
          (flushRun ⟨0, true, 0, false⟩ [5, 1]).signalledUsedValid = true →
          (virtioSplitShouldNotify splitDevice eventIdxFeatures eventRing (usedEventGuest 2) 0
            (flushRun ⟨0, true, 0, false⟩ [5, 1])).1 = false) ∧
        (packedPassedDuring (8 : UInt32).toNat (packedEventLap 0x8002) (UsedIndex.lap ⟨0, true, 0, false⟩)
            ([(3 : UInt32)].map UInt32.toNat) →
          (virtioPackedShouldNotify 8 ⟨0x8002, 2⟩ (packedFlushRun 8 ⟨0, true, 0, false⟩ [3])).1 = true)) := by
  have hns : ∀ n ∈ [(3 : UInt32)], n.toNat ≤ (8 : UInt32).toNat := by
    intro n hn
    rw [List.mem_singleton] at hn
    subst hn
    decide
  exact ⟨.reset, rfl, .reset, by decide, by decide, hns, rfl,
    eventIdx_notify_since_last_check splitDevice eventIdxFeatures eventRing (usedEventGuest 2) 0 ⟨0, true, 0, false⟩
      [5, 1] 8 ⟨0, true, 0, false⟩ [3] ⟨0x8002, 2⟩ .reset rfl .reset (by decide) (by decide) hns rfl⟩

/-- The promise is relative to the previous check, not to the last check
that interrupted. A check interrupts; five entries pass index 2 while
`used_event` reads 10, and the next check stays quiet; after one more
entry the driver has moved `used_event` back to 2, and that check stays
quiet too. And with `VIRTIO_F_NOTIFY_ON_EMPTY` a check on an empty queue
interrupts with nothing published and `signalled_used` trusted. -/
theorem splitShouldNotify_quiet_after_passed_event :
    virtioSplitShouldNotify splitDevice eventIdxFeatures eventRing (usedEventGuest 2) 0 ⟨0, true, 0, false⟩ =
        (true, eventRing, ⟨0, true, 0, true⟩) ∧
      virtioSplitShouldNotify splitDevice eventIdxFeatures eventRing (usedEventGuest 10) 0
          (flushRun ⟨0, true, 0, true⟩ [5]) = (false, eventRing, ⟨5, true, 5, true⟩) ∧
      (virtioSplitShouldNotify splitDevice eventIdxFeatures eventRing (usedEventGuest 2) 0
          (flushRun ⟨5, true, 5, true⟩ [1])).1 = false ∧
      passedDuring 2 0 [5, 1] ∧
      (virtioSplitShouldNotify splitDevice ⟨true, true⟩ eventRing (usedEventGuest 2) 0 ⟨0, true, 0, true⟩).1 = true := by
  refine ⟨by decide, by decide, by decide, .inl ⟨2, by decide, by decide⟩, by decide⟩

end Notify

end QemuFormal.Virtio

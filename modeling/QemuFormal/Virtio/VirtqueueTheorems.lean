/-
QemuFormal.Virtio.VirtqueueTheorems — what handing elements back to a
virtqueue restores.

A pop moves the queue on by the slots its element took: one on the split
ring, `ndescs` on the packed ring. `virtqueue_unpop` and
`virtqueue_rewind` step back by one slot per element and take `inuse`
back by `ndescs`, resp. by the number of elements. So they undo the pops
exactly when every element took one slot.

- Split ring: `virtqueueUnpop_split` restores the queue and refetches
  the element; `virtqueueRewind_split` restores the queue from before
  the last `k` pops, and `virtqueueRewind_split_refetch` fetches the
  first of them again when the shadow index was consistent with the
  guest.
- Packed ring, where the next index and wrap counter are a `Lap`
  position (`packedNext_lap`, `virtqueuePackedRewind_lap`):
  `virtqueueUnpop_packed` restores `inuse` but leaves the queue
  `ndescs - 1` slots too far, which is where it was exactly when
  `ndescs = 1`; then `virtqueueUnpop_packed_refetch` refetches the
  element. `virtqueueRewind_packed` and `virtqueueRewind_packed_refetch`
  do the same for runs of single-descriptor elements.
- `virtqueueUnpop_refetches_chain_tail` runs a chain of two descriptors:
  after an unpop, the next pop returns the chain's tail alone.
-/
import QemuFormal.Lib.Lap
import QemuFormal.Virtio.Virtqueue

namespace QemuFormal.Virtio

variable {vq vq' : VirtQueue} {g : Guest} {e : VirtQueueElement}

theorem except_bind_eq_ok {α β : Type} {x : Except String α} {f : α → Except String β} {b : β}
    (h : (x >>= f) = .ok b) : ∃ a, x = .ok a ∧ f a = .ok b := by
  cases x with
  | error msg => cases h
  | ok a => exact ⟨a, rfl, h⟩

/-! ## The packed descriptor walk -/

/-- The loop counts one descriptor per round and stops within `room`
more. -/
theorem virtqueuePackedCollect_entries {cache : UInt64} {max : Nat} {indirect : Bool} {room : Nat} :
    ∀ {k i : Nat} {desc : VRingPackedDesc} {c c' : Collected} {n : Nat} {last : VRingPackedDesc},
      virtqueuePackedCollect vq g cache max indirect room k i desc c = .ok (c', n, last) →
        k + 1 ≤ n ∧ n ≤ k + room := by
  induction room with
  | zero =>
    intro k i desc c c' n last h
    rw [virtqueuePackedCollect] at h
    obtain ⟨c₁, -, h⟩ := except_bind_eq_ok h
    cases h
  | succ room ih =>
    intro k i desc c c' n last h
    rw [virtqueuePackedCollect] at h
    obtain ⟨c₁, -, h⟩ := except_bind_eq_ok h
    dsimp only at h
    split at h
    · cases h; omega
    · have := ih h; omega
    · cases h

/-- A chain takes at least one slot of the ring and at most all of them. -/
theorem virtqueuePackedChain_ndescs {c : Collected} {id : UInt16} {n : Nat} (hnum : 0 < vq.num.toNat)
    (h : virtqueuePackedChain vq g = .ok (c, id, n)) : 1 ≤ n ∧ n ≤ vq.num.toNat := by
  unfold virtqueuePackedChain at h
  dsimp only at h
  split at h
  · cases h
  · split at h
    · -- an indirect table counts as one descriptor
      split at h
      · cases h
      · split at h
        · cases h
        · obtain ⟨_, -, h⟩ := except_bind_eq_ok h
          cases h
          omega
    · obtain ⟨⟨c₁, k, last⟩, hcol, h⟩ := except_bind_eq_ok h
      cases h
      have := virtqueuePackedCollect_entries hcol
      dsimp only
      omega

/-! ## One packed pop -/

/-- A packed queue as the pops keep it: a ring of at most
`VIRTQUEUE_MAX_SIZE` slots, with the next index inside it. -/
structure PackedWF (vq : VirtQueue) : Prop where
  num_pos : 0 < vq.num.toNat
  num_le : vq.num.toNat ≤ virtqueueMaxSize
  idx_lt : vq.lastAvailIdx.toNat < vq.num.toNat

/-- The next index and its wrap counter, as a position of `Lap`. -/
def VirtQueue.availLap (vq : VirtQueue) : Nat × Bool := (vq.lastAvailIdx.toNat, vq.lastAvailWrapCounter)

/-- Where a packed pop of `ndescs` descriptors moves the next index and
the wrap counter. -/
def packedNext (vq : VirtQueue) (ndescs : UInt32) : UInt16 × Bool :=
  let idx := vq.lastAvailIdx + ndescs.toUInt16
  if idx.toUInt32 ≥ vq.num then (idx - vq.num.toUInt16, !vq.lastAvailWrapCounter)
  else (idx, vq.lastAvailWrapCounter)

/-- A packed pop that returns an element walked its chain, found room in
`inuse`, and moved on by the element's `ndescs`; nothing else changes. -/
theorem virtqueuePackedPop_eq_some (h : virtqueuePackedPop vq g = (vq', .ok (some e))) :
    ∃ c id n, virtqueuePackedChain vq g = .ok (c, id, n) ∧ vq.inuse < vq.num ∧
      e = ⟨id.toUInt32, n.toUInt32, c.outSg, c.inSg⟩ ∧
      vq' = { vq with
        lastAvailIdx := (packedNext vq e.ndescs).1, lastAvailWrapCounter := (packedNext vq e.ndescs).2,
        inuse := vq.inuse + e.ndescs,
        shadowAvailIdx := (packedNext vq e.ndescs).1, shadowAvailWrapCounter := (packedNext vq e.ndescs).2 } := by
  unfold virtqueuePackedPop at h
  split_ifs at h with hempty hinuse
  · cases h
  · cases h
  · split at h
    · cases h
    · rename_i c id n hchain
      refine ⟨c, id, n, hchain, UInt32.not_le.mp hinuse, ?_⟩
      dsimp only at h
      -- wrapping past the end of the ring or not
      split at h <;> rename_i hwrap <;> obtain ⟨rfl, he⟩ := Prod.mk.inj h <;> cases he
      · have hnext : packedNext vq n.toUInt32 =
            (vq.lastAvailIdx + n.toUInt32.toUInt16 - vq.num.toUInt16, !vq.lastAvailWrapCounter) := if_pos hwrap
        exact ⟨rfl, by rw [hnext]⟩
      · have hnext : packedNext vq n.toUInt32 = (vq.lastAvailIdx + n.toUInt32.toUInt16, vq.lastAvailWrapCounter) :=
          if_neg hwrap
        exact ⟨rfl, by rw [hnext]⟩

/-- The 16-bit step of a packed index, `idx + n` and `num` less past the
end of the ring, on `Nat`: in a ring of at most `2^15` slots nothing
overflows. -/
theorem toNat_packedStep {idx : UInt16} {num n : UInt32} (hidx : idx.toNat < num.toNat)
    (hnum : num.toNat ≤ 32768) (hn : n.toNat ≤ num.toNat) :
    ((idx + n.toUInt16).toUInt32 ≥ num ↔ num.toNat ≤ idx.toNat + n.toNat) ∧
      (idx + n.toUInt16).toNat = idx.toNat + n.toNat ∧
      (num.toNat ≤ idx.toNat + n.toNat → (idx + n.toUInt16 - num.toUInt16).toNat = idx.toNat + n.toNat - num.toNat) := by
  have hn16 : n.toUInt16.toNat = n.toNat := by simp; omega
  have hsum : (idx + n.toUInt16).toNat = idx.toNat + n.toNat := by
    rw [UInt16.toNat_add, hn16]; omega
  have hnum16 : num.toUInt16.toNat = num.toNat := by simp; omega
  refine ⟨?_, hsum, fun hw => ?_⟩
  · rw [ge_iff_le, UInt32.le_iff_toNat_le, UInt16.toNat_toUInt32, hsum]
  · have hle : num.toUInt16 ≤ idx + n.toUInt16 := by
      rw [UInt16.le_iff_toNat_le, hsum, hnum16]; exact hw
    rw [UInt16.toNat_sub_of_le _ _ hle, hsum, hnum16]

/-- In a well-formed ring, moving on by `d` descriptors is `Lap.advance`:
the 16-bit sums never overflow. -/
theorem packedNext_lap (hwf : PackedWF vq) {d : Nat} (hd : d ≤ vq.num.toNat) :
    ((packedNext vq d.toUInt32).1.toNat, (packedNext vq d.toUInt32).2) = Lap.advance vq.num.toNat d vq.availLap := by
  have hmax : virtqueueMaxSize = 1024 := rfl
  have hnum := hwf.num_le
  have hd32 : d.toUInt32.toNat = d := by simp; omega
  obtain ⟨hwrap, hsum, hsub⟩ := toNat_packedStep hwf.idx_lt (by omega) (n := d.toUInt32) (by omega)
  rw [hd32] at hwrap hsum hsub
  unfold packedNext Lap.advance VirtQueue.availLap
  dsimp only
  by_cases hw : vq.num.toNat ≤ vq.lastAvailIdx.toNat + d
  · rw [if_pos (hwrap.mpr hw), if_pos hw, hsub hw]
  · rw [if_neg (mt hwrap.mp hw), if_neg hw, hsum]

/-- A packed pop keeps the queue well formed and moves it on by `ndescs`,
between one and `vring.num` descriptors. -/
theorem virtqueuePackedPop_lap (hwf : PackedWF vq) (h : virtqueuePackedPop vq g = (vq', .ok (some e))) :
    1 ≤ e.ndescs.toNat ∧ e.ndescs.toNat ≤ vq.num.toNat ∧ vq.inuse < vq.num ∧
      vq'.availLap = Lap.advance vq.num.toNat e.ndescs.toNat vq.availLap ∧
      vq'.inuse = vq.inuse + e.ndescs ∧ vq'.num = vq.num ∧ PackedWF vq' := by
  obtain ⟨c, id, n, hchain, hinuse, rfl, rfl⟩ := virtqueuePackedPop_eq_some h
  obtain ⟨hn₁, hn₂⟩ := virtqueuePackedChain_ndescs hwf.num_pos hchain
  have hmax : virtqueueMaxSize = 1024 := rfl
  have hn : n.toUInt32.toNat = n := by have := hwf.num_le; simp; omega
  have hlap := packedNext_lap hwf (d := n) (by omega)
  have hlt := Lap.advance_lt (p := vq.availLap) hwf.idx_lt (d := n) (by omega)
  rw [← hlap] at hlt
  dsimp only
  rw [hn]
  exact ⟨hn₁, hn₂, hinuse, hlap, rfl, rfl, hwf.num_pos, hwf.num_le, hlt⟩

/-! ## Rewinding the packed ring -/

/-- In a well-formed ring, stepping back `m ≤ vring.num` descriptors is
`Lap.rewind`. -/
theorem virtqueuePackedRewind_lap (hwf : PackedWF vq) {m : Nat} (hm : m ≤ vq.num.toNat) :
    (virtqueuePackedRewind vq m.toUInt32).availLap = Lap.rewind vq.num.toNat m vq.availLap := by
  have hmax : virtqueueMaxSize = 1024 := rfl
  have hnum := hwf.num_le
  have hidx := hwf.idx_lt
  have hm32 : m.toUInt32.toNat = m := by simp; omega
  unfold virtqueuePackedRewind Lap.rewind VirtQueue.availLap
  by_cases hw : vq.lastAvailIdx.toNat < m
  · have hlt : vq.lastAvailIdx.toUInt32 < m.toUInt32 := by
      rw [UInt32.lt_iff_toNat_lt, UInt16.toNat_toUInt32, hm32]; exact hw
    rw [if_pos hlt, if_pos hw]
    have hsum : (vq.num + vq.lastAvailIdx.toUInt32 - m.toUInt32).toNat = vq.num.toNat + vq.lastAvailIdx.toNat - m := by
      have hle : m.toUInt32 ≤ vq.num + vq.lastAvailIdx.toUInt32 := by
        rw [UInt32.le_iff_toNat_le, UInt32.toNat_add, UInt16.toNat_toUInt32, hm32]; omega
      rw [UInt32.toNat_sub_of_le _ _ hle, UInt32.toNat_add, UInt16.toNat_toUInt32, hm32]; omega
    simp only [Prod.mk.injEq, and_true]
    rw [UInt32.toNat_toUInt16, hsum]; omega
  · have hle : m.toUInt32.toUInt16 ≤ vq.lastAvailIdx := by
      rw [UInt16.le_iff_toNat_le]; simp; omega
    rw [if_neg (by rw [UInt32.lt_iff_toNat_lt, UInt16.toNat_toUInt32, hm32]; exact hw), if_neg hw]
    simp only [Prod.mk.injEq, and_true]
    rw [UInt16.toNat_sub_of_le _ _ hle]; simp; omega

/-- The packed rewind moves only the index and the wrap counter. -/
theorem virtqueuePackedRewind_eq (vq : VirtQueue) (m : UInt32) :
    virtqueuePackedRewind vq m = { vq with
      lastAvailIdx := (virtqueuePackedRewind vq m).lastAvailIdx,
      lastAvailWrapCounter := (virtqueuePackedRewind vq m).lastAvailWrapCounter } := by
  unfold virtqueuePackedRewind; split <;> rfl

@[simp] theorem inuse_virtqueuePackedRewind (vq : VirtQueue) (m : UInt32) :
    (virtqueuePackedRewind vq m).inuse = vq.inuse := by
  unfold virtqueuePackedRewind; split <;> rfl

/-! ## What a packed pop reads -/

/-- The walk reads the queue only for the size of the ring. -/
theorem virtqueuePackedCollect_congr {vq₁ vq₂ : VirtQueue} (hnum : vq₁.num = vq₂.num) {cache : UInt64} {max : Nat}
    {indirect : Bool} {room : Nat} :
    ∀ {k i : Nat} {desc : VRingPackedDesc} {c : Collected},
      virtqueuePackedCollect vq₁ g cache max indirect room k i desc c =
        virtqueuePackedCollect vq₂ g cache max indirect room k i desc c := by
  induction room with
  | zero => intro k i desc c; rw [virtqueuePackedCollect, virtqueuePackedCollect]
  | succ room ih =>
    intro k i desc c
    have hnext : virtqueuePackedReadNextDesc vq₁ g desc cache max i indirect =
        virtqueuePackedReadNextDesc vq₂ g desc cache max i indirect := by
      simp only [virtqueuePackedReadNextDesc, hnum]
    rw [virtqueuePackedCollect, virtqueuePackedCollect, hnext]
    simp only [ih]

/-- A packed pop does not read the shadow index or wrap counter, and
overwrites both when it returns an element. -/
theorem virtqueuePackedPop_shadow (vq : VirtQueue) (a : UInt16) (b : Bool) :
    (virtqueuePackedPop { vq with shadowAvailIdx := a, shadowAvailWrapCounter := b } g).2 =
        (virtqueuePackedPop vq g).2 ∧
      ((virtqueuePackedPop vq g).2 = .ok (some e) →
        (virtqueuePackedPop { vq with shadowAvailIdx := a, shadowAvailWrapCounter := b } g).1 =
          (virtqueuePackedPop vq g).1) := by
  have hcollect : ∀ cache max indirect room k i desc c,
      virtqueuePackedCollect { vq with shadowAvailIdx := a, shadowAvailWrapCounter := b } g cache max indirect room k i
          desc c = virtqueuePackedCollect vq g cache max indirect room k i desc c :=
    fun _ _ _ _ _ _ _ _ => virtqueuePackedCollect_congr
      (show ({ vq with shadowAvailIdx := a, shadowAvailWrapCounter := b } : VirtQueue).num = vq.num from rfl)
  have hchain : virtqueuePackedChain { vq with shadowAvailIdx := a, shadowAvailWrapCounter := b } g =
      virtqueuePackedChain vq g := by
    unfold virtqueuePackedChain
    simp only [hcollect]
  have hempty : virtioQueuePackedEmptyRcu { vq with shadowAvailIdx := a, shadowAvailWrapCounter := b } g =
      virtioQueuePackedEmptyRcu vq g := rfl
  unfold virtqueuePackedPop
  rw [hchain, hempty]
  dsimp only
  -- the emptiness test, the `inuse` test and the walk see the same fields
  split_ifs
  · exact ⟨rfl, fun h => by cases h⟩
  · exact ⟨rfl, fun h => by cases h⟩
  · split
    · exact ⟨rfl, fun h => by cases h⟩
    · exact ⟨rfl, fun _ => rfl⟩

/-! ## Unpop on the packed ring -/

section PackedUnpop

variable {vdev : VirtIODevice}

/-- **Unpop on the packed ring.** After a pop of `e`, `virtqueue_unpop`
gives back all the `inuse` the pop took, but steps back one descriptor
where the pop moved on `ndescs`: it leaves the queue `ndescs - 1`
descriptors past where the pop found it, which is where it was exactly
when the chain was a single descriptor. -/
theorem virtqueueUnpop_packed (hpacked : vdev.ringPacked = true) (hwf : PackedWF vq)
    (h : virtqueuePackedPop vq g = (vq', .ok (some e))) :
    (virtqueueUnpop vdev vq' e).inuse = vq.inuse ∧
      (virtqueueUnpop vdev vq' e).availLap = Lap.advance vq.num.toNat (e.ndescs.toNat - 1) vq.availLap ∧
      ((virtqueueUnpop vdev vq' e).availLap = vq.availLap ↔ e.ndescs = 1) := by
  obtain ⟨hn₁, hn₂, -, hlap, hinuse, hnum, hwf'⟩ := virtqueuePackedPop_lap hwf h
  have hrew := virtqueuePackedRewind_lap hwf' (m := 1) (by rw [hnum]; exact hwf.num_pos)
  have hback : (virtqueueUnpop vdev vq' e).availLap = Lap.advance vq.num.toNat (e.ndescs.toNat - 1) vq.availLap := by
    simp only [virtqueueUnpop, hpacked, if_true, virtqueueDetachElement]
    rw [← Lap.rewind_advance_sub hwf.idx_lt hn₂ hn₁, ← hlap, ← hnum]
    exact hrew
  refine ⟨?_, hback, ?_⟩
  · simp [virtqueueUnpop, hpacked, virtqueueDetachElement, hinuse]
  · rw [hback, Lap.advance_eq_self_iff hwf.idx_lt (by omega)]
    constructor
    · intro h1
      apply UInt32.toNat_inj.mp
      simp only [UInt32.toNat_one]
      omega
    · intro h1
      rw [h1]
      rfl

/-- ... so when the chain was one descriptor, the next pop returns the
same element and leaves the queue as the first pop did. -/
theorem virtqueueUnpop_packed_refetch (hpacked : vdev.ringPacked = true) (hwf : PackedWF vq)
    (h : virtqueuePackedPop vq g = (vq', .ok (some e))) (hone : e.ndescs = 1) :
    virtqueuePackedPop (virtqueueUnpop vdev vq' e) g = (vq', .ok (some e)) := by
  obtain ⟨hinuse, -, hlap⟩ := virtqueueUnpop_packed hpacked hwf h
  obtain ⟨c, id, n, -, -, -, hvq'⟩ := virtqueuePackedPop_eq_some h
  have hu : virtqueueUnpop vdev vq' e =
      { vq with shadowAvailIdx := vq'.shadowAvailIdx, shadowAvailWrapCounter := vq'.shadowAvailWrapCounter } := by
    have hidx := congrArg Prod.fst (hlap.mpr hone)
    have hwrap := congrArg Prod.snd (hlap.mpr hone)
    simp only [VirtQueue.availLap] at hidx hwrap
    apply VirtQueue.ext <;> first
      | exact UInt16.toNat_inj.mp hidx | exact hwrap | exact hinuse
      | (simp only [virtqueueUnpop, hpacked, if_true, virtqueueDetachElement, virtqueuePackedRewind]
         split <;> simp [hvq'])
  obtain ⟨hsame, hstate⟩ := virtqueuePackedPop_shadow (e := e) vq vq'.shadowAvailIdx vq'.shadowAvailWrapCounter (g := g)
  rw [hu, Prod.ext_iff]
  rw [h] at hsame hstate
  exact ⟨hstate rfl, hsame⟩

end PackedUnpop

/-! ## One split pop -/

section Split

variable {vdev : VirtIODevice}

/-- With a shadow index ahead of `last_avail_idx`, the emptiness test
reads nothing. -/
theorem virtioQueueEmptyRcu_of_ne (hdis : virtioDeviceDisabled vdev = false) (havail : vq.avail ≠ 0)
    (hne : vq.shadowAvailIdx ≠ vq.lastAvailIdx) : virtioQueueEmptyRcu vdev vq g = (false, vq) := by
  simp [virtioQueueEmptyRcu, hdis, havail, hne]

/-- A queue found not empty has a shadow index other than
`last_avail_idx`, whether it was there already or just read. -/
theorem virtioQueueEmptyRcu_eq_false {vq₀ : VirtQueue} (h : virtioQueueEmptyRcu vdev vq g = (false, vq₀)) :
    virtioDeviceDisabled vdev = false ∧ vq.avail ≠ 0 ∧
      vq₀ = { vq with shadowAvailIdx := vq₀.shadowAvailIdx } ∧ vq₀.shadowAvailIdx ≠ vq.lastAvailIdx := by
  unfold virtioQueueEmptyRcu at h
  split_ifs at h with hdis havail hne
  · cases h
  · cases h
  · cases h
    exact ⟨by simpa using hdis, havail, rfl, hne⟩
  · obtain ⟨hempty, rfl⟩ := Prod.mk.inj h
    exact ⟨by simpa using hdis, havail, rfl, by simpa using hempty⟩

/-- Two split pops whose emptiness tests leave the same queue behave the
same. -/
theorem virtqueueSplitPop_congr {vq₁ vq₂ vq₀ : VirtQueue} (h₁ : virtioQueueEmptyRcu vdev vq₁ g = (false, vq₀))
    (h₂ : virtioQueueEmptyRcu vdev vq₂ g = (false, vq₀)) :
    virtqueueSplitPop vdev vq₁ g = virtqueueSplitPop vdev vq₂ g := by
  unfold virtqueueSplitPop
  rw [h₁, h₂]

/-- A split pop that returns an element found the queue not empty and
`inuse` below the ring size, and moved `last_avail_idx` and `inuse` on by
one. -/
theorem virtqueueSplitPop_eq_some (h : virtqueueSplitPop vdev vq g = (vq', .ok (some e))) :
    ∃ vq₀, virtioQueueEmptyRcu vdev vq g = (false, vq₀) ∧ vq₀.inuse < vq₀.num ∧ e.ndescs = 1 ∧
      vq' = { vq₀ with lastAvailIdx := vq₀.lastAvailIdx + 1, inuse := vq₀.inuse + 1 } := by
  unfold virtqueueSplitPop at h
  rcases hem : virtioQueueEmptyRcu vdev vq g with ⟨empty, vq₀⟩
  rw [hem] at h
  dsimp only at h
  split_ifs at h with hempty hinuse
  · cases h
  · cases h
  · split at h
    · cases h
    · split at h
      · cases h
      · obtain ⟨rfl, he⟩ := Prod.mk.inj h
        cases he
        simp only [Bool.not_eq_true] at hempty
        exact ⟨vq₀, hempty ▸ rfl, UInt32.not_le.mp hinuse, rfl, rfl⟩

/-- **Unpop on the split ring.** After a pop of `e`, `virtqueue_unpop`
restores the queue the pop found, all but the shadow index it may have
read, and the next pop returns `e` again and leaves the queue as the
first one did. -/
theorem virtqueueUnpop_split (hsplit : vdev.ringPacked = false) (h : virtqueueSplitPop vdev vq g = (vq', .ok (some e))) :
    virtqueueUnpop vdev vq' e = { vq with shadowAvailIdx := vq'.shadowAvailIdx } ∧
      virtqueueSplitPop vdev (virtqueueUnpop vdev vq' e) g = (vq', .ok (some e)) := by
  obtain ⟨vq₀, hem, -, hone, rfl⟩ := virtqueueSplitPop_eq_some h
  obtain ⟨hdis, havail, hvq₀, hne⟩ := virtioQueueEmptyRcu_eq_false hem
  have hu : virtqueueUnpop vdev { vq₀ with lastAvailIdx := vq₀.lastAvailIdx + 1, inuse := vq₀.inuse + 1 } e = vq₀ := by
    simp only [virtqueueUnpop, hsplit, virtqueueSplitRewind, virtqueueDetachElement, hone]
    apply VirtQueue.ext <;> simp
  have hshadow : vq₀.shadowAvailIdx = ({ vq₀ with lastAvailIdx := vq₀.lastAvailIdx + 1, inuse := vq₀.inuse + 1 } :
      VirtQueue).shadowAvailIdx := rfl
  refine ⟨by rw [hu, ← hshadow]; exact hvq₀, ?_⟩
  rw [hu, ← h]
  -- the shadow index the first pop left is ahead of `last_avail_idx`
  have hne₀ : vq₀.shadowAvailIdx ≠ vq₀.lastAvailIdx := by rw [hvq₀] at hne ⊢; exact hne
  have havail₀ : vq₀.avail ≠ 0 := by rw [hvq₀]; exact havail
  exact virtqueueSplitPop_congr (virtioQueueEmptyRcu_of_ne hdis havail₀ hne₀) hem

/-- When the guest's `avail->idx` is ahead, the emptiness test finds the
queue not empty, whatever the shadow index. -/
theorem virtioQueueEmptyRcu_of_availIdx_ne (hdis : virtioDeviceDisabled vdev = false) (havail : vq.avail ≠ 0)
    (hne : g.availIdx ≠ vq.lastAvailIdx) :
    ∃ s, virtioQueueEmptyRcu vdev vq g = (false, { vq with shadowAvailIdx := s }) := by
  by_cases hs : vq.shadowAvailIdx = vq.lastAvailIdx
  · exact ⟨g.availIdx, by simp [virtioQueueEmptyRcu, hdis, havail, hs, hne]⟩
  · exact ⟨vq.shadowAvailIdx, virtioQueueEmptyRcu_of_ne hdis havail hs⟩

/-- A shadow index that is the guest's `avail->idx` or `last_avail_idx`
tells the truth: a queue found not empty has `avail->idx` ahead. -/
theorem availIdx_ne_of_empty_false {vq₀ : VirtQueue}
    (hshadow : vq.shadowAvailIdx = g.availIdx ∨ vq.shadowAvailIdx = vq.lastAvailIdx)
    (h : virtioQueueEmptyRcu vdev vq g = (false, vq₀)) : g.availIdx ≠ vq.lastAvailIdx := by
  unfold virtioQueueEmptyRcu at h
  split_ifs at h with hdis havail hne
  · cases h
  · cases h
  · rcases hshadow with hs | hs
    · rw [← hs]; exact hne
    · exact absurd hs hne
  · simpa using (Prod.mk.inj h).1

/-- After the emptiness test, a split pop does not read the shadow
index: two pops that leave the test with queues differing only there
return the same and end alike. -/
theorem virtqueueSplitPop_shadow {vq₁ vq₂ : VirtQueue} {x y : UInt16}
    (h₁ : virtioQueueEmptyRcu vdev vq₁ g = (false, { vq with shadowAvailIdx := x }))
    (h₂ : virtioQueueEmptyRcu vdev vq₂ g = (false, { vq with shadowAvailIdx := y })) :
    (virtqueueSplitPop vdev vq₂ g).2 = (virtqueueSplitPop vdev vq₁ g).2 ∧
      (virtqueueSplitPop vdev vq₂ g).1 = { (virtqueueSplitPop vdev vq₁ g).1 with shadowAvailIdx := y } := by
  have hhead : ∀ i, virtqueueGetHead { vq with shadowAvailIdx := y, lastAvailIdx := vq.lastAvailIdx + 1 } g i =
      virtqueueGetHead { vq with shadowAvailIdx := x, lastAvailIdx := vq.lastAvailIdx + 1 } g i := fun _ => rfl
  have hchain : ∀ head, virtqueueSplitChain { vq with shadowAvailIdx := y, lastAvailIdx := vq.lastAvailIdx + 1 } g head =
      virtqueueSplitChain { vq with shadowAvailIdx := x, lastAvailIdx := vq.lastAvailIdx + 1 } g head := fun _ => rfl
  unfold virtqueueSplitPop
  rw [h₁, h₂]
  dsimp only
  simp only [hhead, hchain, Bool.false_eq_true, ↓reduceIte]
  -- the same tests on the same fields, then the same walk
  split_ifs
  · exact ⟨rfl, rfl⟩
  · split
    · exact ⟨rfl, rfl⟩
    · split
      · exact ⟨rfl, rfl⟩
      · exact ⟨rfl, rfl⟩

end Split

/-! ## Runs of pops -/

/-- `vq` pops the elements `es` one after the other, with no error, and
ends at `vq'`. -/
inductive Pops (vdev : VirtIODevice) (g : Guest) : VirtQueue → List VirtQueueElement → VirtQueue → Prop
  | nil (vq : VirtQueue) : Pops vdev g vq [] vq
  | cons {vq vq₁ vq' : VirtQueue} {e : VirtQueueElement} {es : List VirtQueueElement} :
      virtqueuePop vdev vq g = (vdev, vq₁, some e) → Pops vdev g vq₁ es vq' → Pops vdev g vq (e :: es) vq'

section Runs

variable {vdev vdev' : VirtIODevice} {es : List VirtQueueElement}

/-- `virtqueue_pop` returns an element only from a device that works, and
from the pop of its ring layout, which then raised no error. -/
theorem virtqueuePop_eq_some (h : virtqueuePop vdev vq g = (vdev', vq', some e)) :
    virtioDeviceDisabled vdev = false ∧ vdev' = vdev ∧
      (if vdev.ringPacked then virtqueuePackedPop vq g else virtqueueSplitPop vdev vq g) = (vq', .ok (some e)) := by
  unfold virtqueuePop at h
  by_cases hdis : virtioDeviceDisabled vdev = true
  · rw [if_pos hdis] at h
    cases h
  · rw [if_neg hdis] at h
    rcases hr : (if vdev.ringPacked then virtqueuePackedPop vq g else virtqueueSplitPop vdev vq g) with ⟨vq₁, r⟩
    rw [hr] at h
    cases r with
    | error msg => cases h
    | ok elem =>
      dsimp only at h
      obtain ⟨hdev, h⟩ := Prod.mk.inj h
      obtain ⟨rfl, rfl⟩ := Prod.mk.inj h
      exact ⟨by simpa using hdis, hdev.symm, rfl⟩

/-- A pop that returns an element keeps the ring: its size and
addresses. -/
theorem virtqueuePop_ring (h : virtqueuePop vdev vq g = (vdev', vq', some e)) :
    vq'.num = vq.num ∧ vq'.desc = vq.desc ∧ vq'.avail = vq.avail := by
  obtain ⟨-, -, h⟩ := virtqueuePop_eq_some h
  split at h
  · obtain ⟨c, id, n, -, -, -, rfl⟩ := virtqueuePackedPop_eq_some h
    exact ⟨rfl, rfl, rfl⟩
  · obtain ⟨vq₀, hem, -, -, rfl⟩ := virtqueueSplitPop_eq_some h
    obtain ⟨-, -, hvq₀, -⟩ := virtioQueueEmptyRcu_eq_false hem
    rw [hvq₀]
    exact ⟨rfl, rfl, rfl⟩

theorem pops_ring (hpops : Pops vdev g vq es vq') : vq'.num = vq.num ∧ vq'.desc = vq.desc ∧ vq'.avail = vq.avail := by
  induction hpops with
  | nil vq => exact ⟨rfl, rfl, rfl⟩
  | cons hpop _ ih =>
    obtain ⟨h₁, h₂, h₃⟩ := virtqueuePop_ring hpop
    exact ⟨ih.1.trans h₁, ih.2.1.trans h₂, ih.2.2.trans h₃⟩

/-- Along a run on the packed ring of single-descriptor elements, the
queue stays well formed, moves on one descriptor per element, and
`inuse` counts them, within the ring. -/
theorem pops_packed (hpacked : vdev.ringPacked = true) (hpops : Pops vdev g vq es vq') :
    PackedWF vq → (∀ e ∈ es, e.ndescs = 1) →
      PackedWF vq' ∧ vq'.availLap = Lap.advance vq.num.toNat es.length vq.availLap ∧
        vq'.inuse.toNat = vq.inuse.toNat + es.length ∧ (es = [] ∨ vq.inuse.toNat + es.length ≤ vq.num.toNat) := by
  induction hpops with
  | nil vq =>
    intro hwf _
    exact ⟨hwf, ((Lap.advance_eq_self_iff hwf.idx_lt (Nat.zero_le _)).mpr rfl).symm, rfl, .inl rfl⟩
  | @cons vq vq₁ vq' e es hpop hrest ih =>
    intro hwf hone
    obtain ⟨-, -, hpop⟩ := virtqueuePop_eq_some hpop
    rw [if_pos hpacked] at hpop
    obtain ⟨-, -, hinuse, hlap, hinuse₁, hnum, hwf₁⟩ := virtqueuePackedPop_lap hwf hpop
    have he : e.ndescs = 1 := hone e (List.mem_cons_self ..)
    obtain ⟨hwf', hlap', hinuse', hbound⟩ := ih hwf₁ fun e' he' => hone e' (List.mem_cons_of_mem _ he')
    have hlt := UInt32.lt_iff_toNat_lt.mp hinuse
    -- `inuse` was below `vring.num` before this pop, so adding one does not wrap
    have hinuse₁' : vq₁.inuse.toNat = vq.inuse.toNat + 1 := by
      rw [hinuse₁, he, UInt32.toNat_add, UInt32.toNat_one]
      have := vq.num.toNat_lt
      omega
    rw [hnum] at hbound
    have hlen : 1 + es.length ≤ vq.num.toNat := by
      rcases hbound with rfl | hb
      · simp only [List.length_nil]; omega
      · omega
    refine ⟨hwf', ?_, ?_, .inr ?_⟩
    · rw [hlap', hlap, hnum, he, UInt32.toNat_one, Lap.advance_add hwf.idx_lt hlen, List.length_cons, Nat.add_comm]
    · rw [hinuse', hinuse₁', List.length_cons]; omega
    · rw [List.length_cons]
      rcases hbound with rfl | hb
      · simp only [List.length_nil]; omega
      · omega

/-- **Rewind on the packed ring.** After pops of `k` single-descriptor
elements, `virtqueue_rewind(k)` succeeds and gives back the queue from
before them, all but the shadow index and wrap counter. -/
theorem virtqueueRewind_packed (hpacked : vdev.ringPacked = true) (hwf : PackedWF vq)
    (hpops : Pops vdev g vq es vq') (hone : ∀ e ∈ es, e.ndescs = 1) :
    virtqueueRewind vdev vq' es.length.toUInt32 =
      (true, { vq with shadowAvailIdx := vq'.shadowAvailIdx, shadowAvailWrapCounter := vq'.shadowAvailWrapCounter }) := by
  obtain ⟨hwf', hlap, hinuse, hbound⟩ := pops_packed hpacked hpops hwf hone
  obtain ⟨hnum, hdesc, havail⟩ := pops_ring hpops
  have hmax : virtqueueMaxSize = 1024 := rfl
  have hk : es.length ≤ vq.num.toNat := by
    rcases hbound with rfl | hb
    · exact Nat.zero_le _
    · omega
  have hk32 : es.length.toUInt32.toNat = es.length := by have := hwf.num_le; simp; omega
  have hle : ¬es.length.toUInt32 > vq'.inuse := by
    rw [gt_iff_lt, UInt32.lt_iff_toNat_lt, hk32, hinuse]; omega
  have hsub : vq'.inuse - es.length.toUInt32 = vq.inuse := by
    apply UInt32.toNat_inj.mp
    rw [UInt32.toNat_sub_of_le _ _ (UInt32.not_lt.mp hle), hk32, hinuse]; omega
  -- the position goes back through `Lap`: the rewind undoes the `k` advances
  have hwf'' : PackedWF { vq' with inuse := vq'.inuse - es.length.toUInt32 } := ⟨hwf'.1, hwf'.2, hwf'.3⟩
  have hback : (virtqueuePackedRewind { vq' with inuse := vq'.inuse - es.length.toUInt32 } es.length.toUInt32).availLap =
      vq.availLap := by
    rw [virtqueuePackedRewind_lap hwf'' (by rw [hnum]; exact hk)]
    show Lap.rewind vq'.num.toNat es.length vq'.availLap = vq.availLap
    rw [hnum, hlap, Lap.rewind_advance hwf.idx_lt hk]
  simp only [VirtQueue.availLap, Prod.mk.injEq] at hback
  unfold virtqueueRewind
  dsimp only
  rw [if_neg hle, if_pos hpacked, virtqueuePackedRewind_eq]
  refine Prod.ext rfl ?_
  apply VirtQueue.ext
  · exact hnum
  · exact hdesc
  · exact havail
  · exact UInt16.toNat_inj.mp hback.1
  · exact hback.2
  · rfl
  · rfl
  · exact hsub

/-- ... and the next pop fetches the first of them again and leaves the
queue as the first pop did. -/
theorem virtqueueRewind_packed_refetch (hpacked : vdev.ringPacked = true) (hwf : PackedWF vq)
    (hpops : Pops vdev g vq (e :: es) vq') (hone : ∀ e' ∈ e :: es, e'.ndescs = 1) :
    virtqueuePop vdev (virtqueueRewind vdev vq' (e :: es).length.toUInt32).2 g = virtqueuePop vdev vq g := by
  rw [virtqueueRewind_packed hpacked hwf hpops hone]
  cases hpops with
  | cons hpop _ =>
    obtain ⟨hdis, -, hin⟩ := virtqueuePop_eq_some hpop
    rw [if_pos hpacked] at hin
    obtain ⟨hsame, hstate⟩ :=
      virtqueuePackedPop_shadow (g := g) (e := e) vq vq'.shadowAvailIdx vq'.shadowAvailWrapCounter
    rw [hin] at hsame hstate
    have hshadow : virtqueuePackedPop
        { vq with shadowAvailIdx := vq'.shadowAvailIdx, shadowAvailWrapCounter := vq'.shadowAvailWrapCounter } g =
          virtqueuePackedPop vq g := by
      rw [hin]; exact Prod.ext (hstate rfl) hsame
    simp only [virtqueuePop, hdis, hpacked, Bool.false_eq_true, ↓reduceIte, hshadow]

/-- A guest offering two single-descriptor chains on a ring of four
slots, split or packed: device-readable buffers of 64 bytes at `0x8000`
(head and buffer id 0) and `0x9000` (head and buffer id 1). -/
def twoBufferRings : Guest where
  splitDesc := fun _ i => if i = 0 then ⟨0x8000, 64, 0, 0⟩ else ⟨0x9000, 64, 0, 0⟩
  packedDesc := fun _ i =>
    if i = 0 then ⟨0x8000, 64, 0, 0x80⟩ else if i = 1 then ⟨0x9000, 64, 1, 0x80⟩ else ⟨0, 0, 0, 0⟩
  availIdx := 2
  availRing := fun i => if i = 1 then 1 else 0
  descCacheLen := 64
  cacheInit := fun _ _ => 0
  dmaMap := fun pa sz _ => some (pa, sz)

/-- On the packed ring, both buffers popped and rewound: the next pop
returns the first again. -/
theorem virtqueueRewind_packed_refetch_two :
    PackedWF ⟨4, 0x1000, 0x2000, 0, true, 0, true, 0⟩ ∧
    Pops ⟨false, false, true⟩ twoBufferRings ⟨4, 0x1000, 0x2000, 0, true, 0, true, 0⟩
      [⟨0, 1, [⟨0x8000, 0x8000, 64⟩], []⟩, ⟨1, 1, [⟨0x9000, 0x9000, 64⟩], []⟩] ⟨4, 0x1000, 0x2000, 2, true, 2, true, 2⟩ ∧
    virtqueuePop ⟨false, false, true⟩
        (virtqueueRewind ⟨false, false, true⟩ ⟨4, 0x1000, 0x2000, 2, true, 2, true, 2⟩
          ([⟨0, 1, [⟨0x8000, 0x8000, 64⟩], []⟩, ⟨1, 1, [⟨0x9000, 0x9000, 64⟩], []⟩] :
            List VirtQueueElement).length.toUInt32).2 twoBufferRings =
      virtqueuePop ⟨false, false, true⟩ ⟨4, 0x1000, 0x2000, 0, true, 0, true, 0⟩ twoBufferRings := by
  have hwf : PackedWF ⟨4, 0x1000, 0x2000, 0, true, 0, true, 0⟩ := ⟨by decide, by decide, by decide⟩
  have hpops : Pops ⟨false, false, true⟩ twoBufferRings ⟨4, 0x1000, 0x2000, 0, true, 0, true, 0⟩
      [⟨0, 1, [⟨0x8000, 0x8000, 64⟩], []⟩, ⟨1, 1, [⟨0x9000, 0x9000, 64⟩], []⟩] ⟨4, 0x1000, 0x2000, 2, true, 2, true, 2⟩ := by
    have hpop : virtqueuePop ⟨false, false, true⟩ ⟨4, 0x1000, 0x2000, 0, true, 0, true, 0⟩ twoBufferRings =
        (⟨false, false, true⟩, ⟨4, 0x1000, 0x2000, 1, true, 1, true, 1⟩, some ⟨0, 1, [⟨0x8000, 0x8000, 64⟩], []⟩) := by
      decide
    exact .cons hpop (.cons (by decide) (.nil _))
  exact ⟨hwf, hpops, virtqueueRewind_packed_refetch rfl hwf hpops (by decide)⟩

/-- Along a run on the split ring, `last_avail_idx` and `inuse` move on
one per element, within the ring, and only the shadow index changes
besides. -/
theorem pops_split (hsplit : vdev.ringPacked = false) (hpops : Pops vdev g vq es vq') :
    vq' = { vq with
      lastAvailIdx := vq.lastAvailIdx + es.length.toUInt16, inuse := vq.inuse + es.length.toUInt32,
      shadowAvailIdx := vq'.shadowAvailIdx } ∧
      (es = [] ∨ vq.inuse.toNat + es.length ≤ vq.num.toNat) := by
  induction hpops with
  | nil vq => exact ⟨by apply VirtQueue.ext <;> simp, .inl rfl⟩
  | @cons vq vq₁ vq' e es hpop hrest ih =>
    obtain ⟨-, -, hpop⟩ := virtqueuePop_eq_some hpop
    rw [if_neg (by simp [hsplit])] at hpop
    obtain ⟨vq₀, hem, hinuse, -, rfl⟩ := virtqueueSplitPop_eq_some hpop
    obtain ⟨-, -, hvq₀, -⟩ := virtioQueueEmptyRcu_eq_false hem
    obtain ⟨hvq', hbound⟩ := ih
    rw [hvq₀] at hinuse hbound
    simp only at hinuse hbound
    have hlt := UInt32.lt_iff_toNat_lt.mp hinuse
    -- `inuse` was below `vring.num` before this pop, so adding one does not wrap
    have hinuse₁ : (vq.inuse + 1).toNat = vq.inuse.toNat + 1 := by
      rw [UInt32.toNat_add, UInt32.toNat_one]
      have := vq.num.toNat_lt
      omega
    refine ⟨?_, .inr ?_⟩
    · rw [hvq', hvq₀]
      apply VirtQueue.ext <;> simp only [List.length_cons]
      · apply UInt16.toNat_inj.mp; simp [UInt16.toNat_add]; omega
      · apply UInt32.toNat_inj.mp; simp [UInt32.toNat_add]; omega
    · rw [List.length_cons]
      rcases hbound with rfl | hb
      · simp only [List.length_nil]; omega
      · rw [hinuse₁] at hb; omega

/-- **Rewind on the split ring.** After `k` pops, `virtqueue_rewind(k)`
succeeds and gives back the queue from before them, all but the shadow
index. -/
theorem virtqueueRewind_split (hsplit : vdev.ringPacked = false) (hpops : Pops vdev g vq es vq') :
    virtqueueRewind vdev vq' es.length.toUInt32 = (true, { vq with shadowAvailIdx := vq'.shadowAvailIdx }) := by
  obtain ⟨hvq', hbound⟩ := pops_split hsplit hpops
  have hk : vq.inuse.toNat + es.length < 2 ^ 32 := by
    have := vq.num.toNat_lt
    rcases hbound with rfl | hb
    · simp only [List.length_nil]; have := vq.inuse.toNat_lt; omega
    · omega
  have hk32 : es.length.toUInt32.toNat = es.length := by simp; omega
  have hsum : (vq.inuse + es.length.toUInt32).toNat = vq.inuse.toNat + es.length := by
    rw [UInt32.toNat_add, hk32]; omega
  have hle : ¬es.length.toUInt32 > vq'.inuse := by
    rw [hvq', gt_iff_lt, UInt32.lt_iff_toNat_lt, hk32]
    simp only [hsum]
    omega
  unfold virtqueueRewind
  dsimp only
  rw [if_neg hle, if_neg (by simp [hsplit])]
  refine Prod.ext rfl ?_
  rw [hvq']
  apply VirtQueue.ext <;> simp only [virtqueueSplitRewind]
  · rw [UInt32.toUInt16_ofNat', UInt16.add_sub_cancel]
  · exact UInt32.add_sub_cancel _ _

/-- ... and, when the shadow index was one the guest published or
`last_avail_idx`, the rewind succeeds and the next pop returns the first
of the rewound elements again, leaving the queue as its first pop did,
but for the shadow index. -/
theorem virtqueueRewind_split_refetch (hsplit : vdev.ringPacked = false)
    (hshadow : vq.shadowAvailIdx = g.availIdx ∨ vq.shadowAvailIdx = vq.lastAvailIdx) {vq₁ : VirtQueue}
    (hpop : virtqueuePop vdev vq g = (vdev, vq₁, some e)) (hrest : Pops vdev g vq₁ es vq') :
    (virtqueueRewind vdev vq' (e :: es).length.toUInt32).1 = true ∧
      ∃ s, virtqueuePop vdev (virtqueueRewind vdev vq' (e :: es).length.toUInt32).2 g =
        (vdev, { vq₁ with shadowAvailIdx := s }, some e) := by
  rw [virtqueueRewind_split hsplit (.cons hpop hrest)]
  refine ⟨rfl, ?_⟩
  obtain ⟨hdis, -, hin⟩ := virtqueuePop_eq_some hpop
  rw [if_neg (by simp [hsplit])] at hin
  obtain ⟨vq₀, hem, -, -, -⟩ := virtqueueSplitPop_eq_some hin
  obtain ⟨-, havail, hvq₀, -⟩ := virtioQueueEmptyRcu_eq_false hem
  have hne := availIdx_ne_of_empty_false hshadow hem
  -- the rewound queue is found not empty too, whatever its shadow index
  obtain ⟨y, hem'⟩ := virtioQueueEmptyRcu_of_availIdx_ne hdis
    (show ({ vq with shadowAvailIdx := vq'.shadowAvailIdx } : VirtQueue).avail ≠ 0 from havail) hne
  rw [hvq₀] at hem
  obtain ⟨hsame, hstate⟩ := virtqueueSplitPop_shadow hem hem'
  rw [hin] at hsame hstate
  refine ⟨y, ?_⟩
  simp only [virtqueuePop, hdis, hsplit, Bool.false_eq_true, ↓reduceIte]
  rw [hsame, hstate]

/-- On the split ring, both buffers popped and rewound: the next pop
returns the first again. -/
theorem virtqueueRewind_split_refetch_two :
    virtqueuePop ⟨false, false, false⟩ ⟨4, 0x1000, 0x2000, 0, true, 0, true, 0⟩ twoBufferRings =
      (⟨false, false, false⟩, ⟨4, 0x1000, 0x2000, 1, true, 2, true, 1⟩, some ⟨0, 1, [⟨0x8000, 0x8000, 64⟩], []⟩) ∧
    Pops ⟨false, false, false⟩ twoBufferRings ⟨4, 0x1000, 0x2000, 1, true, 2, true, 1⟩
      [⟨1, 1, [⟨0x9000, 0x9000, 64⟩], []⟩] ⟨4, 0x1000, 0x2000, 2, true, 2, true, 2⟩ ∧
    (virtqueueRewind ⟨false, false, false⟩ ⟨4, 0x1000, 0x2000, 2, true, 2, true, 2⟩
        ([⟨0, 1, [⟨0x8000, 0x8000, 64⟩], []⟩, ⟨1, 1, [⟨0x9000, 0x9000, 64⟩], []⟩] :
          List VirtQueueElement).length.toUInt32).1 = true ∧
    ∃ s, virtqueuePop ⟨false, false, false⟩
        (virtqueueRewind ⟨false, false, false⟩ ⟨4, 0x1000, 0x2000, 2, true, 2, true, 2⟩
          ([⟨0, 1, [⟨0x8000, 0x8000, 64⟩], []⟩, ⟨1, 1, [⟨0x9000, 0x9000, 64⟩], []⟩] :
            List VirtQueueElement).length.toUInt32).2 twoBufferRings =
      (⟨false, false, false⟩, { (⟨4, 0x1000, 0x2000, 1, true, 2, true, 1⟩ : VirtQueue) with shadowAvailIdx := s },
        some ⟨0, 1, [⟨0x8000, 0x8000, 64⟩], []⟩) := by
  have hpop : virtqueuePop ⟨false, false, false⟩ ⟨4, 0x1000, 0x2000, 0, true, 0, true, 0⟩ twoBufferRings =
      (⟨false, false, false⟩, ⟨4, 0x1000, 0x2000, 1, true, 2, true, 1⟩, some ⟨0, 1, [⟨0x8000, 0x8000, 64⟩], []⟩) := by
    decide
  have hrest : Pops ⟨false, false, false⟩ twoBufferRings ⟨4, 0x1000, 0x2000, 1, true, 2, true, 1⟩
      [⟨1, 1, [⟨0x9000, 0x9000, 64⟩], []⟩] ⟨4, 0x1000, 0x2000, 2, true, 2, true, 2⟩ := .cons (by decide) (.nil _)
  exact ⟨hpop, hrest, virtqueueRewind_split_refetch rfl (.inr rfl) hpop hrest⟩

end Runs

/-! ## A chain of two descriptors -/

/-- A packed ring of four slots whose first two hold one chain: a
device-readable buffer chained to a device-writable one with buffer id
`5`, both available on the first lap (`0x80` is the avail bit). -/
def twoDescRing : Guest where
  splitDesc := fun _ _ => ⟨0, 0, 0, 0⟩
  packedDesc := fun _ i =>
    if i = 0 then ⟨0x8000, 64, 0, 0x80 ||| vringDescFNext⟩
    else if i = 1 then ⟨0x9000, 64, 5, 0x80 ||| vringDescFWrite⟩
    else ⟨0, 0, 0, 0⟩
  availIdx := 0
  availRing := fun _ => 0
  descCacheLen := 64
  cacheInit := fun _ _ => 0
  dmaMap := fun pa sz _ => some (pa, sz)

/-- The queue of `twoDescRing` before any pop, on a device that
negotiated the packed ring. -/
def packedQueue : VirtQueue := ⟨4, 0x1000, 0x2000, 0, true, 0, true, 0⟩

def packedDevice : VirtIODevice := ⟨false, false, true⟩

/-- Popping the chain takes two slots and two of `inuse`. Unpopping it
gives back both of `inuse` but steps back one slot, so the next pop
starts in the middle of the chain and returns its tail alone: one
descriptor, no device-readable buffer. And `virtqueue_rewind(2)`, two
elements where one was popped, succeeds. -/
theorem virtqueueUnpop_refetches_chain_tail :
    virtqueuePop packedDevice packedQueue twoDescRing =
        (packedDevice, { packedQueue with lastAvailIdx := 2, inuse := 2, shadowAvailIdx := 2 },
          some ⟨5, 2, [⟨0x8000, 0x8000, 64⟩], [⟨0x9000, 0x9000, 64⟩]⟩) ∧
      virtqueueUnpop packedDevice { packedQueue with lastAvailIdx := 2, inuse := 2, shadowAvailIdx := 2 }
          ⟨5, 2, [⟨0x8000, 0x8000, 64⟩], [⟨0x9000, 0x9000, 64⟩]⟩ =
        { packedQueue with lastAvailIdx := 1, shadowAvailIdx := 2 } ∧
      virtqueuePop packedDevice { packedQueue with lastAvailIdx := 1, shadowAvailIdx := 2 } twoDescRing =
        (packedDevice, { packedQueue with lastAvailIdx := 2, inuse := 1, shadowAvailIdx := 2 },
          some ⟨5, 1, [], [⟨0x9000, 0x9000, 64⟩]⟩) ∧
      (virtqueueRewind packedDevice { packedQueue with lastAvailIdx := 2, inuse := 2, shadowAvailIdx := 2 } 2).1 =
        true := by
  refine ⟨by decide, by decide, by decide, by decide⟩

end QemuFormal.Virtio

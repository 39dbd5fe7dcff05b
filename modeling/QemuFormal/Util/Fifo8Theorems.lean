/-
QemuFormal.Util.Fifo8Theorems — `Fifo8` is a bounded byte queue.

`Fifo8.contents` is the queue a FIFO holds: `data` at the slots
`(head + i) % capacity` for `i < num` (`fifo8Slots`). Fewer than
`capacity` consecutive slots are distinct (`fifo8Slots_nodup`), so the
bytes `fifo8_push_all` writes past the last queued one leave the queued
ones alone, and the bytes a pointer into the buffer exposes are the
queue's as long as they do not pass its end.

  §1 Slots      — `fifo8Slots`: splitting, shifting the head, the two
                  contiguous runs of a wrapping range.
  §2 Invariant  — `Fifo8.WF`: a buffer of at most `2^31` bytes, so that no
                  sum of two fields wraps, `head < capacity`, `num ≤ capacity`.
  §3 Calls      — one lemma per call: what it hands back and the queue
                  after it.
  §4 The queue  — `QueueStep` and `Fifo8Op.Allowed`; every allowed call is a
                  queue step (`fifo8Step_refines`), every allowed sequence of
                  calls a run of the bounded queue (`fifo8Run_refines`).
  §5 Past the queue — `fifo8_pop_buf`, `fifo8_peek_buf` and `fifo8_drop`
                  with more bytes than are queued fail an `assert`.
-/
import QemuFormal.Util.Fifo8
import QemuFormal.Util.IovTheorems
import Mathlib.Data.Nat.ModEq

namespace QemuFormal

/-! ## §1 Slots -/

/-- The slots of `num` bytes from `head` on, wrapping at `capacity`. -/
def fifo8Slots (head capacity num : Nat) : List Nat := (List.range num).map fun i => (head + i) % capacity

/-- The bytes the FIFO holds, front first. -/
def Fifo8.contents (fifo : Fifo8) : List UInt8 := (fifo8Slots fifo.head fifo.capacity fifo.num).map fifo.data

@[simp]
theorem length_fifo8Slots (head capacity num : Nat) : (fifo8Slots head capacity num).length = num := by
  simp [fifo8Slots]

@[simp]
theorem Fifo8.length_contents (fifo : Fifo8) : fifo.contents.length = fifo.num := by
  simp [Fifo8.contents]

theorem eq_of_add_mod_eq {head capacity i j : Nat} (hi : i < capacity) (hj : j < capacity)
    (h : (head + i) % capacity = (head + j) % capacity) : i = j := by
  have h' : i % capacity = j % capacity := Nat.ModEq.add_left_cancel' head h
  rwa [Nat.mod_eq_of_lt hi, Nat.mod_eq_of_lt hj] at h'

/-- At most `capacity` consecutive slots are distinct. -/
theorem fifo8Slots_nodup {head capacity num : Nat} (h : num ≤ capacity) : (fifo8Slots head capacity num).Nodup := by
  refine List.Nodup.map_on ?_ List.nodup_range
  intro i hi j hj hij
  rw [List.mem_range] at hi hj
  exact eq_of_add_mod_eq (by omega) (by omega) hij

theorem fifo8Slots_add (head capacity num k : Nat) :
    fifo8Slots head capacity (num + k) = fifo8Slots head capacity num ++ fifo8Slots (head + num) capacity k := by
  simp only [fifo8Slots, List.range_add, List.map_append, List.map_map]
  congr 1
  apply List.map_congr_left
  intro i _
  simp only [Function.comp_apply, Nat.add_assoc]

/-- Slots read from a head taken modulo `capacity` are the same slots. -/
theorem fifo8Slots_mod_head (head capacity num : Nat) :
    fifo8Slots (head % capacity) capacity num = fifo8Slots head capacity num := by
  apply List.map_congr_left
  intro i _
  rw [Nat.add_mod, Nat.mod_mod, ← Nat.add_mod]

/-- Slots that do not reach `capacity` are a contiguous run. -/
theorem fifo8Slots_of_le {head capacity num : Nat} (h : head + num ≤ capacity) :
    fifo8Slots head capacity num = List.range' head num := by
  apply List.ext_getElem (by simp)
  intro i h1 h2
  simp only [fifo8Slots, List.getElem_map, List.getElem_range, List.getElem_range']
  rw [Nat.mod_eq_of_lt (by simp at h1; omega), Nat.one_mul]

/-- Slots that pass `capacity` are two runs: to the end of the buffer, and
from its start. -/
theorem fifo8Slots_wrap {head capacity num : Nat} (hh : head < capacity) (h : capacity < head + num)
    (hnum : num ≤ capacity) :
    fifo8Slots head capacity num = List.range' head (capacity - head) ++ List.range' 0 (head + num - capacity) := by
  obtain ⟨k, rfl⟩ : ∃ k, num = (capacity - head) + k := ⟨num - (capacity - head), by omega⟩
  rw [fifo8Slots_add, fifo8Slots_of_le (by omega), show head + (capacity - head) = capacity by omega,
    ← fifo8Slots_mod_head, Nat.mod_self, fifo8Slots_of_le (by omega), show head + (capacity - head + k) - capacity = k by omega]

/-- The first slot, and the rest from the next head. -/
theorem fifo8Slots_succ (head capacity num : Nat) :
    fifo8Slots head capacity (num + 1) = head % capacity :: fifo8Slots (head + 1) capacity num := by
  simp only [fifo8Slots, List.range_succ_eq_map, List.map_cons, List.map_map, Nat.add_zero]
  congr 1
  apply List.map_congr_left
  intro i _
  simp only [Function.comp_apply, Nat.succ_eq_add_one, Nat.add_assoc, Nat.add_comm 1 i]

/-- Skipping `skip` slots is starting `skip` further on. -/
theorem drop_fifo8Slots (head capacity num skip : Nat) (h : skip ≤ num) :
    (fifo8Slots head capacity num).drop skip = fifo8Slots (head + skip) capacity (num - skip) := by
  obtain ⟨k, rfl⟩ : ∃ k, num = skip + k := ⟨num - skip, by omega⟩
  rw [fifo8Slots_add, List.drop_left' (by simp), Nat.add_sub_cancel_left]

theorem take_fifo8Slots (head capacity num n : Nat) (h : n ≤ num) :
    (fifo8Slots head capacity num).take n = fifo8Slots head capacity n := by
  obtain ⟨k, rfl⟩ : ∃ k, num = n + k := ⟨num - n, by omega⟩
  rw [fifo8Slots_add, List.take_left' (by simp)]

/-- Writing `bytes` at the slots past the queue appends them to it. -/
theorem contents_write_after (fifo : Fifo8) (bytes : List UInt8) (hle : fifo.num + bytes.length ≤ fifo.capacity) :
    ({ fifo with
        data := Scatter.writeList fifo.data (fifo8Slots (fifo.head + fifo.num) fifo.capacity bytes.length) bytes
        num := fifo.num + bytes.length } : Fifo8).contents = fifo.contents ++ bytes := by
  have hnd : (fifo8Slots fifo.head fifo.capacity (fifo.num + bytes.length)).Nodup := fifo8Slots_nodup hle
  rw [fifo8Slots_add, List.nodup_append] at hnd
  obtain ⟨-, hnd2, hdisj⟩ := hnd
  simp only [Fifo8.contents]
  rw [fifo8Slots_add, List.map_append,
    Scatter.map_writeList_of_disjoint _ _ (fun x hx hx' => hdisj x hx x hx' rfl),
    Scatter.map_writeList_of_nodup _ hnd2 (by simp)]

/-! ## §2 Invariant -/

/-- A FIFO the calls keep: a non-empty buffer of at most `2^31` bytes, so
that `head + num` and the like fit a `uint32_t`, the head in it, and at
most a buffer's worth queued. -/
structure Fifo8.WF (fifo : Fifo8) : Prop where
  capacity_pos : 0 < fifo.capacity
  capacity_le : fifo.capacity ≤ 2 ^ 31
  head_lt : fifo.head < fifo.capacity
  num_le : fifo.num ≤ fifo.capacity

theorem u32_of_lt {x : Nat} (h : x < 2 ^ 32) : u32 x = x := Nat.mod_eq_of_lt h

theorem fifo8Create_wf (block : Mem) {capacity : Nat} (h0 : 0 < capacity) (h : capacity ≤ 2 ^ 31) :
    (fifo8Create block capacity).WF :=
  ⟨h0, h, h0, Nat.zero_le _⟩

theorem Fifo8.WF.reset {fifo : Fifo8} (hwf : fifo.WF) : (fifo8Reset fifo).WF :=
  ⟨hwf.capacity_pos, hwf.capacity_le, hwf.capacity_pos, Nat.zero_le _⟩

/-! ## §3 Calls -/

/-- How many bytes `fifo8_peekpop_bufptr` exposes from `skip` past the
head: up to the end of the buffer, at most `max`. -/
def fifo8ChunkLen (fifo : Fifo8) (max skip : Nat) : Nat :=
  min (fifo.capacity - (fifo.head + skip) % fifo.capacity) max

/-- The FIFO after popping `n` bytes from the front. -/
def Fifo8.dropFront (fifo : Fifo8) (n : Nat) : Fifo8 :=
  { fifo with head := (fifo.head + n) % fifo.capacity, num := fifo.num - n }

theorem dropFront_dropFront (fifo : Fifo8) (m n : Nat) : (fifo.dropFront m).dropFront n = fifo.dropFront (m + n) := by
  simp only [Fifo8.dropFront, Nat.mod_add_mod, Nat.add_assoc, Nat.sub_sub]

theorem contents_dropFront {fifo : Fifo8} {n : Nat} (h : n ≤ fifo.num) :
    (fifo.dropFront n).contents = fifo.contents.drop n := by
  simp only [Fifo8.contents, Fifo8.dropFront]
  rw [fifo8Slots_mod_head, ← List.map_drop, drop_fifo8Slots _ _ _ _ h]

section Calls

variable {fifo : Fifo8} (hwf : fifo.WF)
include hwf

theorem fifo8Push_spec (data : UInt8) (h : fifo.num < fifo.capacity) :
    ∃ fifo', fifo8Push fifo data = some fifo' ∧ fifo'.WF ∧ fifo'.capacity = fifo.capacity ∧
      fifo'.contents = fifo.contents ++ [data] := by
  have hcap := hwf.capacity_le
  have hhead := hwf.head_lt
  refine ⟨_, if_pos h, ⟨hwf.capacity_pos, hcap, hhead, by simp only [u32]; omega⟩, rfl, ?_⟩
  have hw := contents_write_after fifo [data] (by simp; omega)
  rw [u32_of_lt (by omega), u32_of_lt (by omega)]
  exact hw

/-- The buffer `fifo8_push_all` leaves: the bytes at the slots past the
queue, in one `memcpy` or, across the end of the buffer, in two. -/
theorem fifo8PushAll_buf (data : List UInt8) (h : fifo.num + data.length ≤ fifo.capacity) :
    (if u32 ((fifo.head + fifo.num) % fifo.capacity + data.length) ≤ fifo.capacity then
        memWrite fifo.data ((fifo.head + fifo.num) % fifo.capacity) data
      else
        memWrite (memWrite fifo.data ((fifo.head + fifo.num) % fifo.capacity)
          (data.take (u32 (fifo.capacity - (fifo.head + fifo.num) % fifo.capacity)))) 0
          (data.drop (u32 (fifo.capacity - (fifo.head + fifo.num) % fifo.capacity))))
      = Scatter.writeList fifo.data (fifo8Slots (fifo.head + fifo.num) fifo.capacity data.length) data := by
  have hcap := hwf.capacity_le
  have hstart : (fifo.head + fifo.num) % fifo.capacity < fifo.capacity := Nat.mod_lt _ hwf.capacity_pos
  rw [← fifo8Slots_mod_head, u32_of_lt (by omega), u32_of_lt (by omega)]
  generalize (fifo.head + fifo.num) % fifo.capacity = start at *
  split
  · -- one run
    rw [fifo8Slots_of_le (by omega)]
    rfl
  · -- to the end of the buffer, then from its start
    rw [fifo8Slots_wrap hstart (by omega) (by omega), Scatter.writeList_append_left, List.length_range',
      ← Scatter.writeList_take_right _ (List.range' start _)]
    simp only [List.length_range', memWrite, List.length_take, List.length_drop]
    rw [Nat.min_eq_left (by omega), show data.length - (fifo.capacity - start) = start + data.length - fifo.capacity by omega]

theorem fifo8PushAll_spec (data : List UInt8) (h : fifo.num + data.length ≤ fifo.capacity) :
    ∃ fifo', fifo8PushAll fifo data = some fifo' ∧ fifo'.WF ∧ fifo'.capacity = fifo.capacity ∧
      fifo'.contents = fifo.contents ++ data := by
  have hcap := hwf.capacity_le
  have hhead := hwf.head_lt
  have hsum : u32 (fifo.num + data.length) = fifo.num + data.length := u32_of_lt (by omega)
  refine ⟨_, if_pos (by rw [hsum]; exact h), ⟨hwf.capacity_pos, hcap, hhead, by rw [hsum]; exact h⟩, rfl, ?_⟩
  rw [hsum, u32_of_lt (show fifo.head + fifo.num < 2 ^ 32 by omega), fifo8PushAll_buf hwf data h]
  exact contents_write_after fifo data h

theorem fifo8Pop_spec (h : 0 < fifo.num) :
    ∃ b fifo', fifo8Pop fifo = some (b, fifo') ∧ fifo'.WF ∧ fifo'.capacity = fifo.capacity ∧
      fifo.contents = b :: fifo'.contents := by
  have hcap := hwf.capacity_le
  have hhead := hwf.head_lt
  have hnum := hwf.num_le
  refine ⟨_, _, if_pos h, ⟨hwf.capacity_pos, hcap, Nat.mod_lt _ hwf.capacity_pos, by simp only [u32]; omega⟩, rfl, ?_⟩
  obtain ⟨k, hk⟩ : ∃ k, fifo.num = k + 1 := ⟨fifo.num - 1, by omega⟩
  simp only [Fifo8.contents]
  rw [hk, fifo8Slots_succ, u32_of_lt (by omega), u32_of_lt (by omega), fifo8Slots_mod_head, Nat.mod_eq_of_lt hhead,
    Nat.add_sub_cancel, List.map_cons]

theorem fifo8Peek_eq : fifo8Peek fifo = fifo.contents.head? := by
  unfold fifo8Peek
  obtain ⟨k, hk⟩ | h0 : (∃ k, fifo.num = k + 1) ∨ fifo.num = 0 := by
    rcases fifo.num with _ | k
    · exact .inr rfl
    · exact .inl ⟨k, rfl⟩
  · rw [if_pos (by omega), Fifo8.contents, hk, fifo8Slots_succ, Nat.mod_eq_of_lt hwf.head_lt]
    rfl
  · rw [if_neg (by omega), Fifo8.contents, h0]
    rfl

theorem fifo8ChunkLen_pos {max skip : Nat} (hmax : 0 < max) : 0 < fifo8ChunkLen fifo max skip := by
  have := Nat.mod_lt (fifo.head + skip) hwf.capacity_pos
  unfold fifo8ChunkLen
  omega

/-- A chunk shorter than asked for ends at the end of the buffer. -/
theorem fifo8ChunkLen_of_lt {max skip : Nat} (h : fifo8ChunkLen fifo max skip < max) :
    (fifo.head + skip + fifo8ChunkLen fifo max skip) % fifo.capacity = 0 := by
  have hlt := Nat.mod_lt (fifo.head + skip) hwf.capacity_pos
  have heq : fifo8ChunkLen fifo max skip = fifo.capacity - (fifo.head + skip) % fifo.capacity := by
    unfold fifo8ChunkLen at h ⊢
    omega
  have hdecomp : fifo.head + skip + (fifo.capacity - (fifo.head + skip) % fifo.capacity)
      = fifo.capacity * ((fifo.head + skip) / fifo.capacity + 1) := by
    have := Nat.div_add_mod (fifo.head + skip) fifo.capacity
    rw [Nat.mul_add, Nat.mul_one]
    omega
  rw [heq, hdecomp, Nat.mul_mod_right]

theorem Fifo8.WF.dropFront {n : Nat} (h : n ≤ fifo.num) : (fifo.dropFront n).WF :=
  ⟨hwf.capacity_pos, hwf.capacity_le, Nat.mod_lt _ hwf.capacity_pos, by unfold Fifo8.dropFront; have := hwf.num_le; simp only; omega⟩

/-- The bytes of the chunk are the queue's from `skip` on. -/
theorem memRead_chunk {max skip : Nat} (hsk : skip + max ≤ fifo.num) :
    memRead fifo.data ((fifo.head + skip) % fifo.capacity) (fifo8ChunkLen fifo max skip)
      = (fifo.contents.drop skip).take (fifo8ChunkLen fifo max skip) := by
  have hlt := Nat.mod_lt (fifo.head + skip) hwf.capacity_pos
  have hlen : fifo8ChunkLen fifo max skip ≤ max := Nat.min_le_right _ _
  rw [Fifo8.contents, ← List.map_drop, ← List.map_take, drop_fifo8Slots _ _ _ _ (by omega),
    take_fifo8Slots _ _ _ _ (by omega), ← fifo8Slots_mod_head, fifo8Slots_of_le (by unfold fifo8ChunkLen; omega)]
  rfl

/-- `fifo8_peek_bufptr` and the peek of `fifo8_peekpop_buf`: the chunk from
`skip` on, the FIFO unchanged. -/
theorem fifo8PeekpopBufptr_peek {max skip : Nat} (hmax : 0 < max) (hsk : skip + max ≤ fifo.num) :
    fifo8PeekpopBufptr fifo max skip false =
      some ((fifo.contents.drop skip).take (fifo8ChunkLen fifo max skip), fifo) := by
  have hcap := hwf.capacity_le
  have hnum := hwf.num_le
  have hhead := hwf.head_lt
  have hlt := Nat.mod_lt (fifo.head + skip) hwf.capacity_pos
  unfold fifo8PeekpopBufptr
  rw [if_pos ⟨hmax, by omega⟩, if_pos (by omega)]
  dsimp only
  rw [u32_of_lt (show fifo.head + skip < 2 ^ 32 by omega),
    u32_of_lt (show fifo.capacity - (fifo.head + skip) % fifo.capacity < 2 ^ 32 by omega), if_neg Bool.false_ne_true]
  exact congrArg (fun b => some (b, fifo)) (memRead_chunk hwf hsk)

/-- `fifo8_pop_bufptr`: the front chunk, popped. -/
theorem fifo8PeekpopBufptr_pop {max : Nat} (hmax : 0 < max) (hle : max ≤ fifo.num) :
    fifo8PeekpopBufptr fifo max 0 true =
      some (fifo.contents.take (fifo8ChunkLen fifo max 0), fifo.dropFront (fifo8ChunkLen fifo max 0)) := by
  have hcap := hwf.capacity_le
  have hnum := hwf.num_le
  have hhead := hwf.head_lt
  have hlen : fifo8ChunkLen fifo max 0 ≤ max := Nat.min_le_right _ _
  have hbytes := memRead_chunk hwf (show 0 + max ≤ fifo.num by omega)
  rw [Nat.add_zero, List.drop_zero] at hbytes
  unfold fifo8PeekpopBufptr
  rw [if_pos ⟨hmax, hle⟩, if_pos (Nat.zero_le _)]
  dsimp only
  rw [Nat.add_zero, u32_of_lt (show fifo.head < 2 ^ 32 by omega), if_pos rfl, Nat.mod_eq_of_lt hhead,
    u32_of_lt (show fifo.capacity - fifo.head < 2 ^ 32 by omega)]
  have hn : min (fifo.capacity - fifo.head) max = fifo8ChunkLen fifo max 0 := by
    rw [fifo8ChunkLen, Nat.add_zero, Nat.mod_eq_of_lt hhead]
  rw [hn, u32_of_lt (by unfold fifo8ChunkLen at hlen ⊢; omega), u32_of_lt (by omega), ← hbytes, Nat.mod_eq_of_lt hhead]
  rfl

theorem dropFront_zero : fifo.dropFront 0 = fifo := by
  simp only [Fifo8.dropFront, Nat.add_zero, Nat.mod_eq_of_lt hwf.head_lt, Nat.sub_zero]

/-- `fifo8_pop_buf` with at most the queued bytes: the first `destlen` of
them, popped; across the end of the buffer in two chunks. -/
theorem fifo8PopBuf_eq {destlen : Nat} (h : destlen ≤ fifo.num) :
    fifo8PopBuf fifo destlen = some (fifo.contents.take destlen, fifo.dropFront destlen) := by
  unfold fifo8PopBuf fifo8PeekpopBuf
  by_cases h0 : destlen = 0
  · rw [if_pos h0, h0, List.take_zero, dropFront_zero hwf]
  have hnum := hwf.num_le
  have hcap := hwf.capacity_le
  have hpos : 0 < fifo8ChunkLen fifo destlen 0 := fifo8ChunkLen_pos hwf (by omega)
  have hle : fifo8ChunkLen fifo destlen 0 ≤ destlen := Nat.min_le_right _ _
  have hend : fifo8ChunkLen fifo destlen 0 < destlen →
      (fifo.head + 0 + fifo8ChunkLen fifo destlen 0) % fifo.capacity = 0 := fifo8ChunkLen_of_lt hwf
  rw [if_neg h0, fifo8PeekpopBufptr_pop hwf (by omega) h]
  dsimp only [bind, Option.bind]
  generalize fifo8ChunkLen fifo destlen 0 = n1 at *
  have hlen1 : (fifo.contents.take n1).length = n1 := by
    rw [List.length_take, Fifo8.length_contents]
    omega
  have hlen : min (u32 (destlen - n1)) (fifo.dropFront n1).num = destlen - n1 := by
    rw [u32_of_lt (by omega)]
    simp only [Fifo8.dropFront]
    omega
  rw [hlen1, hlen]
  by_cases hfull : destlen - n1 = 0
  · -- one chunk was enough
    rw [if_neg (not_not.mpr hfull), show n1 = destlen by omega]
    rfl
  · -- the rest from the start of the buffer
    rw [if_pos hfull, if_pos rfl]
    have hwf1 := hwf.dropFront (n := n1) (by omega)
    have hhead1 : (fifo.dropFront n1).head = 0 := by
      simp only [Fifo8.dropFront]
      exact hend (by omega)
    have hchunk : fifo8ChunkLen (fifo.dropFront n1) (destlen - n1) 0 = destlen - n1 := by
      unfold fifo8ChunkLen
      rw [hhead1, Nat.zero_add, Nat.zero_mod, Nat.sub_zero]
      simp only [Fifo8.dropFront]
      omega
    rw [fifo8PeekpopBufptr_pop hwf1 (by omega) (by simp only [Fifo8.dropFront]; omega)]
    dsimp only
    rw [hchunk, contents_dropFront (by omega), dropFront_dropFront, ← List.take_add, Nat.add_sub_cancel' (by omega)]
    rfl

/-- `fifo8_peek_buf` with at most the queued bytes: the first `destlen` of
them, the FIFO unchanged. -/
theorem fifo8PeekBuf_eq {destlen : Nat} (h : destlen ≤ fifo.num) :
    fifo8PeekBuf fifo destlen = some (fifo.contents.take destlen, fifo) := by
  unfold fifo8PeekBuf fifo8PeekpopBuf
  by_cases h0 : destlen = 0
  · rw [if_pos h0, h0, List.take_zero]
  have hnum := hwf.num_le
  have hcap := hwf.capacity_le
  have hpos : 0 < fifo8ChunkLen fifo destlen 0 := fifo8ChunkLen_pos hwf (by omega)
  have hle : fifo8ChunkLen fifo destlen 0 ≤ destlen := Nat.min_le_right _ _
  have hend : fifo8ChunkLen fifo destlen 0 < destlen →
      (fifo.head + 0 + fifo8ChunkLen fifo destlen 0) % fifo.capacity = 0 := fifo8ChunkLen_of_lt hwf
  rw [if_neg h0, fifo8PeekpopBufptr_peek hwf (by omega) (by omega), List.drop_zero]
  dsimp only [bind, Option.bind]
  generalize fifo8ChunkLen fifo destlen 0 = n1 at *
  have hlen1 : (fifo.contents.take n1).length = n1 := by
    rw [List.length_take, Fifo8.length_contents]
    omega
  have hlen : min (u32 (destlen - n1)) fifo.num = destlen - n1 := by
    rw [u32_of_lt (by omega)]
    omega
  rw [hlen1, hlen]
  by_cases hfull : destlen - n1 = 0
  · -- one chunk was enough
    rw [if_neg (not_not.mpr hfull), show n1 = destlen by omega]
    rfl
  · -- the rest from the start of the buffer, `n1` bytes on
    rw [if_pos hfull, if_neg Bool.false_ne_true, fifo8PeekpopBufptr_peek hwf (by omega) (by omega)]
    have hchunk : fifo8ChunkLen fifo (destlen - n1) n1 = destlen - n1 := by
      unfold fifo8ChunkLen
      rw [show fifo.head + n1 = fifo.head + 0 + n1 by omega, hend (by omega), Nat.sub_zero]
      omega
    dsimp only
    rw [hchunk, ← List.take_add, Nat.add_sub_cancel' (by omega)]
    rfl

theorem fifo8Drop_eq {len : Nat} (h : len ≤ fifo.num) : fifo8Drop fifo len = some (fifo.dropFront len) := by
  unfold fifo8Drop
  rw [fifo8PopBuf_eq hwf h]
  dsimp only [bind, Option.bind]
  rw [List.length_take, Fifo8.length_contents, Nat.min_eq_left h, Nat.sub_self]
  rfl

end Calls

/-! ## §4 The queue -/

/-- What each call may do to a queue `q`: the bytes it hands back and the
queue after it. The pointer calls hand back a front run of between 1 and
`max` bytes, as many as lie together in the buffer. -/
def QueueStep (q : List UInt8) : Fifo8Op → List UInt8 → List UInt8 → Prop
  | .push data, out, q' => out = [] ∧ q' = q ++ [data]
  | .pushAll data, out, q' => out = [] ∧ q' = q ++ data
  | .pop, out, q' => out = q.take 1 ∧ q' = q.drop 1
  | .peek, out, q' => out = q.take 1 ∧ q' = q
  | .peekBufptr max, out, q' => ∃ n, 0 < n ∧ n ≤ max ∧ out = q.take n ∧ q' = q
  | .popBufptr max, out, q' => ∃ n, 0 < n ∧ n ≤ max ∧ out = q.take n ∧ q' = q.drop n
  | .popBuf destlen, out, q' => out = q.take destlen ∧ q' = q.drop destlen
  | .peekBuf destlen, out, q' => out = q.take destlen ∧ q' = q
  | .drop len, out, q' => out = [] ∧ q' = q.drop len
  | .reset, out, q' => out = [] ∧ q' = []

/-- The preconditions of the calls on a queue `q` of `capacity` bytes at
most: those the header documents, and for `fifo8_pop_buf`,
`fifo8_peek_buf` and `fifo8_drop`, which document none, the one their
`assert`s need (§5). -/
def Fifo8Op.Allowed (capacity : Nat) (q : List UInt8) : Fifo8Op → Prop
  | .push _ => q.length < capacity
  | .pushAll data => q.length + data.length ≤ capacity
  | .pop => q ≠ []
  | .peek => q ≠ []
  | .peekBufptr max => 0 < max ∧ max ≤ q.length
  | .popBufptr max => 0 < max ∧ max ≤ q.length
  | .popBuf destlen => destlen ≤ q.length
  | .peekBuf destlen => destlen ≤ q.length
  | .drop len => len ≤ q.length
  | .reset => True

/-- Every allowed call keeps the invariant and is a step of the queue. -/
theorem fifo8Step_refines {fifo : Fifo8} (hwf : fifo.WF) {op : Fifo8Op} (hop : op.Allowed fifo.capacity fifo.contents) :
    ∃ out fifo', fifo8Step fifo op = some (out, fifo') ∧ fifo'.WF ∧ fifo'.capacity = fifo.capacity ∧
      QueueStep fifo.contents op out fifo'.contents := by
  have hlen := fifo.length_contents
  cases op with
  | push data =>
    have hroom : fifo.num < fifo.capacity := by simp only [Fifo8Op.Allowed] at hop; omega
    obtain ⟨fifo', hpush, hwf', hcap, hq⟩ := fifo8Push_spec hwf data hroom
    exact ⟨[], fifo', by simp only [fifo8Step, hpush, Option.map_some], hwf', hcap, rfl, hq⟩
  | pushAll data =>
    obtain ⟨fifo', hpush, hwf', hcap, hq⟩ := fifo8PushAll_spec hwf data (by simp only [Fifo8Op.Allowed] at hop; omega)
    exact ⟨[], fifo', by simp only [fifo8Step, hpush, Option.map_some], hwf', hcap, rfl, hq⟩
  | pop =>
    have hne : 0 < fifo.num := by
      simp only [Fifo8Op.Allowed, ne_eq, ← List.length_eq_zero_iff] at hop
      omega
    obtain ⟨b, fifo', hpop, hwf', hcap, hq⟩ := fifo8Pop_spec hwf hne
    exact ⟨[b], fifo', by simp only [fifo8Step, hpop, Option.map_some], hwf', hcap, by simp [QueueStep, hq]⟩
  | peek =>
    obtain ⟨b, rest, hq⟩ := List.exists_cons_of_ne_nil hop
    exact ⟨[b], fifo, by simp only [fifo8Step, fifo8Peek_eq hwf, hq, List.head?_cons, Option.map_some], hwf, rfl,
      by simp [QueueStep, hq]⟩
  | peekBufptr max =>
    obtain ⟨hmax, hle⟩ := hop
    refine ⟨_, fifo, fifo8PeekpopBufptr_peek hwf hmax (show 0 + max ≤ fifo.num by omega), hwf, rfl, ?_⟩
    exact ⟨_, fifo8ChunkLen_pos hwf hmax, Nat.min_le_right _ _, by rw [List.drop_zero], rfl⟩
  | popBufptr max =>
    obtain ⟨hmax, hle⟩ := hop
    have hchunk : fifo8ChunkLen fifo max 0 ≤ max := Nat.min_le_right _ _
    refine ⟨_, _, fifo8PeekpopBufptr_pop hwf hmax (by omega), hwf.dropFront (by omega), rfl, ?_⟩
    exact ⟨_, fifo8ChunkLen_pos hwf hmax, hchunk, rfl, contents_dropFront (by omega)⟩
  | popBuf destlen =>
    have hle : destlen ≤ fifo.num := by simp only [Fifo8Op.Allowed] at hop; omega
    exact ⟨_, _, fifo8PopBuf_eq hwf hle, hwf.dropFront hle, rfl, rfl, contents_dropFront hle⟩
  | peekBuf destlen =>
    have hle : destlen ≤ fifo.num := by simp only [Fifo8Op.Allowed] at hop; omega
    exact ⟨_, _, fifo8PeekBuf_eq hwf hle, hwf, rfl, rfl, rfl⟩
  | drop len =>
    have hle : len ≤ fifo.num := by simp only [Fifo8Op.Allowed] at hop; omega
    exact ⟨[], _, by simp only [fifo8Step, fifo8Drop_eq hwf hle, Option.map_some], hwf.dropFront hle, rfl, rfl,
      contents_dropFront hle⟩
  | reset => exact ⟨[], _, rfl, hwf.reset, rfl, rfl, rfl⟩

/-- A run of the queue: each call a `QueueStep` from the queue the calls
before it left. -/
inductive QueueRun : List UInt8 → List Fifo8Op → List (List UInt8) → List UInt8 → Prop
  | nil (q : List UInt8) : QueueRun q [] [] q
  | cons {q q1 q2 : List UInt8} {op : Fifo8Op} {ops : List Fifo8Op} {out : List UInt8} {outs : List (List UInt8)} :
      QueueStep q op out q1 → QueueRun q1 ops outs q2 → QueueRun q (op :: ops) (out :: outs) q2

/-- Every call of `ops` is allowed, whichever bytes the pointer calls before
it handed back. -/
def QueueAllowed (capacity : Nat) : List UInt8 → List Fifo8Op → Prop
  | _, [] => True
  | q, op :: ops => op.Allowed capacity q ∧ ∀ out q', QueueStep q op out q' → QueueAllowed capacity q' ops

/-- From a well-formed FIFO, a sequence of allowed calls runs to the end,
keeps the invariant, and hands back what the queue does. -/
theorem fifo8Run_refines {fifo : Fifo8} (hwf : fifo.WF) {ops : List Fifo8Op}
    (hops : QueueAllowed fifo.capacity fifo.contents ops) :
    ∃ outs fifo', fifo8Run fifo ops = some (outs, fifo') ∧ fifo'.WF ∧ fifo'.capacity = fifo.capacity ∧
      QueueRun fifo.contents ops outs fifo'.contents := by
  -- induction on the calls, from any well-formed FIFO; `fifo8Step_refines` is the step
  induction ops generalizing fifo with
  | nil => exact ⟨[], fifo, rfl, hwf, rfl, QueueRun.nil _⟩
  | cons op ops ih =>
    obtain ⟨hop, hrest⟩ := hops
    obtain ⟨out, fifo1, hstep, hwf1, hcap1, hq1⟩ := fifo8Step_refines hwf hop
    have hrest1 : QueueAllowed fifo1.capacity fifo1.contents ops := hcap1 ▸ hrest out _ hq1
    obtain ⟨outs, fifo2, hrun, hwf2, hcap2, hq2⟩ := ih hwf1 hrest1
    refine ⟨out :: outs, fifo2, ?_, hwf2, hcap2.trans hcap1, QueueRun.cons hq1 hq2⟩
    simp only [fifo8Run, hstep, hrun, bind, Option.bind, pure]

/-- A FIFO of 4 bytes: three pushed at once, one popped, two pushed (the
second wrapping to the start of the buffer), then all four popped into a
buffer. -/
theorem fifo8Run_refines_wrap :
    (fifo8Create (fun _ => 0) 4).WF ∧
    QueueAllowed (fifo8Create (fun _ => 0) 4).capacity (fifo8Create (fun _ => 0) 4).contents
      [.pushAll [1, 2, 3], .pop, .push 4, .push 5, .popBuf 4] ∧
    ∃ outs fifo', fifo8Run (fifo8Create (fun _ => 0) 4) [.pushAll [1, 2, 3], .pop, .push 4, .push 5, .popBuf 4] =
        some (outs, fifo') ∧ fifo'.WF ∧ fifo'.capacity = (fifo8Create (fun _ => 0) 4).capacity ∧
      QueueRun (fifo8Create (fun _ => 0) 4).contents [.pushAll [1, 2, 3], .pop, .push 4, .push 5, .popBuf 4]
        outs fifo'.contents := by
  have hwf : (fifo8Create (fun _ => 0) 4).WF := fifo8Create_wf _ (by decide) (by decide)
  have hops : QueueAllowed (fifo8Create (fun _ => 0) 4).capacity (fifo8Create (fun _ => 0) 4).contents
      [.pushAll [1, 2, 3], .pop, .push 4, .push 5, .popBuf 4] := by
    simp [QueueAllowed, QueueStep, Fifo8Op.Allowed, fifo8Create, fifo8Reset]
  exact ⟨hwf, hops, fifo8Run_refines hwf hops⟩

/-! ## §5 Reads past the queued bytes, and wide buffers -/

/-- The header documents `fifo8_pop_buf` and `fifo8_peek_buf` as copying
"up to a maximum of @destlen" bytes, and the `MIN` with `fifo8_num_used`
before their second chunk only matters when `destlen` exceeds the queued
bytes; yet on the FIFO of `test_fifo8_pop_buf` holding 4 bytes, a call with
`destlen = 8` fails the `assert` (and so does `fifo8_drop` of 8). And with a
capacity past `2^31` the `uint32_t` sums of `fifo8_push_all` wrap: from
head `2^32 - 2` of a `2^32 - 1`-byte buffer it copies 3 bytes in one
`memcpy`, to indices `2^32 - 2`, `2^32 - 1` and `2^32` of which the last
two lie past the buffer, and the queue reads back `1 0 0`. -/
theorem fifo8PeekpopBuf_asserts_past_num :
    fifo8Run (fifo8Create (fun _ => 0) 8) [.pushAll [1, 2, 3, 4], .popBuf 8] = none ∧
    fifo8Run (fifo8Create (fun _ => 0) 8) [.pushAll [1, 2, 3, 4], .peekBuf 8] = none ∧
    fifo8Run (fifo8Create (fun _ => 0) 8) [.pushAll [1, 2, 3, 4], .drop 8] = none ∧
    (fifo8PushAll ⟨fun _ => 0, 2 ^ 32 - 1, 2 ^ 32 - 2, 0⟩ [1, 2, 3]).map
      (fun fifo => (fifo.data (2 ^ 32 - 1), fifo.data (2 ^ 32), fifo.contents)) = some (2, 3, [1, 0, 0]) :=
  ⟨rfl, rfl, rfl, by decide⟩

end QemuFormal

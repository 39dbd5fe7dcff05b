/-
QemuFormal.Util.IovTheorems — what the loops of `util/iov.c` do to the
flattened view of a vector.

A vector of non-overlapping elements reads as one buffer `F`: its
elements' bytes, concatenated. `iovAddrs iov` lists their addresses, so
`F = (iovAddrs iov).map mem`; a transfer of `bytes` bytes at `offset`
covers the window `iovWindow iov offset bytes` of `iovSpan` addresses.

* The chunks. `iovChunkLoop_eq_foldl`: the shared copy loop hands its
  action exactly the elements `iov_copy` builds (with room for them
  all), in order; `iovAddrs_iovCopy`: those chunks tile the window.
  `iovChunkLoop_simulates` turns this into one statement for any action
  that acts on the chunks' addresses the way it acts on their
  concatenation; `iov_to_buf_full`, `iov_from_buf_full` and `iov_memset`
  are its three instances.
* `qemu_iovec_concat_iov` agrees with the shared loop whenever it runs
  (`qemuIovecConcatLoop_eq`) and appends the window's chunks; the slice
  functions pick the elements around a window (`qemuIovecSlice_spec`).
* `iov_discard_front_undoable` and `iov_discard_back_undoable` drop a
  prefix or suffix of the window and change at most one element, which
  the undo record restores.
* `qemu_iovec_clone`: the allocation loop places every source byte at
  `buf` plus its rank among the distinct source bytes
  (`qemuIovecCloneAlloc_eq`), so the clone keeps exactly the aliasing
  of its source.
-/
import QemuFormal.Util.Iov
import QemuFormal.Lib.Rank
import Mathlib.Data.List.GetD

namespace QemuFormal

open Scatter

/-- The addresses of a vector's bytes, element after element. -/
def iovAddrs (iov : List IoVec) : List Nat := addrs IoVec.base IoVec.len iov

/-- The flattened buffer `F`: a vector's bytes, element after element. -/
def iovFlat (mem : Mem) (iov : List IoVec) : List UInt8 := (iovAddrs iov).map mem

/-- The addresses a transfer of `bytes` bytes at `offset` covers. -/
def iovWindow (iov : List IoVec) (offset bytes : Nat) : List Nat := ((iovAddrs iov).drop offset).take bytes

/-- How many bytes such a transfer moves: `min bytes (size - offset)`. -/
def iovSpan (iov : List IoVec) (offset bytes : Nat) : Nat := min bytes (iovSize iov - offset)

@[simp] theorem iovAddrs_nil : iovAddrs [] = [] := rfl

theorem iovAddrs_cons (e : IoVec) (l : List IoVec) :
    iovAddrs (e :: l) = List.range' e.base e.len ++ iovAddrs l :=
  addrs_cons _ _ e l

theorem iovAddrs_append (l l' : List IoVec) : iovAddrs (l ++ l') = iovAddrs l ++ iovAddrs l' :=
  addrs_append _ _ l l'

@[simp] theorem iovSize_nil : iovSize [] = 0 := rfl

@[simp] theorem iovSize_singleton (e : IoVec) : iovSize [e] = e.len := rfl

theorem iovSize_eq_size (l : List IoVec) : iovSize l = size IoVec.len l := by
  induction l with
  | nil => rfl
  | cons e l ih => rw [iovSize, size_cons, ih]

@[simp] theorem length_iovAddrs (l : List IoVec) : (iovAddrs l).length = iovSize l := by
  rw [iovAddrs, length_addrs, iovSize_eq_size]

@[simp] theorem length_iovWindow (iov : List IoVec) (offset bytes : Nat) :
    (iovWindow iov offset bytes).length = iovSpan iov offset bytes := by
  simp [iovWindow, iovSpan]

theorem iovSize_append (l l' : List IoVec) : iovSize (l ++ l') = iovSize l + iovSize l' := by
  rw [← length_iovAddrs, iovAddrs_append, List.length_append, length_iovAddrs, length_iovAddrs]

/-! ## The chunks of a transfer -/

section Chunks

variable {σ : Type}

/-- One chunk handed to a loop's action, with the bytes done before it. -/
def chunkStep (visit : σ → Nat → Nat → Nat → σ) (p : σ × Nat) (c : IoVec) : σ × Nat :=
  (visit p.1 c.base p.2 c.len, p.2 + c.len)

/-- The shared loop of `iov_from_buf_full`, `iov_to_buf_full` and
`iov_memset` visits exactly the chunks `iov_copy` builds when it has room
for every element. -/
theorem iovChunkLoop_eq_foldl (visit : σ → Nat → Nat → Nat → σ) :
    ∀ (iov : List IoVec) (cnt offset bytes done : Nat) (s : σ), iov.length ≤ cnt →
      iovChunkLoop visit iov offset bytes done s =
        (iovCopy cnt iov offset (bytes - done)).foldl (chunkStep visit) (s, done) := by
  intro iov
  induction iov with
  | nil => intro cnt offset bytes done s _; cases cnt <;> rfl
  | cons e rest ih =>
    intro cnt offset bytes done s hcnt
    obtain ⟨c, rfl⟩ : ∃ c, cnt = c + 1 := ⟨cnt - 1, by simp at hcnt; omega⟩
    have hrest : rest.length ≤ c := by simpa using hcnt
    rw [iovChunkLoop, iovCopy]
    by_cases hstop : offset = 0 ∧ ¬done < bytes
    · -- both stop: nothing is left to skip or to copy
      have hstop' : offset = 0 ∧ bytes - done = 0 := by omega
      rw [if_pos hstop, if_pos hstop']
      rfl
    · have hstop' : ¬(offset = 0 ∧ bytes - done = 0) := by omega
      rw [if_neg hstop, if_neg hstop']
      by_cases hlt : offset < e.len
      · -- the chunk `[e.base + offset, +len)` is visited and `offset` is spent
        rw [if_pos hlt, if_neg (Nat.not_le_of_lt hlt)]
        have hlen : min (e.len - offset) (bytes - done) = min (bytes - done) (e.len - offset) :=
          Nat.min_comm _ _
        simp only [List.foldl_cons, chunkStep]
        rw [ih c 0 bytes _ _ hrest, hlen, Nat.sub_sub]
      · rw [if_neg hlt, if_pos (Nat.le_of_not_lt hlt)]
        exact ih (c + 1) (offset - e.len) bytes done s (by omega)

/-- Skipping a whole element. -/
theorem iovWindow_cons_of_le {e : IoVec} {offset : Nat} (l : List IoVec) (bytes : Nat)
    (h : e.len ≤ offset) : iovWindow (e :: l) offset bytes = iovWindow l (offset - e.len) bytes := by
  rw [iovWindow, iovWindow, iovAddrs, iovAddrs, drop_addrs_cons_of_le _ _ l h]

/-- Starting inside an element: the rest of it, up to `bytes`, then the
elements after it. -/
theorem iovWindow_cons_of_lt {e : IoVec} {offset : Nat} (l : List IoVec) (bytes : Nat)
    (h : offset < e.len) :
    iovWindow (e :: l) offset bytes =
      List.range' (e.base + offset) (min bytes (e.len - offset)) ++ iovWindow l 0 (bytes - (e.len - offset)) := by
  rw [iovWindow, iovWindow, iovAddrs, iovAddrs, drop_addrs_cons_of_lt _ _ l h, List.take_append,
    take_range', List.length_range', List.drop_zero]

@[simp] theorem iovWindow_nil (offset bytes : Nat) : iovWindow [] offset bytes = [] := by
  simp [iovWindow]

@[simp] theorem iovWindow_zero (iov : List IoVec) (offset : Nat) : iovWindow iov offset 0 = [] := by
  simp [iovWindow]

/-- The chunks `iov_copy` builds cover the window, in order. -/
theorem iovAddrs_iovCopy :
    ∀ (iov : List IoVec) (cnt offset bytes : Nat), iov.length ≤ cnt →
      iovAddrs (iovCopy cnt iov offset bytes) = iovWindow iov offset bytes := by
  intro iov
  induction iov with
  | nil => intro cnt offset bytes _; cases cnt <;> simp [iovCopy]
  | cons e rest ih =>
    intro cnt offset bytes hcnt
    obtain ⟨c, rfl⟩ : ∃ c, cnt = c + 1 := ⟨cnt - 1, by simp at hcnt; omega⟩
    have hrest : rest.length ≤ c := by simpa using hcnt
    rw [iovCopy]
    by_cases hstop : offset = 0 ∧ bytes = 0
    · rw [if_pos hstop, hstop.2]
      simp
    · rw [if_neg hstop]
      by_cases hge : offset ≥ e.len
      · rw [if_pos hge, ih (c + 1) _ _ (by omega), iovWindow_cons_of_le _ _ hge]
      · rw [if_neg hge, iovWindow_cons_of_lt _ _ (Nat.lt_of_not_le hge)]
        dsimp only
        rw [iovAddrs_cons, ih c _ _ hrest]
        have hrem : bytes - min bytes (e.len - offset) = bytes - (e.len - offset) := by omega
        rw [hrem]

/-- With less room, `iov_copy` stops early: its chunks are the first
`dstIovCnt` of those it builds with room for all. -/
theorem iovCopy_eq_take :
    ∀ (iov : List IoVec) (cnt cnt' offset bytes : Nat), iov.length ≤ cnt' →
      iovCopy cnt iov offset bytes = (iovCopy cnt' iov offset bytes).take cnt := by
  intro iov
  induction iov with
  | nil => intro cnt cnt' offset bytes _; cases cnt <;> cases cnt' <;> rfl
  | cons e rest ih =>
    intro cnt cnt' offset bytes hcnt
    obtain ⟨c', rfl⟩ : ∃ c', cnt' = c' + 1 := ⟨cnt' - 1, by simp at hcnt; omega⟩
    have hrest : rest.length ≤ c' := by simpa using hcnt
    cases cnt with
    | zero => simp [iovCopy]
    | succ c =>
      rw [iovCopy, iovCopy]
      split_ifs with hstop hge
      · rfl
      · exact ih (c + 1) (c' + 1) _ _ (by omega)
      · dsimp only
        rw [List.take_succ_cons, ih c c' _ _ hrest]

/-- `iov_copy` with `dstIovCnt` slots fills at most those, covers a prefix
of the window, and all of it unless the slots ran out. -/
theorem iovCopy_capacity (dstIovCnt : Nat) (iov : List IoVec) (offset bytes : Nat) :
    (iovCopy dstIovCnt iov offset bytes).length ≤ dstIovCnt ∧
    iovAddrs (iovCopy dstIovCnt iov offset bytes) <+: iovWindow iov offset bytes ∧
    ((iovCopy dstIovCnt iov offset bytes).length < dstIovCnt →
      iovAddrs (iovCopy dstIovCnt iov offset bytes) = iovWindow iov offset bytes) := by
  have hall := iovAddrs_iovCopy iov iov.length offset bytes (Nat.le_refl _)
  rw [iovCopy_eq_take iov dstIovCnt iov.length offset bytes (Nat.le_refl _)]
  refine ⟨List.length_take_le _ _, hall ▸ addrs_take_prefix _ _ _ _, ?_⟩
  intro hlt
  rw [List.length_take] at hlt
  rw [List.take_of_length_le (by omega), hall]


theorem iovSize_iovCopy (iov : List IoVec) (cnt offset bytes : Nat) (hcnt : iov.length ≤ cnt) :
    iovSize (iovCopy cnt iov offset bytes) = iovSpan iov offset bytes := by
  rw [← length_iovAddrs, iovAddrs_iovCopy iov cnt offset bytes hcnt, length_iovWindow]

/-- Folding the chunks moves `done` on by their total length. -/
theorem foldl_chunkStep_snd (visit : σ → Nat → Nat → Nat → σ) :
    ∀ (cs : List IoVec) (s : σ) (d : Nat), (cs.foldl (chunkStep visit) (s, d)).2 = d + iovSize cs := by
  intro cs
  induction cs with
  | nil => intro s d; rfl
  | cons c cs ih =>
    intro s d
    rw [List.foldl_cons, chunkStep, ih, iovSize]
    omega

/-- The number of bytes the shared loop reports: the span of the transfer. -/
theorem iovChunkLoop_done (visit : σ → Nat → Nat → Nat → σ) (iov : List IoVec) (offset bytes : Nat)
    (s : σ) : (iovChunkLoop visit iov offset bytes 0 s).2 = iovSpan iov offset bytes := by
  rw [iovChunkLoop_eq_foldl visit iov iov.length offset bytes 0 s (Nat.le_refl _), foldl_chunkStep_snd,
    Nat.sub_zero, iovSize_iovCopy iov _ offset bytes (Nat.le_refl _), Nat.zero_add]

/-! An action that acts on each chunk's addresses as `g` acts on the
concatenation: `g` applied along `l₁ ++ l₂` is `g` along `l₁`, then along
`l₂` with `done` moved on. -/

variable {τ : Type} (visit : σ → Nat → Nat → Nat → σ) (abs : σ → τ) (g : τ → List Nat → Nat → τ)
  (hvisit : ∀ s a d n, abs (visit s a d n) = g (abs s) (List.range' a n) d)
  (hnil : ∀ t d, g t [] d = t)
  (happend : ∀ t l₁ l₂ d, g t (l₁ ++ l₂) d = g (g t l₁ d) l₂ (d + l₁.length))
include hvisit hnil happend

theorem foldl_chunkStep_fst :
    ∀ (cs : List IoVec) (s : σ) (d : Nat),
      abs (cs.foldl (chunkStep visit) (s, d)).1 = g (abs s) (iovAddrs cs) d := by
  intro cs
  induction cs with
  | nil => intro s d; exact (hnil _ _).symm
  | cons c cs ih =>
    intro s d
    rw [List.foldl_cons, chunkStep, ih, hvisit, iovAddrs_cons, happend, List.length_range']

/-- The shared loop does to its state what `g` does along the window. -/
theorem iovChunkLoop_simulates (iov : List IoVec) (offset bytes : Nat) (s : σ) :
    abs (iovChunkLoop visit iov offset bytes 0 s).1 = g (abs s) (iovWindow iov offset bytes) 0 := by
  rw [iovChunkLoop_eq_foldl visit iov iov.length offset bytes 0 s (Nat.le_refl _),
    foldl_chunkStep_fst visit abs g hvisit hnil happend, Nat.sub_zero,
    iovAddrs_iovCopy iov _ offset bytes (Nat.le_refl _)]

end Chunks

/-! ## Windows -/

/-- The window's addresses, and what lies before and after them. -/
theorem iovAddrs_eq_window (iov : List IoVec) (offset bytes : Nat) :
    iovAddrs iov = (iovAddrs iov).take offset ++ iovWindow iov offset bytes ++
      (iovAddrs iov).drop (offset + iovSpan iov offset bytes) := by
  have hspan : iovSpan iov offset bytes = min bytes ((iovAddrs iov).drop offset).length := by
    rw [iovSpan, List.length_drop, length_iovAddrs]
  have hwin : iovWindow iov offset bytes = ((iovAddrs iov).drop offset).take (iovSpan iov offset bytes) := by
    rw [hspan]
    exact List.take_eq_take_min
  rw [hwin, ← List.drop_drop, List.append_assoc, List.take_append_drop, List.take_append_drop]

/-- A window does not look at the elements before the one it starts in. -/
theorem iovWindow_drop (l : List IoVec) (n offset bytes : Nat) (h : iovSize (l.take n) ≤ offset) :
    iovWindow l offset bytes = iovWindow (l.drop n) (offset - iovSize (l.take n)) bytes := by
  conv_lhs => rw [← List.take_append_drop n l]
  rw [iovWindow, iovWindow, iovAddrs_append, List.drop_append,
    List.drop_eq_nil_of_le (by rw [length_iovAddrs]; exact h), List.nil_append, length_iovAddrs]

/-- Nor at the elements after the one it ends in. -/
theorem iovWindow_take (l : List IoVec) (n offset bytes : Nat) (h : offset + bytes ≤ iovSize (l.take n)) :
    iovWindow (l.take n) offset bytes = iovWindow l offset bytes := by
  conv_rhs => rw [← List.take_append_drop n l]
  rw [iovWindow, iovWindow, iovAddrs_append, List.drop_append_of_le_length (by simp; omega),
    List.take_append_of_le_length (by simp; omega)]

/-- The flattened view of memory in which the window's addresses hold
`vs`: with no address repeated, the window holds `vs` and the rest of `F`
is as it was. -/
theorem iovFlat_writeList_window (mem : Mem) {iov : List IoVec} (offset bytes : Nat) {vs : List UInt8}
    (hnd : (iovAddrs iov).Nodup) (hvs : vs.length = iovSpan iov offset bytes) :
    iovFlat (writeList mem (iovWindow iov offset bytes) vs) iov =
      (iovFlat mem iov).take offset ++ vs ++ (iovFlat mem iov).drop (offset + iovSpan iov offset bytes) := by
  have hsplit := iovAddrs_eq_window iov offset bytes
  have hnd' := hnd
  rw [hsplit] at hnd'
  -- the window is disjoint from what lies before it and from what lies after it
  have hbefore := List.disjoint_of_nodup_append (List.nodup_append.mp hnd').1
  have hafter := List.disjoint_of_nodup_append hnd'
  have hwin := (List.nodup_append.mp (List.nodup_append.mp hnd').1).2.1
  rw [iovFlat, hsplit, List.map_append, List.map_append,
    map_writeList_of_disjoint mem vs fun x hx hxw => hbefore hx hxw,
    map_writeList_of_nodup mem hwin (by rw [hvs, length_iovWindow]),
    map_writeList_of_disjoint mem vs fun x hx hxw => hafter (List.mem_append_right _ hxw) hx,
    List.map_take, List.map_drop]
  rfl

/-- The window, read: `F[offset, offset + k)`. -/
theorem map_iovWindow (mem : Mem) (iov : List IoVec) (offset bytes : Nat) :
    (iovWindow iov offset bytes).map mem = ((iovFlat mem iov).drop offset).take (iovSpan iov offset bytes) := by
  rw [iovFlat, ← List.map_drop, ← List.map_take, iovSpan, ← length_iovAddrs, ← List.length_drop,
    ← List.take_eq_take_min, iovWindow]

/-! ## Copies between a vector and a buffer -/

/-- `iov_to_buf_full` reads the window. -/
theorem iovToBufFull_eq (mem : Mem) (iov : List IoVec) (offset bytes : Nat) :
    iovToBufFull mem iov offset bytes = ((iovWindow iov offset bytes).map mem, iovSpan iov offset bytes) := by
  have hsim := iovChunkLoop_simulates (fun out addr _ len => out ++ memRead mem addr len) id
    (fun out as _ => out ++ as.map mem) (fun _ _ _ _ => rfl) (fun _ _ => List.append_nil _)
    (fun t l₁ l₂ _ => by rw [List.map_append, List.append_assoc]) iov offset bytes []
  rw [iovToBufFull]
  exact Prod.ext (by simpa using hsim) (iovChunkLoop_done _ iov offset bytes [])

/-- `iov_from_buf_full` writes the buffer along the window. -/
theorem iovFromBufFull_eq (mem : Mem) (iov : List IoVec) (offset : Nat) (buf : List UInt8) (bytes : Nat) :
    iovFromBufFull mem iov offset buf bytes =
      (writeList mem (iovWindow iov offset bytes) buf, iovSpan iov offset bytes) := by
  -- one `memcpy` of `n` bytes from `buf + d` writes `buf.drop d` along the chunk
  have hvisit : ∀ (m : Mem) a d n,
      memWrite m a ((buf.drop d).take n) = writeList m (List.range' a n) (buf.drop d) := by
    intro m a d n
    have hle : ((buf.drop d).take n).length ≤ n := List.length_take_le _ _
    rw [← writeList_take_right m (List.range' a n), List.length_range', memWrite,
      ← writeList_take_left m (List.range' a n), take_range', Nat.min_eq_left hle]
  have hsim := iovChunkLoop_simulates (fun m addr done len => memWrite m addr ((buf.drop done).take len)) id
    (fun m as d => writeList m as (buf.drop d)) hvisit (fun m _ => writeList_nil_left m _)
    (fun m l₁ l₂ d => by rw [writeList_append_left, List.drop_drop]) iov offset bytes mem
  rw [iovFromBufFull]
  exact Prod.ext (by simpa using hsim) (iovChunkLoop_done _ iov offset bytes mem)

/-- `iov_memset` writes `fillc` along the window. -/
theorem iovMemset_eq (mem : Mem) (iov : List IoVec) (offset : Nat) (fillc : UInt8) (bytes : Nat) :
    iovMemset mem iov offset fillc bytes =
      (writeList mem (iovWindow iov offset bytes) (List.replicate (iovSpan iov offset bytes) fillc),
        iovSpan iov offset bytes) := by
  have happend : ∀ (m : Mem) (l₁ l₂ : List Nat),
      writeList m (l₁ ++ l₂) (List.replicate (l₁ ++ l₂).length fillc) =
        writeList (writeList m l₁ (List.replicate l₁.length fillc)) l₂ (List.replicate l₂.length fillc) := by
    intro m l₁ l₂
    rw [writeList_append_left, List.drop_replicate, ← writeList_take_right m l₁, List.take_replicate,
      List.length_append, Nat.min_eq_left (Nat.le_add_right _ _), Nat.add_sub_cancel_left]
  have hsim := iovChunkLoop_simulates (fun m addr _ len => memWrite m addr (List.replicate len fillc)) id
    (fun m as _ => writeList m as (List.replicate as.length fillc))
    (fun m a _ n => by simp only [id, memWrite, List.length_replicate, List.length_range'])
    (fun m _ => writeList_nil_left m _) (fun m l₁ l₂ _ => happend m l₁ l₂) iov offset bytes mem
  rw [iovMemset]
  refine Prod.ext ?_ (iovChunkLoop_done _ iov offset bytes mem)
  simpa using hsim

/-! ## `QEMUIOVector` -/

/-- A well-formed vector: `niov` elements are in the array, and `size` is
their total length. -/
def QEMUIOVector.Valid (qiov : QEMUIOVector) : Prop :=
  qiov.niov ≤ qiov.iov.length ∧ qiov.size = iovSize qiov.elems

instance (qiov : QEMUIOVector) : Decidable qiov.Valid := inferInstanceAs (Decidable (_ ∧ _))

theorem length_elems {qiov : QEMUIOVector} (h : qiov.Valid) : qiov.elems.length = qiov.niov := by
  rw [QEMUIOVector.elems, List.length_take, Nat.min_eq_left h.1]

theorem qemuIovecInit_valid : qemuIovecInit.Valid := ⟨Nat.le_refl _, rfl⟩

theorem qemuIovecInitBuf_valid (base len : Nat) : (qemuIovecInitBuf base len).Valid :=
  ⟨Nat.le_refl _, by simp [qemuIovecInitBuf, QEMUIOVector.elems]⟩

@[simp] theorem qemuIovecAdd_elems (qiov : QEMUIOVector) (base len : Nat) :
    (qemuIovecAdd qiov base len).elems = qiov.elems ++ [⟨base, len⟩] := by
  simp only [qemuIovecAdd, QEMUIOVector.elems]
  rw [List.take_of_length_le (by simp)]

@[simp] theorem qemuIovecAdd_niov (qiov : QEMUIOVector) (base len : Nat) :
    (qemuIovecAdd qiov base len).niov = qiov.niov + 1 := rfl

@[simp] theorem qemuIovecAdd_size (qiov : QEMUIOVector) (base len : Nat) :
    (qemuIovecAdd qiov base len).size = qiov.size + len := rfl

theorem qemuIovecAdd_valid {qiov : QEMUIOVector} (h : qiov.Valid) (base len : Nat) :
    (qemuIovecAdd qiov base len).Valid := by
  refine ⟨?_, ?_⟩
  · simp [qemuIovecAdd, length_elems h]
  · rw [qemuIovecAdd_elems, qemuIovecAdd_size, iovSize_append, h.2]
    rfl

/-- `qemu_iovec_concat_iov`'s loop is the shared loop while bytes remain
or nothing is left to skip; it differs only in going on skipping once
`done` has reached `sbytes`, which never happens after a chunk. -/
theorem qemuIovecConcatLoop_eq :
    ∀ (l : List IoVec) (dst : QEMUIOVector) (soffset sbytes done : Nat), (done < sbytes ∨ soffset = 0) →
      qemuIovecConcatLoop dst l soffset sbytes done =
        iovChunkLoop (fun d addr _ len => qemuIovecAdd d addr len) l soffset sbytes done dst := by
  intro l
  induction l with
  | nil => intro dst soffset sbytes done _; rfl
  | cons e rest ih =>
    intro dst soffset sbytes done h
    rw [qemuIovecConcatLoop, iovChunkLoop]
    by_cases hdone : done < sbytes
    · have hgo : ¬(soffset = 0 ∧ ¬done < sbytes) := fun h' => h'.2 hdone
      rw [if_neg (not_not_intro hdone), if_neg hgo]
      split_ifs with hlt
      · exact ih _ 0 sbytes _ (Or.inr rfl)
      · exact ih dst _ sbytes done (Or.inl hdone)
    · have hoff : soffset = 0 := h.resolve_left hdone
      rw [if_pos hdone, if_pos ⟨hoff, hdone⟩]

/-- Adding chunks one by one appends them. -/
theorem foldl_chunkStep_add :
    ∀ (cs : List IoVec) (dst : QEMUIOVector) (d : Nat),
      (cs.foldl (chunkStep fun q addr _ len => qemuIovecAdd q addr len) (dst, d)).1.elems = dst.elems ++ cs ∧
      (cs.foldl (chunkStep fun q addr _ len => qemuIovecAdd q addr len) (dst, d)).1.niov = dst.niov + cs.length ∧
      (cs.foldl (chunkStep fun q addr _ len => qemuIovecAdd q addr len) (dst, d)).1.size = dst.size + iovSize cs := by
  intro cs
  induction cs with
  | nil => intro dst d; simp
  | cons c cs ih =>
    intro dst d
    obtain ⟨he, hn, hs⟩ := ih (qemuIovecAdd dst c.base c.len) (d + c.len)
    rw [List.foldl_cons, chunkStep]
    refine ⟨?_, ?_, ?_⟩
    · rw [he, qemuIovecAdd_elems, List.append_assoc]
      rfl
    · rw [hn, qemuIovecAdd_niov, List.length_cons]
      omega
    · rw [hs, qemuIovecAdd_size, iovSize]
      omega

theorem foldl_chunkStep_add_valid :
    ∀ (cs : List IoVec) (dst : QEMUIOVector) (d : Nat), dst.Valid →
      (cs.foldl (chunkStep fun q addr _ len => qemuIovecAdd q addr len) (dst, d)).1.Valid := by
  intro cs
  induction cs with
  | nil => intro dst d h; exact h
  | cons c cs ih =>
    intro dst d h
    exact ih _ _ (qemuIovecAdd_valid h c.base c.len)

/-- `qemu_iovec_concat_iov` appends chunks that cover the window, keeps
the vector well formed, and returns the span. -/
theorem qemuIovecConcatIov_spec (dst : QEMUIOVector) (srcIov : List IoVec) (soffset sbytes : Nat) :
    ∃ new : List IoVec,
      (qemuIovecConcatIov dst srcIov soffset sbytes).1.elems = dst.elems ++ new ∧
      iovAddrs new = iovWindow srcIov soffset sbytes ∧
      (qemuIovecConcatIov dst srcIov soffset sbytes).1.niov = dst.niov + new.length ∧
      (qemuIovecConcatIov dst srcIov soffset sbytes).1.size = dst.size + iovSpan srcIov soffset sbytes ∧
      (qemuIovecConcatIov dst srcIov soffset sbytes).2 = iovSpan srcIov soffset sbytes ∧
      (dst.Valid → (qemuIovecConcatIov dst srcIov soffset sbytes).1.Valid) := by
  rw [qemuIovecConcatIov]
  split_ifs with h0
  · -- `if (!sbytes) return 0;`
    refine ⟨[], ?_, ?_, ?_, ?_, ?_, fun h => h⟩ <;> simp [h0, iovSpan]
  · have hrun := qemuIovecConcatLoop_eq srcIov dst soffset sbytes 0 (Or.inl (Nat.pos_of_ne_zero h0))
    rw [iovChunkLoop_eq_foldl _ srcIov srcIov.length soffset sbytes 0 dst (Nat.le_refl _), Nat.sub_zero]
      at hrun
    obtain ⟨he, hn, hs⟩ := foldl_chunkStep_add (iovCopy srcIov.length srcIov soffset sbytes) dst 0
    refine ⟨iovCopy srcIov.length srcIov soffset sbytes, ?_, ?_, ?_, ?_, ?_, ?_⟩
    · rw [hrun, he]
    · exact iovAddrs_iovCopy srcIov _ soffset sbytes (Nat.le_refl _)
    · rw [hrun, hn]
    · rw [hrun, hs, iovSize_iovCopy srcIov _ soffset sbytes (Nat.le_refl _)]
    · rw [hrun, foldl_chunkStep_snd, iovSize_iovCopy srcIov _ soffset sbytes (Nat.le_refl _), Nat.zero_add]
    · intro h
      rw [hrun]
      exact foldl_chunkStep_add_valid _ dst 0 h

/-! ## Slices -/

/-- `iov_skip_offset` stops in the element holding byte `offset`: the
elements it skips hold `offset - remaining` bytes, and a remaining offset
lies inside the next element. -/
theorem iovSkipOffset_spec :
    ∀ (l : List IoVec) (offset : Nat), offset ≤ iovSize l →
      (iovSkipOffset l offset).1 ≤ l.length ∧
      iovSize (l.take (iovSkipOffset l offset).1) + (iovSkipOffset l offset).2 = offset ∧
      (0 < (iovSkipOffset l offset).2 →
        ∃ e, l[(iovSkipOffset l offset).1]? = some e ∧ (iovSkipOffset l offset).2 < e.len) := by
  intro l
  induction l with
  | nil => intro offset h; simp_all [iovSkipOffset]
  | cons e rest ih =>
    intro offset h
    rw [iovSkipOffset]
    split_ifs with hskip
    · -- the whole element lies before byte `offset`
      dsimp only
      obtain ⟨hn, hs, hin⟩ := ih (offset - e.len) (by rw [iovSize] at h; omega)
      refine ⟨by simpa using hn, ?_, ?_⟩
      · rw [List.take_succ_cons, iovSize, Nat.add_assoc, hs]
        exact Nat.add_sub_cancel' hskip.2
      · intro hpos
        simpa using hin hpos
    · refine ⟨Nat.zero_le _, by simp, ?_⟩
      intro hpos
      exact ⟨e, rfl, by omega⟩

/-- The bytes of the elements before index `n` and from it on. -/
theorem iovSize_take_add_drop (l : List IoVec) (n : Nat) : iovSize (l.take n) + iovSize (l.drop n) = iovSize l := by
  rw [← iovSize_append, List.take_append_drop]

/-- `qemu_iovec_slice` finds the elements around the window: they hold
`head` bytes before it, the window, and `tail` bytes after it. -/
theorem qemuIovecSlice_spec (qiov : QEMUIOVector) (offset len : Nat) (hv : qiov.Valid)
    (h : offset + len ≤ qiov.size) :
    ∃ start head tail niov, qemuIovecSlice qiov offset len = some (start, head, tail, niov) ∧
      start + niov ≤ qiov.elems.length ∧
      iovSize ((qiov.elems.drop start).take niov) = head + len + tail ∧
      iovWindow ((qiov.elems.drop start).take niov) head len = iovWindow qiov.elems offset len := by
  have hsize := iovSize_take_add_drop qiov.elems
  rw [← hv.2] at hsize
  -- the element holding byte `offset`
  obtain ⟨hn₁, hs₁, -⟩ := iovSkipOffset_spec qiov.elems offset (by rw [← hv.2]; omega)
  generalize hsk₁ : iovSkipOffset qiov.elems offset = p₁ at hn₁ hs₁
  obtain ⟨start, head⟩ := p₁
  have hrest : head + len ≤ iovSize (qiov.elems.drop start) := by
    have := hsize start
    dsimp only at hs₁
    omega
  -- the element holding the window's last byte, counted from there
  obtain ⟨hn₂, hs₂, hin₂⟩ := iovSkipOffset_spec (qiov.elems.drop start) (head + len) hrest
  generalize hsk₂ : iovSkipOffset (qiov.elems.drop start) (head + len) = p₂ at hn₂ hs₂ hin₂
  obtain ⟨skipped, tail⟩ := p₂
  dsimp only at hn₁ hs₁ hn₂ hs₂ hin₂
  have hwin : iovWindow qiov.elems offset len = iovWindow (qiov.elems.drop start) head len := by
    rw [iovWindow_drop qiov.elems start offset len (by omega)]
    congr 1
    omega
  have hlen : start + skipped ≤ qiov.elems.length := by
    rw [List.length_drop] at hn₂
    omega
  simp only [qemuIovecSlice, if_neg (Nat.not_lt_of_le h), hsk₁, hsk₂]
  by_cases ht : 0 < tail
  · -- the window ends inside element `start + skipped`: it is kept, trimmed by `tail`
    obtain ⟨eEnd, hend, htail⟩ := hin₂ ht
    have hhead : (qiov.elems.drop (start + skipped)).head? = some eEnd := by
      rw [← List.drop_drop, List.head?_drop, hend]
    have htake : (qiov.elems.drop start).take (skipped + 1) = (qiov.elems.drop start).take skipped ++ [eEnd] := by
      rw [List.take_add_one, hend]
      rfl
    have hsub : iovSize ((qiov.elems.drop start).take (skipped + 1)) = head + len + (eEnd.len - tail) := by
      rw [htake, iovSize_append]
      simp only [iovSize]
      omega
    refine ⟨start, head, eEnd.len - tail, skipped + 1, ?_, ?_, hsub, ?_⟩
    · rw [if_pos ht, hhead]
      dsimp only
      rw [if_pos htail]
    · have : skipped < (qiov.elems.drop start).length := by
        by_contra hge
        rw [List.getElem?_eq_none (Nat.le_of_not_lt hge)] at hend
        cases hend
      rw [List.length_drop] at this
      omega
    · rw [iovWindow_take _ _ _ _ (by omega), hwin]
  · have ht0 : tail = 0 := Nat.eq_zero_of_not_pos ht
    refine ⟨start, head, tail, skipped, ?_, hlen, by omega, ?_⟩
    · rw [if_neg ht]
    · rw [iovWindow_take _ _ _ _ (by omega), hwin]

/-- `qemu_iovec_init_slice` builds a well-formed vector over exactly the
window. -/
theorem qemuIovecInitSlice_spec (source : QEMUIOVector) (offset len : Nat) (hv : source.Valid)
    (h : offset + len ≤ source.size) :
    ∃ q, qemuIovecInitSlice source offset len = some q ∧ q.Valid ∧
      iovAddrs q.elems = iovWindow source.elems offset len ∧ q.size = len := by
  obtain ⟨start, head, tail, n, hslice, hn, hsub, hwin⟩ := qemuIovecSlice_spec source offset len hv h
  have hasserts : ¬(source.size < len ∨ source.size - len < offset) := by omega
  simp only [qemuIovecInitSlice, if_neg hasserts, hslice, Option.map_some, Option.some.injEq,
    exists_eq_left']
  split_ifs with h1
  · -- one element: `qemu_iovec_init_buf` on the window inside it
    subst h1
    obtain ⟨e, rest, hdrop⟩ : ∃ e rest, source.elems.drop start = e :: rest := by
      cases hd : source.elems.drop start with
      | nil => rw [← List.length_eq_zero_iff, List.length_drop] at hd; omega
      | cons e rest => exact ⟨e, rest, rfl⟩
    rw [hdrop] at hsub hwin
    simp only [List.take_succ_cons, List.take_zero, iovSize, Nat.add_zero] at hsub hwin
    refine ⟨qemuIovecInitBuf_valid _ _, ?_, rfl⟩
    rw [← hwin, hdrop]
    by_cases hlen : len = 0
    · subst hlen
      simp [qemuIovecInitBuf, QEMUIOVector.elems, iovAddrs_cons]
    · rw [iovWindow_cons_of_lt _ _ (by omega), Nat.min_eq_left (by omega)]
      simp [qemuIovecInitBuf, QEMUIOVector.elems, iovAddrs_cons]
  · -- several: `qemu_iovec_concat_iov` of the slice onto an empty vector
    obtain ⟨new, he, ha, -, hs, -, hval⟩ :=
      qemuIovecConcatIov_spec qemuIovecInit ((source.elems.drop start).take n) head len
    refine ⟨hval qemuIovecInit_valid, ?_, ?_⟩
    · rw [he, ← hwin, ← ha]
      rfl
    · rw [hs, iovSpan, hsub]
      simp only [qemuIovecInit, Nat.zero_add]
      omega

/-! ## The flattened view -/

theorem iov_flattened_copies :
    (∀ (mem : Mem) (iov : List IoVec) (offset bytes : Nat),
      iovToBufFull mem iov offset bytes =
        (((iovFlat mem iov).drop offset).take (iovSpan iov offset bytes), iovSpan iov offset bytes)) ∧
    (∀ (mem : Mem) (iov : List IoVec) (offset : Nat) (buf : List UInt8) (bytes : Nat),
      (iovAddrs iov).Nodup → bytes ≤ buf.length →
      iovFlat (iovFromBufFull mem iov offset buf bytes).1 iov =
          (iovFlat mem iov).take offset ++ buf.take (iovSpan iov offset bytes) ++
            (iovFlat mem iov).drop (offset + iovSpan iov offset bytes) ∧
        (∀ x, x ∉ iovWindow iov offset bytes → (iovFromBufFull mem iov offset buf bytes).1 x = mem x) ∧
        (iovFromBufFull mem iov offset buf bytes).2 = iovSpan iov offset bytes) ∧
    (∀ (mem : Mem) (iov : List IoVec) (offset : Nat) (fillc : UInt8) (bytes : Nat),
      (iovAddrs iov).Nodup →
      iovFlat (iovMemset mem iov offset fillc bytes).1 iov =
          (iovFlat mem iov).take offset ++ List.replicate (iovSpan iov offset bytes) fillc ++
            (iovFlat mem iov).drop (offset + iovSpan iov offset bytes) ∧
        (∀ x, x ∉ iovWindow iov offset bytes → (iovMemset mem iov offset fillc bytes).1 x = mem x) ∧
        (iovMemset mem iov offset fillc bytes).2 = iovSpan iov offset bytes) ∧
    (∀ (dstIovCnt : Nat) (iov : List IoVec) (offset bytes : Nat),
      (iovCopy dstIovCnt iov offset bytes).length ≤ dstIovCnt ∧
      iovAddrs (iovCopy dstIovCnt iov offset bytes) <+: iovWindow iov offset bytes ∧
      ((iovCopy dstIovCnt iov offset bytes).length < dstIovCnt →
        iovAddrs (iovCopy dstIovCnt iov offset bytes) = iovWindow iov offset bytes)) ∧
    (∀ (dst : QEMUIOVector) (srcIov : List IoVec) (soffset sbytes : Nat), ∃ new : List IoVec,
      (qemuIovecConcatIov dst srcIov soffset sbytes).1.elems = dst.elems ++ new ∧
      iovAddrs new = iovWindow srcIov soffset sbytes ∧
      (qemuIovecConcatIov dst srcIov soffset sbytes).2 = iovSpan srcIov soffset sbytes) ∧
    (∀ (qiov : QEMUIOVector) (offset len : Nat), qiov.Valid → offset + len ≤ qiov.size →
      ∃ start head tail niov, qemuIovecSlice qiov offset len = some (start, head, tail, niov) ∧
        start + niov ≤ qiov.elems.length ∧
        iovSize ((qiov.elems.drop start).take niov) = head + len + tail ∧
        iovWindow ((qiov.elems.drop start).take niov) head len = iovWindow qiov.elems offset len) ∧
    (∀ (source : QEMUIOVector) (offset len : Nat), source.Valid → offset + len ≤ source.size →
      ∃ q, qemuIovecInitSlice source offset len = some q ∧ q.Valid ∧
        iovAddrs q.elems = iovWindow source.elems offset len ∧ q.size = len) := by
  refine ⟨?toBuf, ?fromBuf, ?memset, iovCopy_capacity, ?concat, qemuIovecSlice_spec, qemuIovecInitSlice_spec⟩
  case toBuf =>
    intro mem iov offset bytes
    rw [iovToBufFull_eq, map_iovWindow]
  case fromBuf =>
    intro mem iov offset buf bytes hnd hbuf
    have hk : (buf.take (iovSpan iov offset bytes)).length = iovSpan iov offset bytes := by
      have hle : iovSpan iov offset bytes ≤ bytes := Nat.min_le_left _ _
      rw [List.length_take, Nat.min_eq_left (Nat.le_trans hle hbuf)]
    -- only the first `k` bytes of `buf` reach the window
    have hwrite : writeList mem (iovWindow iov offset bytes) buf =
        writeList mem (iovWindow iov offset bytes) (buf.take (iovSpan iov offset bytes)) := by
      rw [← length_iovWindow, writeList_take_right]
    rw [iovFromBufFull_eq, hwrite]
    exact ⟨iovFlat_writeList_window mem offset bytes hnd hk,
      fun x hx => writeList_of_not_mem mem _ hx, rfl⟩
  case memset =>
    intro mem iov offset fillc bytes hnd
    rw [iovMemset_eq]
    exact ⟨iovFlat_writeList_window mem offset bytes hnd (List.length_replicate ..),
      fun x hx => writeList_of_not_mem mem _ hx, rfl⟩
  case concat =>
    intro dst srcIov soffset sbytes
    obtain ⟨new, he, ha, -, -, hret, -⟩ := qemuIovecConcatIov_spec dst srcIov soffset sbytes
    exact ⟨new, he, ha, hret⟩

theorem iov_flattened_copies_scatter :
    (iovAddrs [⟨0, 2⟩, ⟨10, 3⟩]).Nodup ∧ 3 ≤ ([7, 8, 9] : List UInt8).length ∧
      iovFlat (iovFromBufFull (fun _ => 0) [⟨0, 2⟩, ⟨10, 3⟩] 1 [7, 8, 9] 3).1 [⟨0, 2⟩, ⟨10, 3⟩] =
        [0, 7, 8, 9, 0] := by
  have hnd : (iovAddrs [⟨0, 2⟩, ⟨10, 3⟩]).Nodup := by decide
  have hlen : 3 ≤ ([7, 8, 9] : List UInt8).length := by decide
  refine ⟨hnd, hlen, ?_⟩
  rw [(iov_flattened_copies.2.1 (fun _ => 0) [⟨0, 2⟩, ⟨10, 3⟩] 1 [7, 8, 9] 3 hnd hlen).1]
  decide

/-! ## Discarding bytes in place -/

theorem drop_set_self {l : List IoVec} {i : Nat} (x : IoVec) (h : i < l.length) :
    (l.set i x).drop i = x :: l.drop (i + 1) := by
  rw [List.drop_set, if_neg (Nat.lt_irrefl i), Nat.sub_self, List.drop_eq_getElem_cons h, List.set_cons_zero]

/-- The live elements from index `cur`: the element there, then the rest. -/
theorem drop_take_succ {arr : List IoVec} {cur : Nat} (n : Nat) (h : cur < arr.length) :
    (arr.drop cur).take (n + 1) = arr.getD cur ⟨0, 0⟩ :: (arr.drop (cur + 1)).take n := by
  rw [List.drop_eq_getElem_cons h, List.take_succ_cons, List.getD_eq_getElem _ _ h]

/-- The live elements up to index `start + n`: those before it, then it. -/
theorem drop_take_succ_last {arr : List IoVec} {start n : Nat} (h : start + n < arr.length) :
    (arr.drop start).take (n + 1) = (arr.drop start).take n ++ [arr.getD (start + n) ⟨0, 0⟩] := by
  rw [List.take_add_one, List.getElem?_drop, List.getElem?_eq_getElem h, List.getD_eq_getElem _ _ h]
  rfl

/-- How a discard leaves the array: as it was, with the undo record as it
was, or with one element `i` in `[lo, hi)` replaced and the record naming
`i` and its old value. -/
def DiscardEdit (arr arr' : List IoVec) (undo undo' : IOVDiscardUndo) (lo hi : Nat) : Prop :=
  (arr' = arr ∧ undo' = undo) ∨
    ∃ i x, lo ≤ i ∧ i < hi ∧ arr' = arr.set i x ∧ undo' = ⟨some i, arr.getD i ⟨0, 0⟩⟩

theorem DiscardEdit.widen {arr arr' : List IoVec} {undo undo' : IOVDiscardUndo} {lo hi lo' hi' : Nat}
    (h : DiscardEdit arr arr' undo undo' lo hi) (hlo : lo' ≤ lo) (hhi : hi ≤ hi') :
    DiscardEdit arr arr' undo undo' lo' hi' := by
  rcases h with h | ⟨i, x, hi₁, hi₂, harr, hundo⟩
  · exact Or.inl h
  · exact Or.inr ⟨i, x, Nat.le_trans hlo hi₁, Nat.lt_of_lt_of_le hi₂ hhi, harr, hundo⟩

/-- Every element but the one the record names is as it was, and
`iov_discard_undo` restores that one. -/
theorem DiscardEdit.restore {arr arr' : List IoVec} {orig : IoVec} {undo' : IOVDiscardUndo} {lo hi : Nat}
    (h : DiscardEdit arr arr' ⟨none, orig⟩ undo' lo hi) (hhi : hi ≤ arr.length) :
    (∀ i, undo'.modifiedIov ≠ some i → arr'[i]? = arr[i]?) ∧ iovDiscardUndo arr' undo' = arr := by
  rcases h with ⟨rfl, rfl⟩ | ⟨i, x, -, hi, rfl, rfl⟩
  · exact ⟨fun _ _ => rfl, rfl⟩
  · refine ⟨fun j hj => List.getElem?_set_ne (fun hij => hj (congrArg some hij)), ?_⟩
    have hlt : i < arr.length := Nat.lt_of_lt_of_le hi hhi
    simp only [iovDiscardUndo]
    rw [List.set_set, List.getD_eq_getElem _ _ hlt, List.set_getElem_self]

/-- The loop of `iov_discard_front_undoable`: it discards `min bytes S`
bytes off the front of the live elements, moving the first live index
on past the elements it drops whole and trimming at most one. -/
theorem iovDiscardFrontLoop_spec (arr : List IoVec) (undo : IOVDiscardUndo) :
    ∀ (cnt cur bytes total : Nat) arr' cur' cnt' undo' total', cur + cnt ≤ arr.length →
      iovDiscardFrontLoop arr cur undo cnt bytes total = (arr', cur', cnt', undo', total') →
      total' = total + min bytes (iovSize ((arr.drop cur).take cnt)) ∧
      cur' + cnt' = cur + cnt ∧ cur ≤ cur' ∧
      iovAddrs ((arr'.drop cur').take cnt') = (iovAddrs ((arr.drop cur).take cnt)).drop bytes ∧
      DiscardEdit arr arr' undo undo' cur (cur + cnt) := by
  intro cnt
  induction cnt with
  | zero =>
    intro cur bytes total arr' cur' cnt' undo' total' _ hrun
    simp only [iovDiscardFrontLoop, Prod.mk.injEq] at hrun
    obtain ⟨rfl, rfl, rfl, rfl, rfl⟩ := hrun
    simp [DiscardEdit]
  | succ cnt ih =>
    intro cur bytes total arr' cur' cnt' undo' total' hlen hrun
    have hcur : cur < arr.length := by omega
    rw [drop_take_succ cnt hcur]
    rw [iovDiscardFrontLoop] at hrun
    split_ifs at hrun with htrim
    · -- the first live element is longer than what is left: trim it in place
      simp only [Prod.mk.injEq] at hrun
      obtain ⟨rfl, rfl, rfl, rfl, rfl⟩ := hrun
      refine ⟨by rw [iovSize]; omega, rfl, Nat.le_refl _, ?_, ?_⟩
      · rw [drop_set_self _ hcur, List.take_succ_cons, iovAddrs_cons, iovAddrs, iovAddrs,
          drop_addrs_cons_of_lt _ _ _ htrim]
      · exact Or.inr ⟨cur, _, Nat.le_refl _, by omega, rfl, rfl⟩
    · -- it is dropped whole
      obtain ⟨htot, hcnt, hle, haddrs, hedit⟩ := ih (cur + 1) _ _ _ _ _ _ _ (by omega) hrun
      refine ⟨by rw [htot, iovSize]; omega, by omega, by omega, ?_,
        hedit.widen (Nat.le_succ cur) (by omega)⟩
      rw [haddrs, iovAddrs, iovAddrs, drop_addrs_cons_of_le _ _ _ (Nat.le_of_not_lt htrim)]

/-- The live elements once the last of them is replaced. -/
theorem drop_take_succ_set_last {arr : List IoVec} {start n : Nat} (x : IoVec) (h : start + n < arr.length) :
    ((arr.set (start + n) x).drop start).take (n + 1) = (arr.drop start).take n ++ [x] := by
  have hlen : start + n < (arr.set (start + n) x).length := by rw [List.length_set]; exact h
  rw [drop_take_succ_last hlen, List.getD_eq_getElem _ _ hlen, List.getElem_set_self, List.drop_set,
    if_neg (by omega), List.take_set, List.set_eq_of_length_le (by simp)]

/-- The loop of `iov_discard_back_undoable`: it discards `min bytes S`
bytes off the back of the live elements, dropping whole elements from
the end and trimming at most one. -/
theorem iovDiscardBackLoop_spec (arr : List IoVec) (start : Nat) (undo : IOVDiscardUndo) :
    ∀ (cnt bytes total : Nat) arr' cnt' undo' total', start + cnt ≤ arr.length →
      iovDiscardBackLoop arr start undo cnt bytes total = (arr', cnt', undo', total') →
      total' = total + min bytes (iovSize ((arr.drop start).take cnt)) ∧ cnt' ≤ cnt ∧
      iovAddrs ((arr'.drop start).take cnt') =
        (iovAddrs ((arr.drop start).take cnt)).take
          (iovSize ((arr.drop start).take cnt) - min bytes (iovSize ((arr.drop start).take cnt))) ∧
      DiscardEdit arr arr' undo undo' start (start + cnt) := by
  intro cnt
  induction cnt with
  | zero =>
    intro bytes total arr' cnt' undo' total' _ hrun
    simp only [iovDiscardBackLoop, Prod.mk.injEq] at hrun
    obtain ⟨rfl, rfl, rfl, rfl⟩ := hrun
    simp [DiscardEdit]
  | succ cnt ih =>
    intro bytes total arr' cnt' undo' total' hlen hrun
    have hlast : start + cnt < arr.length := by omega
    rw [drop_take_succ_last hlast, iovSize_append, iovSize_singleton, iovAddrs_append]
    rw [iovDiscardBackLoop] at hrun
    split_ifs at hrun with htrim
    · -- the last live element is longer than what is left: trim it in place
      simp only [Prod.mk.injEq] at hrun
      obtain ⟨rfl, rfl, rfl, rfl⟩ := hrun
      refine ⟨by omega, Nat.le_refl _, ?_, Or.inr ⟨start + cnt, _, by omega, by omega, rfl, rfl⟩⟩
      have hkeep : iovSize ((arr.drop start).take cnt) + (arr.getD (start + cnt) ⟨0, 0⟩).len -
          min bytes (iovSize ((arr.drop start).take cnt) + (arr.getD (start + cnt) ⟨0, 0⟩).len) =
          iovSize ((arr.drop start).take cnt) + ((arr.getD (start + cnt) ⟨0, 0⟩).len - bytes) := by
        omega
      rw [drop_take_succ_set_last _ hlast, hkeep, iovAddrs_append, iovAddrs_cons, iovAddrs_cons, iovAddrs_nil,
        List.append_nil, List.append_nil, ← length_iovAddrs, take_append_range' _ _ (Nat.sub_le _ _)]
    · -- it is dropped whole
      obtain ⟨htot, hcnt, haddrs, hedit⟩ := ih _ _ _ _ _ _ (by omega) hrun
      refine ⟨by rw [htot]; omega, by omega, ?_, hedit.widen (Nat.le_refl _) (by omega)⟩
      rw [haddrs, iovAddrs_cons, iovAddrs_nil, List.append_nil,
        List.take_append_of_le_length (by rw [length_iovAddrs]; omega)]
      congr 1
      omega

/-- `qemu_iovec_discard_back` drops the last `bytes` bytes and keeps the
vector well formed. -/
theorem qemuIovecDiscardBack_spec (qiov : QEMUIOVector) (bytes : Nat) (hv : qiov.Valid) (h : bytes ≤ qiov.size) :
    ∃ q', qemuIovecDiscardBack qiov bytes = some q' ∧ q'.Valid ∧
      iovAddrs q'.elems = (iovAddrs qiov.elems).take (qiov.size - bytes) := by
  generalize hrun : iovDiscardBackUndoable qiov.iov 0 qiov.niov bytes = r
  obtain ⟨arr', cnt', undo', total'⟩ := r
  obtain ⟨htot, hcnt, haddrs, hedit⟩ :=
    iovDiscardBackLoop_spec qiov.iov 0 _ qiov.niov bytes 0 arr' cnt' undo' total' (by simpa using hv.1) hrun
  simp only [List.drop_zero, Nat.zero_add] at htot haddrs hedit
  rw [← QEMUIOVector.elems, ← hv.2, Nat.min_eq_left h] at htot haddrs
  have hlen : arr'.length = qiov.iov.length := by
    rcases hedit with ⟨rfl, -⟩ | ⟨i, x, -, -, rfl, -⟩
    · rfl
    · exact List.length_set
  refine ⟨⟨arr', cnt', qiov.size - bytes⟩, ?_, ⟨?_, ?_⟩, haddrs⟩
  · simp only [qemuIovecDiscardBack, if_neg (Nat.not_lt_of_le h), hrun, htot, ne_eq, not_true_eq_false,
      if_false]
  · show cnt' ≤ arr'.length
    have := hv.1
    omega
  · show qiov.size - bytes = iovSize (arr'.take cnt')
    rw [← length_iovAddrs, haddrs, List.length_take, length_iovAddrs, ← hv.2]
    omega

theorem iov_discard_undoable :
    (∀ (arr : List IoVec) (start iovCnt bytes : Nat) (arr' : List IoVec) (start' iovCnt' : Nat)
        (undo : IOVDiscardUndo) (total : Nat),
      start + iovCnt ≤ arr.length →
      iovDiscardFrontUndoable arr start iovCnt bytes = (arr', start', iovCnt', undo, total) →
      total = min bytes (iovSize ((arr.drop start).take iovCnt)) ∧
      start ≤ start' ∧ start' + iovCnt' = start + iovCnt ∧
      iovAddrs ((arr'.drop start').take iovCnt') = (iovAddrs ((arr.drop start).take iovCnt)).drop total ∧
      (∀ i, undo.modifiedIov ≠ some i → arr'[i]? = arr[i]?) ∧
      iovDiscardUndo arr' undo = arr) ∧
    (∀ (arr : List IoVec) (start iovCnt bytes : Nat) (arr' : List IoVec) (iovCnt' : Nat)
        (undo : IOVDiscardUndo) (total : Nat),
      start + iovCnt ≤ arr.length →
      iovDiscardBackUndoable arr start iovCnt bytes = (arr', iovCnt', undo, total) →
      total = min bytes (iovSize ((arr.drop start).take iovCnt)) ∧ iovCnt' ≤ iovCnt ∧
      iovAddrs ((arr'.drop start).take iovCnt') =
        (iovAddrs ((arr.drop start).take iovCnt)).take (iovSize ((arr.drop start).take iovCnt) - total) ∧
      (∀ i, undo.modifiedIov ≠ some i → arr'[i]? = arr[i]?) ∧
      iovDiscardUndo arr' undo = arr) ∧
    (∀ (qiov : QEMUIOVector) (bytes : Nat), qiov.Valid → bytes ≤ qiov.size →
      ∃ q', qemuIovecDiscardBack qiov bytes = some q' ∧ q'.Valid ∧
        iovAddrs q'.elems = (iovAddrs qiov.elems).take (qiov.size - bytes)) := by
  refine ⟨?front, ?back, qemuIovecDiscardBack_spec⟩
  case front =>
    intro arr start iovCnt bytes arr' start' iovCnt' undo total hlen hrun
    obtain ⟨htot, hcnt, hle, haddrs, hedit⟩ :=
      iovDiscardFrontLoop_spec arr _ iovCnt start bytes 0 arr' start' iovCnt' undo total hlen hrun
    rw [Nat.zero_add] at htot
    -- dropping `bytes` or `min bytes S` bytes off the front is the same
    have hdrop : (iovAddrs ((arr.drop start).take iovCnt)).drop bytes =
        (iovAddrs ((arr.drop start).take iovCnt)).drop total := by
      rw [htot]
      rcases Nat.le_total bytes (iovSize ((arr.drop start).take iovCnt)) with hle' | hge'
      · rw [Nat.min_eq_left hle']
      · rw [Nat.min_eq_right hge', List.drop_eq_nil_of_le (by rw [length_iovAddrs]; exact hge'),
          List.drop_eq_nil_of_le (by rw [length_iovAddrs])]
    obtain ⟨hframe, hundo⟩ := hedit.restore hlen
    exact ⟨htot, hle, hcnt, haddrs.trans hdrop, hframe, hundo⟩
  case back =>
    intro arr start iovCnt bytes arr' iovCnt' undo total hlen hrun
    obtain ⟨htot, hcnt, haddrs, hedit⟩ :=
      iovDiscardBackLoop_spec arr start _ iovCnt bytes 0 arr' iovCnt' undo total hlen hrun
    rw [Nat.zero_add] at htot
    obtain ⟨hframe, hundo⟩ := hedit.restore hlen
    exact ⟨htot, hcnt, htot ▸ haddrs, hframe, hundo⟩

theorem iov_discard_undoable_front :
    0 + 2 ≤ [(⟨0, 4⟩ : IoVec), ⟨10, 4⟩].length ∧
      iovDiscardFrontUndoable [⟨0, 4⟩, ⟨10, 4⟩] 0 2 5 = ([⟨0, 4⟩, ⟨11, 3⟩], 1, 1, ⟨some 1, ⟨10, 4⟩⟩, 5) ∧
      iovDiscardUndo [⟨0, 4⟩, ⟨11, 3⟩] ⟨some 1, ⟨10, 4⟩⟩ = [⟨0, 4⟩, ⟨10, 4⟩] := by
  have hlen : 0 + 2 ≤ [(⟨0, 4⟩ : IoVec), ⟨10, 4⟩].length := by decide
  have hrun : iovDiscardFrontUndoable [⟨0, 4⟩, ⟨10, 4⟩] 0 2 5 =
      ([⟨0, 4⟩, ⟨11, 3⟩], 1, 1, ⟨some 1, ⟨10, 4⟩⟩, 5) := by decide
  exact ⟨hlen, hrun, (iov_discard_undoable.1 _ 0 2 5 _ 1 1 _ 5 hlen hrun).2.2.2.2.2⟩

/-! ## `qemu_iovec_clone` -/

theorem mem_iovAddrs {x : Nat} {l : List IoVec} : x ∈ iovAddrs l ↔ ∃ e ∈ l, e.base ≤ x ∧ x < e.base + e.len := by
  simp only [iovAddrs, addrs, List.mem_flatMap, List.mem_range'_1]

/-- The distinct source bytes of sort records. -/
def sortBytes (l : List IOVectorSortElem) : Finset Nat := (iovAddrs (l.map (·.srcIov))).toFinset

theorem sortBytes_cons (s : IOVectorSortElem) (l : List IOVectorSortElem) :
    sortBytes (s :: l) = Finset.Ico s.srcIov.base (s.srcIov.base + s.srcIov.len) ∪ sortBytes l := by
  have hrange : (List.range' s.srcIov.base s.srcIov.len).toFinset =
      Finset.Ico s.srcIov.base (s.srcIov.base + s.srcIov.len) := by
    ext x
    simp only [List.mem_toFinset, List.mem_range'_1, Finset.mem_Ico]
  rw [sortBytes, List.map_cons, iovAddrs_cons, List.toFinset_append, hrange]
  rfl

/-- What the allocation loop keeps of the source bytes `P` it has placed:
all lie below `lastEnd`, and every byte from `lo` up to `lastEnd` is one
of them. -/
structure CloneAllocInv (P : Finset Nat) (lastEnd lo : Nat) : Prop where
  lt_lastEnd : ∀ x ∈ P, x < lastEnd
  mem_of_between : ∀ x, lo ≤ x → x < lastEnd → x ∈ P

section CloneAlloc

variable {P : Finset Nat} {lastEnd lo b : Nat}

/-- From a base at or above `lo`, the placed bytes are `[b, lastEnd)`. -/
theorem CloneAllocInv.filter_ge (h : CloneAllocInv P lastEnd lo) (hb : lo ≤ b) :
    P.filter (fun x => ¬x < b) = Finset.Ico b lastEnd := by
  ext x
  simp only [Finset.mem_filter, Finset.mem_Ico, Nat.not_lt]
  constructor
  · rintro ⟨hx, hbx⟩
    exact ⟨hbx, h.lt_lastEnd x hx⟩
  · rintro ⟨hbx, hx⟩
    exact ⟨h.mem_of_between x (Nat.le_trans hb hbx) hx, hbx⟩

/-- The rewind is the number of placed bytes at or above the base. -/
theorem CloneAllocInv.rank_add (h : CloneAllocInv P lastEnd lo) (hb : lo ≤ b) :
    Rank.rank P b + (lastEnd - b) = P.card := by
  rw [Rank.rank, ← Nat.card_Ico b lastEnd, ← h.filter_ge hb, Finset.card_filter_add_card_filter_not]

/-- Placing `[b, b + len)` adds the bytes of it past `lastEnd`. -/
theorem CloneAllocInv.card_union (h : CloneAllocInv P lastEnd lo) (hb : lo ≤ b) (len : Nat) :
    (P ∪ Finset.Ico b (b + len)).card = P.card + (len - min (lastEnd - b) len) := by
  have hinter : P ∩ Finset.Ico b (b + len) = Finset.Ico b (min lastEnd (b + len)) := by
    rw [← Finset.filter_mem_eq_inter]
    ext x
    simp only [Finset.mem_filter, Finset.mem_Ico]
    constructor
    · rintro ⟨hx, hbx, hxl⟩
      exact ⟨hbx, Nat.lt_min.mpr ⟨h.lt_lastEnd x hx, hxl⟩⟩
    · rintro ⟨hbx, hx⟩
      rw [Nat.lt_min] at hx
      exact ⟨h.mem_of_between x (Nat.le_trans hb hbx) hx.1, hbx, hx.2⟩
  have hsum := Finset.card_union_add_card_inter P (Finset.Ico b (b + len))
  rw [hinter, Nat.card_Ico, Nat.card_Ico] at hsum
  omega

theorem CloneAllocInv.step (h : CloneAllocInv P lastEnd lo) (hb : lo ≤ b) (len : Nat) :
    CloneAllocInv (P ∪ Finset.Ico b (b + len)) (max (b + len) lastEnd) b := by
  refine ⟨?_, ?_⟩
  · intro x hx
    rw [Finset.mem_union, Finset.mem_Ico] at hx
    rcases hx with hx | hx
    · exact Nat.lt_of_lt_of_le (h.lt_lastEnd x hx) (Nat.le_max_right _ _)
    · exact Nat.lt_of_lt_of_le hx.2 (Nat.le_max_left _ _)
  · intro x hbx hx
    rw [Finset.mem_union, Finset.mem_Ico]
    by_cases hxl : x < b + len
    · exact Or.inr ⟨hbx, hxl⟩
    · exact Or.inl (h.mem_of_between x (Nat.le_trans hb hbx) (by omega))

end CloneAlloc

/-- `last_end && last_end > cur->iov_base ? last_end - cur->iov_base : 0`
is the truncated difference: a `NULL` `last_end` is `0`, below every base. -/
theorem cloneRewind_eq (lastEnd b : Nat) :
    (if lastEnd ≠ 0 ∧ lastEnd > b then lastEnd - b else 0) = lastEnd - b := by
  split_ifs with h
  · rfl
  · omega

/-- The allocation loop, over records sorted by base, gives each record
the destination `b0` plus the rank of its base among all the source
bytes, those placed before it and its own and later ones. -/
theorem qemuIovecCloneAlloc_eq (b0 : Nat) :
    ∀ (l : List IOVectorSortElem) (P : Finset Nat) (buf lastEnd lo : Nat),
      l.Pairwise (fun a b => a.srcIov.base ≤ b.srcIov.base) → (∀ s ∈ l, lo ≤ s.srcIov.base) →
      CloneAllocInv P lastEnd lo → buf = b0 + P.card →
      qemuIovecCloneAlloc l buf lastEnd =
        l.map fun s => { s with destBase := b0 + Rank.rank (P ∪ sortBytes l) s.srcIov.base } := by
  intro l
  induction l with
  | nil => intro P buf lastEnd lo _ _ _ _; rfl
  | cons s rest ih =>
    intro P buf lastEnd lo hsorted hlo hinv hbuf
    obtain ⟨hhead, hrest⟩ := List.pairwise_cons.mp hsorted
    have hb : lo ≤ s.srcIov.base := hlo s List.mem_cons_self
    -- every source byte of `s` and of the records after it lies at or above its base
    have habove : ∀ x ∈ sortBytes (s :: rest), s.srcIov.base ≤ x := by
      intro x hx
      rw [sortBytes, List.mem_toFinset, mem_iovAddrs] at hx
      obtain ⟨e, he, hex, -⟩ := hx
      rw [List.map_cons, List.mem_cons] at he
      rcases he with rfl | he
      · exact hex
      · obtain ⟨s', hs', rfl⟩ := List.mem_map.mp he
        exact Nat.le_trans (hhead s' hs') hex
    have hrank := hinv.rank_add hb
    have hunion : P ∪ Finset.Ico s.srcIov.base (s.srcIov.base + s.srcIov.len) ∪ sortBytes rest =
        P ∪ sortBytes (s :: rest) := by
      rw [sortBytes_cons, Finset.union_assoc]
    rw [qemuIovecCloneAlloc, List.map_cons]
    rw [cloneRewind_eq, ih _ _ _ s.srcIov.base hrest hhead (hinv.step hb s.srcIov.len)
      (by rw [hinv.card_union hb, hbuf, Nat.add_assoc]), hunion, Rank.rank_union_of_le habove]
    congr 2
    omega

/-- A vector's sort records: each names an element by its index. -/
theorem mem_qemuIovecSortElems {src : QEMUIOVector} {x : IOVectorSortElem} :
    x ∈ qemuIovecSortElems src ↔ src.elems[x.srcIndex]? = some x.srcIov ∧ x.destBase = 0 := by
  simp only [qemuIovecSortElems, List.mem_map, List.mem_zipIdx_iff_getElem?]
  constructor
  · rintro ⟨⟨e, i⟩, hei, rfl⟩
    exact ⟨hei, rfl⟩
  · rintro ⟨h, hd⟩
    refine ⟨⟨x.srcIov, x.srcIndex⟩, h, ?_⟩
    cases x
    simp_all

theorem qemuIovecSortElems_srcIov (src : QEMUIOVector) : (qemuIovecSortElems src).map (·.srcIov) = src.elems := by
  rw [qemuIovecSortElems, List.map_map]
  exact List.zipIdx_map_fst 0 src.elems

/-- The records come in index order. -/
theorem qemuIovecSortElems_pairwise (src : QEMUIOVector) :
    (qemuIovecSortElems src).Pairwise fun a b => a.srcIndex < b.srcIndex := by
  rw [List.pairwise_iff_getElem]
  intro i j hi hj hij
  simp only [qemuIovecSortElems, List.getElem_map, List.getElem_zipIdx, Nat.zero_add]
  exact hij

section Resort

variable (src : QEMUIOVector) (f : Nat → Nat)

/-- Sorting the placed records back by index gives them in index order,
whatever order the sort by base left them in. -/
theorem mergeSort_srcIndex_eq {sorted : List IOVectorSortElem} (hperm : sorted.Perm (qemuIovecSortElems src)) :
    (sorted.map fun s => { s with destBase := f s.srcIov.base }).mergeSort
        (fun a b => decide (a.srcIndex ≤ b.srcIndex)) =
      (qemuIovecSortElems src).map fun s => { s with destBase := f s.srcIov.base } := by
  have hperm' := (hperm.map fun s => { s with destBase := f s.srcIov.base })
  -- placed records with the same index are the same record
  have hinj : ∀ a ∈ (qemuIovecSortElems src).map fun s => { s with destBase := f s.srcIov.base },
      ∀ b ∈ (qemuIovecSortElems src).map fun s => { s with destBase := f s.srcIov.base },
      a.srcIndex = b.srcIndex → a = b := by
    intro a ha b hb hab
    obtain ⟨a₀, ha₀, rfl⟩ := List.mem_map.mp ha
    obtain ⟨b₀, hb₀, rfl⟩ := List.mem_map.mp hb
    rw [mem_qemuIovecSortElems] at ha₀ hb₀
    have hiov : a₀.srcIov = b₀.srcIov := by
      dsimp only at hab
      rw [hab] at ha₀
      exact Option.some.inj (ha₀.1.symm.trans hb₀.1)
    dsimp only at hab ⊢
    rw [hab, hiov]
  refine List.Perm.eq_of_pairwise ?_
    (List.pairwise_mergeSort (fun a b c hab hbc => by simp only [decide_eq_true_eq] at *; omega)
      (fun a b => by simp only [Bool.or_eq_true, decide_eq_true_eq]; omega) _) ?_
    ((List.mergeSort_perm _ _).trans hperm')
  · intro a b ha hb hab hba
    simp only [decide_eq_true_eq] at hab hba
    exact hinj a (((List.mergeSort_perm _ _).trans hperm').subset ha) b hb (Nat.le_antisymm hab hba)
  · rw [List.pairwise_map]
    exact (qemuIovecSortElems_pairwise src).imp fun h => by simp only [decide_eq_true_eq]; exact Nat.le_of_lt h

end Resort

/-- `qemu_iovec_clone`, whatever order the sort by base returns: element
`i` of the clone has the length of source element `i` and starts at `buf`
plus the rank of its base among the distinct source bytes. -/
theorem qemuIovecCloneWith_eq (src : QEMUIOVector) {sorted : List IOVectorSortElem} (buf : Nat)
    (hperm : sorted.Perm (qemuIovecSortElems src))
    (hsorted : sorted.Pairwise fun a b => a.srcIov.base ≤ b.srcIov.base) :
    qemuIovecCloneWith src sorted buf =
      src.elems.map fun e => ⟨buf + Rank.rank (iovAddrs src.elems).toFinset e.base, e.len⟩ := by
  have hbytes : sortBytes sorted = (iovAddrs src.elems).toFinset := by
    rw [sortBytes, ← qemuIovecSortElems_srcIov src]
    exact List.toFinset_eq_of_perm _ _ ((hperm.map _).flatMap_right _)
  have halloc := qemuIovecCloneAlloc_eq buf sorted ∅ buf 0 0 hsorted (fun _ _ => Nat.zero_le _)
    ⟨fun _ hx => absurd hx (Finset.notMem_empty _), fun _ _ h => absurd h (Nat.not_lt_zero _)⟩ rfl
  rw [Finset.empty_union, hbytes] at halloc
  rw [qemuIovecCloneWith, halloc,
    mergeSort_srcIndex_eq src (fun x => buf + Rank.rank (iovAddrs src.elems).toFinset x) hperm, qemuIovecSortElems,
    List.map_map,
    List.map_map]
  generalize (iovAddrs src.elems).toFinset = U
  conv_rhs => rw [← List.zipIdx_map_fst 0 src.elems, List.map_map]
  apply List.map_congr_left
  rintro ⟨e, i⟩ hei
  rw [List.mem_zipIdx_iff_getElem?] at hei
  simp only [Function.comp_apply, List.getD_eq_getElem?_getD, hei, Option.getD_some]

section CloneBytes

variable {src : QEMUIOVector} {i a : Nat}

/-- A byte of a source element is a source byte. -/
theorem elem_add_mem_bytes (hi : i < src.elems.length) (ha : a < (src.elems.getD i ⟨0, 0⟩).len) :
    (src.elems.getD i ⟨0, 0⟩).base + a ∈ (iovAddrs src.elems).toFinset := by
  rw [List.getD_eq_getElem _ _ hi] at ha ⊢
  rw [List.mem_toFinset, mem_iovAddrs]
  exact ⟨_, List.getElem_mem hi, Nat.le_add_right _ _, Nat.add_lt_add_left ha _⟩

/-- Byte `a` of clone element `i` is `buf` plus the rank of byte `a` of
source element `i`. -/
theorem qemuIovecCloneWith_getD_add {sorted : List IOVectorSortElem} (buf : Nat)
    (hperm : sorted.Perm (qemuIovecSortElems src))
    (hsorted : sorted.Pairwise fun a b => a.srcIov.base ≤ b.srcIov.base)
    (hi : i < src.elems.length) (ha : a < (src.elems.getD i ⟨0, 0⟩).len) :
    ((qemuIovecCloneWith src sorted buf).getD i ⟨0, 0⟩).base + a =
      buf + Rank.rank (iovAddrs src.elems).toFinset ((src.elems.getD i ⟨0, 0⟩).base + a) := by
  -- the bytes of the element up to `a` are source bytes, so the rank counts up along them
  have hsub : Finset.Ico (src.elems.getD i ⟨0, 0⟩).base ((src.elems.getD i ⟨0, 0⟩).base + a) ⊆
      (iovAddrs src.elems).toFinset := by
    intro x hx
    rw [Finset.mem_Ico, List.getD_eq_getElem _ _ hi] at hx
    rw [List.getD_eq_getElem _ _ hi] at ha
    rw [List.mem_toFinset, mem_iovAddrs]
    exact ⟨_, List.getElem_mem hi, hx.1, by omega⟩
  have hlen : i < (qemuIovecCloneWith src sorted buf).length := by
    rw [qemuIovecCloneWith_eq src buf hperm hsorted, List.length_map]
    exact hi
  rw [Rank.rank_add_of_Ico_subset hsub, List.getD_eq_getElem _ _ hlen, List.getD_eq_getElem _ _ hi]
  simp only [qemuIovecCloneWith_eq src buf hperm hsorted, List.getElem_map]
  omega

end CloneBytes

theorem qemuIovecClone_aliasing (src : QEMUIOVector) (sorted : List IOVectorSortElem) (buf : Nat)
    (hperm : sorted.Perm (qemuIovecSortElems src))
    (hsorted : sorted.Pairwise fun a b => a.srcIov.base ≤ b.srcIov.base) :
    (qemuIovecCloneWith src sorted buf).length = src.elems.length ∧
    (∀ i, i < src.elems.length →
      ((qemuIovecCloneWith src sorted buf).getD i ⟨0, 0⟩).len = (src.elems.getD i ⟨0, 0⟩).len) ∧
    (∀ i j a b, i < src.elems.length → j < src.elems.length →
      a < (src.elems.getD i ⟨0, 0⟩).len → b < (src.elems.getD j ⟨0, 0⟩).len →
      ((src.elems.getD i ⟨0, 0⟩).base + a = (src.elems.getD j ⟨0, 0⟩).base + b ↔
        ((qemuIovecCloneWith src sorted buf).getD i ⟨0, 0⟩).base + a =
          ((qemuIovecCloneWith src sorted buf).getD j ⟨0, 0⟩).base + b)) ∧
    (∀ i a, i < src.elems.length → a < (src.elems.getD i ⟨0, 0⟩).len →
      buf ≤ ((qemuIovecCloneWith src sorted buf).getD i ⟨0, 0⟩).base + a ∧
      ((qemuIovecCloneWith src sorted buf).getD i ⟨0, 0⟩).base + a <
        buf + (iovAddrs src.elems).toFinset.card) := by
  have heq := qemuIovecCloneWith_eq src buf hperm hsorted
  refine ⟨by rw [heq, List.length_map], ?lengths, ?aliasing, ?bounds⟩
  case lengths =>
    intro i hi
    have hlen : i < (qemuIovecCloneWith src sorted buf).length := by rwa [heq, List.length_map]
    rw [List.getD_eq_getElem _ _ hlen, List.getD_eq_getElem _ _ hi]
    simp only [heq, List.getElem_map]
  case aliasing =>
    intro i j a b hi hj ha hb
    rw [qemuIovecCloneWith_getD_add buf hperm hsorted hi ha, qemuIovecCloneWith_getD_add buf hperm hsorted hj hb]
    constructor
    · intro h
      rw [h]
    · intro h
      exact Rank.eq_of_rank_eq (elem_add_mem_bytes hi ha) (elem_add_mem_bytes hj hb) (Nat.add_left_cancel h)
  case bounds =>
    intro i a hi ha
    rw [qemuIovecCloneWith_getD_add buf hperm hsorted hi ha]
    exact ⟨Nat.le_add_right _ _, Nat.add_lt_add_left (Rank.rank_lt_card (elem_add_mem_bytes hi ha)) _⟩

theorem qemuIovecClone_aliasing_overlap :
    (qemuIovecSortElems ⟨[⟨100, 4⟩, ⟨102, 4⟩], 2, 8⟩).Perm (qemuIovecSortElems ⟨[⟨100, 4⟩, ⟨102, 4⟩], 2, 8⟩) ∧
    (qemuIovecSortElems ⟨[⟨100, 4⟩, ⟨102, 4⟩], 2, 8⟩).Pairwise
      (fun a b => a.srcIov.base ≤ b.srcIov.base) ∧
    ((qemuIovecCloneWith ⟨[⟨100, 4⟩, ⟨102, 4⟩], 2, 8⟩ (qemuIovecSortElems ⟨[⟨100, 4⟩, ⟨102, 4⟩], 2, 8⟩) 0).getD
        0 ⟨0, 0⟩).base + 2 =
      ((qemuIovecCloneWith ⟨[⟨100, 4⟩, ⟨102, 4⟩], 2, 8⟩ (qemuIovecSortElems ⟨[⟨100, 4⟩, ⟨102, 4⟩], 2, 8⟩) 0).getD
        1 ⟨0, 0⟩).base + 0 := by
  have hperm := List.Perm.refl (qemuIovecSortElems ⟨[⟨100, 4⟩, ⟨102, 4⟩], 2, 8⟩)
  have hsorted : (qemuIovecSortElems ⟨[⟨100, 4⟩, ⟨102, 4⟩], 2, 8⟩).Pairwise
      (fun a b => a.srcIov.base ≤ b.srcIov.base) := by decide
  refine ⟨hperm, hsorted, ?_⟩
  exact ((qemuIovecClone_aliasing _ _ 0 hperm hsorted).2.2.1 0 1 2 0 (by decide) (by decide) (by decide)
    (by decide)).mp (by decide)

/-- `qemu_iovec_clone` with the sort by base done by `List.mergeSort`. -/
theorem qemuIovecClone_eq (src : QEMUIOVector) (buf : Nat) :
    qemuIovecClone src buf =
      src.elems.map fun e => ⟨buf + Rank.rank (iovAddrs src.elems).toFinset e.base, e.len⟩ := by
  have hsorted := List.pairwise_mergeSort
    (fun a b c (hab : decide (a.srcIov.base ≤ b.srcIov.base) = true) hbc => by
      simp only [decide_eq_true_eq] at *; omega)
    (fun a b => by simp only [Bool.or_eq_true, decide_eq_true_eq]; omega) (qemuIovecSortElems src)
  exact qemuIovecCloneWith_eq src buf (List.mergeSort_perm _ _) (hsorted.imp fun h => of_decide_eq_true h)

end QemuFormal

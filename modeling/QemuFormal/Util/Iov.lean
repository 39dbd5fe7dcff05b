/-
QemuFormal.Util.Iov — I/O vectors, after `util/iov.c`.

An element of an I/O vector (`struct iovec`) is an address and a length;
memory is a byte at every address. Addresses and lengths are natural
numbers: every `size_t` subtraction in these loops is guarded by a
comparison, and every sum is bounded by a byte count the caller passed
or by the size of non-overlapping buffers in the address space, so none
wraps.

* `iovChunkLoop` is the loop `iov_from_buf_full`, `iov_to_buf_full` and
  `iov_memset` share: skip `offset` bytes, then hand each chunk to the
  function's own action until `bytes` bytes are done. Each of the three
  is that loop applied to its action (`memcpy` out of the buffer, into
  the buffer, `memset`).
* `iovCopy` (`iov_copy`) and `qemuIovecConcatIov` (`qemu_iovec_concat_iov`)
  run the same walk with their own stop conditions: `iov_copy` also stops
  when the destination array is full, and `qemu_iovec_concat_iov` tests
  only `done < sbytes`. They keep their own bodies.
* `iovSkipOffset`, `qemuIovecSlice`, `qemuIovecInitSlice` are the sub-vector
  functions; their assertions are modelled (`none`).
* `iovDiscardFrontUndoable`, `iovDiscardBackUndoable`, `iovDiscardUndo`,
  `qemuIovecDiscardBack` work on an array of elements in place: the
  array, the index of the first live element, and the count.
* `qemuIovecClone` allocates destination space for overlapping elements.
  `qsort` is not stable, so `qemuIovecCloneWith` takes the order the sort
  by base address returns; `qemuIovecClone` uses `List.mergeSort`.

`QEMUIOVector` keeps `iov`, `niov` and `size`. Its `nalloc` only feeds the
growth of the array in `qemu_iovec_add` and that function's assertion
that the vector does not wrap an external array; the vectors appended to
here are built by `qemu_iovec_init`, so it is left out.
-/
import QemuFormal.Lib.Scatter
import Mathlib.Data.List.Sort

namespace QemuFormal

/-- `struct iovec`: `iov_base` as an address, and `iov_len`. -/
structure IoVec where
  base : Nat
  len : Nat
  deriving DecidableEq, Repr

/-- Memory: a byte at every address. -/
abbrev Mem := Nat → UInt8

/-- The `len` bytes at `addr`. -/
def memRead (mem : Mem) (addr len : Nat) : List UInt8 := (List.range' addr len).map mem

/-- `memcpy` or `memset` into memory: the bytes written at `addr` on. -/
def memWrite (mem : Mem) (addr : Nat) (bytes : List UInt8) : Mem :=
  Scatter.writeList mem (List.range' addr bytes.length) bytes

/-- `iov_size`. -/
def iovSize : List IoVec → Nat
  | [] => 0
  | e :: rest => e.len + iovSize rest

/-! ## Copies between a vector and a buffer -/

/-- The loop of `iov_from_buf_full`, `iov_to_buf_full` and `iov_memset`:
skip `offset` bytes, then hand `visit` each chunk until `bytes` bytes are
done or the elements run out. `visit s addr done len` is what the function
does with the `len` bytes at `addr`, bytes `done` on of the transfer.
The final state, and `done`. -/
def iovChunkLoop {σ : Type} (visit : σ → Nat → Nat → Nat → σ) :
    List IoVec → (offset bytes done : Nat) → σ → σ × Nat
  | [], _, _, done, s => (s, done)
  | e :: rest, offset, bytes, done, s =>
    if offset = 0 ∧ ¬done < bytes then (s, done)
    else if offset < e.len then
      let len := min (e.len - offset) (bytes - done)
      iovChunkLoop visit rest 0 bytes (done + len) (visit s (e.base + offset) done len)
    else iovChunkLoop visit rest (offset - e.len) bytes done s

/-- `iov_from_buf_full(iov, iov_cnt, offset, buf, bytes)`: memory after the
copies, and the number of bytes copied. -/
def iovFromBufFull (mem : Mem) (iov : List IoVec) (offset : Nat) (buf : List UInt8) (bytes : Nat) :
    Mem × Nat :=
  iovChunkLoop (fun m addr done len => memWrite m addr ((buf.drop done).take len)) iov offset bytes 0 mem

/-- `iov_to_buf_full(iov, iov_cnt, offset, buf, bytes)`: the bytes written
to `buf`, from its start, and their number. -/
def iovToBufFull (mem : Mem) (iov : List IoVec) (offset bytes : Nat) : List UInt8 × Nat :=
  iovChunkLoop (fun out addr _ len => out ++ memRead mem addr len) iov offset bytes 0 []

/-- `iov_memset(iov, iov_cnt, offset, fillc, bytes)`. -/
def iovMemset (mem : Mem) (iov : List IoVec) (offset : Nat) (fillc : UInt8) (bytes : Nat) : Mem × Nat :=
  iovChunkLoop (fun m addr _ len => memWrite m addr (List.replicate len fillc)) iov offset bytes 0 mem

/-- `iov_copy(dst_iov, dst_iov_cnt, iov, iov_cnt, offset, bytes)`: the
elements written to `dst_iov`; their number is the return value. -/
def iovCopy : (dstIovCnt : Nat) → List IoVec → (offset bytes : Nat) → List IoVec
  | _, [], _, _ => []
  | 0, _ :: _, _, _ => []
  | dstIovCnt + 1, e :: rest, offset, bytes =>
    if offset = 0 ∧ bytes = 0 then []
    else if offset ≥ e.len then iovCopy (dstIovCnt + 1) rest (offset - e.len) bytes
    else
      let len := min bytes (e.len - offset)
      ⟨e.base + offset, len⟩ :: iovCopy dstIovCnt rest 0 (bytes - len)

/-! ## `QEMUIOVector` -/

/-- `QEMUIOVector`: the element array, the number of live elements, and
their total length. -/
structure QEMUIOVector where
  iov : List IoVec
  niov : Nat
  size : Nat
  deriving DecidableEq, Repr

/-- The live elements: the first `niov` of the array. -/
def QEMUIOVector.elems (qiov : QEMUIOVector) : List IoVec := qiov.iov.take qiov.niov

/-- `qemu_iovec_init`: an empty vector. -/
def qemuIovecInit : QEMUIOVector := ⟨[], 0, 0⟩

/-- `qemu_iovec_init_buf`: one element. -/
def qemuIovecInitBuf (base len : Nat) : QEMUIOVector := ⟨[⟨base, len⟩], 1, len⟩

/-- `qemu_iovec_add`: append an element. -/
def qemuIovecAdd (qiov : QEMUIOVector) (base len : Nat) : QEMUIOVector :=
  ⟨qiov.elems ++ [⟨base, len⟩], qiov.niov + 1, qiov.size + len⟩

/-- The loop of `qemu_iovec_concat_iov`, with `done` bytes added so far. -/
def qemuIovecConcatLoop (dst : QEMUIOVector) : List IoVec → (soffset sbytes done : Nat) → QEMUIOVector × Nat
  | [], _, _, done => (dst, done)
  | e :: rest, soffset, sbytes, done =>
    if ¬done < sbytes then (dst, done)
    else if soffset < e.len then
      let len := min (e.len - soffset) (sbytes - done)
      qemuIovecConcatLoop (qemuIovecAdd dst (e.base + soffset) len) rest 0 sbytes (done + len)
    else qemuIovecConcatLoop dst rest (soffset - e.len) sbytes done

/-- `qemu_iovec_concat_iov(dst, src_iov, src_cnt, soffset, sbytes)`: the
vector `dst` becomes, and the number of bytes added. -/
def qemuIovecConcatIov (dst : QEMUIOVector) (srcIov : List IoVec) (soffset sbytes : Nat) :
    QEMUIOVector × Nat :=
  if sbytes = 0 then (dst, 0) else qemuIovecConcatLoop dst srcIov soffset sbytes 0

/-- `iov_skip_offset(iov, offset, &remaining_offset)`: the number of
elements skipped, and the offset into the next one. The walk stays inside
the array whenever `offset` is within its size, which is all the callers
allow. -/
def iovSkipOffset : List IoVec → Nat → Nat × Nat
  | [], offset => (0, offset)
  | e :: rest, offset =>
    if offset > 0 ∧ offset ≥ e.len then
      let r := iovSkipOffset rest (offset - e.len)
      (r.1 + 1, r.2)
    else (0, offset)

/-- `qemu_iovec_slice(qiov, offset, len, &head, &tail, &niov)`: the index
of the first element of the slice, `head`, `tail` and `niov`, or `none`
where an assertion fails. -/
def qemuIovecSlice (qiov : QEMUIOVector) (offset len : Nat) : Option (Nat × Nat × Nat × Nat) :=
  if offset + len > qiov.size then none
  else
    let iov := qiov.elems
    let (start, head) := iovSkipOffset iov offset
    let (skipped, tail) := iovSkipOffset (iov.drop start) (head + len)
    if tail > 0 then
      match (iov.drop (start + skipped)).head? with
      | some endIov => if tail < endIov.len then some (start, head, endIov.len - tail, skipped + 1) else none
      | none => none
    else some (start, head, tail, skipped)

/-- `qemu_iovec_init_slice(qiov, source, offset, len)`: the new vector, or
`none` where an assertion fails. -/
def qemuIovecInitSlice (source : QEMUIOVector) (offset len : Nat) : Option QEMUIOVector :=
  if source.size < len ∨ source.size - len < offset then none
  else
    (qemuIovecSlice source offset len).map fun (start, head, _, sliceNiov) =>
      let sliceIov := source.elems.drop start
      if sliceNiov = 1 then qemuIovecInitBuf ((sliceIov.headD ⟨0, 0⟩).base + head) len
      else (qemuIovecConcatIov qemuIovecInit (sliceIov.take sliceNiov) head len).1

/-! ## Discarding bytes in place -/

/-- `IOVDiscardUndo`: the element changed in place (its index in the
array, `NULL` as `none`) and its original value. -/
structure IOVDiscardUndo where
  modifiedIov : Option Nat
  orig : IoVec
  deriving DecidableEq, Repr

/-- `iov_discard_undo`. -/
def iovDiscardUndo (arr : List IoVec) (undo : IOVDiscardUndo) : List IoVec :=
  match undo.modifiedIov with
  | some i => arr.set i undo.orig
  | none => arr

/-- The loop of `iov_discard_front_undoable` from element `cur` on, with
`iovCnt` elements left, `bytes` still to discard and `total` discarded:
the array, the new first element, the count, the undo record, `total`. -/
def iovDiscardFrontLoop (arr : List IoVec) (cur : Nat) (undo : IOVDiscardUndo) :
    (iovCnt bytes total : Nat) → List IoVec × Nat × Nat × IOVDiscardUndo × Nat
  | 0, _, total => (arr, cur, 0, undo, total)
  | iovCnt + 1, bytes, total =>
    let e := arr.getD cur ⟨0, 0⟩
    if e.len > bytes then
      (arr.set cur ⟨e.base + bytes, e.len - bytes⟩, cur, iovCnt + 1, ⟨some cur, e⟩, total + bytes)
    else iovDiscardFrontLoop arr (cur + 1) undo iovCnt (bytes - e.len) (total + e.len)

/-- `iov_discard_front_undoable(&iov, &iov_cnt, bytes, undo)` on the vector
of `iovCnt` elements starting at index `start` of `arr`. -/
def iovDiscardFrontUndoable (arr : List IoVec) (start iovCnt bytes : Nat) :
    List IoVec × Nat × Nat × IOVDiscardUndo × Nat :=
  iovDiscardFrontLoop arr start ⟨none, ⟨0, 0⟩⟩ iovCnt bytes 0

/-- The loop of `iov_discard_back_undoable`: `iovCnt` elements left, the
last of them at index `start + iovCnt - 1`. -/
def iovDiscardBackLoop (arr : List IoVec) (start : Nat) (undo : IOVDiscardUndo) :
    (iovCnt bytes total : Nat) → List IoVec × Nat × IOVDiscardUndo × Nat
  | 0, _, total => (arr, 0, undo, total)
  | iovCnt + 1, bytes, total =>
    let cur := start + iovCnt
    let e := arr.getD cur ⟨0, 0⟩
    if e.len > bytes then (arr.set cur ⟨e.base, e.len - bytes⟩, iovCnt + 1, ⟨some cur, e⟩, total + bytes)
    else iovDiscardBackLoop arr start undo iovCnt (bytes - e.len) (total + e.len)

/-- `iov_discard_back_undoable(iov, &iov_cnt, bytes, undo)` on the vector
of `iovCnt` elements starting at index `start` of `arr`: the array, the
count, the undo record, the bytes discarded. -/
def iovDiscardBackUndoable (arr : List IoVec) (start iovCnt bytes : Nat) :
    List IoVec × Nat × IOVDiscardUndo × Nat :=
  iovDiscardBackLoop arr start ⟨none, ⟨0, 0⟩⟩ iovCnt bytes 0

/-- `qemu_iovec_discard_back(qiov, bytes)`, or `none` where an assertion
fails. -/
def qemuIovecDiscardBack (qiov : QEMUIOVector) (bytes : Nat) : Option QEMUIOVector :=
  if qiov.size < bytes then none
  else
    let (arr, niov, _, total) := iovDiscardBackUndoable qiov.iov 0 qiov.niov bytes
    if total ≠ bytes then none else some ⟨arr, niov, qiov.size - bytes⟩

/-! ## `qemu_iovec_clone` -/

/-- `IOVectorSortElem`. -/
structure IOVectorSortElem where
  srcIndex : Nat
  srcIov : IoVec
  destBase : Nat
  deriving DecidableEq, Repr

/-- The allocation loop of `qemu_iovec_clone`, over the elements sorted by
base address: each gets `buf` less its overlap with the furthest end seen
so far (`lastEnd`, `NULL` as `0`), and `buf` advances by what is new. -/
def qemuIovecCloneAlloc : List IOVectorSortElem → (buf lastEnd : Nat) → List IOVectorSortElem
  | [], _, _ => []
  | s :: rest, buf, lastEnd =>
    let cur := s.srcIov
    let rewind := if lastEnd ≠ 0 ∧ lastEnd > cur.base then lastEnd - cur.base else 0
    { s with destBase := buf - rewind } ::
      qemuIovecCloneAlloc rest (buf + (cur.len - min rewind cur.len)) (max (cur.base + cur.len) lastEnd)

/-- The sort elements of a vector, before sorting. -/
def qemuIovecSortElems (src : QEMUIOVector) : List IOVectorSortElem :=
  src.elems.zipIdx.map fun (e, i) => ⟨i, e, 0⟩

/-- `qemu_iovec_clone(dest, src, buf)` given the order the sort by base
address returned: the elements added to `dest`. -/
def qemuIovecCloneWith (src : QEMUIOVector) (sorted : List IOVectorSortElem) (buf : Nat) : List IoVec :=
  let byIndex := (qemuIovecCloneAlloc sorted buf 0).mergeSort fun a b => a.srcIndex ≤ b.srcIndex
  byIndex.map fun s => ⟨s.destBase, (src.elems.getD s.srcIndex ⟨0, 0⟩).len⟩

/-- `qemu_iovec_clone(dest, src, buf)`. -/
def qemuIovecClone (src : QEMUIOVector) (buf : Nat) : List IoVec :=
  qemuIovecCloneWith src ((qemuIovecSortElems src).mergeSort fun a b => a.srcIov.base ≤ b.srcIov.base) buf

end QemuFormal

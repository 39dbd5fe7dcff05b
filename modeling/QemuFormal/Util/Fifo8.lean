/-
QemuFormal.Util.Fifo8 — the circular byte FIFO of `util/fifo8.c`.

A `Fifo8` keeps `capacity` bytes at `data`; the `num` queued ones start at
`head` and wrap at `capacity`. The buffer is the heap block `g_new` gave,
a byte at every index (`Mem`); `memcpy` into it is `memWrite`, and a
pointer `fifo8_peek_bufptr` returns into it is the list of bytes it
exposes. `capacity`, `head` and `num` are `uint32_t`: their sums wrap at
`2^32` (`u32`). A failed `assert` is `none`.

Each call is a function of the FIFO; `Fifo8Op` names the calls of the
public interface and `fifo8Step` dispatches one, returning the bytes the
call hands back (popped, peeked or copied to `dest`) and the FIFO after
it. `dest` may be `NULL` in `fifo8_pop_buf`; the bytes it would receive
are returned either way, and the count the C function returns is their
number. `fifo8_create` takes the uninitialised block as an argument.
-/
import QemuFormal.Util.Iov
import Mathlib.Algebra.Group.Nat.Defs

namespace QemuFormal

/-- `x` as a `uint32_t`. -/
def u32 (x : Nat) : Nat := x % 2 ^ 32

/-- `Fifo8`. -/
structure Fifo8 where
  data : Mem
  capacity : Nat
  head : Nat
  num : Nat

def fifo8Reset (fifo : Fifo8) : Fifo8 := { fifo with num := 0, head := 0 }

def fifo8Create (block : Mem) (capacity : Nat) : Fifo8 :=
  fifo8Reset { data := block, capacity := capacity, head := 0, num := 0 }

def fifo8Push (fifo : Fifo8) (data : UInt8) : Option Fifo8 :=
  if fifo.num < fifo.capacity then
    some { fifo with
      data := Function.update fifo.data (u32 (fifo.head + fifo.num) % fifo.capacity) data
      num := u32 (fifo.num + 1) }
  else none

def fifo8PushAll (fifo : Fifo8) (data : List UInt8) : Option Fifo8 :=
  let num := data.length
  if u32 (fifo.num + num) ≤ fifo.capacity then
    let start := u32 (fifo.head + fifo.num) % fifo.capacity
    let buf :=
      if u32 (start + num) ≤ fifo.capacity then memWrite fifo.data start data
      else
        let avail := u32 (fifo.capacity - start)
        memWrite (memWrite fifo.data start (data.take avail)) 0 (data.drop avail)
    some { fifo with data := buf, num := u32 (fifo.num + num) }
  else none

def fifo8Pop (fifo : Fifo8) : Option (UInt8 × Fifo8) :=
  if 0 < fifo.num then
    some (fifo.data fifo.head,
      { fifo with head := u32 (fifo.head + 1) % fifo.capacity, num := u32 (fifo.num - 1) })
  else none

def fifo8Peek (fifo : Fifo8) : Option UInt8 :=
  if 0 < fifo.num then some (fifo.data fifo.head) else none

/-- `fifo8_peekpop_bufptr`: the contiguous bytes from `skip` past the head
up to the end of the buffer, at most `max`; popped when `do_pop`. -/
def fifo8PeekpopBufptr (fifo : Fifo8) (max skip : Nat) (doPop : Bool) : Option (List UInt8 × Fifo8) :=
  if 0 < max ∧ max ≤ fifo.num then
    if skip ≤ fifo.num then
      let head := u32 (fifo.head + skip) % fifo.capacity
      let num := min (u32 (fifo.capacity - head)) max
      let ret := memRead fifo.data head num
      if doPop then
        some (ret, { fifo with head := u32 (head + num) % fifo.capacity, num := u32 (fifo.num - num) })
      else some (ret, fifo)
    else none
  else none

def fifo8PeekBufptr (fifo : Fifo8) (max : Nat) : Option (List UInt8 × Fifo8) :=
  fifo8PeekpopBufptr fifo max 0 false

def fifo8PopBufptr (fifo : Fifo8) (max : Nat) : Option (List UInt8 × Fifo8) :=
  fifo8PeekpopBufptr fifo max 0 true

/-- `fifo8_peekpop_buf`: up to the end of the buffer, then from its start
for what is left. -/
def fifo8PeekpopBuf (fifo : Fifo8) (destlen : Nat) (doPop : Bool) : Option (List UInt8 × Fifo8) :=
  if destlen = 0 then some ([], fifo)
  else do
    let (buf1, fifo1) ← fifo8PeekpopBufptr fifo destlen 0 doPop
    let n1 := buf1.length
    -- Add FIFO wraparound if needed
    let len := min (u32 (destlen - n1)) fifo1.num
    if len ≠ 0 then
      let (buf2, fifo2) ← fifo8PeekpopBufptr fifo1 len (if doPop then 0 else n1) doPop
      pure (buf1 ++ buf2, fifo2)
    else pure (buf1, fifo1)

def fifo8PopBuf (fifo : Fifo8) (destlen : Nat) : Option (List UInt8 × Fifo8) :=
  fifo8PeekpopBuf fifo destlen true

def fifo8PeekBuf (fifo : Fifo8) (destlen : Nat) : Option (List UInt8 × Fifo8) :=
  fifo8PeekpopBuf fifo destlen false

def fifo8Drop (fifo : Fifo8) (len : Nat) : Option Fifo8 := do
  let (buf, fifo') ← fifo8PopBuf fifo len
  if u32 (len - buf.length) = 0 then some fifo' else none

def fifo8IsEmpty (fifo : Fifo8) : Bool := fifo.num == 0

def fifo8IsFull (fifo : Fifo8) : Bool := fifo.num == fifo.capacity

def fifo8NumFree (fifo : Fifo8) : Nat := u32 (fifo.capacity - fifo.num)

def fifo8NumUsed (fifo : Fifo8) : Nat := fifo.num

/-- The calls of `include/qemu/fifo8.h` that change or read the queue. -/
inductive Fifo8Op where
  | push (data : UInt8)
  | pushAll (data : List UInt8)
  | pop
  | peek
  | peekBufptr (max : Nat)
  | popBufptr (max : Nat)
  | popBuf (destlen : Nat)
  | peekBuf (destlen : Nat)
  | drop (len : Nat)
  | reset
  deriving DecidableEq, Repr

/-- One call: the bytes it hands back and the FIFO after it. -/
def fifo8Step (fifo : Fifo8) : Fifo8Op → Option (List UInt8 × Fifo8)
  | .push data => (fifo8Push fifo data).map fun fifo' => ([], fifo')
  | .pushAll data => (fifo8PushAll fifo data).map fun fifo' => ([], fifo')
  | .pop => (fifo8Pop fifo).map fun r => ([r.1], r.2)
  | .peek => (fifo8Peek fifo).map fun b => ([b], fifo)
  | .peekBufptr max => fifo8PeekBufptr fifo max
  | .popBufptr max => fifo8PopBufptr fifo max
  | .popBuf destlen => fifo8PopBuf fifo destlen
  | .peekBuf destlen => fifo8PeekBuf fifo destlen
  | .drop len => (fifo8Drop fifo len).map fun fifo' => ([], fifo')
  | .reset => some ([], fifo8Reset fifo)

/-- A sequence of calls: what each handed back, and the FIFO at the end. -/
def fifo8Run (fifo : Fifo8) : List Fifo8Op → Option (List (List UInt8) × Fifo8)
  | [] => some ([], fifo)
  | op :: ops => do
    let (out, fifo1) ← fifo8Step fifo op
    let (outs, fifo2) ← fifo8Run fifo1 ops
    pure (out :: outs, fifo2)

end QemuFormal

/-
QemuFormal.Tcg.CarryOps — the TCG carry and borrow ops as the TCI
interpreter (`tcg/tci.c`, `tcg_qemu_tb_exec`) runs them.

TCI keeps one carry flag beside its registers (`bool carry`). `addco`
and `subbo` set it from their operands, `addci` and `subbi` read it,
`addcio` and `subbio` read and set it. The optimizer also emits
`addc1o` and `subb1o`, a carry-in known to be one: the backend writes
each as `tci_setcarry` followed by `addcio` or `subbio`.

Model choices.
- Registers are 64 bits (`tcg_target_ulong` on a 64-bit host). TCI has
  the carry ops for `TCG_TYPE_REG` only, so these are `TCG_TYPE_I64`
  ops.
- An argument is a temp or a constant temp (`TEMP_CONST`), which reads
  as its value. Outputs are temps; a write to a constant temp is
  dropped, and the optimizer never emits one.
- Only the opcodes of a carry chain, the `add` and `sub` it is folded
  into, and the `mov` and `neg` that folding an `add` or a `sub` can
  make of it are modelled. A `mov` keeps the `args[2]` of the op it was
  made from, which it does not read.
-/
import Mathlib.Logic.Function.Basic
import QemuFormal.Lib.Word

namespace QemuFormal.Tcg

/-- The opcodes of a carry or borrow chain, the plain `add` and `sub`
that folding turns them into, and the `mov` and `neg` that folding an
`add` or a `sub` makes. -/
inductive Opcode where
  | mov | neg
  | add | sub
  | addco | addci | addcio | addc1o
  | subbo | subbi | subbio | subb1o
  deriving DecidableEq, Repr

/-- A `TCGArg`: temp `n`, or the constant temp of value `v`. -/
inductive Arg where
  | temp (n : Nat)
  | const (v : UInt64)
  deriving DecidableEq, Repr

/-- Whether an argument is a temp that is not constant, as every output
is. -/
def Arg.isTemp : Arg → Bool
  | .temp _ => true
  | .const _ => false

/-- A `TCGOp` with its output `args[0]` and inputs `args[1]`, `args[2]`. -/
structure TcgOp where
  opc : Opcode
  arg0 : Arg
  arg1 : Arg
  arg2 : Arg
  deriving DecidableEq, Repr

/-- The interpreter's registers and its carry flag. -/
@[ext] structure Machine where
  regs : Nat → UInt64
  carry : Bool

namespace Machine

def read (m : Machine) : Arg → UInt64
  | .temp n => m.regs n
  | .const v => v

def write (m : Machine) (a : Arg) (v : UInt64) : Machine :=
  match a with
  | .temp n => { m with regs := Function.update m.regs n v }
  | .const _ => m

@[simp] theorem read_const (m : Machine) (v : UInt64) : m.read (.const v) = v := rfl

@[simp] theorem carry_write (m : Machine) (a : Arg) (v : UInt64) : (m.write a v).carry = m.carry := by
  cases a <;> rfl

/-- Registers are all that reads and writes see. -/
theorem read_congr {m m' : Machine} (h : m'.regs = m.regs) (a : Arg) : m'.read a = m.read a := by
  cases a <;> simp [read, h]

theorem regs_write_congr {m m' : Machine} (h : m'.regs = m.regs) (a : Arg) (v : UInt64) :
    (m'.write a v).regs = (m.write a v).regs := by
  cases a <;> simp [write, h]

@[simp] theorem read_write_self (m : Machine) (n : Nat) (v : UInt64) :
    (m.write (.temp n) v).read (.temp n) = v := by
  simp [write, read]

theorem read_write_of_isTemp (m : Machine) {a : Arg} (ha : a.isTemp = true) (v : UInt64) :
    (m.write a v).read a = v := by
  cases a with
  | temp n => exact read_write_self m n v
  | const c => cases ha

/-- A write changes what no other argument reads. -/
theorem read_write_of_ne (m : Machine) {a b : Arg} (hb : b ≠ a) (v : UInt64) : (m.write a v).read b = m.read b := by
  cases a with
  | temp n =>
    cases b with
    | temp k => simp [write, read, Function.update_of_ne (fun h => hb (congrArg Arg.temp h))]
    | const c => rfl
  | const c => rfl

/-- Writing back what an argument holds changes nothing. -/
theorem write_read_self (m : Machine) (a : Arg) : m.write a (m.read a) = m := by
  cases a with
  | temp n => simp [write, read]
  | const c => rfl

end Machine

/-- `regs[r1] + regs[r2] + carry` and the like add the flag as 0 or 1. -/
def carryBit (c : Bool) : UInt64 := if c then 1 else 0

@[simp] theorem toNat_carryBit (c : Bool) : (carryBit c).toNat = if c then 1 else 0 := by
  cases c <;> rfl

/-- `addcio` from a given carry-in. -/
def addcioExec (m : Machine) (a0 : Arg) (x y : UInt64) : Machine :=
  if m.carry then
    let t1 := x + y + 1
    { m.write a0 t1 with carry := decide (t1 ≤ x) }
  else
    let t1 := x + y
    { m.write a0 t1 with carry := decide (t1 < x) }

/-- `subbio` from a given borrow-in. -/
def subbioExec (m : Machine) (a0 : Arg) (x y : UInt64) : Machine :=
  if m.carry then { m.write a0 (x - y - 1) with carry := decide (x ≤ y) }
  else { m.write a0 (x - y) with carry := decide (x < y) }

/-- Both branches of `addcio` add the carry-in ... -/
theorem regs_addcioExec (m : Machine) (a0 : Arg) (x y : UInt64) :
    (addcioExec m a0 x y).regs = (m.write a0 (x + y + carryBit m.carry)).regs := by
  unfold addcioExec carryBit
  split <;> simp [*]

/-- ... and carry out when the sum does not fit. -/
theorem carry_addcioExec (m : Machine) (a0 : Arg) (x y : UInt64) :
    (addcioExec m a0 x y).carry = decide (2 ^ 64 ≤ x.toNat + y.toNat + (carryBit m.carry).toNat) := by
  unfold addcioExec
  split <;> simp [*, Word.add_add_one_le_iff, Word.add_lt_iff]

/-- Both branches of `subbio` subtract the borrow-in ... -/
theorem regs_subbioExec (m : Machine) (a0 : Arg) (x y : UInt64) :
    (subbioExec m a0 x y).regs = (m.write a0 (x - y - carryBit m.carry)).regs := by
  unfold subbioExec carryBit
  split <;> simp [*]

/-- ... and borrow when `y` and the borrow-in exceed `x`. -/
theorem carry_subbioExec (m : Machine) (a0 : Arg) (x y : UInt64) :
    (subbioExec m a0 x y).carry = decide (x.toNat < y.toNat + (carryBit m.carry).toNat) := by
  unfold subbioExec
  split
  · -- borrow-in: `x ≤ y`
    simp only [decide_eq_decide, UInt64.le_iff_toNat_le, *, toNat_carryBit, if_true]
    omega
  · simp [*, UInt64.lt_iff_toNat_lt]

/-- One op of `tcg_qemu_tb_exec`. Both inputs are read before the output
and the flag are written. -/
def tciExec (op : TcgOp) (m : Machine) : Machine :=
  let x := m.read op.arg1
  let y := m.read op.arg2
  match op.opc with
  | .mov => m.write op.arg0 x
  | .neg => m.write op.arg0 (-x)
  | .add => m.write op.arg0 (x + y)
  | .sub => m.write op.arg0 (x - y)
  | .addco =>
    let t1 := x + y
    { m.write op.arg0 t1 with carry := decide (t1 < x) }
  | .addci => m.write op.arg0 (x + y + carryBit m.carry)
  | .addcio => addcioExec m op.arg0 x y
  -- `tci_setcarry`, then `addcio`
  | .addc1o => addcioExec { m with carry := true } op.arg0 x y
  | .subbo => { m.write op.arg0 (x - y) with carry := decide (x < y) }
  | .subbi => m.write op.arg0 (x - y - carryBit m.carry)
  | .subbio => subbioExec m op.arg0 x y
  -- `tci_setcarry` (the backend's `tcg_out_set_borrow`), then `subbio`
  | .subb1o => subbioExec { m with carry := true } op.arg0 x y

section Exec

variable {op : TcgOp} {m : Machine}

theorem tciExec_of_mov (h : op.opc = .mov) : tciExec op m = m.write op.arg0 (m.read op.arg1) := by
  simp [tciExec, h]

theorem tciExec_of_neg (h : op.opc = .neg) : tciExec op m = m.write op.arg0 (-m.read op.arg1) := by
  simp [tciExec, h]

theorem tciExec_of_add (h : op.opc = .add) : tciExec op m = m.write op.arg0 (m.read op.arg1 + m.read op.arg2) := by
  simp [tciExec, h]

theorem tciExec_of_sub (h : op.opc = .sub) : tciExec op m = m.write op.arg0 (m.read op.arg1 - m.read op.arg2) := by
  simp [tciExec, h]

theorem tciExec_of_addco (h : op.opc = .addco) :
    tciExec op m = { m.write op.arg0 (m.read op.arg1 + m.read op.arg2) with
      carry := decide (m.read op.arg1 + m.read op.arg2 < m.read op.arg1) } := by
  simp [tciExec, h]

theorem tciExec_of_addci (h : op.opc = .addci) :
    tciExec op m = m.write op.arg0 (m.read op.arg1 + m.read op.arg2 + carryBit m.carry) := by
  simp [tciExec, h]

theorem tciExec_of_addcio (h : op.opc = .addcio) : tciExec op m = addcioExec m op.arg0 (m.read op.arg1) (m.read op.arg2) := by
  simp [tciExec, h]

theorem tciExec_of_addc1o (h : op.opc = .addc1o) :
    tciExec op m = addcioExec { m with carry := true } op.arg0 (m.read op.arg1) (m.read op.arg2) := by
  simp [tciExec, h]

theorem tciExec_of_subbo (h : op.opc = .subbo) :
    tciExec op m = { m.write op.arg0 (m.read op.arg1 - m.read op.arg2) with
      carry := decide (m.read op.arg1 < m.read op.arg2) } := by
  simp [tciExec, h]

theorem tciExec_of_subbi (h : op.opc = .subbi) :
    tciExec op m = m.write op.arg0 (m.read op.arg1 - m.read op.arg2 - carryBit m.carry) := by
  simp [tciExec, h]

theorem tciExec_of_subbio (h : op.opc = .subbio) : tciExec op m = subbioExec m op.arg0 (m.read op.arg1) (m.read op.arg2) := by
  simp [tciExec, h]

theorem tciExec_of_subb1o (h : op.opc = .subb1o) :
    tciExec op m = subbioExec { m with carry := true } op.arg0 (m.read op.arg1) (m.read op.arg2) := by
  simp [tciExec, h]

end Exec

/-- A straight run of ops. -/
def tciRun : List TcgOp → Machine → Machine
  | [], m => m
  | op :: ops, m => tciRun ops (tciExec op m)

@[simp] theorem tciRun_nil (m : Machine) : tciRun [] m = m := rfl

@[simp] theorem tciRun_cons (op : TcgOp) (ops : List TcgOp) (m : Machine) :
    tciRun (op :: ops) m = tciRun ops (tciExec op m) := rfl

theorem tciRun_append (ops ops' : List TcgOp) (m : Machine) :
    tciRun (ops ++ ops') m = tciRun ops' (tciRun ops m) := by
  induction ops generalizing m with
  | nil => rfl
  | cons op ops ih => exact ih (tciExec op m)

/-- A run that ends with one more op. -/
theorem tciRun_append_singleton (ops : List TcgOp) (op : TcgOp) (m : Machine) :
    tciRun (ops ++ [op]) m = tciExec op (tciRun ops m) := by
  rw [tciRun_append, tciRun_cons, tciRun_nil]

end QemuFormal.Tcg

/-
QemuFormal.Tcg.CarryFold — folding of carry and borrow chains in
`tcg/optimize.c`.

The optimizer walks the ops in order. After a carry-out op it leaves in
`ctx->carry_state` what it knows of the carry: `0` or `1`, or `-1` for
unknown. The op after it reads the carry. When the carry is known, that
op is rewritten to use the constant instead: `squash_prev_carryout` and
`squash_prev_borrowout` turn the previous op into one without a carry
out and fold it again with `fold_add` or `fold_sub`, and the carry-in
goes into a constant operand or into an extra `add`. What is known of a
temp is its known bits (`z_mask`, `o_mask`); it is a constant when they
agree. The optimizer also keeps lists of temps that are copies of one
another.

Model choices.
- A fold function takes the context, the previous op and the op being
  folded. It returns the ops that replace the two, in order, and the
  `carry_state` it leaves. A failing `g_assert_not_reached` is `none`.
- `fold_add` and `fold_sub` are modelled whole where they fold the
  squashed previous op, or an op inserted before the one being folded:
  constant folding, the copies they turn the op into, `sub` into `neg`
  or into an `add` of the negated constant, and what they record of the
  output. They return the ops and the context after, and the fold reads
  what is known of a temp from that context wherever the source reads it
  after the squash (`t1` and `t2` point at the temps' info). The op
  being folded itself is handed on to `fold_add`, `fold_sub`,
  `fold_addco`, `fold_subbo` or `finish_folding` at the end; the model
  stops at the op they are given.
- The copy lists are a relation `copies` between temps, read through
  `ts_are_copies`; `reset_ts` takes a temp off its list and
  `tcg_opt_gen_mov` puts the output on the list of its input. The
  `s_mask` of a temp, the memory copies and the `prev_mb` barrier are not
  modelled: nothing read here depends on them.
- `ctx->type` chooses the mask of `fold_addcio` and `fold_subbio` and
  the width of `arg_new_constant` and of constant folding.
-/
import QemuFormal.Lib.Word
import QemuFormal.Tcg.CarryOps

namespace QemuFormal.Tcg

open Function (update)

inductive TcgType where
  | i32 | i64
  deriving DecidableEq, Repr

/-- The known bits of a temp: a zero bit of `zMask` is a known zero, a
one bit of `oMask` a known one. -/
structure TempOptInfo where
  zMask : UInt64
  oMask : UInt64
  deriving DecidableEq, Repr

/-- `ti_is_const`: all bits are known. -/
def tiIsConst (ti : TempOptInfo) : Bool := ti.zMask == ti.oMask

/-- `ti_const_val`. -/
def tiConstVal (ti : TempOptInfo) : UInt64 := ti.zMask

/-- The part of `OptContext` and of the temps' `TempOptInfo` that carry
folding reads: the known bits of every temp, which temps are on one copy
list, `ctx->type` and `ctx->carry_state`. -/
structure OptContext where
  info : Nat → TempOptInfo
  copies : Arg → Arg → Bool
  type : TcgType
  carryState : Int

namespace OptContext

variable (ctx : OptContext)

/-- `arg_info`. A constant temp knows all its bits (`init_ts_info`). -/
def argInfo : Arg → TempOptInfo
  | .temp n => ctx.info n
  | .const v => ⟨v, v⟩

/-- `arg_new_constant`: an I32 constant is kept sign-extended. -/
def argNewConstant (val : UInt64) : Arg :=
  match ctx.type with
  | .i32 => .const (Word.int32Cast val)
  | .i64 => .const val

/-- The mask of the type, `UINT32_MAX` or `UINT64_MAX`. -/
def max : UInt64 := if ctx.type = .i32 then 0xFFFFFFFF else 0xFFFFFFFFFFFFFFFF

/-- `ts_are_copies(arg_temp(a), arg_temp(b))`: one temp, or two temps on
one copy list. -/
def tsAreCopies (a b : Arg) : Bool := a == b || ctx.copies a b

/-- `arg_is_const_val(a, val)` -/
def argIsConstVal (a : Arg) (val : UInt64) : Bool :=
  tiIsConst (ctx.argInfo a) && tiConstVal (ctx.argInfo a) == val

/-- What is known of the temp of `a` set to `ti`. -/
def setInfo (a : Arg) (ti : TempOptInfo) : OptContext :=
  match a with
  | .temp n => { ctx with info := update ctx.info n ti }
  | .const _ => ctx

/-- `reset_ts(ctx, arg_temp(a))`: nothing is known of the temp, and it
leaves its copy list. -/
def resetTemp (a : Arg) : OptContext :=
  { ctx.setInfo a ⟨0xFFFFFFFFFFFFFFFF, 0⟩ with copies := fun x y => ctx.copies x y && x != a && y != a }

end OptContext

/-- `uadd64_overflow`: the sum does not fit in 64 bits. -/
def uadd64Overflow (x y : UInt64) : Bool := decide (2 ^ 64 ≤ x.toNat + y.toNat)

/-! ## Operand order -/

/-- `pref_commutative`: constants go second, non-zero ones most. -/
def prefCommutative (ti : TempOptInfo) : Int :=
  if !tiIsConst ti then 0 else if tiConstVal ti != 0 then 3 else 2

/-- `swap_commutative(dest, &a1, &a2)`: the two inputs in their new order. -/
def swapCommutative (ctx : OptContext) (dest a1 a2 : Arg) : Arg × Arg :=
  let sum := prefCommutative (ctx.argInfo a1) - prefCommutative (ctx.argInfo a2)
  if sum > 0 ∨ (sum = 0 ∧ dest = a2) then (a2, a1) else (a1, a2)

/-- `fold_commutative`. -/
def foldCommutative (ctx : OptContext) (op : TcgOp) : TcgOp :=
  let (a1, a2) := swapCommutative ctx op.arg0 op.arg1 op.arg2
  { op with arg1 := a1, arg2 := a2 }

/-! ## `fold_add` and `fold_sub` -/

/-- `tcg_opt_gen_mov(ctx, op, dst, src)`: what `op` becomes, and the
context after. Where `dst` is already a copy of `src` the op is removed.
Otherwise it becomes `mov dst, src`; `dst` takes what is known of `src`
and joins its copy list. -/
def tcgOptGenMov (ctx : OptContext) (op : TcgOp) (dst src : Arg) : List TcgOp × OptContext :=
  if ctx.tsAreCopies dst src then ([], ctx)
  else
    let ctx' := ctx.resetTemp dst
    ([{ op with opc := .mov, arg0 := dst, arg1 := src }],
      { ctx'.setInfo dst (ctx'.argInfo src) with
        copies := fun x y => ctx'.copies x y || (x == dst && ctx'.tsAreCopies src y) ||
          (y == dst && ctx'.tsAreCopies x src) })

/-- `tcg_opt_gen_movi(ctx, op, dst, val)`: a `mov` of a constant temp. -/
def tcgOptGenMovi (ctx : OptContext) (op : TcgOp) (dst : Arg) (val : UInt64) : List TcgOp × OptContext :=
  tcgOptGenMov ctx op dst (ctx.argNewConstant val)

/-- `finish_folding(ctx, op)` for an op with one output: nothing is known
of it. -/
def finishFolding (ctx : OptContext) (op : TcgOp) : List TcgOp × OptContext :=
  ([op], ctx.resetTemp op.arg0)

/-- `fold_const2(ctx, op)` for an op whose `do_constant_folding_2` is `f`,
`x + y` for `add` and `x - y` for `sub`: with two constant inputs the op
becomes a `mov` of the constant it computes, which `do_constant_folding`
keeps sign-extended for I32. `none` where it does not fold. -/
def foldConst2 (f : UInt64 → UInt64 → UInt64) (ctx : OptContext) (op : TcgOp) :
    Option (List TcgOp × OptContext) :=
  if tiIsConst (ctx.argInfo op.arg1) && tiIsConst (ctx.argInfo op.arg2) then
    let t := f (tiConstVal (ctx.argInfo op.arg1)) (tiConstVal (ctx.argInfo op.arg2))
    let t := if ctx.type = .i32 then Word.int32Cast t else t
    some (tcgOptGenMovi ctx op op.arg0 t)
  else none

/-- `fold_xi_to_x(ctx, op, i)`: an op whose second input is the constant
`i` is a copy of its first. -/
def foldXiToX (ctx : OptContext) (op : TcgOp) (i : UInt64) : Option (List TcgOp × OptContext) :=
  if ctx.argIsConstVal op.arg2 i then some (tcgOptGenMov ctx op op.arg0 op.arg1) else none

/-- `fold_xx_to_i(ctx, op, i)`: an op whose inputs are copies of one
another is the constant `i`. -/
def foldXxToI (ctx : OptContext) (op : TcgOp) (i : UInt64) : Option (List TcgOp × OptContext) :=
  if ctx.tsAreCopies op.arg1 op.arg2 then some (tcgOptGenMovi ctx op op.arg0 i) else none

/-- `fold_masks_z(ctx, op, z_mask)`: `fold_masks_zosa` with no known one
and every bit affected (`a_mask` is `-1`, so the op never becomes a
copy). A 32-bit mask is kept sign-extended; a mask with no bit left makes
the op a `mov` of 0, otherwise the output takes the mask. -/
def foldMasksZ (ctx : OptContext) (op : TcgOp) (zMask : UInt64) : List TcgOp × OptContext :=
  let zMask := if ctx.type = .i32 then Word.int32Cast zMask else zMask
  -- all bits that are not known zero are known one: a constant
  if zMask = 0 then tcgOptGenMovi ctx op op.arg0 0
  else ([op], (ctx.resetTemp op.arg0).setInfo op.arg0 ⟨zMask, 0⟩)

/-- `fold_neg_no_const(ctx, op)`: every bit from the lowest one the input
may have up may be set. -/
def foldNegNoConst (ctx : OptContext) (op : TcgOp) : List TcgOp × OptContext :=
  let zMask := (ctx.argInfo op.arg1).zMask
  foldMasksZ ctx op (-(zMask &&& -zMask))

/-- `fold_sub_to_neg(ctx, op)`: `sub r, 0, y` becomes `neg r, y`, which
I32 and I64 have. -/
def foldSubToNeg (ctx : OptContext) (op : TcgOp) : Option (List TcgOp × OptContext) :=
  if ctx.argIsConstVal op.arg1 0 then some (foldNegNoConst ctx { op with opc := .neg, arg1 := op.arg2 })
  else none

/-- `fold_add(ctx, op)`: what the `add` becomes, and the context after. -/
def foldAdd (ctx : OptContext) (op : TcgOp) : List TcgOp × OptContext :=
  -- `fold_const2_commutative` puts the constants second first
  let op := foldCommutative ctx op
  (foldConst2 (· + ·) ctx op <|> foldXiToX ctx op 0).getD (finishFolding ctx op)

/-- `fold_sub(ctx, op)`: what the `sub` becomes, and the context after. -/
def foldSub (ctx : OptContext) (op : TcgOp) : List TcgOp × OptContext :=
  (foldConst2 (· - ·) ctx op <|> foldXxToI ctx op 0 <|> foldXiToX ctx op 0 <|> foldSubToNeg ctx op).getD
    -- `sub r, x, i` becomes `add r, x, -i`
    (finishFolding ctx
      (if tiIsConst (ctx.argInfo op.arg2) then
        { op with opc := .add, arg2 := ctx.argNewConstant (-tiConstVal (ctx.argInfo op.arg2)) }
      else op))

/-! ## Carry chains -/

/-- `squash_prev_carryout`: the ops that replace the previous op once it
no longer produces a carry, and the context after. -/
def squashPrevCarryout (ctx : OptContext) (prev : TcgOp) : Option (List TcgOp × OptContext) :=
  match prev.opc with
  | .addco => some (foldAdd ctx { prev with opc := .add })
  | .addcio => some ([{ prev with opc := .addci }], ctx)
  | .addc1o =>
    let t2 := ctx.argInfo prev.arg2
    -- other constant folding, if needed
    if tiIsConst t2 then some (foldAdd ctx { prev with opc := .add, arg2 := ctx.argNewConstant (tiConstVal t2 + 1) })
    else some ([{ prev with opc := .add }, ⟨.add, prev.arg0, prev.arg0, ctx.argNewConstant 1⟩], ctx)
  | _ => none

/-- `fold_addco`: the op, and the carry it is known to produce. -/
def foldAddco (ctx : OptContext) (op : TcgOp) : TcgOp × Int :=
  let op := foldCommutative ctx op
  let t1 := ctx.argInfo op.arg1
  let t2 := ctx.argInfo op.arg2
  let carryOut : Int :=
    if tiIsConst t2 then
      -- given sign-extension of z_mask for I32, no truncation is needed
      if tiIsConst t1 then (if uadd64Overflow (tiConstVal t1) (tiConstVal t2) then 1 else 0)
      else if tiConstVal t2 = 0 then 0 else -1
    else if !uadd64Overflow t1.zMask t2.zMask then 0 else -1
  (op, carryOut)

/-- `fold_addci`. -/
def foldAddci (ctx : OptContext) (prev op : TcgOp) : Option (List TcgOp × Int) :=
  let op := foldCommutative ctx op
  if ctx.carryState < 0 then some ([prev, op], ctx.carryState)
  else do
    let (prevs, ctx) ← squashPrevCarryout ctx prev
    let op := { op with opc := .add }
    if ctx.carryState > 0 then
      -- the known carry-in goes into a constant, or into a second add
      let t2 := ctx.argInfo op.arg2
      if tiIsConst t2 then pure (prevs ++ [{ op with arg2 := ctx.argNewConstant (tiConstVal t2 + 1) }], -1)
      else
        let (ops2, ctx) := foldAdd ctx ⟨.add, op.arg0, op.arg1, op.arg2⟩
        pure (prevs ++ ops2 ++ [{ op with arg1 := op.arg0, arg2 := ctx.argNewConstant 1 }], -1)
    else pure (prevs ++ [op], -1)

/-- `fold_addcio`. -/
def foldAddcio (ctx : OptContext) (prev op : TcgOp) : Option (List TcgOp × Int) :=
  let op := foldCommutative ctx op
  let t1 := ctx.argInfo op.arg1
  let t2 := ctx.argInfo op.arg2
  -- adding the z_masks does not overflow iff the values cannot
  let carryOut : Int :=
    if !uadd64Overflow t1.zMask t2.zMask &&
        !uadd64Overflow (t1.zMask + t2.zMask) (carryBit (ctx.carryState != 0)) then 0 else -1
  if ctx.carryState < 0 then some ([prev, op], carryOut)
  else do
    let (prevs, ctx) ← squashPrevCarryout ctx prev
    -- `t1` and `t2` point at what is known of the temps, as the squash left it
    let t1 := ctx.argInfo op.arg1
    let t2 := ctx.argInfo op.arg2
    let doAddco (op : TcgOp) : List TcgOp × Int :=
      let (op, c) := foldAddco ctx { op with opc := .addco }
      (prevs ++ [op], c)
    -- the known carry-in goes into a constant if it can; else `addc1o`
    let fromT1 (carryOut : Int) : List TcgOp × Int :=
      if tiIsConst t1 then
        let v := tiConstVal t1 &&& ctx.max
        if v < ctx.max then doAddco { op with arg1 := ctx.argNewConstant (v + 1) }
        else (prevs ++ [{ op with opc := .addc1o }], 1)
      else (prevs ++ [{ op with opc := .addc1o }], carryOut)
    if ctx.carryState = 0 then pure (doAddco op)
    else if tiIsConst t2 then
      let v := tiConstVal t2 &&& ctx.max
      if v < ctx.max then pure (doAddco { op with arg2 := ctx.argNewConstant (v + 1) })
      -- max + known carry in produces known carry out
      else pure (fromT1 1)
    else pure (fromT1 carryOut)

/-! ## Borrow chains -/

/-- `squash_prev_borrowout`: the ops that replace the previous op once it
no longer produces a borrow, and the context after. -/
def squashPrevBorrowout (ctx : OptContext) (prev : TcgOp) : Option (List TcgOp × OptContext) :=
  match prev.opc with
  | .subbo => some (foldSub ctx { prev with opc := .sub })
  | .subbio => some ([{ prev with opc := .subbi }], ctx)
  | .subb1o =>
    let t2 := ctx.argInfo prev.arg2
    -- other constant folding, if needed
    if tiIsConst t2 then
      some (foldAdd ctx { prev with opc := .add, arg2 := ctx.argNewConstant (-(tiConstVal t2 + 1)) })
    else some ([{ prev with opc := .sub }, ⟨.add, prev.arg0, prev.arg0, ctx.argNewConstant (-1)⟩], ctx)
  | _ => none

/-- `fold_subbo`: the op, and the borrow it is known to produce. -/
def foldSubbo (ctx : OptContext) (op : TcgOp) : TcgOp × Int :=
  let t1 := ctx.argInfo op.arg1
  let t2 := ctx.argInfo op.arg2
  let borrowOut : Int :=
    if tiIsConst t2 then
      if tiConstVal t2 = 0 then 0
      else if tiIsConst t1 then (if tiConstVal t1 < tiConstVal t2 then 1 else 0)
      else -1
    else -1
  (op, borrowOut)

/-- `fold_subbi`. -/
def foldSubbi (ctx : OptContext) (prev op : TcgOp) : Option (List TcgOp × Int) :=
  let borrowIn := ctx.carryState
  if borrowIn < 0 then some ([prev, op], ctx.carryState)
  else do
    let (prevs, ctx) ← squashPrevBorrowout ctx prev
    if borrowIn = 0 then pure (prevs ++ [{ op with opc := .sub }], -1)
    else
      -- the known borrow-in goes into a constant, negated to an add, or into an add of -1
      let t2 := ctx.argInfo op.arg2
      if tiIsConst t2 then
        pure (prevs ++ [{ op with opc := .add, arg2 := ctx.argNewConstant (-(tiConstVal t2 + 1)) }], -1)
      else
        let (ops2, ctx) := foldSub ctx ⟨.sub, op.arg0, op.arg1, op.arg2⟩
        pure (prevs ++ ops2 ++ [{ op with opc := .add, arg1 := op.arg0, arg2 := ctx.argNewConstant (-1) }], -1)

/-- `fold_subbio`. With a known borrow-in of one and a constant first
operand `v ≠ 0`, the source puts `v - 1` into `args[2]`. -/
def foldSubbio (ctx : OptContext) (prev op : TcgOp) : Option (List TcgOp × Int) :=
  if ctx.carryState < 0 then some ([prev, op], ctx.carryState)
  else do
    let (prevs, ctx) ← squashPrevBorrowout ctx prev
    let doSubbo (op : TcgOp) : List TcgOp × Int :=
      let (op, b) := foldSubbo ctx { op with opc := .subbo }
      (prevs ++ [op], b)
    let t1 := ctx.argInfo op.arg1
    let t2 := ctx.argInfo op.arg2
    let fromT1 (borrowOut : Int) : List TcgOp × Int :=
      if tiIsConst t1 then
        let v := tiConstVal t1
        if v ≠ 0 then doSubbo { op with arg2 := ctx.argNewConstant (v - 1) }
        else (prevs ++ [{ op with opc := .subb1o }], borrowOut)
      else (prevs ++ [{ op with opc := .subb1o }], borrowOut)
    if ctx.carryState = 0 then pure (doSubbo op)
    else if tiIsConst t2 then
      -- the known borrow-in goes into a constant, if possible
      let v := tiConstVal t2 &&& ctx.max
      if v < ctx.max then pure (doSubbo { op with arg2 := ctx.argNewConstant (v + 1) })
      -- subtracting max + 1 produces known borrow out
      else pure (fromT1 1)
    else pure (fromT1 (-1))

end QemuFormal.Tcg

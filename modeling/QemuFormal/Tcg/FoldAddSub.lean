/-
QemuFormal.Tcg.FoldAddSub — what the optimizer knows of the temps holds
of the machine, and `fold_add`, `fold_sub` and the squash of the
previous op keep it so.

What `tcg/optimize.c` knows of a temp, its known bits and the copy list
it is on, is a claim about the values the temps hold when the next op
runs. `OptContext.Holds` says the claim is true of a machine. Folding
an op from a context that holds is sound when the ops it emits run as
the op does and the context it leaves holds after them (`FoldedTo`).

Each helper of `fold_add` and `fold_sub` is proved sound on its own:
`reset_ts` (`Holds.resetTemp`), `tcg_opt_gen_mov`, `fold_const2`,
`fold_xi_to_x`, `fold_xx_to_i`, `fold_masks_z` and `fold_sub_to_neg`;
`foldAdd_sound` and `foldSub_sound` put them together.
`squashPrevCarryout_sound` and `squashPrevBorrowout_sound` then show that
the squashed previous op leaves the registers the previous op left, and
that the context the fold reads after the squash holds there.

The semantics is TCI's, on 64-bit ops (`ctx->type` is I64). Every output
is a temp (`Arg.isTemp`): a `mov` into a constant temp would claim the
constant to be a copy of its input.
-/
import QemuFormal.Tcg.CarryFold

namespace QemuFormal.Tcg

open Function (update)

/-! ## Knowledge that holds -/

/-- The known bits of `ti` hold of `v`: `v` has no one bit outside
`zMask`, and every one bit of `oMask`. -/
def TempOptInfo.Holds (ti : TempOptInfo) (v : UInt64) : Prop :=
  v &&& ~~~ti.zMask = 0 ∧ ti.oMask &&& ~~~v = 0

/-- What the optimizer knows of every temp holds of the machine. -/
def OptContext.InfoHolds (ctx : OptContext) (m : Machine) : Prop :=
  ∀ n, (ctx.info n).Holds (m.regs n)

/-- Arguments on one copy list hold one value. -/
def OptContext.CopiesHold (ctx : OptContext) (m : Machine) : Prop :=
  ∀ a b, ctx.copies a b = true → m.read a = m.read b

/-- All that the optimizer knows holds of the machine. -/
structure OptContext.Holds (ctx : OptContext) (m : Machine) : Prop where
  info : ctx.InfoHolds m
  copies : ctx.CopiesHold m

/-- A fold from the context `ctx` at `m`: the ops `r.1` it emits run to
`M`, and the context `r.2` it leaves holds of `M` and keeps the type and
the `carry_state` of `ctx`. -/
structure FoldedTo (ctx : OptContext) (r : List TcgOp × OptContext) (m M : Machine) : Prop where
  run : tciRun r.1 m = M
  holds : r.2.Holds M
  type : r.2.type = ctx.type
  carryState : r.2.carryState = ctx.carryState

section KnownBits

variable {ctx : OptContext} {m m' : Machine}

theorem argInfo_holds (h : ctx.InfoHolds m) : ∀ a : Arg, (ctx.argInfo a).Holds (m.read a)
  | .temp n => h n
  | .const v => ⟨Word.and_not_self v, Word.and_not_self v⟩

/-- An operand the optimizer knows to be constant holds that constant. -/
theorem read_eq_of_isConst (h : ctx.InfoHolds m) {a : Arg} (hc : tiIsConst (ctx.argInfo a) = true) :
    m.read a = tiConstVal (ctx.argInfo a) := by
  obtain ⟨hz, ho⟩ := argInfo_holds h a
  have heq : (ctx.argInfo a).zMask = (ctx.argInfo a).oMask := by simpa [tiIsConst] using hc
  rw [← heq] at ho
  exact Word.eq_of_and_not hz ho

theorem read_eq_of_argIsConstVal (h : ctx.InfoHolds m) {a : Arg} {i : UInt64} (hc : ctx.argIsConstVal a i = true) :
    m.read a = i := by
  simp only [OptContext.argIsConstVal, Bool.and_eq_true, beq_iff_eq] at hc
  rw [read_eq_of_isConst h hc.1, hc.2]

/-- Operands that `ts_are_copies` relates hold one value. -/
theorem read_eq_of_tsAreCopies (h : ctx.CopiesHold m) {a b : Arg} (hab : ctx.tsAreCopies a b = true) :
    m.read a = m.read b := by
  simp only [OptContext.tsAreCopies, Bool.or_eq_true, beq_iff_eq] at hab
  rcases hab with rfl | hab
  · rfl
  · exact h a b hab

/-- An operand is at most its `z_mask`. -/
theorem toNat_read_le (h : ctx.InfoHolds m) (a : Arg) : (m.read a).toNat ≤ (ctx.argInfo a).zMask.toNat :=
  Word.toNat_le_of_and_not (argInfo_holds h a).1

/-- Both parts of `Holds` read the registers only. -/
theorem OptContext.Holds.congr (h : ctx.Holds m) (hregs : m'.regs = m.regs) : ctx.Holds m' := by
  refine ⟨fun n => ?_, fun a b hab => ?_⟩
  · rw [hregs]
    exact h.info n
  · rw [Machine.read_congr hregs, Machine.read_congr hregs]
    exact h.copies a b hab

/-- Nothing known of a temp holds of every value. -/
theorem TempOptInfo.holds_unknown (v : UInt64) : TempOptInfo.Holds ⟨0xFFFFFFFFFFFFFFFF, 0⟩ v := by
  refine ⟨?_, ?_⟩
  · rw [show ~~~(0xFFFFFFFFFFFFFFFF : UInt64) = 0 by decide, UInt64.and_zero]
  · exact UInt64.zero_and

/-- A context that knows nothing holds of every machine. -/
theorem OptContext.holds_unknown (ty : TcgType) (c : Int) (m : Machine) :
    (⟨fun _ => ⟨0xFFFFFFFFFFFFFFFF, 0⟩, fun _ _ => false, ty, c⟩ : OptContext).Holds m :=
  ⟨fun n => TempOptInfo.holds_unknown (m.regs n), fun _ _ h => by cases h⟩

end KnownBits

/-! ## What folding records -/

section Record

variable {ctx : OptContext} {m : Machine}

@[simp] theorem OptContext.type_setInfo (a : Arg) (ti : TempOptInfo) : (ctx.setInfo a ti).type = ctx.type := by
  cases a <;> rfl

@[simp] theorem OptContext.carryState_setInfo (a : Arg) (ti : TempOptInfo) :
    (ctx.setInfo a ti).carryState = ctx.carryState := by
  cases a <;> rfl

@[simp] theorem OptContext.copies_setInfo (a : Arg) (ti : TempOptInfo) : (ctx.setInfo a ti).copies = ctx.copies := by
  cases a <;> rfl

@[simp] theorem OptContext.type_resetTemp (a : Arg) : (ctx.resetTemp a).type = ctx.type := by
  simp [OptContext.resetTemp]

@[simp] theorem OptContext.carryState_resetTemp (a : Arg) : (ctx.resetTemp a).carryState = ctx.carryState := by
  simp [OptContext.resetTemp]

theorem argNewConstant_of_i64 (hty : ctx.type = .i64) (v : UInt64) : ctx.argNewConstant v = .const v := by
  simp [OptContext.argNewConstant, hty]

theorem max_of_i64 (hty : ctx.type = .i64) : ctx.max = 0xFFFFFFFFFFFFFFFF := by
  simp [OptContext.max, hty]

/-- Recording of `a` what holds of it. -/
theorem OptContext.Holds.setInfo (h : ctx.Holds m) {a : Arg} {ti : TempOptInfo} (hti : ti.Holds (m.read a)) :
    (ctx.setInfo a ti).Holds m := by
  cases a with
  | temp n =>
    refine ⟨fun k => ?_, h.copies⟩
    by_cases hk : k = n
    · subst hk
      simp only [OptContext.setInfo, Function.update_self]
      exact hti
    · simpa [OptContext.setInfo, hk] using h.info k
  | const v => exact h

/-- **`reset_ts`**: after a write to `a`, nothing is claimed of `a`, and
`a` is a copy of nothing. -/
theorem OptContext.Holds.resetTemp (h : ctx.Holds m) (a : Arg) (v : UInt64) :
    (ctx.resetTemp a).Holds (m.write a v) := by
  refine ⟨fun k => ?_, fun x y hxy => ?_⟩
  · cases a with
    | temp n =>
      by_cases hk : k = n
      · subst hk
        simp only [OptContext.resetTemp, OptContext.setInfo, Function.update_self]
        exact TempOptInfo.holds_unknown _
      · simpa [OptContext.resetTemp, OptContext.setInfo, Machine.write, hk] using h.info k
    | const c => exact h.info k
  · -- the pairs left do not involve `a`, whose value is the only one that changed
    simp only [OptContext.resetTemp, Bool.and_eq_true, bne_iff_ne, ne_eq] at hxy
    obtain ⟨⟨hc, hx⟩, hy⟩ := hxy
    rw [Machine.read_write_of_ne m hx, Machine.read_write_of_ne m hy]
    exact h.copies x y hc

end Record

/-! ## The helpers of `fold_add` and `fold_sub` -/

section Helpers

variable {ctx : OptContext} {op : TcgOp} {m : Machine} {r : List TcgOp × OptContext}

/-- **`tcg_opt_gen_mov`**: the op becomes a copy of `src` into `dst`, or
goes where `dst` already holds `src`. -/
theorem tcgOptGenMov_sound (h : ctx.Holds m) {dst : Arg} (hdst : dst.isTemp = true) (op : TcgOp) (src : Arg) :
    FoldedTo ctx (tcgOptGenMov ctx op dst src) m (m.write dst (m.read src)) := by
  unfold tcgOptGenMov
  split_ifs with hc
  · -- `dst` already holds `src`: the op is removed
    rw [← read_eq_of_tsAreCopies h.copies hc, Machine.write_read_self]
    exact ⟨rfl, h, rfl, rfl⟩
  have hne : src ≠ dst := fun he => hc (by simp [OptContext.tsAreCopies, he])
  have hreset := h.resetTemp dst (m.read src)
  -- `dst` now holds what `src` holds
  have hval : (m.write dst (m.read src)).read dst = (m.write dst (m.read src)).read src := by
    rw [Machine.read_write_of_isTemp m hdst, Machine.read_write_of_ne m hne]
  refine ⟨by simp [tciExec_of_mov], ⟨?_, ?_⟩, by simp, by simp⟩
  · have hti := argInfo_holds hreset.info src
    rw [← hval] at hti
    exact (hreset.setInfo hti).info
  · intro x y hxy
    simp only [Bool.or_eq_true, Bool.and_eq_true, beq_iff_eq] at hxy
    rcases hxy with (hxy | ⟨rfl, hy⟩) | ⟨rfl, hx⟩
    · exact hreset.copies x y hxy
    · rw [hval]
      exact read_eq_of_tsAreCopies hreset.copies hy
    · rw [hval]
      exact read_eq_of_tsAreCopies hreset.copies hx

/-- **`tcg_opt_gen_movi`**: the op becomes a copy of the constant. -/
theorem tcgOptGenMovi_sound (hty : ctx.type = .i64) (h : ctx.Holds m) {dst : Arg} (hdst : dst.isTemp = true)
    (op : TcgOp) (v : UInt64) : FoldedTo ctx (tcgOptGenMovi ctx op dst v) m (m.write dst v) := by
  have hmov := tcgOptGenMov_sound h hdst op (ctx.argNewConstant v)
  unfold tcgOptGenMovi
  rw [argNewConstant_of_i64 hty] at hmov ⊢
  exact hmov

/-- **`finish_folding`**: the op stays, and nothing is known of its
output. -/
theorem finishFolding_sound (h : ctx.Holds m) {v : UInt64} (hexec : tciExec op m = m.write op.arg0 v) :
    FoldedTo ctx (finishFolding ctx op) m (tciExec op m) := by
  refine ⟨rfl, ?_, by simp [finishFolding], by simp [finishFolding]⟩
  rw [hexec]
  exact h.resetTemp op.arg0 v

/-- **`fold_masks_z`**: a mask that holds of the value the op writes. -/
theorem foldMasksZ_sound (hty : ctx.type = .i64) (h : ctx.Holds m) (hdst : op.arg0.isTemp = true) {v z : UInt64}
    (hexec : tciExec op m = m.write op.arg0 v) (hz : v &&& ~~~z = 0) :
    FoldedTo ctx (foldMasksZ ctx op z) m (tciExec op m) := by
  unfold foldMasksZ
  simp only [hty, reduceCtorEq, if_false]
  split_ifs with h0
  · -- no bit may be set: the op writes 0
    have hv : v = 0 := by simpa [h0] using hz
    rw [hexec, hv]
    exact tcgOptGenMovi_sound hty h hdst op 0
  · refine ⟨rfl, ?_, by simp, by simp⟩
    rw [hexec]
    refine (h.resetTemp op.arg0 v).setInfo ?_
    rw [Machine.read_write_of_isTemp m hdst]
    exact ⟨hz, UInt64.zero_and⟩

/-- **`fold_const2`**: two constant inputs make the op a copy of the
constant it computes. -/
theorem foldConst2_sound (hty : ctx.type = .i64) (h : ctx.Holds m) (hdst : op.arg0.isTemp = true)
    {f : UInt64 → UInt64 → UInt64} (hexec : tciExec op m = m.write op.arg0 (f (m.read op.arg1) (m.read op.arg2)))
    (hr : foldConst2 f ctx op = some r) : FoldedTo ctx r m (tciExec op m) := by
  unfold foldConst2 at hr
  simp only [hty, reduceCtorEq, if_false] at hr
  split_ifs at hr with hc
  simp only [Bool.and_eq_true] at hc
  cases hr
  rw [hexec, read_eq_of_isConst h.info hc.1, read_eq_of_isConst h.info hc.2]
  exact tcgOptGenMovi_sound hty h hdst op _

/-- **`fold_xi_to_x`**: with the constant `i` second, the op copies its
first input. -/
theorem foldXiToX_sound (h : ctx.Holds m) (hdst : op.arg0.isTemp = true) {i : UInt64}
    (hexec : m.read op.arg2 = i → tciExec op m = m.write op.arg0 (m.read op.arg1))
    (hr : foldXiToX ctx op i = some r) : FoldedTo ctx r m (tciExec op m) := by
  unfold foldXiToX at hr
  split_ifs at hr with hc
  cases hr
  rw [hexec (read_eq_of_argIsConstVal h.info hc)]
  exact tcgOptGenMov_sound h hdst op op.arg1

/-- **`fold_xx_to_i`**: with two copies as inputs, the op writes `i`. -/
theorem foldXxToI_sound (hty : ctx.type = .i64) (h : ctx.Holds m) (hdst : op.arg0.isTemp = true) {i : UInt64}
    (hexec : m.read op.arg1 = m.read op.arg2 → tciExec op m = m.write op.arg0 i)
    (hr : foldXxToI ctx op i = some r) : FoldedTo ctx r m (tciExec op m) := by
  unfold foldXxToI at hr
  split_ifs at hr with hc
  cases hr
  rw [hexec (read_eq_of_tsAreCopies h.copies hc)]
  exact tcgOptGenMovi_sound hty h hdst op i

/-- **`fold_neg_no_const`**: the mask of a negation. -/
theorem foldNegNoConst_sound (hty : ctx.type = .i64) (h : ctx.Holds m) (hdst : op.arg0.isTemp = true)
    (hop : op.opc = .neg) : FoldedTo ctx (foldNegNoConst ctx op) m (tciExec op m) :=
  foldMasksZ_sound hty h hdst (tciExec_of_neg hop) (Word.and_not_neg_lowest (argInfo_holds h.info op.arg1).1)

/-- **`fold_sub_to_neg`**: `sub r, 0, y` is `neg r, y`. -/
theorem foldSubToNeg_sound (hty : ctx.type = .i64) (h : ctx.Holds m) (hdst : op.arg0.isTemp = true)
    (hop : op.opc = .sub) (hr : foldSubToNeg ctx op = some r) : FoldedTo ctx r m (tciExec op m) := by
  unfold foldSubToNeg at hr
  split_ifs at hr with hc
  cases hr
  have hneg : tciExec op m = tciExec { op with opc := .neg, arg1 := op.arg2 } m := by
    rw [tciExec_of_sub hop, tciExec_of_neg rfl, read_eq_of_argIsConstVal h.info hc, UInt64.zero_sub]
  rw [hneg]
  exact foldNegNoConst_sound hty h hdst rfl

end Helpers

/-! ## `fold_add` and `fold_sub` -/

section FoldAddSub

variable {ctx : OptContext} {op : TcgOp} {m : Machine}

/-! Each fold tries its rewrites in turn and keeps the first that
applies: a property of every rewrite and of the default holds of the
result. -/

theorem forall_orElse {α : Type} {P : α → Prop} {a b : Option α} (ha : ∀ r, a = some r → P r)
    (hb : ∀ r, b = some r → P r) : ∀ r, (a <|> b) = some r → P r := by
  intro r hr
  cases a with
  | some x => exact ha r (by simpa using hr)
  | none => exact hb r (by simpa using hr)

theorem getD_of_forall {α : Type} {P : α → Prop} {o : Option α} {d : α} (ho : ∀ r, o = some r → P r) (hd : P d) :
    P (o.getD d) := by
  cases o with
  | some x => exact ho x rfl
  | none => exact hd

/-! Additions do not depend on the order of their operands. -/

theorem tciExec_swap (hop : op.opc = .add ∨ op.opc = .addco ∨ op.opc = .addci ∨ op.opc = .addcio ∨ op.opc = .addc1o) :
    tciExec { op with arg1 := op.arg2, arg2 := op.arg1 } m = tciExec op m := by
  have hswap : ({ op with arg1 := op.arg2, arg2 := op.arg1 } : TcgOp).opc = op.opc := rfl
  rcases hop with hop | hop | hop | hop | hop
  · rw [tciExec_of_add hop, tciExec_of_add (hswap.trans hop)]
    simp only [UInt64.add_comm (m.read op.arg2)]
  · rw [tciExec_of_addco hop, tciExec_of_addco (hswap.trans hop)]
    apply Machine.ext
    · simp only [UInt64.add_comm (m.read op.arg2)]
    · simp only [Word.add_lt_iff, decide_eq_decide]
      omega
  · rw [tciExec_of_addci hop, tciExec_of_addci (hswap.trans hop)]
    simp only [UInt64.add_comm (m.read op.arg2)]
  · rw [tciExec_of_addcio hop, tciExec_of_addcio (hswap.trans hop)]
    apply Machine.ext
    · simp only [regs_addcioExec, UInt64.add_comm (m.read op.arg2)]
    · simp only [carry_addcioExec, decide_eq_decide]
      omega
  · rw [tciExec_of_addc1o hop, tciExec_of_addc1o (hswap.trans hop)]
    apply Machine.ext
    · simp only [regs_addcioExec, UInt64.add_comm (m.read op.arg2)]
    · simp only [carry_addcioExec, decide_eq_decide]
      omega

theorem foldCommutative_cases (ctx : OptContext) (op : TcgOp) :
    foldCommutative ctx op = op ∨ foldCommutative ctx op = { op with arg1 := op.arg2, arg2 := op.arg1 } := by
  unfold foldCommutative swapCommutative
  dsimp only
  split_ifs
  · exact .inr rfl
  · exact .inl rfl

/-- `fold_commutative` keeps what an addition computes. -/
theorem tciExec_foldCommutative (ctx : OptContext)
    (hop : op.opc = .add ∨ op.opc = .addco ∨ op.opc = .addci ∨ op.opc = .addcio ∨ op.opc = .addc1o) :
    tciExec (foldCommutative ctx op) m = tciExec op m := by
  rcases foldCommutative_cases ctx op with h | h <;> rw [h]
  exact tciExec_swap hop

theorem opc_foldCommutative (ctx : OptContext) (op : TcgOp) : (foldCommutative ctx op).opc = op.opc := by
  rcases foldCommutative_cases ctx op with h | h <;> rw [h]

theorem arg0_foldCommutative (ctx : OptContext) (op : TcgOp) : (foldCommutative ctx op).arg0 = op.arg0 := by
  rcases foldCommutative_cases ctx op with h | h <;> rw [h]

/-- **`fold_add` is sound.** -/
theorem foldAdd_sound (hty : ctx.type = .i64) (h : ctx.Holds m) (hdst : op.arg0.isTemp = true) (hop : op.opc = .add) :
    FoldedTo ctx (foldAdd ctx op) m (tciExec op m) := by
  have hop' := (opc_foldCommutative ctx op).trans hop
  have hdst' : (foldCommutative ctx op).arg0.isTemp = true := (arg0_foldCommutative ctx op).symm ▸ hdst
  rw [← tciExec_foldCommutative ctx (.inl hop)]
  unfold foldAdd
  dsimp only
  generalize foldCommutative ctx op = op' at hop' hdst'
  refine getD_of_forall (forall_orElse (fun r hr => foldConst2_sound hty h hdst' (tciExec_of_add hop') hr)
    (fun r hr => foldXiToX_sound h hdst' (fun h0 => ?_) hr)) (finishFolding_sound h (tciExec_of_add hop'))
  -- adding zero copies the first input
  rw [tciExec_of_add hop', h0, UInt64.add_zero]

/-- **`fold_sub` is sound.** -/
theorem foldSub_sound (hty : ctx.type = .i64) (h : ctx.Holds m) (hdst : op.arg0.isTemp = true) (hop : op.opc = .sub) :
    FoldedTo ctx (foldSub ctx op) m (tciExec op m) := by
  unfold foldSub
  refine getD_of_forall (forall_orElse (fun r hr => foldConst2_sound hty h hdst (tciExec_of_sub hop) hr) <|
    forall_orElse (fun r hr => foldXxToI_sound hty h hdst (fun he => ?_) hr) <|
    forall_orElse (fun r hr => foldXiToX_sound h hdst (fun h0 => ?_) hr)
      (fun r hr => foldSubToNeg_sound hty h hdst hop hr)) ?_
  · rw [tciExec_of_sub hop, he, UInt64.sub_self]
  · rw [tciExec_of_sub hop, h0, UInt64.sub_zero]
  split_ifs with hc
  · -- `sub r, x, i` becomes `add r, x, -i`
    have hadd : tciExec { op with opc := .add, arg2 := ctx.argNewConstant (-tiConstVal (ctx.argInfo op.arg2)) } m =
        tciExec op m := by
      rw [tciExec_of_add rfl, tciExec_of_sub hop, argNewConstant_of_i64 hty, read_eq_of_isConst h.info hc]
      simp only [Machine.read_const, UInt64.sub_eq_add_neg]
    rw [← hadd]
    exact finishFolding_sound h (tciExec_of_add rfl)
  · exact finishFolding_sound h (tciExec_of_sub hop)

end FoldAddSub

/-! ## The squashed previous op -/

section Squash

variable {ctx : OptContext} {prev : TcgOp} {r : List TcgOp × OptContext} {m : Machine}

/-- Writing a value and then adding a constant to it writes the sum. -/
theorem tciExec_add_self (a : Arg) (v c : UInt64) :
    (tciExec ⟨.add, a, a, .const c⟩ (m.write a v)).regs = (m.write a (v + c)).regs := by
  cases a with
  | temp n => simp [tciExec, Machine.write, Machine.read]
  | const w => rfl

/-- Setting the flag changes no register. -/
theorem regs_write_setCarry (a : Arg) (v : UInt64) (c : Bool) :
    ({ m with carry := c }.write a v).regs = (m.write a v).regs := by
  cases a <;> rfl

/-- An op the squash keeps as it is, with what is known unchanged. -/
theorem foldedTo_keep {ops : List TcgOp} (hctx₁ : ctx.Holds (tciExec prev m))
    (hregs : (tciRun ops m).regs = (tciExec prev m).regs) :
    ∃ M, FoldedTo ctx (ops, ctx) m M ∧ M.regs = (tciExec prev m).regs :=
  ⟨_, ⟨rfl, hctx₁.congr hregs, rfl, rfl⟩, hregs⟩

/-- **`squash_prev_carryout`** leaves the registers `prev` left, and the
context after it holds there. -/
theorem squashPrevCarryout_sound (hty : ctx.type = .i64) (hprev : prev.arg0.isTemp = true) (hctx₀ : ctx.Holds m)
    (hctx₁ : ctx.Holds (tciExec prev m)) (h : squashPrevCarryout ctx prev = some r) :
    ∃ M, FoldedTo ctx r m M ∧ M.regs = (tciExec prev m).regs := by
  unfold squashPrevCarryout at h
  split at h
  · -- `addco` becomes `add`, folded
    rename_i hopc
    cases h
    refine ⟨_, foldAdd_sound hty hctx₀ hprev rfl, ?_⟩
    rw [tciExec_of_add rfl, tciExec_of_addco hopc]
  · -- `addcio` becomes `addci`
    rename_i hopc
    cases h
    refine foldedTo_keep hctx₁ ?_
    rw [tciRun_cons, tciRun_nil, tciExec_of_addcio hopc, regs_addcioExec, tciExec_of_addci rfl]
  · -- `addc1o`: the carry-in of one goes into the constant, or into an add of 1
    rename_i hopc
    dsimp only at h
    split at h
    · rename_i hc
      cases h
      refine ⟨_, foldAdd_sound hty hctx₀ hprev rfl, ?_⟩
      rw [tciExec_of_add rfl, tciExec_of_addc1o hopc, regs_addcioExec, regs_write_setCarry,
        argNewConstant_of_i64 hty, Machine.read_const, ← read_eq_of_isConst hctx₀.info hc]
      have hval : m.read prev.arg1 + (m.read prev.arg2 + 1) = m.read prev.arg1 + m.read prev.arg2 + carryBit true := by
        simp only [carryBit, if_true]
        grind
      rw [hval]
      exact (regs_write_setCarry _ _ _).symm
    · cases h
      refine foldedTo_keep hctx₁ ?_
      rw [tciRun_cons, tciRun_cons, tciRun_nil, argNewConstant_of_i64 hty,
        show tciExec ⟨.add, prev.arg0, prev.arg1, prev.arg2⟩ m =
          m.write prev.arg0 (m.read prev.arg1 + m.read prev.arg2) from rfl,
        tciExec_add_self, tciExec_of_addc1o hopc, regs_addcioExec]
      exact (regs_write_setCarry _ _ _).symm
  · cases h

/-- **`squash_prev_borrowout`** leaves the registers `prev` left, and the
context after it holds there. -/
theorem squashPrevBorrowout_sound (hty : ctx.type = .i64) (hprev : prev.arg0.isTemp = true) (hctx₀ : ctx.Holds m)
    (hctx₁ : ctx.Holds (tciExec prev m)) (h : squashPrevBorrowout ctx prev = some r) :
    ∃ M, FoldedTo ctx r m M ∧ M.regs = (tciExec prev m).regs := by
  unfold squashPrevBorrowout at h
  split at h
  · -- `subbo` becomes `sub`, folded
    rename_i hopc
    cases h
    refine ⟨_, foldSub_sound hty hctx₀ hprev rfl, ?_⟩
    rw [tciExec_of_sub rfl, tciExec_of_subbo hopc]
  · -- `subbio` becomes `subbi`
    rename_i hopc
    cases h
    refine foldedTo_keep hctx₁ ?_
    rw [tciRun_cons, tciRun_nil, tciExec_of_subbio hopc, regs_subbioExec, tciExec_of_subbi rfl]
  · -- `subb1o`: the borrow-in of one goes into the constant, or into an add of -1
    rename_i hopc
    dsimp only at h
    split at h
    · rename_i hc
      cases h
      refine ⟨_, foldAdd_sound hty hctx₀ hprev rfl, ?_⟩
      rw [tciExec_of_add rfl, tciExec_of_subb1o hopc, regs_subbioExec, regs_write_setCarry,
        argNewConstant_of_i64 hty, Machine.read_const, ← read_eq_of_isConst hctx₀.info hc]
      have hval : m.read prev.arg1 + -(m.read prev.arg2 + 1) = m.read prev.arg1 - m.read prev.arg2 - carryBit true := by
        simp only [carryBit, if_true]
        grind
      rw [hval]
      exact (regs_write_setCarry _ _ _).symm
    · cases h
      refine foldedTo_keep hctx₁ ?_
      rw [tciRun_cons, tciRun_cons, tciRun_nil, argNewConstant_of_i64 hty,
        show tciExec ⟨.sub, prev.arg0, prev.arg1, prev.arg2⟩ m =
          m.write prev.arg0 (m.read prev.arg1 - m.read prev.arg2) from rfl,
        tciExec_add_self, tciExec_of_subb1o hopc, regs_subbioExec]
      have hval : m.read prev.arg1 - m.read prev.arg2 + -1 = m.read prev.arg1 - m.read prev.arg2 - carryBit true := by
        simp only [carryBit, if_true]
        grind
      rw [hval]
      exact (regs_write_setCarry _ _ _).symm
  · cases h

end Squash

end QemuFormal.Tcg

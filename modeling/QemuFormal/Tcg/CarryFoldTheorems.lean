/-
QemuFormal.Tcg.CarryFoldTheorems — what carry folding preserves, and the
branch of `fold_subbio` where it does not.

The setting is an op `op` that reads the carry, folded right after the
op `prev` that produced it. `carry_state` is assumed to be right about
the carry `prev` leaves (`CarryKnown`), and what the optimizer knows of
the temps to hold before and after `prev` (`OptContext.Holds`). A fold
is sound when the ops it emits leave the registers as `prev; op` does,
when they leave the same carry if `op` produces one, and when the
`carry_state` it records is right about that carry.

The squash of `prev` computes what `prev` did, and the context after it
holds there (`squashPrevBorrowout_sound`, `squashPrevCarryout_sound`);
the fold reads what it knows of the operands of `op` from that context.
Each rewrite of `op` is then one lemma about one op:
`tciExec_subbo_of_subbio` and its neighbours. `foldSubbi_sound`,
`foldAddci_sound` and `foldAddcio_sound` cover every branch of their
fold. `foldSubbio_sound` covers every branch but one: with a known
borrow-in of one and a constant first operand `v ≠ 0`, the source writes
`v - 1` into the second operand instead of the first, and the op then
computes `1` (`foldSubbio_constMinuend`). The semantics is TCI's, on
64-bit ops.
-/
import QemuFormal.Tcg.FoldAddSub

namespace QemuFormal.Tcg

/-- What `carry_state` says of the carry: `0` and `1` are its value,
anything else says nothing. -/
def CarryKnown (c : Int) (carry : Bool) : Prop :=
  (c = 0 → carry = false) ∧ (c = 1 → carry = true)

theorem carryKnown_of_neg {c : Int} (h : c < 0) (carry : Bool) : CarryKnown c carry :=
  ⟨fun h₀ => absurd h₀ (by omega), fun h₁ => absurd h₁ (by omega)⟩

/-! ## One op rewritten

Each lemma runs the rewritten op on a machine `m'` with the registers of
`m` (the squashed `prev` may leave another flag), and the original op on
`m`. -/

section Rewrites

variable {op : TcgOp} {m m' : Machine}

/-- With no borrow-in, `subbio` is `subbo`. -/
theorem tciExec_subbo_of_subbio (hop : op.opc = .subbio) (hregs : m'.regs = m.regs) (hc : m.carry = false) :
    tciExec { op with opc := .subbo } m' = tciExec op m := by
  rw [tciExec_of_subbio hop, tciExec_of_subbo rfl]
  apply Machine.ext
  · rw [regs_subbioExec, hc]
    simp [carryBit, Machine.read_congr hregs, Machine.regs_write_congr hregs]
  · rw [carry_subbioExec, hc]
    simp [Machine.read_congr hregs, UInt64.lt_iff_toNat_lt]

/-- With a borrow-in of one, `subbio x, v` is `subbo x, v + 1` when
`v + 1` does not wrap. -/
theorem tciExec_subbo_succ_of_subbio (hop : op.opc = .subbio) (hregs : m'.regs = m.regs) (hc : m.carry = true)
    {v : UInt64} (hv : m.read op.arg2 = v) (hlt : v.toNat < 2 ^ 64 - 1) :
    tciExec { op with opc := .subbo, arg2 := .const (v + 1) } m' = tciExec op m := by
  rw [tciExec_of_subbio hop, tciExec_of_subbo rfl]
  have hsucc : (v + 1).toNat = v.toNat + 1 := by
    rw [UInt64.toNat_add, show (1 : UInt64).toNat = 1 from rfl]
    omega
  apply Machine.ext
  · rw [regs_subbioExec, hc, hv]
    have hval : m.read op.arg1 - (v + 1) = m.read op.arg1 - v - carryBit true := by
      simp only [carryBit, if_true]
      grind
    simp [Machine.read_congr hregs, Machine.regs_write_congr hregs, hval]
  · rw [carry_subbioExec, hc, hv]
    simp [Machine.read_congr hregs, UInt64.lt_iff_toNat_lt, hsucc]

/-- `subb1o` sets the borrow-in of one that `subbio` had. -/
theorem tciExec_subb1o_of_subbio (hop : op.opc = .subbio) (hregs : m'.regs = m.regs) (hc : m.carry = true) :
    tciExec { op with opc := .subb1o } m' = tciExec op m := by
  rw [tciExec_of_subbio hop, tciExec_of_subb1o rfl]
  apply Machine.ext
  · rw [regs_subbioExec, regs_subbioExec, hc]
    simp only [Machine.read_congr hregs]
    rw [regs_write_setCarry]
    exact Machine.regs_write_congr hregs _ _
  · rw [carry_subbioExec, carry_subbioExec, hc]
    simp [Machine.read_congr hregs]

/-- **`fold_subbo`** is right about the borrow it records. -/
theorem foldSubbo_known {ctx : OptContext} (hinfo : ctx.InfoHolds m) (hop : op.opc = .subbo) :
    CarryKnown (foldSubbo ctx op).2 (tciExec op m).carry := by
  rw [tciExec_of_subbo hop]
  unfold foldSubbo
  dsimp only
  split_ifs with h2 h0 h1 hlt
  · -- nothing is below zero
    refine ⟨fun _ => ?_, fun h => absurd h (by omega)⟩
    rw [read_eq_of_isConst hinfo h2, h0]
    simp [UInt64.lt_iff_toNat_lt]
  · -- both constant, first below second
    refine ⟨fun h => absurd h (by omega), fun _ => ?_⟩
    rw [read_eq_of_isConst hinfo h1, read_eq_of_isConst hinfo h2]
    simpa using hlt
  · refine ⟨fun _ => ?_, fun h => absurd h (by omega)⟩
    rw [read_eq_of_isConst hinfo h1, read_eq_of_isConst hinfo h2]
    simpa using hlt
  · exact carryKnown_of_neg (by omega) _
  · exact carryKnown_of_neg (by omega) _

/-- With no borrow-in, `subbi` is `sub`. -/
theorem tciExec_sub_of_subbi (hop : op.opc = .subbi) (hregs : m'.regs = m.regs) (hc : m.carry = false) :
    (tciExec { op with opc := .sub } m').regs = (tciExec op m).regs := by
  rw [tciExec_of_subbi hop, tciExec_of_sub rfl, hc]
  simp only [Machine.read_congr hregs, carryBit]
  simpa using Machine.regs_write_congr hregs _ _

/-- With a borrow-in of one, `subbi x, v` is `add x, -(v + 1)`. -/
theorem tciExec_add_of_subbi (hop : op.opc = .subbi) (hregs : m'.regs = m.regs) (hc : m.carry = true)
    {v : UInt64} (hv : m.read op.arg2 = v) :
    (tciExec { op with opc := .add, arg2 := .const (-(v + 1)) } m').regs = (tciExec op m).regs := by
  rw [tciExec_of_subbi hop, tciExec_of_add rfl, hc, hv]
  have hval : m.read op.arg1 + -(v + 1) = m.read op.arg1 - v - carryBit true := by
    simp only [carryBit, if_true]
    grind
  simp only [Machine.read_congr hregs, Machine.read_const, hval]
  exact Machine.regs_write_congr hregs _ _

/-- With a borrow-in of one, `subbi x, y` is `sub r, x, y; add r, r, -1`. -/
theorem tciRun_sub_add_of_subbi (hop : op.opc = .subbi) (hregs : m'.regs = m.regs) (hc : m.carry = true) :
    (tciRun [⟨.sub, op.arg0, op.arg1, op.arg2⟩, ⟨.add, op.arg0, op.arg0, .const (-1)⟩] m').regs =
      (tciExec op m).regs := by
  rw [tciRun_cons, tciRun_cons, tciRun_nil,
    show tciExec ⟨.sub, op.arg0, op.arg1, op.arg2⟩ m' = m'.write op.arg0 (m'.read op.arg1 - m'.read op.arg2) from rfl,
    tciExec_add_self, tciExec_of_subbi hop, hc]
  have hval : m.read op.arg1 - m.read op.arg2 + -1 = m.read op.arg1 - m.read op.arg2 - carryBit true := by
    simp only [carryBit, if_true]
    grind
  simp only [Machine.read_congr hregs, hval]
  exact Machine.regs_write_congr hregs _ _

/-! Carry-ins of `addci` and `addcio`. -/

/-- With no carry-in, `addci` is `add`. -/
theorem tciExec_add_of_addci (hop : op.opc = .addci) (hregs : m'.regs = m.regs) (hc : m.carry = false) :
    (tciExec { op with opc := .add } m').regs = (tciExec op m).regs := by
  rw [tciExec_of_addci hop, tciExec_of_add rfl, hc]
  simp only [Machine.read_congr hregs, carryBit]
  simpa using Machine.regs_write_congr hregs _ _

/-- With a carry-in of one, `addci x, v` is `add x, v + 1`. -/
theorem tciExec_add_succ_of_addci (hop : op.opc = .addci) (hregs : m'.regs = m.regs) (hc : m.carry = true)
    {v : UInt64} (hv : m.read op.arg2 = v) :
    (tciExec { op with opc := .add, arg2 := .const (v + 1) } m').regs = (tciExec op m).regs := by
  rw [tciExec_of_addci hop, tciExec_of_add rfl, hc, hv]
  have hval : m.read op.arg1 + (v + 1) = m.read op.arg1 + v + carryBit true := by
    simp only [carryBit, if_true]
    grind
  simp only [Machine.read_congr hregs, Machine.read_const, hval]
  exact Machine.regs_write_congr hregs _ _

/-- With a carry-in of one, `addci x, y` is `add r, x, y; add r, r, 1`. -/
theorem tciRun_add_add_of_addci (hop : op.opc = .addci) (hregs : m'.regs = m.regs) (hc : m.carry = true) :
    (tciRun [⟨.add, op.arg0, op.arg1, op.arg2⟩, ⟨.add, op.arg0, op.arg0, .const 1⟩] m').regs =
      (tciExec op m).regs := by
  rw [tciRun_cons, tciRun_cons, tciRun_nil,
    show tciExec ⟨.add, op.arg0, op.arg1, op.arg2⟩ m' = m'.write op.arg0 (m'.read op.arg1 + m'.read op.arg2) from rfl,
    tciExec_add_self, tciExec_of_addci hop, hc]
  simp only [Machine.read_congr hregs]
  exact Machine.regs_write_congr hregs _ _

/-- With no carry-in, `addcio` is `addco`. -/
theorem tciExec_addco_of_addcio (hop : op.opc = .addcio) (hregs : m'.regs = m.regs) (hc : m.carry = false) :
    tciExec { op with opc := .addco } m' = tciExec op m := by
  rw [tciExec_of_addcio hop, tciExec_of_addco rfl]
  apply Machine.ext
  · rw [regs_addcioExec, hc]
    simp [carryBit, Machine.read_congr hregs, Machine.regs_write_congr hregs]
  · rw [carry_addcioExec, hc]
    simp [Machine.read_congr hregs, Word.add_lt_iff]

/-- With a carry-in of one, `addcio x, v` is `addco x, v + 1` when `v + 1`
does not wrap. -/
theorem tciExec_addco_succ_of_addcio (hop : op.opc = .addcio) (hregs : m'.regs = m.regs) (hc : m.carry = true)
    {v : UInt64} (hv : m.read op.arg2 = v) (hlt : v.toNat < 2 ^ 64 - 1) :
    tciExec { op with opc := .addco, arg2 := .const (v + 1) } m' = tciExec op m := by
  rw [tciExec_of_addcio hop, tciExec_of_addco rfl]
  have hsucc : (v + 1).toNat = v.toNat + 1 := by
    rw [UInt64.toNat_add, show (1 : UInt64).toNat = 1 from rfl]
    omega
  apply Machine.ext
  · rw [regs_addcioExec, hc, hv]
    have hval : m.read op.arg1 + (v + 1) = m.read op.arg1 + v + carryBit true := by
      simp only [carryBit, if_true]
      grind
    simp [Machine.read_congr hregs, Machine.regs_write_congr hregs, hval]
  · rw [carry_addcioExec, hc, hv]
    simp only [Machine.read_congr hregs, Machine.read_const, Word.add_lt_iff, hsucc, toNat_carryBit, if_true,
      decide_eq_decide]
    omega

/-- The same with the constant first. -/
theorem tciExec_addco_succ_left_of_addcio (hop : op.opc = .addcio) (hregs : m'.regs = m.regs) (hc : m.carry = true)
    {v : UInt64} (hv : m.read op.arg1 = v) (hlt : v.toNat < 2 ^ 64 - 1) :
    tciExec { op with opc := .addco, arg1 := .const (v + 1) } m' = tciExec op m := by
  rw [tciExec_of_addcio hop, tciExec_of_addco rfl]
  have hsucc : (v + 1).toNat = v.toNat + 1 := by
    rw [UInt64.toNat_add, show (1 : UInt64).toNat = 1 from rfl]
    omega
  apply Machine.ext
  · rw [regs_addcioExec, hc, hv]
    have hval : v + 1 + m.read op.arg2 = v + m.read op.arg2 + carryBit true := by
      simp only [carryBit, if_true]
      grind
    simp [Machine.read_congr hregs, Machine.regs_write_congr hregs, hval]
  · rw [carry_addcioExec, hc, hv]
    simp only [Machine.read_congr hregs, Machine.read_const, Word.add_lt_iff, hsucc, toNat_carryBit, if_true,
      decide_eq_decide]
    omega

/-- `addc1o` sets the carry-in of one that `addcio` had. -/
theorem tciExec_addc1o_of_addcio (hop : op.opc = .addcio) (hregs : m'.regs = m.regs) (hc : m.carry = true) :
    tciExec { op with opc := .addc1o } m' = tciExec op m := by
  rw [tciExec_of_addcio hop, tciExec_of_addc1o rfl]
  apply Machine.ext
  · rw [regs_addcioExec, regs_addcioExec, hc]
    simp only [Machine.read_congr hregs]
    rw [regs_write_setCarry]
    exact Machine.regs_write_congr hregs _ _
  · rw [carry_addcioExec, carry_addcioExec, hc]
    simp [Machine.read_congr hregs]

/-- Adding `UINT64_MAX` with a carry-in of one always carries. -/
theorem carry_addcio_of_max (hop : op.opc = .addcio) (hc : m.carry = true)
    (hmax : m.read op.arg1 = 0xFFFFFFFFFFFFFFFF ∨ m.read op.arg2 = 0xFFFFFFFFFFFFFFFF) :
    (tciExec op m).carry = true := by
  rw [tciExec_of_addcio hop, carry_addcioExec, hc]
  have hmax' : (m.read op.arg1).toNat = 2 ^ 64 - 1 ∨ (m.read op.arg2).toNat = 2 ^ 64 - 1 := by
    rcases hmax with h | h <;> rw [h] <;> simp
  simp only [toNat_carryBit, if_true, decide_eq_true_eq]
  omega

/-- An `addcio` within the `z_mask`s of its operands, with room for a
carry-in, does not carry. -/
theorem carry_addcio_of_zMask {ctx : OptContext} (hinfo : ctx.InfoHolds m) (hop : op.opc = .addcio)
    (hroom : (ctx.argInfo op.arg1).zMask.toNat + (ctx.argInfo op.arg2).zMask.toNat + 1 < 2 ^ 64) :
    (tciExec op m).carry = false := by
  rw [tciExec_of_addcio hop, carry_addcioExec]
  have h₁ := toNat_read_le hinfo op.arg1
  have h₂ := toNat_read_le hinfo op.arg2
  have hbit : (carryBit m.carry).toNat ≤ 1 := by cases m.carry <;> simp
  simp only [decide_eq_false_iff_not, not_le]
  omega

end Rewrites

/-! ## After the squash

The fold reads what it knows of the operands of `op` from the context
the squash of `prev` leaves; that context holds of the machine the
squashed ops leave, whose registers are those `prev` left. -/

section AfterSquash

variable {ctx : OptContext} {prev : TcgOp} {m M : Machine}

/-- An operand known constant after the squash holds that constant after
`prev`. -/
theorem read_eq_of_isConst_squashed {ctx' : OptContext} (hctx' : ctx'.Holds M) (hregs : M.regs = (tciExec prev m).regs)
    {a : Arg} (hc : tiIsConst (ctx'.argInfo a) = true) : (tciExec prev m).read a = tiConstVal (ctx'.argInfo a) :=
  (Machine.read_congr hregs a).symm.trans (read_eq_of_isConst hctx'.info hc)

/-- A word that is not below `UINT64_MAX` is `UINT64_MAX`. -/
theorem eq_max_of_not_lt {v : UInt64} (h : ¬v < 0xFFFFFFFFFFFFFFFF) : v = 0xFFFFFFFFFFFFFFFF := by
  have hv := v.toNat_lt
  rw [UInt64.lt_iff_toNat_lt] at h
  exact UInt64.toNat_inj.mp (by simp only [show (0xFFFFFFFFFFFFFFFF : UInt64).toNat = 2 ^ 64 - 1 from rfl] at h ⊢; omega)

end AfterSquash

/-! ## `fold_subbio` -/

/-- The branch of `fold_subbio` that puts `v - 1` into `args[2]`: a known
borrow-in of one and, as the squash of `prev` leaves them known, a
second operand that takes no constant and a constant first operand
`v ≠ 0`. -/
def ConstMinuend (ctx : OptContext) (prev op : TcgOp) : Prop :=
  ctx.carryState = 1 ∧ ∃ prevs ctx', squashPrevBorrowout ctx prev = some (prevs, ctx') ∧
    ¬(tiIsConst (ctx'.argInfo op.arg2) = true ∧ tiConstVal (ctx'.argInfo op.arg2) &&& ctx'.max < ctx'.max) ∧
    tiIsConst (ctx'.argInfo op.arg1) = true ∧ tiConstVal (ctx'.argInfo op.arg1) ≠ 0

section FoldSubbio

variable {ctx : OptContext} {prev op : TcgOp} {ops : List TcgOp} {c' : Int} {m : Machine}

theorem foldSubbo_fst (op : TcgOp) : (foldSubbo ctx op).1 = op := rfl

/-- Subtracting `UINT64_MAX` with a borrow-in of one always borrows. -/
theorem carry_subbio_of_max {op : TcgOp} (hop : op.opc = .subbio) (hc : m.carry = true)
    (hmax : m.read op.arg2 = 0xFFFFFFFFFFFFFFFF) : (tciExec op m).carry = true := by
  rw [tciExec_of_subbio hop, carry_subbioExec, hc, hmax]
  have hx := (m.read op.arg1).toNat_lt
  simp only [toNat_carryBit, if_true, decide_eq_true_eq, show (0xFFFFFFFFFFFFFFFF : UInt64).toNat = 2 ^ 64 - 1 from rfl]
  omega

/-- **`fold_subbio` is sound** outside the constant-minuend branch: the
ops it emits leave the machine `prev; op` leaves, and the borrow it
records is that machine's. -/
theorem foldSubbio_sound (hty : ctx.type = .i64) (hcs : -1 ≤ ctx.carryState ∧ ctx.carryState ≤ 1)
    (hop : op.opc = .subbio) (hprev : prev.arg0.isTemp = true) (hbranch : ¬ConstMinuend ctx prev op)
    (hctx₀ : ctx.Holds m) (hctx₁ : ctx.Holds (tciExec prev m))
    (hknown : CarryKnown ctx.carryState (tciExec prev m).carry)
    (h : foldSubbio ctx prev op = some (ops, c')) :
    tciRun ops m = tciRun [prev, op] m ∧ CarryKnown c' (tciRun [prev, op] m).carry := by
  unfold foldSubbio at h
  rw [show tciRun [prev, op] m = tciExec op (tciExec prev m) from rfl]
  by_cases hneg : ctx.carryState < 0
  · -- unknown borrow: nothing changes
    rw [if_pos hneg] at h
    cases h
    exact ⟨rfl, carryKnown_of_neg hneg _⟩
  rw [if_neg hneg] at h
  cases hsq : squashPrevBorrowout ctx prev with
  | none => simp [hsq] at h
  | some r =>
    obtain ⟨prevs, ctx'⟩ := r
    obtain ⟨_, ⟨rfl, hctx', hty', hcs'⟩, hregs⟩ := squashPrevBorrowout_sound hty hprev hctx₀ hctx₁ hsq
    dsimp only at hctx' hty' hcs' hregs
    rw [hsq] at h
    simp only [Option.bind_eq_bind, Option.bind_some, Option.pure_def, foldSubbo_fst, hcs',
      argNewConstant_of_i64 (hty'.trans hty), max_of_i64 (hty'.trans hty), Word.and_allOnes] at h
    have hval {a : Arg} := read_eq_of_isConst_squashed (a := a) hctx' hregs
    -- what is left is the op after the squashed `prev`
    split_ifs at h with h0 h2 hlt h1 hv1 h1 hv1 <;> obtain ⟨rfl, rfl⟩ := Prod.mk.inj (Option.some.inj h) <;>
      rw [tciRun_append_singleton]
    · -- no borrow-in: `subbo`
      have hexec := tciExec_subbo_of_subbio hop hregs (hknown.1 h0)
      exact ⟨hexec, hexec ▸ foldSubbo_known hctx'.info rfl⟩
    · -- borrow-in one, constant second operand `v < max`: `subbo x, v + 1`
      have hexec := tciExec_subbo_succ_of_subbio hop hregs (hknown.2 (by omega)) (hval h2)
        (by rw [UInt64.lt_iff_toNat_lt] at hlt; exact hlt)
      exact ⟨hexec, hexec ▸ foldSubbo_known hctx'.info rfl⟩
    · refine absurd ⟨by omega, prevs, ctx', hsq, fun h => hlt ?_, h1, hv1⟩ hbranch
      simpa only [max_of_i64 (hty'.trans hty), Word.and_allOnes] using h.2
    · -- second operand `max`: `subb1o`, known to borrow
      have hmax := (hval h2).trans (eq_max_of_not_lt hlt)
      exact ⟨tciExec_subb1o_of_subbio hop hregs (hknown.2 (by omega)),
        fun h => absurd h (by omega), fun _ => carry_subbio_of_max hop (hknown.2 (by omega)) hmax⟩
    · have hmax := (hval h2).trans (eq_max_of_not_lt hlt)
      exact ⟨tciExec_subb1o_of_subbio hop hregs (hknown.2 (by omega)),
        fun h => absurd h (by omega), fun _ => carry_subbio_of_max hop (hknown.2 (by omega)) hmax⟩
    · exact absurd ⟨by omega, prevs, ctx', hsq, fun h => h2 h.1, h1, hv1⟩ hbranch
    · -- nothing known of the operands: `subb1o`
      exact ⟨tciExec_subb1o_of_subbio hop hregs (hknown.2 (by omega)), carryKnown_of_neg (by omega) _⟩
    · exact ⟨tciExec_subb1o_of_subbio hop hregs (hknown.2 (by omega)), carryKnown_of_neg (by omega) _⟩

/-- No borrow-in: `subbo t0, t1, t2; subbio t3, t4, t5` folds into
`sub t0, t1, t2; subbo t3, t4, t5`. -/
theorem foldSubbio_sound_no_borrow :
    ¬ConstMinuend ⟨fun _ => ⟨0xFFFFFFFFFFFFFFFF, 0⟩, fun _ _ => false, .i64, 0⟩ ⟨.subbo, .temp 0, .temp 1, .temp 2⟩
        ⟨.subbio, .temp 3, .temp 4, .temp 5⟩ ∧
    CarryKnown 0 (tciExec ⟨.subbo, .temp 0, .temp 1, .temp 2⟩ ⟨fun n => if n = 1 then 3 else 1, false⟩).carry ∧
    foldSubbio ⟨fun _ => ⟨0xFFFFFFFFFFFFFFFF, 0⟩, fun _ _ => false, .i64, 0⟩ ⟨.subbo, .temp 0, .temp 1, .temp 2⟩
        ⟨.subbio, .temp 3, .temp 4, .temp 5⟩ =
      some ([⟨.sub, .temp 0, .temp 1, .temp 2⟩, ⟨.subbo, .temp 3, .temp 4, .temp 5⟩], -1) ∧
    tciRun [⟨.sub, .temp 0, .temp 1, .temp 2⟩, ⟨.subbo, .temp 3, .temp 4, .temp 5⟩]
        ⟨fun n => if n = 1 then 3 else 1, false⟩ =
      tciRun [⟨.subbo, .temp 0, .temp 1, .temp 2⟩, ⟨.subbio, .temp 3, .temp 4, .temp 5⟩]
        ⟨fun n => if n = 1 then 3 else 1, false⟩ := by
  have hbranch : ¬ConstMinuend ⟨fun _ => ⟨0xFFFFFFFFFFFFFFFF, 0⟩, fun _ _ => false, .i64, 0⟩
      ⟨.subbo, .temp 0, .temp 1, .temp 2⟩ ⟨.subbio, .temp 3, .temp 4, .temp 5⟩ := fun h => absurd h.1 (by decide)
  have hknown : CarryKnown 0 (tciExec ⟨.subbo, .temp 0, .temp 1, .temp 2⟩
      ⟨fun n => if n = 1 then 3 else 1, false⟩).carry := ⟨by decide, by decide⟩
  have hfold : foldSubbio ⟨fun _ => ⟨0xFFFFFFFFFFFFFFFF, 0⟩, fun _ _ => false, .i64, 0⟩
      ⟨.subbo, .temp 0, .temp 1, .temp 2⟩ ⟨.subbio, .temp 3, .temp 4, .temp 5⟩ =
        some ([⟨.sub, .temp 0, .temp 1, .temp 2⟩, ⟨.subbo, .temp 3, .temp 4, .temp 5⟩], -1) := by decide
  exact ⟨hbranch, hknown, hfold, (foldSubbio_sound rfl (by decide) rfl rfl hbranch (OptContext.holds_unknown _ _ _)
    (OptContext.holds_unknown _ _ _) hknown hfold).1⟩

/-- **The constant-minuend branch of `fold_subbio`.** There the source
rewrites `subbio r, v, y` into `subbo r, v, v - 1`, which writes `1` and
does not borrow; `prev; subbio` writes `v - y - 1` and borrows when
`v ≤ y`. -/
theorem foldSubbio_constMinuend (hty : ctx.type = .i64) (hop : op.opc = .subbio) {n : Nat} (hout : op.arg0 = .temp n)
    (hprev : prev.arg0.isTemp = true) (hbranch : ConstMinuend ctx prev op) (hctx₀ : ctx.Holds m)
    (hctx₁ : ctx.Holds (tciExec prev m)) (hknown : CarryKnown ctx.carryState (tciExec prev m).carry)
    (h : foldSubbio ctx prev op = some (ops, c')) :
    (tciRun ops m).regs n = 1 ∧ (tciRun ops m).carry = false ∧
      (tciRun [prev, op] m).regs n = (tciExec prev m).read op.arg1 - (tciExec prev m).read op.arg2 - 1 ∧
      (tciRun [prev, op] m).carry = decide ((tciExec prev m).read op.arg1 ≤ (tciExec prev m).read op.arg2) := by
  obtain ⟨h1, prevs, ctx', hsq, h2, ht1, hv1⟩ := hbranch
  obtain ⟨_, ⟨rfl, hctx', hty', hcs'⟩, hregs⟩ := squashPrevBorrowout_sound hty hprev hctx₀ hctx₁ hsq
  dsimp only at hctx' hty' hcs' hregs
  have hv := read_eq_of_isConst_squashed hctx' hregs ht1
  have hc := hknown.2 h1
  -- the source's result: `subbo` after the squashed `prev`
  have hops : ops = prevs ++ [{ op with opc := .subbo, arg2 := .const (tiConstVal (ctx'.argInfo op.arg1) - 1) }] := by
    unfold foldSubbio at h
    rw [if_neg (by omega), hsq] at h
    simp only [Option.bind_eq_bind, Option.bind_some, Option.pure_def, foldSubbo_fst, hcs',
      argNewConstant_of_i64 (hty'.trans hty)] at h
    rw [if_neg (by omega), if_pos ht1, if_pos hv1] at h
    split_ifs at h <;> first
      | exact absurd ⟨‹_›, ‹_›⟩ h2
      | exact (Prod.mk.inj (Option.some.inj h)).1.symm
  subst hops
  have hv' : (tciRun prevs m).read op.arg1 = tiConstVal (ctx'.argInfo op.arg1) := read_eq_of_isConst hctx'.info ht1
  have hpos : 0 < (tiConstVal (ctx'.argInfo op.arg1)).toNat := by
    rw [Nat.pos_iff_ne_zero, Ne, ← UInt64.toNat_zero, UInt64.toNat_inj]
    exact hv1
  rw [tciRun_append, tciRun_cons, tciRun_nil, tciRun_cons, tciRun_cons, tciRun_nil, tciExec_of_subbo rfl,
    tciExec_of_subbio hop, regs_subbioExec, carry_subbioExec, hc]
  simp only [hout, hv', hv]
  refine ⟨?_, ?_, by simp [Machine.write, carryBit], ?_⟩
  · -- the folded `subbo` computes `v - (v - 1)`
    simp only [Machine.write, Function.update_self, Machine.read_const]
    grind
  · have hone : (1 : UInt64).toNat = 1 := rfl
    have hle : 1 ≤ tiConstVal (ctx'.argInfo op.arg1) := UInt64.le_iff_toNat_le.mpr (by omega)
    simp only [Machine.read_const, decide_eq_false_iff_not, UInt64.lt_iff_toNat_lt, UInt64.toNat_sub_of_le _ _ hle, hone]
    omega
  · simp only [toNat_carryBit, if_true, decide_eq_decide, UInt64.le_iff_toNat_le]
    omega

/-- `subbo t0, $0, $1` borrows, and `fold_subbo` records it. The
`subbio t1, $5, t2` after it is folded into `mov t0, $-1;
subbo t1, $5, $4` (`fold_sub` makes a constant of the squashed `sub`),
which writes `1` to `t1` where `prev; subbio` writes `5 - 7 - 1`. -/
theorem foldSubbio_writes_one :
    (foldSubbo ⟨fun _ => ⟨0xFFFFFFFFFFFFFFFF, 0⟩, fun _ _ => false, .i64, -1⟩ ⟨.subbo, .temp 0, .const 0, .const 1⟩).2 = 1 ∧
    foldSubbio ⟨fun _ => ⟨0xFFFFFFFFFFFFFFFF, 0⟩, fun _ _ => false, .i64, 1⟩ ⟨.subbo, .temp 0, .const 0, .const 1⟩
        ⟨.subbio, .temp 1, .const 5, .temp 2⟩ =
      some ([⟨.mov, .temp 0, .const 0xFFFFFFFFFFFFFFFF, .const 1⟩, ⟨.subbo, .temp 1, .const 5, .const 4⟩], 0) ∧
    (tciRun [⟨.mov, .temp 0, .const 0xFFFFFFFFFFFFFFFF, .const 1⟩, ⟨.subbo, .temp 1, .const 5, .const 4⟩]
      ⟨fun n => if n = 2 then 7 else 0, false⟩).regs 1 = 1 ∧
    (tciRun [⟨.subbo, .temp 0, .const 0, .const 1⟩, ⟨.subbio, .temp 1, .const 5, .temp 2⟩]
      ⟨fun n => if n = 2 then 7 else 0, false⟩).regs 1 = 0xFFFFFFFFFFFFFFFD := by
  have hfold : foldSubbio ⟨fun _ => ⟨0xFFFFFFFFFFFFFFFF, 0⟩, fun _ _ => false, .i64, 1⟩
      ⟨.subbo, .temp 0, .const 0, .const 1⟩ ⟨.subbio, .temp 1, .const 5, .temp 2⟩ =
        some ([⟨.mov, .temp 0, .const 0xFFFFFFFFFFFFFFFF, .const 1⟩, ⟨.subbo, .temp 1, .const 5, .const 4⟩], 0) := by
    decide
  have hbranch : ConstMinuend ⟨fun _ => ⟨0xFFFFFFFFFFFFFFFF, 0⟩, fun _ _ => false, .i64, 1⟩
      ⟨.subbo, .temp 0, .const 0, .const 1⟩ ⟨.subbio, .temp 1, .const 5, .temp 2⟩ :=
    ⟨rfl, _, _, rfl, by decide, by decide, by decide⟩
  -- the branch writes 1, where the source ops write `5 - 7 - 1`
  obtain ⟨hone, -, hsrc, -⟩ := foldSubbio_constMinuend (m := ⟨fun n => if n = 2 then 7 else 0, false⟩) rfl rfl rfl
    rfl hbranch (OptContext.holds_unknown _ _ _) (OptContext.holds_unknown _ _ _) ⟨by decide, by decide⟩ hfold
  exact ⟨by decide, hfold, hone, hsrc.trans (by decide)⟩

end FoldSubbio

/-! ## `fold_subbi` -/

section FoldSubbi

variable {ctx : OptContext} {prev op : TcgOp} {ops : List TcgOp} {c' : Int} {m : Machine}

/-- **`fold_subbi` is sound**: the ops it emits leave the registers
`prev; subbi` leaves, and it records nothing about a borrow. -/
theorem foldSubbi_sound (hty : ctx.type = .i64) (hcs : -1 ≤ ctx.carryState ∧ ctx.carryState ≤ 1)
    (hop : op.opc = .subbi) (hprev : prev.arg0.isTemp = true) (hout : op.arg0.isTemp = true)
    (hctx₀ : ctx.Holds m) (hctx₁ : ctx.Holds (tciExec prev m))
    (hknown : CarryKnown ctx.carryState (tciExec prev m).carry)
    (h : foldSubbi ctx prev op = some (ops, c')) :
    (tciRun ops m).regs = (tciRun [prev, op] m).regs ∧ c' < 0 := by
  unfold foldSubbi at h
  dsimp only at h
  by_cases hneg : ctx.carryState < 0
  · -- unknown borrow: nothing changes
    rw [if_pos hneg] at h
    cases h
    exact ⟨rfl, hneg⟩
  rw [if_neg hneg] at h
  cases hsq : squashPrevBorrowout ctx prev with
  | none => simp [hsq] at h
  | some r =>
    obtain ⟨prevs, ctx'⟩ := r
    obtain ⟨_, ⟨rfl, hctx', hty', -⟩, hregs⟩ := squashPrevBorrowout_sound hty hprev hctx₀ hctx₁ hsq
    dsimp only at hctx' hty' hregs
    rw [hsq] at h
    simp only [Option.bind_eq_bind, Option.bind_some, Option.pure_def, argNewConstant_of_i64 (hty'.trans hty)] at h
    split_ifs at h with h0 h2 <;> obtain ⟨rfl, rfl⟩ := Prod.mk.inj (Option.some.inj h) <;>
      rw [tciRun_append]
    · -- no borrow-in: `sub`
      exact ⟨tciExec_sub_of_subbi hop hregs (hknown.1 h0), by omega⟩
    · -- borrow-in one, constant `v`: `add x, -(v + 1)`
      exact ⟨tciExec_add_of_subbi hop hregs (hknown.2 (by omega)) (read_eq_of_isConst_squashed hctx' hregs h2),
        by omega⟩
    · -- borrow-in one: `sub`, which `fold_sub` folds, and an add of -1
      obtain ⟨hrun, -, hty₂, -⟩ := @foldSub_sound _ ⟨.sub, op.arg0, op.arg1, op.arg2⟩ _ (hty'.trans hty) hctx' hout rfl
      rw [argNewConstant_of_i64 (hty₂.trans (hty'.trans hty)), tciRun_append, hrun]
      exact ⟨tciRun_sub_add_of_subbi hop hregs (hknown.2 (by omega)), by omega⟩

/-- `subbo r0, r1, r2` borrows with `r1 = 0` and `r2 = 1`, nothing being
known of the temps but the borrow; `subbi r3, r4, $5` after it folds
into `sub r0, r1, r2; add r3, r4, $-6`. -/
theorem foldSubbi_sound_const :
    CarryKnown 1 (tciExec ⟨.subbo, .temp 0, .temp 1, .temp 2⟩ ⟨fun n => if n = 2 then 1 else 0, false⟩).carry ∧
    foldSubbi ⟨fun _ => ⟨0xFFFFFFFFFFFFFFFF, 0⟩, fun _ _ => false, .i64, 1⟩ ⟨.subbo, .temp 0, .temp 1, .temp 2⟩
        ⟨.subbi, .temp 3, .temp 4, .const 5⟩ =
      some ([⟨.sub, .temp 0, .temp 1, .temp 2⟩, ⟨.add, .temp 3, .temp 4, .const (-6)⟩], -1) ∧
    (tciRun [⟨.sub, .temp 0, .temp 1, .temp 2⟩, ⟨.add, .temp 3, .temp 4, .const (-6)⟩]
        ⟨fun n => if n = 2 then 1 else 0, false⟩).regs =
      (tciRun [⟨.subbo, .temp 0, .temp 1, .temp 2⟩, ⟨.subbi, .temp 3, .temp 4, .const 5⟩]
        ⟨fun n => if n = 2 then 1 else 0, false⟩).regs := by
  have hknown : CarryKnown 1 (tciExec ⟨.subbo, .temp 0, .temp 1, .temp 2⟩
      ⟨fun n => if n = 2 then 1 else 0, false⟩).carry := ⟨by decide, by decide⟩
  have hfold : foldSubbi ⟨fun _ => ⟨0xFFFFFFFFFFFFFFFF, 0⟩, fun _ _ => false, .i64, 1⟩ ⟨.subbo, .temp 0, .temp 1, .temp 2⟩
      ⟨.subbi, .temp 3, .temp 4, .const 5⟩ =
        some ([⟨.sub, .temp 0, .temp 1, .temp 2⟩, ⟨.add, .temp 3, .temp 4, .const (-6)⟩], -1) := by decide
  exact ⟨hknown, hfold, (foldSubbi_sound rfl (by decide) rfl rfl rfl (OptContext.holds_unknown _ _ _)
    (OptContext.holds_unknown _ _ _) hknown hfold).1⟩

end FoldSubbi

/-! ## `fold_addco`, `fold_addci` and `fold_addcio` -/

section FoldAdd

variable {ctx : OptContext} {prev op : TcgOp} {ops : List TcgOp} {c' : Int} {m m' : Machine}

/-- **`fold_addco`** is right about the carry it records. -/
theorem foldAddco_known (hinfo : ctx.InfoHolds m) (hop : op.opc = .addco) :
    CarryKnown (foldAddco ctx op).2 (tciExec op m).carry := by
  rw [← tciExec_foldCommutative ctx (.inr (.inl hop)), tciExec_of_addco ((opc_foldCommutative ctx op).trans hop)]
  unfold foldAddco
  dsimp only
  generalize foldCommutative ctx op = op'
  split_ifs with h2 h1 hov h0 hz
  · -- two constants that overflow
    refine ⟨fun h => absurd h (by omega), fun _ => ?_⟩
    rw [read_eq_of_isConst hinfo h1, read_eq_of_isConst hinfo h2]
    simpa [Word.add_lt_iff, uadd64Overflow] using hov
  · -- two constants that do not
    refine ⟨fun _ => ?_, fun h => absurd h (by omega)⟩
    rw [read_eq_of_isConst hinfo h1, read_eq_of_isConst hinfo h2]
    simpa [Word.add_lt_iff, uadd64Overflow] using hov
  · -- adding zero
    refine ⟨fun _ => ?_, fun h => absurd h (by omega)⟩
    rw [read_eq_of_isConst hinfo h2, h0]
    simp
  · exact carryKnown_of_neg (by omega) _
  · -- the `z_mask`s do not overflow
    refine ⟨fun _ => ?_, fun h => absurd h (by omega)⟩
    have h₁ := toNat_read_le hinfo op'.arg1
    have h₂ := toNat_read_le hinfo op'.arg2
    simp only [uadd64Overflow, Bool.not_eq_eq_eq_not, Bool.not_true, decide_eq_false_iff_not, not_le] at hz
    simp only [Word.add_lt_iff, decide_eq_false_iff_not, not_le]
    omega
  · exact carryKnown_of_neg (by omega) _

/-- The `addco` that `fold_addcio` hands to `fold_addco` computes what it
computed, and `fold_addco` records its carry. -/
theorem foldAddco_sound {op'' : TcgOp} {M : Machine} (hinfo : ctx.InfoHolds m') (hop : op''.opc = .addco)
    (hexec : tciExec op'' m' = M) :
    tciExec (foldAddco ctx op'').1 m' = M ∧ CarryKnown (foldAddco ctx op'').2 M.carry :=
  ⟨(tciExec_foldCommutative ctx (.inr (.inl hop))).trans hexec, hexec ▸ foldAddco_known hinfo hop⟩

/-- The `carry_out` of `fold_addcio` from the `z_mask`s is right when
the carry-in may be one. -/
theorem carryKnown_zMask (hinfo : ctx.InfoHolds m) (hop : op.opc = .addcio) (hcs : ctx.carryState ≠ 0) :
    CarryKnown
      (if (!uadd64Overflow (ctx.argInfo op.arg1).zMask (ctx.argInfo op.arg2).zMask &&
          !uadd64Overflow ((ctx.argInfo op.arg1).zMask + (ctx.argInfo op.arg2).zMask)
            (carryBit (ctx.carryState != 0))) = true then 0 else -1)
      (tciExec op m).carry := by
  split_ifs with hz
  · refine ⟨fun _ => carry_addcio_of_zMask hinfo hop ?_, fun h => absurd h (by omega)⟩
    simp only [uadd64Overflow, Bool.and_eq_true, Bool.not_eq_eq_eq_not, Bool.not_true, decide_eq_false_iff_not,
      not_le, bne_iff_ne, ne_eq, hcs, not_false_eq_true, toNat_carryBit, if_true, UInt64.toNat_add] at hz
    omega
  · exact carryKnown_of_neg (by omega) _

/-- **`fold_addci` is sound**: the ops it emits leave the registers
`prev; addci` leaves, and it records nothing about a carry. -/
theorem foldAddci_sound (hty : ctx.type = .i64) (hcs : -1 ≤ ctx.carryState ∧ ctx.carryState ≤ 1)
    (hop : op.opc = .addci) (hprev : prev.arg0.isTemp = true) (hout : op.arg0.isTemp = true)
    (hctx₀ : ctx.Holds m) (hctx₁ : ctx.Holds (tciExec prev m))
    (hknown : CarryKnown ctx.carryState (tciExec prev m).carry)
    (h : foldAddci ctx prev op = some (ops, c')) :
    (tciRun ops m).regs = (tciRun [prev, op] m).regs ∧ c' < 0 := by
  have hexec := tciExec_foldCommutative ctx (m := tciExec prev m) (.inr (.inr (.inl hop)))
  have hop' := (opc_foldCommutative ctx op).trans hop
  have hout' := (arg0_foldCommutative ctx op).symm ▸ hout
  unfold foldAddci at h
  dsimp only at h
  generalize foldCommutative ctx op = op' at h hexec hop' hout'
  by_cases hneg : ctx.carryState < 0
  · -- unknown carry: only the operands may be swapped
    rw [if_pos hneg] at h
    cases h
    exact ⟨congrArg Machine.regs hexec, hneg⟩
  rw [if_neg hneg] at h
  cases hsq : squashPrevCarryout ctx prev with
  | none => simp [hsq] at h
  | some r =>
    obtain ⟨prevs, ctx'⟩ := r
    obtain ⟨_, ⟨rfl, hctx', hty', hcs'⟩, hregs⟩ := squashPrevCarryout_sound hty hprev hctx₀ hctx₁ hsq
    dsimp only at hctx' hty' hcs' hregs
    rw [hsq] at h
    simp only [Option.bind_eq_bind, Option.bind_some, Option.pure_def, hcs', argNewConstant_of_i64 (hty'.trans hty)] at h
    split_ifs at h with hpos h2 <;> obtain ⟨rfl, rfl⟩ := Prod.mk.inj (Option.some.inj h) <;>
      rw [tciRun_append]
    · -- carry-in one, constant `v`: `add x, v + 1`
      exact ⟨(tciExec_add_succ_of_addci hop' hregs (hknown.2 (by omega))
        (read_eq_of_isConst_squashed hctx' hregs h2)).trans (congrArg Machine.regs hexec), by omega⟩
    · -- carry-in one: `add`, which `fold_add` folds, and an add of 1
      obtain ⟨hrun, -, hty₂, -⟩ := @foldAdd_sound _ ⟨.add, op'.arg0, op'.arg1, op'.arg2⟩ _ (hty'.trans hty) hctx'
        hout' rfl
      rw [argNewConstant_of_i64 (hty₂.trans (hty'.trans hty)), tciRun_append, hrun]
      exact ⟨(tciRun_add_add_of_addci hop' hregs (hknown.2 (by omega))).trans (congrArg Machine.regs hexec),
        by omega⟩
    · -- no carry-in: `add`
      exact ⟨(tciExec_add_of_addci hop' hregs (hknown.1 (by omega))).trans (congrArg Machine.regs hexec), by omega⟩

/-- `addco r0, r1, r2` carries out of `r1 = 2^64 - 1` and `r2 = 1`,
nothing being known of the temps but the carry; `addci r3, r4, r5` after
it folds into `add r0, r1, r2; add r3, r4, r5; add r3, r3, $1`. -/
theorem foldAddci_sound_temps :
    CarryKnown 1 (tciExec ⟨.addco, .temp 0, .temp 1, .temp 2⟩
        ⟨fun n => if n = 1 then 0xFFFFFFFFFFFFFFFF else 1, false⟩).carry ∧
    foldAddci ⟨fun _ => ⟨0xFFFFFFFFFFFFFFFF, 0⟩, fun _ _ => false, .i64, 1⟩ ⟨.addco, .temp 0, .temp 1, .temp 2⟩
        ⟨.addci, .temp 3, .temp 4, .temp 5⟩ =
      some ([⟨.add, .temp 0, .temp 1, .temp 2⟩, ⟨.add, .temp 3, .temp 4, .temp 5⟩,
        ⟨.add, .temp 3, .temp 3, .const 1⟩], -1) ∧
    (tciRun [⟨.add, .temp 0, .temp 1, .temp 2⟩, ⟨.add, .temp 3, .temp 4, .temp 5⟩, ⟨.add, .temp 3, .temp 3, .const 1⟩]
        ⟨fun n => if n = 1 then 0xFFFFFFFFFFFFFFFF else 1, false⟩).regs =
      (tciRun [⟨.addco, .temp 0, .temp 1, .temp 2⟩, ⟨.addci, .temp 3, .temp 4, .temp 5⟩]
        ⟨fun n => if n = 1 then 0xFFFFFFFFFFFFFFFF else 1, false⟩).regs := by
  have hknown : CarryKnown 1 (tciExec ⟨.addco, .temp 0, .temp 1, .temp 2⟩
      ⟨fun n => if n = 1 then 0xFFFFFFFFFFFFFFFF else 1, false⟩).carry := ⟨by decide, by decide⟩
  have hfold : foldAddci ⟨fun _ => ⟨0xFFFFFFFFFFFFFFFF, 0⟩, fun _ _ => false, .i64, 1⟩
      ⟨.addco, .temp 0, .temp 1, .temp 2⟩ ⟨.addci, .temp 3, .temp 4, .temp 5⟩ =
        some ([⟨.add, .temp 0, .temp 1, .temp 2⟩, ⟨.add, .temp 3, .temp 4, .temp 5⟩,
          ⟨.add, .temp 3, .temp 3, .const 1⟩], -1) := by decide
  exact ⟨hknown, hfold, (foldAddci_sound rfl (by decide) rfl rfl rfl (OptContext.holds_unknown _ _ _)
    (OptContext.holds_unknown _ _ _) hknown hfold).1⟩

/-- **`fold_addcio` is sound**: the ops it emits leave the machine
`prev; addcio` leaves, and the carry it records is that machine's. -/
theorem foldAddcio_sound (hty : ctx.type = .i64) (hcs : -1 ≤ ctx.carryState ∧ ctx.carryState ≤ 1)
    (hop : op.opc = .addcio) (hprev : prev.arg0.isTemp = true) (hctx₀ : ctx.Holds m)
    (hctx₁ : ctx.Holds (tciExec prev m)) (hknown : CarryKnown ctx.carryState (tciExec prev m).carry)
    (h : foldAddcio ctx prev op = some (ops, c')) :
    tciRun ops m = tciRun [prev, op] m ∧ CarryKnown c' (tciRun [prev, op] m).carry := by
  have hexec := tciExec_foldCommutative ctx (m := tciExec prev m) (.inr (.inr (.inr (.inl hop))))
  have hop' := (opc_foldCommutative ctx op).trans hop
  unfold foldAddcio at h
  dsimp only at h
  generalize foldCommutative ctx op = op' at h hexec hop'
  have hrun : tciRun [prev, op] m = tciExec op' (tciExec prev m) := hexec.symm
  rw [hrun]
  by_cases hneg : ctx.carryState < 0
  · -- unknown carry-in: the `carry_out` from the `z_mask`s
    rw [if_pos hneg] at h
    cases h
    exact ⟨rfl, carryKnown_zMask hctx₁.info hop' (by omega)⟩
  rw [if_neg hneg] at h
  cases hsq : squashPrevCarryout ctx prev with
  | none => simp [hsq] at h
  | some r =>
    obtain ⟨prevs, ctx'⟩ := r
    obtain ⟨_, ⟨rfl, hctx', hty', hcs'⟩, hregs⟩ := squashPrevCarryout_sound hty hprev hctx₀ hctx₁ hsq
    dsimp only at hctx' hty' hcs' hregs
    rw [hsq] at h
    simp only [Option.bind_eq_bind, Option.bind_some, Option.pure_def, hcs', argNewConstant_of_i64 (hty'.trans hty),
      max_of_i64 (hty'.trans hty), Word.and_allOnes] at h
    have hc1 : ¬ctx.carryState = 0 → (tciExec prev m).carry = true := fun h0 => hknown.2 (by omega)
    have hval {a : Arg} := read_eq_of_isConst_squashed (a := a) hctx' hregs
    have hmax {a : Arg} (hc : tiIsConst (ctx'.argInfo a) = true)
        (hlt : ¬tiConstVal (ctx'.argInfo a) < 0xFFFFFFFFFFFFFFFF) : (tciExec prev m).read a = 0xFFFFFFFFFFFFFFFF :=
      (hval hc).trans (eq_max_of_not_lt hlt)
    -- what is left is the op after the squashed `prev`
    split_ifs at h with h0 h2 hlt2 h1 hlt1 h1' hlt1' hz <;> obtain ⟨rfl, rfl⟩ := Prod.mk.inj (Option.some.inj h) <;>
      rw [tciRun_append_singleton]
    · -- no carry-in: `addco`
      exact foldAddco_sound hctx'.info rfl (tciExec_addco_of_addcio hop' hregs (hknown.1 h0))
    · -- carry-in one, second operand a constant `v < max`: `addco x, v + 1`
      exact foldAddco_sound hctx'.info rfl (tciExec_addco_succ_of_addcio hop' hregs (hc1 h0)
        (hval h2) (by rw [UInt64.lt_iff_toNat_lt] at hlt2; exact hlt2))
    · -- second operand `max`, first a constant `v < max`: `addco v + 1, y`
      exact foldAddco_sound hctx'.info rfl (tciExec_addco_succ_left_of_addcio hop' hregs (hc1 h0)
        (hval h1) (by rw [UInt64.lt_iff_toNat_lt] at hlt1; exact hlt1))
    · -- an operand is `max`: `addc1o`, known to carry
      exact ⟨tciExec_addc1o_of_addcio hop' hregs (hc1 h0), fun h => absurd h (by omega),
        fun _ => carry_addcio_of_max hop' (hc1 h0) (.inr (hmax h2 hlt2))⟩
    · exact ⟨tciExec_addc1o_of_addcio hop' hregs (hc1 h0), fun h => absurd h (by omega),
        fun _ => carry_addcio_of_max hop' (hc1 h0) (.inr (hmax h2 hlt2))⟩
    · exact foldAddco_sound hctx'.info rfl (tciExec_addco_succ_left_of_addcio hop' hregs (hc1 h0)
        (hval h1') (by rw [UInt64.lt_iff_toNat_lt] at hlt1'; exact hlt1'))
    · exact ⟨tciExec_addc1o_of_addcio hop' hregs (hc1 h0), fun h => absurd h (by omega),
        fun _ => carry_addcio_of_max hop' (hc1 h0) (.inl (hmax h1' hlt1'))⟩
    · -- nothing constant: `addc1o`, with the `carry_out` from the `z_mask`s
      have hk := carryKnown_zMask hctx₁.info hop' h0
      rw [if_pos hz] at hk
      exact ⟨tciExec_addc1o_of_addcio hop' hregs (hc1 h0), hk⟩
    · exact ⟨tciExec_addc1o_of_addcio hop' hregs (hc1 h0), carryKnown_of_neg (by omega) _⟩

/-- `addco r0, r1, r2` carries out of `r1 = 2^64 - 1` and `r2 = 1`,
nothing being known of the temps but the carry; `addcio r3, r4, $5`
after it folds into `add r0, r1, r2; addco r3, r4, $6`. -/
theorem foldAddcio_sound_const :
    CarryKnown 1 (tciExec ⟨.addco, .temp 0, .temp 1, .temp 2⟩
        ⟨fun n => if n = 1 then 0xFFFFFFFFFFFFFFFF else 1, false⟩).carry ∧
    foldAddcio ⟨fun _ => ⟨0xFFFFFFFFFFFFFFFF, 0⟩, fun _ _ => false, .i64, 1⟩ ⟨.addco, .temp 0, .temp 1, .temp 2⟩
        ⟨.addcio, .temp 3, .temp 4, .const 5⟩ =
      some ([⟨.add, .temp 0, .temp 1, .temp 2⟩, ⟨.addco, .temp 3, .temp 4, .const 6⟩], -1) ∧
    tciRun [⟨.add, .temp 0, .temp 1, .temp 2⟩, ⟨.addco, .temp 3, .temp 4, .const 6⟩]
        ⟨fun n => if n = 1 then 0xFFFFFFFFFFFFFFFF else 1, false⟩ =
      tciRun [⟨.addco, .temp 0, .temp 1, .temp 2⟩, ⟨.addcio, .temp 3, .temp 4, .const 5⟩]
        ⟨fun n => if n = 1 then 0xFFFFFFFFFFFFFFFF else 1, false⟩ := by
  have hknown : CarryKnown 1 (tciExec ⟨.addco, .temp 0, .temp 1, .temp 2⟩
      ⟨fun n => if n = 1 then 0xFFFFFFFFFFFFFFFF else 1, false⟩).carry := ⟨by decide, by decide⟩
  have hfold : foldAddcio ⟨fun _ => ⟨0xFFFFFFFFFFFFFFFF, 0⟩, fun _ _ => false, .i64, 1⟩
      ⟨.addco, .temp 0, .temp 1, .temp 2⟩ ⟨.addcio, .temp 3, .temp 4, .const 5⟩ =
        some ([⟨.add, .temp 0, .temp 1, .temp 2⟩, ⟨.addco, .temp 3, .temp 4, .const 6⟩], -1) := by decide
  exact ⟨hknown, hfold, (foldAddcio_sound rfl (by decide) rfl rfl (OptContext.holds_unknown _ _ _)
    (OptContext.holds_unknown _ _ _) hknown hfold).1⟩

end FoldAdd

end QemuFormal.Tcg

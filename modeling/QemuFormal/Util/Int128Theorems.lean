/-
QemuFormal.Util.Int128Theorems — the two builds of `Int128` compute the
same 128-bit values.

`Int128S.toNative` reads a `struct Int128` as the `__int128_t` with the
same bits: `hi` above `lo`. Every operation of the struct build commutes
with it. Each is proved at the level its code works at: the bitwise
operations and the shifts bit by bit (`getLsbD_toNative`; a shift across
the halves takes its bits from the other word, an arithmetic one its sign
from `hi`), the additions and comparisons on the value (`toNat_toNative`,
`toInt_toNative`; a carry or borrow is `lo < a.lo`).

`divrem128` divides by a divisor with a non-zero high word through its
top 64 bits `H`, normalised by `clz64`: the estimate is `U / D` for the
truncated divisor `D = H * 2^(64-s)` (`divrem128Estimate_eq`), which is
the quotient or one above it (`div_le_div_add_one`), and the test before
`qq.lo -= 1` holds exactly when it is one above (`correction_iff`).

  §1 Reading a struct — `toNat_toNative`, `toInt_toNative`, `getLsbD_toNative`.
  §2 Bits             — bitwise operations and the three shifts.
  §3 Carries          — `int128_add`, `int128_sub`, `int128_neg`.
  §4 Comparisons      — `int128_eq` to `int128_gt`, `int128_nz`, `clz128`.
  §5 divrem128        — the estimate, its correction, `divrem128_spec`.
  §6 Division         — `int128_divu` to `int128_rems`, and the agreement
                        of the two builds.
-/
import QemuFormal.Util.Int128
import QemuFormal.Util.HostUtilsDiv
import QemuFormal.Lib.Word

namespace QemuFormal

open HostUtils

/-! ## §1 Reading a struct -/

theorem toNat_int128Make128 (lo hi : UInt64) :
    (int128Make128 lo hi).toNat = hi.toNat * 2 ^ 64 + lo.toNat := by
  change hi.toNat <<< 64 ||| lo.toNat = _
  rw [← Nat.shiftLeft_add_eq_or_of_lt lo.toNat_lt, Nat.shiftLeft_eq]

@[simp]
theorem toNative_int128Make128S (lo hi : UInt64) : (int128Make128S lo hi).toNative = int128Make128 lo hi := rfl

theorem toNat_toNative (a : Int128S) : a.toNative.toNat = a.hi.toUInt64.toNat * 2 ^ 64 + a.lo.toNat :=
  toNat_int128Make128 a.lo a.hi.toUInt64

theorem int64_toUInt64_inj {x y : Int64} : x.toUInt64 = y.toUInt64 ↔ x = y := by
  constructor
  · intro h
    cases x; cases y
    simp_all
  · rintro rfl; rfl

theorem toInt_toNative (a : Int128S) : a.toNative.toInt = a.hi.toInt * 2 ^ 64 + a.lo.toNat := by
  rw [Int128S.toNative, int128Make128, BitVec.toInt_append]
  simp only [beq_iff_eq, OfNat.ofNat_ne_zero, ↓reduceIte, Int.mul_comm, UInt64.toNat_toBitVec]
  rfl

theorem Int128S.toNative_inj {a b : Int128S} : a.toNative = b.toNative ↔ a = b := by
  constructor
  · intro h
    have h' := congrArg BitVec.toNat h
    rw [toNat_toNative, toNat_toNative] at h'
    have := a.lo.toNat_lt; have := b.lo.toNat_lt
    have hlo : a.lo = b.lo := UInt64.toNat_inj.mp (by omega)
    have hhi : a.hi = b.hi := int64_toUInt64_inj.mp (UInt64.toNat_inj.mp (by omega))
    cases a; cases b; simp_all
  · rintro rfl; rfl

theorem getLsbD_int128Make128 (lo hi : UInt64) (i : Nat) :
    (int128Make128 lo hi).getLsbD i = if i < 64 then lo.toBitVec.getLsbD i else hi.toBitVec.getLsbD (i - 64) :=
  BitVec.getLsbD_append

theorem getLsbD_toNative (a : Int128S) (i : Nat) :
    a.toNative.getLsbD i = if i < 64 then a.lo.toBitVec.getLsbD i else a.hi.toUInt64.toBitVec.getLsbD (i - 64) :=
  getLsbD_int128Make128 a.lo a.hi.toUInt64 i

theorem msb_toNative (a : Int128S) : a.toNative.msb = a.hi.toUInt64.toBitVec.msb := by
  rw [Int128S.toNative, int128Make128, BitVec.msb_append, if_neg (by decide)]

@[simp]
theorem toNative_int128Make64S (a : UInt64) : (int128Make64S a).toNative = int128Make128 a 0 := rfl

/-! ## §2 Bits -/

theorem int128NotS_toNative (a : Int128S) : (int128NotS a).toNative = int128Not a.toNative :=
  BitVec.not_append.symm

theorem int128AndS_toNative (a b : Int128S) : (int128AndS a b).toNative = int128And a.toNative b.toNative :=
  BitVec.and_append.symm

theorem int128OrS_toNative (a b : Int128S) : (int128OrS a b).toNative = int128Or a.toNative b.toNative :=
  BitVec.or_append.symm

theorem int128XorS_toNative (a b : Int128S) : (int128XorS a b).toNative = int128Xor a.toNative b.toNative :=
  BitVec.xor_append.symm
theorem toNat_count {k : Nat} (hk : k < 64) : (k.toUInt64.toBitVec % 64).toNat = k := by
  rw [BitVec.toNat_umod, UInt64.toNat_toBitVec, UInt64.toNat_ofNat', show (64 : BitVec 64).toNat = 64 from rfl]
  omega

theorem getLsbD_shiftRight_count (x : UInt64) {k : Nat} (hk : k < 64) (i : Nat) :
    (x >>> k.toUInt64).toBitVec.getLsbD i = x.toBitVec.getLsbD (k + i) := by
  rw [UInt64.toBitVec_shiftRight, BitVec.ushiftRight_eq', toNat_count hk, BitVec.getLsbD_ushiftRight]

theorem getLsbD_shiftLeft_count (x : UInt64) {k : Nat} (hk : k < 64) (i : Nat) :
    (x <<< k.toUInt64).toBitVec.getLsbD i = (decide (i < 64) && !decide (i < k) && x.toBitVec.getLsbD (i - k)) := by
  rw [UInt64.toBitVec_shiftLeft, BitVec.shiftLeft_eq', toNat_count hk, BitVec.getLsbD_shiftLeft]

theorem toBitVec_sar64 (x : Int64) (k : Nat) : (sar64 x k).toUInt64.toBitVec = x.toUInt64.toBitVec.sshiftRight k := rfl

theorem int128UrshiftS_toNative (a : Int128S) {n : Nat} (hn : n < 128) :
    (int128UrshiftS a n).toNative = int128Urshift a.toNative n := by
  apply BitVec.eq_of_getLsbD_eq
  intro i hi
  rw [int128Urshift, BitVec.getLsbD_ushiftRight]
  unfold int128UrshiftS
  split_ifs with h0 h64
  · rw [h0, Nat.zero_add]
  · -- the high word, shifted by `n - 64`, is the low word
    dsimp only
    rw [toNative_int128Make64S, getLsbD_int128Make128, getLsbD_toNative, if_neg (show ¬ n + i < 64 by omega)]
    by_cases hi64 : i < 64
    · rw [if_pos hi64, getLsbD_shiftRight_count _ (by omega), show n % 64 + i = n + i - 64 by omega]
    · rw [if_neg hi64, UInt64.toBitVec_zero, BitVec.getLsbD_zero, BitVec.getLsbD_of_ge _ _ (by omega)]
  · -- the low word takes the bits the high word shifts out
    dsimp only
    rw [toNative_int128Make128S, getLsbD_int128Make128, getLsbD_toNative]
    by_cases hi64 : i < 64
    · rw [if_pos hi64, UInt64.toBitVec_or, BitVec.getLsbD_or, getLsbD_shiftRight_count _ (by omega),
        getLsbD_shiftLeft_count _ (by omega)]
      by_cases hni : n + i < 64
      · simp [hni, show i < 64 - n by omega]
      · simp [hni, hi64, show ¬ i < 64 - n by omega, BitVec.getLsbD_of_ge _ (n + i) (by omega : 64 ≤ n + i)]
        congr 1; omega
    · rw [if_neg hi64, if_neg (show ¬ n + i < 64 by omega), getLsbD_shiftRight_count _ (by omega),
        show n % 64 + (i - 64) = n + i - 64 by omega]

theorem int128RshiftS_toNative (a : Int128S) {n : Nat} (hn : n < 128) :
    (int128RshiftS a n).toNative = int128Rshift a.toNative n := by
  apply BitVec.eq_of_getLsbD_eq
  intro i hi
  rw [int128Rshift, BitVec.getLsbD_sshiftRight, msb_toNative, decide_eq_false (show ¬ 128 ≤ i by omega),
    Bool.not_false, Bool.true_and]
  by_cases h0 : n = 0
  · subst h0
    rw [int128RshiftS, if_pos rfl, Nat.zero_add, if_pos hi]
  rw [int128RshiftS, if_neg h0]
  dsimp only
  by_cases h64 : 64 ≤ n
  · -- the high word, shifted by `n - 64`, is the low word; its sign fills the high word
    rw [if_pos h64, toNative_int128Make128S, getLsbD_int128Make128]
    simp only [toBitVec_sar64]
    by_cases hi64 : i < 64
    · rw [if_pos hi64, BitVec.getLsbD_sshiftRight, getLsbD_toNative, if_neg (show ¬ n + i < 64 by omega)]
      by_cases hni : n + i < 128
      · simp [hni, show ¬ 64 ≤ i by omega, show n % 64 + i = n + i - 64 by omega, show n + i - 64 < 64 by omega]
      · simp [hni, hi64, show ¬ n % 64 + i < 64 by omega]
    · rw [if_neg hi64, BitVec.getLsbD_sshiftRight, BitVec.msb_sshiftRight, if_neg (show ¬ n + i < 128 by omega)]
      by_cases hi1 : i = 64
      · subst hi1
        rw [show 63 + (64 - 64) = 64 - 1 from rfl, ← BitVec.msb_eq_getLsbD_last, BitVec.msb_sshiftRight]
        simp
      · simp [show ¬ 63 + (i - 64) < 64 by omega, show ¬ 64 ≤ i - 64 by omega]
  · -- the low word takes the bits the high word shifts out
    rw [if_neg h64, toNative_int128Make128S, getLsbD_int128Make128]
    by_cases hi64 : i < 64
    · rw [if_pos hi64, if_pos (show n + i < 128 by omega), getLsbD_toNative, UInt64.toBitVec_or, BitVec.getLsbD_or,
        getLsbD_shiftRight_count _ (by omega), getLsbD_shiftLeft_count _ (by omega)]
      by_cases hni : n + i < 64
      · simp [hni, show i < 64 - n by omega]
      · simp [hni, hi64, show ¬ i < 64 - n by omega, BitVec.getLsbD_of_ge _ (n + i) (by omega : 64 ≤ n + i)]
        congr 1; omega
    · rw [if_neg hi64, toBitVec_sar64, BitVec.getLsbD_sshiftRight, getLsbD_toNative]
      by_cases hni : n + i < 128
      · simp [hni, show ¬ n + i < 64 by omega, show n % 64 + (i - 64) = n + i - 64 by omega,
          show n + i - 64 < 64 by omega, show ¬ 64 ≤ i - 64 by omega]
      · simp [hni, show ¬ n % 64 + (i - 64) < 64 by omega, show ¬ 64 ≤ i - 64 by omega]

theorem int128LshiftS_toNative (a : Int128S) {n : Nat} (hn : n < 128) :
    (int128LshiftS a n).toNative = int128Lshift a.toNative n := by
  apply BitVec.eq_of_getLsbD_eq
  intro i hi
  rw [int128Lshift, BitVec.getLsbD_shiftLeft, decide_eq_true hi, Bool.true_and]
  unfold int128LshiftS
  split_ifs with h64 h0
  · -- the low word, shifted by `n - 64`, is the high word
    rw [toNative_int128Make128S, getLsbD_int128Make128]
    by_cases hi64 : i < 64
    · simp [hi64, show i < n by omega]
    · rw [if_neg hi64, getLsbD_shiftLeft_count _ (by omega)]
      by_cases hin : i < n
      · simp [hin, show i - 64 < n % 64 by omega]
      · rw [getLsbD_toNative, if_pos (show i - n < 64 by omega)]
        simp [show i - 64 < 64 by omega, show ¬ i - 64 < n % 64 by omega, hin, show i - 64 - n % 64 = i - n by omega]
  · -- the high word takes the bits the low word shifts out
    rw [toNative_int128Make128S, getLsbD_int128Make128]
    by_cases hi64 : i < 64
    · rw [if_pos hi64, getLsbD_shiftLeft_count _ (by omega), Nat.mod_eq_of_lt (show n < 64 by omega)]
      by_cases hin : i < n
      · simp [hin]
      · simp [hin, hi64, getLsbD_toNative, show i - n < 64 by omega]
    · rw [if_neg hi64, UInt64.toBitVec_or, BitVec.getLsbD_or, getLsbD_shiftLeft_count _ (by omega),
        getLsbD_shiftRight_count _ (by omega), getLsbD_toNative]
      by_cases hin : i - n < 64
      · simp [hin, show i - 64 < n by omega, show ¬ i < n by omega, show 64 - n + (i - 64) = i - n by omega]
      · simp [hin, show ¬ i - 64 < n by omega, show ¬ i < n by omega, show i - 64 < 64 by omega,
          show i - 64 - n = i - n - 64 by omega, BitVec.getLsbD_of_ge _ (64 - n + (i - 64)) (by omega : 64 ≤ 64 - n + (i - 64))]
  · rw [show n = 0 by omega]
    simp

/-! ## §3 Carries -/

theorem int128AddS_toNative (a b : Int128S) : (int128AddS a b).toNative = int128Add a.toNative b.toNative := by
  apply BitVec.eq_of_toNat_eq
  simp only [int128AddS, toNative_int128Make128S, toNat_int128Make128, int128Add, BitVec.toNat_add, toNat_toNative,
    UInt64.toNat_add, Word.add_lt_iff]
  have := a.lo.toNat_lt; have := b.lo.toNat_lt; have := a.hi.toUInt64.toNat_lt; have := b.hi.toUInt64.toNat_lt
  split <;> simp only [UInt64.toNat_one, UInt64.toNat_zero] <;> omega

theorem int128SubS_toNative (a b : Int128S) : (int128SubS a b).toNative = int128Sub a.toNative b.toNative := by
  apply BitVec.eq_of_toNat_eq
  simp only [int128SubS, toNative_int128Make128S, toNat_int128Make128, int128Sub, BitVec.toNat_sub, toNat_toNative,
    UInt64.toNat_sub, UInt64.lt_iff_toNat_lt]
  have := a.lo.toNat_lt; have := b.lo.toNat_lt; have := a.hi.toUInt64.toNat_lt; have := b.hi.toUInt64.toNat_lt
  split <;> simp only [UInt64.toNat_one, UInt64.toNat_zero] <;> omega

theorem int128NegS_toNative (a : Int128S) : (int128NegS a).toNative = int128Neg a.toNative := by
  apply BitVec.eq_of_toNat_eq
  simp only [int128NegS, toNative_int128Make128S, toNat_int128Make128, int128Neg, BitVec.toNat_neg, toNat_toNative,
    UInt64.toNat_sub, UInt64.toNat_add, UInt64.toNat_not, ← UInt64.toNat_inj, UInt64.size]
  have := a.lo.toNat_lt; have := a.hi.toUInt64.toNat_lt
  split <;> simp only [UInt64.toNat_one, UInt64.toNat_zero] at * <;> omega

/-! ## §4 Comparisons -/

theorem int128EqS_toNative (a b : Int128S) : int128EqS a b = int128Eq a.toNative b.toNative := by
  have h : (a.toNative == b.toNative) = decide (a = b) := by
    rw [beq_eq_decide]
    exact decide_eq_decide.mpr Int128S.toNative_inj
  rw [int128Eq, h]
  cases a; cases b
  simp only [int128EqS, beq_eq_decide, Int128S.mk.injEq, Bool.decide_and]

theorem int128GeS_toNative (a b : Int128S) : int128GeS a b = int128Ge a.toNative b.toNative := by
  have := a.lo.toNat_lt; have := b.lo.toNat_lt
  rw [Bool.eq_iff_iff]
  simp only [int128GeS, int128Ge, BitVec.sle, toInt_toNative, Int64.lt_iff_toInt_lt, beq_iff_eq, ← Int64.toInt_inj,
    UInt64.le_iff_toNat_le, Bool.or_eq_true, Bool.and_eq_true, decide_eq_true_eq]
  omega

theorem int128UgeS_toNative (a b : Int128S) : int128UgeS a b = int128Uge a.toNative b.toNative := by
  have := a.lo.toNat_lt; have := b.lo.toNat_lt
  rw [Bool.eq_iff_iff]
  simp only [int128UgeS, int128Uge, BitVec.ule, toNat_toNative, UInt64.lt_iff_toNat_lt, beq_iff_eq, ← int64_toUInt64_inj,
    ← UInt64.toNat_inj, UInt64.le_iff_toNat_le, Bool.or_eq_true, Bool.and_eq_true, decide_eq_true_eq]
  omega

theorem int128NonnegS_toNative (a : Int128S) : int128NonnegS a = int128Nonneg a.toNative := by
  rw [int128NonnegS, int128Nonneg, msb_toNative, BitVec.msb_eq_toInt, ← decide_not]
  exact decide_eq_decide.mpr (by rw [Int64.le_iff_toInt_le, Int64.toInt_zero, Int64.toInt, Int64.toBitVec]; omega)

theorem int128LtS_toNative (a b : Int128S) : int128LtS a b = int128Lt a.toNative b.toNative := by
  rw [int128LtS, int128GeS_toNative, int128Ge, int128Lt, BitVec.sle_eq_not_slt, Bool.not_not]

theorem int128UltS_toNative (a b : Int128S) : int128UltS a b = int128Ult a.toNative b.toNative := by
  rw [int128UltS, int128UgeS_toNative, int128Uge, int128Ult, BitVec.ule_eq_not_ult, Bool.not_not]

theorem int128LeS_toNative (a b : Int128S) : int128LeS a b = int128Le a.toNative b.toNative := by
  rw [int128LeS, int128GeS_toNative, int128Ge, int128Le]

theorem int128GtS_toNative (a b : Int128S) : int128GtS a b = int128Gt a.toNative b.toNative := by
  rw [int128GtS, int128LeS_toNative, int128Le, int128Gt, BitVec.sle_eq_not_slt, Bool.not_not]

theorem toNative_eq_zero_iff (a : Int128S) : a.toNative = 0 ↔ a.lo = 0 ∧ a.hi = 0 := by
  rw [show (0 : Int128) = (⟨0, 0⟩ : Int128S).toNative from rfl, Int128S.toNative_inj]
  cases a
  simp only [Int128S.mk.injEq]

theorem int128NzS_toNative (a : Int128S) : int128NzS a = int128Nz a.toNative := by
  rw [int128NzS, int128Nz, Bool.eq_iff_iff, Bool.or_eq_true, bne_iff_ne, bne_iff_ne, bne_iff_ne, Ne, Ne, Ne,
    toNative_eq_zero_iff, not_and_or]

/-- `a >> 64` of the native value, truncated to `uint64_t`, is the high word. -/
theorem setWidth_sshiftRight_toNative (a : Int128S) :
    (a.toNative.sshiftRight 64).setWidth 64 = a.hi.toUInt64.toBitVec := by
  apply BitVec.eq_of_getLsbD_eq
  intro i hi
  rw [BitVec.getLsbD_setWidth, BitVec.getLsbD_sshiftRight, getLsbD_toNative]
  simp [hi, show ¬ 128 ≤ i by omega, show 64 + i < 128 by omega, show ¬ 64 + i < 64 by omega]

theorem sshiftRight_toNative_eq_zero (a : Int128S) : a.toNative.sshiftRight 64 = 0 ↔ a.hi = 0 := by
  constructor
  · intro h
    have h' := setWidth_sshiftRight_toNative a
    rw [h] at h'
    exact int64_toUInt64_inj.mp (UInt64.toBitVec_inj.mp (by rw [← h']; rfl))
  · intro h
    apply BitVec.eq_of_getLsbD_eq
    intro i hi
    rw [BitVec.getLsbD_sshiftRight, getLsbD_toNative, msb_toNative, h]
    simp

theorem clz128S_toNative (a : Int128S) : clz128S a = clz128 a.toNative := by
  have hlo : a.toNative.setWidth 64 = a.lo.toBitVec := BitVec.setWidth_append_eq_right
  unfold clz128S clz128
  by_cases hhi : a.hi = 0
  · have hz : a.toNative.sshiftRight 64 = 0 := (sshiftRight_toNative_eq_zero a).mpr hhi
    simp only [hhi, hz, ne_eq, not_true_eq_false, if_false, toNative_eq_zero_iff, and_true, hlo]
  · have hz : a.toNative.sshiftRight 64 ≠ 0 := fun h => hhi ((sshiftRight_toNative_eq_zero a).mp h)
    rw [if_pos hhi, if_pos hz, setWidth_sshiftRight_toNative]

/-! ## §5 divrem128 -/

/-- A divisor `D` a little below `V` gives a quotient at most one above
`U / V`, when what it lost, times `U`, stays below `V * D`. -/
theorem div_le_div_add_one {U V D : Nat} (hD : 0 < D) (hDV : D ≤ V) (h : U * (V - D) < V * D) :
    U / D ≤ U / V + 1 := by
  have hV : 0 < V := by omega
  have hUD : U / D * D ≤ U := Nat.div_mul_le_self U D
  -- `U / D * V < U + V`, from `U / D * V * D ≤ U * V < (U + V) * D`
  have hlt : U / D * V < U + V := by
    refine Nat.lt_of_mul_lt_mul_right (a := D) ?_
    calc U / D * V * D = U / D * D * V := by ring
      _ ≤ U * V := Nat.mul_le_mul_right V hUD
      _ = U * D + U * (V - D) := by rw [← Nat.mul_add, Nat.add_sub_cancel' hDV]
      _ < U * D + V * D := by omega
      _ = (U + V) * D := by ring
  have hUV : U < U / V * V + V := Nat.lt_div_mul_add hV
  have hq : U / D < U / V + 2 := by
    refine Nat.lt_of_mul_lt_mul_right (a := V) ?_
    rw [Nat.add_mul]
    omega
  omega

/-- `2^128 * (2^(64-s) - 1) ≤ (2^(127-s))^2`: the dividend times what the
normalised divisor loses stays below the square of its least value. -/
theorem two_pow_mul_pred_le {s : Nat} (hs : s < 64) :
    2 ^ 128 * (2 ^ (64 - s) - 1) ≤ 2 ^ (127 - s) * 2 ^ (127 - s) := by
  rcases Nat.lt_or_ge s 63 with h | h
  · calc 2 ^ 128 * (2 ^ (64 - s) - 1) ≤ 2 ^ 128 * 2 ^ (64 - s) := Nat.mul_le_mul_left _ (Nat.sub_le _ _)
      _ = 2 ^ (192 - s) := by rw [← Nat.pow_add]; congr 1; omega
      _ ≤ 2 ^ (254 - 2 * s) := Nat.pow_le_pow_right (by norm_num) (by omega)
      _ = 2 ^ (127 - s) * 2 ^ (127 - s) := by rw [← Nat.pow_add]; congr 1; omega
  · obtain rfl : s = 63 := by omega
    decide

theorem two_pow_split {s : Nat} (hs : s ≤ 64) : (2 : Nat) ^ 64 = 2 ^ (64 - s) * 2 ^ s := by
  rw [← Nat.pow_add]
  congr 1
  omega

theorem mul_two_pow_div (x : Nat) {s : Nat} (hs : s ≤ 64) : x * 2 ^ s / 2 ^ 64 = x / 2 ^ (64 - s) := by
  rw [two_pow_split hs, Nat.mul_div_mul_right _ _ (Nat.two_pow_pos s)]

section Normalise

/- A divisor `V` shifted left by `s < 64` so that its top bit is bit 127:
`V * 2^s / 2^64` is its top word, and `V * 2^s / 2^64 * 2^(64-s)` is `V`
with the `64 - s` bits below that word cleared. -/
variable {V s : Nat} (hs : s < 64) (htop : 2 ^ 127 ≤ V * 2 ^ s)
include hs

theorem normalised_le : V * 2 ^ s / 2 ^ 64 * 2 ^ (64 - s) ≤ V := by
  refine Nat.le_of_mul_le_mul_right ?_ (Nat.two_pow_pos s)
  rw [Nat.mul_assoc, ← two_pow_split (by omega)]
  exact Nat.div_mul_le_self _ _

theorem lt_normalised_add : V < V * 2 ^ s / 2 ^ 64 * 2 ^ (64 - s) + 2 ^ (64 - s) := by
  refine Nat.lt_of_mul_lt_mul_right (a := 2 ^ s) ?_
  rw [Nat.add_mul, Nat.mul_assoc, ← two_pow_split (by omega)]
  exact Nat.lt_div_mul_add (Nat.two_pow_pos 64)

theorem high_le_normalised : V / 2 ^ 64 * 2 ^ 64 ≤ V * 2 ^ s / 2 ^ 64 * 2 ^ (64 - s) := by
  have h : V / 2 ^ 64 * 2 ^ s ≤ V * 2 ^ s / 2 ^ 64 := by
    rw [Nat.le_div_iff_mul_le (Nat.two_pow_pos 64), Nat.mul_right_comm]
    exact Nat.mul_le_mul_right _ (Nat.div_mul_le_self _ _)
  calc V / 2 ^ 64 * 2 ^ 64 = V / 2 ^ 64 * 2 ^ s * 2 ^ (64 - s) := by
        rw [Nat.mul_assoc, Nat.mul_comm (2 ^ s), ← two_pow_split (by omega)]
    _ ≤ V * 2 ^ s / 2 ^ 64 * 2 ^ (64 - s) := Nat.mul_le_mul_right _ h

include htop in
theorem two_pow_le_normalised : 2 ^ (127 - s) ≤ V * 2 ^ s / 2 ^ 64 * 2 ^ (64 - s) := by
  have h : 2 ^ 63 ≤ V * 2 ^ s / 2 ^ 64 := by
    rw [Nat.le_div_iff_mul_le (Nat.two_pow_pos 64)]
    exact htop
  calc 2 ^ (127 - s) = 2 ^ 63 * 2 ^ (64 - s) := by rw [← Nat.pow_add]; congr 1; omega
    _ ≤ V * 2 ^ s / 2 ^ 64 * 2 ^ (64 - s) := Nat.mul_le_mul_right _ h

include htop in
/-- The estimate through the normalised divisor is the quotient or one
above it, for every dividend below `2^128`. -/
theorem div_normalised_bounds {U : Nat} (hU : U < 2 ^ 128) :
    U / V ≤ U / (V * 2 ^ s / 2 ^ 64 * 2 ^ (64 - s)) ∧ U / (V * 2 ^ s / 2 ^ 64 * 2 ^ (64 - s)) ≤ U / V + 1 := by
  have hDV := normalised_le hs (V := V)
  have hVD := lt_normalised_add hs (V := V)
  have hDmin := two_pow_le_normalised hs htop
  generalize V * 2 ^ s / 2 ^ 64 * 2 ^ (64 - s) = D at *
  have hD0 : 0 < D := lt_of_lt_of_le (Nat.two_pow_pos _) hDmin
  refine ⟨Nat.div_le_div_left hDV hD0, div_le_div_add_one hD0 hDV ?_⟩
  rcases Nat.eq_or_lt_of_le hDV with hEq | hLt
  · rw [hEq, Nat.sub_self, Nat.mul_zero]
    exact Nat.mul_pos (by omega) (by omega)
  · calc U * (V - D) < 2 ^ 128 * (V - D) := Nat.mul_lt_mul_of_pos_right hU (by omega)
      _ ≤ 2 ^ 128 * (2 ^ (64 - s) - 1) := Nat.mul_le_mul_left _ (by omega)
      _ ≤ 2 ^ (127 - s) * 2 ^ (127 - s) := two_pow_mul_pred_le hs
      _ ≤ V * D := Nat.mul_le_mul (by omega) hDmin

/-- The estimate times the divisor's high word does not wrap. -/
theorem div_normalised_mul_high_lt {U : Nat} (hU : U < 2 ^ 128) :
    U / (V * 2 ^ s / 2 ^ 64 * 2 ^ (64 - s)) * (V / 2 ^ 64) < 2 ^ 64 := by
  have h1 := high_le_normalised hs (V := V)
  generalize V * 2 ^ s / 2 ^ 64 * 2 ^ (64 - s) = D at *
  have h2 : U / D * (V / 2 ^ 64 * 2 ^ 64) ≤ U :=
    (Nat.mul_le_mul_left _ h1).trans (by rw [Nat.mul_comm]; exact Nat.mul_div_le U D)
  refine Nat.lt_of_mul_lt_mul_right (a := 2 ^ 64) ?_
  rw [Nat.mul_assoc]
  calc _ ≤ U := h2
    _ < 2 ^ 64 * 2 ^ 64 := hU

end Normalise

/-! ### The words of `divrem128` -/

theorem toNat_hi_toNative (x : Int128S) : x.hi.toUInt64.toNat = x.toNative.toNat / 2 ^ 64 := by
  have := x.lo.toNat_lt
  rw [toNat_toNative]
  omega

theorem clz64_eq_64_iff (x : UInt64) : clz64 x = 64 ↔ x = 0 := by
  unfold clz64
  split_ifs with h
  · exact ⟨fun _ => h, fun _ => rfl⟩
  · exact ⟨fun h' => by omega, fun h' => absurd h' h⟩

/-- `int128_gethi(int128_lshift(x, s))` when nothing is shifted out. -/
theorem gethi_lshift (x : Int128S) {s : Nat} (hs : s < 64) (hfit : x.toNative.toNat * 2 ^ s < 2 ^ 128) :
    (int128GethiS (int128LshiftS x s)).toUInt64.toNat = x.toNative.toNat * 2 ^ s / 2 ^ 64 := by
  rw [int128GethiS, toNat_hi_toNative, int128LshiftS_toNative x (by omega), int128Lshift, BitVec.toNat_shiftLeft,
    Nat.shiftLeft_eq, Nat.mod_eq_of_lt hfit]

/-- The quotient of `divu128` when it fits the low word. -/
theorem divu128_of_lt (lo hi d : UInt64) (hd : d ≠ 0) (hlt : hi.toNat * 2 ^ 64 + lo.toNat < d.toNat * 2 ^ 64) :
    (divu128 lo hi d).1.toNat = (hi.toNat * 2 ^ 64 + lo.toNat) / d.toNat := by
  obtain ⟨hq, -⟩ := divu128_spec lo hi d hd
  have : (hi.toNat * 2 ^ 64 + lo.toNat) / d.toNat < 2 ^ 64 := Nat.div_lt_of_lt_mul hlt
  omega

/-- `divrem128`'s estimate is the dividend over the normalised top word,
shifted back: `U / (H * 2^(64-s))`, in both branches. -/
theorem divrem128Estimate_eq (u : Int128S) {H : UInt64} {s : Nat} (hs : s < 64) (hH : 2 ^ 63 ≤ H.toNat) :
    (divrem128Estimate u H s).toNat = u.toNative.toNat / (H.toNat * 2 ^ (64 - s)) := by
  have hH0 : H ≠ 0 := fun h => by rw [h] at hH; exact absurd hH (by decide)
  have hU := u.toNative.isLt
  have hul := u.lo.toNat_lt
  have huh := u.hi.toUInt64.toNat_lt
  have h2s : 2 ^ s ≤ 2 ^ 63 := Nat.pow_le_pow_right (by norm_num) (by omega)
  rw [← Nat.div_div_eq_div_mul]
  unfold divrem128Estimate
  split_ifs with hgt
  · -- `u.hi < H`: `divu128` divides `u` itself
    have hgt' : u.hi.toUInt64.toNat < H.toNat := UInt64.lt_iff_toNat_lt.mp hgt
    have hq := divu128_of_lt u.lo u.hi.toUInt64 H hH0 (by omega)
    rw [← toNat_toNative] at hq
    have hqlt := (divu128 u.lo u.hi.toUInt64 H).1.toNat_lt
    dsimp only
    have hfit : (divu128 u.lo u.hi.toUInt64 H).1.toNat * 2 ^ s < 2 ^ 128 :=
      calc _ < 2 ^ 64 * 2 ^ 63 := Nat.mul_lt_mul_of_lt_of_le hqlt h2s (Nat.two_pow_pos _)
        _ < 2 ^ 128 := by norm_num
    rw [gethi_lshift _ hs (by rwa [toNative_int128Make128S, toNat_int128Make128, UInt64.toNat_zero, Nat.zero_mul,
        Nat.zero_add]),
      toNative_int128Make128S, toNat_int128Make128, UInt64.toNat_zero, Nat.zero_mul, Nat.zero_add, hq,
      mul_two_pow_div _ (by omega)]
  · -- `H ≤ u.hi`: `divu128` divides `u - H * 2^64`, and `1` stands for `H * 2^64` divided back
    have hle : H.toNat ≤ u.hi.toUInt64.toNat := by
      rw [gt_iff_lt, UInt64.lt_iff_toNat_lt] at hgt
      omega
    have hsub : (u.hi.toUInt64 - H).toNat = u.hi.toUInt64.toNat - H.toNat :=
      UInt64.toNat_sub_of_le _ _ (UInt64.le_iff_toNat_le.mpr hle)
    have hq := divu128_of_lt u.lo (u.hi.toUInt64 - H) H hH0 (by rw [hsub]; omega)
    rw [hsub] at hq
    have hN : (u.hi.toUInt64.toNat - H.toNat) * 2 ^ 64 + u.lo.toNat = u.toNative.toNat - H.toNat * 2 ^ 64 := by
      rw [toNat_toNative, Nat.sub_mul]
      omega
    rw [hN, Nat.sub_mul_div] at hq
    have hUH : u.toNative.toNat / H.toNat < 2 ^ 65 := Nat.div_lt_of_lt_mul (by omega)
    have h64 : 2 ^ 64 ≤ u.toNative.toNat / H.toNat := (Nat.le_div_iff_mul_le (by omega)).mpr (by rw [toNat_toNative]; omega)
    dsimp only
    have hfit : u.toNative.toNat / H.toNat * 2 ^ s < 2 ^ 128 :=
      calc _ < 2 ^ 65 * 2 ^ 63 := Nat.mul_lt_mul_of_lt_of_le hUH h2s (Nat.two_pow_pos _)
        _ = 2 ^ 128 := by norm_num
    rw [gethi_lshift _ hs (by rwa [toNative_int128Make128S, toNat_int128Make128, UInt64.toNat_one, Nat.one_mul, hq,
        Nat.add_sub_cancel' h64]),
      toNative_int128Make128S, toNat_int128Make128, UInt64.toNat_one, Nat.one_mul, hq, Nat.add_sub_cancel' h64,
      mul_two_pow_div _ (by omega)]

/-- `q * v` as `divrem128` computes it: `tmp = q * v.hi`, `mulu64(&lo, &hi,
q, v.lo)`, `hi += tmp`. When `q * v.hi` fits a word, the sum wraps
exactly when the product reaches `2^128`, and otherwise the two words are
the product. -/
theorem mulu64_add_spec (q : UInt64) (v : Int128S) (hq : q.toNat * v.hi.toUInt64.toNat < 2 ^ 64) :
    ((mulu64 q v.lo).2 + q * v.hi.toUInt64 < q * v.hi.toUInt64 ↔ 2 ^ 128 ≤ q.toNat * v.toNative.toNat) ∧
    (2 ^ 128 ≤ q.toNat * v.toNative.toNat ∨
      ((mulu64 q v.lo).2 + q * v.hi.toUInt64).toNat * 2 ^ 64 + (mulu64 q v.lo).1.toNat
        = q.toNat * v.toNative.toNat) := by
  have hp := mul64_spec q v.lo
  have hV : q.toNat * v.toNative.toNat = q.toNat * v.hi.toUInt64.toNat * 2 ^ 64 + q.toNat * v.lo.toNat := by
    rw [toNat_toNative]
    ring
  have htmp : (q * v.hi.toUInt64).toNat = q.toNat * v.hi.toUInt64.toNat := by
    rw [UInt64.toNat_mul, Nat.mod_eq_of_lt hq]
  have hp1 := (mulu64 q v.lo).1.toNat_lt
  have hp2 := (mulu64 q v.lo).2.toNat_lt
  rw [UInt64.lt_iff_toNat_lt, UInt64.toNat_add, htmp, hV]
  rw [mulu64] at hp1 hp2 ⊢
  generalize q.toNat * v.hi.toUInt64.toNat = A at *
  generalize q.toNat * v.lo.toNat = B at *
  omega

/-- The test before `qq.lo -= 1`: the product is above the dividend,
through a carry out of the high word or by comparing the words. -/
theorem correction_iff (u : Int128S) {hi tmp lo : UInt64} {P : Nat} (hcarry : hi < tmp ↔ 2 ^ 128 ≤ P)
    (hprod : 2 ^ 128 ≤ P ∨ hi.toNat * 2 ^ 64 + lo.toNat = P) :
    (hi < tmp ∨ hi > u.hi.toUInt64 ∨ (hi = u.hi.toUInt64 ∧ lo > u.lo)) ↔ u.toNative.toNat < P := by
  have hU := u.toNative.isLt
  have := u.lo.toNat_lt
  have := lo.toNat_lt
  rw [hcarry, gt_iff_lt, gt_iff_lt, UInt64.lt_iff_toNat_lt, UInt64.lt_iff_toNat_lt, ← UInt64.toNat_inj]
  rw [toNat_toNative] at hU ⊢
  omega

/-- The last lines of `divrem128`: `u - (hi:lo)` with the borrow
`u.lo < lo`, when `(hi:lo)` is at most `u`. -/
theorem toNat_sub_borrow (u : Int128S) (lo hi : UInt64) (h : hi.toNat * 2 ^ 64 + lo.toNat ≤ u.toNative.toNat) :
    (int128Make128S (u.lo - lo) (u.hi.toUInt64 - (hi + if u.lo < lo then 1 else 0))).toNative.toNat
      = u.toNative.toNat - (hi.toNat * 2 ^ 64 + lo.toNat) := by
  have := u.lo.toNat_lt; have := lo.toNat_lt; have := u.hi.toUInt64.toNat_lt; have := hi.toNat_lt
  rw [toNative_int128Make128S, toNat_int128Make128, UInt64.toNat_sub, UInt64.toNat_sub, UInt64.toNat_add]
  rw [toNat_toNative] at h ⊢
  split
  · rename_i hlt
    rw [UInt64.lt_iff_toNat_lt] at hlt
    rw [UInt64.toNat_one]
    omega
  · rename_i hlt
    rw [UInt64.lt_iff_toNat_lt] at hlt
    rw [UInt64.toNat_zero]
    omega

theorem divrem128_spec (u v : Int128S) (hv : v.toNative ≠ 0) :
    (divrem128 u v).2.toNative.toNat = u.toNative.toNat / v.toNative.toNat ∧
      (divrem128 u v).1.toNative.toNat = u.toNative.toNat % v.toNative.toNat := by
  unfold divrem128
  by_cases hs : clz64 v.hi.toUInt64 = 64
  · -- `uu ÷ 0v`: `divu128` divides by the low word
    have hvh := (clz64_eq_64_iff _).mp hs
    have hvl : v.lo ≠ 0 := fun h => hv ((toNative_eq_zero_iff v).mpr ⟨h, int64_toUInt64_inj.mp hvh⟩)
    obtain ⟨hq, hr⟩ := divu128_spec u.lo u.hi.toUInt64 v.lo hvl
    rw [if_pos hs]
    dsimp only
    rw [toNative_int128Make128S, toNative_int128Make128S, toNat_int128Make128, toNat_int128Make128, toNat_toNative u,
      toNat_toNative v, hvh, UInt64.toNat_zero]
    simp only [Nat.zero_mul, Nat.zero_add]
    exact ⟨hq, hr⟩
  · rw [if_neg hs]
    dsimp only
    have hvh0 : v.hi.toUInt64 ≠ 0 := fun h => hs ((clz64_eq_64_iff _).mpr h)
    obtain ⟨hs63, htop, hfit⟩ := clz64_spec hvh0
    have hU := u.toNative.isLt
    have hvl := v.lo.toNat_lt
    have hV : v.toNative.toNat = v.hi.toUInt64.toNat * 2 ^ 64 + v.lo.toNat := toNat_toNative v
    generalize clz64 v.hi.toUInt64 = s at *
    -- the divisor shifted left by `s` has its top bit at bit 127 and loses nothing
    have hVtop : 2 ^ 127 ≤ v.toNative.toNat * 2 ^ s := by
      rw [hV, Nat.add_mul, Nat.mul_right_comm]
      calc 2 ^ 127 = 2 ^ 63 * 2 ^ 64 := by norm_num
        _ ≤ v.hi.toUInt64.toNat * 2 ^ s * 2 ^ 64 := Nat.mul_le_mul_right _ htop
        _ ≤ _ := Nat.le_add_right _ _
    have hVfit : v.toNative.toNat * 2 ^ s < 2 ^ 128 := by
      have h1 : v.hi.toUInt64.toNat + 1 ≤ 2 ^ (64 - s) := by
        rw [two_pow_split (s := s) (by omega)] at hfit
        exact Nat.lt_of_mul_lt_mul_right hfit
      calc v.toNative.toNat * 2 ^ s < (v.hi.toUInt64.toNat + 1) * 2 ^ 64 * 2 ^ s :=
            Nat.mul_lt_mul_of_pos_right (by rw [hV]; omega) (Nat.two_pow_pos s)
        _ ≤ 2 ^ (64 - s) * 2 ^ 64 * 2 ^ s := Nat.mul_le_mul_right _ (Nat.mul_le_mul_right _ h1)
        _ = 2 ^ 128 := by rw [Nat.mul_right_comm, ← two_pow_split (by omega)]; norm_num
    have hH := gethi_lshift v (by omega) hVfit
    have hH63 : 2 ^ 63 ≤ (int128GethiS (int128LshiftS v s)).toUInt64.toNat := by
      rw [hH, Nat.le_div_iff_mul_le (Nat.two_pow_pos 64)]
      exact hVtop
    have hest := divrem128Estimate_eq u (s := s) (by omega) hH63
    rw [hH] at hest
    obtain ⟨hq1, hq2⟩ := div_normalised_bounds (by omega) hVtop hU
    have hqvh := div_normalised_mul_high_lt (V := v.toNative.toNat) (s := s) (by omega) hU
    rw [← hest] at hq1 hq2 hqvh
    have hvh : v.toNative.toNat / 2 ^ 64 = v.hi.toUInt64.toNat := by rw [hV]; omega
    rw [hvh] at hqvh
    generalize divrem128Estimate u (int128GethiS (int128LshiftS v s)).toUInt64 s = qhat at *
    have hV0 : 0 < v.toNative.toNat := by
      have : v.hi.toUInt64.toNat ≠ 0 := fun h => hvh0 (UInt64.toNat_inj.mp h)
      rw [hV]
      omega
    have hqV := Nat.div_mul_le_self u.toNative.toNat v.toNative.toNat
    have hrem := Nat.mod_eq_sub_mul_div (x := u.toNative.toNat) (k := v.toNative.toNat)
    obtain ⟨hcarry, hprod⟩ := mulu64_add_spec qhat v hqvh
    by_cases hc : (mulu64 qhat v.lo).2 + qhat * v.hi.toUInt64 < qhat * v.hi.toUInt64 ∨
        (mulu64 qhat v.lo).2 + qhat * v.hi.toUInt64 > u.hi.toUInt64 ∨
        ((mulu64 qhat v.lo).2 + qhat * v.hi.toUInt64 = u.hi.toUInt64 ∧ (mulu64 qhat v.lo).1 > u.lo)
    · -- the estimate was one above: `qq.lo -= 1` and the product again
      rw [if_pos hc]
      dsimp only [int128Make64S]
      have hlt := (correction_iff u hcarry hprod).mp hc
      have hqhat : qhat.toNat = u.toNative.toNat / v.toNative.toNat + 1 := by
        by_contra h
        have hle' : qhat.toNat ≤ u.toNative.toNat / v.toNative.toNat := by omega
        have hle : qhat.toNat * v.toNative.toNat ≤ u.toNative.toNat / v.toNative.toNat * v.toNative.toNat :=
          Nat.mul_le_mul_right _ hle'
        omega
      have hq : (qhat - 1).toNat = u.toNative.toNat / v.toNative.toNat := by
        have h1 : (1 : UInt64) ≤ qhat := UInt64.le_iff_toNat_le.mpr (by rw [UInt64.toNat_one, hqhat]; exact Nat.le_add_left 1 _)
        rw [UInt64.toNat_sub_of_le qhat 1 h1, UInt64.toNat_one, hqhat, Nat.add_sub_cancel]
      obtain ⟨-, hprod'⟩ := mulu64_add_spec (qhat - 1) v
        (lt_of_le_of_lt (Nat.mul_le_mul_right _ (by omega)) hqvh)
      rw [hq] at hprod'
      have hprod'' := hprod'.resolve_left (by omega)
      refine ⟨?_, ?_⟩
      · show (int128Make128 (qhat - 1) 0).toNat = _
        rw [toNat_int128Make128, UInt64.toNat_zero, Nat.zero_mul, Nat.zero_add, hq]
      · refine (toNat_sub_borrow u _ _ (hprod''.le.trans hqV)).trans ?_
        rw [hprod'', Nat.mul_comm, hrem]
    · -- the estimate was the quotient
      rw [if_neg hc]
      dsimp only [int128Make64S]
      have hle := not_lt.mp (mt (correction_iff u hcarry hprod).mpr hc)
      have hqhat : qhat.toNat = u.toNative.toNat / v.toNative.toNat :=
        le_antisymm ((Nat.le_div_iff_mul_le hV0).mpr hle) hq1
      have hprod'' := hprod.resolve_left (by omega)
      rw [hqhat] at hprod''
      refine ⟨?_, ?_⟩
      · show (int128Make128 qhat 0).toNat = _
        rw [toNat_int128Make128, UInt64.toNat_zero, Nat.zero_mul, Nat.zero_add, hqhat]
      · rw [toNat_sub_borrow u _ _ (hprod''.le.trans hqV), hprod'', Nat.mul_comm, hrem]

/-! ## §6 Division -/

theorem divrem128_toNative (u v : Int128S) (hv : v.toNative ≠ 0) :
    (divrem128 u v).2.toNative = u.toNative / v.toNative ∧ (divrem128 u v).1.toNative = u.toNative % v.toNative := by
  obtain ⟨hq, hr⟩ := divrem128_spec u v hv
  exact ⟨BitVec.eq_of_toNat_eq (by rw [hq, BitVec.toNat_udiv]), BitVec.eq_of_toNat_eq (by rw [hr, BitVec.toNat_umod])⟩

theorem int128DivuS_toNative (a b : Int128S) (hb : b.toNative ≠ 0) :
    (int128DivuS a b).toNative = int128Divu a.toNative b.toNative :=
  (divrem128_toNative a b hb).1

theorem int128RemuS_toNative (a b : Int128S) (hb : b.toNative ≠ 0) :
    (int128RemuS a b).toNative = int128Remu a.toNative b.toNative :=
  (divrem128_toNative a b hb).2

/-- The sign `int128_divs` and `int128_rems` test is the native sign bit. -/
theorem not_int128NonnegS (a : Int128S) : (!int128NonnegS a) = a.toNative.msb := by
  rw [int128NonnegS_toNative, int128Nonneg, Bool.not_not]

/-- The magnitude `int128_divs` and `int128_rems` divide: the operand,
negated when its sign bit is set. -/
theorem toNative_magnitude (a : Int128S) :
    (if a.toNative.msb then int128NegS a else a).toNative = if a.toNative.msb then -a.toNative else a.toNative := by
  split <;> simp only [int128NegS_toNative, int128Neg]

theorem magnitude_ne_zero {b : Int128} (hb : b ≠ 0) : (if b.msb then -b else b) ≠ 0 := by
  split
  · exact fun h => hb (BitVec.neg_eq_zero_iff.mp h)
  · exact hb

theorem int128DivsS_toNative (a b : Int128S) (hb : b.toNative ≠ 0) :
    (int128DivsS a b).toNative = int128Divs a.toNative b.toNative := by
  have hq := (divrem128_toNative (if a.toNative.msb then int128NegS a else a)
    (if b.toNative.msb then int128NegS b else b)
    (by rw [toNative_magnitude]; exact magnitude_ne_zero hb)).1
  rw [toNative_magnitude, toNative_magnitude] at hq
  unfold int128DivsS
  dsimp only
  rw [not_int128NonnegS, not_int128NonnegS, int128Divs, BitVec.sdiv_eq]
  -- the quotient of the magnitudes, negated when the signs differ
  cases hsa : a.toNative.msb <;> cases hsb : b.toNative.msb <;>
    simp only [hsa, hsb, Bool.false_eq_true, Bool.true_eq_false, if_true, if_false, ne_eq, not_true_eq_false,
      not_false_eq_true,
      int128NegS_toNative, int128Neg, BitVec.udiv_eq] at hq ⊢ <;>
    rw [hq]

theorem int128RemsS_toNative (a b : Int128S) (hb : b.toNative ≠ 0) :
    (int128RemsS a b).toNative = int128Rems a.toNative b.toNative := by
  have hr := (divrem128_toNative (if a.toNative.msb then int128NegS a else a)
    (if b.toNative.msb then int128NegS b else b)
    (by rw [toNative_magnitude]; exact magnitude_ne_zero hb)).2
  rw [toNative_magnitude, toNative_magnitude] at hr
  unfold int128RemsS
  dsimp only
  rw [not_int128NonnegS, not_int128NonnegS, int128Rems, BitVec.srem_eq]
  -- the remainder of the magnitudes, negated when the dividend is negative
  cases hsa : a.toNative.msb <;> cases hsb : b.toNative.msb <;>
    simp only [hsa, hsb, Bool.false_eq_true, if_true, if_false, int128NegS_toNative, int128Neg] at hr ⊢ <;>
    rw [hr]


/-- The two builds of `Int128` agree: every operation of the `struct
Int128` build gives the bits of the `__int128_t` build, shifts for every
count below 128 and the divisions for every non-zero divisor, with
`INT128_MIN / -1` included (both wrap to `INT128_MIN`). -/
theorem int128Struct_agrees_native (a b : Int128S) (n : Nat) (hn : n < 128) :
    (int128AddS a b).toNative = int128Add a.toNative b.toNative ∧
    (int128SubS a b).toNative = int128Sub a.toNative b.toNative ∧
    (int128NegS a).toNative = int128Neg a.toNative ∧
    (int128AndS a b).toNative = int128And a.toNative b.toNative ∧
    (int128OrS a b).toNative = int128Or a.toNative b.toNative ∧
    (int128XorS a b).toNative = int128Xor a.toNative b.toNative ∧
    (int128NotS a).toNative = int128Not a.toNative ∧
    (int128LshiftS a n).toNative = int128Lshift a.toNative n ∧
    (int128RshiftS a n).toNative = int128Rshift a.toNative n ∧
    (int128UrshiftS a n).toNative = int128Urshift a.toNative n ∧
    int128EqS a b = int128Eq a.toNative b.toNative ∧
    int128GeS a b = int128Ge a.toNative b.toNative ∧
    int128UgeS a b = int128Uge a.toNative b.toNative ∧
    int128LtS a b = int128Lt a.toNative b.toNative ∧
    int128UltS a b = int128Ult a.toNative b.toNative ∧
    int128LeS a b = int128Le a.toNative b.toNative ∧
    int128GtS a b = int128Gt a.toNative b.toNative ∧
    int128NonnegS a = int128Nonneg a.toNative ∧
    int128NzS a = int128Nz a.toNative ∧
    clz128S a = clz128 a.toNative ∧
    (b.toNative ≠ 0 →
      (int128DivuS a b).toNative = int128Divu a.toNative b.toNative ∧
      (int128RemuS a b).toNative = int128Remu a.toNative b.toNative ∧
      (int128DivsS a b).toNative = int128Divs a.toNative b.toNative ∧
      (int128RemsS a b).toNative = int128Rems a.toNative b.toNative) :=
  ⟨int128AddS_toNative a b, int128SubS_toNative a b, int128NegS_toNative a, int128AndS_toNative a b,
    int128OrS_toNative a b, int128XorS_toNative a b, int128NotS_toNative a, int128LshiftS_toNative a hn,
    int128RshiftS_toNative a hn, int128UrshiftS_toNative a hn, int128EqS_toNative a b, int128GeS_toNative a b,
    int128UgeS_toNative a b, int128LtS_toNative a b, int128UltS_toNative a b, int128LeS_toNative a b,
    int128GtS_toNative a b, int128NonnegS_toNative a, int128NzS_toNative a, clz128S_toNative a,
    fun hb => ⟨int128DivuS_toNative a b hb, int128RemuS_toNative a b hb, int128DivsS_toNative a b hb,
      int128RemsS_toNative a b hb⟩⟩

/-- `INT128_MIN / -1`, shifted by 127: the struct build's signed division
gives the native bits there too. -/
theorem int128Struct_agrees_native_min_by_neg_one :
    (int128DivsS ⟨0, -9223372036854775808⟩ ⟨18446744073709551615, -1⟩).toNative
      = int128Divs (Int128S.toNative ⟨0, -9223372036854775808⟩) (Int128S.toNative ⟨18446744073709551615, -1⟩) := by
  obtain ⟨-, -, -, -, -, -, -, -, -, -, -, -, -, -, -, -, -, -, -, -, hdiv⟩ :=
    int128Struct_agrees_native ⟨0, -9223372036854775808⟩ ⟨18446744073709551615, -1⟩ 127 (by decide)
  exact (hdiv (by decide)).2.2.1

end QemuFormal

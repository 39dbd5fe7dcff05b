/-
QemuFormal.Lib.Word — carries, borrows and known bits of 64-bit words.

A word operation that reports a carry or a borrow does so by a
comparison on the wrapped result (`x + y < x`). Each comparison here is
turned into one on the natural numbers the words stand for, where
`omega` decides it. Known-bits masks are sets of bits: `v &&& ~~~z = 0`
says every one bit of `v` is in `z`, so `v ≤ z`; when `z` is also within
`v` the two are equal. Negating `v` keeps clear the bits below the
lowest bit `z` allows, which is the mask `-(z &&& -z)`. `int32Cast` is
the sign extension from 32 bits that a 32-bit value gets in a 64-bit
word.
-/
import Mathlib.Data.Nat.Bitwise
import Mathlib.Data.BitVec

namespace Word

/-! ## Carries and borrows -/

/-- The carry of `x + y`. -/
theorem add_lt_iff (x y : UInt64) : x + y < x ↔ 2 ^ 64 ≤ x.toNat + y.toNat := by
  rw [UInt64.lt_iff_toNat_lt, UInt64.toNat_add]
  have hx := x.toNat_lt
  have hy := y.toNat_lt
  omega

/-- The carry of `x + y + 1`. -/
theorem add_add_one_le_iff (x y : UInt64) : x + y + 1 ≤ x ↔ 2 ^ 64 ≤ x.toNat + y.toNat + 1 := by
  rw [UInt64.le_iff_toNat_le, UInt64.toNat_add, UInt64.toNat_add]
  have hx := x.toNat_lt
  have hy := y.toNat_lt
  have hone : (1 : UInt64).toNat = 1 := rfl
  omega

/-! ## Known bits -/

/-- A word whose one bits all lie in `z` is `v &&& z`. -/
theorem and_eq_self_of_and_not {v z : UInt64} (h : v &&& ~~~z = 0) : v &&& z = v := by
  apply UInt64.toBitVec_inj.mp
  apply BitVec.eq_of_getLsbD_eq
  intro i _
  have hi := congrArg (fun x : UInt64 => x.toBitVec.getLsbD i) h
  simp only [UInt64.toBitVec_and, UInt64.toBitVec_not, BitVec.getLsbD_and, BitVec.getLsbD_not,
    UInt64.toBitVec_zero, BitVec.getLsbD_zero] at hi ⊢
  cases hv : v.toBitVec.getLsbD i <;> cases hz : z.toBitVec.getLsbD i <;> simp_all

/-- A word within the mask `z` is at most `z`. -/
theorem toNat_le_of_and_not {v z : UInt64} (h : v &&& ~~~z = 0) : v.toNat ≤ z.toNat := by
  rw [← and_eq_self_of_and_not h, UInt64.toNat_and]
  exact Nat.and_le_right

/-- A word within `z` that contains `z` is `z`. -/
theorem eq_of_and_not {v z : UInt64} (h₁ : v &&& ~~~z = 0) (h₂ : z &&& ~~~v = 0) : v = z := by
  have := toNat_le_of_and_not h₁
  have := toNat_le_of_and_not h₂
  exact UInt64.toNat_inj.mp (by omega)

theorem and_not_self (v : UInt64) : v &&& ~~~v = 0 := by
  apply UInt64.toBitVec_inj.mp
  simp

/-- The all-ones mask keeps every bit. -/
theorem and_allOnes (v : UInt64) : v &&& 0xFFFFFFFFFFFFFFFF = v := by
  apply UInt64.toNat_inj.mp
  rw [UInt64.toNat_and, show (0xFFFFFFFFFFFFFFFF : UInt64).toNat = 2 ^ 64 - 1 from rfl,
    Nat.and_two_pow_sub_one_eq_mod, Nat.mod_eq_of_lt v.toNat_lt]

/-- A bit of `z &&& -z` is set only at the lowest one bit of `z`. -/
theorem getLsbD_and_neg {w : Nat} (z : BitVec w) (i : Nat) :
    (z &&& -z).getLsbD i = (z.getLsbD i && !decide (∃ j < i, z.getLsbD j = true)) := by
  rw [BitVec.getLsbD_and, BitVec.getLsbD_neg]
  by_cases hi : i < w
  · cases z.getLsbD i <;> simp [hi]
  · simp [BitVec.getLsbD_of_ge z i (by omega)]

/-- `z &&& -z` keeps the lowest one bit of `z` alone. -/
theorem getLsbD_and_neg_find {w : Nat} (z : BitVec w) (hex : ∃ k, z.getLsbD k = true) (l : Nat) :
    (z &&& -z).getLsbD l = decide (l = Nat.find hex) := by
  rw [getLsbD_and_neg]
  have hmin : ∀ j < Nat.find hex, z.getLsbD j = false := fun j hj => by
    simpa using Nat.find_min hex hj
  by_cases hl : l = Nat.find hex
  · subst hl
    simp only [Nat.find_spec hex, Bool.true_and, decide_true]
    simpa using fun j hj => hmin j hj
  · cases hz : z.getLsbD l
    · simp [hl]
    · have hlt : Nat.find hex < l := lt_of_le_of_ne (Nat.find_min' hex hz) (Ne.symm hl)
      simp only [Bool.true_and, hl, decide_false, Bool.not_eq_false']
      exact decide_eq_true ⟨_, hlt, Nat.find_spec hex⟩

/-- Negating `z &&& -z` sets every bit from the lowest one bit of `z` up. -/
theorem getLsbD_neg_and_neg {w : Nat} (z : BitVec w) {k i : Nat} (hk : z.getLsbD k = true) (hki : k ≤ i)
    (hi : i < w) : (-(z &&& -z)).getLsbD i = true := by
  have hex : ∃ k, z.getLsbD k = true := ⟨k, hk⟩
  have hk0 : Nat.find hex ≤ k := Nat.find_min' hex hk
  rw [BitVec.getLsbD_neg, getLsbD_and_neg_find z hex]
  simp only [getLsbD_and_neg_find z hex, decide_eq_true_eq, hi, decide_true, Bool.true_and]
  by_cases he : i = Nat.find hex
  · simp [he]
  · simp only [he, decide_false, Bool.false_xor, decide_eq_true_eq]
    exact ⟨Nat.find hex, by omega, rfl⟩

/-- **`fold_neg_no_const`'s mask.** When every one bit of `v` lies in `z`,
every one bit of `-v` lies in `-(z &&& -z)`: negation keeps the bits
below the lowest one bit of `z` clear and may set any bit above it. -/
theorem and_not_neg_lowest {v z : UInt64} (h : v &&& ~~~z = 0) : -v &&& ~~~(-(z &&& -z)) = 0 := by
  have hbit : ∀ j, v.toBitVec.getLsbD j = true → z.toBitVec.getLsbD j = true := by
    intro j hv
    have hj := congrArg (fun x : UInt64 => x.toBitVec.getLsbD j) h
    simp only [UInt64.toBitVec_and, UInt64.toBitVec_not, BitVec.getLsbD_and, BitVec.getLsbD_not,
      UInt64.toBitVec_zero, BitVec.getLsbD_zero, hv, Bool.true_and] at hj
    have hj64 : j < 64 := by
      by_contra hge
      simp [BitVec.getLsbD_of_ge v.toBitVec j (by omega)] at hv
    rw [BitVec.getLsbD_eq_getElem hj64]
    simpa [hj64] using hj
  apply UInt64.toBitVec_inj.mp
  apply BitVec.eq_of_getLsbD_eq
  intro i hi
  simp only [UInt64.toBitVec_and, UInt64.toBitVec_not, UInt64.toBitVec_neg, BitVec.getLsbD_and,
    BitVec.getLsbD_not, UInt64.toBitVec_zero, BitVec.getLsbD_zero, hi, decide_true, Bool.true_and]
  by_cases hex : ∃ j ≤ i, v.toBitVec.getLsbD j = true
  · -- a one bit of `v` at or below `i`: `-(z &&& -z)` has bit `i`
    obtain ⟨j, hji, hj⟩ := hex
    rw [getLsbD_neg_and_neg z.toBitVec (hbit j hj) hji hi]
    simp
  · -- none: `-v` has no bit `i` either
    push Not at hex
    have hvi : v.toBitVec.getLsbD i = false := by simpa using hex i le_rfl
    rw [BitVec.getLsbD_neg, hvi]
    have : ¬∃ j < i, v.toBitVec.getLsbD j = true := fun ⟨j, hj, hv⟩ => by
      simp [hex j hj.le] at hv
    simp [this]

/-! ## Sign extension from 32 bits -/

/-- `(int32_t)v` passed on as a 64-bit value: the low half of `v`,
sign-extended. -/
def int32Cast (v : UInt64) : UInt64 :=
  UInt64.ofBitVec ((v.toBitVec.setWidth 32).signExtend 64)

end Word

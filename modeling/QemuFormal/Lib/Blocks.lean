/-
QemuFormal.Lib.Blocks — blocks of `B^m` consecutive naturals, and the
least element of a set of naturals found block by block.

Block `q` of height `m` holds the `x` with `x / B^m = q`; it is made of
the blocks `B * q + r` (`r < B`) of height `m - 1`. A set `s` occupies a
block when it has an element there (`Occupied`), and a block of height
`m + 1` is occupied iff one of its sub-blocks is (`occupied_succ`).

Two searches rest on the order of the blocks.
- The least element of `s` in a block is the least in its first occupied
  sub-block (`isLeast_block_iff_first_child`), so it is reached from the
  top by following first occupied sub-blocks.
- Let `t` lie in the height-1 block `w` or just past it. An element past
  `w` lies in a block right of an ancestor of `w`, in the same parent
  (`Right`, `exists_right`), and such blocks come in the order of their
  height. So when `w` has nothing left from `t` on, the least element
  from `t` on is the least of the first occupied block right of `w`'s
  ancestors at the lowest height that has one (`isLeast_ge_of_right`),
  and there is none when no height up to the top has one
  (`lt_of_forall_not_right`).
-/
import Mathlib.Order.Lattice.Nat

namespace Blocks

/-- `s` has an element in block `q` of height `m`. -/
def Occupied (s : Set Nat) (B m q : Nat) : Prop := ∃ x ∈ s, x / B ^ m = q

/-- Block `r` of height `m` (`1 ≤ m`) lies right of the ancestor of the
height-1 block `w`, in the same parent. -/
def Right (B w m r : Nat) : Prop := r / B = w / B ^ m ∧ w / B ^ (m - 1) < r

theorem div_pow_succ (x B m : Nat) : x / B ^ (m + 1) = x / B ^ m / B := by
  rw [Nat.pow_succ, Nat.div_div_eq_div_mul]

theorem div_pow_succ' (x B m : Nat) : x / B ^ (m + 1) = x / B / B ^ m := by
  rw [Nat.pow_succ', Nat.div_div_eq_div_mul]

/-- A nonempty set of naturals has a least element. -/
theorem exists_isLeast {S : Set Nat} (h : S.Nonempty) : ∃ x, IsLeast S x :=
  ⟨sInf S, Nat.sInf_mem h, fun _ hy => Nat.sInf_le hy⟩

section

variable {s : Set Nat} {B : Nat}

theorem occupied_zero {q : Nat} : Occupied s B 0 q ↔ q ∈ s := by
  simp [Occupied]

theorem occupied_of_mem {x : Nat} (hx : x ∈ s) (m : Nat) : Occupied s B m (x / B ^ m) :=
  ⟨x, hx, rfl⟩

/-- The sub-block of height `m` that holds `y`, inside its block `q` of
height `m + 1`. -/
theorem div_pow_eq_child {y m q : Nat} (hy : y / B ^ (m + 1) = q) : y / B ^ m = B * q + y / B ^ m % B := by
  rw [← hy, div_pow_succ, Nat.div_add_mod]

theorem div_pow_succ_of_child (hB : 0 < B) {y m q r : Nat} (hr : r < B) (hy : y / B ^ m = B * q + r) :
    y / B ^ (m + 1) = q := by
  rw [div_pow_succ, hy, Nat.mul_add_div hB, Nat.div_eq_of_lt hr, Nat.add_zero]

theorem occupied_succ (hB : 0 < B) {m q : Nat} :
    Occupied s B (m + 1) q ↔ ∃ r < B, Occupied s B m (B * q + r) := by
  constructor
  · rintro ⟨x, hx, hq⟩
    exact ⟨x / B ^ m % B, Nat.mod_lt _ hB, x, hx, div_pow_eq_child hq⟩
  · rintro ⟨r, hr, x, hx, hxr⟩
    exact ⟨x, hx, div_pow_succ_of_child hB hr hxr⟩

/-- An occupied block has a least element of `s`. -/
theorem exists_isLeast_block {m q : Nat} (h : Occupied s B m q) :
    ∃ x, IsLeast {x | x ∈ s ∧ x / B ^ m = q} x := by
  obtain ⟨x, hx, hq⟩ := h
  exact exists_isLeast ⟨x, hx, hq⟩

/-- The least element of a block is the least of every smaller block
that holds it. -/
theorem isLeast_sub_block {m k q x : Nat} (hx : IsLeast {x | x ∈ s ∧ x / B ^ m = q} x) (hk : k ≤ m) :
    IsLeast {y | y ∈ s ∧ y / B ^ k = x / B ^ k} x := by
  refine ⟨⟨hx.1.1, rfl⟩, fun y ⟨hy, hyk⟩ => hx.2 ⟨hy, ?_⟩⟩
  rw [← hx.1.2, show m = k + (m - k) by omega, Nat.pow_add, ← Nat.div_div_eq_div_mul,
    ← Nat.div_div_eq_div_mul, hyk]

/-- Two blocks with the same parent have the same ancestors above it. -/
theorem div_pow_succ_eq_of_le {x w m k : Nat} (h : x / B ^ (m + 1) = w / B ^ m) (hk : m ≤ k) :
    x / B ^ (k + 1) = w / B ^ k := by
  induction k, hk using Nat.le_induction with
  | base => exact h
  | succ k _ ih => rw [div_pow_succ x B (k + 1), ih, ← div_pow_succ]

/-- The least element of `s` in block `q` of height `m + 1` is the least
in its first occupied sub-block. -/
theorem isLeast_block_iff_first_child (hB : 0 < B) {m q r x : Nat}
    (hr : IsLeast {r | r < B ∧ Occupied s B m (B * q + r)} r) :
    IsLeast {x | x ∈ s ∧ x / B ^ (m + 1) = q} x ↔ IsLeast {x | x ∈ s ∧ x / B ^ m = B * q + r} x := by
  obtain ⟨⟨hrB, hocc⟩, hfirst⟩ := hr
  -- every element of block `q` lies in an occupied sub-block, not before the first
  have hchild : ∀ y ∈ s, y / B ^ (m + 1) = q → r ≤ y / B ^ m % B := fun y hy hyq =>
    hfirst ⟨Nat.mod_lt _ hB, y, hy, div_pow_eq_child hyq⟩
  constructor
  · rintro ⟨⟨hx, hxq⟩, hleast⟩
    obtain ⟨y, ⟨hy, hyr⟩, -⟩ := exists_isLeast_block hocc
    have hxy := hleast ⟨hy, div_pow_succ_of_child hB hrB hyr⟩
    have hle := hchild x hx hxq
    have hx_child : x / B ^ m % B = r := by
      by_contra hne
      have hlt : y / B ^ m < x / B ^ m := by
        rw [hyr, div_pow_eq_child hxq]
        omega
      exact absurd (Nat.lt_of_div_lt_div hlt) (Nat.not_lt.mpr hxy)
    refine ⟨⟨hx, by rw [div_pow_eq_child hxq, hx_child]⟩, fun z ⟨hz, hzr⟩ => ?_⟩
    exact hleast ⟨hz, div_pow_succ_of_child hB hrB hzr⟩
  · rintro ⟨⟨hx, hxr⟩, hleast⟩
    refine ⟨⟨hx, div_pow_succ_of_child hB hrB hxr⟩, fun y ⟨hy, hyq⟩ => ?_⟩
    have hle := hchild y hy hyq
    by_cases hyr : y / B ^ m % B = r
    · exact hleast ⟨hy, by rw [div_pow_eq_child hyq, hyr]⟩
    · have hlt : x / B ^ m < y / B ^ m := by
        rw [hxr, div_pow_eq_child hyq]
        omega
      exact Nat.le_of_lt (Nat.lt_of_div_lt_div hlt)

/-- An element past the height-1 block `w` lies in a block right of an
ancestor of `w`, at a height where no lower ancestor of it shares its
parent with one of `w`. -/
theorem exists_right (hB : 1 < B) {w y : Nat} (hy : w < y / B) :
    ∃ k, 1 ≤ k ∧ Right B w k (y / B ^ k) ∧ ∀ j, 1 ≤ j → j < k → y / B ^ (j + 1) ≠ w / B ^ j := by
  -- high enough, both ancestors are block 0
  have hex : ∃ k, 1 ≤ k ∧ y / B ^ (k + 1) = w / B ^ k := by
    have hy1 : 1 ≤ y := by
      by_contra h
      rw [show y = 0 by omega, Nat.zero_div] at hy
      exact Nat.not_lt_zero _ hy
    have hyB : y < B ^ y := Nat.lt_pow_self hB
    have hwy : w < y := lt_of_lt_of_le hy (Nat.div_le_self y B)
    refine ⟨y, hy1, ?_⟩
    rw [Nat.div_eq_of_lt (lt_of_lt_of_le hyB (Nat.pow_le_pow_right (by omega) (by omega))),
      Nat.div_eq_of_lt (lt_trans hwy hyB)]
  refine ⟨Nat.find hex, (Nat.find_spec hex).1, ⟨?_, ?_⟩, fun j hj hjk hne => Nat.find_min hex hjk ⟨hj, hne⟩⟩
  · rw [← div_pow_succ]
    exact (Nat.find_spec hex).2
  · obtain ⟨hk1, -⟩ := Nat.find_spec hex
    have hge : w / B ^ (Nat.find hex - 1) ≤ y / B ^ Nat.find hex := by
      rw [show Nat.find hex = Nat.find hex - 1 + 1 by omega, div_pow_succ', Nat.add_sub_cancel]
      exact Nat.div_le_div_right (Nat.le_of_lt hy)
    refine lt_of_le_of_ne hge fun heq => ?_
    by_cases h1 : Nat.find hex = 1
    · rw [h1, Nat.sub_self, Nat.pow_zero, Nat.div_one, Nat.pow_one] at heq
      exact absurd heq (Nat.ne_of_lt hy)
    · refine Nat.find_min hex (m := Nat.find hex - 1) (by omega) ⟨by omega, ?_⟩
      rw [Nat.sub_add_cancel hk1]
      exact heq.symm

/-- The blocks right of `w`'s ancestors come after `w` itself. -/
theorem lt_div_of_right {w m r x : Nat} (hr : Right B w m r) (hm : 1 ≤ m) (hx : x / B ^ m = r) :
    w < x / B := by
  by_contra hle
  have hanc : x / B ^ m ≤ w / B ^ (m - 1) := by
    rw [show m = m - 1 + 1 by omega, div_pow_succ', Nat.add_sub_cancel]
    exact Nat.div_le_div_right (Nat.le_of_not_lt hle)
  exact absurd hr.2 (Nat.not_lt.mpr (hx ▸ hanc))

/-- The least element of `s` from `t` on, where `t` lies in the height-1
block `w` or just past it and `w` has nothing left: the least of the
first occupied block right of `w`'s ancestors at height `m`, when no
lower height has one. -/
theorem isLeast_ge_of_right (hB : 1 < B) {w t m q x : Nat} (hwt : B * w ≤ t) (htw : t ≤ B * w + B)
    (hm : 1 ≤ m) (hword : ∀ y ∈ s, t ≤ y → y / B ≠ w)
    (hlow : ∀ k, 1 ≤ k → k < m → ∀ r, Right B w k r → ¬ Occupied s B k r)
    (hq : IsLeast {r | Right B w m r ∧ Occupied s B m r} q)
    (hx : IsLeast {x | x ∈ s ∧ x / B ^ m = q} x) :
    IsLeast {x | x ∈ s ∧ t ≤ x} x := by
  obtain ⟨⟨hxs, hxq⟩, hxleast⟩ := hx
  obtain ⟨⟨hqr, -⟩, hqleast⟩ := hq
  have hxw : w < x / B := lt_div_of_right hqr hm hxq
  refine ⟨⟨hxs, ?_⟩, fun y ⟨hys, hty⟩ => ?_⟩
  · have hx : B * (w + 1) ≤ x := by
      rw [Nat.mul_comm]
      exact (Nat.le_div_iff_mul_le (by omega)).mp hxw
    rw [Nat.mul_succ] at hx
    omega
  · have hyw : w < y / B := by
      have hle : w ≤ y / B := (Nat.le_div_iff_mul_le (by omega)).mpr (by rw [Nat.mul_comm]; omega)
      exact lt_of_le_of_ne hle (hword y hys hty).symm
    obtain ⟨k, hk1, hkr, hkmin⟩ := exists_right hB hyw
    have hmk : m ≤ k := Nat.le_of_not_lt fun hkm => hlow k hk1 hkm _ hkr (occupied_of_mem hys k)
    rcases Nat.lt_or_eq_of_le hmk with hmk | rfl
    · -- `y`'s ancestor at height `m + 1` is right of `x`'s, the parent of `q`
      have hne := hkmin m hm hmk
      have hxp : x / B ^ (m + 1) = w / B ^ m := by rw [div_pow_succ, hxq, hqr.1]
      have hge : w / B ^ m ≤ y / B ^ (m + 1) := by
        rw [div_pow_succ']
        exact Nat.div_le_div_right (Nat.le_of_lt hyw)
      exact Nat.le_of_lt (Nat.lt_of_div_lt_div (hxp ▸ lt_of_le_of_ne hge (Ne.symm hne)))
    · have hqy := hqleast ⟨hkr, occupied_of_mem hys m⟩
      rcases Nat.lt_or_eq_of_le hqy with hqy | hqy
      · exact Nat.le_of_lt (Nat.lt_of_div_lt_div (hxq ▸ hqy))
      · exact hxleast ⟨hys, hqy.symm⟩

/-- When neither `w` from `t` on nor any block right of `w`'s ancestors up
to height `H` has an element, and `s` lies within the ancestor of `w` at
height `H + 1`, no element of `s` is at or past `t`. -/
theorem lt_of_forall_not_right (hB : 1 < B) {w t H : Nat} (hwt : B * w ≤ t)
    (hword : ∀ y ∈ s, t ≤ y → y / B ≠ w)
    (hall : ∀ k, 1 ≤ k → k ≤ H → ∀ r, Right B w k r → ¬ Occupied s B k r)
    (htop : ∀ y ∈ s, y / B ^ (H + 1) = w / B ^ H) :
    ∀ y ∈ s, y < t := by
  intro y hys
  by_contra hty
  have hty : t ≤ y := Nat.le_of_not_lt hty
  have hyw : w < y / B := by
    have hle : w ≤ y / B := (Nat.le_div_iff_mul_le (by omega)).mpr (by rw [Nat.mul_comm]; omega)
    exact lt_of_le_of_ne hle (hword y hys hty).symm
  obtain ⟨k, hk1, hkr, hkmin⟩ := exists_right hB hyw
  -- the top block is shared, so `y` branches off at a height up to `H`
  have hkH : k ≤ H := by
    by_contra hHk
    by_cases hH : H = 0
    · subst hH
      have := htop y hys
      rw [Nat.zero_add, Nat.pow_one, Nat.pow_zero, Nat.div_one] at this
      exact hword y hys hty this
    · exact hkmin H (by omega) (by omega) (htop y hys)
  exact hall k hk1 hkH _ hkr (occupied_of_mem hys k)

end

end Blocks

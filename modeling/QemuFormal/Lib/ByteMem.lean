/-
QemuFormal.Lib.ByteMem — a byte memory with holes, and little-endian
loads from it.

A memory maps an address to `some` byte where there is one and to `none`
elsewhere; `window base bytes` holds `bytes` from `base` on and nothing
around them. `load mem a n` is the little-endian value of the `n` bytes
at `a`, and is `none` as soon as one of them is missing: a computation
that binds its loads and ends in `some` read only defined bytes.

`ZeroOn mem lo hi` says every byte in `[lo, hi)` is defined and zero. A
load is zero exactly when its bytes are (`load_eq_zero_iff`), an `or` of
values is zero exactly when each is (`Nat.or_eq_zero_iff`), and `ZeroOn` over overlapping ranges
joins into `ZeroOn` over their union (`zeroOn_union`), so a test that
`or`s loads covering a buffer decides whether the buffer is zero.
`alignDown x m` rounds `x` down to a multiple of `m`.
-/
import Mathlib.Data.Nat.Bitwise
import Mathlib.Data.List.Basic

namespace ByteMem

/-- `bytes` from address `base` on, and no byte anywhere else. -/
def window (base : Nat) (bytes : List UInt8) (a : Nat) : Option UInt8 :=
  if base ≤ a then bytes[a - base]? else none

/-- The little-endian value of the `n` bytes at `a`, or `none` when one
of them is missing. -/
def load (mem : Nat → Option UInt8) (a : Nat) : (n : Nat) → Option Nat
  | 0 => some 0
  | n + 1 => (mem a).bind fun b => (load mem (a + 1) n).map fun v => b.toNat + 256 * v

/-- Every byte of `[lo, hi)` is there and zero. -/
def ZeroOn (mem : Nat → Option UInt8) (lo hi : Nat) : Prop :=
  ∀ x, lo ≤ x → x < hi → mem x = some 0

instance (mem : Nat → Option UInt8) (lo hi : Nat) : Decidable (ZeroOn mem lo hi) :=
  inferInstanceAs (Decidable (∀ x, lo ≤ x → x < hi → mem x = some 0))

/-- `x` rounded down to a multiple of `m`. -/
def alignDown (x m : Nat) : Nat := x / m * m

/-! ## Windows -/

theorem window_of_mem {base a : Nat} {bytes : List UInt8} (h1 : base ≤ a) (h2 : a < base + bytes.length) :
    window base bytes a = some bytes[a - base] := by
  rw [window, if_pos h1, List.getElem?_eq_getElem]

theorem window_isSome_iff {base a : Nat} {bytes : List UInt8} :
    (window base bytes a).isSome ↔ base ≤ a ∧ a < base + bytes.length := by
  unfold window
  split_ifs with h
  · rw [Option.isSome_iff_ne_none, ne_eq, List.getElem?_eq_none_iff]
    omega
  · simp only [Option.isSome_none, Bool.false_eq_true, false_iff]
    omega

theorem zeroOn_window_iff {base : Nat} {bytes : List UInt8} :
    ZeroOn (window base bytes) base (base + bytes.length) ↔ ∀ b ∈ bytes, b = 0 := by
  constructor
  · intro h b hb
    obtain ⟨i, hi, rfl⟩ := List.getElem_of_mem hb
    have := h (base + i) (by omega) (by omega)
    rw [window_of_mem (by omega) (by omega)] at this
    simpa using this
  · intro h x h1 h2
    rw [window_of_mem h1 h2, h _ (List.getElem_mem _)]

/-- The same test as the `Bool` a zero check returns. -/
theorem decide_zeroOn_window (base : Nat) (bytes : List UInt8) :
    decide (ZeroOn (window base bytes) base (base + bytes.length)) = bytes.all fun b => b == 0 := by
  rw [Bool.eq_iff_iff, decide_eq_true_iff, zeroOn_window_iff, List.all_eq_true]
  simp

/-! ## Loads -/

section Loads

variable {mem : Nat → Option UInt8}

/-- A load whose bytes are all there gives a value below `2 ^ (8 * n)`. -/
theorem load_of_isSome : ∀ (n a : Nat), (∀ x, a ≤ x → x < a + n → (mem x).isSome) →
    ∃ v, load mem a n = some v ∧ v < 2 ^ (8 * n)
  | 0, _, _ => ⟨0, rfl, by decide⟩
  | n + 1, a, h => by
    obtain ⟨b, hb⟩ := Option.isSome_iff_exists.1 (h a le_rfl (by omega))
    obtain ⟨v, hv, hlt⟩ := load_of_isSome n (a + 1) fun x h1 h2 => h x (by omega) (by omega)
    refine ⟨b.toNat + 256 * v, by rw [load, hb, Option.bind_some, hv, Option.map_some], ?_⟩
    have hb' := b.toNat_lt
    rw [show 8 * (n + 1) = 8 * n + 8 by omega, Nat.pow_add]
    omega

/-- A load is zero exactly when each of its bytes is. -/
theorem load_eq_zero_iff : ∀ {n a v : Nat}, load mem a n = some v → (v = 0 ↔ ZeroOn mem a (a + n))
  | 0, a, v, h => by
    cases h
    exact ⟨fun _ x h1 h2 => absurd h2 (by omega), fun _ => rfl⟩
  | n + 1, a, v, h => by
    rw [load] at h
    obtain ⟨b, hb, h⟩ := Option.bind_eq_some_iff.1 h
    obtain ⟨w, hw, rfl⟩ := Option.map_eq_some_iff.1 h
    have ih := load_eq_zero_iff hw
    constructor
    · intro h0 x h1 h2
      have hb0 : b.toNat = 0 := by omega
      have hw0 : w = 0 := by omega
      rcases Nat.eq_or_lt_of_le h1 with rfl | hlt
      · rw [hb, show b = 0 from UInt8.toNat_inj.1 hb0]
      · exact ih.1 hw0 x (by omega) (by omega)
    · intro hz
      have hb0 : b = 0 := by simpa [hb] using hz a le_rfl (by omega)
      have hw0 : w = 0 := ih.2 fun x h1 h2 => hz x (by omega) (by omega)
      rw [hb0, hw0]
      rfl

end Loads

/-! ## Ranges of zeros -/

section Ranges

variable {mem : Nat → Option UInt8}

theorem ZeroOn.mono {lo hi lo' hi' : Nat} (h : ZeroOn mem lo hi) (hlo : lo ≤ lo') (hhi : hi' ≤ hi) :
    ZeroOn mem lo' hi' :=
  fun x h1 h2 => h x (by omega) (by omega)

@[simp]
theorem zeroOn_empty (a : Nat) : ZeroOn mem a a :=
  fun _ h1 h2 => absurd h2 (by omega)

/-- Two ranges that overlap or touch make their union. -/
theorem zeroOn_union {a b c d : Nat} (hac : a ≤ c) (hcb : c ≤ b) (hbd : b ≤ d) :
    ZeroOn mem a b ∧ ZeroOn mem c d ↔ ZeroOn mem a d := by
  constructor
  · rintro ⟨h1, h2⟩ x hx1 hx2
    by_cases hxb : x < b
    · exact h1 x hx1 hxb
    · exact h2 x (by omega) hx2
  · intro h
    exact ⟨h.mono le_rfl (by omega), h.mono hac le_rfl⟩

end Ranges

/-! ## Alignment -/

section Align

theorem alignDown_le (x m : Nat) : alignDown x m ≤ x :=
  Nat.div_mul_le_self x m

theorem lt_alignDown_add (x : Nat) {m : Nat} (hm : 0 < m) : x < alignDown x m + m := by
  have := @Nat.lt_div_mul_add x m hm
  rw [alignDown]
  omega

theorem alignDown_mod (x m : Nat) : alignDown x m % m = 0 :=
  Nat.mul_mod_left _ _

/-- Two multiples of `m` more than `k` units apart are at least `k + 1`
units apart. -/
theorem add_le_of_mod_eq_zero {m p e k : Nat} (hp : p % m = 0) (he : e % m = 0) (h : p + k * m < e) :
    p + (k + 1) * m ≤ e := by
  obtain ⟨a, rfl⟩ := Nat.dvd_of_mod_eq_zero hp
  obtain ⟨b, rfl⟩ := Nat.dvd_of_mod_eq_zero he
  have hab : a + k < b := by
    rw [Nat.mul_comm k m, ← Nat.mul_add] at h
    exact Nat.lt_of_mul_lt_mul_left h
  calc m * a + (k + 1) * m = m * (a + (k + 1)) := by rw [Nat.mul_comm (k + 1) m, ← Nat.mul_add]
    _ ≤ m * b := Nat.mul_le_mul_left m (by omega)

end Align

end ByteMem

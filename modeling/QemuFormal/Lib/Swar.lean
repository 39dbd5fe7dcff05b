/-
QemuFormal.Lib.Swar — the "has a zero byte" test on a machine word.

A word of `n` bytes is read as the little-endian number `value bs` of its
bytes. On such a word, with `ones n = 0x0101..01`, the expression

  `(v - ones n) & ~v & (ones n << 7)`

computed modulo `256^n` (the subtraction wraps, `~v` is `256^n - 1 - v`)
is non-zero exactly when some byte of `v` is zero (`hasZeroByte_ne_zero_iff`).
The proof peels the lowest byte: a bitwise operation on `lo + 256 * hi`
with `lo < 256` splits into one on the low bytes and one on the rest
(`land_split`); a non-zero low byte `b` gives a low byte `(b - 1) & ~b &
0x80` of zero and no borrow into the rest, and a zero one gives `0x80`.
Words compare and combine byte by byte (`value_inj`, `value_xor`).
-/
import Mathlib.Data.Nat.Bitwise
import Mathlib.Data.List.Basic
import Mathlib.Tactic.Ring
import Mathlib.Tactic.Positivity
import Mathlib.Tactic.NormNum
import Mathlib.Tactic.Linarith

namespace Swar

/-- The number whose base-256 digits, lowest first, are `bs`. -/
def value : List Nat → Nat
  | [] => 0
  | b :: bs => b + 256 * value bs

/-- `0x0101..01` on `n` bytes. -/
def ones : Nat → Nat
  | 0 => 0
  | n + 1 => 1 + 256 * ones n

/-- The test on a word `v` of `n` bytes, as an unsigned machine word
computes it. -/
def hasZeroByte (n v : Nat) : Nat :=
  (v + 256 ^ n - ones n) % 256 ^ n &&& (256 ^ n - 1 - v) &&& 128 * ones n

/-- Every digit is a byte. -/
def AllBytes (bs : List Nat) : Prop := ∀ b ∈ bs, b < 256

@[simp] theorem value_nil : value [] = 0 := rfl

@[simp] theorem value_cons (b : Nat) (bs : List Nat) : value (b :: bs) = b + 256 * value bs := rfl

theorem allBytes_cons {b : Nat} {bs : List Nat} : AllBytes (b :: bs) ↔ b < 256 ∧ AllBytes bs := by
  simp [AllBytes]

theorem value_lt {bs : List Nat} (h : AllBytes bs) : value bs < 256 ^ bs.length := by
  induction bs with
  | nil => simp
  | cons b bs ih =>
    obtain ⟨hb, hbs⟩ := allBytes_cons.mp h
    have := ih hbs
    rw [value_cons, List.length_cons, pow_succ]
    omega

theorem ones_lt (n : Nat) : ones n < 256 ^ n := by
  induction n with
  | zero => simp [ones]
  | succ n ih =>
    rw [ones, pow_succ]
    omega

/-! ## Splitting off the lowest byte -/

/-- A bitwise `and` on `lo + 256 * hi` works on the low bytes and on the
rest apart. -/
theorem land_split {a b x y : Nat} (ha : a < 256) (hb : b < 256) :
    (a + 256 * x) &&& (b + 256 * y) = (a &&& b) + 256 * (x &&& y) := by
  have h8 : (256 : Nat) = 2 ^ 8 := rfl
  rw [h8] at ha hb ⊢
  rw [add_comm a, add_comm b, add_comm (a &&& b)]
  apply Nat.eq_of_testBit_eq
  intro i
  rw [Nat.testBit_land, Nat.testBit_two_pow_mul_add _ ha, Nat.testBit_two_pow_mul_add _ hb,
    Nat.testBit_two_pow_mul_add _ (Nat.and_lt_two_pow a hb), Nat.testBit_land, Nat.testBit_land]
  split <;> rfl

/-- The same for `xor`. -/
theorem xor_split {a b x y : Nat} (ha : a < 256) (hb : b < 256) :
    (a + 256 * x) ^^^ (b + 256 * y) = (a ^^^ b) + 256 * (x ^^^ y) := by
  have h8 : (256 : Nat) = 2 ^ 8 := rfl
  rw [h8] at ha hb ⊢
  rw [add_comm a, add_comm b, add_comm (a ^^^ b)]
  apply Nat.eq_of_testBit_eq
  intro i
  rw [Nat.testBit_xor, Nat.testBit_two_pow_mul_add _ ha, Nat.testBit_two_pow_mul_add _ hb,
    Nat.testBit_two_pow_mul_add _ (Nat.xor_lt_two_pow ha hb), Nat.testBit_xor, Nat.testBit_xor]
  split <;> rfl

/-- `c + 256 * X` reduced modulo `256 * P` keeps its low byte. -/
theorem mod_split {c X P : Nat} (hc : c < 256) (hP : 0 < P) :
    (c + 256 * X) % (256 * P) = c + 256 * (X % P) := by
  have hX : X = X % P + P * (X / P) := (Nat.mod_add_div X P).symm
  have hlt : X % P < P := Nat.mod_lt X hP
  have hsum : c + 256 * X = c + 256 * (X % P) + 256 * P * (X / P) := by
    conv_lhs => rw [hX]
    ring
  rw [hsum, Nat.add_mul_mod_self_left, Nat.mod_eq_of_lt]
  calc c + 256 * (X % P) < 256 + 256 * (X % P) := by omega
    _ ≤ 256 * P := by nlinarith

/-- The wrapping `v - ones` on a word whose lowest byte is not zero: that
byte goes down by one and the rest does its own subtraction. -/
theorem sub_ones_of_pos {b v n : Nat} (hb : 0 < b) (hb' : b < 256) :
    (b + 256 * v + 256 ^ (n + 1) - ones (n + 1)) % 256 ^ (n + 1) =
      (b - 1) + 256 * ((v + 256 ^ n - ones n) % 256 ^ n) := by
  have ho := ones_lt n
  have heq : b + 256 * v + 256 ^ (n + 1) - ones (n + 1) = (b - 1) + 256 * (v + 256 ^ n - ones n) := by
    rw [ones, pow_succ]
    omega
  rw [heq, pow_succ, mul_comm _ 256]
  exact mod_split (by omega) (by positivity)

/-- On a word whose lowest byte is zero, `v - ones` borrows: the lowest
byte becomes `0xff`. -/
theorem sub_ones_of_zero {v n : Nat} :
    (0 + 256 * v + 256 ^ (n + 1) - ones (n + 1)) % 256 ^ (n + 1) =
      255 + 256 * ((v + 256 ^ n - ones n - 1) % 256 ^ n) := by
  have ho := ones_lt n
  have heq : 0 + 256 * v + 256 ^ (n + 1) - ones (n + 1) = 255 + 256 * (v + 256 ^ n - ones n - 1) := by
    rw [ones, pow_succ]
    omega
  rw [heq, pow_succ, mul_comm _ 256]
  exact mod_split (by omega) (by positivity)

/-- `~v` byte by byte. -/
theorem not_split {b v n : Nat} (hb : b < 256) (hv : v < 256 ^ n) :
    256 ^ (n + 1) - 1 - (b + 256 * v) = (255 - b) + 256 * (256 ^ n - 1 - v) := by
  rw [pow_succ]
  have : 1 ≤ 256 ^ n := Nat.one_le_pow _ _ (by norm_num)
  omega

theorem highs_split (n : Nat) : 128 * ones (n + 1) = 128 + 256 * (128 * ones n) := by
  rw [ones]
  ring

/-! ## The test -/

/-- For a non-zero byte `b`, `(b - 1) & ~b` has bit 7 clear. -/
theorem low_of_pos : ∀ b < 256, 0 < b → (b - 1) &&& (255 - b) &&& 128 = 0 := by
  decide +kernel

/-- **The zero-byte test** is non-zero exactly when the word has a zero
byte. -/
theorem hasZeroByte_ne_zero_iff {bs : List Nat} (h : AllBytes bs) :
    hasZeroByte bs.length (value bs) ≠ 0 ↔ 0 ∈ bs := by
  induction bs with
  | nil => simp [hasZeroByte]
  | cons b bs ih =>
    obtain ⟨hb, hbs⟩ := allBytes_cons.mp h
    have hv := value_lt hbs
    have hnot := not_split (n := bs.length) hb hv
    have hfit₁ : 255 - b < 256 := by omega
    unfold hasZeroByte
    rw [List.length_cons, value_cons, hnot, highs_split]
    rcases Nat.eq_zero_or_pos b with rfl | hpos
    · -- the lowest byte is zero: the test keeps its bit 7
      rw [sub_ones_of_zero, land_split (by norm_num) hfit₁, land_split (by norm_num) (by norm_num)]
      simp
    · -- the lowest byte is not zero: the test is the rest's
      have hlow : b - 1 < 256 := by omega
      rw [sub_ones_of_pos hpos hb, land_split hlow hfit₁,
        land_split (Nat.and_lt_two_pow (b - 1) (show 255 - b < 2 ^ 8 by omega)) (by norm_num),
        low_of_pos b hb hpos, zero_add, List.mem_cons]
      have hne : 0 ≠ b := by omega
      simp only [hne, false_or, ← ih hbs, hasZeroByte]
      omega

/-! ## Words of two buffers -/

/-- Two words of as many bytes are equal when their bytes are. -/
theorem value_inj {bs cs : List Nat} (hb : AllBytes bs) (hc : AllBytes cs) (hlen : bs.length = cs.length)
    (h : value bs = value cs) : bs = cs := by
  induction bs generalizing cs with
  | nil =>
    cases cs with
    | nil => rfl
    | cons c cs => cases hlen
  | cons b bs ih =>
    cases cs with
    | nil => cases hlen
    | cons c cs =>
      obtain ⟨hb₀, hbs⟩ := allBytes_cons.mp hb
      obtain ⟨hc₀, hcs⟩ := allBytes_cons.mp hc
      rw [value_cons, value_cons] at h
      have hlow : b = c := by omega
      have hhigh : value bs = value cs := by omega
      rw [hlow, ih hbs hcs (by simpa using hlen) hhigh]

/-- `xor` of two words is the word of the bytes' `xor`s. -/
theorem value_xor {bs cs : List Nat} (hb : AllBytes bs) (hc : AllBytes cs) (hlen : bs.length = cs.length) :
    value bs ^^^ value cs = value (List.zipWith (· ^^^ ·) bs cs) := by
  induction bs generalizing cs with
  | nil =>
    cases cs with
    | nil => rfl
    | cons c cs => cases hlen
  | cons b bs ih =>
    cases cs with
    | nil => cases hlen
    | cons c cs =>
      obtain ⟨hb₀, hbs⟩ := allBytes_cons.mp hb
      obtain ⟨hc₀, hcs⟩ := allBytes_cons.mp hc
      rw [value_cons, value_cons, xor_split hb₀ hc₀, ih hbs hcs (by simpa using hlen)]
      rfl

theorem allBytes_zipWith_xor {bs cs : List Nat} (hb : AllBytes bs) (hc : AllBytes cs) :
    AllBytes (List.zipWith (· ^^^ ·) bs cs) := by
  intro x hx
  obtain ⟨i, hi, rfl⟩ := List.mem_iff_getElem.mp hx
  rw [List.getElem_zipWith]
  exact Nat.xor_lt_two_pow (n := 8) (hb _ (List.getElem_mem _)) (hc _ (List.getElem_mem _))

end Swar

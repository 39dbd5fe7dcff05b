/-
QemuFormal.Lib.Lap — a position in a ring of `size` slots, kept as an
index and a lap bit that flips each time the index wraps.

A pair `(i, w)` with `i < size` stands for a point on a circle of
`2 * size` (`pos`): the index itself on laps where the bit is set, the
index plus `size` on the others. Advancing by `d ≤ size` adds `d` there
and rewinding by `d ≤ size` subtracts it (`pos_advance`, `pos_rewind`);
inside the lap an advance only moves the index (`advance_of_lt`),
and a pair is fixed by its point (`eq_of_pos_eq`). So a rewind undoes an
advance of the same length (`rewind_advance`) and of no other
(`rewind_advance_eq_iff`); a shorter one leaves the rest of the advance
(`rewind_advance_sub`).
-/
import Mathlib.Data.Nat.Basic

namespace Lap

/-- Advance the index by `d`, wrapping at `size` and flipping the bit. -/
def advance (size d : Nat) (p : Nat × Bool) : Nat × Bool :=
  if size ≤ p.1 + d then (p.1 + d - size, !p.2) else (p.1 + d, p.2)

/-- Step the index back by `d`, wrapping below zero and flipping the bit. -/
def rewind (size d : Nat) (p : Nat × Bool) : Nat × Bool :=
  if p.1 < d then (size + p.1 - d, !p.2) else (p.1 - d, p.2)

/-- The point on the circle of `2 * size` that the pair stands for. -/
def pos (size : Nat) (p : Nat × Bool) : Nat := if p.2 then p.1 else p.1 + size

/-- Below two turns, reducing modulo `m` takes off at most one turn. -/
theorem mod_eq_ite {x m : Nat} (h : x < 2 * m) : x % m = if x < m then x else x - m := by
  split
  · exact Nat.mod_eq_of_lt ‹_›
  · rw [Nat.mod_eq_sub_mod (by omega), Nat.mod_eq_of_lt (by omega)]

section

variable {size d : Nat} {p q : Nat × Bool}

theorem advance_lt (hp : p.1 < size) (hd : d ≤ size) : (advance size d p).1 < size := by
  unfold advance
  split <;> simp only <;> omega

/-- An advance that ends inside the lap moves the index and keeps the bit. -/
theorem advance_of_lt (h : p.1 + d < size) : advance size d p = (p.1 + d, p.2) := by
  unfold advance
  rw [if_neg (Nat.not_le.mpr h)]

/-- The positions an advance of `d` within the lap passes: those on the
same lap from the index to just before `d` past it. -/
theorem exists_advance_eq_iff {e : Nat × Bool} (h : p.1 + d < size) :
    (∃ k < d, advance size k p = e) ↔ e.2 = p.2 ∧ p.1 ≤ e.1 ∧ e.1 < p.1 + d := by
  constructor
  · rintro ⟨k, hk, rfl⟩
    rw [advance_of_lt (by omega)]
    exact ⟨rfl, Nat.le_add_right _ _, by simp only; omega⟩
  · rintro ⟨hw, hle, hlt⟩
    refine ⟨e.1 - p.1, by omega, ?_⟩
    rw [advance_of_lt (by omega)]
    exact Prod.ext (by simp only; omega) hw.symm

theorem rewind_lt (hp : p.1 < size) (hd : d ≤ size) : (rewind size d p).1 < size := by
  unfold rewind
  split <;> simp only <;> omega

theorem pos_lt (hp : p.1 < size) : pos size p < 2 * size := by
  unfold pos
  split <;> omega

/-- Pairs within the ring are equal when their points are. -/
theorem eq_of_pos_eq (hp : p.1 < size) (hq : q.1 < size) (h : pos size p = pos size q) : p = q := by
  obtain ⟨i, w⟩ := p
  obtain ⟨j, v⟩ := q
  simp only at hp hq
  cases w <;> cases v <;> simp only [pos, if_true, Bool.false_eq_true, if_false] at h
  · rw [show i = j by omega]
  · omega
  · omega
  · rw [h]

theorem pos_advance (hp : p.1 < size) (hd : d ≤ size) :
    pos size (advance size d p) = (pos size p + d) % (2 * size) := by
  obtain ⟨i, w⟩ := p
  simp only at hp
  rw [mod_eq_ite (by have := pos_lt (p := (i, w)) hp; omega)]
  unfold advance pos
  -- wrapping or not, on either lap
  cases w <;> by_cases hw : size ≤ i + d <;> simp only [hw, if_true, if_false, Bool.not_false,
    Bool.not_true, Bool.false_eq_true] <;> split <;> omega

theorem pos_rewind (hp : p.1 < size) (hd : d ≤ size) :
    pos size (rewind size d p) = (pos size p + (2 * size - d)) % (2 * size) := by
  obtain ⟨i, w⟩ := p
  simp only at hp
  rw [mod_eq_ite (by have := pos_lt (p := (i, w)) hp; omega)]
  unfold rewind pos
  cases w <;> by_cases hw : i < d <;> simp only [hw, if_true, if_false, Bool.not_false,
    Bool.not_true, Bool.false_eq_true] <;> split <;> omega

/-- On a circle of `2 * size`, going `d` forward and `e` back, both at
most `size`, comes back exactly when `d = e`. -/
theorem add_mod_sub_mod_eq_iff {x e : Nat} (hx : x < 2 * size) (hd : d ≤ size) (he : e ≤ size) :
    ((x + d) % (2 * size) + (2 * size - e)) % (2 * size) = x ↔ d = e := by
  rw [mod_eq_ite (x := x + d) (by omega)]
  split <;> rw [mod_eq_ite (by omega)] <;> split <;> omega

/-- Rewinding by `e` after advancing by `d` gets back to the start
exactly when `d = e`. -/
theorem rewind_advance_eq_iff {e : Nat} (hp : p.1 < size) (hd : d ≤ size) (he : e ≤ size) :
    rewind size e (advance size d p) = p ↔ d = e := by
  have hadv := advance_lt hp hd
  rw [← add_mod_sub_mod_eq_iff (pos_lt hp) hd he, ← pos_advance hp hd, ← pos_rewind hadv he]
  constructor
  · intro h
    rw [h]
  · exact eq_of_pos_eq (rewind_lt hadv he) hp

/-- Two advances within one turn are one. -/
theorem advance_add {e : Nat} (hp : p.1 < size) (hde : d + e ≤ size) :
    advance size e (advance size d p) = advance size (d + e) p := by
  have hadv := advance_lt hp (d := d) (by omega)
  apply eq_of_pos_eq (advance_lt hadv (by omega)) (advance_lt hp hde)
  rw [pos_advance hadv (by omega), pos_advance hp (by omega), pos_advance hp hde, Nat.mod_add_mod, Nat.add_assoc]

/-- Within one turn, only the empty advance stays put. -/
theorem advance_eq_self_iff (hp : p.1 < size) (hd : d ≤ size) : advance size d p = p ↔ d = 0 := by
  constructor
  · intro h
    have hpos := congrArg (pos size) h
    rw [pos_advance hp hd] at hpos
    have := pos_lt hp
    rw [mod_eq_ite (by omega)] at hpos
    split at hpos <;> omega
  · rintro rfl
    apply eq_of_pos_eq (advance_lt hp (Nat.zero_le _)) hp
    rw [pos_advance hp (Nat.zero_le _), Nat.add_zero, Nat.mod_eq_of_lt (pos_lt hp)]

/-- Rewinding part of an advance leaves the rest of it. -/
theorem rewind_advance_sub {e : Nat} (hp : p.1 < size) (hd : d ≤ size) (hed : e ≤ d) :
    rewind size e (advance size d p) = advance size (d - e) p := by
  have hadv := advance_lt hp hd
  apply eq_of_pos_eq (rewind_lt hadv (by omega)) (advance_lt hp (by omega))
  rw [pos_rewind hadv (by omega), pos_advance hp hd, pos_advance hp (by omega)]
  have := pos_lt hp
  rw [mod_eq_ite (x := pos size p + d) (by omega)]
  -- each side is below two turns, so each `%` takes off at most one
  split <;> rw [mod_eq_ite (by omega), mod_eq_ite (by omega)] <;> split <;> split <;> omega

/-- A rewind undoes an advance of the same length. -/
theorem rewind_advance (hp : p.1 < size) (hd : d ≤ size) : rewind size d (advance size d p) = p :=
  (rewind_advance_eq_iff hp hd hd).mpr rfl

end

end Lap

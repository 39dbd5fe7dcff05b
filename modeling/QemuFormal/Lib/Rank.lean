/-
QemuFormal.Lib.Rank — the rank of a number in a finite set of numbers:
how many members lie below it.

`x ↦ base + rank U x` packs `U` into `[base, base + |U|)` with the order
of its members kept: it is strictly monotone on `U` (`rank_lt_rank`),
so injective there (`eq_of_rank_eq`), below `|U|` on `U`
(`rank_lt_card`), and it moves with `x` along an interval that `U`
contains (`rank_add_of_Ico_subset`). Members added above `x` do not
change its rank (`rank_union_of_le`).
-/
import Mathlib.Order.Interval.Finset.Nat

namespace Rank

/-- The number of members of `U` below `x`. -/
def rank (U : Finset Nat) (x : Nat) : Nat := (U.filter (· < x)).card

variable {U : Finset Nat} {x y : Nat}

theorem rank_lt_card (hx : x ∈ U) : rank U x < U.card :=
  Finset.card_lt_card (Finset.filter_ssubset.mpr ⟨x, hx, Nat.lt_irrefl x⟩)

theorem rank_lt_rank (hx : x ∈ U) (hxy : x < y) : rank U x < rank U y := by
  apply Finset.card_lt_card
  refine Finset.ssubset_iff_of_subset ?_ |>.mpr ⟨x, ?_, ?_⟩
  · intro z hz
    rw [Finset.mem_filter] at hz ⊢
    exact ⟨hz.1, Nat.lt_trans hz.2 hxy⟩
  · exact Finset.mem_filter.mpr ⟨hx, hxy⟩
  · simp

theorem eq_of_rank_eq (hx : x ∈ U) (hy : y ∈ U) (h : rank U x = rank U y) : x = y := by
  rcases Nat.lt_trichotomy x y with hxy | hxy | hxy
  · exact absurd h (Nat.ne_of_lt (rank_lt_rank hx hxy))
  · exact hxy
  · exact absurd h (Nat.ne_of_gt (rank_lt_rank hy hxy))

/-- Along an interval inside `U`, the rank counts up one by one. -/
theorem rank_add_of_Ico_subset {a : Nat} (h : Finset.Ico x (x + a) ⊆ U) :
    rank U (x + a) = rank U x + a := by
  have hsplit : U.filter (· < x + a) = U.filter (· < x) ∪ Finset.Ico x (x + a) := by
    ext z
    simp only [Finset.mem_union, Finset.mem_filter, Finset.mem_Ico]
    constructor
    · rintro ⟨hzU, hz⟩
      by_cases hzx : z < x
      · exact Or.inl ⟨hzU, hzx⟩
      · exact Or.inr ⟨by omega, hz⟩
    · rintro (hz | hz)
      · exact ⟨hz.1, by omega⟩
      · exact ⟨h (Finset.mem_Ico.mpr hz), hz.2⟩
  have hdisj : Disjoint (U.filter (· < x)) (Finset.Ico x (x + a)) := by
    rw [Finset.disjoint_left]
    intro z hz hz'
    rw [Finset.mem_filter] at hz
    rw [Finset.mem_Ico] at hz'
    omega
  rw [rank, hsplit, Finset.card_union_of_disjoint hdisj, Nat.card_Ico, Nat.add_sub_cancel_left]
  rfl

/-- Members at or above `x` do not count towards its rank. -/
theorem rank_union_of_le {V : Finset Nat} (h : ∀ v ∈ V, x ≤ v) : rank (U ∪ V) x = rank U x := by
  unfold rank
  congr 1
  ext z
  simp only [Finset.mem_filter, Finset.mem_union]
  constructor
  · rintro ⟨hz | hz, hlt⟩
    · exact ⟨hz, hlt⟩
    · exact absurd (h z hz) (Nat.not_le_of_lt hlt)
  · rintro ⟨hz, hlt⟩
    exact ⟨Or.inl hz, hlt⟩

end Rank

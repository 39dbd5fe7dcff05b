/-
QemuFormal.Util.RangeTheorems — `range_list_insert` keeps a range list
canonical, and `range_inverse_array` computes the complement exactly
when no range that holds `high` is followed by a gap.

§1 Bounds as numbers. `rangeCompare_eq` reads the guarded comparisons of
   `range_compare` as comparisons of natural numbers; `rangeContains_extend`
   says that extending a range by one it overlaps or touches gives their
   union.
§2 `range_list_insert`. A canonical list is one whose ranges each end
   before the next starts with a gap (`rangeListCanonical_iff`). The merge
   loop (`rangeListMerge_spec`) and the whole function
   (`rangeListInsert_spec`) keep that and add the new range to the union.
§3 `range_inverse_array`. The gap loop fails exactly when a range holding
   `high` above its lower bound is followed by one it does not touch
   (`rangeInverseGaps_eq_none_iff`): the gap after it is computed as
   `[upb + 1, high]` with `upb + 1 > high`, and `range_set_bounds` asserts.
   Otherwise what it appends is the complement, sorted and disjoint
   (`rangeInverseGaps_some`). `rangeInverseArray_eq_none_iff` and
   `rangeInverseArray_complement` lift both to the whole function.
-/
import QemuFormal.Util.Range

namespace QemuFormal

/-- The addresses a list of ranges covers. -/
def rangeListCovers (l : List Range) (v : UInt64) : Bool := l.any fun r => rangeContains r v

/-- What `range_list_insert` expects and keeps: non-empty ranges, sorted,
no two of them overlapping or touching (`range_compare` is not `0`). -/
def RangeListCanonical (l : List Range) : Prop :=
  (∀ r ∈ l, rangeIsEmpty r = false) ∧ l.Pairwise fun a b => a.lob ≤ b.lob ∧ rangeCompare a b ≠ 0

instance (l : List Range) : Decidable (RangeListCanonical l) := inferInstanceAs (Decidable (_ ∧ _))

/-- What `range_inverse_array` expects and builds: non-empty ranges,
sorted and pairwise disjoint, that is each ending before the next starts. -/
def RangeListDisjoint (l : List Range) : Prop :=
  (∀ r ∈ l, rangeIsEmpty r = false) ∧ l.Pairwise fun a b => a.upb < b.lob

instance (l : List Range) : Decidable (RangeListDisjoint l) := inferInstanceAs (Decidable (_ ∧ _))

/-- A range holds `high` above its lower bound and is followed by a range
it does not touch. -/
def HighSplits (high : UInt64) (l : List Range) : Prop :=
  ∃ r rn, [r, rn] <:+: l ∧ r.lob < high ∧ high ≤ r.upb ∧ rangeCompare r rn ≠ 0

/-! ## §1 Bounds as numbers -/

theorem rangeIsEmpty_eq_false {r : Range} : rangeIsEmpty r = false ↔ r.lob.toNat ≤ r.upb.toNat := by
  simp [rangeIsEmpty, UInt64.lt_iff_toNat_lt]

theorem rangeContains_eq_true {r : Range} {v : UInt64} :
    rangeContains r v = true ↔ r.lob.toNat ≤ v.toNat ∧ v.toNat ≤ r.upb.toNat := by
  simp [rangeContains, UInt64.le_iff_toNat_le]

@[simp] theorem rangeListCovers_nil (v : UInt64) : rangeListCovers [] v = false := rfl

theorem rangeListCovers_cons (r : Range) (l : List Range) (v : UInt64) :
    rangeListCovers (r :: l) v = (rangeContains r v || rangeListCovers l v) := List.any_cons

theorem rangeListCovers_eq_true {l : List Range} {v : UInt64} :
    rangeListCovers l v = true ↔ ∃ r ∈ l, r.lob.toNat ≤ v.toNat ∧ v.toNat ≤ r.upb.toNat := by
  simp [rangeListCovers, rangeContains_eq_true]

/-- The guarded test of `range_compare`: with `x ≠ 0`, `x - 1` does not
wrap, and `x - 1 > y` is `y + 1 < x`. -/
theorem sub_one_gt_iff {x y : UInt64} : (x ≠ 0 ∧ x - 1 > y) ↔ y.toNat + 1 < x.toNat := by
  have hx0 : x ≠ 0 ↔ 1 ≤ x.toNat := by
    rw [Ne, ← UInt64.toNat_inj, UInt64.toNat_zero]
    omega
  have hsub : 1 ≤ x.toNat → (x - 1).toNat = x.toNat - 1 := fun h1 => by
    rw [UInt64.toNat_sub_of_le _ _ (UInt64.le_iff_toNat_le.mpr (by simpa using h1)), UInt64.toNat_one]
  rw [hx0, gt_iff_lt, UInt64.lt_iff_toNat_lt]
  constructor
  · rintro ⟨h1, hlt⟩
    rw [hsub h1] at hlt
    omega
  · intro h
    rw [hsub (by omega)]
    omega

theorem rangeCompare_eq (a b : Range) : rangeCompare a b =
    if a.upb.toNat + 1 < b.lob.toNat then -1 else if b.upb.toNat + 1 < a.lob.toNat then 1 else 0 := by
  simp only [rangeCompare, sub_one_gt_iff]

theorem rangeExtend_bounds {a b : Range} (ha : rangeIsEmpty a = false) (hb : rangeIsEmpty b = false) :
    (rangeExtend a b).lob.toNat = min a.lob.toNat b.lob.toNat ∧
      (rangeExtend a b).upb.toNat = max a.upb.toNat b.upb.toNat := by
  simp only [rangeExtend, ha, hb, Bool.false_eq_true, if_false]
  constructor
  · split_ifs with h <;> rw [gt_iff_lt, UInt64.lt_iff_toNat_lt] at h <;> omega
  · split_ifs with h <;> rw [UInt64.lt_iff_toNat_lt] at h <;> omega

/-- Extending keeps every lower bound a list starts above. -/
theorem rangeExtend_lob_ge {a c : Range} {b : Nat} (ha : b ≤ a.lob.toNat) (hc : b ≤ c.lob.toNat) :
    b ≤ (rangeExtend a c).lob.toNat := by
  unfold rangeExtend
  split_ifs <;> omega

/-- Extending a range by one it overlaps or touches gives their union. -/
theorem rangeContains_extend {a b : Range} (ha : rangeIsEmpty a = false) (hb : rangeIsEmpty b = false)
    (hab : rangeCompare a b = 0) (v : UInt64) :
    rangeContains (rangeExtend a b) v = (rangeContains a v || rangeContains b v) := by
  obtain ⟨hlo, hup⟩ := rangeExtend_bounds ha hb
  have hgap : ¬a.upb.toNat + 1 < b.lob.toNat ∧ ¬b.upb.toNat + 1 < a.lob.toNat := by
    rw [rangeCompare_eq] at hab
    split_ifs at hab with h1 h2 <;> simp_all
  rw [rangeIsEmpty_eq_false] at ha hb
  apply Bool.eq_iff_iff.mpr
  simp only [Bool.or_eq_true, rangeContains_eq_true, hlo, hup]
  constructor <;> intro h <;> omega

/-! ## §2 `range_list_insert` -/

/-- The canonical form `range_list_insert` works with: non-empty ranges,
each ending before the next starts with an address between them. -/
def RangeListSeparated (l : List Range) : Prop :=
  (∀ r ∈ l, rangeIsEmpty r = false) ∧ l.Pairwise fun a b => a.upb.toNat + 1 < b.lob.toNat

theorem rangeListSeparated_cons {r : Range} {l : List Range} :
    RangeListSeparated (r :: l) ↔
      rangeIsEmpty r = false ∧ (∀ e ∈ l, r.upb.toNat + 1 < e.lob.toNat) ∧ RangeListSeparated l := by
  simp only [RangeListSeparated, List.mem_cons, forall_eq_or_imp, List.pairwise_cons]
  tauto

/-- Sorted with no two ranges overlapping or touching is the same as
separated by a gap. -/
theorem rangeListCanonical_iff {l : List Range} : RangeListCanonical l ↔ RangeListSeparated l := by
  constructor
  · rintro ⟨hne, hp⟩
    refine ⟨hne, hp.imp_of_mem fun _ hb ⟨hle, hcmp⟩ => ?_⟩
    have hb' := rangeIsEmpty_eq_false.mp (hne _ hb)
    rw [UInt64.le_iff_toNat_le] at hle
    rw [rangeCompare_eq] at hcmp
    split_ifs at hcmp <;> omega
  · rintro ⟨hne, hp⟩
    refine ⟨hne, hp.imp_of_mem fun ha _ hab => ⟨?_, ?_⟩⟩
    · have ha' := rangeIsEmpty_eq_false.mp (hne _ ha)
      rw [UInt64.le_iff_toNat_le]
      omega
    · rw [rangeCompare_eq, if_pos hab]
      decide

theorem lob_ge_of_mem_rangeListMerge {b : Nat} :
    ∀ (rest : List Range) (r : Range), b ≤ r.lob.toNat → (∀ e ∈ rest, b ≤ e.lob.toNat) →
      ∀ e ∈ rangeListMerge r rest, b ≤ e.lob.toNat
  | [], r, hr, _ => by simpa [rangeListMerge] using hr
  | n :: rest, r, hr, hrest => by
    have hn := hrest n (by simp)
    unfold rangeListMerge
    split_ifs
    · exact lob_ge_of_mem_rangeListMerge rest _ (rangeExtend_lob_ge hr hn)
        fun e he => hrest e (by simp [he])
    · intro e he
      rcases List.mem_cons.mp he with rfl | he
      · exact hr
      · exact hrest e he

/-- The merge loop: started from a non-empty range below a separated list,
it leaves a separated list that starts at the same place and covers the
range and the list. -/
theorem rangeListMerge_spec : ∀ (rest : List Range) (r : Range), rangeIsEmpty r = false →
    RangeListSeparated rest → (∀ e ∈ rest, r.lob.toNat ≤ e.lob.toNat) →
    RangeListSeparated (rangeListMerge r rest) ∧
      ∀ v, rangeListCovers (rangeListMerge r rest) v = (rangeContains r v || rangeListCovers rest v)
  | [], r, hr, _, _ => by
    refine ⟨rangeListSeparated_cons.mpr ⟨hr, by simp, by simp [RangeListSeparated]⟩, fun v => ?_⟩
    simp [rangeListMerge, rangeListCovers]
  | n :: rest, r, hr, hsep, hle => by
    obtain ⟨hn, hnrest, hrest⟩ := rangeListSeparated_cons.mp hsep
    have hr' := rangeIsEmpty_eq_false.mp hr
    have hn' := rangeIsEmpty_eq_false.mp hn
    have hrn := hle n (by simp)
    unfold rangeListMerge
    split_ifs with hcmp
    · -- `n` overlaps or touches `r`: the loop goes on with their union
      obtain ⟨hlo, hup⟩ := rangeExtend_bounds hr hn
      have hext : rangeIsEmpty (rangeExtend r n) = false := by
        rw [rangeIsEmpty_eq_false, hlo, hup]
        omega
      obtain ⟨hsep', hcov⟩ := rangeListMerge_spec rest _ hext hrest fun e he => by
        have := hnrest e he
        omega
      refine ⟨hsep', fun v => ?_⟩
      rw [hcov, rangeContains_extend hr hn hcmp, rangeListCovers_cons, Bool.or_assoc]
    · -- the first range that does not touch `r` ends the loop
      rw [rangeCompare_eq] at hcmp
      have hgap : r.upb.toNat + 1 < n.lob.toNat := by
        split_ifs at hcmp <;> omega
      refine ⟨rangeListSeparated_cons.mpr ⟨hr, ?_, hsep⟩, fun v => by rw [rangeListCovers_cons]⟩
      intro e he
      rcases List.mem_cons.mp he with rfl | he
      · exact hgap
      · have := hnrest e he
        omega

theorem lob_ge_of_mem_rangeListInsert {b : Nat} (data : Range) (hd : b ≤ data.lob.toNat) :
    ∀ l : List Range, (∀ e ∈ l, b ≤ e.lob.toNat) → ∀ e ∈ rangeListInsert l data, b ≤ e.lob.toNat
  | [], _ => by simpa [rangeListInsert] using hd
  | x :: rest, hl => by
    have hx := hl x (by simp)
    have hrest : ∀ e ∈ rest, b ≤ e.lob.toNat := fun e he => hl e (by simp [he])
    unfold rangeListInsert
    split_ifs
    · intro e he
      rcases List.mem_cons.mp he with rfl | he
      · exact hx
      · exact lob_ge_of_mem_rangeListInsert data hd rest hrest e he
    · intro e he
      rcases List.mem_cons.mp he with rfl | he
      · exact hd
      · exact hl e he
    · exact lob_ge_of_mem_rangeListMerge rest _ (rangeExtend_lob_ge hx hd) hrest

/-- `range_list_insert` on a separated list: the result is separated and
covers the old union plus the new range. -/
theorem rangeListInsert_spec (data : Range) (hd : rangeIsEmpty data = false) :
    ∀ l : List Range, RangeListSeparated l →
      RangeListSeparated (rangeListInsert l data) ∧
        ∀ v, rangeListCovers (rangeListInsert l data) v = (rangeListCovers l v || rangeContains data v)
  | [], _ => by
    refine ⟨rangeListSeparated_cons.mpr ⟨hd, by simp, by simp [RangeListSeparated]⟩, fun v => ?_⟩
    simp [rangeListInsert, rangeListCovers]
  | x :: rest, hsep => by
    obtain ⟨hx, hxrest, hrest⟩ := rangeListSeparated_cons.mp hsep
    have hx' := rangeIsEmpty_eq_false.mp hx
    have hd' := rangeIsEmpty_eq_false.mp hd
    have hcmp := rangeCompare_eq x data
    unfold rangeListInsert
    split_ifs with hlt hgt
    · -- `x` lies strictly below `data`: it stays in front
      have hgap : x.upb.toNat + 1 < data.lob.toNat := by
        split_ifs at hcmp <;> omega
      obtain ⟨hsep', hcov⟩ := rangeListInsert_spec data hd rest hrest
      refine ⟨rangeListSeparated_cons.mpr ⟨hx, ?_, hsep'⟩, fun v => ?_⟩
      · exact lob_ge_of_mem_rangeListInsert data hgap rest hxrest
      · rw [rangeListCovers_cons, hcov, rangeListCovers_cons, Bool.or_assoc]
    · -- `x` lies strictly above `data`: `data` goes before it
      have hgap : data.upb.toNat + 1 < x.lob.toNat := by
        split_ifs at hcmp <;> omega
      refine ⟨rangeListSeparated_cons.mpr ⟨hd, ?_, hsep⟩, fun v => ?_⟩
      · intro e he
        rcases List.mem_cons.mp he with rfl | he
        · exact hgap
        · have := hxrest e he
          omega
      · rw [rangeListCovers_cons, rangeListCovers_cons, Bool.or_comm]
    · -- `x` overlaps or touches `data`: merge them, then the successors
      have hzero : rangeCompare x data = 0 := by omega
      obtain ⟨hlo, hup⟩ := rangeExtend_bounds hx hd
      have hext : rangeIsEmpty (rangeExtend x data) = false := by
        rw [rangeIsEmpty_eq_false, hlo, hup]
        omega
      obtain ⟨hsep', hcov⟩ := rangeListMerge_spec rest _ hext hrest fun e he => by
        have := hxrest e he
        omega
      refine ⟨hsep', fun v => ?_⟩
      rw [hcov, rangeContains_extend hx hd hzero, rangeListCovers_cons]
      cases rangeContains x v <;> cases rangeContains data v <;> simp

/-- **`range_list_insert` keeps a canonical range list.** Given a list of
non-empty ranges, sorted, no two overlapping or touching, and a non-empty
range, the list it returns is again of that form and covers exactly the
old union plus the new range (the bounds `0` and `UINT64_MAX` included). -/
theorem rangeListInsert_canonical (l : List Range) (data : Range) (hl : RangeListCanonical l)
    (hd : rangeIsEmpty data = false) :
    RangeListCanonical (rangeListInsert l data) ∧
      ∀ v, rangeListCovers (rangeListInsert l data) v = (rangeListCovers l v || rangeContains data v) := by
  obtain ⟨hsep, hcov⟩ := rangeListInsert_spec data hd l (rangeListCanonical_iff.mp hl)
  exact ⟨rangeListCanonical_iff.mpr hsep, hcov⟩

/-- A range that bridges three ranges merges them into one. -/
theorem rangeListInsert_canonical_bridge :
    RangeListCanonical [⟨0, 5⟩, ⟨10, 20⟩, ⟨30, 40⟩] ∧ rangeIsEmpty ⟨6, 29⟩ = false ∧
      RangeListCanonical (rangeListInsert [⟨0, 5⟩, ⟨10, 20⟩, ⟨30, 40⟩] ⟨6, 29⟩) :=
  ⟨by decide, by decide,
    (rangeListInsert_canonical [⟨0, 5⟩, ⟨10, 20⟩, ⟨30, 40⟩] ⟨6, 29⟩ (by decide) (by decide)).1⟩

example : rangeListInsert [⟨0, 5⟩, ⟨10, 20⟩, ⟨30, 40⟩] ⟨6, 29⟩ = [⟨0, 40⟩] := by decide

/-! ## §3 `range_inverse_array` -/

theorem rangeListDisjoint_cons {r : Range} {l : List Range} :
    RangeListDisjoint (r :: l) ↔
      rangeIsEmpty r = false ∧ (∀ e ∈ l, r.upb.toNat < e.lob.toNat) ∧ RangeListDisjoint l := by
  simp only [RangeListDisjoint, List.mem_cons, forall_eq_or_imp, List.pairwise_cons, UInt64.lt_iff_toNat_lt]
  tauto

/-- In a disjoint list the covered addresses start at the head range. -/
theorem lob_le_of_covers {r : Range} {l : List Range} (hd : RangeListDisjoint (r :: l)) {v : UInt64}
    (hv : rangeListCovers (r :: l) v = true) : r.lob.toNat ≤ v.toNat := by
  obtain ⟨hr, hl, -⟩ := rangeListDisjoint_cons.mp hd
  have hr' := rangeIsEmpty_eq_false.mp hr
  obtain ⟨e, he, hlo, -⟩ := rangeListCovers_eq_true.mp hv
  rcases List.mem_cons.mp he with rfl | he
  · exact hlo
  · have := hl e he
    omega

theorem covers_of_contains {r : Range} {l : List Range} {v : UInt64}
    (h : r.lob.toNat ≤ v.toNat ∧ v.toNat ≤ r.upb.toNat) : rangeListCovers (r :: l) v = true := by
  rw [rangeListCovers_cons, rangeContains_eq_true.mpr h, Bool.true_or]

theorem toNat_add_one_of_lt {x y : UInt64} (h : x < y) : (x + 1).toNat = x.toNat + 1 := by
  have hy := y.toNat_lt
  rw [UInt64.lt_iff_toNat_lt] at h
  rw [UInt64.toNat_add, UInt64.toNat_one, Nat.mod_eq_of_lt (by omega)]

theorem toNat_sub_one_of_lt {x y : UInt64} (h : x < y) : (y - 1).toNat = y.toNat - 1 := by
  rw [UInt64.lt_iff_toNat_lt] at h
  rw [UInt64.toNat_sub_of_le _ _ (UInt64.le_iff_toNat_le.mpr (by simp; omega)), UInt64.toNat_one]

theorem appendNewRange_of_le {out : List Range} {lob upb : UInt64} (h : lob ≤ upb) :
    appendNewRange out lob upb = some (out ++ [⟨lob, upb⟩]) := by
  simp [appendNewRange, rangeSetBounds, UInt64.not_lt.mpr h]

theorem appendNewRange_of_lt {out : List Range} {lob upb : UInt64} (h : upb < lob) :
    appendNewRange out lob upb = none := by
  simp [appendNewRange, rangeSetBounds, h]

theorem highSplits_nil (high : UInt64) : ¬HighSplits high [] := by
  simp [HighSplits]

theorem highSplits_singleton (high : UInt64) (r : Range) : ¬HighSplits high [r] := by
  rintro ⟨a, b, hinf, -⟩
  have := hinf.length_le
  simp at this

theorem highSplits_cons_cons {high : UInt64} {r rn : Range} {rest : List Range} :
    HighSplits high (r :: rn :: rest) ↔
      (r.lob < high ∧ high ≤ r.upb ∧ rangeCompare r rn ≠ 0) ∨ HighSplits high (rn :: rest) := by
  constructor
  · rintro ⟨a, b, hinf, hsplit⟩
    rcases List.infix_cons_iff.mp hinf with hpre | hinf
    · -- the pair is the first two ranges
      obtain ⟨rfl, rfl⟩ : a = r ∧ b = rn := by simpa using hpre
      exact .inl hsplit
    · exact .inr ⟨a, b, hinf, hsplit⟩
  · rintro (hsplit | ⟨a, b, hinf, hsplit⟩)
    · exact ⟨r, rn, List.infix_cons_iff.mpr (.inl (by simp)), hsplit⟩
    · exact ⟨a, b, List.infix_cons_iff.mpr (.inr hinf), hsplit⟩

/-- A range that does not hold `high` above its lower bound splits nothing. -/
theorem highSplits_cons_of_not {high : UInt64} {x : Range} {l : List Range}
    (hx : ¬(x.lob < high ∧ high ≤ x.upb)) : HighSplits high (x :: l) ↔ HighSplits high l := by
  cases l with
  | nil => simp [highSplits_singleton, highSplits_nil]
  | cons y l =>
    rw [highSplits_cons_cons]
    tauto

/-- No range starts below `high`: nothing is split. -/
theorem not_highSplits_of_le {high : UInt64} {l : List Range} (h : ∀ e ∈ l, high.toNat ≤ e.lob.toNat) :
    ¬HighSplits high l := by
  rintro ⟨a, b, hinf, hlt, -⟩
  have := h a (hinf.subset (by simp))
  rw [UInt64.lt_iff_toNat_lt] at hlt
  omega

/-- The gap loop fails exactly when `high` splits a range that a gap follows. -/
theorem rangeInverseGaps_eq_none_iff (high : UInt64) : ∀ (rest : List Range) (r : Range) (out : List Range),
    RangeListDisjoint (r :: rest) → (rangeInverseGaps high out (r :: rest) = none ↔ HighSplits high (r :: rest))
  | [], r, out, _ => by
    simp only [rangeInverseGaps, highSplits_singleton, iff_false]
    split_ifs with h
    · have hle : r.upb + 1 ≤ high := by
        rw [UInt64.le_iff_toNat_le, toNat_add_one_of_lt h]
        exact UInt64.lt_iff_toNat_lt.mp h
      rw [appendNewRange_of_le hle]
      simp
    · simp
  | rn :: rest, r, out, hd => by
    obtain ⟨hr, hrest, hd'⟩ := rangeListDisjoint_cons.mp hd
    have hr' := rangeIsEmpty_eq_false.mp hr
    have hrn := hrest rn (by simp)
    have hrn' := rangeIsEmpty_eq_false.mp (rangeListDisjoint_cons.mp hd').1
    rw [highSplits_cons_cons]
    simp only [rangeInverseGaps]
    split_ifs with hge hcmp
    · -- `r` starts at or above `high`, and so does every range after it
      rw [ge_iff_le, UInt64.le_iff_toNat_le] at hge
      simp only [false_iff, not_or, not_and]
      refine ⟨fun hlt => absurd (UInt64.lt_iff_toNat_lt.mp hlt) (by omega),
        not_highSplits_of_le fun e he => ?_⟩
      have := hrest e he
      omega
    · -- a gap follows `r`: `[upb + 1, min (lob' - 1) high]`, empty when `high ≤ upb`
      have hgap : r.upb.toNat + 1 < rn.lob.toNat := by
        rw [rangeCompare_eq] at hcmp
        split_ifs at hcmp <;> omega
      have hup : (r.upb + 1).toNat = r.upb.toNat + 1 :=
        toNat_add_one_of_lt (UInt64.lt_iff_toNat_lt.mpr (by omega) : r.upb < rn.lob)
      have hlo : (rn.lob - 1).toNat = rn.lob.toNat - 1 :=
        toNat_sub_one_of_lt (UInt64.lt_iff_toNat_lt.mpr (by omega) : r.upb < rn.lob)
      by_cases hhigh : high ≤ r.upb
      · rw [appendNewRange_of_lt (UInt64.lt_iff_toNat_lt.mpr (by
          rw [UInt64.toNat_min, hup, hlo]; rw [UInt64.le_iff_toNat_le] at hhigh; omega))]
        simp only [Option.bind_eq_bind, Option.bind_none, true_iff]
        exact .inl ⟨UInt64.not_le.mp hge, hhigh, hcmp⟩
      · rw [appendNewRange_of_le (UInt64.le_iff_toNat_le.mpr (by
          rw [UInt64.toNat_min, hup, hlo]; rw [UInt64.le_iff_toNat_le] at hhigh; omega)),
          Option.bind_eq_bind, Option.bind_some, rangeInverseGaps_eq_none_iff high rest rn _ hd']
        simp [hhigh]
    · -- `rn` touches `r`: no gap between them
      rw [rangeInverseGaps_eq_none_iff high rest rn out hd']
      simp [hcmp]

/-- Above the end of a range, the list it heads covers what its tail covers. -/
theorem rangeListCovers_cons_of_gt {r : Range} {l : List Range} {v : UInt64} (h : r.upb.toNat < v.toNat) :
    rangeListCovers (r :: l) v = rangeListCovers l v := by
  rw [rangeListCovers_cons]
  cases hc : rangeContains r v
  · rfl
  · have := (rangeContains_eq_true.mp hc).2
    omega

/-- The uncovered addresses of `[lo, high]`, for `lo` not above the end of
the head range `x`, are those below `x` and those uncovered above it. -/
theorem uncovered_split {x : Range} {xs : List Range} (hd : RangeListDisjoint (x :: xs)) (lo : Nat)
    (hlo : lo ≤ x.upb.toNat + 1) (high v : UInt64) :
    (lo ≤ v.toNat ∧ v.toNat ≤ high.toNat ∧ rangeListCovers (x :: xs) v = false) ↔
      (lo ≤ v.toNat ∧ v.toNat < x.lob.toNat ∧ v.toNat ≤ high.toNat) ∨
        (x.upb.toNat < v.toNat ∧ v.toNat ≤ high.toNat ∧ rangeListCovers (x :: xs) v = false) := by
  have hstart : rangeListCovers (x :: xs) v = true → x.lob.toNat ≤ v.toNat := lob_le_of_covers hd
  have hin : x.lob.toNat ≤ v.toNat ∧ v.toNat ≤ x.upb.toNat → rangeListCovers (x :: xs) v = true :=
    covers_of_contains
  cases hc : rangeListCovers (x :: xs) v
  · simp only [hc, and_true, reduceCtorEq, imp_false, not_and, not_le] at hstart hin ⊢
    constructor
    · intro h
      omega
    · rintro (h | h) <;> omega
  · simp only [hc, true_implies, reduceCtorEq, and_false, or_false] at hstart ⊢
    exact ⟨False.elim, fun h => by omega⟩

/-- What the gap loop appends from the range `r` on: sorted, disjoint,
non-empty ranges, all above `r`, covering exactly the addresses above `r`
and up to `high` that no range covers. -/
theorem rangeInverseGaps_some (high : UInt64) :
    ∀ (rest : List Range) (r : Range) (out out' : List Range), RangeListDisjoint (r :: rest) →
      rangeInverseGaps high out (r :: rest) = some out' →
      ∃ g, out' = out ++ g ∧ RangeListDisjoint g ∧ (∀ e ∈ g, r.upb.toNat < e.lob.toNat) ∧
        ∀ v, rangeListCovers g v = true ↔
          r.upb.toNat < v.toNat ∧ v.toNat ≤ high.toNat ∧ rangeListCovers (r :: rest) v = false
  | [], r, out, out', hd, h => by
    have hr' := rangeIsEmpty_eq_false.mp (rangeListDisjoint_cons.mp hd).1
    simp only [rangeInverseGaps] at h
    split_ifs at h with hlt
    · -- the gap after the last range
      have hup := toNat_add_one_of_lt hlt
      rw [UInt64.lt_iff_toNat_lt] at hlt
      rw [appendNewRange_of_le (UInt64.le_iff_toNat_le.mpr (by omega)), Option.some.injEq] at h
      refine ⟨[⟨r.upb + 1, high⟩], h.symm, ⟨by simp [rangeIsEmpty_eq_false, hup]; omega, by simp⟩,
        by simp [hup], fun v => ?_⟩
      rw [rangeListCovers_cons, rangeListCovers_nil, Bool.or_false, rangeContains_eq_true, hup]
      constructor
      · intro hv
        refine ⟨by omega, hv.2, ?_⟩
        rw [rangeListCovers_cons_of_gt (by omega), rangeListCovers_nil]
      · rintro ⟨hv, hvh, -⟩
        exact ⟨by omega, hvh⟩
    · -- `high` is not above the last range: nothing more is appended
      rw [Option.some.injEq] at h
      rw [UInt64.not_lt, UInt64.le_iff_toNat_le] at hlt
      refine ⟨[], by simp [h], ⟨by simp, by simp⟩, by simp, fun v => ?_⟩
      simp only [rangeListCovers_nil, Bool.false_eq_true, false_iff, not_and]
      intro hv hvh
      omega
  | rn :: rest, r, out, out', hd, h => by
    obtain ⟨hr, hrest, hd'⟩ := rangeListDisjoint_cons.mp hd
    have hr' := rangeIsEmpty_eq_false.mp hr
    have hrn := hrest rn (by simp)
    have hrn' := rangeIsEmpty_eq_false.mp (rangeListDisjoint_cons.mp hd').1
    simp only [rangeInverseGaps] at h
    split_ifs at h with hge hcmp
    · -- `r` starts at or above `high`: nothing more is appended
      rw [Option.some.injEq] at h
      rw [ge_iff_le, UInt64.le_iff_toNat_le] at hge
      refine ⟨[], by simp [h], ⟨by simp, by simp⟩, by simp, fun v => ?_⟩
      simp only [rangeListCovers_nil, Bool.false_eq_true, false_iff, not_and]
      intro hv hvh
      omega
    · -- the gap `[upb + 1, min (lob' - 1) high]`, then the loop from `rn`
      have hgap : r.upb.toNat + 1 < rn.lob.toNat := by
        rw [rangeCompare_eq] at hcmp
        split_ifs at hcmp <;> omega
      have hup : (r.upb + 1).toNat = r.upb.toNat + 1 :=
        toNat_add_one_of_lt (UInt64.lt_iff_toNat_lt.mpr (by omega) : r.upb < rn.lob)
      have hmin : (min (rn.lob - 1) high).toNat = min (rn.lob.toNat - 1) high.toNat := by
        rw [UInt64.toNat_min, toNat_sub_one_of_lt (UInt64.lt_iff_toNat_lt.mpr (by omega) : r.upb < rn.lob)]
      by_cases hhigh : r.upb + 1 ≤ min (rn.lob - 1) high
      · rw [appendNewRange_of_le hhigh, Option.bind_eq_bind, Option.bind_some] at h
        rw [UInt64.le_iff_toNat_le, hup, hmin] at hhigh
        obtain ⟨g, rfl, hg, habove, hcov⟩ := rangeInverseGaps_some high rest rn _ out' hd' h
        refine ⟨⟨r.upb + 1, min (rn.lob - 1) high⟩ :: g, by simp, ?_, ?_, fun v => ?_⟩
        · refine rangeListDisjoint_cons.mpr ⟨?_, fun e he => ?_, hg⟩
          · simp only [rangeIsEmpty_eq_false, hup, hmin]
            omega
          · have := habove e he
            simp only [hmin]
            omega
        · intro e he
          rcases List.mem_cons.mp he with rfl | he
          · simp [hup]
          · have := habove e he
            omega
        · -- the gap holds the uncovered addresses below `rn`, the loop those above it
          rw [rangeListCovers_cons, Bool.or_eq_true, rangeContains_eq_true, hcov, hup, hmin]
          by_cases hv : r.upb.toNat < v.toNat
          · rw [rangeListCovers_cons_of_gt hv]
            have key := uncovered_split hd' (r.upb.toNat + 1) (by omega) high v
            constructor
            · rintro (⟨h1, h2⟩ | ⟨-, h2, hc⟩)
              · exact ⟨hv, by omega, (key.mpr (.inl ⟨by omega, by omega, by omega⟩)).2.2⟩
              · exact ⟨hv, h2, hc⟩
            · rintro ⟨-, h2, hc⟩
              rcases key.mp ⟨by omega, h2, hc⟩ with ⟨-, h4, h5⟩ | h
              · exact .inl ⟨by omega, by omega⟩
              · exact .inr h
          · constructor
            · rintro (⟨h1, -⟩ | ⟨h1, -⟩) <;> omega
            · rintro ⟨h1, -⟩
              omega
      · rw [appendNewRange_of_lt (UInt64.not_le.mp hhigh), Option.bind_eq_bind, Option.bind_none] at h
        cases h
    · -- `rn` touches `r`: the loop goes on from `rn`
      have htouch : rn.lob.toNat = r.upb.toNat + 1 := by
        rw [rangeCompare_eq] at hcmp
        split_ifs at hcmp <;> omega
      obtain ⟨g, rfl, hg, habove, hcov⟩ := rangeInverseGaps_some high rest rn out out' hd' h
      refine ⟨g, rfl, hg, fun e he => by have := habove e he; omega, fun v => ?_⟩
      rw [hcov]
      by_cases hv : r.upb.toNat < v.toNat
      · -- above `r`, nothing lies below `rn`
        rw [rangeListCovers_cons_of_gt hv]
        have key := uncovered_split hd' (r.upb.toNat + 1) (by omega) high v
        constructor
        · rintro ⟨-, h2, hc⟩
          exact ⟨hv, h2, hc⟩
        · rintro ⟨-, h2, hc⟩
          rcases key.mp ⟨by omega, h2, hc⟩ with ⟨-, h4, -⟩ | h
          · omega
          · exact h
      · constructor
        · rintro ⟨h, -⟩
          omega
        · rintro ⟨h, -⟩
          omega

/-- **When `range_inverse_array` fails.** On sorted, disjoint, non-empty
ranges and `low ≤ high`, it trips the assertion of `range_set_bounds`
exactly when some range holds `high` above its lower bound and is
followed by a range it does not touch. -/
theorem rangeInverseArray_eq_none_iff (low high : UInt64) (hlh : low ≤ high) :
    ∀ (inList rev : List Range), RangeListDisjoint inList →
      (rangeInverseArray inList rev low high = none ↔ HighSplits high inList)
  | [], rev, _ => by simp [rangeInverseArray, appendNewRange_of_le hlh, highSplits_nil]
  | x :: xs, rev, hd => by
    obtain ⟨hx, -, hd'⟩ := rangeListDisjoint_cons.mp hd
    have hx' := rangeIsEmpty_eq_false.mp hx
    have hlh' := UInt64.le_iff_toNat_le.mp hlh
    by_cases hskip : x.upb < low
    · -- the first loop skips `x`, which ends below `low` and so below `high`
      rw [highSplits_cons_of_not fun h => by
        rw [UInt64.lt_iff_toNat_lt] at hskip; rw [UInt64.le_iff_toNat_le] at h; omega]
      rw [← rangeInverseArray_eq_none_iff low high hlh xs rev hd', rangeInverseArray,
        List.dropWhile_cons_of_pos (p := fun r : Range => decide (r.upb < low)) (by simpa using hskip), rangeInverseArray]
    · rw [rangeInverseArray, List.dropWhile_cons_of_neg (p := fun r : Range => decide (r.upb < low)) (by simpa using hskip)]
      dsimp only
      split_ifs with hlow
      · -- the gap `[low, min (lob - 1) high]` before `x` is never empty
        have hlo := toNat_sub_one_of_lt hlow
        rw [gt_iff_lt, UInt64.lt_iff_toNat_lt] at hlow
        rw [appendNewRange_of_le (UInt64.le_iff_toNat_le.mpr (by rw [UInt64.toNat_min, hlo]; omega)),
          Option.bind_eq_bind, Option.bind_some]
        exact rangeInverseGaps_eq_none_iff high xs x _ hd
      · exact rangeInverseGaps_eq_none_iff high xs x _ hd

/-- **What `range_inverse_array` appends.** On sorted, disjoint, non-empty
ranges and `low ≤ high`, when no assertion fails it appends to `rev` a
list of sorted, disjoint, non-empty ranges that covers exactly the
addresses of `[low, high]` that no input range covers. -/
theorem rangeInverseArray_complement (low high : UInt64) (hlh : low ≤ high) :
    ∀ (inList rev out : List Range), RangeListDisjoint inList → rangeInverseArray inList rev low high = some out →
      ∃ g, out = rev ++ g ∧ RangeListDisjoint g ∧
        ∀ v, rangeListCovers g v = true ↔ low ≤ v ∧ v ≤ high ∧ rangeListCovers inList v = false
  | [], rev, out, _, h => by
    simp only [rangeInverseArray, List.dropWhile_nil, appendNewRange_of_le hlh, Option.some.injEq] at h
    refine ⟨[⟨low, high⟩], h.symm, ⟨by simpa [rangeIsEmpty_eq_false, UInt64.le_iff_toNat_le] using hlh,
      by simp⟩, fun v => ?_⟩
    simp [rangeListCovers, rangeContains]
  | x :: xs, rev, out, hd, h => by
    obtain ⟨hx, -, hd'⟩ := rangeListDisjoint_cons.mp hd
    have hx' := rangeIsEmpty_eq_false.mp hx
    have hlh' := UInt64.le_iff_toNat_le.mp hlh
    by_cases hskip : x.upb < low
    · -- `x` ends below `low`: it covers nothing of `[low, high]`
      rw [rangeInverseArray, List.dropWhile_cons_of_pos (p := fun r : Range => decide (r.upb < low)) (by simpa using hskip)] at h
      obtain ⟨g, rfl, hg, hcov⟩ := rangeInverseArray_complement low high hlh xs rev out hd' h
      refine ⟨g, rfl, hg, fun v => ?_⟩
      rw [hcov]
      rw [UInt64.lt_iff_toNat_lt] at hskip
      by_cases hv : low ≤ v
      · rw [rangeListCovers_cons_of_gt (by rw [UInt64.le_iff_toNat_le] at hv; omega)]
      · simp [hv]
    · rw [rangeInverseArray, List.dropWhile_cons_of_neg (p := fun r : Range => decide (r.upb < low)) (by simpa using hskip)] at h
      dsimp only at h
      rw [UInt64.not_lt, UInt64.le_iff_toNat_le] at hskip
      split_ifs at h with hlow
      · -- the gap `[low, min (lob - 1) high]` before `x`, then the gaps from `x` on
        have hlo := toNat_sub_one_of_lt hlow
        rw [gt_iff_lt, UInt64.lt_iff_toNat_lt] at hlow
        have hmin : (min (x.lob - 1) high).toNat = min (x.lob.toNat - 1) high.toNat := by
          rw [UInt64.toNat_min, hlo]
        rw [appendNewRange_of_le (UInt64.le_iff_toNat_le.mpr (by rw [hmin]; omega)), Option.bind_eq_bind,
          Option.bind_some] at h
        obtain ⟨g, rfl, hg, habove, hcov⟩ := rangeInverseGaps_some high xs x _ out hd h
        refine ⟨⟨low, min (x.lob - 1) high⟩ :: g, by simp, ?_, fun v => ?_⟩
        · refine rangeListDisjoint_cons.mpr ⟨?_, fun e he => ?_, hg⟩
          · simp only [rangeIsEmpty_eq_false, hmin]
            omega
          · have := habove e he
            simp only [hmin]
            omega
        · rw [rangeListCovers_cons, Bool.or_eq_true, rangeContains_eq_true, hcov, hmin,
            UInt64.le_iff_toNat_le, UInt64.le_iff_toNat_le, uncovered_split hd low.toNat (by omega) high v]
          dsimp only
          exact or_congr_left ⟨fun h => ⟨by omega, by omega, by omega⟩, fun h => ⟨by omega, by omega⟩⟩
      · -- `x` starts at or below `low`: the gaps from `x` on are all
        rw [UInt64.not_lt, UInt64.le_iff_toNat_le] at hlow
        obtain ⟨g, rfl, hg, -, hcov⟩ := rangeInverseGaps_some high xs x rev out hd h
        refine ⟨g, rfl, hg, fun v => ?_⟩
        rw [hcov, UInt64.le_iff_toNat_le, UInt64.le_iff_toNat_le, uncovered_split hd low.toNat (by omega) high v,
          or_iff_right fun h => by omega]

/-- `range_inverse_array` on `[0, 10], [20, 30]` with `low = 0` and
`high = 5`: `5` falls inside the first range, which a gap follows, so the
gap after it is computed as `[11, 5]` and `range_set_bounds` asserts. -/
theorem rangeInverseArray_high_inside_range :
    RangeListDisjoint [⟨0, 10⟩, ⟨20, 30⟩] ∧ (0 : UInt64) ≤ 5 ∧
      rangeInverseArray [⟨0, 10⟩, ⟨20, 30⟩] [] 0 5 = none :=
  ⟨by decide, by decide, by decide⟩

end QemuFormal

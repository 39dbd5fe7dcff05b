/-
QemuFormal.Util.ReservedRegion — `resv_region_list_insert` of
`util/reserved-region.c` overlays a region on a list of regions.

A `ReservedRegion` is a range and a type. A list of them is read as a
partial map from addresses to types: it is `IntervalList` instantiated
at the half-open integer interval `[lob, upb + 1)` of each region
(`resvLo`, `resvHi`), with the region's type at every address it holds.
A well-formed list (`ResvListWellFormed`) is `IntervalList.Ordered`:
non-empty ranges, sorted, pairwise disjoint.

`resvRegionListInsert` follows the C loop one list element at a time:
skip a region strictly below `reg`, insert `reg` before one strictly
above it, and on an overlap (or a region that only touches `reg`) drop
the region, trim it, or split it in two around `reg`. The trims go
through `range_set_bounds`, whose assertion is modelled (`none`).

`resvRegionListInsert_overlay` is the whole statement: on a well-formed
list and a non-empty region no assertion fails, the result is well
formed, and it maps the addresses of `reg` to `reg`'s type and every
other address as before. Its proof is one induction on the list with a
case per branch of the loop; `resvRegionListInsert_lo_ge` is the frame
fact the skipping branch needs (the result starts no lower than `reg`
and the list it was given).
-/
import QemuFormal.Lib.IntervalList
import QemuFormal.Util.RangeTheorems

namespace QemuFormal

/-- `struct ReservedRegion`. -/
structure ReservedRegion where
  range : Range
  type : UInt32
  deriving DecidableEq, Repr

/-- `resv_region_list_insert(list, reg)`: the list returned, or `none`
where an assertion of `range_set_bounds` fails. -/
def resvRegionListInsert : List ReservedRegion → ReservedRegion → Option (List ReservedRegion)
  | [], reg => some [reg]
  | resvIter :: rest, reg =>
    let r := reg.range
    let rangeIter := resvIter.range
    if rangeCompare rangeIter r < 0 then (resvRegionListInsert rest reg).map (resvIter :: ·)
    else if rangeCompare rangeIter r > 0 then some (reg :: resvIter :: rest)
    -- an overlap, or a region that touches `reg`
    else if rangeContainsRange r rangeIter then resvRegionListInsert rest reg
    else if rangeContainsRange rangeIter r then
      if rangeIter.lob = r.lob then do
        let upper ← rangeSetBounds (r.upb + 1) rangeIter.upb
        some (reg :: { resvIter with range := upper } :: rest)
      else if rangeIter.upb = r.upb then do
        let lower ← rangeSetBounds rangeIter.lob (r.lob - 1)
        (resvRegionListInsert rest reg).map ({ resvIter with range := lower } :: ·)
      else do
        -- `reg` in the middle: the region is split in three
        let upper ← rangeSetBounds (r.upb + 1) rangeIter.upb
        let lower ← rangeSetBounds rangeIter.lob (r.lob - 1)
        some ({ resvIter with range := lower } :: reg :: { resvIter with range := upper } :: rest)
    else if r.lob < rangeIter.lob then do
      let upper ← rangeSetBounds (r.upb + 1) rangeIter.upb
      some (reg :: { resvIter with range := upper } :: rest)
    else do
      let lower ← rangeSetBounds rangeIter.lob (r.lob - 1)
      (resvRegionListInsert rest reg).map ({ resvIter with range := lower } :: ·)

/-! ## Regions as intervals -/

/-- The first address a region holds. -/
def resvLo (x : ReservedRegion) : Int := x.range.lob.toNat

/-- One past the last address a region holds. -/
def resvHi (x : ReservedRegion) : Int := x.range.upb.toNat + 1

/-- A region's type, at every address it holds. -/
def resvType (x : ReservedRegion) (_ : Int) : UInt32 := x.type

/-- Non-empty ranges, sorted and pairwise disjoint: each region ends
before the next one starts. -/
def ResvListWellFormed (l : List ReservedRegion) : Prop := IntervalList.Ordered resvLo resvHi l

instance (l : List ReservedRegion) : Decidable (ResvListWellFormed l) :=
  inferInstanceAs (Decidable (_ ∧ _))

/-- The type a list of regions gives an address, if any region holds it. -/
def resvTypeAt (l : List ReservedRegion) (v : UInt64) : Option UInt32 :=
  IntervalList.denote resvLo resvHi resvType l v.toNat

theorem resv_nonempty_iff {x : ReservedRegion} : rangeIsEmpty x.range = false ↔ resvLo x < resvHi x := by
  rw [rangeIsEmpty_eq_false, resvLo, resvHi]
  omega

theorem rangeCompare_resv_lt {x y : ReservedRegion} :
    rangeCompare x.range y.range < 0 ↔ resvHi x < resvLo y := by
  rw [rangeCompare_eq]
  simp only [resvLo, resvHi]
  split_ifs <;> omega

theorem rangeCompare_resv_gt {x y : ReservedRegion} (hx : resvLo x < resvHi x) (hy : resvLo y < resvHi y) :
    rangeCompare x.range y.range > 0 ↔ resvHi y < resvLo x := by
  rw [rangeCompare_eq]
  simp only [resvLo, resvHi] at hx hy ⊢
  split_ifs <;> omega

theorem rangeContainsRange_resv {x y : ReservedRegion} (hx : resvLo x < resvHi x) (hy : resvLo y < resvHi y) :
    rangeContainsRange x.range y.range = true ↔ resvLo x ≤ resvLo y ∧ resvHi y ≤ resvHi x := by
  have hx' := resv_nonempty_iff.mpr hx
  have hy' := resv_nonempty_iff.mpr hy
  simp only [rangeContainsRange, hx', hy', Bool.or_false, Bool.false_eq_true, if_false, Bool.and_eq_true,
    decide_eq_true_eq, ge_iff_le, UInt64.le_iff_toNat_le, resvLo, resvHi]
  omega

theorem lob_eq_iff {x y : ReservedRegion} : x.range.lob = y.range.lob ↔ resvLo x = resvLo y := by
  rw [← UInt64.toNat_inj, resvLo, resvLo]
  omega

theorem upb_eq_iff {x y : ReservedRegion} : x.range.upb = y.range.upb ↔ resvHi x = resvHi y := by
  rw [← UInt64.toNat_inj, resvHi, resvHi]
  omega

theorem lob_lt_iff {x y : ReservedRegion} : x.range.lob < y.range.lob ↔ resvLo x < resvLo y := by
  rw [UInt64.lt_iff_toNat_lt, resvLo, resvLo]
  omega

theorem rangeSetBounds_of_le {lob upb : UInt64} (h : lob ≤ upb) : rangeSetBounds lob upb = some ⟨lob, upb⟩ := by
  simp [rangeSetBounds, UInt64.not_lt.mpr h]

/-- The part of `x` above `y` (`y` ends inside `x`). -/
theorem resv_upper {x y : ReservedRegion} (h : resvHi y < resvHi x) :
    rangeSetBounds (y.range.upb + 1) x.range.upb = some ⟨y.range.upb + 1, x.range.upb⟩ ∧
      resvLo { x with range := ⟨y.range.upb + 1, x.range.upb⟩ } = resvHi y ∧
      resvHi { x with range := ⟨y.range.upb + 1, x.range.upb⟩ } = resvHi x := by
  simp only [resvHi] at h
  have hlt : y.range.upb < x.range.upb := UInt64.lt_iff_toNat_lt.mpr (by omega)
  have hup := toNat_add_one_of_lt hlt
  refine ⟨rangeSetBounds_of_le (UInt64.le_iff_toNat_le.mpr (by omega)), ?_, rfl⟩
  simp only [resvLo, resvHi, hup]
  omega

/-- The part of `x` below `y` (`y` starts inside `x`). -/
theorem resv_lower {x y : ReservedRegion} (h : resvLo x < resvLo y) :
    rangeSetBounds x.range.lob (y.range.lob - 1) = some ⟨x.range.lob, y.range.lob - 1⟩ ∧
      resvLo { x with range := ⟨x.range.lob, y.range.lob - 1⟩ } = resvLo x ∧
      resvHi { x with range := ⟨x.range.lob, y.range.lob - 1⟩ } = resvLo y := by
  simp only [resvLo] at h
  have hlt : x.range.lob < y.range.lob := UInt64.lt_iff_toNat_lt.mpr (by omega)
  have hlo := toNat_sub_one_of_lt hlt
  refine ⟨rangeSetBounds_of_le (UInt64.le_iff_toNat_le.mpr (by omega)), rfl, ?_⟩
  simp only [resvLo, resvHi, hlo]
  omega

/-! ## The overlay -/

section Overlay

open IntervalList

variable (reg : ReservedRegion)

/-- A region prepended to a list holds, at each address, what it holds
there or else what the list holds. -/
theorem denote_resv_cons (x : ReservedRegion) (l : List ReservedRegion) (a : Int) :
    denote resvLo resvHi resvType (x :: l) a =
      if resvLo x ≤ a ∧ a < resvHi x then some x.type else denote resvLo resvHi resvType l a := by
  rw [denote_cons]
  split_ifs <;> rfl

/-- **The loop of `resv_region_list_insert`, one element at a time.** On a
well-formed list and a non-empty `reg`: no assertion fails; the result is
well formed; it starts no lower than `reg` and the list; and it maps each
address as `reg` placed in front of the list does. -/
theorem resvRegionListInsert_spec (hreg : resvLo reg < resvHi reg) :
    ∀ l : List ReservedRegion, Ordered resvLo resvHi l → ∃ l', resvRegionListInsert l reg = some l' ∧
      Ordered resvLo resvHi l' ∧
      (∀ b : Int, b ≤ resvLo reg → (∀ e ∈ l, b ≤ resvLo e) → ∀ e ∈ l', b ≤ resvLo e) ∧
      ∀ a, denote resvLo resvHi resvType l' a = denote resvLo resvHi resvType (reg :: l) a
  | [], _ => by
    refine ⟨[reg], rfl, (ordered_cons resvLo resvHi).mpr ⟨hreg, by simp, by simp⟩, ?_, fun a => rfl⟩
    intro b hb _ e he
    rw [List.mem_singleton.mp he]
    exact hb
  | x :: rest, hord => by
    obtain ⟨hx, hxrest, hrest⟩ := (ordered_cons resvLo resvHi).mp hord
    simp only [resvRegionListInsert, rangeCompare_resv_lt, rangeCompare_resv_gt hx hreg,
      rangeContainsRange_resv hreg hx, rangeContainsRange_resv hx hreg, lob_eq_iff, upb_eq_iff, lob_lt_iff]
    split_ifs with hbelow habove hin hcont hlo hhi hleft
    · -- `x` lies below `reg`: it stays, and `reg` goes into the rest
      obtain ⟨l', h', hord', hge', hden'⟩ := resvRegionListInsert_spec hreg rest hrest
      refine ⟨x :: l', by rw [h', Option.map_some], ?_, ?_, fun a => ?_⟩
      · exact (ordered_cons resvLo resvHi).mpr ⟨hx, hge' _ (Int.le_of_lt hbelow) hxrest, hord'⟩
      · intro b hb hl e he
        rcases List.mem_cons.mp he with rfl | he
        · exact hl e (by simp)
        · exact hge' b hb (fun e he => hl e (by simp [he])) e he
      · simp only [denote_resv_cons, hden']
        split_ifs <;> first | rfl | omega
    · -- `x` lies above `reg`: `reg` goes before it
      refine ⟨reg :: x :: rest, rfl, ?_, ?_, fun a => rfl⟩
      · refine (ordered_cons resvLo resvHi).mpr ⟨hreg, fun e he => ?_, hord⟩
        rcases List.mem_cons.mp he with rfl | he
        · omega
        · have := hxrest e he
          omega
      · intro b hb hl e he
        rcases List.mem_cons.mp he with rfl | he
        · exact hb
        · exact hl e he
    · -- `reg` covers `x`: `x` is dropped
      obtain ⟨l', h', hord', hge', hden'⟩ := resvRegionListInsert_spec hreg rest hrest
      refine ⟨l', h', hord', fun b hb hl => hge' b hb fun e he => hl e (by simp [he]), fun a => ?_⟩
      simp only [denote_resv_cons, hden']
      split_ifs <;> first | rfl | omega
    · -- `reg` starts `x`: the rest of `x` follows `reg`
      obtain ⟨hset, hlo', hhi'⟩ := resv_upper (x := x) (y := reg) (by omega)
      simp only [hset, Option.bind_eq_bind, Option.bind_some]
      refine ⟨_, rfl, ?_, ?_, fun a => ?_⟩
      · refine (ordered_cons resvLo resvHi).mpr ⟨hreg, ?_, (ordered_cons resvLo resvHi).mpr
          ⟨by omega, fun e he => by have := hxrest e he; omega, hrest⟩⟩
        intro e he
        rcases List.mem_cons.mp he with rfl | he
        · omega
        · have := hxrest e he
          omega
      · intro b hb hl e he
        simp only [List.mem_cons] at he
        rcases he with rfl | rfl | he
        · exact hb
        · omega
        · exact hl e (by simp [he])
      · simp only [denote_resv_cons, hlo', hhi']
        split_ifs <;> first | rfl | omega
    · -- `reg` ends `x`: the start of `x` stays, `reg` goes into the rest
      obtain ⟨hset, hlo', hhi'⟩ := resv_lower (x := x) (y := reg) (by omega)
      obtain ⟨l', h', hord', hge', hden'⟩ := resvRegionListInsert_spec hreg rest hrest
      simp only [hset, h', Option.bind_eq_bind, Option.bind_some, Option.map_some]
      refine ⟨_, rfl, ?_, ?_, fun a => ?_⟩
      · refine (ordered_cons resvLo resvHi).mpr ⟨by omega, ?_, hord'⟩
        rw [hhi']
        exact hge' _ (Int.le_refl _) fun e he => by have := hxrest e he; omega
      · intro b hb hl e he
        rcases List.mem_cons.mp he with rfl | he
        · rw [hlo']
          exact hl x (by simp)
        · exact hge' b hb (fun e he => hl e (by simp [he])) e he
      · simp only [denote_resv_cons, hden', hlo', hhi']
        split_ifs <;> first | rfl | omega
    · -- `reg` in the middle of `x`: `x` is split around it
      obtain ⟨hsetu, hlou, hhiu⟩ := resv_upper (x := x) (y := reg) (by omega)
      obtain ⟨hsetl, hlol, hhil⟩ := resv_lower (x := x) (y := reg) (by omega)
      simp only [hsetu, hsetl, Option.bind_eq_bind, Option.bind_some]
      refine ⟨_, rfl, ?_, ?_, fun a => ?_⟩
      · refine (ordered_cons resvLo resvHi).mpr ⟨by omega, ?_, (ordered_cons resvLo resvHi).mpr
          ⟨hreg, ?_, (ordered_cons resvLo resvHi).mpr
            ⟨by omega, fun e he => by have := hxrest e he; omega, hrest⟩⟩⟩
        · intro e he
          simp only [List.mem_cons] at he
          rcases he with rfl | rfl | he
          · omega
          · omega
          · have := hxrest e he
            omega
        · intro e he
          rcases List.mem_cons.mp he with rfl | he
          · omega
          · have := hxrest e he
            omega
      · intro b hb hl e he
        have hxb := hl x (by simp)
        simp only [List.mem_cons] at he
        rcases he with rfl | rfl | rfl | he
        · omega
        · exact hb
        · omega
        · exact hl e (by simp [he])
      · simp only [denote_resv_cons, hlou, hhiu, hlol, hhil]
        split_ifs <;> first | rfl | omega
    · -- `reg` overlaps the start of `x`: the rest of `x` follows `reg`
      obtain ⟨hset, hlo', hhi'⟩ := resv_upper (x := x) (y := reg) (by omega)
      simp only [hset, Option.bind_eq_bind, Option.bind_some]
      refine ⟨_, rfl, ?_, ?_, fun a => ?_⟩
      · refine (ordered_cons resvLo resvHi).mpr ⟨hreg, ?_, (ordered_cons resvLo resvHi).mpr
          ⟨by omega, fun e he => by have := hxrest e he; omega, hrest⟩⟩
        intro e he
        rcases List.mem_cons.mp he with rfl | he
        · omega
        · have := hxrest e he
          omega
      · intro b hb hl e he
        simp only [List.mem_cons] at he
        rcases he with rfl | rfl | he
        · exact hb
        · omega
        · exact hl e (by simp [he])
      · simp only [denote_resv_cons, hlo', hhi']
        split_ifs <;> first | rfl | omega
    · -- `reg` overlaps the end of `x`: the start of `x` stays, `reg` goes into the rest
      obtain ⟨hset, hlo', hhi'⟩ := resv_lower (x := x) (y := reg) (by omega)
      obtain ⟨l', h', hord', hge', hden'⟩ := resvRegionListInsert_spec hreg rest hrest
      simp only [hset, h', Option.bind_eq_bind, Option.bind_some, Option.map_some]
      refine ⟨_, rfl, ?_, ?_, fun a => ?_⟩
      · refine (ordered_cons resvLo resvHi).mpr ⟨by omega, ?_, hord'⟩
        rw [hhi']
        exact hge' _ (Int.le_refl _) fun e he => by have := hxrest e he; omega
      · intro b hb hl e he
        rcases List.mem_cons.mp he with rfl | he
        · rw [hlo']
          exact hl x (by simp)
        · exact hge' b hb (fun e he => hl e (by simp [he])) e he
      · simp only [denote_resv_cons, hden', hlo', hhi']
        split_ifs <;> first | rfl | omega

end Overlay

/-- **`resv_region_list_insert` overlays a region.** Given regions whose
ranges are non-empty, sorted and pairwise disjoint, and a region `reg`
with a non-empty range, no assertion fails; the list returned again has
non-empty, sorted, pairwise disjoint ranges; and it gives every address
of `reg`'s range `reg`'s type and every other address the type it had
before, so it covers exactly the old addresses plus `reg`'s range. -/
theorem resvRegionListInsert_overlay (list : List ReservedRegion) (reg : ReservedRegion)
    (hl : ResvListWellFormed list) (hreg : rangeIsEmpty reg.range = false) :
    ∃ l', resvRegionListInsert list reg = some l' ∧ ResvListWellFormed l' ∧
      ∀ v : UInt64, resvTypeAt l' v = if rangeContains reg.range v then some reg.type else resvTypeAt list v := by
  obtain ⟨l', h, hord, -, hden⟩ := resvRegionListInsert_spec reg (resv_nonempty_iff.mp hreg) list hl
  refine ⟨l', h, hord, fun v => ?_⟩
  have hin : (resvLo reg ≤ (v.toNat : Int) ∧ (v.toNat : Int) < resvHi reg) ↔ rangeContains reg.range v = true := by
    rw [rangeContains_eq_true, resvLo, resvHi]
    omega
  rw [resvTypeAt, hden, denote_resv_cons, resvTypeAt]
  by_cases hc : rangeContains reg.range v = true
  · rw [if_pos (hin.mpr hc), if_pos hc]
  · rw [if_neg (mt hin.mp hc), if_neg hc]

/-- A region strictly inside another splits it in three. -/
theorem resvRegionListInsert_overlay_middle :
    ResvListWellFormed [⟨⟨0x1000, 0x1FFF⟩, 1⟩] ∧ rangeIsEmpty ⟨0x1400, 0x17FF⟩ = false ∧
      ∃ l', resvRegionListInsert [⟨⟨0x1000, 0x1FFF⟩, 1⟩] ⟨⟨0x1400, 0x17FF⟩, 2⟩ = some l' ∧ ResvListWellFormed l' :=
  ⟨by decide, by decide,
    (resvRegionListInsert_overlay [⟨⟨0x1000, 0x1FFF⟩, 1⟩] ⟨⟨0x1400, 0x17FF⟩, 2⟩ (by decide) (by decide)).imp
      fun _ h => ⟨h.1, h.2.1⟩⟩

example : resvRegionListInsert [⟨⟨0x1000, 0x1FFF⟩, 1⟩] ⟨⟨0x1400, 0x17FF⟩, 2⟩ =
    some [⟨⟨0x1000, 0x13FF⟩, 1⟩, ⟨⟨0x1400, 0x17FF⟩, 2⟩, ⟨⟨0x1800, 0x1FFF⟩, 1⟩] := by decide

end QemuFormal

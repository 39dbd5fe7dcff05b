/-
QemuFormal.Util.HbitmapRun — a bitmap under any sequence of updates is the
set of groups it stands for.

The updates of `util/hbitmap.c` that change which groups are set are
`hbitmap_set`, `hbitmap_reset` and `hbitmap_reset_all` (`HbitmapOp`);
`HbitmapOp.Pre` is what each asserts of its range before it changes the
bitmap, after the early return on a zero count. Read through
`HBitmap.dirty`, a bitmap is a set of groups, and each update is a set
operation on it (`HbitmapOp.absApply`): `set` adds the groups of the
range, `reset` removes them, `reset_all` empties the set.

`hbitmapRun_refines`: from a bitmap with the invariant, a run of updates
that each meet their assertions keeps the invariant, and the bitmap then
holds exactly the groups of the abstract run; an element below
`orig_size` reads set iff its group is one of them. The run lemma is
`Simulation.foldl_simulates` at the step lemma `HbitmapOp.apply_refines`.

`hbitmapGet_hbitmapReset_aligned`: under the assertions of
`hbitmap_reset` (an aligned start, and an aligned count or a range that
ends at `orig_size`), the elements it clears are exactly those of
`[start, start + count)`.
-/
import QemuFormal.Util.HbitmapUpdate
import QemuFormal.Lib.Simulation

namespace QemuFormal.Hbitmap

open Bits

/-- The updates of `util/hbitmap.c` that change which groups are set. -/
inductive HbitmapOp
  | set (start count : Nat)
  | reset (start count : Nat)
  | resetAll
  deriving Repr, DecidableEq

namespace HbitmapOp

/-- The bitmap after one update. -/
def apply (hb : HBitmap) : HbitmapOp → HBitmap
  | .set start count => hbitmapSet hb start count
  | .reset start count => hbitmapReset hb start count
  | .resetAll => hbitmapResetAll hb

/-- What each update asserts before it changes the bitmap: `hbitmap_set`
that the range ends below `size`, `hbitmap_reset` also that its start is
aligned to a group and its count is too, unless the range ends at
`orig_size`. Both return first on a zero count. -/
def Pre (hb : HBitmap) : HbitmapOp → Prop
  | .set start count => count = 0 ∨ (start + count - 1) >>> hb.granularity < hb.size
  | .reset start count => count = 0 ∨
      (start % (1 <<< hb.granularity) = 0 ∧
        (count % (1 <<< hb.granularity) = 0 ∨ start + count = hb.origSize) ∧
        (start + count - 1) >>> hb.granularity < hb.size)
  | .resetAll => True

instance decidablePre (hb : HBitmap) : (op : HbitmapOp) → Decidable (op.Pre hb)
  | .set _ _ => inferInstanceAs (Decidable (_ ∨ _))
  | .reset _ _ => inferInstanceAs (Decidable (_ ∨ _))
  | .resetAll => inferInstanceAs (Decidable True)

/-- The update on the set of groups, for groups of `2^g` elements. -/
def absApply (g : Nat) (D : Set Nat) : HbitmapOp → Set Nat
  | .set start count => if count = 0 then D else D ∪ Set.Icc (start >>> g) ((start + count - 1) >>> g)
  | .reset start count => if count = 0 then D else D \ Set.Icc (start >>> g) ((start + count - 1) >>> g)
  | .resetAll => ∅

@[simp] theorem apply_granularity (hb : HBitmap) (op : HbitmapOp) : (op.apply hb).granularity = hb.granularity := by
  cases op <;> simp [apply]

@[simp] theorem apply_size (hb : HBitmap) (op : HbitmapOp) : (op.apply hb).size = hb.size := by
  cases op <;> simp [apply]

@[simp] theorem apply_origSize (hb : HBitmap) (op : HbitmapOp) : (op.apply hb).origSize = hb.origSize := by
  cases op <;> simp [apply]

/-- An update reads only the sizes and the granularity, which no update
changes. -/
theorem pre_apply_iff (hb : HBitmap) (op op' : HbitmapOp) : op'.Pre (op.apply hb) ↔ op'.Pre hb := by
  cases op' <;> simp only [Pre, apply_granularity, apply_size, apply_origSize]

/-- One update under its assertions keeps the invariant and is the update
of the set of groups. -/
theorem apply_refines {hb : HBitmap} (hwf : hb.WF) {op : HbitmapOp} (hpre : op.Pre hb) :
    (op.apply hb).WF ∧ (op.apply hb).dirty = op.absApply hb.granularity hb.dirty := by
  cases op with
  | set start count =>
    rcases Nat.eq_zero_or_pos count with rfl | hc
    · simpa [apply, absApply, hbitmapSet] using hwf
    have hl := hpre.resolve_left (Nat.pos_iff_ne_zero.mp hc)
    exact ⟨hbitmapSet_wf hwf hl, by rw [apply, absApply, if_neg (Nat.pos_iff_ne_zero.mp hc), dirty_hbitmapSet hwf hc hl]⟩
  | reset start count =>
    rcases Nat.eq_zero_or_pos count with rfl | hc
    · simpa [apply, absApply, hbitmapReset] using hwf
    have hl := (hpre.resolve_left (Nat.pos_iff_ne_zero.mp hc)).2.2
    exact ⟨hbitmapReset_wf hwf hl,
      by rw [apply, absApply, if_neg (Nat.pos_iff_ne_zero.mp hc), dirty_hbitmapReset hwf hc hl]⟩
  | resetAll => exact ⟨hbitmapResetAll_wf hwf, dirty_hbitmapResetAll hwf⟩

end HbitmapOp

/-- The bitmap after a sequence of updates, from `hb`. -/
def hbitmapRun (hb : HBitmap) (ops : List HbitmapOp) : HBitmap := ops.foldl HbitmapOp.apply hb

/-- From a bitmap with the invariant, a run of updates that each meet
their assertions keeps the invariant; the bitmap then holds the groups of
the abstract run, and an element below `orig_size` reads set iff its group
is one of them. -/
theorem hbitmapRun_refines {hb : HBitmap} (hwf : hb.WF) (ops : List HbitmapOp)
    (hv : Simulation.Valid HbitmapOp.apply HbitmapOp.Pre hb ops) :
    (hbitmapRun hb ops).WF ∧
      (hbitmapRun hb ops).dirty = ops.foldl (HbitmapOp.absApply hb.granularity) hb.dirty ∧
      ∀ y < hb.origSize, hbitmapGet (hbitmapRun hb ops) y = true ↔
        y >>> hb.granularity ∈ ops.foldl (HbitmapOp.absApply hb.granularity) hb.dirty := by
  -- the granularity rides along in the invariant, so that each step is the
  -- abstract update at the granularity of the start
  have hsim := @Simulation.foldl_simulates HBitmap (Set Nat) HbitmapOp HbitmapOp.apply HbitmapOp.Pre
    (HbitmapOp.absApply hb.granularity) HBitmap.dirty
    (fun s => s.WF ∧ s.granularity = hb.granularity ∧ s.origSize = hb.origSize)
    (fun s op hs ho => by
      obtain ⟨hswf, hsg, hso⟩ := hs
      obtain ⟨hwf', hdirty⟩ := HbitmapOp.apply_refines hswf ho
      exact ⟨⟨hwf', by rw [HbitmapOp.apply_granularity, hsg], by rw [HbitmapOp.apply_origSize, hso]⟩,
        by rw [hdirty, hsg]⟩)
    ops hb ⟨hwf, rfl, rfl⟩ hv
  obtain ⟨⟨hwf', hg, ho⟩, hdirty⟩ := hsim
  refine ⟨hwf', hdirty, fun y hy => ?_⟩
  unfold hbitmapRun
  rw [hwf'.hbitmapGet_iff (ho ▸ hy), hg, hdirty]

/-- Two sets and a reset of part of the first on a new bitmap of 256
elements in groups of 4. -/
theorem hbitmapRun_refines_set_reset :
    (hbitmapAlloc 256 2).WF ∧ Simulation.Valid HbitmapOp.apply HbitmapOp.Pre (hbitmapAlloc 256 2)
        [.set 100 20, .set 7 1, .reset 104 8] ∧
      ((hbitmapRun (hbitmapAlloc 256 2) [.set 100 20, .set 7 1, .reset 104 8]).WF ∧
        (hbitmapRun (hbitmapAlloc 256 2) [.set 100 20, .set 7 1, .reset 104 8]).dirty =
          [HbitmapOp.set 100 20, .set 7 1, .reset 104 8].foldl (HbitmapOp.absApply 2) (hbitmapAlloc 256 2).dirty ∧
        ∀ y < 256, hbitmapGet (hbitmapRun (hbitmapAlloc 256 2) [.set 100 20, .set 7 1, .reset 104 8]) y = true ↔
          y >>> 2 ∈ [HbitmapOp.set 100 20, .set 7 1, .reset 104 8].foldl (HbitmapOp.absApply 2)
            (hbitmapAlloc 256 2).dirty) :=
  have hwf : (hbitmapAlloc 256 2).WF := hbitmapAlloc_wf (by decide)
  have hv : Simulation.Valid HbitmapOp.apply HbitmapOp.Pre (hbitmapAlloc 256 2) [.set 100 20, .set 7 1, .reset 104 8] :=
    Simulation.valid_of_forall (HbitmapOp.pre_apply_iff) _ _ (by decide)
  ⟨hwf, hv, hbitmapRun_refines hwf _ hv⟩

/-- Under the assertions of `hbitmap_reset`, an element below `orig_size`
reads set afterwards iff it did before and lies outside
`[start, start + count)`. -/
theorem hbitmapGet_hbitmapReset_aligned {hb : HBitmap} (hwf : hb.WF) {start count : Nat}
    (hpre : (HbitmapOp.reset start count).Pre hb) {y : Nat} (hy : y < hb.origSize) :
    hbitmapGet (hbitmapReset hb start count) y = (hbitmapGet hb y && !decide (start ≤ y ∧ y < start + count)) := by
  rcases Nat.eq_zero_or_pos count with rfl | hc
  · have hout : decide (start ≤ y ∧ y < start + 0) = false := decide_eq_false (by omega)
    rw [hout, Bool.not_false, Bool.and_true]
    simp [hbitmapReset]
  obtain ⟨hstart, hend, hl⟩ := hpre.resolve_left (Nat.pos_iff_ne_zero.mp hc)
  rw [hbitmapGet_hbitmapReset hwf hc hl]
  congr 2
  apply decide_eq_decide.mpr
  -- the groups of the range are those of its elements
  have hG : 0 < 1 <<< hb.granularity := Nat.one_shiftLeft _ ▸ Nat.two_pow_pos _
  rw [Nat.one_shiftLeft] at hstart hend hG
  simp only [Nat.shiftRight_eq_div_pow]
  have hlo : start / 2 ^ hb.granularity ≤ y / 2 ^ hb.granularity ↔ start ≤ y := by
    obtain ⟨a, ha⟩ := Nat.dvd_of_mod_eq_zero hstart
    rw [ha, Nat.mul_div_cancel_left _ hG, Nat.le_div_iff_mul_le hG, Nat.mul_comm a]
  have hhi : y / 2 ^ hb.granularity ≤ (start + count - 1) / 2 ^ hb.granularity ↔ y < start + count := by
    rcases hend with hcount | horig
    · -- an aligned end: the group of `start + count - 1` is the last one below `start + count`
      have hdvd : 2 ^ hb.granularity ∣ start + count :=
        Nat.dvd_add (Nat.dvd_of_mod_eq_zero hstart) (Nat.dvd_of_mod_eq_zero hcount)
      constructor
      · intro h
        by_contra hge
        have hlast := Nat.div_lt_div_of_lt_of_dvd hdvd (show start + count - 1 < start + count by omega)
        have hy' := Nat.div_le_div_right (c := 2 ^ hb.granularity) (Nat.le_of_not_lt hge)
        omega
      · intro h
        exact Nat.div_le_div_right (by omega)
    · rw [horig]
      constructor
      · intro _; exact hy
      · intro _; exact Nat.div_le_div_right (by omega)
  rw [hlo, hhi]

/-- On a bitmap of 10 elements in groups of 4, all set, resetting the last
two elements, a range that ends at `orig_size` without a whole group,
clears element 9. -/
theorem hbitmapGet_hbitmapReset_aligned_tail :
    (hbitmapSet (hbitmapAlloc 10 2) 0 10).WF ∧ (HbitmapOp.reset 8 2).Pre (hbitmapSet (hbitmapAlloc 10 2) 0 10) ∧
      9 < (hbitmapSet (hbitmapAlloc 10 2) 0 10).origSize ∧
      hbitmapGet (hbitmapReset (hbitmapSet (hbitmapAlloc 10 2) 0 10) 8 2) 9 = false := by
  have hwf : (hbitmapSet (hbitmapAlloc 10 2) 0 10).WF := hbitmapSet_wf (hbitmapAlloc_wf (by decide)) (by decide)
  refine ⟨hwf, by decide, by decide, ?_⟩
  rw [hbitmapGet_hbitmapReset_aligned hwf (by decide) (by decide)]
  simp

end QemuFormal.Hbitmap

/-
QemuFormal.Memory.SimplifyTheorems — `flatview_simplify` merges exactly
the adjacent ranges `can_merge` accepts, and keeps the map.

The inner loop grows `view->ranges[i]` (`cur`) while `can_merge` accepts
the previous range as rendered (`prev`) and the next one. The grown range
ends where `prev` ends and reaches the same offset in the same region with
the same attributes (`Tracks`), so `can_merge` reads the same of it as of
`prev` (`canMerge_of_tracks`): the loop might as well ask of `cur`.
`can_merge` compares regions by pointer; where ranges of one pointer show
one region (`PtrsIdentify`), a merge keeps the map
(`IntervalList.denote_merge`), and where the loop stops no two neighbours
can merge any more.
-/
import QemuFormal.Memory.AddressMap

namespace QemuFormal.Memory

/-- `cur` grown by `r`, as `int128_addto(&view->ranges[i].addr.size, ...)`
grows it. -/
def FlatRange.grow (cur r : FlatRange) : FlatRange :=
  { cur with addr := { cur.addr with size := cur.addr.size + r.addr.size } }

/-- Ranges of one region pointer show one region: two `MemoryRegion`
objects at one address are one object. -/
def PtrsIdentify (view : List FlatRange) : Prop :=
  ∀ x ∈ view, ∀ y ∈ view, x.mr.ptr = y.mr.ptr → x.mr = y.mr

theorem PtrsIdentify.mono {view view' : List FlatRange} (h : PtrsIdentify view') (hsub : view ⊆ view') :
    PtrsIdentify view :=
  fun x hx y hy => h x (hsub hx) y (hsub hy)

theorem canMerge_iff (r1 r2 : FlatRange) :
    canMerge r1 r2 = true ↔
      r1.addr.start + r1.addr.size = r2.addr.start ∧ r1.mr.ptr = r2.mr.ptr ∧
        (r1.offsetInRegion.toNat : Int) + r1.addr.size = r2.offsetInRegion.toNat ∧
        r1.dirtyLogMask = r2.dirtyLogMask ∧ r1.romdMode = r2.romdMode ∧ r1.readonly = r2.readonly ∧
        r1.nonvolatile = r2.nonvolatile ∧ r1.unmergeable = false ∧ r2.unmergeable = false := by
  simp [canMerge, addrrangeEnd, and_assoc]

/-- `can_merge` reads of its second range everything but its size. -/
theorem canMerge_resize (r1 r2 : FlatRange) (size : Int) :
    canMerge r1 { r2 with addr := { r2.addr with size := size } } = canMerge r1 r2 := rfl

/-- What the grown range `cur` shares with `prev`, the range it absorbed
last: its end, the offset it reaches, the region and the attributes. -/
structure Tracks (cur prev : FlatRange) : Prop where
  end_eq : cur.addr.start + cur.addr.size = prev.addr.start + prev.addr.size
  offset_eq : (cur.offsetInRegion.toNat : Int) + cur.addr.size = prev.offsetInRegion.toNat + prev.addr.size
  mr_eq : cur.mr = prev.mr
  dirtyLogMask_eq : cur.dirtyLogMask = prev.dirtyLogMask
  romdMode_eq : cur.romdMode = prev.romdMode
  readonly_eq : cur.readonly = prev.readonly
  nonvolatile_eq : cur.nonvolatile = prev.nonvolatile
  unmergeable_eq : cur.unmergeable = prev.unmergeable

theorem Tracks.refl (r : FlatRange) : Tracks r r :=
  ⟨rfl, rfl, rfl, rfl, rfl, rfl, rfl, rfl⟩

theorem canMerge_of_tracks {cur prev : FlatRange} (h : Tracks cur prev) (r : FlatRange) :
    canMerge cur r = canMerge prev r := by
  have hend : addrrangeEnd cur.addr = addrrangeEnd prev.addr := h.end_eq
  simp only [canMerge, hend, h.offset_eq, h.mr_eq, h.dirtyLogMask_eq, h.romdMode_eq, h.readonly_eq,
    h.nonvolatile_eq, h.unmergeable_eq]

/-- Growing `cur` by a range `prev` can merge with, of the same region,
tracks that range. -/
theorem tracks_grow {cur prev r : FlatRange} (h : Tracks cur prev) (hm : canMerge prev r = true)
    (hmr : prev.mr = r.mr) : Tracks (cur.grow r) r := by
  obtain ⟨hend, -, hoff, hdirty, hromd, hro, hnv, hum₁, hum₂⟩ := (canMerge_iff prev r).mp hm
  refine ⟨?_, ?_, h.mr_eq.trans hmr, h.dirtyLogMask_eq.trans hdirty, h.romdMode_eq.trans hromd,
    h.readonly_eq.trans hro, h.nonvolatile_eq.trans hnv, (h.unmergeable_eq.trans hum₁).trans hum₂.symm⟩
  · have := h.end_eq
    simp only [FlatRange.grow]
    omega
  · have := h.offset_eq
    simp only [FlatRange.grow]
    omega

theorem flatviewSimplifyRun_cons (cur prev r : FlatRange) (rs : List FlatRange) :
    flatviewSimplifyRun cur prev (r :: rs) =
      if canMerge prev r then flatviewSimplifyRun (cur.grow r) r rs else cur :: flatviewSimplifyRun r r rs := by
  rw [flatviewSimplifyRun]
  rfl

/-- The range grown by a range it can merge with gives each address the
entry the two gave. -/
theorem lookup_grow {cur prev r : FlatRange} (h : Tracks cur prev) (hm : canMerge prev r = true)
    (hmr : prev.mr = r.mr) (hcur : cur.addr.start ≤ cur.addr.start + cur.addr.size)
    (hr : r.addr.start ≤ r.addr.start + r.addr.size) (rs : List FlatRange) (a : Int) :
    lookup (cur.grow r :: rs) a = lookup (cur :: r :: rs) a := by
  obtain ⟨hend, -, hoff, -, -, hro, hnv, hum₁, hum₂⟩ := (canMerge_iff prev r).mp hm
  have he := h.end_eq
  have ho := h.offset_eq
  unfold lookup
  refine IntervalList.denote_merge FlatRange.lo FlatRange.hi FlatRange.entryAt (z := cur.grow r) rs hcur hr
    (by simp; omega) rfl (by simp [FlatRange.grow]; omega) (fun _ _ _ => rfl) (fun a _ _ => ?_) a
  -- in `r`'s part the grown range's offset runs on into `r`'s
  simp only [FlatRange.entryAt, FlatRange.grow, Entry.mk.injEq]
  refine ⟨h.mr_eq.trans hmr, by omega, h.readonly_eq.trans hro, h.nonvolatile_eq.trans hnv, ?_⟩
  rw [h.unmergeable_eq, hum₁, hum₂]

/-- The ranges of `flatview_simplify`'s output past `cur` keep `cur`'s
start, the start of a range of the input past it. -/
def StartsFrom (rs out : List FlatRange) : Prop :=
  ∀ x ∈ out, ∃ y ∈ rs, x.addr.start = y.addr.start

section Simplify

variable (g : MemoryRegion → UInt8)

/-- **The inner loop**: from a grown range `cur` tracking `prev`, the
ranges that come out keep the map of `cur :: rs`, stay well formed, start
where ranges of `cur :: rs` start, begin with `cur` resized, and no two
neighbours among them can merge. -/
theorem flatviewSimplifyRun_spec : ∀ (rs : List FlatRange) (cur prev : FlatRange), Tracks cur prev →
    Wellformed g (cur :: rs) → PtrsIdentify (prev :: rs) →
    Wellformed g (flatviewSimplifyRun cur prev rs) ∧
      (∀ a, lookup (flatviewSimplifyRun cur prev rs) a = lookup (cur :: rs) a) ∧
      StartsFrom (cur :: rs) (flatviewSimplifyRun cur prev rs) ∧
      (∃ s rest, flatviewSimplifyRun cur prev rs = { cur with addr := { cur.addr with size := s } } :: rest) ∧
      (flatviewSimplifyRun cur prev rs).IsChain fun x y => canMerge x y = false
  | [], cur, _, _, hwf, _ => by
    refine ⟨hwf, fun _ => rfl, fun x hx => ⟨x, hx, rfl⟩, ⟨cur.addr.size, [], rfl⟩, List.isChain_singleton _⟩
  | r :: rs, cur, prev, htr, hwf, hptr => by
    obtain ⟨⟨hcur, hbound, hromd, hdirty⟩, hafter, hwfr⟩ := wellformed_cons_iff.mp hwf
    obtain ⟨⟨hr, hrbound, -, -⟩, hafter', hwfrs⟩ := wellformed_cons_iff.mp hwfr
    rw [flatviewSimplifyRun_cons]
    split
    · -- `r` is absorbed: go on with `cur` grown by it
      rename_i hm
      obtain ⟨hend, hptrEq, -⟩ := (canMerge_iff prev r).mp hm
      have hmr : prev.mr = r.mr :=
        hptr prev List.mem_cons_self r (List.mem_cons_of_mem _ List.mem_cons_self) hptrEq
      have he := htr.end_eq
      -- the grown range ends where `r` did
      have hgrow : Wellformed g (cur.grow r :: rs) := by
        refine wellformed_cons_iff.mpr ⟨⟨?_, ?_, hromd, hdirty⟩, fun y hy => ?_, hwfrs⟩
        · simp only [FlatRange.grow]
          omega
        · simp only [FlatRange.grow]
          omega
        · have := hafter' y hy
          simp only [FlatRange.grow]
          omega
      obtain ⟨hwf', hmap, hstarts, ⟨s, rest, hhead⟩, hchain⟩ :=
        flatviewSimplifyRun_spec rs (cur.grow r) r (tracks_grow htr hm hmr) hgrow
          (hptr.mono (List.subset_cons_self _ _))
      refine ⟨hwf', fun a => ?_, fun x hx => ?_, ⟨s, rest, hhead⟩, hchain⟩
      · rw [hmap a, lookup_grow htr hm hmr hcur.le hr.le]
      · obtain ⟨y, hy, hxy⟩ := hstarts x hx
        rcases List.mem_cons.mp hy with rfl | hy
        · exact ⟨cur, List.mem_cons_self, hxy⟩
        · exact ⟨y, List.mem_cons_of_mem _ (List.mem_cons_of_mem _ hy), hxy⟩
    · -- `r` starts a range of its own
      rename_i hm
      obtain ⟨hwf', hmap, hstarts, ⟨s, rest, hhead⟩, hchain⟩ :=
        flatviewSimplifyRun_spec rs r r (Tracks.refl r) hwfr (hptr.mono (List.subset_cons_self _ _))
      refine ⟨wellformed_cons_iff.mpr ⟨⟨hcur, hbound, hromd, hdirty⟩, fun y hy => ?_, hwf'⟩, fun a => ?_,
        fun x hx => ?_, ⟨cur.addr.size, _, rfl⟩, ?_⟩
      · -- every range that comes out starts where a range of `r :: rs` did
        obtain ⟨z, hz, hyz⟩ := hstarts y hy
        rw [hyz]
        exact hafter z hz
      · rw [lookup_cons, lookup_cons, hmap a]
      · rcases List.mem_cons.mp hx with rfl | hx
        · exact ⟨x, List.mem_cons_self, rfl⟩
        · obtain ⟨y, hy, hxy⟩ := hstarts x hx
          exact ⟨y, List.mem_cons_of_mem _ hy, hxy⟩
      · -- `cur` cannot merge with what follows: that starts as `r`, which `prev` could not merge with
        rw [hhead] at hchain ⊢
        refine List.isChain_cons_cons.mpr ⟨?_, hchain⟩
        rw [canMerge_resize, canMerge_of_tracks htr]
        simpa using hm

/-- **`flatview_simplify`** keeps a view well formed and, where ranges
of one pointer show one region, its map as it was, and leaves no two
neighbouring ranges that `can_merge` accepts. -/
theorem flatviewSimplify_spec {view : List FlatRange} (hwf : Wellformed g view) (hptr : PtrsIdentify view) :
    Wellformed g (flatviewSimplify view) ∧ (∀ a, lookup (flatviewSimplify view) a = lookup view a) ∧
      (flatviewSimplify view).IsChain fun x y => canMerge x y = false := by
  cases view with
  | nil => exact ⟨hwf, fun _ => rfl, List.IsChain.nil⟩
  | cons r rs =>
    obtain ⟨hwf', hmap, -, -, hchain⟩ := flatviewSimplifyRun_spec g rs r r (Tracks.refl r) hwf hptr
    exact ⟨hwf', hmap, hchain⟩

end Simplify

end QemuFormal.Memory

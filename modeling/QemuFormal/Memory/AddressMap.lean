/-
QemuFormal.Memory.AddressMap — what a flat view is for: the map from an
address to the region that serves it, the offset in that region, and the
flags collected on the way down.

`resolve` reads the map off the tree as its documentation describes it:
a disabled region serves nothing, a region serves only its own addresses,
an alias passes the address on to the region it points to, shifted by
that region's `addr` and the alias offset; otherwise the first subregion
that serves the address does, and failing that the region itself, if it
terminates. `lookup` reads the map off a view: the first range holding
the address, at the offset the range gives it. `Wellformed` is what
rendering keeps of a view: ordered non-empty ranges within `[0, 2^64)`,
each carrying its region's `romd_mode` and dirty log mask.
-/
import QemuFormal.Lib.IntervalList
import QemuFormal.Memory.FlatView

namespace QemuFormal.Memory

/-- What an address resolves to. -/
structure Entry where
  mr : MemoryRegion
  offset : Int
  readonly : Bool
  nonvolatile : Bool
  unmergeable : Bool

/-! ## The map of a tree -/

mutual

/-- The entry `a` resolves to in `mr`, placed at `base` in its container,
under the flags of the regions above it. -/
def resolve : MemoryRegion → Int → Bool → Bool → Bool → Int → Option Entry
  | mr@{ aliasOf := aliasOf, subregions := subregions, .. }, base, readonly, nonvolatile, unmergeable,
      a =>
    let base := base + mr.addr.toNat
    if mr.enabled ∧ base ≤ a ∧ a < base + mr.size then
      let readonly := readonly || mr.readonly
      let nonvolatile := nonvolatile || mr.nonvolatile
      let unmergeable := unmergeable || mr.unmergeable
      match aliasOf with
      | some al => resolve al (base - al.addr.toNat - mr.aliasOffset.toNat) readonly nonvolatile unmergeable a
      | none =>
        (resolveSubregions subregions base readonly nonvolatile unmergeable a).or
          (if mr.terminates then some ⟨mr, a - base, readonly, nonvolatile, unmergeable⟩ else none)
    else none

/-- The entry the first of `subregions` that resolves `a` gives. -/
def resolveSubregions : List MemoryRegion → Int → Bool → Bool → Bool → Int → Option Entry
  | [], _, _, _, _, _ => none
  | subregion :: rest, base, readonly, nonvolatile, unmergeable, a =>
    (resolve subregion base readonly nonvolatile unmergeable a).or
      (resolveSubregions rest base readonly nonvolatile unmergeable a)

end

theorem resolve_eq (mr : MemoryRegion) (base : Int) (readonly nonvolatile unmergeable : Bool) (a : Int) :
    resolve mr base readonly nonvolatile unmergeable a =
      if mr.enabled ∧ base + mr.addr.toNat ≤ a ∧ a < base + mr.addr.toNat + mr.size then
        match mr.aliasOf with
        | some al =>
          resolve al (base + mr.addr.toNat - al.addr.toNat - mr.aliasOffset.toNat)
            (readonly || mr.readonly) (nonvolatile || mr.nonvolatile) (unmergeable || mr.unmergeable) a
        | none =>
          (resolveSubregions mr.subregions (base + mr.addr.toNat) (readonly || mr.readonly)
              (nonvolatile || mr.nonvolatile) (unmergeable || mr.unmergeable) a).or
            (if mr.terminates then
              some ⟨mr, a - (base + mr.addr.toNat), readonly || mr.readonly, nonvolatile || mr.nonvolatile,
                unmergeable || mr.unmergeable⟩
            else none)
      else none := by
  obtain ⟨_, _, _, _, _, _, _, _, _, aliasOf, _, _, _, _⟩ := mr
  cases aliasOf <;> rw [resolve]

@[simp] theorem resolveSubregions_nil (base : Int) (readonly nonvolatile unmergeable : Bool) (a : Int) :
    resolveSubregions [] base readonly nonvolatile unmergeable a = none := by
  rw [resolveSubregions]

theorem resolveSubregions_cons (subregion : MemoryRegion) (rest : List MemoryRegion) (base : Int)
    (readonly nonvolatile unmergeable : Bool) (a : Int) :
    resolveSubregions (subregion :: rest) base readonly nonvolatile unmergeable a =
      (resolve subregion base readonly nonvolatile unmergeable a).or
        (resolveSubregions rest base readonly nonvolatile unmergeable a) := by
  rw [resolveSubregions]

/-! ## The map of a view -/

/-- The first address of a range. -/
def FlatRange.lo (r : FlatRange) : Int := r.addr.start

/-- The address past the end of a range. -/
def FlatRange.hi (r : FlatRange) : Int := addrrangeEnd r.addr

@[simp] theorem FlatRange.lo_eq (r : FlatRange) : r.lo = r.addr.start := rfl
@[simp] theorem FlatRange.hi_eq (r : FlatRange) : r.hi = r.addr.start + r.addr.size := rfl

/-- The entry a range gives the address `a`. -/
def FlatRange.entryAt (r : FlatRange) (a : Int) : Entry :=
  ⟨r.mr, r.offsetInRegion.toNat + (a - r.addr.start), r.readonly, r.nonvolatile, r.unmergeable⟩

/-- The entry a view gives the address `a`: the first range holding it. -/
def lookup (view : List FlatRange) (a : Int) : Option Entry :=
  IntervalList.denote FlatRange.lo FlatRange.hi FlatRange.entryAt view a

@[simp] theorem lookup_nil (a : Int) : lookup [] a = none := rfl

theorem lookup_append (view view' : List FlatRange) (a : Int) :
    lookup (view ++ view') a = (lookup view a).or (lookup view' a) :=
  IntervalList.denote_append _ _ _ _ _ _

theorem lookup_cons (r : FlatRange) (view : List FlatRange) (a : Int) :
    lookup (r :: view) a =
      (if r.addr.start ≤ a ∧ a < r.addr.start + r.addr.size then some (r.entryAt a) else none).or
        (lookup view a) :=
  IntervalList.denote_cons _ _ _ _ _ _

theorem lookup_singleton (r : FlatRange) (a : Int) :
    lookup [r] a = if r.addr.start ≤ a ∧ a < r.addr.start + r.addr.size then some (r.entryAt a) else none := by
  rw [lookup_cons, lookup_nil, Option.or_none]

/-- No range starts at or before `a`. -/
theorem lookup_eq_none_of_lt {view : List FlatRange} {a : Int} (h : ∀ r ∈ view, a < r.addr.start) :
    lookup view a = none := by
  rw [lookup, IntervalList.denote, IntervalList.find_eq_none_of_lt FlatRange.lo FlatRange.hi h, Option.map_none]

/-- Ordered, non-empty, disjoint ranges. -/
def Ordered (view : List FlatRange) : Prop :=
  IntervalList.Ordered FlatRange.lo FlatRange.hi view

theorem ordered_cons_iff {r : FlatRange} {view : List FlatRange} :
    Ordered (r :: view) ↔
      r.addr.start < r.addr.start + r.addr.size ∧ (∀ y ∈ view, r.addr.start + r.addr.size ≤ y.addr.start) ∧
        Ordered view :=
  IntervalList.ordered_cons _ _

theorem ordered_append_iff {view view' : List FlatRange} :
    Ordered (view ++ view') ↔
      Ordered view ∧ Ordered view' ∧
        ∀ x ∈ view, ∀ y ∈ view', x.addr.start + x.addr.size ≤ y.addr.start :=
  IntervalList.ordered_append _ _

/-- In an ordered view, an address has an entry exactly where a range
holds it, and the entry is that range's. -/
theorem lookup_eq_some_iff {view : List FlatRange} (hord : Ordered view) {a : Int} {e : Entry} :
    lookup view a = some e ↔ ∃ r ∈ view, (r.addr.start ≤ a ∧ a < r.addr.start + r.addr.size) ∧ r.entryAt a = e := by
  rw [lookup, IntervalList.denote, Option.map_eq_some_iff]
  constructor
  · rintro ⟨r, hfind, rfl⟩
    obtain ⟨hr, hin⟩ := (IntervalList.find_eq_some_iff FlatRange.lo FlatRange.hi hord).mp hfind
    exact ⟨r, hr, hin, rfl⟩
  · rintro ⟨r, hr, hin, rfl⟩
    exact ⟨r, (IntervalList.find_eq_some_iff FlatRange.lo FlatRange.hi hord).mpr ⟨hr, hin⟩, rfl⟩

/-- A view as rendering keeps it. -/
structure Wellformed (getDirtyLogMask : MemoryRegion → UInt8) (view : List FlatRange) : Prop where
  ordered : Ordered view
  bounded : ∀ r ∈ view, 0 ≤ r.addr.start ∧ r.addr.start + r.addr.size ≤ 2 ^ 64
  romdMode : ∀ r ∈ view, r.romdMode = r.mr.romdMode
  dirtyLogMask : ∀ r ∈ view, r.dirtyLogMask = getDirtyLogMask r.mr

/-- A view is well formed when its first range is non-empty, within the
space and carries its region's flags, ends before the rest starts, and
the rest is well formed. -/
theorem wellformed_cons_iff {g : MemoryRegion → UInt8} {r : FlatRange} {view : List FlatRange} :
    Wellformed g (r :: view) ↔
      (r.addr.start < r.addr.start + r.addr.size ∧ (0 ≤ r.addr.start ∧ r.addr.start + r.addr.size ≤ 2 ^ 64) ∧
        r.romdMode = r.mr.romdMode ∧ r.dirtyLogMask = g r.mr) ∧
      (∀ y ∈ view, r.addr.start + r.addr.size ≤ y.addr.start) ∧ Wellformed g view := by
  constructor
  · rintro ⟨hord, hbound, hromd, hdirty⟩
    obtain ⟨hr, hafter, hord'⟩ := ordered_cons_iff.mp hord
    exact ⟨⟨hr, hbound r List.mem_cons_self, hromd r List.mem_cons_self, hdirty r List.mem_cons_self⟩, hafter,
      ⟨hord', fun x hx => hbound x (List.mem_cons_of_mem _ hx), fun x hx => hromd x (List.mem_cons_of_mem _ hx),
        fun x hx => hdirty x (List.mem_cons_of_mem _ hx)⟩⟩
  · rintro ⟨⟨hr, hbound, hromd, hdirty⟩, hafter, hwf⟩
    refine ⟨ordered_cons_iff.mpr ⟨hr, hafter, hwf.ordered⟩, fun x hx => ?_, fun x hx => ?_, fun x hx => ?_⟩ <;>
      rcases List.mem_cons.mp hx with rfl | hx
    · exact hbound
    · exact hwf.bounded x hx
    · exact hromd
    · exact hwf.romdMode x hx
    · exact hdirty
    · exact hwf.dirtyLogMask x hx

end QemuFormal.Memory

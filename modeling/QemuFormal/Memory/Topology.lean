/-
QemuFormal.Memory.Topology — what `generate_memory_topology` builds, and
what `memory_region_get_flatview_root` lets address spaces share.

`generateMemoryTopology_spec` composes rendering (`renderMemoryRegion_spec`,
over the empty view and the clip `[0, 2^64)`) with `flatviewSimplify_spec`:
the FlatView is ordered and disjoint, maps each address below 2^64 as
`resolve` maps it from the root, and holds no two neighbours that
`can_merge` accepts. `can_merge` compares regions by pointer, so this
needs the regions the root reaches to be told apart by their address
(`PtrsDistinct`), as objects in memory are. The FlatView is built
whenever at most one region that terminates and spans the whole space
is reached (`renderMemoryRegion_total`); two of them overlapping abort
in `int128_get64`.

`memory_region_get_flatview_root` walks down from an address space's root
through whole aliases and sole children at offset 0. When it gives up it
has found nothing enabled, but the root it descends to is rendered as a
root of its own: at its own `addr` and without the flags of the regions
it skipped (`flatviewRootSkip`, `resolve_of_flatviewRoot`).
-/
import QemuFormal.Memory.RenderTheorems
import QemuFormal.Memory.SimplifyTheorems

namespace QemuFormal.Memory

/-! ## The FlatView of a root -/

section Generate

variable (g : MemoryRegion → UInt8)

/-- The regions the root reaches are told apart by their address: two
that addresses resolve to are one region when they have one `ptr`. -/
def PtrsDistinct (root : MemoryRegion) : Prop :=
  ∀ (a b : Int) (e₁ e₂ : Entry), resolve root 0 false false false a = some e₁ →
    resolve root 0 false false false b = some e₂ → e₁.mr.ptr = e₂.mr.ptr → e₁.mr = e₂.mr

/-- A region that terminates, with no alias and no subregions, resolves
to itself only. -/
theorem ptrsDistinct_of_leaf {mr : MemoryRegion} (hal : mr.aliasOf = none) (hsub : mr.subregions = []) :
    PtrsDistinct mr := by
  have hself : ∀ a e, resolve mr 0 false false false a = some e → e.mr = mr := by
    intro a e h
    simp only [resolve_eq, hal, hsub, resolveSubregions_nil, Option.none_or] at h
    split_ifs at h
    cases h
    rfl
  intro a b e₁ e₂ h₁ h₂ _
  rw [hself a e₁ h₁, hself b e₂ h₂]

/-- A view that maps each address below 2^64 as `resolve` does from a
root whose regions are told apart by their address shows one region at
one pointer: each range resolves its first address to its own region. -/
theorem ptrsIdentify_of_map {root : MemoryRegion} (hptr : PtrsDistinct root) {view : List FlatRange}
    (hwf : Wellformed g view)
    (hmap : ∀ a, lookup view a = if 0 ≤ a ∧ a < 2 ^ 64 then resolve root 0 false false false a else none) :
    PtrsIdentify view := by
  have hres : ∀ x ∈ view, resolve root 0 false false false x.addr.start = some (x.entryAt x.addr.start) := by
    intro x hx
    have hne : x.addr.start < x.addr.start + x.addr.size := by simpa using hwf.ordered.1 x hx
    have hb := hwf.bounded x hx
    have hlook := (lookup_eq_some_iff hwf.ordered).mpr ⟨x, hx, ⟨le_rfl, hne⟩, rfl⟩
    rwa [hmap, if_pos ⟨hb.1, by omega⟩] at hlook
  intro x hx y hy hxy
  exact hptr _ _ _ _ (hres x hx) (hres y hy) hxy

theorem wellformed_nil : Wellformed g [] :=
  ⟨IntervalList.ordered_nil _ _, fun _ h => absurd h List.not_mem_nil, fun _ h => absurd h List.not_mem_nil,
    fun _ h => absurd h List.not_mem_nil⟩

theorem within_all : Within (addrrangeMake 0 (2 ^ 64)) := by
  refine ⟨?_, ?_, ?_⟩ <;> simp

/-- **The FlatView of a root** whose regions are told apart by their
address maps every address below 2^64 as `resolve` does from the root,
through ordered disjoint ranges no two neighbours of which `can_merge`
accepts. -/
theorem generateMemoryTopology_spec {root : MemoryRegion} (hptr : PtrsDistinct root) {view : List FlatRange}
    (h : generateMemoryTopology g (some root) = some view) :
    Wellformed g view ∧
      (∀ a, lookup view a = if 0 ≤ a ∧ a < 2 ^ 64 then resolve root 0 false false false a else none) ∧
      view.IsChain fun x y => canMerge x y = false := by
  simp only [generateMemoryTopology, Option.map_eq_map, Option.map_eq_some_iff] at h
  obtain ⟨rendered, hrender, rfl⟩ := h
  obtain ⟨hwf, hmap⟩ :=
    renderMemoryRegion_spec g root [] 0 _ false false false rendered hrender (wellformed_nil g) within_all
  -- the rendered view maps as `resolve` does
  have hmapR : ∀ a, lookup rendered a = if 0 ≤ a ∧ a < 2 ^ 64 then resolve root 0 false false false a else none := by
    intro a
    have hclip : addrrangeContains (addrrangeMake 0 (2 ^ 64)) a = true ↔ 0 ≤ a ∧ a < 2 ^ 64 := by
      rw [addrrangeContains_iff, addrrangeMake_start, addrrangeMake_size, zero_add]
    rw [hmap a, lookup_nil, Option.none_or]
    by_cases ha : 0 ≤ a ∧ a < 2 ^ 64
    · rw [if_pos (hclip.mpr ha), if_pos ha]
    · rw [if_neg (mt hclip.mp ha), if_neg ha]
  obtain ⟨hwf', hmap', hchain⟩ := flatviewSimplify_spec g hwf (ptrsIdentify_of_map g hptr hwf hmapR)
  exact ⟨hwf', fun a => by rw [hmap', hmapR], hchain⟩

/-- **The FlatView is built** when at most one region that terminates and
spans all 2^64 addresses is reached from the root. -/
theorem generateMemoryTopology_isSome {root : MemoryRegion} (hone : fullTerminators root ≤ 1) :
    ∃ view, generateMemoryTopology g (some root) = some view := by
  have hnofull : Full ([] : List FlatRange) → fullTerminators root = 0 := by
    rintro ⟨r, hr, -⟩
    exact absurd hr List.not_mem_nil
  obtain ⟨rendered, hrender, -⟩ :=
    renderMemoryRegion_total g root [] 0 _ false false false (wellformed_nil g) within_all hone hnofull
  exact ⟨flatviewSimplify rendered, by rw [generateMemoryTopology, hrender]; rfl⟩

/-- **`generate_memory_topology` is right**: when the regions the root
reaches are told apart by their address and at most one of them
terminates and spans all 2^64 addresses, it builds a FlatView of ordered
disjoint ranges, no two neighbours of which `can_merge` accepts, that
maps every address below 2^64 as `resolve` maps it from the root. -/
theorem generateMemoryTopology_resolve {root : MemoryRegion} (hptr : PtrsDistinct root)
    (hone : fullTerminators root ≤ 1) :
    ∃ view, generateMemoryTopology g (some root) = some view ∧ Wellformed g view ∧
      (∀ a, lookup view a = if 0 ≤ a ∧ a < 2 ^ 64 then resolve root 0 false false false a else none) ∧
      view.IsChain fun x y => canMerge x y = false := by
  obtain ⟨view, hview⟩ := generateMemoryTopology_isSome g hone
  exact ⟨view, hview, generateMemoryTopology_spec g hptr hview⟩

end Generate

/-- An I/O region of 4 KiB as the root: it is the only region, and it
does not span all addresses. -/
theorem generateMemoryTopology_resolve_io :
    PtrsDistinct (memoryRegionInitIo 0x1000) ∧ fullTerminators (memoryRegionInitIo 0x1000) ≤ 1 ∧
    ∃ view, generateMemoryTopology (fun _ => 0) (some (memoryRegionInitIo 0x1000)) = some view ∧
      Wellformed (fun _ => 0) view ∧
      (∀ a, lookup view a = if 0 ≤ a ∧ a < 2 ^ 64 then resolve (memoryRegionInitIo 0x1000) 0 false false false a else none) ∧
      view.IsChain fun x y => canMerge x y = false := by
  have hptr : PtrsDistinct (memoryRegionInitIo 0x1000) := ptrsDistinct_of_leaf rfl rfl
  have hone : fullTerminators (memoryRegionInitIo 0x1000) ≤ 1 := by decide +kernel
  exact ⟨hptr, hone, generateMemoryTopology_resolve (fun _ => 0) hptr hone⟩

/-- Two I/O regions of 2^64 bytes, overlapping in a container of 2^64
bytes: the second is rendered into the gaps of the first, a step of 2^64
over it, and `int128_get64` aborts. -/
theorem generateMemoryTopology_two_full_io :
    fullTerminators
        (memoryRegionAddSubregionOverlap
          (memoryRegionAddSubregion (memoryRegionInit 0xFFFFFFFFFFFFFFFF) 0 (memoryRegionInitIo 0xFFFFFFFFFFFFFFFF))
          0 (memoryRegionInitIo 0xFFFFFFFFFFFFFFFF) 1) = 2 ∧
      generateMemoryTopology (fun _ => 0)
        (some (memoryRegionAddSubregionOverlap
          (memoryRegionAddSubregion (memoryRegionInit 0xFFFFFFFFFFFFFFFF) 0 (memoryRegionInitIo 0xFFFFFFFFFFFFFFFF))
          0 (memoryRegionInitIo 0xFFFFFFFFFFFFFFFF) 1)) = none := by
  constructor
  · decide +kernel
  · decide +kernel

/-! ## The root a FlatView is shared from -/

/-! ### The scan over the children -/

theorem le_flatviewRootScan_fst (size : Nat) :
    ∀ (l : List MemoryRegion) (found : Nat) (next : Option MemoryRegion),
      found ≤ (flatviewRootScan size l found next).1
  | [], _, _ => le_rfl
  | child :: rest, found, next => by
    unfold flatviewRootScan
    split
    · split
      · exact Nat.le_succ found
      · exact (Nat.le_succ found).trans (le_flatviewRootScan_fst size rest _ _)
    · exact le_flatviewRootScan_fst size rest _ _

/-- A scan that counts no further child has met no enabled one. -/
theorem flatviewRootScan_not_enabled (size : Nat) :
    ∀ (l : List MemoryRegion) (found : Nat) (next : Option MemoryRegion),
      (flatviewRootScan size l found next).1 = found → ∀ c ∈ l, c.enabled = false
  | [], _, _, _ => fun _ hc => absurd hc List.not_mem_nil
  | child :: rest, found, next, h => by
    unfold flatviewRootScan at h
    split at h
    · -- an enabled child raises the count past `found`
      split at h
      · simp at h
      · have hup := le_flatviewRootScan_fst size rest (found + 1)
          (if child.addr = 0 ∧ size ≥ child.size then some child else next)
        omega
    · rename_i hen
      intro c hc
      rcases List.mem_cons.mp hc with rfl | hc
      · simpa using hen
      · exact flatviewRootScan_not_enabled size rest found next h c hc

/-- Once one enabled child is counted, the scan keeps its choice only if
no other child is enabled. -/
theorem flatviewRootScan_one (size : Nat) :
    ∀ (l : List MemoryRegion) (next : Option MemoryRegion) (child : MemoryRegion),
      (flatviewRootScan size l 1 next).2 = some child → next = some child ∧ ∀ c ∈ l, c.enabled = false
  | [], _, _, h => ⟨h, fun _ hc => absurd hc List.not_mem_nil⟩
  | c :: rest, next, child, h => by
    unfold flatviewRootScan at h
    split at h
    · rw [if_pos (by omega)] at h
      cases h
    · rename_i hen
      obtain ⟨hnext, hrest⟩ := flatviewRootScan_one size rest next child h
      refine ⟨hnext, fun c' hc' => ?_⟩
      rcases List.mem_cons.mp hc' with rfl | hc'
      · simpa using hen
      · exact hrest c' hc'

/-- **The child the walk descends into** is the only enabled child, at
offset 0 and no larger than its container. -/
theorem flatviewRootScan_some (size : Nat) :
    ∀ (l : List MemoryRegion) (child : MemoryRegion), (flatviewRootScan size l 0 none).2 = some child →
      child ∈ l ∧ child.addr = 0 ∧ child.size ≤ size ∧ ∀ c ∈ l, c.enabled = true → c = child
  | [], _, h => by cases h
  | c :: rest, child, h => by
    unfold flatviewRootScan at h
    split at h
    · rw [if_neg (by omega)] at h
      obtain ⟨hnext, hrest⟩ := flatviewRootScan_one size rest _ child h
      split at hnext
      · rename_i hfit
        cases hnext
        refine ⟨List.mem_cons_self, hfit.1, hfit.2, fun c' hc' hen' => ?_⟩
        rcases List.mem_cons.mp hc' with rfl | hc'
        · rfl
        · rw [hrest c' hc'] at hen'
          cases hen'
      · cases hnext
    · rename_i hen
      obtain ⟨hmem, haddr, hsize, hsole⟩ := flatviewRootScan_some size rest child h
      refine ⟨List.mem_cons_of_mem _ hmem, haddr, hsize, fun c' hc' hen' => ?_⟩
      rcases List.mem_cons.mp hc' with rfl | hc'
      · exact absurd hen' hen
      · exact hsole c' hc' hen'

/-! ### What the walk skips -/

/-- What the walk of `memory_region_get_flatview_root` leaves above the
root it finds: the distance the map moves by, and the flags of the
regions it skipped. -/
structure RootSkip where
  shift : Int
  readonly : Bool
  nonvolatile : Bool
  unmergeable : Bool
  deriving DecidableEq, Repr

/-- Skipping `mr` on the way down to what is left after it. -/
def RootSkip.under (mr : MemoryRegion) (shift : Int) (s : RootSkip) : RootSkip :=
  ⟨shift + s.shift, mr.readonly || s.readonly, mr.nonvolatile || s.nonvolatile, mr.unmergeable || s.unmergeable⟩

/-- What the walk skips, step by step as `memory_region_get_flatview_root`
takes them: a whole alias moves the map by its `addr` less its target's,
a container by its `addr`, and each adds its flags. -/
def flatviewRootSkip (mr : MemoryRegion) : RootSkip :=
  if !mr.enabled then ⟨0, false, false, false⟩ else
  match _hal : mr.aliasOf with
  | some al =>
    if mr.aliasOffset = 0 ∧ mr.size ≥ al.size then
      (flatviewRootSkip al).under mr (mr.addr.toNat - al.addr.toNat)
    else ⟨0, false, false, false⟩
  | none =>
    if mr.terminates then ⟨0, false, false, false⟩ else
    match _hscan : flatviewRootScan mr.size mr.subregions 0 none with
    | (0, _) => ⟨0, false, false, false⟩
    | (_, some child) => (flatviewRootSkip child).under mr mr.addr.toNat
    | (_, none) => ⟨0, false, false, false⟩
termination_by sizeOf mr
decreasing_by
  · exact sizeOf_lt_of_aliasOf _hal
  · exact sizeOf_lt_of_flatviewRootScan _hscan

theorem flatviewRootSkip_of_whole_alias {mr al : MemoryRegion} (hen : mr.enabled = true)
    (hal : mr.aliasOf = some al) (hwhole : mr.aliasOffset = 0 ∧ mr.size ≥ al.size) :
    flatviewRootSkip mr = (flatviewRootSkip al).under mr (mr.addr.toNat - al.addr.toNat) := by
  rw [flatviewRootSkip]
  simp only [hen, Bool.not_true, Bool.false_eq_true, if_false]
  split
  · rename_i al' hal'
    rw [hal] at hal'
    cases hal'
    rw [if_pos hwhole]
  · rename_i hal'
    rw [hal] at hal'
    cases hal'

theorem flatviewRootSkip_of_sole_child {mr child : MemoryRegion} {found : Nat} (hen : mr.enabled = true)
    (hal : mr.aliasOf = none) (hterm : mr.terminates = false)
    (hscan : flatviewRootScan mr.size mr.subregions 0 none = (found, some child)) (hfound : found ≠ 0) :
    flatviewRootSkip mr = (flatviewRootSkip child).under mr mr.addr.toNat := by
  rw [flatviewRootSkip]
  simp only [hen, Bool.not_true, Bool.false_eq_true, if_false]
  split
  · rename_i al' hal'
    rw [hal] at hal'
    cases hal'
  · rw [if_neg (by simp [hterm])]
    split
    · rename_i hs
      rw [hscan] at hs
      cases hs
      exact absurd rfl hfound
    · rename_i hs
      rw [hscan] at hs
      cases hs
      rfl
    · rename_i hs
      rw [hscan] at hs
      cases hs

/-- Where the walk stops at `mr`, it skips nothing: an alias that does
not show all of its target, a region that terminates, a container with
enabled children but none to descend into. -/
theorem flatviewRootSkip_of_stop {mr : MemoryRegion} (hen : mr.enabled = true)
    (hstop : (∃ al, mr.aliasOf = some al ∧ ¬(mr.aliasOffset = 0 ∧ mr.size ≥ al.size)) ∨
      (mr.aliasOf = none ∧ mr.terminates = true) ∨
      (mr.aliasOf = none ∧ mr.terminates = false ∧ ∃ found, found ≠ 0 ∧
        flatviewRootScan mr.size mr.subregions 0 none = (found, none))) :
    flatviewRootSkip mr = ⟨0, false, false, false⟩ := by
  rw [flatviewRootSkip]
  simp only [hen, Bool.not_true, Bool.false_eq_true, if_false]
  split
  · rename_i al hal
    rcases hstop with ⟨al', hal', hpart⟩ | ⟨hnone, -⟩ | ⟨hnone, -⟩
    · rw [hal] at hal'
      cases hal'
      rw [if_neg hpart]
    · rw [hal] at hnone
      cases hnone
    · rw [hal] at hnone
      cases hnone
  · rename_i hal
    rcases hstop with ⟨al', hal', -⟩ | ⟨-, hterm⟩ | ⟨-, hterm, found, hfound, hscan⟩
    · rw [hal] at hal'
      cases hal'
    · rw [if_pos hterm]
    · rw [if_neg (by simp [hterm])]
      split
      · rfl
      · rename_i hs
        rw [hscan] at hs
        cases hs
      · rfl

/-! ### The map along the walk -/

theorem resolve_of_not_enabled {mr : MemoryRegion} (h : mr.enabled = false) (base : Int)
    (readonly nonvolatile unmergeable : Bool) (a : Int) : resolve mr base readonly nonvolatile unmergeable a = none := by
  rw [resolve_eq, if_neg (by simp [h])]

theorem resolveSubregions_of_not_enabled {l : List MemoryRegion} (h : ∀ c ∈ l, c.enabled = false) (base : Int)
    (readonly nonvolatile unmergeable : Bool) (a : Int) :
    resolveSubregions l base readonly nonvolatile unmergeable a = none := by
  induction l with
  | nil => exact resolveSubregions_nil _ _ _ _ _
  | cons c rest ih =>
    rw [resolveSubregions_cons, resolve_of_not_enabled (h c List.mem_cons_self), Option.none_or]
    exact ih fun c' hc' => h c' (List.mem_cons_of_mem _ hc')

/-- Among children of which only `child` is enabled, `child` resolves. -/
theorem resolveSubregions_of_sole {child : MemoryRegion} {l : List MemoryRegion} (hmem : child ∈ l)
    (hsole : ∀ c ∈ l, c.enabled = true → c = child) (base : Int) (readonly nonvolatile unmergeable : Bool)
    (a : Int) :
    resolveSubregions l base readonly nonvolatile unmergeable a =
      resolve child base readonly nonvolatile unmergeable a := by
  induction l with
  | nil => exact absurd hmem List.not_mem_nil
  | cons c rest ih =>
    have hsole' : ∀ c' ∈ rest, c'.enabled = true → c' = child := fun c' hc' => hsole c' (List.mem_cons_of_mem _ hc')
    rw [resolveSubregions_cons]
    by_cases hc : c = child
    · subst hc
      by_cases hrest : c ∈ rest
      · rw [ih hrest hsole', Option.or_self]
      · -- no other copy of `child` in `rest`, so nothing there is enabled
        have hoff : ∀ c' ∈ rest, c'.enabled = false := fun c' hc' => by
          by_contra hen
          exact hrest (hsole' c' hc' (by simpa using hen) ▸ hc')
        rw [resolveSubregions_of_not_enabled hoff, Option.or_none]
    · have hen : c.enabled = false := by
        by_contra hen
        exact hc (hsole c List.mem_cons_self (by simpa using hen))
      rw [resolve_of_not_enabled hen, Option.none_or]
      exact ih ((List.mem_cons.mp hmem).resolve_left (Ne.symm hc)) hsole'

/-- Where `resolve` answers, the address lies in the region. -/
theorem resolve_in_range {mr : MemoryRegion} {base : Int} {readonly nonvolatile unmergeable : Bool} {a : Int}
    {e : Entry} (h : resolve mr base readonly nonvolatile unmergeable a = some e) :
    base + mr.addr.toNat ≤ a ∧ a < base + mr.addr.toNat + mr.size := by
  rw [resolve_eq] at h
  by_cases hin : mr.enabled = true ∧ base + mr.addr.toNat ≤ a ∧ a < base + mr.addr.toNat + mr.size
  · exact hin.2
  · rw [if_neg hin] at h
    cases h

/-- Outside the region `resolve` has nothing. -/
theorem resolve_eq_none_of_out {mr : MemoryRegion} {base : Int} (readonly nonvolatile unmergeable : Bool) {a : Int}
    (h : ¬(base + mr.addr.toNat ≤ a ∧ a < base + mr.addr.toNat + mr.size)) :
    resolve mr base readonly nonvolatile unmergeable a = none := by
  cases hres : resolve mr base readonly nonvolatile unmergeable a with
  | none => rfl
  | some e => exact absurd (resolve_in_range hres) h

/-- **Skipping a whole alias** at offset 0: the alias maps as its target
does, placed at the alias's `addr` less the target's, under the alias's
flags. -/
theorem resolve_of_whole_alias {mr al : MemoryRegion} (hen : mr.enabled = true) (hal : mr.aliasOf = some al)
    (hoff : mr.aliasOffset = 0) (hsize : al.size ≤ mr.size) (base : Int) (readonly nonvolatile unmergeable : Bool)
    (a : Int) :
    resolve mr base readonly nonvolatile unmergeable a =
      resolve al (base + mr.addr.toNat - al.addr.toNat) (readonly || mr.readonly) (nonvolatile || mr.nonvolatile)
        (unmergeable || mr.unmergeable) a := by
  rw [resolve_eq, hal]
  by_cases hin : base + mr.addr.toNat ≤ a ∧ a < base + mr.addr.toNat + mr.size
  · rw [if_pos ⟨hen, hin⟩]
    dsimp only
    rw [hoff, UInt64.toNat_zero, Nat.cast_zero, sub_zero]
  · -- the target lies within the alias, so it has nothing there either
    rw [if_neg fun h => hin h.2, resolve_eq_none_of_out _ _ _ (by omega)]

/-- **Skipping a container** for its sole enabled child at offset 0: the
container maps as the child does, under the container's flags. -/
theorem resolve_of_sole_child {mr child : MemoryRegion} (hen : mr.enabled = true) (hal : mr.aliasOf = none)
    (hterm : mr.terminates = false) (hscan : (flatviewRootScan mr.size mr.subregions 0 none).2 = some child)
    (base : Int) (readonly nonvolatile unmergeable : Bool) (a : Int) :
    resolve mr base readonly nonvolatile unmergeable a =
      resolve child (base + mr.addr.toNat) (readonly || mr.readonly) (nonvolatile || mr.nonvolatile)
        (unmergeable || mr.unmergeable) a := by
  obtain ⟨hmem, haddr, hsize, hsole⟩ := flatviewRootScan_some mr.size mr.subregions child hscan
  rw [resolve_eq, hal]
  by_cases hin : base + mr.addr.toNat ≤ a ∧ a < base + mr.addr.toNat + mr.size
  · rw [if_pos ⟨hen, hin⟩]
    dsimp only
    rw [hterm, if_neg Bool.false_ne_true, resolveSubregions_of_sole hmem hsole, Option.or_none]
  · -- the child lies within the container, so it has nothing there either
    have : child.addr.toNat = 0 := by rw [haddr]; rfl
    rw [if_neg fun h => hin h.2, resolve_eq_none_of_out _ _ _ (by omega)]

/-- **When the walk finds no root**, nothing under `mr` is enabled: `mr`
resolves no address, wherever it is placed. -/
theorem resolve_eq_none_of_flatviewRoot (mr : MemoryRegion) (h : memoryRegionGetFlatviewRoot mr = none)
    (base : Int) (readonly nonvolatile unmergeable : Bool) (a : Int) :
    resolve mr base readonly nonvolatile unmergeable a = none := by
  fun_induction memoryRegionGetFlatviewRoot mr generalizing base readonly nonvolatile unmergeable with
  | case1 mr hoff => exact resolve_of_not_enabled (by simpa using hoff) _ _ _ _ _
  | case2 mr hen al hal hwhole ih =>
    rw [resolve_of_whole_alias (by simpa using hen) hal hwhole.1 hwhole.2]
    exact ih h _ _ _ _
  | case3 mr _ _ _ _ => cases h
  | case4 mr _ _ _ => cases h
  | case5 mr hen hal hterm next hscan =>
    -- no enabled child, and the container does not terminate
    have hoff := flatviewRootScan_not_enabled mr.size mr.subregions 0 none (by rw [hscan])
    rw [resolve_eq, hal]
    split
    · dsimp only
      rw [resolveSubregions_of_not_enabled hoff]
      rfl
    · rfl
  | case6 mr hen hal hterm found child _ hscan ih =>
    rw [resolve_of_sole_child (by simpa using hen) hal (by simpa using hterm) (by rw [hscan])]
    exact ih h _ _ _ _
  | case7 mr _ _ _ _ _ _ => cases h

/-- Where the walk finds a root, `mr` maps as that root does, moved by the
distance and under the flags the walk skipped. -/
theorem resolve_eq_of_flatviewRoot (mr r : MemoryRegion) (h : memoryRegionGetFlatviewRoot mr = some r)
    (base : Int) (ro nv um : Bool) (a : Int) :
    resolve mr base ro nv um a =
      resolve r (base + (flatviewRootSkip mr).shift) (ro || (flatviewRootSkip mr).readonly)
        (nv || (flatviewRootSkip mr).nonvolatile) (um || (flatviewRootSkip mr).unmergeable) a := by
  fun_induction memoryRegionGetFlatviewRoot mr generalizing base ro nv um with
  | case1 mr _ => cases h
  | case2 mr hen al hal hwhole ih =>
    -- a whole alias: one step down, then the rest of the walk
    rw [flatviewRootSkip_of_whole_alias (by simpa using hen) hal hwhole,
      resolve_of_whole_alias (by simpa using hen) hal hwhole.1 hwhole.2, ih h]
    simp only [RootSkip.under, Bool.or_assoc]
    congr 1
    ring
  | case3 mr hen al hal hpart =>
    cases h
    rw [flatviewRootSkip_of_stop (by simpa using hen) (.inl ⟨al, hal, hpart⟩)]
    simp
  | case4 mr hen hal hterm =>
    cases h
    rw [flatviewRootSkip_of_stop (by simpa using hen) (.inr (.inl ⟨hal, hterm⟩))]
    simp
  | case5 mr _ _ _ _ _ => cases h
  | case6 mr hen hal hterm found child hfound hscan ih =>
    -- a sole child at offset 0: one step down, then the rest of the walk
    rw [flatviewRootSkip_of_sole_child (by simpa using hen) hal (by simpa using hterm) hscan hfound,
      resolve_of_sole_child (by simpa using hen) hal (by simpa using hterm) (by rw [hscan]), ih h]
    simp only [RootSkip.under, Bool.or_assoc]
    congr 1
    ring
  | case7 mr hen hal hterm found hfound hscan =>
    cases h
    rw [flatviewRootSkip_of_stop (by simpa using hen) (.inr (.inr ⟨hal, by simpa using hterm, found, hfound, hscan⟩))]
    simp

/-- **What sharing a FlatView does to the map**: `mr` maps as the root the
walk finds, moved by the distance the walk skipped and under the flags of
the regions it skipped; where the walk finds none, `mr` maps nothing. -/
theorem resolve_of_flatviewRoot (mr : MemoryRegion) (base : Int) (ro nv um : Bool) (a : Int) :
    resolve mr base ro nv um a =
      (memoryRegionGetFlatviewRoot mr).bind fun r =>
        resolve r (base + (flatviewRootSkip mr).shift) (ro || (flatviewRootSkip mr).readonly)
          (nv || (flatviewRootSkip mr).nonvolatile) (um || (flatviewRootSkip mr).unmergeable) a := by
  cases h : memoryRegionGetFlatviewRoot mr with
  | none => exact resolve_eq_none_of_flatviewRoot mr h base ro nv um a
  | some r => exact resolve_eq_of_flatviewRoot mr r h base ro nv um a

/-- A read-only alias of the whole of an I/O region shares the region's
FlatView: the walk skips the alias, which moves nothing and adds its
read-only flag. -/
theorem resolve_of_flatviewRoot_readonly_alias :
    memoryRegionGetFlatviewRoot { memoryRegionInitAlias (memoryRegionInitIo 0x1000) 0 0x1000 with readonly := true } =
        some (memoryRegionInitIo 0x1000) ∧
      flatviewRootSkip { memoryRegionInitAlias (memoryRegionInitIo 0x1000) 0 0x1000 with readonly := true } =
        ⟨0, true, false, false⟩ ∧
      ∀ (base : Int) (ro nv um : Bool) (a : Int),
        resolve { memoryRegionInitAlias (memoryRegionInitIo 0x1000) 0 0x1000 with readonly := true } base ro nv um a =
          resolve (memoryRegionInitIo 0x1000) base (ro || true) nv um a := by
  have h : memoryRegionGetFlatviewRoot { memoryRegionInitAlias (memoryRegionInitIo 0x1000) 0 0x1000 with readonly := true } =
      some (memoryRegionInitIo 0x1000) := by
    rw [memoryRegionGetFlatviewRoot]
    simp [memoryRegionInitAlias, memoryRegionInit, memoryRegionInitIo]
    rw [memoryRegionGetFlatviewRoot]
    simp
  have hskip : flatviewRootSkip { memoryRegionInitAlias (memoryRegionInitIo 0x1000) 0 0x1000 with readonly := true } =
      ⟨0, true, false, false⟩ := by
    rw [flatviewRootSkip_of_whole_alias rfl rfl ⟨rfl, by decide⟩,
      flatviewRootSkip_of_stop rfl (.inr (.inl ⟨rfl, rfl⟩))]
    rfl
  refine ⟨h, hskip, fun base ro nv um a => ?_⟩
  rw [resolve_of_flatviewRoot, h, hskip]
  simp

/-- Two roots whose address spaces would share a FlatView that is not
theirs. An alias showing all of a region that sits at 0x1000 in its own
container descends to that region, which renders at 0x1000 where the
alias rendered it at 0; a read-only alias of a whole region descends to
the region, which renders writable. -/
theorem memoryRegionGetFlatviewRoot_alias_unshifted :
    memoryRegionGetFlatviewRoot (memoryRegionInitAlias { memoryRegionInitIo 0x1000 with addr := 0x1000 } 0 0x1000) =
        some { memoryRegionInitIo 0x1000 with addr := 0x1000 } ∧
      generateMemoryTopology (fun _ => 0)
          (some (memoryRegionInitAlias { memoryRegionInitIo 0x1000 with addr := 0x1000 } 0 0x1000)) =
        some [⟨{ memoryRegionInitIo 0x1000 with addr := 0x1000 }, 0, ⟨0, 0x1000⟩, 0, true, false, false, false⟩] ∧
      generateMemoryTopology (fun _ => 0) (some { memoryRegionInitIo 0x1000 with addr := 0x1000 }) =
        some [⟨{ memoryRegionInitIo 0x1000 with addr := 0x1000 }, 0, ⟨0x1000, 0x1000⟩, 0, true, false, false, false⟩] ∧
      memoryRegionGetFlatviewRoot { memoryRegionInitAlias (memoryRegionInitIo 0x1000) 0 0x1000 with readonly := true } =
        some (memoryRegionInitIo 0x1000) ∧
      generateMemoryTopology (fun _ => 0)
          (some { memoryRegionInitAlias (memoryRegionInitIo 0x1000) 0 0x1000 with readonly := true }) =
        some [⟨memoryRegionInitIo 0x1000, 0, ⟨0, 0x1000⟩, 0, true, true, false, false⟩] ∧
      generateMemoryTopology (fun _ => 0) (some (memoryRegionInitIo 0x1000)) =
        some [⟨memoryRegionInitIo 0x1000, 0, ⟨0, 0x1000⟩, 0, true, false, false, false⟩] := by
  refine ⟨?_, by decide +kernel, by decide +kernel, ?_, by decide +kernel, by decide +kernel⟩
  · rw [memoryRegionGetFlatviewRoot]
    simp [memoryRegionInitAlias, memoryRegionInit, memoryRegionInitIo]
    rw [memoryRegionGetFlatviewRoot]
    simp
  · rw [memoryRegionGetFlatviewRoot]
    simp [memoryRegionInitAlias, memoryRegionInit, memoryRegionInitIo]
    rw [memoryRegionGetFlatviewRoot]
    simp

end QemuFormal.Memory

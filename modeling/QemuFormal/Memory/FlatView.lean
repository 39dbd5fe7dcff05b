/-
QemuFormal.Memory.FlatView — how system/memory.c flattens a tree of memory
regions: `render_memory_region`, `flatview_simplify` and
`generate_memory_topology`, with the region constructors and
`memory_region_add_subregion` that build the tree.

A region is a value here, and `ptr` stands for its address: `can_merge`
compares two regions by pointer, and two regions with equal fields are
still two regions. `aliasOf` is the region an alias points to (the
source's `alias`, a keyword of Lean), and `subregions` lists the children
in the order `memory_region_update_container_subregions` keeps them. The
view is the list `view->ranges[0..nr)`. `Int128` is `Int`: no value met
here comes near 2^127. `hwaddr` is `UInt64`, and the offsets rendering
adds up wrap as the source's do. `int128_get64` asserts that its argument
fits in 64 bits: where it does not, rendering returns `none`, which is
QEMU aborting. `memory_region_get_dirty_log_mask` reads the global dirty
tracking and the RAM block besides the region, so it is a parameter.

The gap loop of `render_memory_region` walks `view->ranges` by index and
inserts at the index it is at. `renderGaps` walks the ranges from that
index on instead: the ranges before it are never read or moved again, and
each insertion goes before the range the loop stands on.
-/
import Mathlib

namespace QemuFormal.Memory

/-! ## `Int128` and `AddrRange` -/

/-- `int128_get64`: the value as a `uint64_t`, `none` where its `assert`
fails. -/
def int128Get64 (a : Int) : Option UInt64 :=
  if 0 ≤ a ∧ a < 2 ^ 64 then some (UInt64.ofNat a.toNat) else none

/-- `AddrRange`: the addresses `[start, start + size)`. -/
structure AddrRange where
  start : Int
  size : Int
  deriving DecidableEq, Repr

def addrrangeMake (start size : Int) : AddrRange := ⟨start, size⟩

def addrrangeEnd (r : AddrRange) : Int := r.start + r.size

def addrrangeContains (range : AddrRange) (addr : Int) : Bool :=
  addr ≥ range.start && addr < addrrangeEnd range

def addrrangeIntersects (r1 r2 : AddrRange) : Bool :=
  addrrangeContains r1 r2.start || addrrangeContains r2 r1.start

def addrrangeIntersection (r1 r2 : AddrRange) : AddrRange :=
  let start := max r1.start r2.start
  let end_ := min (addrrangeEnd r1) (addrrangeEnd r2)
  addrrangeMake start (end_ - start)

theorem int128Get64_toNat {a : Int} {n : UInt64} (h : int128Get64 a = some n) : (n.toNat : Int) = a := by
  by_cases hfit : 0 ≤ a ∧ a < 2 ^ 64
  · rw [int128Get64, if_pos hfit, Option.some.injEq] at h
    subst h
    have hlt : a.toNat < 2 ^ 64 := by omega
    rw [UInt64.toNat_ofNat_of_lt' hlt]
    omega
  · rw [int128Get64, if_neg hfit] at h
    cases h

theorem int128Get64_of_lt {a : Int} (h₀ : 0 ≤ a) (h : a < 2 ^ 64) :
    ∃ n, int128Get64 a = some n ∧ (n.toNat : Int) = a := by
  have hlt : a.toNat < 2 ^ 64 := by omega
  refine ⟨UInt64.ofNat a.toNat, by rw [int128Get64, if_pos ⟨h₀, h⟩], ?_⟩
  rw [UInt64.toNat_ofNat_of_lt' hlt]
  omega

@[simp] theorem addrrangeMake_start (start size : Int) : (addrrangeMake start size).start = start := rfl
@[simp] theorem addrrangeMake_size (start size : Int) : (addrrangeMake start size).size = size := rfl

@[simp] theorem addrrangeEnd_make (start size : Int) : addrrangeEnd (addrrangeMake start size) = start + size :=
  rfl

@[simp] theorem addrrangeContains_iff (range : AddrRange) (addr : Int) :
    addrrangeContains range addr = true ↔ range.start ≤ addr ∧ addr < range.start + range.size := by
  unfold addrrangeContains addrrangeEnd
  simp

@[simp] theorem addrrangeIntersection_start (r1 r2 : AddrRange) :
    (addrrangeIntersection r1 r2).start = max r1.start r2.start := rfl

@[simp] theorem addrrangeIntersection_size (r1 r2 : AddrRange) :
    (addrrangeIntersection r1 r2).size =
      min (r1.start + r1.size) (r2.start + r2.size) - max r1.start r2.start := rfl

/-! ## Memory regions -/

/-- A `MemoryRegion`, with the fields rendering reads. `size` is the
source's `Int128`, which `memory_region_do_init` keeps at most 2^64. -/
structure MemoryRegion where
  romdMode : Bool
  readonly : Bool
  nonvolatile : Bool
  unmergeable : Bool
  size : Nat
  size_le : size ≤ 2 ^ 64
  addr : UInt64
  terminates : Bool
  enabled : Bool
  aliasOf : Option MemoryRegion
  aliasOffset : UInt64
  priority : Int32
  subregions : List MemoryRegion
  /-- The address of the `MemoryRegion` object. -/
  ptr : Nat

mutual

/-- Decidable equality of regions, field by field. -/
def MemoryRegion.decEq : (x y : MemoryRegion) → Decidable (x = y)
  | ⟨a₁, b₁, c₁, d₁, e₁, _, g₁, h₁, i₁, al₁, k₁, l₁, s₁, p₁⟩,
    ⟨a₂, b₂, c₂, d₂, e₂, _, g₂, h₂, i₂, al₂, k₂, l₂, s₂, p₂⟩ =>
    if h : a₁ = a₂ ∧ b₁ = b₂ ∧ c₁ = c₂ ∧ d₁ = d₂ ∧ e₁ = e₂ ∧ g₁ = g₂ ∧ h₁ = h₂ ∧ i₁ = i₂ ∧
        k₁ = k₂ ∧ l₁ = l₂ ∧ p₁ = p₂ then
      match MemoryRegion.decEqAlias al₁ al₂, MemoryRegion.decEqList s₁ s₂ with
      | isTrue ha, isTrue hs => isTrue (by
          obtain ⟨rfl, rfl, rfl, rfl, rfl, rfl, rfl, rfl, rfl, rfl, rfl⟩ := h
          subst ha hs
          rfl)
      | isFalse ha, _ => isFalse (fun e => ha (MemoryRegion.mk.inj e).2.2.2.2.2.2.2.2.1)
      | _, isFalse hs => isFalse (fun e => hs (MemoryRegion.mk.inj e).2.2.2.2.2.2.2.2.2.2.2.1)
    else isFalse (fun e => h (by cases e; exact ⟨rfl, rfl, rfl, rfl, rfl, rfl, rfl, rfl, rfl, rfl, rfl⟩))

def MemoryRegion.decEqAlias : (x y : Option MemoryRegion) → Decidable (x = y)
  | none, none => isTrue rfl
  | none, some _ => isFalse (fun e => by cases e)
  | some _, none => isFalse (fun e => by cases e)
  | some a, some b =>
    match MemoryRegion.decEq a b with
    | isTrue h => isTrue (h ▸ rfl)
    | isFalse h => isFalse (fun e => h (Option.some.inj e))

def MemoryRegion.decEqList : (x y : List MemoryRegion) → Decidable (x = y)
  | [], [] => isTrue rfl
  | [], _ :: _ => isFalse (fun e => by cases e)
  | _ :: _, [] => isFalse (fun e => by cases e)
  | a :: xs, b :: ys =>
    match MemoryRegion.decEq a b, MemoryRegion.decEqList xs ys with
    | isTrue h, isTrue hs => isTrue (h ▸ hs ▸ rfl)
    | isFalse h, _ => isFalse (fun e => h (List.cons.inj e).1)
    | _, isFalse hs => isFalse (fun e => hs (List.cons.inj e).2)

end

instance : DecidableEq MemoryRegion := MemoryRegion.decEq

/-- `memory_region_init`: `memory_region_initfn` (enabled, `romd_mode`
set, no subregions) and `memory_region_do_init`, where a size of
`UINT64_MAX` stands for 2^64. The caller owns the object: the region is
made at address 0, and a tree of several regions gives each its own
`ptr`. -/
def memoryRegionInit (size : UInt64) : MemoryRegion where
  romdMode := true
  readonly := false
  nonvolatile := false
  unmergeable := false
  size := if size = UInt64.ofNat (2 ^ 64 - 1) then 2 ^ 64 else size.toNat
  size_le := by
    split
    · exact le_rfl
    · exact (UInt64.toNat_lt size).le
  addr := 0
  terminates := false
  enabled := true
  aliasOf := none
  aliasOffset := 0
  priority := 0
  subregions := []
  ptr := 0

/-- `memory_region_init_io`: a region that terminates, served by its ops. -/
def memoryRegionInitIo (size : UInt64) : MemoryRegion :=
  { memoryRegionInit size with terminates := true }

/-- `memory_region_init_alias`: `size` bytes of `orig` from `offset` on. -/
def memoryRegionInitAlias (orig : MemoryRegion) (offset size : UInt64) : MemoryRegion :=
  { memoryRegionInit size with aliasOf := some orig, aliasOffset := offset }

/-- `memory_region_update_container_subregions`: `subregion` goes before
the first region of no higher priority, or last. -/
def memoryRegionUpdateContainerSubregions (subregion : MemoryRegion) :
    List MemoryRegion → List MemoryRegion
  | [] => [subregion]
  | other :: rest =>
    if subregion.priority ≥ other.priority then subregion :: other :: rest
    else other :: memoryRegionUpdateContainerSubregions subregion rest

/-- `memory_region_add_subregion_common`: place `subregion` at `offset`. -/
def memoryRegionAddSubregionCommon (mr : MemoryRegion) (offset : UInt64) (subregion : MemoryRegion) :
    MemoryRegion :=
  { mr with subregions := memoryRegionUpdateContainerSubregions { subregion with addr := offset } mr.subregions }

/-- `memory_region_add_subregion`: priority 0. -/
def memoryRegionAddSubregion (mr : MemoryRegion) (offset : UInt64) (subregion : MemoryRegion) :
    MemoryRegion :=
  memoryRegionAddSubregionCommon mr offset { subregion with priority := 0 }

/-- `memory_region_add_subregion_overlap`. -/
def memoryRegionAddSubregionOverlap (mr : MemoryRegion) (offset : UInt64) (subregion : MemoryRegion)
    (priority : Int32) : MemoryRegion :=
  memoryRegionAddSubregionCommon mr offset { subregion with priority := priority }

/-! ## Flat ranges -/

/-- `FlatRange`: `addr` of the address space shows `mr` from
`offset_in_region` on. -/
structure FlatRange where
  mr : MemoryRegion
  offsetInRegion : UInt64
  addr : AddrRange
  dirtyLogMask : UInt8
  romdMode : Bool
  readonly : Bool
  nonvolatile : Bool
  unmergeable : Bool
  deriving DecidableEq

/-- `can_merge`: `r2` continues `r1` in the address space and in the
region (the same pointer), with the same attributes, and neither is
unmergeable. -/
def canMerge (r1 r2 : FlatRange) : Bool :=
  addrrangeEnd r1.addr == r2.addr.start && r1.mr.ptr == r2.mr.ptr &&
    (r1.offsetInRegion.toNat : Int) + r1.addr.size == (r2.offsetInRegion.toNat : Int) &&
    r1.dirtyLogMask == r2.dirtyLogMask && r1.romdMode == r2.romdMode &&
    r1.readonly == r2.readonly && r1.nonvolatile == r2.nonvolatile &&
    !r1.unmergeable && !r2.unmergeable

/-- The inner loop of `flatview_simplify`: `cur` is `view->ranges[i]`,
grown by every range it absorbs, and `prev` is `view->ranges[j-1]`, the
range last absorbed as it was rendered. -/
def flatviewSimplifyRun (cur prev : FlatRange) : List FlatRange → List FlatRange
  | [] => [cur]
  | r :: rs =>
    if canMerge prev r then
      flatviewSimplifyRun { cur with addr := { cur.addr with size := cur.addr.size + r.addr.size } } r rs
    else cur :: flatviewSimplifyRun r r rs

/-- `flatview_simplify`: merge each run of ranges that `can_merge` chains. -/
def flatviewSimplify : List FlatRange → List FlatRange
  | [] => []
  | r :: rs => flatviewSimplifyRun r r rs

/-! ## Rendering -/

/-- The first half of the gap loop's body at `r`: where `base` is below
`r`, insert the piece of `fr` up to `r` (or up to its end), and move past
it. -/
def renderGap (fr r : FlatRange) (base remain : Int) (offsetInRegion : UInt64) :
    Option (List FlatRange × Int × Int × UInt64) :=
  if base < r.addr.start then do
    let now := min remain (r.addr.start - base)
    let n ← int128Get64 now
    pure ([{ fr with offsetInRegion := offsetInRegion, addr := addrrangeMake base now }], base + now,
      remain - now, offsetInRegion + n)
  else pure ([], base, remain, offsetInRegion)

/-- The gap loop of `render_memory_region` from `view->ranges[i]` on:
render `fr` into `[base, base + remain)` wherever no range is, its offset
in the region at `base` being `offsetInRegion`. -/
def renderGaps (fr : FlatRange) : List FlatRange → Int → Int → UInt64 → Option (List FlatRange)
  | [], base, remain, offsetInRegion =>
    -- the loop ran off the end of the view: what remains goes last
    if remain ≠ 0 then some [{ fr with offsetInRegion := offsetInRegion, addr := addrrangeMake base remain }]
    else some []
  | r :: rs, base, remain, offsetInRegion =>
    if remain = 0 then some (r :: rs)
    else if base ≥ addrrangeEnd r.addr then (r :: ·) <$> renderGaps fr rs base remain offsetInRegion
    else do
      let (gap, base, remain, offsetInRegion) ← renderGap fr r base remain offsetInRegion
      -- step over `r`
      let now := min (base + remain) (addrrangeEnd r.addr) - base
      let n ← int128Get64 now
      let rest ← renderGaps fr rs (base + now) (remain - now) (offsetInRegion + n)
      pure (gap ++ r :: rest)

section Render

variable (getDirtyLogMask : MemoryRegion → UInt8)

/-- The end of `render_memory_region` for a region that terminates: render
it into the gaps the view leaves in `clip`. -/
def renderTerminating (view : List FlatRange) (mr : MemoryRegion) (base : Int) (clip : AddrRange)
    (readonly nonvolatile unmergeable : Bool) : Option (List FlatRange) := do
  let offsetInRegion ← int128Get64 (clip.start - base)
  let fr : FlatRange :=
    { mr := mr, offsetInRegion := 0, addr := clip, dirtyLogMask := getDirtyLogMask mr,
      romdMode := mr.romdMode, readonly := readonly, nonvolatile := nonvolatile,
      unmergeable := unmergeable }
  renderGaps fr view clip.start clip.size offsetInRegion

mutual

/-- `render_memory_region`: render `mr`, placed at `base`, into the view
within `clip`; the ranges already in the view hide it. -/
def renderMemoryRegion (view : List FlatRange) : MemoryRegion → Int → AddrRange → Bool → Bool → Bool →
    Option (List FlatRange)
  | mr@{ aliasOf := aliasOf, subregions := subregions, .. }, base, clip, readonly, nonvolatile,
      unmergeable =>
    if !mr.enabled then some view else
    let base := base + mr.addr.toNat
    let readonly := readonly || mr.readonly
    let nonvolatile := nonvolatile || mr.nonvolatile
    let unmergeable := unmergeable || mr.unmergeable
    let tmp := addrrangeMake base mr.size
    if !addrrangeIntersects tmp clip then some view else
    let clip := addrrangeIntersection tmp clip
    match aliasOf with
    | some al =>
      renderMemoryRegion view al (base - al.addr.toNat - mr.aliasOffset.toNat) clip readonly nonvolatile
        unmergeable
    | none => do
      -- subregions in priority order, then the region itself
      let view ← renderSubregions view subregions base clip readonly nonvolatile unmergeable
      if !mr.terminates then some view
      else renderTerminating getDirtyLogMask view mr base clip readonly nonvolatile unmergeable

/-- The `QTAILQ_FOREACH` over the subregions in `render_memory_region`. -/
def renderSubregions (view : List FlatRange) : List MemoryRegion → Int → AddrRange → Bool → Bool → Bool →
    Option (List FlatRange)
  | [], _, _, _, _, _ => some view
  | subregion :: rest, base, clip, readonly, nonvolatile, unmergeable => do
    let view ← renderMemoryRegion view subregion base clip readonly nonvolatile unmergeable
    renderSubregions view rest base clip readonly nonvolatile unmergeable

end

/-- `generate_memory_topology`, up to the dispatch tables it builds from
the view: render the root over all of `[0, 2^64)`, then simplify. -/
def generateMemoryTopology (mr : Option MemoryRegion) : Option (List FlatRange) :=
  match mr with
  | some mr =>
    flatviewSimplify <$>
      renderMemoryRegion getDirtyLogMask [] mr 0 (addrrangeMake 0 (2 ^ 64)) false false false
  | none => some []

end Render

/-! ## The root a FlatView is rendered from -/

/-- The `QTAILQ_FOREACH` over the children in
`memory_region_get_flatview_root`: how many are enabled, up to the second,
and the one to descend into, if the only enabled child is at offset 0 and
no larger than its container (`size`). -/
def flatviewRootScan (size : Nat) : List MemoryRegion → Nat → Option MemoryRegion →
    Nat × Option MemoryRegion
  | [], found, next => (found, next)
  | child :: rest, found, next =>
    if child.enabled then
      if found + 1 > 1 then (found + 1, none)
      else
        flatviewRootScan size rest (found + 1)
          (if child.addr = 0 ∧ size ≥ child.size then some child else next)
    else flatviewRootScan size rest found next

theorem flatviewRootScan_mem (size : Nat) :
    ∀ (l : List MemoryRegion) (found : Nat) (next : Option MemoryRegion) (child : MemoryRegion),
      (flatviewRootScan size l found next).2 = some child → child ∈ l ∨ next = some child
  | [], _, _, _, h => .inr h
  | c :: rest, found, next, child, h => by
    unfold flatviewRootScan at h
    split at h
    · split at h
      · cases h
      · rcases flatviewRootScan_mem size rest _ _ child h with hmem | hnext
        · exact .inl (List.mem_cons_of_mem c hmem)
        · split at hnext
          · cases hnext
            exact .inl List.mem_cons_self
          · exact .inr hnext
    · rcases flatviewRootScan_mem size rest _ _ child h with hmem | hnext
      · exact .inl (List.mem_cons_of_mem c hmem)
      · exact .inr hnext

/-! The walk goes down to an alias's target or to a child, both smaller
than the region. -/

theorem sizeOf_lt_of_aliasOf {mr al : MemoryRegion} (h : mr.aliasOf = some al) : sizeOf al < sizeOf mr := by
  cases mr
  simp only at h
  subst h
  simp only [MemoryRegion.mk.sizeOf_spec, Option.some.sizeOf_spec]
  omega

theorem sizeOf_lt_of_flatviewRootScan {mr child : MemoryRegion} {found : Nat}
    (h : flatviewRootScan mr.size mr.subregions 0 none = (found, some child)) : sizeOf child < sizeOf mr := by
  have hmem : child ∈ mr.subregions := by
    rcases flatviewRootScan_mem mr.size mr.subregions 0 none child (by rw [h]) with hmem | hnext
    · exact hmem
    · cases hnext
  cases mr
  have := List.sizeOf_lt_of_mem hmem
  simp only [MemoryRegion.mk.sizeOf_spec] at this ⊢
  omega

/-- `memory_region_get_flatview_root`: the region whose FlatView `mr`'s
address space shares, going down through an alias that shows all of its
target from offset 0, and through a container whose only enabled child
sits at offset 0 within it; `none` where nothing is enabled. -/
def memoryRegionGetFlatviewRoot (mr : MemoryRegion) : Option MemoryRegion :=
  if !mr.enabled then none else
  match _hal : mr.aliasOf with
  | some al =>
    if mr.aliasOffset = 0 ∧ mr.size ≥ al.size then memoryRegionGetFlatviewRoot al else some mr
  | none =>
    if mr.terminates then some mr else
    match _hscan : flatviewRootScan mr.size mr.subregions 0 none with
    | (0, _) => none
    | (_, some child) => memoryRegionGetFlatviewRoot child
    | (_, none) => some mr
termination_by sizeOf mr
decreasing_by
  · exact sizeOf_lt_of_aliasOf _hal
  · exact sizeOf_lt_of_flatviewRootScan _hscan

end QemuFormal.Memory

/-
QemuFormal.Memory.RenderTheorems — `render_memory_region` renders the map
of the tree.

The gap loop first. It walks the view with a state `(base, remain,
offset)`: the part of the terminating region's range still to render and
its offset in the region there. Each step moves the state forward
(`Advance`), so the state always describes the rest of one range
`fr.over offset base remain`. What the loop returns is the view with
pieces of that range in its gaps: ordered still, and with the map of the
view over the map of the range (`renderGaps_spec`). Rendering a region is
then, by induction over the tree, the view's map over the map `resolve`
reads off the tree, within the clip (`renderMemoryRegion_spec`).

The loop asserts (`int128_get64`) that each step is below 2^64. A step
covers at most what remains, and is 2^64 only when all of `[0, 2^64)`
remains and a range of the view covers all of it: only a region that
terminates and covers the whole space, rendered over a view that another
such region filled, aborts.
-/
import QemuFormal.Memory.AddressMap

namespace QemuFormal.Memory

/-! ## Clips -/

/-- A clip inside the address space. -/
def Within (clip : AddrRange) : Prop :=
  0 ≤ clip.start ∧ 0 ≤ clip.size ∧ clip.start + clip.size ≤ 2 ^ 64

theorem addrrangeContains_intersection (r1 r2 : AddrRange) (a : Int) :
    addrrangeContains (addrrangeIntersection r1 r2) a = (addrrangeContains r1 a && addrrangeContains r2 a) := by
  rw [Bool.eq_iff_iff]
  simp only [Bool.and_eq_true, addrrangeContains_iff, addrrangeIntersection_start,
    addrrangeIntersection_size]
  omega

theorem not_contains_of_not_intersects {r1 r2 : AddrRange} (h : addrrangeIntersects r1 r2 = false) (a : Int) :
    (addrrangeContains r1 a && addrrangeContains r2 a) = false := by
  simp only [addrrangeIntersects, Bool.or_eq_false_iff] at h
  obtain ⟨h₁, h₂⟩ := h
  rw [Bool.eq_false_iff] at h₁ h₂ ⊢
  simp only [ne_eq, Bool.and_eq_true, addrrangeContains_iff, not_and, not_lt] at h₁ h₂ ⊢
  omega

theorem within_intersection {r clip : AddrRange} (hclip : Within clip) (hsize : 0 ≤ r.size)
    (h : addrrangeIntersects r clip = true) : Within (addrrangeIntersection r clip) := by
  simp only [addrrangeIntersects, Bool.or_eq_true, addrrangeContains_iff] at h
  obtain ⟨h₀, hs, hend⟩ := hclip
  refine ⟨?_, ?_, ?_⟩ <;> simp only [addrrangeIntersection_start, addrrangeIntersection_size] <;> omega

/-! ## The gap loop -/

section Gaps

variable (fr : FlatRange)

/-- `fr` over `[base, base + size)`, at `offset` in its region at `base`. -/
def FlatRange.over (offset : UInt64) (base size : Int) : FlatRange :=
  { fr with offsetInRegion := offset, addr := addrrangeMake base size }

@[simp] theorem FlatRange.over_addr (offset : UInt64) (base size : Int) :
    (fr.over offset base size).addr = addrrangeMake base size := rfl

@[simp] theorem FlatRange.over_offsetInRegion (offset : UInt64) (base size : Int) :
    (fr.over offset base size).offsetInRegion = offset := rfl

@[simp] theorem FlatRange.over_mr (offset : UInt64) (base size : Int) : (fr.over offset base size).mr = fr.mr :=
  rfl

@[simp] theorem FlatRange.over_romdMode (offset : UInt64) (base size : Int) :
    (fr.over offset base size).romdMode = fr.romdMode := rfl

@[simp] theorem FlatRange.over_dirtyLogMask (offset : UInt64) (base size : Int) :
    (fr.over offset base size).dirtyLogMask = fr.dirtyLogMask := rfl

theorem lookup_over (offset : UInt64) (base size a : Int) :
    lookup [fr.over offset base size] a =
      if base ≤ a ∧ a < base + size then
        some ⟨fr.mr, offset.toNat + (a - base), fr.readonly, fr.nonvolatile, fr.unmergeable⟩
      else none := by
  rw [lookup_singleton]
  rfl

/-- A range the loop inserts: `fr` over part of `[base, base + remain)`. -/
def PieceOf (base remain : Int) (r : FlatRange) : Prop :=
  r = fr.over r.offsetInRegion r.addr.start r.addr.size ∧ base ≤ r.addr.start ∧
    r.addr.start + r.addr.size ≤ base + remain

theorem pieceOf_mono {base remain base' remain' : Int} {r : FlatRange} (h : PieceOf fr base' remain' r)
    (hb : base ≤ base') (he : base' + remain' ≤ base + remain) : PieceOf fr base remain r :=
  ⟨h.1, by have := h.2.1; omega, by have := h.2.2; omega⟩

/-- The loop moved from `(base, remain, offset)` to `(base', remain', offset')`
along one range: the end stays, and while something remains the offset
moves with the base. The offset plus what remains never passes 2^64, so
the `hwaddr` offset has not wrapped. -/
structure Advance (base remain : Int) (offset : UInt64) (base' remain' : Int) (offset' : UInt64) : Prop where
  base_le : base ≤ base'
  remain_nonneg : 0 ≤ remain'
  end_eq : base' + remain' = base + remain
  fits : (offset'.toNat : Int) + remain' ≤ 2 ^ 64
  offset_eq : 0 < remain' → (offset'.toNat : Int) = offset.toNat + (base' - base)

theorem Advance.refl {base remain : Int} {offset : UInt64} (h₀ : 0 ≤ remain)
    (hfit : (offset.toNat : Int) + remain ≤ 2 ^ 64) : Advance base remain offset base remain offset :=
  ⟨le_rfl, h₀, rfl, hfit, fun _ => by omega⟩

theorem Advance.trans {b₀ r₀ b₁ r₁ b₂ r₂ : Int} {o₀ o₁ o₂ : UInt64} (h₁ : Advance b₀ r₀ o₀ b₁ r₁ o₁)
    (h₂ : Advance b₁ r₁ o₁ b₂ r₂ o₂) : Advance b₀ r₀ o₀ b₂ r₂ o₂ := by
  obtain ⟨hb₁, hr₁, he₁, hf₁, ho₁⟩ := h₁
  obtain ⟨hb₂, hr₂, he₂, hf₂, ho₂⟩ := h₂
  refine ⟨by omega, hr₂, by omega, hf₂, fun hpos => ?_⟩
  -- something still remains after the second move, so also after the first
  have h₁' := ho₁ (by omega)
  have h₂' := ho₂ hpos
  omega

/-- One step of `now` along the range: `base += now`, `remain -= now`,
`offset_in_region += int128_get64(now)`. -/
theorem Advance.step {base remain now : Int} {offset n : UInt64} (hfit : (offset.toNat : Int) + remain ≤ 2 ^ 64)
    (h₀ : 0 ≤ now) (hle : now ≤ remain) (hn : int128Get64 now = some n) :
    Advance base remain offset (base + now) (remain - now) (offset + n) := by
  have hn' := int128Get64_toNat hn
  refine ⟨by omega, by omega, by omega, ?_, fun hpos => ?_⟩
  · rw [UInt64.toNat_add]
    have := Nat.mod_le (offset.toNat + n.toNat) (2 ^ 64)
    push_cast
    omega
  · -- the sum stays below 2^64 while something remains
    rw [UInt64.toNat_add, Nat.mod_eq_of_lt (by omega)]
    push_cast
    omega

theorem lookup_over_advance {base remain base' remain' : Int} {offset offset' : UInt64}
    (h : Advance base remain offset base' remain' offset') {a : Int} (ha : base' ≤ a) :
    lookup [fr.over offset' base' remain'] a = lookup [fr.over offset base remain] a := by
  rw [lookup_over, lookup_over]
  by_cases hin : a < base' + remain'
  · have ho := h.offset_eq (by omega)
    rw [if_pos ⟨ha, hin⟩, if_pos ⟨by have := h.base_le; omega, by have := h.end_eq; omega⟩]
    congr 2
    omega
  · rw [if_neg (by omega), if_neg (by have := h.end_eq; omega)]

theorem lookup_over_of_lt {offset : UInt64} {base size a : Int} (ha : a < base) :
    lookup [fr.over offset base size] a = none := by
  rw [lookup_over, if_neg (by omega)]

theorem ordered_over {offset : UInt64} {base size : Int} (h : 0 < size) : Ordered [fr.over offset base size] :=
  ordered_cons_iff.mpr ⟨by simp only [FlatRange.over_addr, addrrangeMake_start, addrrangeMake_size]; omega,
    by simp, IntervalList.ordered_nil _ _⟩

theorem pieceOf_over {offset : UInt64} {base remain base' size : Int} (hb : base ≤ base')
    (he : base' + size ≤ base + remain) : PieceOf fr base remain (fr.over offset base' size) :=
  ⟨rfl, hb, he⟩

/-- **The first half of a step of the loop**: where `base` is below `r`,
the piece of the range up to `r` is rendered and the state moves past
it. -/
theorem renderGap_spec {r : FlatRange} {base remain : Int} {offset : UInt64} {gap : List FlatRange}
    {base' remain' : Int} {offset' : UInt64}
    (h : renderGap fr r base remain offset = some (gap, base', remain', offset'))
    (hpos : 0 < remain) (hfit : (offset.toNat : Int) + remain ≤ 2 ^ 64) :
    Advance base remain offset base' remain' offset' ∧ base' ≤ max base r.addr.start ∧
      (base < base' → base' ≤ r.addr.start) ∧ (0 < remain' → r.addr.start ≤ base') ∧ Ordered gap ∧
      (∀ g ∈ gap, PieceOf fr base remain g ∧ g.addr.start + g.addr.size ≤ r.addr.start) ∧
      ∀ a, lookup gap a = if a < base' then lookup [fr.over offset base remain] a else none := by
  unfold renderGap at h
  split at h
  · rename_i hlt
    simp only [Option.bind_eq_bind, Option.bind_eq_some_iff, Option.pure_def, Option.some.injEq,
      Prod.mk.injEq] at h
    obtain ⟨n, hn, rfl, rfl, rfl, rfl⟩ := h
    have hnow : 0 < min remain (r.addr.start - base) := by omega
    refine ⟨Advance.step hfit hnow.le (min_le_left _ _) hn, by omega, fun _ => by omega, fun _ => by omega,
      ordered_over fr hnow, fun g hg => ?_, fun a => ?_⟩
    · rw [List.mem_singleton] at hg
      subst hg
      refine ⟨pieceOf_over fr le_rfl (by omega), ?_⟩
      simp only [addrrangeMake_start, addrrangeMake_size]
      omega
    · -- the piece agrees with the whole range below `base + now`
      change lookup [fr.over offset base (min remain (r.addr.start - base))] a = _
      rw [lookup_over, lookup_over]
      split_ifs <;> first | rfl | omega
  · rename_i hge
    simp only [Option.pure_def, Option.some.injEq, Prod.mk.injEq] at h
    obtain ⟨rfl, rfl, rfl, rfl⟩ := h
    refine ⟨Advance.refl hpos.le hfit, by omega, fun h => absurd h (lt_irrefl _), fun _ => by omega,
      IntervalList.ordered_nil _ _, by simp, fun a => ?_⟩
    rw [lookup_nil]
    split_ifs with ha
    · exact (lookup_over_of_lt fr ha).symm
    · rfl

/-- **The gap loop**: what it returns is ordered, every range of it that
is new is a piece of the range it renders, and its map is the view's map
over the map of that range. -/
theorem renderGaps_spec : ∀ (rs : List FlatRange) (base remain : Int) (offset : UInt64) (rs' : List FlatRange),
    renderGaps fr rs base remain offset = some rs' → Ordered rs → 0 ≤ remain →
    (offset.toNat : Int) + remain ≤ 2 ^ 64 →
    Ordered rs' ∧ (∀ r ∈ rs', r ∈ rs ∨ PieceOf fr base remain r) ∧
      ∀ a, lookup rs' a = (lookup rs a).or (lookup [fr.over offset base remain] a)
  | [], base, remain, offset, rs', h, _, h₀, _ => by
    rw [renderGaps] at h
    by_cases hz : remain = 0
    · -- nothing remains, nothing is inserted
      rw [if_neg (not_not.mpr hz), Option.some.injEq] at h
      subst h
      refine ⟨IntervalList.ordered_nil _ _, by simp, fun a => ?_⟩
      rw [lookup_over, if_neg (by omega)]
      rfl
    · -- the loop ran off the end: the rest of the range goes last
      rw [if_pos hz, Option.some.injEq] at h
      subst h
      refine ⟨ordered_over fr (by omega), fun r hr => .inr ?_, fun a => ?_⟩
      · rw [List.mem_singleton] at hr
        subst hr
        exact pieceOf_over fr le_rfl le_rfl
      · rw [lookup_nil, Option.none_or]
        rfl
  | r :: rs, base, remain, offset, rs', h, hord, h₀, hfit => by
    obtain ⟨hr, hafter, hrs⟩ := ordered_cons_iff.mp hord
    rw [renderGaps] at h
    by_cases hz : remain = 0
    · -- the loop stops: nothing remains
      rw [if_pos hz, Option.some.injEq] at h
      subst h
      refine ⟨hord, fun x hx => .inl hx, fun a => ?_⟩
      rw [lookup_over, if_neg (by omega), Option.or_none]
    rw [if_neg hz] at h
    by_cases hpast : base ≥ addrrangeEnd r.addr
    · -- `r` ends at or before `base`: the loop steps over it
      rw [if_pos hpast] at h
      obtain ⟨rest, hrest, rfl⟩ := Option.map_eq_some_iff.mp h
      obtain ⟨hord', hpieces, hmap⟩ := renderGaps_spec rs base remain offset rest hrest hrs h₀ hfit
      have hpast' : r.addr.start + r.addr.size ≤ base := hpast
      refine ⟨ordered_cons_iff.mpr ⟨hr, fun y hy => ?_, hord'⟩, fun x hx => ?_, fun a => ?_⟩
      · rcases hpieces y hy with hy | hy
        · exact hafter y hy
        · have := hy.2.1
          omega
      · rcases List.mem_cons.mp hx with rfl | hx
        · exact .inl List.mem_cons_self
        · exact (hpieces x hx).imp (List.mem_cons_of_mem r) id
      · rw [lookup_cons, lookup_cons, hmap, Option.or_assoc]
    rw [if_neg hpast] at h
    simp only [Option.bind_eq_bind, Option.bind_eq_some_iff] at h
    obtain ⟨⟨gap, b₁, r₁, o₁⟩, hgap, h⟩ := h
    dsimp only at h
    obtain ⟨n, hn, rest, hrest, h⟩ := h
    rw [Option.pure_def, Option.some.injEq] at h
    subst h
    have hbr : base < r.addr.start + r.addr.size := not_le.mp hpast
    obtain ⟨hadv₁, hb₁, hgapend, hreach, hgapord, hgappieces, hgapmap⟩ :=
      renderGap_spec fr hgap (by omega) hfit
    -- then over `r`: `now` reaches the end of `r` or of the range
    have hend : addrrangeEnd r.addr = r.addr.start + r.addr.size := rfl
    generalize hnow : min (b₁ + r₁) (addrrangeEnd r.addr) - b₁ = now at hn hrest
    have hr₁ := hadv₁.remain_nonneg
    have hnow₀ : 0 ≤ now := by omega
    have hnowle : now ≤ r₁ := by omega
    have hadv₂ : Advance b₁ r₁ o₁ (b₁ + now) (r₁ - now) (o₁ + n) := Advance.step hadv₁.fits hnow₀ hnowle hn
    have hadv := hadv₁.trans hadv₂
    have hatend : 0 < r₁ - now → b₁ + now = r.addr.start + r.addr.size := fun _ => by omega
    obtain ⟨hord', hpieces, hmap⟩ :=
      renderGaps_spec rs (b₁ + now) (r₁ - now) (o₁ + n) rest hrest hrs hadv₂.remain_nonneg hadv₂.fits
    -- every range after `r` starts at or after its end
    have hafter' : ∀ y ∈ rest, r.addr.start + r.addr.size ≤ y.addr.start := by
      intro y hy
      rcases hpieces y hy with hy' | hy'
      · exact hafter y hy'
      · -- a new range: something remained past `r`, so the loop stood at its end
        have hne : y.addr.start < y.addr.start + y.addr.size := hord'.1 y hy
        have := hy'.2.1
        have := hy'.2.2
        have := hatend (by omega)
        omega
    refine ⟨?_, fun x hx => ?_, fun a => ?_⟩
    · refine ordered_append_iff.mpr ⟨hgapord, ordered_cons_iff.mpr ⟨hr, hafter', hord'⟩, ?_⟩
      intro g hg y hy
      have hg' := (hgappieces g hg).2
      rcases List.mem_cons.mp hy with rfl | hy
      · exact hg'
      · have := hafter' y hy
        omega
    · rcases List.mem_append.mp hx with hx | hx
      · exact .inr (hgappieces x hx).1
      rcases List.mem_cons.mp hx with rfl | hx
      · exact .inl List.mem_cons_self
      rcases hpieces x hx with hx | hx
      · exact .inl (List.mem_cons_of_mem r hx)
      · exact .inr (pieceOf_mono fr hx hadv.base_le (le_of_eq hadv.end_eq))
    · rw [lookup_append, lookup_cons, lookup_cons, hmap a, hgapmap a]
      by_cases ha : a < b₁
      · rw [if_pos ha, lookup_over_of_lt fr (show a < b₁ + now by omega)]
        by_cases hw : base ≤ a
        · -- the gap holds `a`, so nothing of `r :: rs` does
          have hlt : a < r.addr.start := by
            have := hgapend (by omega)
            omega
          have hnone : lookup rs a = none := lookup_eq_none_of_lt fun y hy => by
            have := hafter y hy
            omega
          rw [if_neg (by omega), hnone]
          simp
        · rw [lookup_over_of_lt fr (show a < base by omega)]
          simp
      · rw [if_neg ha, Option.none_or]
        by_cases hb : b₁ + now ≤ a
        · rw [lookup_over_advance fr hadv hb, Option.or_assoc]
        · -- `a` lies in `r`, which hides the range there
          have hpos : 0 < r₁ := by omega
          have := hreach hpos
          have hin : r.addr.start ≤ a ∧ a < r.addr.start + r.addr.size := by omega
          rw [if_pos hin]
          rfl

/-! ### When the loop aborts -/

/-- The view has a range over all of `[0, 2^64)`. -/
def Full (view : List FlatRange) : Prop :=
  ∃ r ∈ view, r.addr.start = 0 ∧ r.addr.size = 2 ^ 64

theorem renderGap_isSome {r : FlatRange} {base remain : Int} (offset : UInt64) (h₀ : 0 ≤ base)
    (hrem : 0 ≤ remain) (hr : r.addr.start < 2 ^ 64) : ∃ x, renderGap fr r base remain offset = some x := by
  unfold renderGap
  split
  · obtain ⟨n, hn, -⟩ := int128Get64_of_lt (a := min remain (r.addr.start - base)) (by omega) (by omega)
    simp only [Option.bind_eq_bind, hn, Option.bind_some]
    exact ⟨_, rfl⟩
  · exact ⟨_, rfl⟩

/-- **The loop runs to its end** unless all of `[0, 2^64)` remains over a
view with a range over all of it; and a range over all of it comes out
only if one went in, or the loop rendered all of it. -/
theorem renderGaps_isSome : ∀ (rs : List FlatRange) (base remain : Int) (offset : UInt64),
    Ordered rs → (∀ r ∈ rs, 0 ≤ r.addr.start ∧ r.addr.start + r.addr.size ≤ 2 ^ 64) →
    0 ≤ base → 0 ≤ remain → base + remain ≤ 2 ^ 64 → (offset.toNat : Int) + remain ≤ 2 ^ 64 →
    (remain = 2 ^ 64 → ¬Full rs) →
    ∃ rs', renderGaps fr rs base remain offset = some rs' ∧ (Full rs' → Full rs ∨ remain = 2 ^ 64)
  | [], base, remain, offset, _, _, _, _, _, _, _ => by
    rw [renderGaps]
    by_cases hz : remain = 0
    · rw [if_neg (not_not.mpr hz)]
      exact ⟨[], rfl, fun ⟨_, hr, _⟩ => absurd hr List.not_mem_nil⟩
    · rw [if_pos hz]
      refine ⟨_, rfl, fun ⟨r, hr, hs, hsize⟩ => .inr ?_⟩
      rw [List.mem_singleton] at hr
      subst hr
      exact hsize
  | r :: rs, base, remain, offset, hord, hbound, h₀, hrem, hend, hfit, hnotfull => by
    obtain ⟨hr, hafter, hrs⟩ := ordered_cons_iff.mp hord
    have hbr := hbound r List.mem_cons_self
    have hbound' : ∀ y ∈ rs, 0 ≤ y.addr.start ∧ y.addr.start + y.addr.size ≤ 2 ^ 64 :=
      fun y hy => hbound y (List.mem_cons_of_mem r hy)
    -- a full range among the ranges after `r` is a full range of the view
    have hfull_rs : Full rs → Full (r :: rs) := fun ⟨y, hy, hfy⟩ => ⟨y, List.mem_cons_of_mem r hy, hfy⟩
    rw [renderGaps]
    by_cases hz : remain = 0
    · rw [if_pos hz]
      exact ⟨_, rfl, .inl⟩
    rw [if_neg hz]
    by_cases hpast : base ≥ addrrangeEnd r.addr
    · rw [if_pos hpast]
      obtain ⟨rest, hrest, hfull⟩ := renderGaps_isSome rs base remain offset hrs hbound' h₀ hrem hend hfit
        fun h hf => hnotfull h (hfull_rs hf)
      rw [hrest]
      refine ⟨_, rfl, fun ⟨y, hy, hfy⟩ => ?_⟩
      rcases List.mem_cons.mp hy with rfl | hy
      · exact .inl ⟨y, List.mem_cons_self, hfy⟩
      · exact (hfull ⟨y, hy, hfy⟩).imp_left hfull_rs
    rw [if_neg hpast]
    have hbr' : base < r.addr.start + r.addr.size := not_le.mp hpast
    obtain ⟨⟨gap, b₁, r₁, o₁⟩, hgap⟩ := renderGap_isSome fr offset h₀ hrem (r := r) (by omega)
    obtain ⟨hadv₁, hb₁, hgapend, hreach, -, hgappieces, -⟩ := renderGap_spec fr hgap (by omega) hfit
    have hr₁ := hadv₁.remain_nonneg
    have he₁ := hadv₁.end_eq
    have hbb₁ := hadv₁.base_le
    generalize hnow : min (b₁ + r₁) (addrrangeEnd r.addr) - b₁ = now
    have hendr : addrrangeEnd r.addr = r.addr.start + r.addr.size := rfl
    -- the step over `r` is below 2^64: it is 2^64 only over a full `r` with all of the space remaining
    have hnowlt : now < 2 ^ 64 := by
      by_contra hge
      have hr₁pos : 0 < r₁ := by omega
      have := hreach hr₁pos
      exact hnotfull (by omega) ⟨r, List.mem_cons_self, by omega, by omega⟩
    obtain ⟨n, hn, -⟩ := int128Get64_of_lt (a := now) (by omega) hnowlt
    have hadv₂ : Advance b₁ r₁ o₁ (b₁ + now) (r₁ - now) (o₁ + n) :=
      Advance.step hadv₁.fits (by omega) (by omega) hn
    have hrestlt : r₁ - now < 2 ^ 64 := by omega
    obtain ⟨rest, hrest, hfull⟩ := renderGaps_isSome rs (b₁ + now) (r₁ - now) (o₁ + n) hrs hbound' (by omega)
      hadv₂.remain_nonneg (by omega) hadv₂.fits (fun h => absurd h (ne_of_lt hrestlt))
    simp only [Option.bind_eq_bind, hgap, Option.bind_some, hnow, hn, hrest]
    refine ⟨_, rfl, fun ⟨y, hy, hfy⟩ => ?_⟩
    rcases List.mem_append.mp hy with hy | hy
    · -- a full piece of the gap: the whole space remained
      have := (hgappieces y hy).1.2
      exact .inr (by omega)
    rcases List.mem_cons.mp hy with rfl | hy
    · exact .inl ⟨y, List.mem_cons_self, hfy⟩
    · rcases hfull ⟨y, hy, hfy⟩ with h | h
      · exact .inl (hfull_rs h)
      · exact absurd h (ne_of_lt hrestlt)

end Gaps

/-! ## Rendering a region -/

theorem or_ite_or {α : Type} (o : Option α) (c : Bool) (x y : Option α) :
    (o.or (if c then x else none)).or (if c then y else none) = o.or (if c then x.or y else none) := by
  cases c <;> simp [Option.or_assoc]

section Render

variable (g : MemoryRegion → UInt8)

/-- **The region itself, into the gaps**: a terminating region rendered
within `clip` adds itself, at offset `a - base`, where the view has
nothing. -/
theorem renderTerminating_spec {view : List FlatRange} {mr : MemoryRegion} {base : Int} {clip : AddrRange}
    {readonly nonvolatile unmergeable : Bool} {view' : List FlatRange}
    (h : renderTerminating g view mr base clip readonly nonvolatile unmergeable = some view')
    (hwf : Wellformed g view) (hclip : Within clip) (hhi : clip.start + clip.size ≤ base + mr.size) :
    Wellformed g view' ∧ ∀ a, lookup view' a = (lookup view a).or
      (if addrrangeContains clip a then some ⟨mr, a - base, readonly, nonvolatile, unmergeable⟩ else none) := by
  unfold renderTerminating at h
  simp only [Option.bind_eq_bind, Option.bind_eq_some_iff] at h
  obtain ⟨offset, hoff, h⟩ := h
  have hoff' := int128Get64_toNat hoff
  obtain ⟨hclip₀, hsize, hend⟩ := hclip
  have hmr := mr.size_le
  generalize hfr :
      ({ mr := mr, offsetInRegion := 0, addr := clip, dirtyLogMask := g mr, romdMode := mr.romdMode,
          readonly := readonly, nonvolatile := nonvolatile, unmergeable := unmergeable } : FlatRange) = fr at h
  obtain ⟨hord, hpieces, hmap⟩ :=
    renderGaps_spec fr view clip.start clip.size offset view' h hwf.ordered hsize (by omega)
  refine ⟨⟨hord, fun r hr => ?_, fun r hr => ?_, fun r hr => ?_⟩, fun a => ?_⟩
  · rcases hpieces r hr with hr | ⟨-, hs, he⟩
    · exact hwf.bounded r hr
    · omega
  · rcases hpieces r hr with hr | ⟨hp, -, -⟩
    · exact hwf.romdMode r hr
    · rw [hp, FlatRange.over_romdMode, FlatRange.over_mr, ← hfr]
  · rcases hpieces r hr with hr | ⟨hp, -, -⟩
    · exact hwf.dirtyLogMask r hr
    · rw [hp, FlatRange.over_dirtyLogMask, FlatRange.over_mr, ← hfr]
  · rw [hmap a, lookup_over, ← hfr]
    congr 1
    by_cases ha : clip.start ≤ a ∧ a < clip.start + clip.size
    · rw [if_pos ha, if_pos ((addrrangeContains_iff clip a).mpr ha)]
      congr 2
      omega
    · rw [if_neg ha, if_neg (by rw [addrrangeContains_iff]; exact ha)]

mutual

/-- **Rendering a region** within `clip` puts the map `resolve` reads off
it, within the clip, under the view's map. -/
theorem renderMemoryRegion_spec : ∀ (mr : MemoryRegion) (view : List FlatRange) (base : Int) (clip : AddrRange)
    (readonly nonvolatile unmergeable : Bool) (view' : List FlatRange),
    renderMemoryRegion g view mr base clip readonly nonvolatile unmergeable = some view' →
    Wellformed g view → Within clip →
    Wellformed g view' ∧ ∀ a, lookup view' a = (lookup view a).or
      (if addrrangeContains clip a then resolve mr base readonly nonvolatile unmergeable a else none)
  | ⟨romdMode, ro, nv, um, size, hsize, addr, terminates, enabled, aliasOf, aliasOffset, priority, subregions, ptr⟩,
      view, base, clip, readonly, nonvolatile, unmergeable, view', h, hwf, hclip => by
    rw [renderMemoryRegion] at h
    dsimp only at h
    cases enabled with
    | false =>
      -- a disabled region renders nothing and resolves nothing
      rw [if_pos (show (!false) = true from rfl), Option.some.injEq] at h
      subst h
      refine ⟨hwf, fun a => ?_⟩
      rw [resolve_eq]
      simp only [Bool.false_eq_true, false_and, if_false, ite_self, Option.or_none]
    | true =>
      rw [if_neg (show ¬(!true) = true from Bool.false_ne_true)] at h
      by_cases hint : addrrangeIntersects (addrrangeMake (base + addr.toNat) size) clip = true
      · rw [if_neg (by simp [hint])] at h
        have hclip' := within_intersection hclip (by simp only [addrrangeMake_size]; omega) hint
        -- `a` is in the new clip where it is in the region and in the old clip
        have hin : ∀ a, addrrangeContains (addrrangeIntersection (addrrangeMake (base + addr.toNat) size) clip) a =
            true ↔ (base + addr.toNat ≤ a ∧ a < base + addr.toNat + size) ∧ addrrangeContains clip a = true := by
          intro a
          rw [addrrangeContains_intersection, Bool.and_eq_true, addrrangeContains_iff, addrrangeMake_start,
            addrrangeMake_size]
        cases aliasOf with
        | some al =>
          obtain ⟨hwf', hmap⟩ := renderMemoryRegion_spec al view _ _ _ _ _ view' h hwf hclip'
          refine ⟨hwf', fun a => ?_⟩
          rw [hmap a]
          conv_rhs => rw [resolve_eq]
          congr 1
          by_cases hc : addrrangeContains clip a = true
          · by_cases ht : base + addr.toNat ≤ a ∧ a < base + addr.toNat + size
            · rw [if_pos ((hin a).mpr ⟨ht, hc⟩), if_pos hc, if_pos ⟨rfl, ht⟩]
            · rw [if_neg (fun h => ht ((hin a).mp h).1), if_pos hc, if_neg (fun h => ht h.2)]
          · rw [if_neg (fun h => hc ((hin a).mp h).2), if_neg hc]
        | none =>
          simp only [Option.bind_eq_bind, Option.bind_eq_some_iff] at h
          obtain ⟨view₁, h₁, h₂⟩ := h
          obtain ⟨hwf₁, hmap₁⟩ := renderSubregions_spec subregions view _ _ _ _ _ view₁ h₁ hwf hclip'
          -- the subregions' map, and under it the region's own where it terminates
          have hresolve : ∀ a, (if addrrangeContains clip a then
              resolve ⟨romdMode, ro, nv, um, size, hsize, addr, terminates, true, none, aliasOffset, priority,
                subregions, ptr⟩ base readonly nonvolatile unmergeable a else none) =
              if addrrangeContains (addrrangeIntersection (addrrangeMake (base + addr.toNat) size) clip) a then
                (resolveSubregions subregions (base + addr.toNat) (readonly || ro) (nonvolatile || nv)
                  (unmergeable || um) a).or
                  (if terminates then some ⟨⟨romdMode, ro, nv, um, size, hsize, addr, terminates, true, none,
                    aliasOffset, priority, subregions, ptr⟩, a - (base + addr.toNat), readonly || ro, nonvolatile || nv,
                    unmergeable || um⟩ else none)
              else none := by
            intro a
            rw [resolve_eq]
            by_cases hc : addrrangeContains clip a = true
            · by_cases ht : base + addr.toNat ≤ a ∧ a < base + addr.toNat + size
              · rw [if_pos ((hin a).mpr ⟨ht, hc⟩), if_pos hc, if_pos ⟨rfl, ht⟩]
              · rw [if_neg (fun h => ht ((hin a).mp h).1), if_pos hc, if_neg (fun h => ht h.2)]
            · rw [if_neg (fun h => hc ((hin a).mp h).2), if_neg hc]
          cases terminates with
          | false =>
            rw [if_pos (show (!false) = true from rfl), Option.some.injEq] at h₂
            subst h₂
            refine ⟨hwf₁, fun a => ?_⟩
            rw [hmap₁ a, hresolve a]
            simp only [Bool.false_eq_true, if_false, Option.or_none]
          | true =>
            rw [if_neg (show ¬(!true) = true from Bool.false_ne_true)] at h₂
            -- the region's clip lies within the region
            have hhi : (addrrangeIntersection (addrrangeMake (base + addr.toNat) size) clip).start +
                (addrrangeIntersection (addrrangeMake (base + addr.toNat) size) clip).size ≤
                  base + addr.toNat + size := by
              simp only [addrrangeIntersection_start, addrrangeIntersection_size, addrrangeMake_start,
                addrrangeMake_size]
              omega
            obtain ⟨hwf', hmap'⟩ := renderTerminating_spec g h₂ hwf₁ hclip' hhi
            refine ⟨hwf', fun a => ?_⟩
            rw [hmap' a, hmap₁ a, or_ite_or, hresolve a, if_pos rfl]
      · rw [if_pos (by simpa using hint), Option.some.injEq] at h
        subst h
        refine ⟨hwf, fun a => ?_⟩
        -- the region lies outside the clip
        have hout := not_contains_of_not_intersects (Bool.eq_false_iff.mpr hint) a
        rw [resolve_eq]
        by_cases hc : addrrangeContains clip a = true
        · rw [hc, Bool.and_true, Bool.eq_false_iff, ne_eq, addrrangeContains_iff, addrrangeMake_start,
            addrrangeMake_size] at hout
          rw [if_pos hc, if_neg (fun h => hout h.2), Option.or_none]
        · rw [if_neg hc, Option.or_none]

/-- The subregions in order: each one's map under the ones before it. -/
theorem renderSubregions_spec : ∀ (subregions : List MemoryRegion) (view : List FlatRange) (base : Int)
    (clip : AddrRange) (readonly nonvolatile unmergeable : Bool) (view' : List FlatRange),
    renderSubregions g view subregions base clip readonly nonvolatile unmergeable = some view' →
    Wellformed g view → Within clip →
    Wellformed g view' ∧ ∀ a, lookup view' a = (lookup view a).or
      (if addrrangeContains clip a then resolveSubregions subregions base readonly nonvolatile unmergeable a
        else none)
  | [], view, base, clip, readonly, nonvolatile, unmergeable, view', h, hwf, _ => by
    rw [renderSubregions, Option.some.injEq] at h
    subst h
    refine ⟨hwf, fun a => ?_⟩
    rw [resolveSubregions_nil, ite_self, Option.or_none]
  | subregion :: rest, view, base, clip, readonly, nonvolatile, unmergeable, view', h, hwf, hclip => by
    rw [renderSubregions] at h
    simp only [Option.bind_eq_bind, Option.bind_eq_some_iff] at h
    obtain ⟨view₁, h₁, h₂⟩ := h
    obtain ⟨hwf₁, hmap₁⟩ :=
      renderMemoryRegion_spec subregion view base clip readonly nonvolatile unmergeable view₁ h₁ hwf hclip
    obtain ⟨hwf₂, hmap₂⟩ :=
      renderSubregions_spec rest view₁ base clip readonly nonvolatile unmergeable view' h₂ hwf₁ hclip
    refine ⟨hwf₂, fun a => ?_⟩
    rw [hmap₂ a, hmap₁ a, or_ite_or, resolveSubregions_cons]

end

/-! ## When rendering aborts -/

mutual

/-- The regions that terminate and span all 2^64 addresses, as rendering
reaches them from `mr`: a region reached along two paths counts twice. -/
def fullTerminators : MemoryRegion → Nat
  | mr@{ aliasOf := aliasOf, subregions := subregions, .. } =>
    if mr.enabled then
      match aliasOf with
      | some al => fullTerminators al
      | none => fullTerminatorsList subregions + if mr.terminates ∧ mr.size = 2 ^ 64 then 1 else 0
    else 0

def fullTerminatorsList : List MemoryRegion → Nat
  | [] => 0
  | subregion :: rest => fullTerminators subregion + fullTerminatorsList rest

end

theorem fullTerminators_eq (mr : MemoryRegion) :
    fullTerminators mr =
      if mr.enabled then
        match mr.aliasOf with
        | some al => fullTerminators al
        | none => fullTerminatorsList mr.subregions + if mr.terminates ∧ mr.size = 2 ^ 64 then 1 else 0
      else 0 := by
  obtain ⟨_, _, _, _, _, _, _, _, _, aliasOf, _, _, _, _⟩ := mr
  cases aliasOf <;> rw [fullTerminators]

theorem renderTerminating_isSome {view : List FlatRange} {mr : MemoryRegion} {base : Int} {clip : AddrRange}
    (readonly nonvolatile unmergeable : Bool) (hwf : Wellformed g view) (hclip : Within clip)
    (hlo : base ≤ clip.start) (hstart : clip.start - base < 2 ^ 64)
    (hhi : clip.start + clip.size ≤ base + mr.size) (hnotfull : clip.size = 2 ^ 64 → ¬Full view) :
    ∃ view', renderTerminating g view mr base clip readonly nonvolatile unmergeable = some view' ∧
      (Full view' → Full view ∨ clip.size = 2 ^ 64) := by
  obtain ⟨offset, hoff, hoff'⟩ := int128Get64_of_lt (a := clip.start - base) (by omega) hstart
  obtain ⟨h₀, hsize, hend⟩ := hclip
  have hmr := mr.size_le
  unfold renderTerminating
  simp only [Option.bind_eq_bind, hoff, Option.bind_some]
  exact renderGaps_isSome _ view clip.start clip.size offset hwf.ordered hwf.bounded h₀ hsize hend
    (by omega) hnotfull

mutual

/-- **Rendering runs to its end** where at most one region that
terminates and spans the whole space is reached, and none if the view
already has a range over all of it. -/
theorem renderMemoryRegion_total : ∀ (mr : MemoryRegion) (view : List FlatRange) (base : Int) (clip : AddrRange)
    (readonly nonvolatile unmergeable : Bool), Wellformed g view → Within clip →
    fullTerminators mr ≤ 1 → (Full view → fullTerminators mr = 0) →
    ∃ view', renderMemoryRegion g view mr base clip readonly nonvolatile unmergeable = some view' ∧
      (Full view' → Full view ∨ 1 ≤ fullTerminators mr)
  | ⟨romdMode, ro, nv, um, size, hsize, addr, terminates, enabled, aliasOf, aliasOffset, priority, subregions, ptr⟩,
      view, base, clip, readonly, nonvolatile, unmergeable, hwf, hclip, hone, hfull => by
    rw [renderMemoryRegion]
    rw [fullTerminators_eq] at hone hfull ⊢
    cases enabled with
    | false => exact ⟨view, rfl, .inl⟩
    | true =>
      rw [if_neg (show ¬(!true) = true from Bool.false_ne_true)]
      rw [if_pos rfl] at hone hfull ⊢
      by_cases hint : addrrangeIntersects (addrrangeMake (base + addr.toNat) size) clip = true
      · rw [if_neg (by simp [hint])]
        have hclip' := within_intersection hclip (by simp only [addrrangeMake_size]; omega) hint
        cases aliasOf with
        | some al =>
          exact renderMemoryRegion_total al view _ _ _ _ _ hwf hclip' hone hfull
        | none =>
          dsimp only at hone hfull ⊢
          obtain ⟨view₁, h₁, hfull₁⟩ := renderSubregions_total subregions view (base + addr.toNat) _
            (readonly || ro) (nonvolatile || nv) (unmergeable || um) hwf hclip' (by omega)
            (fun h => by have := hfull h; omega)
          have hwf₁ := (renderSubregions_spec g subregions view _ _ _ _ _ view₁ h₁ hwf hclip').1
          simp only [Option.bind_eq_bind, h₁, Option.bind_some]
          cases terminates with
          | false =>
            refine ⟨view₁, rfl, fun h => ?_⟩
            rcases hfull₁ h with h | h
            · exact .inl h
            · exact .inr (by omega)
          | true =>
            rw [if_neg (show ¬(!true) = true from Bool.false_ne_true)]
            simp only [addrrangeIntersects, Bool.or_eq_true, addrrangeContains_iff, addrrangeMake_start,
              addrrangeMake_size] at hint
            have hsize' := hsize
            -- the region's clip starts within the region, and ends within it
            have hlo : base + addr.toNat ≤ (addrrangeIntersection (addrrangeMake (base + addr.toNat) size) clip).start := by
              simp only [addrrangeIntersection_start, addrrangeMake_start]
              omega
            have hstart : (addrrangeIntersection (addrrangeMake (base + addr.toNat) size) clip).start -
                (base + addr.toNat) < 2 ^ 64 := by
              simp only [addrrangeIntersection_start, addrrangeMake_start]
              omega
            have hhi : (addrrangeIntersection (addrrangeMake (base + addr.toNat) size) clip).start +
                (addrrangeIntersection (addrrangeMake (base + addr.toNat) size) clip).size ≤
                  base + addr.toNat + size := by
              simp only [addrrangeIntersection_start, addrrangeIntersection_size, addrrangeMake_start,
                addrrangeMake_size]
              omega
            have hsizele : (addrrangeIntersection (addrrangeMake (base + addr.toNat) size) clip).size ≤ size := by
              simp only [addrrangeIntersection_size, addrrangeMake_start, addrrangeMake_size]
              omega
            -- a clip over the whole space means this region spans it, so nothing before it did
            obtain ⟨view', h', hfull'⟩ := @renderTerminating_isSome g _ ⟨romdMode, ro, nv, um, size, hsize,
              addr, true, true, none, aliasOffset, priority, subregions, ptr⟩ _ _ (readonly || ro) (nonvolatile || nv)
              (unmergeable || um) hwf₁ hclip' hlo hstart hhi (fun hc hf₁ => by
                have hs : size = 2 ^ 64 := by omega
                rw [if_pos ⟨rfl, hs⟩] at hone hfull
                rcases hfull₁ hf₁ with hf | hf
                · have := hfull hf
                  omega
                · omega)
            refine ⟨view', h', fun h => ?_⟩
            rcases hfull' h with h | h
            · rcases hfull₁ h with h | h
              · exact .inl h
              · exact .inr (by omega)
            · have hs : size = 2 ^ 64 := by omega
              rw [if_pos ⟨rfl, hs⟩]
              exact .inr (by omega)
      · rw [if_pos (by simpa using hint)]
        exact ⟨view, rfl, .inl⟩

theorem renderSubregions_total : ∀ (subregions : List MemoryRegion) (view : List FlatRange) (base : Int)
    (clip : AddrRange) (readonly nonvolatile unmergeable : Bool), Wellformed g view → Within clip →
    fullTerminatorsList subregions ≤ 1 → (Full view → fullTerminatorsList subregions = 0) →
    ∃ view', renderSubregions g view subregions base clip readonly nonvolatile unmergeable = some view' ∧
      (Full view' → Full view ∨ 1 ≤ fullTerminatorsList subregions)
  | [], view, _, _, _, _, _, _, _, _, _ => ⟨view, by rw [renderSubregions], .inl⟩
  | subregion :: rest, view, base, clip, readonly, nonvolatile, unmergeable, hwf, hclip, hone, hfull => by
    rw [fullTerminatorsList] at hone hfull ⊢
    obtain ⟨view₁, h₁, hfull₁⟩ := renderMemoryRegion_total subregion view base clip readonly nonvolatile
      unmergeable hwf hclip (by omega) (fun h => by have := hfull h; omega)
    have hwf₁ := (renderMemoryRegion_spec g subregion view _ _ _ _ _ view₁ h₁ hwf hclip).1
    -- a full range after the first subregion came from the view or from it
    obtain ⟨view₂, h₂, hfull₂⟩ := renderSubregions_total rest view₁ base clip readonly nonvolatile unmergeable
      hwf₁ hclip (by omega) (fun h => by
        rcases hfull₁ h with h | h
        · have := hfull h
          omega
        · omega)
    rw [renderSubregions]
    simp only [Option.bind_eq_bind, h₁, Option.bind_some]
    refine ⟨view₂, h₂, fun h => ?_⟩
    rcases hfull₂ h with h | h
    · rcases hfull₁ h with h | h
      · exact .inl h
      · exact .inr (by omega)
    · exact .inr (by omega)

end

end Render

end QemuFormal.Memory

/-
QemuFormal.Util.BufferIsZeroTheorems — every version of
`buffer_is_zero` reads only the buffer, and answers whether it is zero.

The buffer is `ByteMem.window buf bytes`, so a result `some r` means no
load left `[buf, buf + len)`, and `r = bytes.all (· == 0)`
means the loads cover it: a byte no load reads could be changed without
changing `r`. Both hold at every address `buf`, so for every alignment.

## How the proof goes

* A load, an `or` of units (`unitsOr_spec`) and the unaligned head, tail
  and partial block (`headTailOr_spec`) are zero exactly when their
  bytes are.
* The vector tests `movemask(cmpeq(v, 0)) == 0xFFFF` (and `0xFFFFFFFF`)
  are `v == 0` on a vector's value (`isZeroTest_movemask`).
* `blocksLoop_spec`: the block loop from `p` reads `[p, q)` for some `q`
  between `e - 7 * W` and `e`; `p` and `e` are aligned, which is what
  makes `p < e - 7` leave room for a whole block.
* `zeroOn_cover`: the head `[buf, buf + W)`, the blocks `[p, q)`, the
  partial block `[e - 7 * W, e)` and the tail `[buf + len - W, buf + len)`
  cover the buffer, because `p <= buf + W` and `e >= buf + len - W`.

`bufferZeroBlocks_exact` needs `len >= 10 * W` for the first block of
the `do ... while` to fit; at `W = 32` that is 320 bytes, so the AVX2
version's `for` loop, which tests `p < e - 7` before its first block, is
what lets it start at 256 (`bufferZeroAvx2_exact`).
-/
import QemuFormal.Util.BufferIsZero

namespace QemuFormal.BufferIsZero

open ByteMem

/-! ## The vector zero test -/

theorem movemaskCmpeqZero_le : ∀ n v, movemaskCmpeqZero n v ≤ 2 ^ n - 1
  | 0, _ => le_rfl
  | n + 1, v => by
    have ih := movemaskCmpeqZero_le n (v / 256)
    have hpow : 1 ≤ 2 ^ n := Nat.one_le_two_pow
    rw [movemaskCmpeqZero, Nat.pow_succ]
    split_ifs <;> omega

/-- All lanes compare equal to zero exactly when the low `n` bytes of
`v` are zero. -/
theorem movemaskCmpeqZero_eq_iff : ∀ n v, movemaskCmpeqZero n v = 2 ^ n - 1 ↔ v % 256 ^ n = 0
  | 0, v => by simp [movemaskCmpeqZero, Nat.mod_one]
  | n + 1, v => by
    have ih := movemaskCmpeqZero_eq_iff n (v / 256)
    have hle := movemaskCmpeqZero_le n (v / 256)
    have hpow : 1 ≤ 2 ^ n := Nat.one_le_two_pow
    -- the low byte, then the other `n` bytes
    have hmod : v % 256 ^ (n + 1) = v % 256 + 256 * (v / 256 % 256 ^ n) := by
      rw [Nat.pow_succ', Nat.mod_mul]
    rw [movemaskCmpeqZero, hmod, Nat.pow_succ]
    split_ifs with h0 <;> omega

/-- A test of a unit of `W` bytes for zero. -/
def IsZeroTest (W : Nat) (isZero : Nat → Bool) : Prop :=
  ∀ v < 2 ^ (8 * W), isZero v = true ↔ v = 0

theorem isZeroTest_eq_zero (W : Nat) : IsZeroTest W fun t => t == 0 := by
  intro v _
  simp

theorem isZeroTest_movemask (W : Nat) : IsZeroTest W fun v => movemaskCmpeqZero W v == 2 ^ W - 1 := by
  intro v hv
  have hmod : v % 256 ^ W = v := Nat.mod_eq_of_lt (by rwa [show (256 : Nat) = 2 ^ 8 from rfl, ← Nat.pow_mul])
  rw [beq_iff_eq, movemaskCmpeqZero_eq_iff, hmod]

/-- `isZero t` as a `decide`, for the results of the loops. -/
theorem isZeroTest_decide {W : Nat} {isZero : Nat → Bool} (hz : IsZeroTest W isZero) {v : Nat}
    (hv : v < 2 ^ (8 * W)) : isZero v = decide (v = 0) := by
  rw [Bool.eq_iff_iff, hz v hv, decide_eq_true_iff]

/-! ## Units -/

section Units

variable {mem : Nat → Option UInt8} {W : Nat}

/-- The `or` of `n` units from `p`, when their bytes are there: it is a
unit's worth of bits, and zero exactly when the bytes are. -/
theorem unitsOr_spec : ∀ (n p : Nat), (∀ x, p ≤ x → x < p + n * W → (mem x).isSome) →
    ∃ t, unitsOr mem W p n = some t ∧ t < 2 ^ (8 * W) ∧ (t = 0 ↔ ZeroOn mem p (p + n * W))
  | 0, p, _ => ⟨0, rfl, Nat.two_pow_pos _, by simp only [Nat.zero_mul, Nat.add_zero, true_iff]; intro x h1 h2; omega⟩
  | n + 1, p, h => by
    rw [Nat.succ_mul n W] at h ⊢
    obtain ⟨u, hu, hult⟩ := load_of_isSome W p fun x h1 h2 => h x h1 (by omega)
    obtain ⟨t, ht, htlt, htz⟩ := unitsOr_spec n (p + W) fun x h1 h2 => h x (by omega) (by omega)
    refine ⟨u ||| t, by rw [unitsOr, hu, Option.bind_some, ht, Option.map_some], Nat.or_lt_two_pow hult htlt, ?_⟩
    rw [Nat.or_eq_zero_iff, load_eq_zero_iff hu, htz, show p + (n * W + W) = p + W + n * W by omega,
      zeroOn_union (by omega) le_rfl (by omega)]

end Units

/-! ## The block loop -/

section Blocks

variable {mem : Nat → Option UInt8} {W : Nat} {isZero : Nat → Bool} {e lo : Nat}

/-- The `do ... while` over blocks of eight units from `p`, with the
first block inside `[p, e)`: it reads up to some `q` in
`[e - 7 * W, e]`, and finds them all zero exactly when `t` and the bytes
of `[p, q)` are. -/
theorem blocksLoop_spec (hW : 0 < W) (hz : IsZeroTest W isZero) (he : e % W = 0)
    (hdef : ∀ x, lo ≤ x → x < e → (mem x).isSome) :
    ∀ (fuel p t : Nat), p % W = 0 → lo ≤ p → p + 8 * W ≤ e → e - p < fuel → t < 2 ^ (8 * W) →
      ∃ q, e - 7 * W ≤ q ∧ q ≤ e ∧ blocksLoop mem W isZero e fuel p t = some (decide (t = 0 ∧ ZeroOn mem p q))
  | 0, _, _, _, _, _, hf, _ => absurd hf (Nat.not_lt_zero _)
  | fuel + 1, p, t, hp, hlo, hpe, hf, ht => by
    rw [blocksLoop]
    by_cases ht0 : isZero t = true
    · have htz : t = 0 := (hz t ht).1 ht0
      rw [if_neg (by simp [ht0])]
      -- the block at `p`
      obtain ⟨t', ht', ht'lt, ht'z⟩ := @unitsOr_spec mem W 8 p fun x h1 h2 => hdef x (by omega) (by omega)
      rw [ht', Option.bind_some]
      split_ifs with hmore
      · -- `p < e - 7`: the next block fits as well, by alignment
        have hnext : p + 8 * W + 8 * W ≤ e :=
          add_le_of_mod_eq_zero (by rw [Nat.add_mod, hp, Nat.mul_mod_left]; simp) he (by omega)
        obtain ⟨q, hq1, hq2, hq⟩ := blocksLoop_spec hW hz he hdef fuel (p + 8 * W) t'
          (by rw [Nat.add_mod, hp, Nat.mul_mod_left]; simp) (by omega) hnext (by omega) ht'lt
        have hu : ZeroOn mem p (p + 8 * W) ∧ ZeroOn mem (p + 8 * W) q ↔ ZeroOn mem p q :=
          zeroOn_union (by omega) (by omega) (by omega)
        refine ⟨q, hq1, hq2, ?_⟩
        rw [hq, Option.some_inj, decide_eq_decide, ht'z, ← hu]
        simp [htz]
      · refine ⟨p + 8 * W, by omega, hpe, ?_⟩
        rw [isZeroTest_decide hz ht'lt, Option.some_inj, decide_eq_decide, ht'z]
        simp [htz]
    · rw [if_pos (by simp [ht0])]
      refine ⟨e, by omega, le_rfl, ?_⟩
      have htz : t ≠ 0 := fun h => ht0 ((hz t ht).2 h)
      simp [htz]

end Blocks

/-! ## The buffer -/

section Window

variable {base : Nat} {bytes : List UInt8}

/-- The bytes `[a, b)` of the buffer are there. -/
theorem window_isSome {a b : Nat} (ha : base ≤ a) (hb : b ≤ base + bytes.length) :
    ∀ x, a ≤ x → x < b → (window base bytes x).isSome :=
  fun _ h1 h2 => window_isSome_iff.2 ⟨by omega, by omega⟩

/-- The head `[buf, a)`, the blocks `[p, q)`, the partial block `[c, e)`
and the tail `[d, buf + len)` cover the buffer when each starts no later
than where the one before it ends. -/
theorem zeroOn_cover {mem : Nat → Option UInt8} {len a p q c e d : Nat} (hp : p ≤ a) (hc : c ≤ max a q)
    (hd : d ≤ e) (hbp : base ≤ p) (hbc : base ≤ c) (hbd : base ≤ d) (hq : q ≤ e) (ha : a ≤ base + len)
    (he : e ≤ base + len) :
    (ZeroOn mem base a ∧ ZeroOn mem c e ∧ ZeroOn mem d (base + len)) ∧ ZeroOn mem p q ↔
      ZeroOn mem base (base + len) := by
  constructor
  · rintro ⟨⟨hhead, hpart, htail⟩, hblocks⟩ x hx1 hx2
    by_cases hxa : x < a
    · exact hhead x hx1 hxa
    by_cases hxq : x < q
    · exact hblocks x (by omega) hxq
    by_cases hxe : x < e
    · exact hpart x (by omega) hxe
    · exact htail x (by omega) hx2
  · intro h
    exact ⟨⟨h.mono le_rfl ha, h.mono hbc he, h.mono hbd le_rfl⟩, h.mono hbp (by omega)⟩

variable {W : Nat}

/-- The head, the tail and the partial block before `e`, for a buffer of
at least eight units: all inside it, and zero exactly when their bytes
are. -/
theorem headTailOr_spec (hW : 0 < W) (hlen : 8 * W ≤ bytes.length) :
    ∃ t, headTailOr (window base bytes) W base bytes.length = some t ∧ t < 2 ^ (8 * W) ∧
      (t = 0 ↔ ZeroOn (window base bytes) base (base + W) ∧
        ZeroOn (window base bytes) (alignDown (base + bytes.length - 1) W - 7 * W) (alignDown (base + bytes.length - 1) W) ∧
        ZeroOn (window base bytes) (base + bytes.length - W) (base + bytes.length)) := by
  have he1 := alignDown_le (base + bytes.length - 1) W
  have he2 := lt_alignDown_add (base + bytes.length - 1) hW
  have hwin : ∀ a b, base ≤ a → b ≤ base + bytes.length → ∀ x, a ≤ x → x < b → (window base bytes x).isSome :=
    fun _ _ ha hb => window_isSome ha hb
  obtain ⟨v, hv, hvlt⟩ := load_of_isSome W base (hwin base (base + W) le_rfl (by omega))
  obtain ⟨w, hw, hwlt⟩ := load_of_isSome W (base + bytes.length - W)
    (hwin (base + bytes.length - W) (base + bytes.length - W + W) (by omega) (by omega))
  obtain ⟨b, hb, hblt, hbz⟩ := unitsOr_spec 7 (alignDown (base + bytes.length - 1) W - 7 * W)
    (hwin _ (alignDown (base + bytes.length - 1) W - 7 * W + 7 * W) (by omega) (by omega))
  refine ⟨v ||| w ||| b, ?_, Nat.or_lt_two_pow (Nat.or_lt_two_pow hvlt hwlt) hblt, ?_⟩
  · rw [headTailOr, hv, Option.bind_some, hw, Option.bind_some, hb, Option.map_some]
  · rw [Nat.or_eq_zero_iff, Nat.or_eq_zero_iff, load_eq_zero_iff hv, load_eq_zero_iff hw, hbz,
      show alignDown (base + bytes.length - 1) W - 7 * W + 7 * W = alignDown (base + bytes.length - 1) W by omega,
      show base + bytes.length - W + W = base + bytes.length by omega]
    tauto

/-- The version for `len >= 256` on units of `W` bytes, from
`len >= 10 * W`: its first block then fits before `e`. -/
theorem bufferZeroBlocks_exact {isZero : Nat → Bool} (hW : 0 < W) (hz : IsZeroTest W isZero)
    (hlen : 10 * W ≤ bytes.length) :
    bufferZeroBlocks (window base bytes) W isZero base bytes.length = some (bytes.all fun b => b == 0) := by
  -- the aligned middle: `p` just past `buf`, `e` just before `buf + len`
  have hp1 := alignDown_le (base + W) W
  have hp2 := lt_alignDown_add (base + W) hW
  have he1 := alignDown_le (base + bytes.length - 1) W
  have he2 := lt_alignDown_add (base + bytes.length - 1) hW
  obtain ⟨t, ht, htlt, htz⟩ := @headTailOr_spec base bytes W hW (by omega)
  have hdef : ∀ x, base ≤ x → x < alignDown (base + bytes.length - 1) W → (window base bytes x).isSome :=
    window_isSome le_rfl (by omega)
  obtain ⟨q, hq1, hq2, hq⟩ := blocksLoop_spec hW hz (alignDown_mod _ _) hdef bytes.length
    (alignDown (base + W) W) t (alignDown_mod _ _) (by omega) (by omega) (by omega) htlt
  rw [bufferZeroBlocks, ht, Option.bind_some, hq, Option.some_inj, ← decide_zeroOn_window base bytes,
    decide_eq_decide, htz]
  exact zeroOn_cover hp1 (by omega) (by omega) (by omega) (by omega) (by omega) hq2 (by omega) (by omega)

theorem bufferIsZeroIntGe256_exact (hlen : 256 ≤ bytes.length) :
    bufferIsZeroIntGe256 (window base bytes) base bytes.length = some (bytes.all fun b => b == 0) :=
  bufferZeroBlocks_exact (by decide) (isZeroTest_eq_zero 8) (by omega)

theorem bufferZeroSse2_exact (hlen : 256 ≤ bytes.length) :
    bufferZeroSse2 (window base bytes) base bytes.length = some (bytes.all fun b => b == 0) :=
  bufferZeroBlocks_exact (by decide) (isZeroTest_movemask 16) (by omega)

/-- The AVX2 version from `len >= 256 = 8 * 32`: when `p < e - 7` fails at
the start the head and the partial block already meet. -/
theorem bufferZeroAvx2_exact (hlen : 256 ≤ bytes.length) :
    bufferZeroAvx2 (window base bytes) base bytes.length = some (bytes.all fun b => b == 0) := by
  have hp1 := alignDown_le (base + 32) 32
  have hp2 := lt_alignDown_add (base + 32) (show 0 < 32 by decide)
  have he1 := alignDown_le (base + bytes.length - 1) 32
  have he2 := lt_alignDown_add (base + bytes.length - 1) (show 0 < 32 by decide)
  obtain ⟨t, ht, htlt, htz⟩ := @headTailOr_spec base bytes 32 (by decide) (by omega)
  have hz : IsZeroTest 32 (fun v => movemaskCmpeqZero 32 v == 0xFFFFFFFF) := isZeroTest_movemask 32
  rw [bufferZeroAvx2, ht, Option.bind_some]
  split_ifs with hloop
  · -- `p < e - 7`: the first block fits, by alignment
    have hfirst : alignDown (base + 32) 32 + (7 + 1) * 32 ≤ alignDown (base + bytes.length - 1) 32 :=
      add_le_of_mod_eq_zero (alignDown_mod _ _) (alignDown_mod _ _) (by omega)
    have hdef : ∀ x, base ≤ x → x < alignDown (base + bytes.length - 1) 32 → (window base bytes x).isSome :=
      window_isSome le_rfl (by omega)
    obtain ⟨q, hq1, hq2, hq⟩ := blocksLoop_spec (by decide) hz (alignDown_mod _ _) hdef
      bytes.length (alignDown (base + 32) 32) t (alignDown_mod _ _) (by omega) (by omega) (by omega) htlt
    rw [hq, Option.some_inj, ← decide_zeroOn_window base bytes, decide_eq_decide, htz]
    exact zeroOn_cover hp1 (by omega) (by omega) (by omega) (by omega) (by omega) hq2 (by omega) (by omega)
  · -- no block: the partial block starts before the head ends
    rw [isZeroTest_decide hz htlt, Option.some_inj, ← decide_zeroOn_window base bytes, decide_eq_decide,
      htz]
    have hcover := @zeroOn_cover base (window base bytes) bytes.length (base + 32) (base + 32) (base + 32)
      (alignDown (base + bytes.length - 1) 32 - 7 * 32) (alignDown (base + bytes.length - 1) 32)
      (base + bytes.length - 32) le_rfl (by omega) (by omega) (by omega) (by omega) (by omega) (by omega)
      (by omega) (by omega)
    rw [← hcover]
    simp only [zeroOn_empty, and_true]

end Window

/-! ## Short buffers -/

section Short

variable {mem : Nat → Option UInt8} {e lo : Nat}

/-- `while (p < e) t |= *p++;` from an aligned `p`: the final `t` is zero
exactly when `t` and the bytes of `[p, e)` are. -/
theorem wordsLoop_spec (he : e % 8 = 0) (hdef : ∀ x, lo ≤ x → x < e → (mem x).isSome) :
    ∀ (fuel p t : Nat), p % 8 = 0 → lo ≤ p → e - p < fuel → t < 2 ^ 64 →
      ∃ t', wordsLoop mem e fuel p t = some t' ∧ t' < 2 ^ 64 ∧ (t' = 0 ↔ t = 0 ∧ ZeroOn mem p e)
  | 0, _, _, _, _, hf, _ => absurd hf (Nat.not_lt_zero _)
  | fuel + 1, p, t, hp, hlo, hf, ht => by
    rw [wordsLoop]
    split_ifs with hpe
    · -- an aligned word before `e` ends by `e`
      have hword : p + (0 + 1) * 8 ≤ e := add_le_of_mod_eq_zero hp he (by omega)
      obtain ⟨w, hw, hwlt⟩ := load_of_isSome 8 p fun x h1 h2 => hdef x (by omega) (by omega)
      obtain ⟨t', ht', ht'lt, ht'z⟩ := wordsLoop_spec he hdef fuel (p + 8) (t ||| w) (by omega) (by omega)
        (by omega) (Nat.or_lt_two_pow ht hwlt)
      have hu : ZeroOn mem p (p + 8) ∧ ZeroOn mem (p + 8) e ↔ ZeroOn mem p e :=
        zeroOn_union (by omega) (by omega) (by omega)
      refine ⟨t', by rw [hw, Option.bind_some, ht'], ht'lt, ?_⟩
      rw [ht'z, Nat.or_eq_zero_iff, load_eq_zero_iff hw, ← hu]
      tauto
    · exact ⟨t, rfl, ht, by rw [iff_self_and]; intro _ x h1 h2; omega⟩

end Short

section ShortWindow

variable {base : Nat} {bytes : List UInt8}

/-- `buffer_is_zero_int_lt256` from `len >= 4`, the shortest length
`buffer_is_zero_ool` gives it: two four-byte loads up to eight bytes,
and head, tail and the aligned words between them above. -/
theorem bufferIsZeroIntLt256_exact (hlen : 4 ≤ bytes.length) :
    bufferIsZeroIntLt256 (window base bytes) base bytes.length = some (bytes.all fun b => b == 0) := by
  have hwin : ∀ a b, base ≤ a → b ≤ base + bytes.length → ∀ x, a ≤ x → x < b → (window base bytes x).isSome :=
    fun _ _ ha hb => window_isSome ha hb
  rw [bufferIsZeroIntLt256]
  split_ifs with h8
  · -- two overlapping four-byte loads
    obtain ⟨a, ha, halt⟩ := load_of_isSome 4 base (hwin base (base + 4) le_rfl (by omega))
    obtain ⟨b, hb, hblt⟩ := load_of_isSome 4 (base + bytes.length - 4)
      (hwin _ (base + bytes.length - 4 + 4) (by omega) (by omega))
    have hu : ZeroOn (window base bytes) base (base + 4) ∧
        ZeroOn (window base bytes) (base + bytes.length - 4) (base + bytes.length) ↔
        ZeroOn (window base bytes) base (base + bytes.length) :=
      zeroOn_union (by omega) (by omega) (by omega)
    rw [ha, Option.bind_some, hb, Option.map_some, Option.some_inj, beq_eq_decide,
      ← decide_zeroOn_window base bytes, decide_eq_decide, Nat.or_eq_zero_iff, load_eq_zero_iff ha, load_eq_zero_iff hb,
      show base + bytes.length - 4 + 4 = base + bytes.length by omega, hu]
  · -- head and tail words, and the aligned words between them
    have hp1 := alignDown_le (base + 8) 8
    have hp2 := lt_alignDown_add (base + 8) (show 0 < 8 by decide)
    have he1 := alignDown_le (base + bytes.length - 1) 8
    have he2 := lt_alignDown_add (base + bytes.length - 1) (show 0 < 8 by decide)
    obtain ⟨a, ha, halt⟩ := load_of_isSome 8 base (hwin base (base + 8) le_rfl (by omega))
    obtain ⟨b, hb, hblt⟩ := load_of_isSome 8 (base + bytes.length - 8)
      (hwin _ (base + bytes.length - 8 + 8) (by omega) (by omega))
    have hdef : ∀ x, base ≤ x → x < alignDown (base + bytes.length - 1) 8 → (window base bytes x).isSome :=
      hwin _ _ le_rfl (by omega)
    obtain ⟨t, ht, htlt, htz⟩ := wordsLoop_spec (alignDown_mod _ _) hdef bytes.length (alignDown (base + 8) 8)
      (a ||| b) (alignDown_mod _ _) (by omega) (by omega) (by simpa using Nat.or_lt_two_pow halt hblt)
    rw [ha, Option.bind_some, hb, Option.bind_some, ht, Option.map_some, Option.some_inj, beq_eq_decide,
      ← decide_zeroOn_window base bytes, decide_eq_decide, htz, Nat.or_eq_zero_iff, load_eq_zero_iff ha, load_eq_zero_iff hb,
      show base + bytes.length - 8 + 8 = base + bytes.length by omega]
    -- no partial block here: it is the empty range at `e`
    have hcover := @zeroOn_cover base (window base bytes) bytes.length (base + 8) (alignDown (base + 8) 8)
      (alignDown (base + bytes.length - 1) 8) (alignDown (base + bytes.length - 1) 8)
      (alignDown (base + bytes.length - 1) 8) (base + bytes.length - 8) hp1 (by omega) (by omega)
      (by omega) (by omega) (by omega) le_rfl (by omega) (by omega)
    rw [← hcover]
    simp only [zeroOn_empty, true_and]

/-- `buffer_is_zero_sample3`: `buf[0]`, `buf[len - 1]` and `buf[len / 2]`
are zero. -/
theorem bufferIsZeroSample3_spec (hlen : 0 < bytes.length) :
    ∃ s, bufferIsZeroSample3 (window base bytes) base bytes.length = some s ∧
      (s = true ↔ window base bytes base = some 0 ∧ window base bytes (base + bytes.length - 1) = some 0 ∧
        window base bytes (base + bytes.length / 2) = some 0) := by
  have hin : ∀ x, base ≤ x → x < base + bytes.length → ∃ b, window base bytes x = some b :=
    fun x h1 h2 => Option.isSome_iff_exists.1 (window_isSome le_rfl le_rfl x h1 h2)
  obtain ⟨b0, hb0⟩ := hin base le_rfl (by omega)
  obtain ⟨b1, hb1⟩ := hin (base + bytes.length - 1) (by omega) (by omega)
  obtain ⟨b2, hb2⟩ := hin (base + bytes.length / 2) (by omega) (by omega)
  simp only [bufferIsZeroSample3, hb0, hb1, hb2, Option.bind_some, Option.map_some, Option.some_inj]
  -- the later bytes are read only when the earlier ones are zero
  by_cases h0 : b0 = 0
  · by_cases h1 : b1 = 0
    · simp [h0, h1]
    · simp [h1]
  · simp [h0]

/-- On a zero buffer the samples are zero. -/
theorem bufferIsZeroSample3_of_zero (hlen : 0 < bytes.length) (hz : ∀ b ∈ bytes, b = 0) :
    bufferIsZeroSample3 (window base bytes) base bytes.length = some true := by
  obtain ⟨s, hs, hsz⟩ := @bufferIsZeroSample3_spec base bytes hlen
  have hone : ZeroOn (window base bytes) base (base + bytes.length) := zeroOn_window_iff.2 hz
  rw [hs, hsz.2 ⟨hone _ le_rfl (by omega), hone _ (by omega) (by omega), hone _ (by omega) (by omega)⟩]

/-- `buffer_is_zero_ool(buf, len)` for every `len`, with an `accel` that
is exact from 256 bytes on: the samples decide a buffer of up to three
bytes, and `buffer_is_zero_int_lt256` the rest below 256. -/
theorem bufferIsZeroOol_exact {accel : (Nat → Option UInt8) → Nat → Nat → Option Bool}
    (haccel : 256 ≤ bytes.length →
      accel (window base bytes) base bytes.length = some (bytes.all fun b => b == 0)) :
    bufferIsZeroOol accel (window base bytes) base bytes.length = some (bytes.all fun b => b == 0) := by
  rw [bufferIsZeroOol]
  by_cases hnil : bytes.length = 0
  · rw [if_pos hnil]
    simp [List.length_eq_zero_iff.1 hnil]
  rw [if_neg hnil]
  obtain ⟨s, hs, hsz⟩ := bufferIsZeroSample3_spec (Nat.pos_of_ne_zero hnil)
  rw [hs, Option.bind_some]
  cases s
  · -- a sampled byte is not zero
    rw [Bool.not_false, if_pos rfl, Option.some_inj, ← decide_zeroOn_window base bytes, eq_comm,
      decide_eq_false_iff_not, zeroOn_window_iff]
    intro hz
    have hs' := @bufferIsZeroSample3_of_zero base bytes (Nat.pos_of_ne_zero hnil) hz
    rw [hs, Option.some_inj] at hs'
    exact Bool.false_ne_true hs'
  rw [Bool.not_true, if_neg Bool.false_ne_true]
  by_cases h3 : bytes.length ≤ 3
  · -- up to three bytes: each is one of the samples
    obtain ⟨hz0, hz1, hz2⟩ := hsz.1 rfl
    rw [if_pos h3, Option.some_inj, ← decide_zeroOn_window base bytes, eq_comm, decide_eq_true_iff]
    intro x h1 h2
    rcases (by omega : x = base ∨ x = base + bytes.length - 1 ∨ x = base + bytes.length / 2) with
      rfl | rfl | rfl
    · exact hz0
    · exact hz1
    · exact hz2
  rw [if_neg h3]
  by_cases h256 : bytes.length ≥ 256
  · rw [if_pos h256]
    exact haccel h256
  · rw [if_neg h256]
    exact bufferIsZeroIntLt256_exact (by omega)

end ShortWindow

/-! ## Every entry of the table -/

/-- An entry of `accel_table` is exact from 256 bytes on. -/
theorem accelTable_exact {accel : (Nat → Option UInt8) → Nat → Nat → Option Bool} (h : accel ∈ accelTable)
    (base : Nat) (bytes : List UInt8) (hlen : 256 ≤ bytes.length) :
    accel (window base bytes) base bytes.length = some (bytes.all fun b => b == 0) := by
  simp only [accelTable, List.mem_cons, List.not_mem_nil, or_false] at h
  rcases h with rfl | rfl | rfl
  · exact bufferIsZeroIntGe256_exact hlen
  · exact bufferZeroSse2_exact hlen
  · exact bufferZeroAvx2_exact hlen

/-- `buffer_is_zero` is exact whichever entry of `accel_table`
`buffer_is_zero_accel` holds, at every address and length; with the
buffer alone in memory, no load falls outside it. -/
theorem bufferIsZero_exact (base : Nat) (bytes : List UInt8) :
    (∀ accel ∈ accelTable, ∀ constLen : Bool,
      bufferIsZero accel constLen (window base bytes) base bytes.length = some (bytes.all fun b => b == 0)) ∧
    (∀ accel ∈ accelTable,
      bufferIsZeroOol accel (window base bytes) base bytes.length = some (bytes.all fun b => b == 0)) ∧
    (256 ≤ bytes.length → ∀ accel ∈ accelTable,
      accel (window base bytes) base bytes.length = some (bytes.all fun b => b == 0)) ∧
    (4 ≤ bytes.length → bytes.length < 256 →
      bufferIsZeroIntLt256 (window base bytes) base bytes.length = some (bytes.all fun b => b == 0)) := by
  have hool : ∀ accel ∈ accelTable,
      bufferIsZeroOol accel (window base bytes) base bytes.length = some (bytes.all fun b => b == 0) :=
    fun accel h => bufferIsZeroOol_exact (accelTable_exact h base bytes)
  refine ⟨?_, hool, fun hlen accel h => accelTable_exact h base bytes hlen,
    fun hlen _ => bufferIsZeroIntLt256_exact hlen⟩
  intro accel h constLen
  rw [bufferIsZero]
  split_ifs with hconst
  · -- the inline path: `buffer_is_zero_sample3 && buffer_is_zero_ge256`
    by_cases hz : ∀ b ∈ bytes, b = 0
    · rw [@bufferIsZeroSample3_of_zero base bytes (by omega) hz, Option.bind_some, if_pos rfl, bufferIsZeroGe256,
        accelTable_exact h base bytes hconst.2]
    · have hall : (bytes.all fun b => b == 0) = false := by
        rw [← decide_zeroOn_window base bytes, decide_eq_false_iff_not, zeroOn_window_iff]
        exact hz
      obtain ⟨s, hs, -⟩ := @bufferIsZeroSample3_spec base bytes (by omega)
      rw [hs, Option.bind_some, hall]
      cases s
      · rfl
      · rw [if_pos rfl, bufferIsZeroGe256, accelTable_exact h base bytes hconst.2, hall]
  · exact hool accel h

end QemuFormal.BufferIsZero

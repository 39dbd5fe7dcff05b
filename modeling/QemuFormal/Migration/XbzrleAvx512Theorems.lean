/-
QemuFormal.Migration.XbzrleAvx512Theorems — how far past `dlen` the
AVX512 encoder writes, and where it parts from the generic one.

The generic encoder checks `d + 2 <= dlen` before every length it writes
and `d + nzrun_len <= dlen` before every copy, so it never writes past
`dlen`. The AVX512 encoder checks `d + 2 <= dlen` once per pass of its
inner loop, and a pass that starts on an equal byte can write the
pending nzrun, then a zrun length, then the next nzrun's length: the
last two are not checked against what the nzrun just used.

## What is proved for every input

* `chunkLoop_fuel`: every pass of the inner loop consumes a byte of the
  chunk or leaves it (`ctz64` of a mask whose bit 0 says where the scan
  starts is at least one), so `bytes_to_check + 1` passes are enough.
* `xbzrleEncodeBufferAvx512_bounded`: it writes at most four bytes past
  `dlen`, and only on a run that returns `-1`. Between passes at most two
  bytes past `dlen` are written, and only with an nzrun pending, whose
  own write is then checked (`Avx512Vars.Bounded`).

## Where it parts from the generic encoder

`xbzrleEncodeBufferAvx512_diverges` gives two pages of 192 bytes with
`dlen = slen = 192`, as `ram.c` calls it with `TARGET_PAGE_SIZE` for
both. An nzrun ends where a chunk does, so it is written by the next
pass, and fills `dst` to `dlen`. If the rest of the page is unchanged,
the AVX512 encoder returns 192 where the generic one returns `-1`
(its `d + 2 > dlen` test comes before it knows the zrun is the last).
If one more byte differs, the AVX512 encoder writes the zrun length
and the nzrun length at `dst[192]` and `dst[193]` before it returns `-1`.
-/
import QemuFormal.Migration.XbzrleAvx512

namespace QemuFormal.Xbzrle

/-! ## Bit scans -/

section Ctz

theorem le_ctzFrom {val : Nat} : ∀ (fuel k : Nat), k ≤ ctzFrom val fuel k
  | 0, _ => le_rfl
  | fuel + 1, k => by
    rw [ctzFrom]
    split_ifs
    · exact le_rfl
    · exact Nat.le_of_succ_le (le_ctzFrom fuel (k + 1))

theorem ctzFrom_le {val : Nat} : ∀ (fuel k : Nat), ctzFrom val fuel k ≤ k + fuel
  | 0, _ => le_rfl
  | fuel + 1, k => by
    rw [ctzFrom]
    split_ifs
    · omega
    · have := @ctzFrom_le val fuel (k + 1)
      omega

/-- The scan stops on a set bit, unless it ran out of bits. -/
theorem testBit_ctzFrom {val : Nat} : ∀ (fuel k : Nat), ctzFrom val fuel k < k + fuel →
    val.testBit (ctzFrom val fuel k) = true
  | 0, k, h => by rw [ctzFrom] at h; omega
  | fuel + 1, k, h => by
    rw [ctzFrom] at h ⊢
    split_ifs with hk
    · exact hk
    · rw [if_neg hk] at h
      exact testBit_ctzFrom fuel (k + 1) (by omega)

theorem testBit_ctz64 {val : UInt64} (h : ctz64 val < 64) : val.toNat.testBit (ctz64 val) = true :=
  testBit_ctzFrom 64 0 h

/-- A scan that starts on a clear bit moves at least one bit. -/
theorem ctz64_pos {val : UInt64} (h : val.toNat.testBit 0 = false) : 0 < ctz64 val := by
  rw [ctz64, ctzFrom, if_neg (by rw [h]; decide)]
  exact Nat.lt_of_lt_of_le Nat.zero_lt_one (le_ctzFrom 63 1)

theorem testBit_not {x : UInt64} {k : Nat} (hk : k < 64) : (~~~x).toNat.testBit k = !x.toNat.testBit k := by
  rw [← UInt64.toNat_toBitVec, ← UInt64.toNat_toBitVec, UInt64.toBitVec_not, BitVec.testBit_toNat,
    BitVec.testBit_toNat, BitVec.getLsbD_not]
  simp [hk]

theorem testBit_shiftRight_zero {x : UInt64} {n : Nat} (hn : n < 64) :
    (x >>> n.toUInt64).toNat.testBit 0 = x.toNat.testBit n := by
  rw [UInt64.toNat_shiftRight, Nat.testBit_shiftRight]
  simp [Nat.mod_eq_of_lt hn]

/-- `comp & 0x1`, the `is_same` of a chunk. -/
theorem decide_and_one_ne_zero (x : UInt64) : decide (x &&& 1 ≠ 0) = x.toNat.testBit 0 := by
  rw [Bool.eq_iff_iff, decide_eq_true_iff, ne_eq, ← UInt64.toNat_inj, UInt64.toNat_and]
  simp [Nat.and_one_is_mod, Nat.testBit_zero]

/-- A run of equal bytes that ends inside the chunk ends on a differing
byte. -/
theorem testBit_shiftRight_ctz64_not {comp : UInt64} (h : ctz64 (~~~comp) < 64) :
    (comp >>> (ctz64 (~~~comp)).toUInt64).toNat.testBit 0 = false := by
  have hbit := testBit_ctz64 h
  rw [testBit_not h] at hbit
  rw [testBit_shiftRight_zero h]
  simpa using hbit

/-- A run of differing bytes that ends inside the chunk ends on an equal
byte. -/
theorem testBit_shiftRight_ctz64 {comp : UInt64} (h : ctz64 comp < 64) :
    (comp >>> (ctz64 comp).toUInt64).toNat.testBit 0 = true := by
  rw [testBit_shiftRight_zero h]
  exact testBit_ctz64 h

end Ctz

/-! ## What the writes add to `dst` -/

section Writes

variable {new dst dst' : Bytes} {dlen : Int} {i n : Nat}

theorem emitLength_some (h : emitLength dst n = some dst') :
    dst.length < dst'.length ∧ dst'.length ≤ dst.length + 2 := by
  unfold emitLength at h
  obtain ⟨e, he, rfl⟩ := Option.map_eq_some_iff.1 h
  unfold uleb128EncodeSmall at he
  split_ifs at he <;> cases he <;> simp

theorem flushNzrun_error (h : flushNzrun new dlen i n dst = some (.error dst')) :
    dst'.length ≤ dst.length + 2 ∧ dlen < dst'.length + n := by
  unfold flushNzrun at h
  obtain ⟨e, he, hr⟩ := Option.map_eq_some_iff.1 h
  have hlen := emitLength_some he
  split_ifs at hr with hfit
  cases hr
  exact ⟨hlen.2, by omega⟩

theorem flushNzrun_ok (h : flushNzrun new dlen i n dst = some (.ok dst')) :
    (dst'.length : Int) ≤ dlen := by
  unfold flushNzrun at h
  obtain ⟨e, -, hr⟩ := Option.map_eq_some_iff.1 h
  split_ifs at hr with hfit
  cases hr
  simp only [List.length_append, List.length_take]
  omega

end Writes

/-! ## One pass of the inner loop -/

/-- What holds between the passes of the encoder: at most two bytes past
`dlen` are written, and only with an nzrun pending, whose own write
then checks them. -/
structure Avx512Vars.Bounded (dlen : Int) (v : Avx512Vars) : Prop where
  length_le : (v.dst.length : Int) ≤ dlen + 2
  pending : dlen < v.dst.length → 0 < v.nzrunLen

/-- What a pass, or the inner loop over a chunk, may end with: a
`return -1` at most four bytes past `dlen`, or `Bounded` variables. -/
def ChunkNext.Bounded (dlen : Int) : ChunkNext → Prop
  | .fail dst => (dst.length : Int) ≤ dlen + 4
  | .stop v => v.Bounded dlen
  | .more _ _ _ v => v.Bounded dlen

section Passes

variable {new : Bytes} {dlen : Int} {count512s btc : Nat} {comp : UInt64} {v : Avx512Vars} {r : ChunkNext}

/-- Everything the `if (is_same)` block can end with. It writes the
pending nzrun, which `d + nzrun_len <= dlen` checks, and then a zrun
length, which nothing checks. A `more` has scanned at least one equal
byte and stops on a differing one. -/
theorem zrunPart_cases (hsame : comp.toNat.testBit 0 = true) (hbtc : 0 < btc) (hle : btc ≤ 64)
    (h : zrunPart new dlen count512s btc comp v = some r) :
    (∃ dst, r = .fail dst ∧ dst.length ≤ v.dst.length + 2) ∨
    (∃ v', r = .stop v' ∧ (v'.dst.length : Int) ≤ max dlen v.dst.length) ∨
    (∃ btc' comp' s v', r = .more btc' comp' s v' ∧ (v'.dst.length : Int) ≤ max dlen v.dst.length + 2 ∧
      v'.zrunLen = 0 ∧ v'.neverSame = false ∧ 0 < btc' ∧ btc' < btc ∧ comp'.toNat.testBit 0 = false) := by
  unfold zrunPart at h
  obtain ⟨f, hf, h⟩ := Option.bind_eq_some_iff.1 h
  -- the pending nzrun: afterwards `dst` is within `dlen`, or untouched
  have hf' : (∃ dst, f = .error dst ∧ dst.length ≤ v.dst.length + 2) ∨
      ∃ w : Avx512Vars, f = .ok w ∧ (w.dst.length : Int) ≤ max dlen v.dst.length := by
    split_ifs at hf with hn
    · obtain ⟨g, hg, rfl⟩ := Option.map_eq_some_iff.1 hf
      cases g with
      | error dst => exact .inl ⟨dst, rfl, (flushNzrun_error hg).1⟩
      | ok dst =>
        have := flushNzrun_ok hg
        exact .inr ⟨_, rfl, by simp only; omega⟩
    · cases hf
      exact .inr ⟨v, rfl, by omega⟩
  rcases hf' with ⟨dst, rfl, hdst⟩ | ⟨w, rfl, hw⟩
  · cases h
    exact .inl ⟨dst, rfl, hdst⟩
  dsimp only at h
  split_ifs at h with hfast hrest
  · cases h
    exact .inr (.inl ⟨_, rfl, hw⟩)
  · -- the zrun ends inside the chunk, on a differing byte: its length is written
    obtain ⟨dst, hdst, rfl⟩ := Option.map_eq_some_iff.1 h
    have hpos : 0 < ctz64 (~~~comp) := ctz64_pos (by rw [testBit_not (by omega), hsame]; rfl)
    have hnum : min (ctz64 (~~~comp)) btc = ctz64 (~~~comp) := by omega
    have hlen := emitLength_some hdst
    refine .inr (.inr ⟨_, _, _, _, rfl, by simp only; omega, rfl, rfl, by omega, by omega, ?_⟩)
    rw [hnum]
    exact testBit_shiftRight_ctz64_not (by omega)
  · cases h
    exact .inr (.inl ⟨_, rfl, hw⟩)

/-- Everything the rest of a pass can end with, from a differing byte.
It first writes the zrun length (when `never_same` or `zrun_len` asks),
to `w` bytes, and then the nzrun if an equal byte ends it inside the
chunk, checking the copy but not the length before it. -/
theorem nzrunPart_cases (hdiff : comp.toNat.testBit 0 = false) (hbtc : 0 < btc) (hle : btc ≤ 64)
    (h : nzrunPart new dlen btc comp v = some r) :
    ∃ w : Nat, w ≤ v.dst.length + 2 ∧ (v.neverSame = false → v.zrunLen = 0 → w = v.dst.length) ∧
      ((∃ dst, r = .fail dst ∧ dst.length ≤ w + 2) ∨
       (∃ v', r = .stop v' ∧ v'.dst.length = w ∧ 0 < v'.nzrunLen) ∨
       (∃ btc' comp' s v', r = .more btc' comp' s v' ∧ (v'.dst.length : Int) ≤ dlen ∧ btc' < btc ∧
         s = comp'.toNat.testBit 0)) := by
  unfold nzrunPart at h
  obtain ⟨u, hu, h⟩ := Option.bind_eq_some_iff.1 h
  -- the zrun length in front of the nzrun
  have hu' : u.dst.length ≤ v.dst.length + 2 ∧
      (v.neverSame = false → v.zrunLen = 0 → u.dst.length = v.dst.length) := by
    split_ifs at hu with hw
    · obtain ⟨dst, hdst, rfl⟩ := Option.map_eq_some_iff.1 hu
      exact ⟨(emitLength_some hdst).2, fun h1 h2 => absurd hw (by simp [h1, h2])⟩
    · cases hu
      exact ⟨by omega, fun _ _ => rfl⟩
  refine ⟨u.dst.length, hu'.1, hu'.2, ?_⟩
  have hpos := ctz64_pos hdiff
  dsimp only at h
  split_ifs at h with hfast hrest
  · cases h
    exact .inr (.inl ⟨_, rfl, rfl, by simp⟩)
  · -- the nzrun ends inside the chunk, on an equal byte: it is written
    have hnum : min (ctz64 comp) btc = ctz64 comp := by omega
    obtain ⟨g, hg, rfl⟩ := Option.map_eq_some_iff.1 h
    cases g with
    | error dst => exact .inl ⟨dst, rfl, (flushNzrun_error hg).1⟩
    | ok dst =>
      refine .inr (.inr ⟨_, _, _, _, rfl, flushNzrun_ok hg, by omega, ?_⟩)
      rw [hnum, testBit_shiftRight_ctz64 (by omega)]
  · cases h
    exact .inr (.inl ⟨_, rfl, rfl, by simp only; omega⟩)

/-- One pass keeps the variables `Bounded`, and a pass that goes round
again has consumed a byte and knows whether the next one is equal. -/
theorem chunkStep_cases {isSame : Bool} (hsame : isSame = comp.toNat.testBit 0) (hbtc : 0 < btc)
    (hle : btc ≤ 64) (h : chunkStep new dlen count512s btc comp isSame v = some r) :
    (v.Bounded dlen → r.Bounded dlen) ∧
      ∀ btc' comp' s v', r = .more btc' comp' s v' → btc' < btc ∧ s = comp'.toNat.testBit 0 := by
  unfold chunkStep at h
  split_ifs at h with hroom hs
  · -- no room for two bytes: `return -1` before writing anything
    cases h
    exact ⟨fun hv => by simp only [ChunkNext.Bounded]; have := hv.length_le; omega, by simp⟩
  · obtain ⟨q, hq, h⟩ := Option.bind_eq_some_iff.1 h
    rcases zrunPart_cases (hsame ▸ hs) hbtc hle hq with
      ⟨dst, rfl, hdst⟩ | ⟨w, rfl, hw⟩ | ⟨btc', comp', s, w, rfl, hw, hz, hns, hb0, hblt, hc⟩
    · cases h
      exact ⟨fun _ => by simp only [ChunkNext.Bounded]; omega, by simp⟩
    · cases h
      exact ⟨fun _ => ⟨by omega, fun h => absurd h (by omega)⟩, by simp⟩
    · -- the zrun length was written: on to the nzrun, with nothing left to write before it
      obtain ⟨u, hu, hu0, hr⟩ := nzrunPart_cases hc hb0 (by omega) h
      have huw : u = w.dst.length := hu0 hns hz
      rcases hr with ⟨dst, rfl, hdst⟩ | ⟨w', rfl, hw', hpos⟩ | ⟨b, c, s', w', rfl, hw', hlt, hs'⟩
      · exact ⟨fun _ => by simp only [ChunkNext.Bounded]; omega, by simp⟩
      · exact ⟨fun _ => ⟨by omega, fun _ => hpos⟩, by simp⟩
      · refine ⟨fun _ => ⟨by omega, fun h => absurd h (by omega)⟩, ?_⟩
        rintro b' c' s'' w'' ⟨rfl, rfl, rfl, rfl⟩
        exact ⟨by omega, hs'⟩
  · have hdiff : comp.toNat.testBit 0 = false := by simpa [hs] using hsame.symm
    obtain ⟨u, hu, -, hr⟩ := nzrunPart_cases hdiff hbtc hle h
    rcases hr with ⟨dst, rfl, hdst⟩ | ⟨w', rfl, hw', hpos⟩ | ⟨b, c, s', w', rfl, hw', hlt, hs'⟩
    · exact ⟨fun _ => by simp only [ChunkNext.Bounded]; omega, by simp⟩
    · exact ⟨fun _ => ⟨by omega, fun _ => hpos⟩, by simp⟩
    · refine ⟨fun _ => ⟨by omega, fun h => absurd h (by omega)⟩, ?_⟩
      rintro b' c' s'' w'' ⟨rfl, rfl, rfl, rfl⟩
      exact ⟨hlt, hs'⟩

end Passes

/-! ## The loops -/

section Loops

variable {old new : Bytes} {dlen : Int} {count512s : Nat}

/-- The inner loop over a chunk ends `Bounded`, by induction on its
passes with `chunkStep_cases`. -/
theorem chunkLoop_bounded {r : ChunkNext} : ∀ (fuel btc : Nat) (comp : UInt64) (isSame : Bool) (v : Avx512Vars),
    isSame = comp.toNat.testBit 0 → btc ≤ 64 → v.Bounded dlen →
    chunkLoop new dlen count512s fuel btc comp isSame v = some r → r.Bounded dlen
  | 0, _, _, _, v, _, _, hv, h => by
    cases h
    exact hv
  | fuel + 1, btc, comp, isSame, v, hsame, hle, hv, h => by
    rw [chunkLoop] at h
    split_ifs at h with h0
    · cases h
      exact hv
    obtain ⟨q, hq, h⟩ := Option.bind_eq_some_iff.1 h
    obtain ⟨hqb, hmore⟩ := chunkStep_cases hsame (by omega) hle hq
    cases q with
    | more b c s w =>
      obtain ⟨hlt, hs⟩ := hmore b c s w rfl
      exact chunkLoop_bounded fuel b c s w hs (by omega) (hqb hv) h
    | fail dst =>
      cases h
      exact hqb hv
    | stop w =>
      cases h
      exact hqb hv

/-- Every pass consumes a byte of the chunk or leaves the loop, so
`bytes_to_check + 1` passes are as good as any more. -/
theorem chunkLoop_fuel : ∀ (fuel extra btc : Nat) (comp : UInt64) (isSame : Bool) (v : Avx512Vars),
    isSame = comp.toNat.testBit 0 → btc ≤ 64 → btc < fuel →
    chunkLoop new dlen count512s (fuel + extra) btc comp isSame v =
      chunkLoop new dlen count512s fuel btc comp isSame v
  | 0, _, _, _, _, _, _, _, hlt => absurd hlt (Nat.not_lt_zero _)
  | fuel + 1, extra, btc, comp, isSame, v, hsame, hle, hlt => by
    rw [show fuel + 1 + extra = fuel + extra + 1 by omega, chunkLoop, chunkLoop]
    split_ifs with h0
    · rfl
    rcases hq : chunkStep new dlen count512s btc comp isSame v with _ | q
    · rfl
    obtain ⟨-, hmore⟩ := chunkStep_cases hsame (by omega) hle hq
    cases q with
    | more b c s w =>
      obtain ⟨hb, hs⟩ := hmore b c s w rfl
      exact chunkLoop_fuel fuel extra b c s w hs (by omega) (by omega)
    | fail dst => rfl
    | stop w => rfl

/-- The chunks, by induction on how many are left: a `return -1` is at
most four bytes past `dlen`, and otherwise the variables stay
`Bounded`. -/
theorem chunksLoop_bounded {countResidual : Nat} {maskResidual : UInt64} (hres : countResidual ≤ 64) :
    ∀ (count512s : Nat) (v : Avx512Vars), v.Bounded dlen →
      (∀ dst, chunksLoop old new dlen countResidual maskResidual count512s v = some (.error dst) →
        (dst.length : Int) ≤ dlen + 4) ∧
      ∀ v', chunksLoop old new dlen countResidual maskResidual count512s v = some (.ok v') → v'.Bounded dlen
  | 0, v, hv => by
    refine ⟨fun _ h => ?_, fun _ h => ?_⟩ <;> rw [chunksLoop] at h <;> cases h
    exact hv
  | count512s + 1, v, hv => by
    -- the chunk's own inner loop, started on `is_same = comp & 0x1`
    have hchunk : ∀ q, chunkLoop new dlen count512s
        ((if count512s + 1 = 1 then countResidual else 64) + 1) (if count512s + 1 = 1 then countResidual else 64)
        (cmpeqMask old new v.i (if count512s + 1 = 1 then maskResidual else 0xffffffffffffffff))
        (decide (cmpeqMask old new v.i (if count512s + 1 = 1 then maskResidual else 0xffffffffffffffff) &&& 1 ≠ 0))
        v = some q → q.Bounded dlen := fun q hq =>
      chunkLoop_bounded _ _ _ _ v (decide_and_one_ne_zero _) (by split_ifs <;> omega) hv hq
    constructor
    · intro dst h
      rw [chunksLoop] at h
      obtain ⟨q, hq, h⟩ := Option.bind_eq_some_iff.1 h
      cases q with
      | fail dst' =>
        cases h
        exact hchunk _ hq
      | stop w => exact (chunksLoop_bounded hres count512s w (hchunk _ hq)).1 dst h
      | more _ _ _ w => exact (chunksLoop_bounded hres count512s w (hchunk _ hq)).1 dst h
    · intro v' h
      rw [chunksLoop] at h
      obtain ⟨q, hq, h⟩ := Option.bind_eq_some_iff.1 h
      cases q with
      | fail dst' => cases h
      | stop w => exact (chunksLoop_bounded hres count512s w (hchunk _ hq)).2 v' h
      | more _ _ _ w => exact (chunksLoop_bounded hres count512s w (hchunk _ hq)).2 v' h

end Loops

/-- For every page and every `dlen ≥ 0`, the AVX512 encoder writes at
most four bytes past `dlen`, and when it returns `d ≥ 0` it has written
`d ≤ dlen` bytes: the bytes past `dlen` are written only on the way to
`-1`. -/
theorem xbzrleEncodeBufferAvx512_bounded {old new : Bytes} {slen : Nat} {dlen r : Int} {dst : Bytes}
    (hdlen : 0 ≤ dlen) (h : xbzrleEncodeBufferAvx512 old new slen dlen = some (r, dst)) :
    (dst.length : Int) ≤ dlen + 4 ∧ (0 ≤ r → r = dst.length ∧ r ≤ dlen) := by
  unfold xbzrleEncodeBufferAvx512 at h
  obtain ⟨e, he, h⟩ := Option.bind_eq_some_iff.1 h
  have hinit : Avx512Vars.Bounded dlen ⟨0, 0, 0, true, []⟩ := ⟨by simp; omega, fun h => absurd h (by simp; omega)⟩
  have hres : slen &&& 63 ≤ 64 := Nat.and_le_right.trans (by decide)
  have hloop := @chunksLoop_bounded old new dlen _ (1 <<< (slen &&& 63).toUInt64 - 1) hres (slen >>> 6 + 1) _ hinit
  cases e with
  | error dst' =>
    cases h
    exact ⟨hloop.1 _ he, by omega⟩
  | ok v =>
    have hv := hloop.2 v he
    dsimp only at h
    split_ifs at h with hn
    · -- the pending nzrun at the end, written and checked
      obtain ⟨g, hg, hgr⟩ := Option.map_eq_some_iff.1 h
      cases g with
      | error dst' =>
        cases hgr
        have := (flushNzrun_error hg).1
        have := hv.length_le
        exact ⟨by omega, by omega⟩
      | ok dst' =>
        cases hgr
        have := flushNzrun_ok hg
        exact ⟨by omega, fun _ => ⟨rfl, this⟩⟩
    · -- nothing pending: then nothing is past `dlen`
      cases h
      have hle : (v.dst.length : Int) ≤ dlen := by
        by_contra hgt
        exact hn (Nat.pos_iff_ne_zero.1 (hv.pending (by omega)))
      exact ⟨by omega, fun _ => ⟨rfl, hle⟩⟩

/-- A page of eight bytes whose first byte changed: the encoder writes
the zrun length 0, the nzrun length 1 and the byte, within `dlen = 8`. -/
theorem xbzrleEncodeBufferAvx512_bounded_first_byte :
    (0 : Int) ≤ 8 ∧ xbzrleEncodeBufferAvx512 (List.replicate 8 0) [1, 0, 0, 0, 0, 0, 0, 0] 8 8 = some (3, [0, 1, 1]) ∧
      (([0, 1, 1] : Bytes).length : Int) ≤ 8 + 4 ∧ (0 ≤ (3 : Int) → (3 : Int) = ([0, 1, 1] : Bytes).length ∧ (3 : Int) ≤ 8) := by
  have hrun : xbzrleEncodeBufferAvx512 (List.replicate 8 0) [1, 0, 0, 0, 0, 0, 0, 0] 8 8 = some (3, [0, 1, 1]) := by
    decide
  exact ⟨by decide, hrun, xbzrleEncodeBufferAvx512_bounded (by decide) hrun⟩

/-- Two pages of 192 bytes, encoded with `dlen = slen = 192`. In the
new page, 62 bytes that differ alternate with 62 that do not, then four
bytes differ up to offset 128, where the second chunk starts. The
AVX512 encoder writes that nzrun only in the next pass, which fills
`dst` to 192 bytes.

If the rest of the page is unchanged, the AVX512 encoder returns 192,
the encoding the generic one gives only with two more bytes of room; with
`dlen = 192` the generic one returns `-1`. If the second byte of the
last chunk differs too, the AVX512 encoder writes its zrun length and
its nzrun length at `dst[192]` and `dst[193]` before it returns `-1`,
where the generic one stops at 192 bytes. -/
theorem xbzrleEncodeBufferAvx512_diverges :
    xbzrleEncodeBufferAvx512 (List.replicate 192 0)
        ((List.replicate 62 [(1 : UInt8), 0]).flatten ++ [1, 1, 1, 1] ++ List.replicate 64 0) 192 192 =
      xbzrleEncodeBuffer (List.replicate 192 0)
        ((List.replicate 62 [(1 : UInt8), 0]).flatten ++ [1, 1, 1, 1] ++ List.replicate 64 0) 192 194 ∧
    (xbzrleEncodeBuffer (List.replicate 192 0)
        ((List.replicate 62 [(1 : UInt8), 0]).flatten ++ [1, 1, 1, 1] ++ List.replicate 64 0) 192 194).map
        (fun p : Int × Bytes => (p.1, p.2.length)) = some (192, 192) ∧
    (xbzrleEncodeBuffer (List.replicate 192 0)
        ((List.replicate 62 [(1 : UInt8), 0]).flatten ++ [1, 1, 1, 1] ++ List.replicate 64 0) 192 192).map
        (fun p : Int × Bytes => p.1) = some (-1) ∧
    (xbzrleEncodeBufferAvx512 (List.replicate 192 0)
        ((List.replicate 62 [(1 : UInt8), 0]).flatten ++ [1, 1, 1, 1, 0, 1] ++ List.replicate 62 0) 192 192).map
        (fun p : Int × Bytes => (p.1, p.2.length, p.2.drop 192)) = some (-1, 194, [1, 1]) ∧
    (xbzrleEncodeBuffer (List.replicate 192 0)
        ((List.replicate 62 [(1 : UInt8), 0]).flatten ++ [1, 1, 1, 1, 0, 1] ++ List.replicate 62 0) 192 192).map
        (fun p : Int × Bytes => (p.1, p.2.length)) = some (-1, 192) := by
  refine ⟨?_, ?_, ?_, ?_, ?_⟩ <;> decide +kernel

end QemuFormal.Xbzrle

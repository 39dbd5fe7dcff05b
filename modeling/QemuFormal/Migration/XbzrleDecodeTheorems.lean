/-
QemuFormal.Migration.XbzrleDecodeTheorems — `xbzrle_decode_buffer` on
any input.

`XbzrleTheorems` follows the decoder over what the encoder writes. The
delta arrives from the migration stream, though, so here `src` is any
byte string and `dst` any page.

## The grammar

`RunsEncoding` is the grammar of `Xbzrle`'s banner,
`page = zrun nzrun | zrun nzrun page`, with each length in any form
`uleb128_decode_small` accepts (`UlebEnc`, two-byte forms of small
numbers included). Only the first zrun may be empty, and no nzrun is.
`placeRuns` replays runs onto a page: a zrun skips its length, and an
nzrun's bytes are copied where it starts (`writeAt`, byte by byte).

## How the proof goes

`decodeRun` is one iteration of the loop up to its `memcpy`, and
`decodeLoop_succ` cuts the loop into it. `decodeRun_spec` says
everything an accepted iteration can do: the two lengths it read, that
`i` moves past them and the payload, and that the payload fits in
`slen` and its target in `dlen`. From there, by induction on the loop:

* `decodeLoop_take`: only `src[0, slen)` is read;
* `decodeLoop_append_dst` and `length_decodeLoop`: nothing at or after
  `dlen` is written;
* `decodeLoop_fuel`: the loop stops before it runs out of iterations;
* `decodeLoop_sound`: `src` is runs of the grammar followed by the bytes
  the decoder rejected, `dst` is those runs placed, and the result is
  `-1` exactly when something was rejected.

`xbzrleDecodeBuffer_safe` puts the four together for a whole buffer.
`decodeLoop_complete` is the converse of `decodeLoop_sound`: every delta
of the grammar whose runs fit is accepted and replayed, so the grammar
and `placeRuns` say all the decoder does.

Lengths are natural numbers. In the C code `count` is a `uint32_t`, so
`d + count` and `i + count` are computed unsigned and, below
`INT_MAX + 0x4000`, cannot wrap. `d += count` after a zrun can pass
`INT_MAX` only when the zrun already ends past `dlen`; the model's
`d > dlen` rejects the run there, and the C code, whose signed `d` has
wrapped, rejects it at the unsigned `d + count > dlen` a step later,
having written nothing in between.
-/
import QemuFormal.Migration.XbzrleTheorems

namespace QemuFormal.Xbzrle

/-! ## Runs, and replaying them onto a page -/

/-- `e` is a ULEB128 form of `n` that `uleb128_decode_small` reads to its
end: one byte below `0x80`, or a byte with the top bit set and one
without. -/
def UlebEnc (e : Bytes) (n : Nat) : Prop :=
  uleb128DecodeSmall e 0 = some (e.length, n)

/-- The grammar of a delta: `RunsEncoding first e rs` when `e` is the
runs `rs`, each a zrun length and the bytes of the nzrun after it.
`first` says whether the first zrun may be empty. -/
inductive RunsEncoding : Bool → Bytes → List (Nat × Bytes) → Prop
  | nil (first : Bool) : RunsEncoding first [] []
  | cons {first : Bool} {ez ep nz rest : Bytes} {z : Nat} {rs : List (Nat × Bytes)} :
      UlebEnc ez z → (z = 0 → first = true) → UlebEnc ep nz.length → nz ≠ [] →
      RunsEncoding false rest rs → RunsEncoding first (ez ++ ep ++ nz ++ rest) ((z, nz) :: rs)

/-- `dst` with `nz` copied to offset `o`: byte `k` is `nz[k - o]` where
that is a byte of `nz`, and `dst[k]` elsewhere. -/
def writeAt (dst : Bytes) (o : Nat) (nz : Bytes) : Bytes :=
  dst.mapIdx fun k b => if o ≤ k ∧ k - o < nz.length then byteAt nz (k - o) else b

/-- The runs `rs` replayed onto `dst` from offset `d`: the offset after
the last nzrun, and the page. -/
def placeRuns : Nat → List (Nat × Bytes) → Bytes → Nat × Bytes
  | d, [], dst => (d, dst)
  | d, (z, nz) :: rs, dst => placeRuns (d + z + nz.length) rs (writeAt dst (d + z) nz)

@[simp]
theorem length_writeAt (dst : Bytes) (o : Nat) (nz : Bytes) : (writeAt dst o nz).length = dst.length :=
  List.length_mapIdx

/-- The bytes `memcpy` copies are the ones `writeAt` places, as long as
both ranges are inside their buffers. -/
theorem memcpy_eq_writeAt {dst src : Bytes} {o j c : Nat} (hd : o + c ≤ dst.length)
    (hs : j + c ≤ src.length) : memcpy dst o src j c = writeAt dst o ((src.drop j).take c) := by
  have hlen : (memcpy dst o src j c).length = dst.length := by
    simp only [memcpy, List.length_append, List.length_take, List.length_drop]
    omega
  apply List.ext_getElem (by rw [hlen, length_writeAt])
  intro k hk hk'
  have hkd : k < dst.length := hlen ▸ hk
  simp only [memcpy, writeAt, List.getElem_mapIdx, List.length_take, List.length_drop]
  -- the three ranges: before `o`, the copied bytes, after them
  by_cases hlo : k < o
  · rw [List.getElem_append_left (by simp; omega), List.getElem_append_left (by simp; omega),
      List.getElem_take, if_neg (by omega)]
  · by_cases hhi : k < o + c
    · rw [List.getElem_append_left (by simp; omega), List.getElem_append_right (by simp; omega),
        if_pos (by omega)]
      simp only [byteAt, List.getD_eq_getElem?_getD, List.getElem_take, List.getElem_drop,
        List.length_take, List.getElem?_take, List.getElem?_drop]
      rw [if_pos (by omega), List.getElem?_eq_getElem (by omega), Option.getD_some]
      congr 1
      omega
    · rw [List.getElem_append_right (by simp; omega), List.getElem_drop, if_neg (by omega)]
      congr 1
      simp
      omega

/-! ## One iteration -/

/-- `uleb128_decode_small(src + i, &count)` behind the decoder's check
that two bytes of `src` are left. -/
def readLength (src : Bytes) (slen i : Nat) : Option (Nat × Nat) :=
  if slen - i < 2 then none else uleb128DecodeSmall src i

/-- One iteration of the decoder's loop from offset `i` of `src` and `d`
of `dst`, up to its `memcpy`: where the nzrun's bytes start in `src`,
where they go in `dst`, and how many there are; `none` where the
iteration returns `-1`. -/
def decodeRun (src : Bytes) (slen dlen i d : Nat) : Option (Nat × Nat × Nat) := do
  let (ret, zrun) ← readLength src slen i
  if i ≠ 0 ∧ zrun = 0 then none
  else if d + zrun > dlen then none
  else
    let (ret', count) ← readLength src slen (i + ret)
    if count = 0 then none
    else if d + zrun + count > dlen ∨ i + ret + ret' + count > slen then none
    else some (i + ret + ret', d + zrun, count)

theorem decodeLoop_succ (src : Bytes) (slen dlen fuel i d : Nat) (dst : Bytes) :
    decodeLoop src slen dlen (fuel + 1) i d dst =
      if i < slen then
        match decodeRun src slen dlen i d with
        | none => (-1, dst)
        | some (j, o, c) => decodeLoop src slen dlen fuel (j + c) (o + c) (memcpy dst o src j c)
      else ((d : Int), dst) := by
  rw [decodeLoop]
  by_cases hi : i < slen
  · rw [if_pos hi, if_pos hi]
    unfold decodeRun readLength
    by_cases h1 : slen - i < 2
    · simp only [h1, if_true]
      rfl
    · simp only [h1, if_false]
      rcases uleb128DecodeSmall src i with _ | ⟨ret, z⟩
      · rfl
      · dsimp only [bind, Option.bind]
        -- the checks between the two reads, then the second read
        split_ifs <;> try rfl
        rcases uleb128DecodeSmall src (i + ret) with _ | ⟨ret', c⟩
        · rfl
        · dsimp only
          split_ifs <;> rfl
  · rw [if_neg hi, if_neg hi]

section Reads

variable {src : Bytes} {slen dlen i d j o c : Nat}

theorem byteAt_take {s : Bytes} {n k : Nat} (hk : k < n) : byteAt (s.take n) k = byteAt s k := by
  simp [byteAt, List.getD_eq_getElem?_getD, hk]

theorem byteAt_take_drop {s : Bytes} {n k : Nat} (i : Nat) (hk : k < n) :
    byteAt ((s.drop i).take n) k = byteAt s (i + k) := by
  rw [byteAt_take hk]
  simp [byteAt, List.getD_eq_getElem?_getD, List.getElem?_drop]

/-- `uleb128_decode_small` reads two bytes at most. -/
theorem uleb128DecodeSmall_take {s : Bytes} {n : Nat} (h : i + 2 ≤ n) :
    uleb128DecodeSmall (s.take n) i = uleb128DecodeSmall s i := by
  simp only [uleb128DecodeSmall, byteAt_take (show i < n by omega), byteAt_take (show i + 1 < n by omega)]

theorem readLength_take : readLength (src.take slen) slen i = readLength src slen i := by
  unfold readLength
  split_ifs with h
  · rfl
  · exact uleb128DecodeSmall_take (by omega)

theorem decodeRun_take : decodeRun (src.take slen) slen dlen i d = decodeRun src slen dlen i d := by
  unfold decodeRun
  simp only [readLength_take]

/-- What an accepted read of a length is: two bytes were left, and the
one or two it took are a ULEB128 form of the length. -/
theorem readLength_spec {ret n : Nat} (h : readLength src slen i = some (ret, n)) (hs : slen ≤ src.length) :
    i + 2 ≤ slen ∧ 1 ≤ ret ∧ ret ≤ 2 ∧ UlebEnc ((src.drop i).take ret) n := by
  unfold readLength at h
  split_ifs at h with h2
  have hlen (r : Nat) (hr : r ≤ 2) : ((src.drop i).take r).length = r := by
    simp only [List.length_take, List.length_drop]
    omega
  unfold uleb128DecodeSmall at h
  split_ifs at h with hb0 hb1
  · -- one byte below `0x80`
    obtain ⟨rfl, rfl⟩ := Prod.mk.inj (Option.some.inj h).symm
    refine ⟨by omega, le_rfl, by omega, ?_⟩
    rw [UlebEnc, uleb128DecodeSmall, byteAt_take_drop i (by omega), Nat.add_zero, if_pos hb0, hlen 1 (by omega)]
  · -- a byte with the top bit set, and one without
    obtain ⟨rfl, rfl⟩ := Prod.mk.inj (Option.some.inj h).symm
    refine ⟨by omega, by omega, le_rfl, ?_⟩
    rw [UlebEnc, uleb128DecodeSmall, byteAt_take_drop i (by omega), byteAt_take_drop i (by omega),
      Nat.add_zero, if_neg hb0, if_neg hb1, hlen 2 le_rfl, Nat.zero_add]

/-- Everything an accepted iteration does: it read a zrun length `z`
(empty only at the start) and an nzrun length `c > 0`, its payload
starts at `j` after them and ends inside `slen`, and it goes to
`o = d + z` and ends inside `dlen`. -/
theorem decodeRun_spec (h : decodeRun src slen dlen i d = some (j, o, c)) :
    ∃ ret ret' z, readLength src slen i = some (ret, z) ∧ (z = 0 → i = 0) ∧
      readLength src slen (i + ret) = some (ret', c) ∧ 0 < c ∧
      j = i + ret + ret' ∧ o = d + z ∧ j + c ≤ slen ∧ o + c ≤ dlen := by
  unfold decodeRun at h
  obtain ⟨⟨ret, z⟩, h1, h⟩ := Option.bind_eq_some_iff.1 h
  dsimp only at h
  split_ifs at h with hz hd
  obtain ⟨⟨ret', c'⟩, h2, h⟩ := Option.bind_eq_some_iff.1 h
  dsimp only at h
  split_ifs at h with hc hfit
  obtain ⟨rfl, rfl, rfl⟩ : i + ret + ret' = j ∧ d + z = o ∧ c' = c := by simpa using h
  exact ⟨ret, ret', z, h1, by omega, h2, by omega, rfl, rfl, by omega, by omega⟩

/-- An accepted iteration moves `i` on by at least three bytes and `d`
on by the payload. -/
theorem decodeRun_bounds (h : decodeRun src slen dlen i d = some (j, o, c)) :
    i < j ∧ 0 < c ∧ j + c ≤ slen ∧ d ≤ o ∧ o + c ≤ dlen := by
  obtain ⟨ret, ret', z, h1, -, h2, hc, rfl, rfl, hj, ho⟩ := decodeRun_spec h
  have hret : 1 ≤ ret := by
    unfold readLength at h1
    split_ifs at h1
    unfold uleb128DecodeSmall at h1
    split_ifs at h1 <;> simp at h1 <;> omega
  omega

end Reads

/-! ## The loop -/

section Loop

variable {src : Bytes} {slen dlen : Nat}

theorem take_append_drop_add {α : Type} (l : List α) (i n : Nat) : (l.drop i).take n ++ l.drop (i + n) = l.drop i := by
  rw [← List.drop_drop, List.take_append_drop]

theorem memcpy_take {dst : Bytes} {o j c : Nat} (h : j + c ≤ slen) :
    memcpy dst o (src.take slen) j c = memcpy dst o src j c := by
  simp only [memcpy, List.drop_take, List.take_take]
  congr 3
  omega

/-- The decoder reads only `src[0, slen)`. -/
theorem decodeLoop_take : ∀ (fuel i d : Nat) (dst : Bytes),
    decodeLoop (src.take slen) slen dlen fuel i d dst = decodeLoop src slen dlen fuel i d dst
  | 0, _, _, _ => rfl
  | fuel + 1, i, d, dst => by
    rw [decodeLoop_succ, decodeLoop_succ, decodeRun_take]
    split_ifs
    · rcases hr : decodeRun src slen dlen i d with _ | ⟨j, o, c⟩
      · rfl
      · dsimp only
        rw [memcpy_take (decodeRun_bounds hr).2.2.1]
        exact decodeLoop_take fuel (j + c) (o + c) _
    · rfl

theorem length_memcpy {dst src : Bytes} {o j c : Nat} (hd : o + c ≤ dst.length) (hs : j + c ≤ src.length) :
    (memcpy dst o src j c).length = dst.length := by
  simp only [memcpy, List.length_append, List.length_take, List.length_drop]
  omega

theorem memcpy_append {dst src junk : Bytes} {o j c : Nat} (hd : o + c ≤ dst.length) :
    memcpy (dst ++ junk) o src j c = memcpy dst o src j c ++ junk := by
  simp only [memcpy, List.take_append_of_le_length (show o ≤ dst.length by omega),
    List.drop_append_of_le_length hd, List.append_assoc]

/-- Invariant of the loop on `src.length = slen`: `dst` keeps its length
as long as it has `dlen` bytes. -/
theorem length_decodeLoop : ∀ (fuel i d : Nat) (dst : Bytes), dlen ≤ dst.length →
    (decodeLoop src src.length dlen fuel i d dst).2.length = dst.length
  | 0, _, _, _, _ => rfl
  | fuel + 1, i, d, dst, hdst => by
    rw [decodeLoop_succ]
    split_ifs
    · rcases hr : decodeRun src src.length dlen i d with _ | ⟨j, o, c⟩
      · rfl
      · obtain ⟨-, -, hj, -, ho⟩ := decodeRun_bounds hr
        have hlen := length_memcpy (show o + c ≤ dst.length by omega) hj
        dsimp only
        rw [length_decodeLoop fuel (j + c) (o + c) _ (by omega), hlen]
    · rfl

/-- The decoder writes nothing at or after `dlen`: bytes of `dst` past it
are neither read nor changed. -/
theorem decodeLoop_append_dst (junk : Bytes) : ∀ (fuel i d : Nat) (dst : Bytes), dlen ≤ dst.length →
    decodeLoop src src.length dlen fuel i d (dst ++ junk) =
      ((decodeLoop src src.length dlen fuel i d dst).1, (decodeLoop src src.length dlen fuel i d dst).2 ++ junk)
  | 0, _, _, _, _ => rfl
  | fuel + 1, i, d, dst, hdst => by
    rw [decodeLoop_succ, decodeLoop_succ]
    split_ifs
    · rcases hr : decodeRun src src.length dlen i d with _ | ⟨j, o, c⟩
      · rfl
      · obtain ⟨-, -, hj, -, ho⟩ := decodeRun_bounds hr
        dsimp only
        rw [memcpy_append (by omega)]
        exact decodeLoop_append_dst junk fuel (j + c) (o + c) _
          (by rw [length_memcpy (by omega) hj]; exact hdst)
    · rfl

/-- The loop ends before it runs out of iterations: `slen - i` of them
are enough, since each iteration moves `i` on. -/
theorem decodeLoop_fuel : ∀ (fuel extra i d : Nat) (dst : Bytes), slen - i ≤ fuel →
    decodeLoop src slen dlen (fuel + extra) i d dst = decodeLoop src slen dlen fuel i d dst
  | 0, 0, _, _, _, _ => rfl
  | 0, extra + 1, i, d, dst, hi => by
    rw [Nat.zero_add, decodeLoop_succ, if_neg (by omega), decodeLoop]
  | fuel + 1, extra, i, d, dst, hi => by
    rw [show fuel + 1 + extra = fuel + extra + 1 by omega, decodeLoop_succ, decodeLoop_succ]
    split_ifs
    · rcases hr : decodeRun src slen dlen i d with _ | ⟨j, o, c⟩
      · rfl
      · have hj := (decodeRun_bounds hr).1
        exact decodeLoop_fuel fuel extra (j + c) (o + c) _ (by omega)
    · rfl

/-- The delta from `i` as the decoder reads it: runs of the grammar
followed by what it rejected (`rest`); `dst` is the runs replayed onto
it, inside `dlen`; and the decoder returns the offset after them unless
it rejected something. -/
theorem decodeLoop_sound : ∀ (fuel i d : Nat) (dst : Bytes), src.length - i ≤ fuel → i ≤ src.length →
    d ≤ dlen → dlen ≤ dst.length →
    ∃ rs pre rest d', src.drop i = pre ++ rest ∧ RunsEncoding (decide (i = 0)) pre rs ∧
      placeRuns d rs dst = (d', (decodeLoop src src.length dlen fuel i d dst).2) ∧ d' ≤ dlen ∧
      (decodeLoop src src.length dlen fuel i d dst).1 = if rest = [] then (d' : Int) else -1
  | 0, i, d, dst, hf, hi, hd, _ =>
    ⟨[], [], [], d, by simp; omega, .nil _, rfl, hd, rfl⟩
  | fuel + 1, i, d, dst, hf, hi, hd, hdst => by
    rw [decodeLoop_succ]
    by_cases hlt : i < src.length
    · rw [if_pos hlt]
      rcases hr : decodeRun src src.length dlen i d with _ | ⟨j, o, c⟩
      · -- the iteration returned `-1` and wrote nothing
        refine ⟨[], [], src.drop i, d, rfl, .nil _, rfl, hd, ?_⟩
        rw [if_neg (by simp; omega)]
      · obtain ⟨ret, ret', z, h1, hz, h2, hc, rfl, rfl, hj, ho⟩ := decodeRun_spec hr
        obtain ⟨-, hr1, -, henc1⟩ := readLength_spec h1 le_rfl
        obtain ⟨-, hr2, -, henc2⟩ := readLength_spec h2 le_rfl
        have hlen := length_memcpy (show d + z + c ≤ dst.length by omega) hj
        obtain ⟨rs, pre, rest, d', hsplit, henc, hplace, hd', hres⟩ :=
          decodeLoop_sound fuel (i + ret + ret' + c) (d + z + c) (memcpy dst (d + z) src (i + ret + ret') c)
            (by omega) hj ho (by omega)
        -- the run just decoded: its two lengths and its payload
        have hnz : ((src.drop (i + ret + ret')).take c).length = c := by
          simp only [List.length_take, List.length_drop]
          omega
        refine ⟨(z, (src.drop (i + ret + ret')).take c) :: rs,
          (src.drop i).take ret ++ (src.drop (i + ret)).take ret' ++ (src.drop (i + ret + ret')).take c ++ pre,
          rest, d', ?_, ?_, ?_, hd', hres⟩
        · simp only [List.append_assoc, ← hsplit, take_append_drop_add]
        · have hfirst : decide (i + ret + ret' + c = 0) = false := decide_eq_false (by omega)
          refine .cons henc1 (fun h0 => by simpa using hz h0) (by rw [hnz]; exact henc2) ?_ (hfirst ▸ henc)
          rw [← List.length_pos_iff_ne_nil, hnz]
          exact hc
        · rw [placeRuns, hnz, ← memcpy_eq_writeAt (by omega) hj]
          exact hplace
    · rw [if_neg hlt]
      have hi' : i = src.length := by omega
      exact ⟨[], [], [], d, by simp [hi'], .nil _, rfl, hd, rfl⟩

end Loop

/-! ## Every delta of the grammar that fits is accepted -/

section Complete

variable {src : Bytes} {dlen : Nat}

theorem byteAt_of_drop {e rest : Bytes} {i : Nat} (h : src.drop i = e ++ rest) (k : Nat) (hk : k < e.length) :
    byteAt src (i + k) = byteAt e k := by
  have hd : byteAt src (i + k) = byteAt (src.drop i) k := by
    simp [byteAt, List.getD_eq_getElem?_getD, List.getElem?_drop]
  rw [hd, h, byteAt_append_left hk]

theorem drop_add_of_drop {a rest : Bytes} {i : Nat} (h : src.drop i = a ++ rest) :
    src.drop (i + a.length) = rest := by
  rw [← List.drop_drop, h, List.drop_left]

theorem length_pos_of_ulebEnc {e : Bytes} {n : Nat} (he : UlebEnc e n) : 0 < e.length := by
  unfold UlebEnc uleb128DecodeSmall at he
  split_ifs at he <;> simp at he <;> omega

/-- A ULEB128 form is read the same at the start of the rest of `src`:
of its two reads, the second matters only for a two-byte form. -/
theorem uleb128DecodeSmall_of_drop {e rest : Bytes} {i n : Nat} (h : src.drop i = e ++ rest) (he : UlebEnc e n) :
    uleb128DecodeSmall src i = some (e.length, n) := by
  have hpos := length_pos_of_ulebEnc he
  have b0 := byteAt_of_drop h 0 hpos
  rw [Nat.add_zero] at b0
  unfold UlebEnc uleb128DecodeSmall at he
  split_ifs at he with hb0 hb1
  · rw [uleb128DecodeSmall, b0, if_pos hb0]
    exact he
  · have h2 : e.length = 2 := (Prod.mk.inj (Option.some.inj he)).1.symm
    rw [uleb128DecodeSmall, b0, byteAt_of_drop h 1 (by omega), if_neg hb0, if_neg hb1]
    exact he

/-- One run of the grammar at `i` that fits in `dlen` is accepted by one
iteration. -/
theorem decodeRun_of_run {ez ep nz rest : Bytes} {i d z : Nat} (h : src.drop i = ez ++ ep ++ nz ++ rest)
    (hez : UlebEnc ez z) (hz : z = 0 → i = 0) (hep : UlebEnc ep nz.length) (hnz : nz ≠ [])
    (hfit : d + z + nz.length ≤ dlen) :
    decodeRun src src.length dlen i d = some (i + ez.length + ep.length, d + z, nz.length) := by
  have hez0 := length_pos_of_ulebEnc hez
  have hep0 := length_pos_of_ulebEnc hep
  have hnz0 := List.length_pos_iff_ne_nil.2 hnz
  have hlen : i + (ez.length + ep.length + nz.length + rest.length) = src.length := by
    have := congrArg List.length h
    simp only [List.length_drop, List.length_append] at this
    omega
  have h1 : readLength src src.length i = some (ez.length, z) := by
    rw [readLength, if_neg (by omega)]
    exact uleb128DecodeSmall_of_drop (by rw [h, List.append_assoc, List.append_assoc]) hez
  have h2 : readLength src src.length (i + ez.length) = some (ep.length, nz.length) := by
    have hd : src.drop (i + ez.length) = ep ++ (nz ++ rest) :=
      drop_add_of_drop (by rw [h, List.append_assoc, List.append_assoc])
    rw [readLength, if_neg (by omega)]
    exact uleb128DecodeSmall_of_drop hd hep
  unfold decodeRun
  rw [h1]
  dsimp only [bind, Option.bind]
  rw [if_neg (by omega), if_neg (by omega), h2]
  dsimp only
  rw [if_neg (by omega), if_neg (by omega)]

theorem le_placeRuns : ∀ (rs : List (Nat × Bytes)) (d : Nat) (dst : Bytes), d ≤ (placeRuns d rs dst).1
  | [], _, _ => le_rfl
  | (z, nz) :: rs, d, dst => by
    have := le_placeRuns rs (d + z + nz.length) (writeAt dst (d + z) nz)
    rw [placeRuns]
    omega

/-- The converse of `decodeLoop_sound`: from `i`, the decoder replays
every delta of the grammar whose runs fit in `dlen`. -/
theorem decodeLoop_complete : ∀ (rs : List (Nat × Bytes)) (fuel i d : Nat) (dst : Bytes),
    src.length - i ≤ fuel → RunsEncoding (decide (i = 0)) (src.drop i) rs →
    (placeRuns d rs dst).1 ≤ dlen → dlen ≤ dst.length →
    decodeLoop src src.length dlen fuel i d dst = (((placeRuns d rs dst).1 : Int), (placeRuns d rs dst).2)
  | [], fuel, i, d, dst, _, henc, _, _ => by
    generalize hs : src.drop i = e at henc
    cases henc
    have hi : src.length ≤ i := List.drop_eq_nil_iff.1 hs
    cases fuel with
    | zero => rfl
    | succ fuel => rw [decodeLoop_succ, if_neg (by omega)]; rfl
  | (z, nz) :: rs, fuel, i, d, dst, hf, henc, hfit, hdst => by
    generalize hs : src.drop i = e at henc
    cases henc with
    | cons hez hz hep hnz hrest =>
    rename_i ez ep rest
    have hez0 := length_pos_of_ulebEnc hez
    have hlen := congrArg List.length hs
    simp only [List.length_drop, List.length_append] at hlen
    have hfit' : d + z + nz.length ≤ dlen := (le_placeRuns rs _ _).trans hfit
    -- where the payload starts, and where the next run does
    have hnzd : src.drop (i + ez.length + ep.length) = nz ++ rest := by
      rw [Nat.add_assoc, ← List.length_append]
      exact drop_add_of_drop (by rw [hs, List.append_assoc])
    have hrest' : src.drop (i + ez.length + ep.length + nz.length) = rest := drop_add_of_drop hnzd
    obtain _ | fuel := fuel
    · omega
    rw [decodeLoop_succ, if_pos (by omega),
      decodeRun_of_run hs hez (fun h0 => by simpa using hz h0) hep hnz hfit']
    dsimp only
    rw [memcpy_eq_writeAt (by omega) (by omega), hnzd, List.take_left]
    have henc' : RunsEncoding (decide (i + ez.length + ep.length + nz.length = 0))
        (src.drop (i + ez.length + ep.length + nz.length)) rs := by
      rw [hrest', decide_eq_false (by omega)]
      exact hrest
    exact decodeLoop_complete rs fuel _ _ _ (by omega) henc' hfit (by rw [length_writeAt]; exact hdst)

/-- Every delta of the grammar whose runs fit in the page decodes to
those runs replayed onto it. -/
theorem xbzrleDecodeBuffer_of_runsEncoding {src dst : Bytes} {rs : List (Nat × Bytes)} (h : RunsEncoding true src rs)
    (hfit : (placeRuns 0 rs dst).1 ≤ dst.length) :
    xbzrleDecodeBuffer src src.length dst dst.length = (((placeRuns 0 rs dst).1 : Int), (placeRuns 0 rs dst).2) :=
  decodeLoop_complete rs _ 0 0 dst (by omega) (by simpa using h) hfit le_rfl

/-- A delta of two runs onto a zero page of 8 bytes: no zeroes then the
bytes `7 9`, two zeroes then the byte `5`. -/
theorem xbzrleDecodeBuffer_of_runsEncoding_two_runs :
    RunsEncoding true [0, 2, 7, 9, 2, 1, 5] [(0, [7, 9]), (2, [5])] ∧
    (placeRuns 0 [(0, [7, 9]), (2, [5])] (List.replicate 8 0)).1 ≤ (List.replicate 8 (0 : UInt8)).length ∧
    xbzrleDecodeBuffer [0, 2, 7, 9, 2, 1, 5] [0, 2, 7, 9, 2, 1, 5].length (List.replicate 8 0)
        (List.replicate 8 (0 : UInt8)).length =
      (((placeRuns 0 [(0, [7, 9]), (2, [5])] (List.replicate 8 0)).1 : Int),
        (placeRuns 0 [(0, [7, 9]), (2, [5])] (List.replicate 8 0)).2) := by
  have h : RunsEncoding true [0, 2, 7, 9, 2, 1, 5] [(0, [7, 9]), (2, [5])] :=
    @RunsEncoding.cons true [0] [2] [7, 9] [2, 1, 5] 0 [(2, [5])] rfl (fun _ => rfl) rfl (by simp)
      (@RunsEncoding.cons false [2] [1] [5] [] 2 [] rfl (by simp) rfl (by simp) (.nil false))
  have hfit : (placeRuns 0 [(0, [7, 9]), (2, [5])] (List.replicate 8 0)).1 ≤ (List.replicate 8 (0 : UInt8)).length := by
    decide
  exact ⟨h, hfit, xbzrleDecodeBuffer_of_runsEncoding h hfit⟩

end Complete


/-- `xbzrle_decode_buffer(src, slen, dst, dlen)` on any `src` of `slen`
bytes and any `dst` of `dlen`. It reads nothing of `src` past `slen` and
writes nothing of `dst` past `dlen`, it stops within `slen` iterations,
and `dst` is the runs it read replayed onto the old page. It returns
the offset after them, at most `dlen`, or `-1` exactly when it rejected
the bytes that follow them. -/
theorem xbzrleDecodeBuffer_safe (src dst : Bytes) :
    ∃ r dst', xbzrleDecodeBuffer src src.length dst dst.length = (r, dst') ∧
      (∀ junk junk' : Bytes,
        xbzrleDecodeBuffer (src ++ junk) src.length (dst ++ junk') dst.length = (r, dst' ++ junk')) ∧
      (∀ extra, decodeLoop src src.length dst.length (src.length + extra) 0 0 dst = (r, dst')) ∧
      dst'.length = dst.length ∧
      ∃ rs pre rest d, src = pre ++ rest ∧ RunsEncoding true pre rs ∧
        placeRuns 0 rs dst = (d, dst') ∧ d ≤ dst.length ∧ r = if rest = [] then (d : Int) else -1 := by
  obtain ⟨rs, pre, rest, d, hsplit, henc, hplace, hd, hres⟩ :=
    @decodeLoop_sound src dst.length src.length 0 0 dst (by omega) (by omega) (by omega) le_rfl
  refine ⟨_, _, rfl, ?_, ?_, length_decodeLoop _ _ _ _ le_rfl, rs, pre, rest, d, by simpa using hsplit,
    by simpa using henc, hplace, hd, hres⟩
  · intro junk junk'
    have hsrc : (src ++ junk).take src.length = src.take src.length := by simp
    rw [xbzrleDecodeBuffer, ← decodeLoop_take, hsrc, decodeLoop_take, decodeLoop_append_dst junk' _ _ _ _ le_rfl]
  · intro extra
    exact decodeLoop_fuel _ _ _ _ _ (by omega)

end QemuFormal.Xbzrle

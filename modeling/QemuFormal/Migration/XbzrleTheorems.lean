/-
QemuFormal.Migration.XbzrleTheorems — what XBZRLE encodes, and that decoding
it restores the new page.

The canonical decomposition of a page (`runs`) cuts it, from offset 0,
into maximal runs of offsets where old and new agree (zruns) and where
they differ (nzruns); its bytes (`canonicalEncoding`) are each zrun's
length, then each nzrun's length and new bytes, with no final zrun.
`runLength` measures a maximal run and is pinned down by
`runLength_unique`; every scan of the encoder computes one. For the word
scans of an nzrun this rests on the has-zero-byte test
(`hasZeroByte_loadLong_iff`, from `Swar.hasZeroByte_ne_zero_iff`).

`encodeLoop_spec` follows the encoder from offset `i` over the runs from
`i`. It writes exactly their bytes, and returns `-1` exactly when they do
not fit in `dlen`, or when they are followed by a last zrun and fit with
fewer than two bytes to spare: the check at the top of the loop asks for
two bytes before it knows that the run it is about to scan is the last
zrun, which is never written. `decodeLoop_spec` follows the decoder over
the same runs: every check passes and `dst` holds the new page up to the
run it has reached and the old page after it. `xbzrleEncodeBuffer_spec`
puts the two together for a whole page.
-/
import QemuFormal.Lib.BitArith
import QemuFormal.Migration.Xbzrle

namespace QemuFormal.Xbzrle

/-! ## Byte buffers -/

theorem byteAt_append_left {s t : Bytes} {i : Nat} (h : i < s.length) : byteAt (s ++ t) i = byteAt s i := by
  simp [byteAt, List.getD_eq_getElem?_getD, List.getElem?_append_left h]

theorem byteAt_append_right (s t : Bytes) (i : Nat) : byteAt (s ++ t) (s.length + i) = byteAt t i := by
  simp [byteAt, List.getD_eq_getElem?_getD, List.getElem?_append_right]

theorem byteAt_append_length (s t : Bytes) : byteAt (s ++ t) s.length = byteAt t 0 :=
  byteAt_append_right s t 0

/-! ## ULEB128 -/

/-- The ULEB128 bytes of a number below 2^14. -/
def uleb128Bytes (n : Nat) : Bytes :=
  if n < 0x80 then [UInt8.ofNat n] else [UInt8.ofNat (n % 0x80 + 0x80), UInt8.ofNat (n / 0x80)]

theorem length_uleb128Bytes (n : Nat) : (uleb128Bytes n).length = if n < 0x80 then 1 else 2 := by
  unfold uleb128Bytes
  split <;> rfl

theorem one_le_length_uleb128Bytes (n : Nat) : 1 ≤ (uleb128Bytes n).length := by
  rw [length_uleb128Bytes]
  split <;> omega

/-- Bit 7 of a byte is its top half. -/
theorem and_0x80_eq_zero_iff : ∀ x < 256, x &&& 0x80 = 0 ↔ x < 0x80 := by
  decide +kernel

theorem uleb128EncodeSmall_eq {n : Nat} (h : n ≤ 0x3fff) : uleb128EncodeSmall n = some (uleb128Bytes n) := by
  unfold uleb128EncodeSmall uleb128Bytes
  rw [if_pos h]
  split
  · rfl
  · -- the low seven bits with bit 7 set, then the high seven bits
    have hlow : (n &&& 0x7f) ||| 0x80 = n % 0x80 + 0x80 := by
      rw [show (0x7f : Nat) = 2 ^ 7 - 1 from rfl, BitArith.and_mask, Nat.lor_comm,
        show (0x80 : Nat) = 2 ^ 7 * 1 from rfl, BitArith.mul_two_pow_or (Nat.mod_lt _ (by norm_num))]
      omega
    rw [hlow, Nat.shiftRight_eq_div_pow]

/-- Decoding the ULEB128 bytes of `n` written at offset `pre.length`. -/
theorem uleb128DecodeSmall_uleb128Bytes {n : Nat} (h : n ≤ 0x3fff) (pre rest : Bytes) :
    uleb128DecodeSmall (pre ++ uleb128Bytes n ++ rest) pre.length = some ((uleb128Bytes n).length, n) := by
  have hsize : UInt8.size = 256 := rfl
  unfold uleb128DecodeSmall
  rw [List.append_assoc, byteAt_append_length, byteAt_append_right]
  unfold uleb128Bytes
  split
  · rename_i hn
    have hbyte : (UInt8.ofNat n).toNat = n := UInt8.toNat_ofNat_of_lt' (by omega)
    have hbit : UInt8.ofNat n &&& 0x80 = 0 := by
      rw [← UInt8.toNat_inj, UInt8.toNat_and, hbyte]
      exact (and_0x80_eq_zero_iff n (by omega)).mpr hn
    simp only [byteAt, List.cons_append, List.getD_cons_zero, hbit, if_true, hbyte]
    rfl
  · rename_i hn
    have hlo : (UInt8.ofNat (n % 0x80 + 0x80)).toNat = n % 0x80 + 0x80 := UInt8.toNat_ofNat_of_lt' (by omega)
    have hhi : (UInt8.ofNat (n / 0x80)).toNat = n / 0x80 := UInt8.toNat_ofNat_of_lt' (by omega)
    have hbit₀ : UInt8.ofNat (n % 0x80 + 0x80) &&& 0x80 ≠ 0 := by
      rw [ne_eq, ← UInt8.toNat_inj, UInt8.toNat_and, hlo]
      intro h0
      have := (and_0x80_eq_zero_iff (n % 0x80 + 0x80) (by omega)).mp h0
      omega
    have hbit₁ : UInt8.ofNat (n / 0x80) &&& 0x80 = 0 := by
      rw [← UInt8.toNat_inj, UInt8.toNat_and, hhi]
      exact (and_0x80_eq_zero_iff (n / 0x80) (by omega)).mpr (by omega)
    have hval : (UInt8.ofNat (n % 0x80 + 0x80) &&& 0x7f).toNat ||| (UInt8.ofNat (n / 0x80)).toNat <<< 7 = n := by
      rw [UInt8.toNat_and, hlo, hhi, show (0x7f : UInt8).toNat = 2 ^ 7 - 1 from rfl, BitArith.and_mask,
        Nat.shiftLeft_eq, Nat.lor_comm, mul_comm,
        BitArith.mul_two_pow_or (Nat.mod_lt _ (by norm_num))]
      omega
    simp only [byteAt, List.cons_append, List.getD_cons_zero, List.getD_cons_succ, hbit₀, hbit₁,
      if_false, ne_eq, not_true_eq_false, hval]
    rfl

/-! ## The canonical runs of a page -/

section Runs

variable (old new : Bytes) (slen : Nat)

/-- Whether the pages agree at offset `k`. -/
def same (k : Nat) : Bool := byteAt old k == byteAt new k

/-- The length of the run from offset `i`, within the first `slen`
bytes, of offsets where the pages agree (`eq`) or differ (`!eq`). -/
def runLength (eq : Bool) (i : Nat) : Nat :=
  ((List.range' i (slen - i)).takeWhile fun k => same old new k == eq).length

/-- What a run is: offsets of its kind, within the page, up to one of
the other kind or the end of the page. -/
structure IsRun (eq : Bool) (i n : Nat) : Prop where
  same_eq : ∀ k < n, same old new (i + k) = eq
  le : n ≤ slen - i
  stop : i + n < slen → same old new (i + n) ≠ eq

variable {old new slen}

theorem runLength_of_le {eq : Bool} {i : Nat} (h : slen ≤ i) : runLength old new slen eq i = 0 := by
  simp [runLength, Nat.sub_eq_zero_of_le h]

theorem runLength_of_same {eq : Bool} {i : Nat} (h : i < slen) (hs : same old new i = eq) :
    runLength old new slen eq i = runLength old new slen eq (i + 1) + 1 := by
  have hlen : slen - i = slen - (i + 1) + 1 := by omega
  rw [runLength, hlen, List.range'_succ, List.takeWhile_cons_of_pos (by simp [hs]), List.length_cons]
  rfl

theorem runLength_of_not_same {eq : Bool} {i : Nat} (h : i < slen) (hs : same old new i ≠ eq) :
    runLength old new slen eq i = 0 := by
  have hlen : slen - i = slen - (i + 1) + 1 := by omega
  rw [runLength, hlen, List.range'_succ, List.takeWhile_cons_of_neg (by simpa using hs)]
  rfl

variable (old new slen) in
/-- `runLength` measures a run. -/
theorem isRun_runLength (eq : Bool) (i : Nat) : IsRun old new slen eq i (runLength old new slen eq i) := by
  induction h : slen - i generalizing i with
  | zero =>
    rw [runLength_of_le (by omega)]
    exact ⟨fun k hk => absurd hk (Nat.not_lt_zero k), by omega, fun h' => absurd h' (by omega)⟩
  | succ m ih =>
    by_cases hs : same old new i = eq
    · -- the run goes on from `i + 1`
      obtain ⟨hsame, hle, hstop⟩ := ih (i + 1) (by omega)
      rw [runLength_of_same (by omega) hs]
      refine ⟨fun k hk => ?_, by omega, fun h' => ?_⟩
      · cases k with
        | zero => simpa using hs
        | succ k =>
          have := hsame k (by omega)
          rwa [show i + (k + 1) = i + 1 + k by omega]
      · have := hstop (by omega)
        rwa [show i + (runLength old new slen eq (i + 1) + 1) = i + 1 + runLength old new slen eq (i + 1) by omega]
    · rw [runLength_of_not_same (by omega) hs]
      exact ⟨fun k hk => absurd hk (Nat.not_lt_zero k), by omega, fun _ => by simpa using hs⟩

/-- A run has one length. -/
theorem runLength_unique {eq : Bool} {i n : Nat} (h : IsRun old new slen eq i n) :
    runLength old new slen eq i = n := by
  obtain ⟨hsame, hle, hstop⟩ := isRun_runLength old new slen eq i
  rcases Nat.lt_trichotomy (runLength old new slen eq i) n with hlt | heq | hgt
  · exact absurd (h.same_eq _ hlt) (hstop (by have := h.le; omega))
  · exact heq
  · exact absurd (hsame n hgt) (h.stop (by omega))

/-- Past `n` offsets of a run, the rest of it. -/
theorem runLength_add {eq : Bool} {i n : Nat} (hn : n ≤ runLength old new slen eq i) :
    runLength old new slen eq (i + n) = runLength old new slen eq i - n := by
  obtain ⟨hsame, hle, hstop⟩ := isRun_runLength old new slen eq i
  apply runLength_unique
  refine ⟨fun k hk => ?_, by omega, fun h => ?_⟩
  · rw [Nat.add_assoc]
    exact hsame _ (by omega)
  · have := hstop (by omega)
    rwa [show i + n + (runLength old new slen eq i - n) = i + runLength old new slen eq i by omega]

/-- A zrun that stops before the end stops at an nzrun. -/
theorem runLength_false_pos {i : Nat} (h : i + runLength old new slen true i < slen) :
    0 < runLength old new slen false (i + runLength old new slen true i) := by
  have hstop := (isRun_runLength old new slen true i).stop h
  rw [runLength_of_same h (by simpa using hstop)]
  omega

variable (old new slen)

/-- The canonical runs from offset `i`: the length of each zrun and the
bytes of `new` in the nzrun after it, up to the last zrun. -/
def runs (i : Nat) : List (Nat × Bytes) :=
  if _h : i + runLength old new slen true i < slen then
    (runLength old new slen true i,
      (new.drop (i + runLength old new slen true i)).take
        (runLength old new slen false (i + runLength old new slen true i))) ::
      runs (i + runLength old new slen true i + runLength old new slen false (i + runLength old new slen true i))
  else []
termination_by slen - i
decreasing_by
  have := runLength_false_pos _h
  omega

/-- The bytes of a list of runs: each zrun's length, then its nzrun's
length and bytes. -/
def runsBytes : List (Nat × Bytes) → Bytes
  | [] => []
  | (z, nz) :: rs => uleb128Bytes z ++ uleb128Bytes nz.length ++ nz ++ runsBytes rs

/-- **The canonical XBZRLE encoding** of `new` against `old`. -/
def canonicalEncoding : Bytes := runsBytes (runs old new slen 0)

end Runs

/-! ## The scans -/

section Scans

variable {old new : Bytes} {slen : Nat}

/-- A run is at least `n` long when its first `n` offsets are of its kind. -/
theorem le_runLength_iff {eq : Bool} {i n : Nat} (hn : n ≤ slen - i) :
    n ≤ runLength old new slen eq i ↔ ∀ k < n, same old new (i + k) = eq := by
  obtain ⟨hsame, -, hstop⟩ := isRun_runLength old new slen eq i
  constructor
  · intro h k hk
    exact hsame k (by omega)
  · intro h
    by_contra hlt
    exact hstop (by omega) (h _ (by omega))

theorem runLength_le (eq : Bool) (i : Nat) : runLength old new slen eq i ≤ slen - i :=
  (isRun_runLength old new slen eq i).le

variable (slen) in
/-- **The byte loops** measure the run from `i`, up to their bound. -/
theorem runBytes_eq (eq : Bool) : ∀ (fuel i len : Nat), fuel ≤ slen - i →
    runBytes old new eq fuel i len =
      (fuel - min fuel (runLength old new slen eq i), i + min fuel (runLength old new slen eq i),
        len + min fuel (runLength old new slen eq i))
  | 0, i, len, _ => by simp [runBytes]
  | fuel + 1, i, len, hfuel => by
    rw [runBytes]
    by_cases hs : same old new i = eq
    · -- one more offset of the run
      have hs' : (byteAt old i == byteAt new i) = eq := hs
      rw [if_pos hs', runBytes_eq eq fuel (i + 1) (len + 1) (by omega), runLength_of_same (by omega) hs]
      simp only [Prod.mk.injEq]
      omega
    · have hs' : ¬(byteAt old i == byteAt new i) = eq := hs
      rw [if_neg hs', runLength_of_not_same (by omega) hs]
      simp

/-! ### Words -/

/-- The bytes of the word at `i`, inside the buffer. -/
theorem word_bytes {buf : Bytes} {i : Nat} (h : i + sizeofLong ≤ buf.length) :
    ((buf.drop i).take sizeofLong).map UInt8.toNat =
      (List.range' i sizeofLong).map fun k => (byteAt buf k).toNat := by
  apply List.ext_getElem
  · simp only [List.length_map, List.length_take, List.length_drop, List.length_range']
    omega
  intro k h₁ h₂
  simp only [List.length_map, List.length_range'] at h₂
  simp only [List.getElem_map, List.getElem_take, List.getElem_drop, List.getElem_range', Nat.one_mul, byteAt]
  rw [List.getD_eq_getElem _ _ (by omega)]

theorem allBytes_range_map (buf : Bytes) (i : Nat) :
    Swar.AllBytes ((List.range' i sizeofLong).map fun k => (byteAt buf k).toNat) := by
  intro b hb
  obtain ⟨k, -, rfl⟩ := List.mem_map.mp hb
  exact UInt8.toNat_lt _

theorem toNat_loadLong {buf : Bytes} {i : Nat} (h : i + sizeofLong ≤ buf.length) :
    (loadLong buf i).toNat = Swar.value ((List.range' i sizeofLong).map fun k => (byteAt buf k).toNat) := by
  have hlt := Swar.value_lt (allBytes_range_map buf i)
  rw [List.length_map, List.length_range'] at hlt
  rw [loadLong, word_bytes h]
  exact UInt64.toNat_ofNat_of_lt' hlt

/-- Two words are equal when the pages agree on all their bytes. -/
theorem loadLong_eq_iff (hold : old.length = slen) (hnew : new.length = slen) {i : Nat}
    (h : i + sizeofLong ≤ slen) :
    loadLong old i = loadLong new i ↔ ∀ k < sizeofLong, same old new (i + k) = true := by
  rw [← UInt64.toNat_inj, toNat_loadLong (by omega), toNat_loadLong (by omega)]
  constructor
  · intro hval k hk
    have hbytes := Swar.value_inj (allBytes_range_map old i) (allBytes_range_map new i) (by simp) hval
    have hk' := (List.map_inj_left.mp hbytes) (i + k) (List.mem_range'.mpr ⟨k, hk, by omega⟩)
    simpa [same] using UInt8.toNat_inj.mp hk'
  · intro hsame
    congr 1
    refine List.map_congr_left fun m hm => ?_
    obtain ⟨k, hk, rfl⟩ := List.mem_range'.mp hm
    have := hsame k hk
    rw [Nat.one_mul]
    simp only [same, beq_iff_eq] at this
    rw [this]

theorem toNat_mask_shiftLeft : (mask <<< 7).toNat = 128 * Swar.ones 8 := by
  decide +kernel

/-- The machine word test is the test of `Swar`, on 8 bytes. -/
theorem hasZeroByte_iff (x : UInt64) : hasZeroByte x = true ↔ Swar.hasZeroByte 8 x.toNat ≠ 0 := by
  have hx := UInt64.toNat_lt x
  have hsub : (x - mask).toNat = (x.toNat + 256 ^ 8 - Swar.ones 8) % 256 ^ 8 := by
    have hones : Swar.ones 8 = 0x0101010101010101 := by decide +kernel
    have hpow : (256 : Nat) ^ 8 = 2 ^ 64 := by norm_num
    rw [UInt64.toNat_sub, show mask.toNat = Swar.ones 8 by rw [hones]; rfl, hpow,
      show 2 ^ 64 - Swar.ones 8 + x.toNat = x.toNat + 2 ^ 64 - Swar.ones 8 by omega]
  have hnot : (~~~x).toNat = 256 ^ 8 - 1 - x.toNat := by
    rw [UInt64.toNat_not]
    rfl
  rw [hasZeroByte, bne_iff_ne, ne_eq, ne_eq, ← UInt64.toNat_inj, UInt64.toNat_and, UInt64.toNat_and, hsub, hnot,
    toNat_mask_shiftLeft]
  rfl

/-- **The has-zero-byte test** on the `xor` of two words finds a byte
where the pages agree. -/
theorem hasZeroByte_loadLong_iff (hold : old.length = slen) (hnew : new.length = slen) {i : Nat}
    (h : i + sizeofLong ≤ slen) :
    hasZeroByte (loadLong old i ^^^ loadLong new i) = true ↔ ∃ k < sizeofLong, same old new (i + k) = true := by
  have hxor : (List.range' i sizeofLong).map (fun k => (byteAt old k).toNat ^^^ (byteAt new k).toNat) =
      List.zipWith (· ^^^ ·) ((List.range' i sizeofLong).map fun k => (byteAt old k).toNat)
        ((List.range' i sizeofLong).map fun k => (byteAt new k).toNat) := by
    rw [List.zipWith_map, List.zipWith_self]
  have hbytes : Swar.AllBytes ((List.range' i sizeofLong).map fun k => (byteAt old k).toNat ^^^ (byteAt new k).toNat) := by
    rw [hxor]
    exact Swar.allBytes_zipWith_xor (allBytes_range_map old i) (allBytes_range_map new i)
  have hlen : ((List.range' i sizeofLong).map fun k => (byteAt old k).toNat ^^^ (byteAt new k).toNat).length = 8 := by
    simp [sizeofLong]
  rw [hasZeroByte_iff, UInt64.toNat_xor, toNat_loadLong (by omega), toNat_loadLong (by omega),
    Swar.value_xor (allBytes_range_map old i) (allBytes_range_map new i) (by simp), ← hxor, ← hlen,
    Swar.hasZeroByte_ne_zero_iff hbytes, List.mem_map]
  constructor
  · rintro ⟨m, hm, hzero⟩
    obtain ⟨k, hk, rfl⟩ := List.mem_range'.mp hm
    refine ⟨k, hk, ?_⟩
    rw [Nat.one_mul] at hzero
    simpa [same] using UInt8.toNat_inj.mp (Nat.xor_eq_zero_iff.mp hzero)
  · rintro ⟨k, hk, hsame⟩
    refine ⟨i + k, List.mem_range'.mpr ⟨k, hk, by omega⟩, ?_⟩
    simp only [same, beq_iff_eq] at hsame
    rw [hsame, Nat.xor_self]

end Scans

/-! ### The scans of a run -/

theorem sizeofLong_eq : sizeofLong = 8 := rfl

section Lengths

variable {old new : Bytes} {slen : Nat} (hold : old.length = slen) (hnew : new.length = slen)
include hold hnew

/-- **The word loop of a zrun** goes over the whole words of the zrun. -/
theorem zrunWords_eq : ∀ (fuel i zrunLen : Nat), (slen - i) % sizeofLong = 0 → (slen - i) / sizeofLong ≤ fuel →
    zrunWords old new slen fuel i zrunLen =
      (i + sizeofLong * (runLength old new slen true i / sizeofLong),
        zrunLen + sizeofLong * (runLength old new slen true i / sizeofLong))
  | 0, i, zrunLen, halign, hfuel => by
    rw [sizeofLong_eq] at halign hfuel ⊢
    rw [runLength_of_le (by omega)]
    rfl
  | fuel + 1, i, zrunLen, halign, hfuel => by
    rw [zrunWords]
    by_cases hi : i < slen
    · have hword : i + sizeofLong ≤ slen := by rw [sizeofLong_eq] at halign ⊢; omega
      have hfit : sizeofLong ≤ slen - i := by omega
      by_cases hw : loadLong old i = loadLong new i
      · -- a whole word of the zrun
        have hr : sizeofLong ≤ runLength old new slen true i :=
          (le_runLength_iff hfit).mpr ((loadLong_eq_iff hold hnew hword).mp hw)
        rw [if_pos ⟨hi, hw⟩, zrunWords_eq fuel (i + sizeofLong) (zrunLen + sizeofLong)
          (by rw [sizeofLong_eq] at halign ⊢; omega) (by rw [sizeofLong_eq] at hfuel ⊢; omega),
          runLength_add hr]
        rw [sizeofLong_eq] at hr ⊢
        simp only [Prod.mk.injEq]
        omega
      · -- the zrun ends inside this word
        have hr : runLength old new slen true i < sizeofLong := by
          by_contra hge
          exact hw ((loadLong_eq_iff hold hnew hword).mpr ((le_runLength_iff hfit).mp (by omega)))
        rw [if_neg fun h => hw h.2]
        rw [sizeofLong_eq] at hr ⊢
        simp only [Prod.mk.injEq]
        omega
    · rw [if_neg fun h => hi h.1, runLength_of_le (by omega)]
      simp

/-- **The word loop of an nzrun** goes over the words in which no byte
agrees, then over the bytes of the word that ends the nzrun. -/
theorem nzrunWords_eq : ∀ (fuel i nzrunLen : Nat), (slen - i) % sizeofLong = 0 → (slen - i) / sizeofLong ≤ fuel →
    nzrunWords old new slen fuel i nzrunLen =
      (i + runLength old new slen false i, nzrunLen + runLength old new slen false i)
  | 0, i, nzrunLen, halign, hfuel => by
    rw [sizeofLong_eq] at halign hfuel
    rw [runLength_of_le (by omega)]
    rfl
  | fuel + 1, i, nzrunLen, halign, hfuel => by
    rw [nzrunWords]
    by_cases hi : i < slen
    · have hword : i + sizeofLong ≤ slen := by rw [sizeofLong_eq] at halign ⊢; omega
      have hfit : sizeofLong ≤ slen - i := by omega
      rw [if_pos hi]
      by_cases hz : hasZeroByte (loadLong old i ^^^ loadLong new i) = true
      · -- an agreeing byte in this word ends the nzrun there
        obtain ⟨k, hk, hsame⟩ := (hasZeroByte_loadLong_iff hold hnew hword).mp hz
        have hr : runLength old new slen false i < sizeofLong := by
          by_contra hge
          have hall : ∀ k < sizeofLong, same old new (i + k) = false := (le_runLength_iff hfit).mp (by omega)
          rw [hall k hk] at hsame
          cases hsame
        rw [if_pos hz, runBytes_eq slen false sizeofLong i nzrunLen hfit, min_eq_right hr.le]
      · -- no byte of this word agrees
        have hr : sizeofLong ≤ runLength old new slen false i := by
          refine (le_runLength_iff hfit).mpr fun k hk => ?_
          by_contra hne
          exact hz ((hasZeroByte_loadLong_iff hold hnew hword).mpr ⟨k, hk, by simpa using hne⟩)
        rw [if_neg hz, nzrunWords_eq fuel (i + sizeofLong) (nzrunLen + sizeofLong)
          (by rw [sizeofLong_eq] at halign ⊢; omega) (by rw [sizeofLong_eq] at hfuel ⊢; omega),
          runLength_add hr]
        simp only [Prod.mk.injEq]
        omega
    · rw [if_neg hi, runLength_of_le (by omega)]
      rfl

/-- **The scan of a zrun** measures it. -/
theorem zrunScan_eq {i : Nat} (hi : i ≤ slen) :
    zrunScan old new slen i = (i + runLength old new slen true i, runLength old new slen true i) := by
  have hle : runLength old new slen true i ≤ slen - i := runLength_le true i
  have hres : (slen - i) % sizeofLong ≤ slen - i := Nat.mod_le _ _
  unfold zrunScan
  rw [runBytes_eq slen true _ i 0 hres]
  by_cases hshort : runLength old new slen true i < (slen - i) % sizeofLong
  · -- the zrun ends before a multiple of a word is left
    rw [min_eq_right hshort.le]
    dsimp only
    rw [if_neg (by omega), zero_add]
  · -- bytes up to a multiple of a word, whole words, then the rest
    have hhead : (slen - i) % sizeofLong ≤ runLength old new slen true i := by omega
    have halign : (slen - (i + (slen - i) % sizeofLong)) % sizeofLong = 0 := by
      rw [sizeofLong_eq]
      omega
    have hwords := zrunWords_eq hold hnew slen (i + (slen - i) % sizeofLong) ((slen - i) % sizeofLong) halign
      (by rw [sizeofLong_eq]; omega)
    rw [runLength_add hhead] at hwords
    have hw : sizeofLong * ((runLength old new slen true i - (slen - i) % sizeofLong) / sizeofLong) ≤
        runLength old new slen true (i + (slen - i) % sizeofLong) := by
      rw [runLength_add hhead]
      exact Nat.mul_div_le _ _
    have hrest := runLength_add hw
    rw [runLength_add hhead] at hrest
    have htail : runLength old new slen true
        (i + (slen - i) % sizeofLong + sizeofLong * ((runLength old new slen true i - (slen - i) % sizeofLong) / sizeofLong)) ≤
        slen - (i + (slen - i) % sizeofLong +
          sizeofLong * ((runLength old new slen true i - (slen - i) % sizeofLong) / sizeofLong)) :=
      runLength_le true _
    have hwle := Nat.mul_div_le (runLength old new slen true i - (slen - i) % sizeofLong) sizeofLong
    rw [min_eq_left hhead, Nat.sub_self, zero_add]
    dsimp only
    rw [if_pos rfl, hwords]
    dsimp only
    rw [runBytes_eq slen true _ _ _ le_rfl, hrest, min_eq_right (by rw [← hrest]; exact htail)]
    simp only [Prod.mk.injEq]
    omega

/-- **The scan of an nzrun** measures it. -/
theorem nzrunScan_eq {i : Nat} (hi : i ≤ slen) :
    nzrunScan old new slen i = (i + runLength old new slen false i, runLength old new slen false i) := by
  have hres : (slen - i) % sizeofLong ≤ slen - i := Nat.mod_le _ _
  unfold nzrunScan
  rw [runBytes_eq slen false _ i 0 hres]
  by_cases hshort : runLength old new slen false i < (slen - i) % sizeofLong
  · -- the nzrun ends before a multiple of a word is left
    rw [min_eq_right hshort.le]
    dsimp only
    rw [if_neg (by omega), zero_add]
  · -- bytes up to a multiple of a word, then words
    have hhead : (slen - i) % sizeofLong ≤ runLength old new slen false i := by omega
    have halign : (slen - (i + (slen - i) % sizeofLong)) % sizeofLong = 0 := by
      rw [sizeofLong_eq]
      omega
    rw [min_eq_left hhead, Nat.sub_self, zero_add]
    dsimp only
    rw [if_pos rfl, nzrunWords_eq hold hnew slen _ _ halign (by rw [sizeofLong_eq]; omega), runLength_add hhead]
    simp only [Prod.mk.injEq]
    omega

end Lengths

/-! ## The canonical runs, run by run -/

section Canonical

variable {old new : Bytes} {slen : Nat}

theorem runs_of_end {i : Nat} (h : slen ≤ i + runLength old new slen true i) : runs old new slen i = [] := by
  rw [runs, dif_neg (by omega)]

theorem runs_of_lt {i : Nat} (h : i + runLength old new slen true i < slen) :
    runs old new slen i =
      (runLength old new slen true i,
        (new.drop (i + runLength old new slen true i)).take
          (runLength old new slen false (i + runLength old new slen true i))) ::
        runs old new slen
          (i + runLength old new slen true i + runLength old new slen false (i + runLength old new slen true i)) := by
  rw [runs, dif_pos h]

theorem runsBytes_cons (z : Nat) (nz : Bytes) (rs : List (Nat × Bytes)) :
    runsBytes ((z, nz) :: rs) = uleb128Bytes z ++ uleb128Bytes nz.length ++ nz ++ runsBytes rs := rfl

theorem runs_eq_nil_iff {i : Nat} : runs old new slen i = [] ↔ slen ≤ i + runLength old new slen true i := by
  constructor
  · intro h
    by_contra hlt
    rw [runs_of_lt (by omega)] at h
    exact List.cons_ne_nil _ _ h
  · exact runs_of_end

/-- Every run takes at least a byte. -/
theorem length_le_length_runsBytes : ∀ rs : List (Nat × Bytes), rs.length ≤ (runsBytes rs).length
  | [] => le_rfl
  | (z, nz) :: rs => by
    have h₁ := one_le_length_uleb128Bytes z
    have h₂ := length_le_length_runsBytes rs
    simp only [runsBytes, List.length_append, List.length_cons]
    omega

/-- A zrun that reaches the end of the page is the last zrun: the pages
agree on their last byte. -/
theorem same_last_of_end {i : Nat} (hi : i < slen) (h : slen ≤ i + runLength old new slen true i) :
    same old new (slen - 1) = true := by
  obtain ⟨hsame, hle, -⟩ := isRun_runLength old new slen true i
  have := hsame (slen - 1 - i) (by omega)
  rwa [show i + (slen - 1 - i) = slen - 1 by omega] at this

/-- An nzrun that reaches the end of the page: the pages differ on their
last byte. -/
theorem same_last_of_nzrun_end {j : Nat} (hpos : 0 < runLength old new slen false j)
    (h : j + runLength old new slen false j = slen) : same old new (slen - 1) = false := by
  have := (isRun_runLength old new slen false j).same_eq (runLength old new slen false j - 1) (by omega)
  rwa [show j + (runLength old new slen false j - 1) = slen - 1 by omega] at this

/-- After an nzrun that stops before the end, the next zrun starts. -/
theorem same_of_nzrun_stop {j : Nat} (h : j + runLength old new slen false j < slen) :
    same old new (j + runLength old new slen false j) = true := by
  simpa using (isRun_runLength old new slen false j).stop h

/-- The new bytes of an nzrun are as many as it is long. -/
theorem length_nzrun (hnew : new.length = slen) (j : Nat) :
    ((new.drop j).take (runLength old new slen false j)).length = runLength old new slen false j := by
  have : runLength old new slen false j ≤ slen - j := runLength_le false j
  simp only [List.length_take, List.length_drop, hnew]
  omega

variable (old new slen) in
/-- When the encoder gives up from offset `i` with `d` bytes written: the
runs from `i` do not fit in `dlen`, or the last zrun follows them and
they fit with fewer than two bytes to spare. -/
def Overflows (dlen : Int) (d i : Nat) : Prop :=
  i < slen ∧ (dlen < d + (runsBytes (runs old new slen i)).length ∨
    (same old new (slen - 1) = true ∧ dlen < d + (runsBytes (runs old new slen i)).length + 2))

/-- No room for two bytes at the top of the loop. -/
theorem overflows_of_top {dlen : Int} {d i : Nat} (hi : i < slen) (h : (d : Int) + 2 > dlen) :
    Overflows old new slen dlen d i := by
  refine ⟨hi, ?_⟩
  by_cases hr : i + runLength old new slen true i < slen
  · -- at least the two lengths of the next runs are still to be written
    left
    rw [runs_of_lt hr, runsBytes_cons]
    have h₁ := one_le_length_uleb128Bytes (runLength old new slen true i)
    have h₂ := one_le_length_uleb128Bytes
      ((new.drop (i + runLength old new slen true i)).take
        (runLength old new slen false (i + runLength old new slen true i))).length
    simp only [List.length_append]
    omega
  · right
    rw [runs_of_end (by omega)]
    exact ⟨same_last_of_end hi (by omega), by simp only [runsBytes, List.length_nil]; omega⟩

/-- The length of the bytes of the runs from `i`, one run at a time. -/
theorem length_runsBytes_of_lt (hnew : new.length = slen) {i : Nat}
    (h : i + runLength old new slen true i < slen) :
    ((runsBytes (runs old new slen i)).length : Int) =
      (uleb128Bytes (runLength old new slen true i)).length +
        (uleb128Bytes (runLength old new slen false (i + runLength old new slen true i))).length +
        runLength old new slen false (i + runLength old new slen true i) +
        (runsBytes (runs old new slen (i + runLength old new slen true i +
          runLength old new slen false (i + runLength old new slen true i)))).length := by
  rw [runs_of_lt h, runsBytes_cons]
  simp only [List.length_append, length_nzrun hnew]
  push_cast
  ring

/-- Runs that end in the last zrun do not overflow when two bytes are
left. -/
theorem not_overflows_of_end {dlen : Int} {d i : Nat} (h : slen ≤ i + runLength old new slen true i)
    (hroom : ¬(d : Int) + 2 > dlen) : ¬Overflows old new slen dlen d i := by
  rw [Overflows, runs_of_end h]
  simp only [runsBytes, List.length_nil, Nat.cast_zero, add_zero]
  rintro ⟨-, h | ⟨-, h⟩⟩ <;> omega

/-- One run on: after writing the lengths and bytes of the run from `i`
within `dlen`, the runs left overflow exactly when those from `i` did. -/
theorem overflows_step (hnew : new.length = slen) {dlen : Int} {d i : Nat}
    (hj : i + runLength old new slen true i < slen)
    (hfit : ¬((d + (uleb128Bytes (runLength old new slen true i)).length +
      (uleb128Bytes (runLength old new slen false (i + runLength old new slen true i))).length : Nat) : Int) +
        (runLength old new slen false (i + runLength old new slen true i) : Int) > dlen) :
    Overflows old new slen dlen
        (d + (uleb128Bytes (runLength old new slen true i)).length +
          (uleb128Bytes (runLength old new slen false (i + runLength old new slen true i))).length +
          runLength old new slen false (i + runLength old new slen true i))
        (i + runLength old new slen true i + runLength old new slen false (i + runLength old new slen true i)) ↔
      Overflows old new slen dlen d i := by
  have hlen := length_runsBytes_of_lt hnew hj
  have hi : i < slen := by omega
  by_cases hk : i + runLength old new slen true i + runLength old new slen false (i + runLength old new slen true i) < slen
  · -- the same runs are left to write, with the same room for them
    simp only [Overflows, hk, hi, true_and, hlen]
    push_cast at hfit ⊢
    constructor <;> rintro (h | ⟨hs, h⟩)
    · exact Or.inl (by omega)
    · exact Or.inr ⟨hs, by omega⟩
    · exact Or.inl (by omega)
    · exact Or.inr ⟨hs, by omega⟩
  · -- the nzrun ends the page: everything fitted, and the last byte differs
    have hend : i + runLength old new slen true i + runLength old new slen false (i + runLength old new slen true i) = slen := by
      have : runLength old new slen false (i + runLength old new slen true i) ≤
          slen - (i + runLength old new slen true i) := runLength_le false _
      omega
    have hlast := same_last_of_nzrun_end (runLength_false_pos hj) (by omega)
    have hnil : runs old new slen
        (i + runLength old new slen true i + runLength old new slen false (i + runLength old new slen true i)) = [] :=
      runs_of_end (by omega)
    rw [hnil, runsBytes, List.length_nil, Nat.cast_zero] at hlen
    simp only [Overflows, hk, false_and, false_iff, hlast, hi, true_and, Bool.false_eq_true, false_and, or_false]
    push_cast at hfit
    omega

end Canonical

/-! ## The encoder -/

section Encoder

variable {old new : Bytes} {slen : Nat} (hold : old.length = slen) (hnew : new.length = slen)
include hold hnew

/-- **The encoder's loop** from offset `i`, having written `dst`: it
returns `-1` exactly when the runs from `i` overflow, and otherwise
appends their bytes and returns the new length. -/
theorem encodeLoop_spec (hslen : slen ≤ 0x3fff) (dlen : Int) (fuel : Nat) :
    ∀ i dst, slen - i < fuel → i ≤ slen → (i = 0 → dst = []) →
      ∃ ret dst', encodeLoop old new slen dlen fuel i dst = some (ret, dst') ∧
        (ret = -1 ↔ Overflows old new slen dlen dst.length i) ∧
        (ret ≠ -1 → ret = dst.length + (runsBytes (runs old new slen i)).length ∧
          dst' = dst ++ runsBytes (runs old new slen i)) := by
  induction fuel with
  | zero => intro i dst hfuel; omega
  | succ fuel ih =>
    intro i dst hfuel hi hzero
    rw [encodeLoop]
    by_cases hlt : i < slen
    swap
    · -- the loop is over
      rw [if_neg hlt, runs_of_end (by omega)]
      exact ⟨dst.length, dst, rfl, iff_of_false (by omega) (fun h => hlt h.1), fun _ => by simp [runsBytes]⟩
    rw [if_pos hlt]
    by_cases htop : (dst.length : Int) + 2 > dlen
    · rw [if_pos htop]
      exact ⟨-1, dst, rfl, iff_of_true rfl (overflows_of_top hlt htop), fun h => absurd rfl h⟩
    rw [if_neg htop, zrunScan_eq hold hnew hi]
    have hzle : runLength old new slen true i ≤ slen - i := runLength_le true i
    dsimp only
    by_cases hall : runLength old new slen true i = slen
    · -- the pages are equal: nothing is written
      have hnil : dst = [] := hzero (by omega)
      subst hnil
      rw [if_pos hall, runs_of_end (by omega)]
      exact ⟨0, [], rfl, iff_of_false (by omega) (not_overflows_of_end (by omega) htop), fun _ => by simp [runsBytes]⟩
    rw [if_neg hall]
    by_cases hend : i + runLength old new slen true i = slen
    · -- the last zrun is not written
      rw [if_pos hend, runs_of_end (by omega)]
      exact ⟨dst.length, dst, rfl, iff_of_false (by omega) (not_overflows_of_end (by omega) htop),
        fun _ => by simp [runsBytes]⟩
    rw [if_neg hend]
    have hj : i + runLength old new slen true i < slen := by omega
    have hnzpos := runLength_false_pos hj
    have hnzle : runLength old new slen false (i + runLength old new slen true i) ≤
        slen - (i + runLength old new slen true i) := runLength_le false _
    have hlen := length_runsBytes_of_lt hnew hj
    have hu := one_le_length_uleb128Bytes (runLength old new slen false (i + runLength old new slen true i))
    rw [uleb128EncodeSmall_eq (by omega), Option.bind_some]
    by_cases hroom : ((dst ++ uleb128Bytes (runLength old new slen true i)).length : Int) + 2 > dlen
    · -- no room for the nzrun's length and a byte
      rw [if_pos hroom]
      refine ⟨-1, _, rfl, iff_of_true rfl ⟨hlt, Or.inl ?_⟩, fun h => absurd rfl h⟩
      rw [hlen]
      simp only [List.length_append, Nat.cast_add] at hroom
      omega
    rw [if_neg hroom, nzrunScan_eq hold hnew (by omega)]
    rw [uleb128EncodeSmall_eq (by omega), Option.bind_some]
    by_cases hfit : ((dst ++ uleb128Bytes (runLength old new slen true i) ++
        uleb128Bytes (runLength old new slen false (i + runLength old new slen true i))).length : Int) +
          (runLength old new slen false (i + runLength old new slen true i) : Int) > dlen
    · -- no room for the nzrun's bytes
      rw [if_pos hfit]
      refine ⟨-1, _, rfl, iff_of_true rfl ⟨hlt, Or.inl ?_⟩, fun h => absurd rfl h⟩
      rw [hlen]
      simp only [List.length_append, Nat.cast_add] at hfit
      omega
    -- the run is written: the loop goes on from the next zrun
    rw [if_neg hfit]
    obtain ⟨ret, dst', hloop, hiff, hval⟩ := ih
      (i + runLength old new slen true i + runLength old new slen false (i + runLength old new slen true i))
      (dst ++ uleb128Bytes (runLength old new slen true i) ++
        uleb128Bytes (runLength old new slen false (i + runLength old new slen true i)) ++
        (new.drop (i + runLength old new slen true i)).take (runLength old new slen false (i + runLength old new slen true i)))
      (by omega) (by omega) (by omega)
    have hd : (dst ++ uleb128Bytes (runLength old new slen true i) ++
        uleb128Bytes (runLength old new slen false (i + runLength old new slen true i)) ++
        (new.drop (i + runLength old new slen true i)).take
          (runLength old new slen false (i + runLength old new slen true i))).length =
        dst.length + (uleb128Bytes (runLength old new slen true i)).length +
          (uleb128Bytes (runLength old new slen false (i + runLength old new slen true i))).length +
          runLength old new slen false (i + runLength old new slen true i) := by
      simp only [List.length_append, length_nzrun hnew]
    rw [hd] at hiff hval
    refine ⟨ret, dst', hloop, hiff.trans (overflows_step hnew hj (by rwa [List.length_append, List.length_append] at hfit)), fun hret => ?_⟩
    obtain ⟨hret, rfl⟩ := hval hret
    refine ⟨by rw [hret, hlen]; push_cast; ring, ?_⟩
    rw [runs_of_lt hj, runsBytes_cons, length_nzrun hnew]
    simp only [List.append_assoc]

end Encoder

/-! ## The decoder -/

section Decoder

variable {old new : Bytes} {slen : Nat} (hold : old.length = slen) (hnew : new.length = slen)
include hold hnew

/-- Over a zrun the two pages hold the same bytes. -/
theorem take_drop_eq_of_same {p r : Nat} (hr : p + r ≤ slen) (h : ∀ k < r, same old new (p + k) = true) :
    (old.drop p).take r = (new.drop p).take r := by
  apply List.ext_getElem
  · simp only [List.length_take, List.length_drop, hold, hnew]
  intro k h₁ h₂
  simp only [List.length_take, List.length_drop] at h₁
  have hk := h k (by omega)
  simp only [same, beq_iff_eq, byteAt] at hk
  rw [List.getD_eq_getElem _ _ (by omega), List.getD_eq_getElem _ _ (by omega)] at hk
  simpa only [List.getElem_take, List.getElem_drop] using hk

/-- From the last zrun on, the old page is the new one. -/
theorem take_append_drop_of_end {p : Nat} (hp : p ≤ slen) (h : slen ≤ p + runLength old new slen true p) :
    new.take p ++ old.drop p = new := by
  have hall : (old.drop p).take (slen - p) = (new.drop p).take (slen - p) :=
    take_drop_eq_of_same hold hnew (by omega) fun k hk => (isRun_runLength old new slen true p).same_eq k (by omega)
  rw [List.take_of_length_le (by simp [hold]), List.take_of_length_le (by simp [hnew])] at hall
  rw [hall, List.take_append_drop]

/-- Copying an nzrun that follows a zrun onto a page that holds the new
bytes up to the zrun: it holds them up to the end of the nzrun. -/
theorem memcpy_run {p r r' : Nat} (hr : p + r + r' ≤ slen) (h : ∀ k < r, same old new (p + k) = true)
    {src : Bytes} {i : Nat} (hsrc : (src.drop i).take r' = (new.drop (p + r)).take r') :
    memcpy (new.take p ++ old.drop p) (p + r) src i r' = new.take (p + r + r') ++ old.drop (p + r + r') := by
  have hp : (new.take p).length = p := by simp [hnew]; omega
  have hzrun := take_drop_eq_of_same hold hnew (by omega) h
  have htake : (new.take p).take (p + r) = new.take p := List.take_of_length_le (by omega)
  have hdrop : (new.take p).drop (p + r + r') = [] := List.drop_of_length_le (by omega)
  rw [memcpy, hsrc, List.take_append, List.drop_append, hp, htake, hdrop, List.nil_append, show p + r - p = r by omega,
    show p + r + r' - p = r + r' by omega, List.drop_drop, hzrun, ← List.take_add, ← List.take_add,
    show p + (r + r') = p + r + r' by omega]

/-- **The decoder's loop** over the runs from offset `p` of the page,
after `pre` has been read and with the new page written up to `p`: every
check passes, and it returns the new page and an offset in `[p, slen]`. -/
theorem decodeLoop_spec (hslen : slen ≤ 0x3fff) (fuel : Nat) :
    ∀ p (pre : Bytes), (runs old new slen p).length ≤ fuel → p ≤ slen →
      (0 < pre.length → p < slen → same old new p = true) →
      ∃ e, p ≤ e ∧ e ≤ slen ∧
        decodeLoop (pre ++ runsBytes (runs old new slen p)) (pre ++ runsBytes (runs old new slen p)).length
          slen fuel pre.length p (new.take p ++ old.drop p) = ((e : Int), new) := by
  induction fuel with
  | zero =>
    intro p pre hfuel hp _
    have hend := runs_eq_nil_iff.mp (List.eq_nil_of_length_eq_zero (Nat.le_zero.mp hfuel))
    exact ⟨p, le_rfl, hp, by rw [decodeLoop, take_append_drop_of_end hold hnew hp hend]⟩
  | succ fuel ih =>
    intro p pre hfuel hp hfirst
    by_cases hj : p + runLength old new slen true p < slen
    swap
    · -- only the last zrun is left, which is not in the source
      have hend : slen ≤ p + runLength old new slen true p := by omega
      refine ⟨p, le_rfl, hp, ?_⟩
      rw [runs_of_end hend, runsBytes, List.append_nil, decodeLoop, if_neg (lt_irrefl _),
        take_append_drop_of_end hold hnew hp hend]
    -- a zrun and an nzrun are left: read both lengths and copy the nzrun
    have hzle : runLength old new slen true p ≤ slen - p := runLength_le true p
    have hzrun := (isRun_runLength old new slen true p).same_eq
    have hzpos : 0 < pre.length → 0 < runLength old new slen true p := fun h => by
      rw [runLength_of_same (by omega) (hfirst h (by omega))]
      omega
    have hnzpos := runLength_false_pos hj
    have hnzle : runLength old new slen false (p + runLength old new slen true p) ≤
        slen - (p + runLength old new slen true p) := runLength_le false _
    have hnext : p + runLength old new slen true p + runLength old new slen false (p + runLength old new slen true p) < slen →
        same old new (p + runLength old new slen true p + runLength old new slen false (p + runLength old new slen true p)) = true :=
      same_of_nzrun_stop
    rw [runs_of_lt hj, runsBytes_cons, length_nzrun hnew]
    rw [runs_of_lt hj, List.length_cons] at hfuel
    generalize runLength old new slen true p = r at hzle hzrun hzpos hnzpos hnzle hnext hfuel ⊢
    generalize runLength old new slen false (p + r) = r' at hnzpos hnzle hnext hfuel ⊢
    have hnz : ((new.drop (p + r)).take r').length = r' := by
      simp only [List.length_take, List.length_drop, hnew]
      omega
    obtain ⟨e, hke, hes, hloop⟩ := ih (p + r + r')
      (pre ++ uleb128Bytes r ++ uleb128Bytes r' ++ (new.drop (p + r)).take r') (by omega) (by omega)
      (fun _ hk => hnext hk)
    have hpre : (pre ++ uleb128Bytes r ++ uleb128Bytes r' ++ (new.drop (p + r)).take r').length =
        pre.length + (uleb128Bytes r).length + (uleb128Bytes r').length + r' := by
      simp only [List.length_append, hnz]
    rw [hpre] at hloop
    refine ⟨e, by omega, hes, ?_⟩
    -- the source, cut at each field the decoder reads
    rw [show pre ++ (uleb128Bytes r ++ uleb128Bytes r' ++ (new.drop (p + r)).take r' ++
        runsBytes (runs old new slen (p + r + r'))) = pre ++ uleb128Bytes r ++ uleb128Bytes r' ++
          (new.drop (p + r)).take r' ++ runsBytes (runs old new slen (p + r + r')) by simp only [List.append_assoc]]
    have hm : (pre ++ uleb128Bytes r ++ uleb128Bytes r' ++ (new.drop (p + r)).take r' ++
        runsBytes (runs old new slen (p + r + r'))).length =
        pre.length + (uleb128Bytes r).length + (uleb128Bytes r').length + r' +
          (runsBytes (runs old new slen (p + r + r'))).length := by
      simp only [List.length_append, hnz]
    have hu₁ := one_le_length_uleb128Bytes r
    have hu₂ := one_le_length_uleb128Bytes r'
    have hdec₁ := uleb128DecodeSmall_uleb128Bytes (show r ≤ 0x3fff by omega) pre
      (uleb128Bytes r' ++ (new.drop (p + r)).take r' ++ runsBytes (runs old new slen (p + r + r')))
    have hdec₂ := uleb128DecodeSmall_uleb128Bytes (show r' ≤ 0x3fff by omega) (pre ++ uleb128Bytes r)
      ((new.drop (p + r)).take r' ++ runsBytes (runs old new slen (p + r + r')))
    simp only [← List.append_assoc, List.length_append] at hdec₁ hdec₂
    have hcopy : ((pre ++ uleb128Bytes r ++ uleb128Bytes r' ++ (new.drop (p + r)).take r' ++
        runsBytes (runs old new slen (p + r + r'))).drop
          (pre.length + (uleb128Bytes r).length + (uleb128Bytes r').length)).take r' =
        (new.drop (p + r)).take r' := by
      rw [List.append_assoc _ ((new.drop (p + r)).take r'),
        show pre.length + (uleb128Bytes r).length + (uleb128Bytes r').length =
          (pre ++ uleb128Bytes r ++ uleb128Bytes r').length by simp only [List.length_append],
        List.drop_left, List.take_append, List.take_of_length_le (by omega), hnz, Nat.sub_self, List.take_zero,
        List.append_nil]
    have hfirst' : ¬(pre.length ≠ 0 ∧ r = 0) := by
      rintro ⟨hne, rfl⟩
      exact absurd (hzpos (Nat.pos_of_ne_zero hne)) (lt_irrefl 0)
    rw [decodeLoop, if_pos (by omega), if_neg (by omega), hdec₁]
    dsimp only
    rw [if_neg hfirst', if_neg (by omega), if_neg (by omega), hdec₂]
    dsimp only
    rw [if_neg (by omega), if_neg (by omega), memcpy_run hold hnew (by omega) hzrun hcopy]
    exact hloop

end Decoder

/-! ## A page, encoded and decoded -/

section RoundTrip

variable {old new : Bytes} {slen : Nat} (hold : old.length = slen) (hnew : new.length = slen)
include hold hnew

/-- The canonical encoding is empty exactly when the page is unchanged. -/
theorem canonicalEncoding_eq_nil_iff : canonicalEncoding old new slen = [] ↔ old = new := by
  rw [canonicalEncoding]
  constructor
  · intro h
    have hle := length_le_length_runsBytes (runs old new slen 0)
    rw [h, List.length_nil, Nat.le_zero, List.length_eq_zero_iff] at hle
    simpa using take_append_drop_of_end hold hnew (Nat.zero_le _) (runs_eq_nil_iff.mp hle)
  · rintro rfl
    have hall : slen ≤ runLength old old slen true 0 :=
      (le_runLength_iff (by omega)).mpr fun k _ => by simp [same]
    rw [runs_of_end (by omega), runsBytes]

/-- **XBZRLE round trip.** On pages of `slen ≤ 0x3fff` bytes, a multiple
of `sizeof(long)`, the encoder returns `-1` exactly when the canonical
encoding does not fit in `dlen`, or the page ends in unchanged bytes and
it fits with fewer than two bytes to spare. Otherwise it returns the
canonical encoding and its length, which is within `dlen` for a
non-empty page and zero exactly for an unchanged page, and decoding it
onto the old page gives the new one. -/
theorem xbzrleEncodeBuffer_spec (hmul : slen % sizeofLong = 0) (hslen : slen ≤ 0x3fff) (dlen : Int) :
    ∃ ret dst, xbzrleEncodeBuffer old new slen dlen = some (ret, dst) ∧
      (ret = -1 ↔ 0 < slen ∧ (dlen < (canonicalEncoding old new slen).length ∨
        (same old new (slen - 1) = true ∧ dlen < (canonicalEncoding old new slen).length + 2))) ∧
      (ret ≠ -1 → ret = (canonicalEncoding old new slen).length ∧ dst = canonicalEncoding old new slen ∧
        (0 < slen → ret ≤ dlen) ∧ (ret = 0 ↔ old = new) ∧
        ∃ e : Nat, e ≤ slen ∧ xbzrleDecodeBuffer dst ret.toNat old slen = ((e : Int), new)) := by
  obtain ⟨ret, dst, henc, hiff, hval⟩ :=
    encodeLoop_spec hold hnew hslen dlen (slen + 1) 0 [] (by omega) (Nat.zero_le _) fun _ => rfl
  have hover : Overflows old new slen dlen 0 0 ↔ 0 < slen ∧ (dlen < (canonicalEncoding old new slen).length ∨
      (same old new (slen - 1) = true ∧ dlen < (canonicalEncoding old new slen).length + 2)) := by
    simp only [Overflows, canonicalEncoding, Nat.cast_zero, zero_add]
  rw [List.length_nil] at hiff hval
  refine ⟨ret, dst, by rw [xbzrleEncodeBuffer, if_neg (by omega)]; exact henc, hiff.trans hover, fun hret => ?_⟩
  have hfit := (not_congr (hiff.trans hover)).mp hret
  obtain ⟨hlen, rfl⟩ := hval hret
  rw [Nat.cast_zero, zero_add] at hlen
  refine ⟨hlen, List.nil_append _, fun hpos => ?_, ?_, ?_⟩
  · -- within `dlen` once the page is not empty
    rw [hlen]
    by_contra hgt
    exact hfit ⟨hpos, Or.inl (by rw [canonicalEncoding]; omega)⟩
  · rw [hlen, Nat.cast_eq_zero, List.length_eq_zero_iff, ← canonicalEncoding, canonicalEncoding_eq_nil_iff hold hnew]
  · -- the decoder replays the runs from the start of the page
    obtain ⟨e, -, hes, hdec⟩ := decodeLoop_spec hold hnew hslen
      (runsBytes (runs old new slen 0)).length 0 [] (length_le_length_runsBytes _) (Nat.zero_le _)
      fun h => absurd h (lt_irrefl 0)
    refine ⟨e, hes, ?_⟩
    rw [hlen, Int.toNat_natCast, xbzrleDecodeBuffer, List.nil_append]
    simpa using hdec

end RoundTrip

theorem xbzrleEncodeBuffer_spec_one_byte :
    ([1, 0, 0, 0, 0, 0, 0, 0] : Bytes).length = 8 ∧ ([0, 0, 0, 0, 0, 0, 0, 0] : Bytes).length = 8 ∧
      8 % sizeofLong = 0 ∧ 8 ≤ 0x3fff ∧
      ∃ ret dst, xbzrleEncodeBuffer [1, 0, 0, 0, 0, 0, 0, 0] [0, 0, 0, 0, 0, 0, 0, 0] 8 5 = some (ret, dst) ∧
        (ret = -1 ↔ 0 < 8 ∧
          ((5 : Int) < (canonicalEncoding [1, 0, 0, 0, 0, 0, 0, 0] [0, 0, 0, 0, 0, 0, 0, 0] 8).length ∨
            (same [1, 0, 0, 0, 0, 0, 0, 0] [0, 0, 0, 0, 0, 0, 0, 0] (8 - 1) = true ∧
              (5 : Int) < (canonicalEncoding [1, 0, 0, 0, 0, 0, 0, 0] [0, 0, 0, 0, 0, 0, 0, 0] 8).length + 2))) ∧
        (ret ≠ -1 → ret = (canonicalEncoding [1, 0, 0, 0, 0, 0, 0, 0] [0, 0, 0, 0, 0, 0, 0, 0] 8).length ∧
          dst = canonicalEncoding [1, 0, 0, 0, 0, 0, 0, 0] [0, 0, 0, 0, 0, 0, 0, 0] 8 ∧
          (0 < 8 → ret ≤ 5) ∧ (ret = 0 ↔ ([1, 0, 0, 0, 0, 0, 0, 0] : Bytes) = [0, 0, 0, 0, 0, 0, 0, 0]) ∧
          ∃ e : Nat, e ≤ 8 ∧
            xbzrleDecodeBuffer dst ret.toNat [1, 0, 0, 0, 0, 0, 0, 0] 8 = ((e : Int), [0, 0, 0, 0, 0, 0, 0, 0])) :=
  ⟨rfl, rfl, rfl, by decide,
    xbzrleEncodeBuffer_spec (rfl : ([1, 0, 0, 0, 0, 0, 0, 0] : Bytes).length = 8)
      (rfl : ([0, 0, 0, 0, 0, 0, 0, 0] : Bytes).length = 8) rfl (by decide) 5⟩

/-- The encoder gives up on a page whose canonical encoding fits: it has
written all three bytes when the check at the top of the loop asks for
two more. On an empty page it returns `0` whatever `dlen` is. -/
theorem xbzrleEncodeBuffer_fails_with_room :
    xbzrleEncodeBuffer [1, 0, 0, 0, 0, 0, 0, 0] [0, 0, 0, 0, 0, 0, 0, 0] 8 3 = some (-1, [0, 1, 0]) ∧
      canonicalEncoding [1, 0, 0, 0, 0, 0, 0, 0] [0, 0, 0, 0, 0, 0, 0, 0] 8 = [0, 1, 0] ∧
      xbzrleEncodeBuffer [] [] 0 (-1) = some (0, []) := by
  refine ⟨by decide +kernel, by decide +kernel, by decide⟩


end QemuFormal.Xbzrle

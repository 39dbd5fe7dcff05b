/-
QemuFormal.Util.UnicodeTheorems — modified UTF-8 decoding and encoding
undo each other.

`utf8Bytes` is the arithmetic form of what `mod_utf8_encode` writes
(`modUtf8Encode_eq`). Whenever `mod_utf8_codepoint` succeeds,
re-encoding its code point gives back exactly the bytes it consumed
(`modUtf8Encode_of_codepoint`). That is what lets the JSON writer,
which decodes string bytes and escapes their code points, and the JSON
parser, which decodes the escapes and encodes them again with
`mod_utf8_encode`, give back the bytes they started from.

The byte-level facts (how a lead byte splits into its length prefix and
its payload, how a continuation byte splits) are arithmetic on the
masks: a low mask keeps `b % 2^m` and a high one the multiple of `2^k`
(`BitArith.and_two_pow_sub_two_pow`).
-/
import QemuFormal.Lib.BitArith
import QemuFormal.Util.Unicode

namespace QemuFormal

open BitArith

/-- The bytes `mod_utf8_encode` writes for `c`, as arithmetic. -/
def utf8Bytes (c : Nat) : Bytes :=
  if 0 < c ∧ c ≤ 0x7F then [c.toUInt8]
  else if c ≤ 0x7FF then [(0xC0 + c / 64).toUInt8, (0x80 + c % 64).toUInt8]
  else if c ≤ 0xFFFF then
    [(0xE0 + c / 4096).toUInt8, (0x80 + c / 64 % 64).toUInt8, (0x80 + c % 64).toUInt8]
  else
    [(0xF0 + c / 262144).toUInt8, (0x80 + c / 4096 % 64).toUInt8,
      (0x80 + c / 64 % 64).toUInt8, (0x80 + c % 64).toUInt8]

/-- `mod_utf8_encode` writes `utf8Bytes` of a valid code point. -/
theorem modUtf8Encode_eq (cp : Int) :
    modUtf8Encode cp = if isValidCodepoint cp then some (utf8Bytes cp.toNat) else none := by
  unfold modUtf8Encode
  by_cases hv : isValidCodepoint cp
  · have hle : cp.toNat ≤ 0x10FFFF := by
      unfold isValidCodepoint at hv
      split_ifs at hv with h1
      omega
    simp only [hv, Bool.not_true, Bool.false_eq_true, if_false, if_true]
    unfold utf8Bytes
    split_ifs with h1 h2 h3
    · rw [show (0x7F : Nat) = 2 ^ 7 - 1 from rfl, and_mask, Nat.mod_eq_of_lt (by omega)]
    · rw [show (0x1F : Nat) = 2 ^ 5 - 1 from rfl, shiftRight_and_mask,
        show (0xC0 : Nat) = 2 ^ 5 * 6 from rfl, mul_two_pow_or (Nat.mod_lt _ (by omega)),
        show (0x3F : Nat) = 2 ^ 6 - 1 from rfl, and_mask,
        show (0x80 : Nat) = 2 ^ 6 * 2 from rfl, mul_two_pow_or (Nat.mod_lt _ (by omega))]
      simp only [Nat.mod_eq_of_lt (show cp.toNat / 2 ^ 6 < 2 ^ 5 by omega)]
      rfl
    · rw [show (0x0F : Nat) = 2 ^ 4 - 1 from rfl, shiftRight_and_mask,
        show (0xE0 : Nat) = 2 ^ 4 * 14 from rfl, mul_two_pow_or (Nat.mod_lt _ (by omega)),
        show (0x3F : Nat) = 2 ^ 6 - 1 from rfl, shiftRight_and_mask, and_mask,
        show (0x80 : Nat) = 2 ^ 6 * 2 from rfl, mul_two_pow_or (Nat.mod_lt _ (by omega)),
        mul_two_pow_or (Nat.mod_lt _ (by omega))]
      simp only [Nat.mod_eq_of_lt (show cp.toNat / 2 ^ 12 < 2 ^ 4 by omega)]
      rfl
    · rw [show (0x07 : Nat) = 2 ^ 3 - 1 from rfl, shiftRight_and_mask,
        show (0xF0 : Nat) = 2 ^ 3 * 30 from rfl, mul_two_pow_or (Nat.mod_lt _ (by omega)),
        show (0x3F : Nat) = 2 ^ 6 - 1 from rfl, shiftRight_and_mask, shiftRight_and_mask, and_mask,
        show (0x80 : Nat) = 2 ^ 6 * 2 from rfl, mul_two_pow_or (Nat.mod_lt _ (by omega)),
        mul_two_pow_or (Nat.mod_lt _ (by omega)), mul_two_pow_or (Nat.mod_lt _ (by omega))]
      simp only [Nat.mod_eq_of_lt (show cp.toNat / 2 ^ 18 < 2 ^ 3 by omega)]
      rfl
  · simp [hv]

/-! ## Bytes -/

/-- The length prefix of a lead byte of `len` bytes. -/
def leadBase (len : Nat) : Nat :=
  match len with
  | 2 => 0xC0
  | 3 => 0xE0
  | 4 => 0xF0
  | 5 => 0xF8
  | _ => 0xFC

/-- A byte under a mask of `m` low bits. -/
theorem toNat_and_lowMask (b : UInt8) (m : Nat) (hm : m ≤ 8) :
    (b &&& (2 ^ m - 1 : Nat).toUInt8).toNat = b.toNat % 2 ^ m := by
  have h : (2 ^ m - 1 : Nat) < 256 := by
    have := Nat.pow_le_pow_right (show 0 < 2 by decide) hm
    omega
  rw [UInt8.toNat_and, show ((2 ^ m - 1 : Nat).toUInt8).toNat = 2 ^ m - 1 from Nat.mod_eq_of_lt h, and_mask]

/-- The payload mask `(0x80 >> len) - 1` of a lead byte of `len` bytes. -/
theorem payloadMask_eq {len : Nat} (h2 : 2 ≤ len) (h6 : len ≤ 6) :
    (0x80 : UInt8) >>> len.toUInt8 - 1 = (2 ^ (7 - len) - 1 : Nat).toUInt8 := by
  obtain rfl | rfl | rfl | rfl | rfl : len = 2 ∨ len = 3 ∨ len = 4 ∨ len = 5 ∨ len = 6 := by omega
  all_goals rfl

/-- A lead byte is its length prefix plus its payload, which has
`7 - len` bits. -/
theorem lead_byte_split : ∀ b : UInt8, 0xC0 ≤ b → b < 0xFE →
    b.toNat = leadBase (leadLength b) + (b &&& ((0x80 >>> (leadLength b).toUInt8) - 1)).toNat ∧
    (b &&& ((0x80 >>> (leadLength b).toUInt8) - 1)).toNat < 2 ^ (7 - leadLength b) ∧
    2 ≤ leadLength b ∧ leadLength b ≤ 6 := by
  intro b hlo hhi
  have hlen : 2 ≤ leadLength b ∧ leadLength b ≤ 6 := by
    unfold leadLength
    split_ifs <;> omega
  rw [payloadMask_eq hlen.1 hlen.2, toNat_and_lowMask _ _ (by omega)]
  refine ⟨?_, Nat.mod_lt _ (Nat.two_pow_pos _), hlen⟩
  -- each length is a range of lead bytes, whose prefix is `leadBase`
  unfold leadLength
  simp only [UInt8.lt_iff_toNat_lt, UInt8.le_iff_toNat_le, UInt8.reduceToNat] at hlo hhi ⊢
  split_ifs <;> simp only [leadBase] <;> omega

/-- A continuation byte is 0x80 plus its six payload bits. -/
theorem cont_byte_split : ∀ b : UInt8, b &&& 0xC0 = 0x80 →
    b.toNat = 0x80 + (b &&& 0x3F).toNat ∧ (b &&& 0x3F).toNat < 64 := by
  intro b h
  have hb := b.toNat_lt
  have htop := congrArg UInt8.toNat h
  rw [UInt8.toNat_and, show (0xC0 : UInt8).toNat = 2 ^ 8 - 2 ^ 6 from rfl, and_two_pow_sub_two_pow _ (by decide),
    Nat.mod_eq_of_lt hb] at htop
  rw [show (0x3F : UInt8) = (2 ^ 6 - 1 : Nat).toUInt8 from rfl, toNat_and_lowMask _ _ (by decide)]
  simp only [UInt8.reduceToNat] at htop
  omega

/-- A nonzero byte below 0x80 is a one-byte code point. -/
theorem ascii_byte_range : ∀ b : UInt8, b ≠ 0 → b < 0x80 → 0 < b.toNat ∧ b.toNat < 0x80 := by
  intro b h0 hlt
  have h : b.toNat ≠ 0 := fun h => h0 (UInt8.toNat_inj.mp h)
  exact ⟨Nat.pos_of_ne_zero h, UInt8.lt_iff_toNat_lt.mp hlt⟩

/-- Bit 6 of a byte, the one that tells a lead byte from a continuation
byte. -/
theorem toNat_and_bit6 (b : UInt8) : (b &&& 0x40).toNat = b.toNat % 2 ^ 7 / 2 ^ 6 * 2 ^ 6 := by
  rw [UInt8.toNat_and, show (0x40 : UInt8).toNat = 2 ^ 7 - 2 ^ 6 from rfl, and_two_pow_sub_two_pow _ (by decide)]

/-- The bytes `mod_utf8_codepoint` takes for a lead byte. -/
theorem lead_byte_of_flags : ∀ b : UInt8, ¬b < 0x80 → ¬b ≥ 0xFE → ¬b &&& 0x40 = 0 →
    0xC0 ≤ b ∧ b < 0xFE := by
  intro b h1 h2 h3
  have hb := b.toNat_lt
  -- bit 6 of a byte from 0x80 on is what tells 0xC0 and above
  have h6 := toNat_and_bit6 b
  have h3' : (b &&& 0x40).toNat ≠ 0 := fun h => h3 (UInt8.toNat_inj.mp h)
  simp only [UInt8.lt_iff_toNat_lt, ge_iff_le, UInt8.le_iff_toNat_le, UInt8.reduceToNat] at h1 h2 ⊢
  omega

/-- A lead byte passes the tests `mod_utf8_codepoint` makes before it
reads continuation bytes. -/
theorem lead_byte_flags {b : UInt8} (hb1 : 0xC0 ≤ b) (hb2 : b < 0xFE) :
    b ≠ 0 ∧ ¬b < 0x80 ∧ ¬b ≥ 0xFE ∧ ¬b &&& 0x40 = 0 := by
  have h6 := toNat_and_bit6 b
  simp only [UInt8.lt_iff_toNat_lt, UInt8.le_iff_toNat_le, UInt8.reduceToNat] at hb1 hb2
  refine ⟨fun h => ?_, ?_, ?_, fun h => ?_⟩
  · rw [h] at hb1
    simp at hb1
  · simp only [UInt8.lt_iff_toNat_lt, UInt8.reduceToNat]
    omega
  · simp only [ge_iff_le, UInt8.le_iff_toNat_le, UInt8.reduceToNat]
    omega
  · rw [h, UInt8.toNat_zero] at h6
    omega

/-- Bytes with the same value are equal. -/
theorem byte_eq_of_toNat {b : UInt8} {v : Nat} (h : b.toNat = v) : b = v.toUInt8 := by
  rw [← h]; simp

/-! ## The continuation loop -/

/-- The code point continuation bytes extend `cp` to. -/
def contValue (cp : Nat) (cs : Bytes) : Nat := cs.foldl (fun a c => a * 64 + (c &&& 0x3F).toNat) cp

/-- When the continuation loop succeeds it has read `k` continuation
bytes, the first `k` of the input. -/
theorem readContinuation_some {n : Nat} : ∀ {k i cp : Nat} {s : Bytes} {cp' i' : Nat},
    readContinuation n k i cp s = (some cp', i') → i + k ≤ n →
    ∃ cs, cs.length = k ∧ s.take k = cs ∧ (∀ c ∈ cs, c &&& 0xC0 = 0x80) ∧
      cp' = contValue cp cs ∧ i' = i + k := by
  intro k
  induction k with
  | zero =>
    intro i cp s cp' i' h _
    simp only [readContinuation, Prod.mk.injEq, Option.some.injEq] at h
    exact ⟨[], rfl, by simp, by simp, by simp [contValue, h.1], by omega⟩
  | succ k ih =>
    intro i cp s cp' i' h hk
    have hi : i < n := by omega
    cases s with
    | nil =>
      simp [readContinuation, hi] at h
    | cons c rest =>
      simp only [readContinuation, hi, if_true, List.headD_cons, List.tail_cons] at h
      split at h
      · simp at h
      · rename_i hc
        obtain ⟨cs, hlen, htake, hcont, hval, hi'⟩ := ih h (by omega)
        refine ⟨c :: cs, by simp [hlen], by simp [htake], ?_, ?_, by omega⟩
        · intro x hx
          rcases List.mem_cons.mp hx with rfl | hx
          · simpa using hc
          · exact hcont x hx
        · simp [hval, contValue]

/-- Reading continuation bytes that are there succeeds. -/
theorem readContinuation_cont {n : Nat} : ∀ (cs : Bytes) (i cp : Nat) (s : Bytes),
    (∀ c ∈ cs, c &&& 0xC0 = 0x80) → i + cs.length ≤ n →
    readContinuation n cs.length i cp (cs ++ s) = (some (contValue cp cs), i + cs.length)
  | [], i, cp, s, _, _ => by simp [readContinuation, contValue]
  | c :: cs, i, cp, s, hc, hk => by
    have hi : i < n := by simp at hk; omega
    have hc0 : c &&& 0xC0 = 0x80 := hc c (by simp)
    simp only [List.length_cons, List.cons_append, readContinuation, hi, if_true, List.headD_cons,
      hc0, bne_self_eq_false, Bool.false_eq_true, if_false, List.tail_cons]
    rw [readContinuation_cont cs (i + 1) _ s (fun x hx => hc x (by simp [hx])) (by simp at hk; omega)]
    simp [contValue, Nat.add_assoc, Nat.add_comm 1]

/-! ## Decoding -/

/-- A valid code point is in `0..0x10FFFF`. -/
theorem isValidCodepoint_range {cp : Int} (h : isValidCodepoint cp = true) :
    0 ≤ cp ∧ cp ≤ 0x10FFFF := by
  unfold isValidCodepoint at h
  split_ifs at h with h1
  omega

/-- Every code point below the surrogates is valid. -/
theorem isValidCodepoint_of_lt {cp : Int} (h0 : 0 ≤ cp) (h : cp < 0xD800) :
    isValidCodepoint cp = true := by
  have hand : cp.toNat &&& 0xFFFE ≤ cp.toNat := Nat.and_le_left
  unfold isValidCodepoint
  split_ifs with h1 h2 h3
  · omega
  · omega
  · omega
  · rfl

/-- The payload bits of a lead byte, as `mod_utf8_codepoint` masks them. -/
def leadPayload (b : UInt8) : Nat := (b &&& ((0x80 >>> (leadLength b).toUInt8) - 1)).toNat

/-- A lead byte and its continuation bytes that decode to a valid,
shortest-form code point are exactly what `utf8Bytes` writes for it. -/
theorem utf8Bytes_of_lead {b : UInt8} {cs : Bytes} (hb1 : 0xC0 ≤ b) (hb2 : b < 0xFE)
    (hlen : cs.length = leadLength b - 1) (hcont : ∀ c ∈ cs, c &&& 0xC0 = 0x80)
    (hv : isValidCodepoint (contValue (leadPayload b) cs : Nat) = true)
    (hmin : ¬(contValue (leadPayload b) cs < minCp (leadLength b) ∧
      ¬(contValue (leadPayload b) cs = 0 ∧ leadLength b = 2))) :
    utf8Bytes (contValue (leadPayload b) cs) = b :: cs := by
  obtain ⟨hsplit, hlt, h2, h6⟩ := lead_byte_split b hb1 hb2
  have hmax := (isValidCodepoint_range hv).2
  have hc : ∀ c ∈ cs, c.toNat = 0x80 + (c &&& 0x3F).toNat ∧ (c &&& 0x3F).toNat < 64 :=
    fun c hc => cont_byte_split c (hcont c hc)
  rw [← leadPayload] at hsplit hlt
  -- the number of continuation bytes fixes the length, and each length
  -- is one branch of `utf8Bytes`
  generalize leadPayload b = x at hsplit hlt hmin hmax ⊢
  match cs, hlen, hc with
  | [], hlen, _ => simp at hlen; omega
  | [c1], hlen, hc =>
    have hl : leadLength b = 2 := by simp at hlen; omega
    obtain ⟨hc1, hy1⟩ := hc c1 (by simp)
    simp only [hl, leadBase, minCp, contValue, List.foldl_cons, List.foldl_nil] at hsplit hlt hmin hmax ⊢
    generalize (c1 &&& 0x3F).toNat = y1 at hc1 hy1 hmin hmax ⊢
    rw [byte_eq_of_toNat hsplit, byte_eq_of_toNat hc1]
    have hcp : ¬(0 < x * 64 + y1 ∧ x * 64 + y1 ≤ 0x7F) ∧ x * 64 + y1 ≤ 0x7FF := by omega
    rw [utf8Bytes, if_neg hcp.1, if_pos hcp.2]
    simp only [List.cons.injEq, and_true]
    constructor <;> congr 1 <;> omega
  | [c1, c2], hlen, hc =>
    have hl : leadLength b = 3 := by simp at hlen; omega
    obtain ⟨hc1, hy1⟩ := hc c1 (by simp)
    obtain ⟨hc2, hy2⟩ := hc c2 (by simp)
    simp only [hl, leadBase, minCp, contValue, List.foldl_cons, List.foldl_nil] at hsplit hlt hmin hmax ⊢
    generalize (c1 &&& 0x3F).toNat = y1 at hc1 hy1 hmin hmax ⊢
    generalize (c2 &&& 0x3F).toNat = y2 at hc2 hy2 hmin hmax ⊢
    rw [byte_eq_of_toNat hsplit, byte_eq_of_toNat hc1, byte_eq_of_toNat hc2]
    have hcp : ¬(0 < (x * 64 + y1) * 64 + y2 ∧ (x * 64 + y1) * 64 + y2 ≤ 0x7F) ∧
        ¬((x * 64 + y1) * 64 + y2 ≤ 0x7FF) ∧ (x * 64 + y1) * 64 + y2 ≤ 0xFFFF := by omega
    rw [utf8Bytes, if_neg hcp.1, if_neg hcp.2.1, if_pos hcp.2.2]
    simp only [List.cons.injEq, and_true]
    refine ⟨?_, ?_, ?_⟩ <;> congr 1 <;> omega
  | [c1, c2, c3], hlen, hc =>
    have hl : leadLength b = 4 := by simp at hlen; omega
    obtain ⟨hc1, hy1⟩ := hc c1 (by simp)
    obtain ⟨hc2, hy2⟩ := hc c2 (by simp)
    obtain ⟨hc3, hy3⟩ := hc c3 (by simp)
    simp only [hl, leadBase, minCp, contValue, List.foldl_cons, List.foldl_nil] at hsplit hlt hmin hmax ⊢
    generalize (c1 &&& 0x3F).toNat = y1 at hc1 hy1 hmin hmax ⊢
    generalize (c2 &&& 0x3F).toNat = y2 at hc2 hy2 hmin hmax ⊢
    generalize (c3 &&& 0x3F).toNat = y3 at hc3 hy3 hmin hmax ⊢
    rw [byte_eq_of_toNat hsplit, byte_eq_of_toNat hc1, byte_eq_of_toNat hc2,
      byte_eq_of_toNat hc3]
    have hcp : ¬(0 < ((x * 64 + y1) * 64 + y2) * 64 + y3 ∧ ((x * 64 + y1) * 64 + y2) * 64 + y3 ≤ 0x7F) ∧
        ¬(((x * 64 + y1) * 64 + y2) * 64 + y3 ≤ 0x7FF) ∧
        ¬(((x * 64 + y1) * 64 + y2) * 64 + y3 ≤ 0xFFFF) := by omega
    rw [utf8Bytes, if_neg hcp.1, if_neg hcp.2.1, if_neg hcp.2.2]
    simp only [List.cons.injEq, and_true]
    refine ⟨?_, ?_, ?_, ?_⟩ <;> congr 1 <;> omega
  | [_, _, _, _], hlen, _ =>
    -- five bytes start at 0x200000, above every valid code point
    have hl : leadLength b = 5 := by simp at hlen; omega
    simp only [hl, minCp] at hmin
    omega
  | [_, _, _, _, _], hlen, _ =>
    have hl : leadLength b = 6 := by simp at hlen; omega
    simp only [hl, minCp] at hmin
    omega
  | _ :: _ :: _ :: _ :: _ :: _ :: _, hlen, _ => simp at hlen; omega

/-- The continuation loop only succeeds reading within the `n` bytes it
may read: past them it reads a 0, which is no continuation byte. -/
theorem readContinuation_some_le {n : Nat} : ∀ {k i cp : Nat} {s : Bytes} {cp' i' : Nat},
    readContinuation n k i cp s = (some cp', i') → i ≤ n → i + k ≤ n := by
  intro k
  induction k with
  | zero =>
    intro i cp s cp' i' _ hi
    omega
  | succ k ih =>
    intro i cp s cp' i' h _
    by_cases hi : i < n
    · simp only [readContinuation, hi, if_true] at h
      split at h
      · simp at h
      · have := ih h hi
        omega
    · simp [readContinuation, hi] at h

/-- Whenever `mod_utf8_codepoint` decodes a code point, whatever the
number `n` of bytes it may read, encoding the code point again gives back
exactly the bytes it read, and it read at least one. -/
theorem modUtf8Encode_of_codepoint_within {s : Bytes} {cp : Int} {n m : Nat}
    (h : modUtf8Codepoint s n = (cp, m)) (hcp : 0 ≤ cp) :
    modUtf8Encode cp = some (s.take m) ∧ 0 < m := by
  cases s with
  | nil => simp only [modUtf8Codepoint, Prod.mk.injEq] at h; omega
  | cons b rest =>
    rw [modUtf8Codepoint] at h
    by_cases h0 : n = 0 ∨ b = 0
    · simp only [h0, if_true, Prod.mk.injEq] at h; omega
    rw [if_neg h0] at h
    by_cases h1 : b < 0x80
    · -- one byte below 0x80 stands for itself
      simp only [h1, if_true, Prod.mk.injEq] at h
      obtain ⟨rfl, rfl⟩ := h
      obtain ⟨hpos, hlt⟩ := ascii_byte_range b (fun hb => h0 (.inr hb)) h1
      have hv : isValidCodepoint (b.toNat : Int) = true := isValidCodepoint_of_lt (by omega) (by omega)
      refine ⟨?_, Nat.one_pos⟩
      rw [modUtf8Encode_eq, if_pos hv, Int.toNat_natCast, utf8Bytes, if_pos ⟨hpos, by omega⟩]
      simp
    rw [if_neg h1] at h
    by_cases h2 : b ≥ 0xFE
    · simp only [h2, if_true, Prod.mk.injEq] at h; omega
    rw [if_neg h2] at h
    by_cases h3 : b &&& 0x40 = 0
    · simp only [h3, if_true, Prod.mk.injEq] at h; omega
    rw [if_neg h3] at h
    -- a lead byte: `leadLength b - 1` continuation bytes follow
    dsimp only at h
    split at h
    · simp only [Prod.mk.injEq] at h; omega
    rename_i c i hrc
    split_ifs at h with hv hmin
    · simp only [Prod.mk.injEq] at h; omega
    · simp only [Prod.mk.injEq] at h; omega
    simp only [Prod.mk.injEq] at h
    obtain ⟨rfl, rfl⟩ := h
    have hv' : isValidCodepoint (c : Int) = true := by simpa using hv
    obtain ⟨hb1, hb2⟩ := lead_byte_of_flags b h1 h2 h3
    obtain ⟨-, -, h2', h6'⟩ := lead_byte_split b hb1 hb2
    obtain ⟨cs, hlen, htake, hcont, rfl, rfl⟩ := readContinuation_some hrc (readContinuation_some_le hrc (by omega))
    refine ⟨?_, by omega⟩
    rw [modUtf8Encode_eq, if_pos hv', Int.toNat_natCast, ← leadPayload,
      utf8Bytes_of_lead hb1 hb2 hlen hcont hv' hmin,
      show 1 + (leadLength b - 1) = (leadLength b - 1) + 1 by omega, List.take_succ_cons, htake]

/-- Whenever `mod_utf8_codepoint` decodes a code point, encoding it again
gives back exactly the bytes it read, and it read at least one. -/
theorem modUtf8Encode_of_codepoint {s : Bytes} {cp : Int} {n : Nat}
    (h : modUtf8Codepoint s 6 = (cp, n)) (hcp : 0 ≤ cp) :
    modUtf8Encode cp = some (s.take n) ∧ 0 < n :=
  modUtf8Encode_of_codepoint_within h hcp

/-! ## Encoding, then decoding -/

/-- The lead byte `leadBase len + x` of a sequence of `len ≤ 4` bytes,
with `x` in its payload bits. -/
theorem lead_byte_of_payload (len x : Nat) (h2 : 2 ≤ len) (h4 : len ≤ 4) (hx : x < 2 ^ (7 - len)) :
    0xC0 ≤ (leadBase len + x).toUInt8 ∧ (leadBase len + x).toUInt8 < 0xFE ∧
      leadLength (leadBase len + x).toUInt8 = len ∧ leadPayload (leadBase len + x).toUInt8 = x := by
  have hval : ((leadBase len + x).toUInt8).toNat = leadBase len + x := by
    simp only [Nat.toUInt8_eq, UInt8.toNat_ofNat']
    obtain rfl | rfl | rfl : len = 2 ∨ len = 3 ∨ len = 4 := by omega
    all_goals
      simp only [leadBase] at hx ⊢
      omega
  have hlen : leadLength (leadBase len + x).toUInt8 = len := by
    unfold leadLength
    simp only [UInt8.lt_iff_toNat_lt, hval, UInt8.reduceToNat]
    obtain rfl | rfl | rfl : len = 2 ∨ len = 3 ∨ len = 4 := by omega
    all_goals
      simp only [leadBase] at hx ⊢
      split_ifs <;> omega
  refine ⟨?_, ?_, hlen, ?_⟩
  · simp only [UInt8.le_iff_toNat_le, hval, UInt8.reduceToNat]
    obtain rfl | rfl | rfl : len = 2 ∨ len = 3 ∨ len = 4 := by omega
    all_goals
      simp only [leadBase]
      omega
  · simp only [UInt8.lt_iff_toNat_lt, hval, UInt8.reduceToNat]
    obtain rfl | rfl | rfl : len = 2 ∨ len = 3 ∨ len = 4 := by omega
    all_goals
      simp only [leadBase] at hx ⊢
      omega
  · -- the prefix is a multiple of the payload's range, which masks it off
    rw [leadPayload, hlen, payloadMask_eq h2 (by omega), toNat_and_lowMask _ _ (by omega), hval]
    obtain rfl | rfl | rfl : len = 2 ∨ len = 3 ∨ len = 4 := by omega
    all_goals
      simp only [leadBase] at hx ⊢
      omega

/-- The continuation byte `0x80 + y` for six payload bits `y`. -/
theorem cont_byte_of_payload (y : Nat) (hy : y < 64) :
    (0x80 + y).toUInt8 &&& 0xC0 = 0x80 ∧ ((0x80 + y).toUInt8 &&& 0x3F).toNat = y := by
  have hval : ((0x80 + y).toUInt8).toNat = 0x80 + y := by
    simp only [Nat.toUInt8_eq, UInt8.toNat_ofNat']
    omega
  constructor
  · apply UInt8.toNat_inj.mp
    rw [UInt8.toNat_and, hval, show (0xC0 : UInt8).toNat = 2 ^ 8 - 2 ^ 6 from rfl,
      and_two_pow_sub_two_pow _ (by decide)]
    simp only [UInt8.reduceToNat]
    omega
  · rw [show (0x3F : UInt8) = (2 ^ 6 - 1 : Nat).toUInt8 from rfl, toNat_and_lowMask _ _ (by decide), hval]
    omega

/-- `mod_utf8_codepoint` on a lead byte followed by its continuation
bytes, all within the `n` bytes it may read: the code point they spell,
unless it is invalid or overlong, and `*end` just past them. -/
theorem modUtf8Codepoint_lead {b : UInt8} {cs rest : Bytes} {n : Nat} (hb1 : 0xC0 ≤ b) (hb2 : b < 0xFE)
    (hlen : cs.length = leadLength b - 1) (hcont : ∀ c ∈ cs, c &&& 0xC0 = 0x80) (hn : 1 + cs.length ≤ n) :
    modUtf8Codepoint (b :: (cs ++ rest)) n =
      if !isValidCodepoint (contValue (leadPayload b) cs : Nat) then ((-1 : Int), 1 + cs.length)
      else if contValue (leadPayload b) cs < minCp (leadLength b) ∧
          ¬(contValue (leadPayload b) cs = 0 ∧ leadLength b = 2) then ((-1 : Int), 1 + cs.length)
      else (((contValue (leadPayload b) cs : Nat) : Int), 1 + cs.length) := by
  obtain ⟨hb0, h80, hFE, h40⟩ := lead_byte_flags hb1 hb2
  have hnb : ¬(n = 0 ∨ b = 0) := fun h => h.elim (fun h => by omega) hb0
  rw [modUtf8Codepoint, if_neg hnb, if_neg h80, if_neg hFE, if_neg h40]
  dsimp only
  rw [← hlen, readContinuation_cont cs 1 _ rest hcont hn]
  rfl

/-- **Decoding what `mod_utf8_encode` writes.** For a valid code point,
`mod_utf8_codepoint` reads the bytes back as that code point, with `*end`
just past them, whatever follows them, when it may read them all. -/
theorem modUtf8Codepoint_utf8Bytes {cp : Int} (hv : isValidCodepoint cp = true) (rest : Bytes) {n : Nat}
    (hn : (utf8Bytes cp.toNat).length ≤ n) :
    modUtf8Codepoint (utf8Bytes cp.toNat ++ rest) n = (cp, (utf8Bytes cp.toNat).length) := by
  obtain ⟨h0, hmax⟩ := isValidCodepoint_range hv
  obtain ⟨c, rfl⟩ := Int.eq_ofNat_of_zero_le h0
  rw [Int.toNat_natCast] at hn ⊢
  have hvc : (!isValidCodepoint (c : Int)) = false := by simp [hv]
  unfold utf8Bytes at hn ⊢
  split_ifs at hn ⊢ with h1 h2 h3
  · -- one byte, the code point itself
    have hb : (c.toUInt8).toNat = c := by
      simp
      omega
    have hb0 : ¬(n = 0 ∨ c.toUInt8 = 0) := by
      rintro (h | h)
      · simp at hn
        omega
      · rw [h, UInt8.toNat_zero] at hb
        omega
    have hlt : c.toUInt8 < 0x80 := by
      simp only [UInt8.lt_iff_toNat_lt, hb, UInt8.reduceToNat]
      omega
    rw [List.singleton_append, modUtf8Codepoint, if_neg hb0, if_pos hlt, hb]
    rfl
  · -- two bytes; `C0 80` is U+0000
    obtain ⟨hl1, hl2, hlen, hpay⟩ := lead_byte_of_payload 2 (c / 64) (by decide) (by decide) (by omega)
    obtain ⟨hc1, hy1⟩ := cont_byte_of_payload (c % 64) (by omega)
    rw [show [(0xC0 + c / 64).toUInt8, (0x80 + c % 64).toUInt8] ++ rest =
      (leadBase 2 + c / 64).toUInt8 :: ([(0x80 + c % 64).toUInt8] ++ rest) from rfl,
      modUtf8Codepoint_lead hl1 hl2 (by rw [hlen]; rfl) (by simpa using hc1) (by simp; omega)]
    simp only [hlen, hpay, contValue, List.foldl_cons, List.foldl_nil, hy1]
    rw [show c / 64 * 64 + c % 64 = c by omega, hvc, if_neg Bool.false_ne_true, if_neg (by simp [minCp]; omega)]
    rfl
  · -- three bytes
    obtain ⟨hl1, hl2, hlen, hpay⟩ := lead_byte_of_payload 3 (c / 4096) (by decide) (by decide) (by omega)
    obtain ⟨hc1, hy1⟩ := cont_byte_of_payload (c / 64 % 64) (by omega)
    obtain ⟨hc2, hy2⟩ := cont_byte_of_payload (c % 64) (by omega)
    rw [show [(0xE0 + c / 4096).toUInt8, (0x80 + c / 64 % 64).toUInt8, (0x80 + c % 64).toUInt8] ++ rest =
      (leadBase 3 + c / 4096).toUInt8 :: ([(0x80 + c / 64 % 64).toUInt8, (0x80 + c % 64).toUInt8] ++ rest) from rfl,
      modUtf8Codepoint_lead hl1 hl2 (by rw [hlen]; rfl) (by simpa using And.intro hc1 hc2) (by simp; omega)]
    simp only [hlen, hpay, contValue, List.foldl_cons, List.foldl_nil, hy1, hy2]
    rw [show (c / 4096 * 64 + c / 64 % 64) * 64 + c % 64 = c by omega, hvc, if_neg Bool.false_ne_true,
      if_neg (by simp [minCp]; omega)]
    rfl
  · -- four bytes
    obtain ⟨hl1, hl2, hlen, hpay⟩ := lead_byte_of_payload 4 (c / 262144) (by decide) (by decide) (by omega)
    obtain ⟨hc1, hy1⟩ := cont_byte_of_payload (c / 4096 % 64) (by omega)
    obtain ⟨hc2, hy2⟩ := cont_byte_of_payload (c / 64 % 64) (by omega)
    obtain ⟨hc3, hy3⟩ := cont_byte_of_payload (c % 64) (by omega)
    rw [show [(0xF0 + c / 262144).toUInt8, (0x80 + c / 4096 % 64).toUInt8, (0x80 + c / 64 % 64).toUInt8,
        (0x80 + c % 64).toUInt8] ++ rest =
      (leadBase 4 + c / 262144).toUInt8 :: ([(0x80 + c / 4096 % 64).toUInt8, (0x80 + c / 64 % 64).toUInt8,
        (0x80 + c % 64).toUInt8] ++ rest) from rfl,
      modUtf8Codepoint_lead hl1 hl2 (by rw [hlen]; rfl) (by simpa using And.intro hc1 (And.intro hc2 hc3)) (by simp; omega)]
    simp only [hlen, hpay, contValue, List.foldl_cons, List.foldl_nil, hy1, hy2, hy3]
    rw [show ((c / 262144 * 64 + c / 4096 % 64) * 64 + c / 64 % 64) * 64 + c % 64 = c by omega, hvc,
      if_neg Bool.false_ne_true, if_neg (by simp [minCp]; omega)]
    rfl

/-- **Modified UTF-8 encoding and decoding are inverse.** `mod_utf8_encode`
succeeds exactly on valid code points; decoding what it writes gives the
code point back with `*end` just past the bytes (whatever follows them,
when they may all be read); and whenever `mod_utf8_codepoint` decodes a
code point, encoding it gives back exactly the bytes up to `*end`. -/
theorem modUtf8_roundTrip :
    (∀ cp : Int, (modUtf8Encode cp).isSome = isValidCodepoint cp) ∧
    (∀ (cp : Int) (bytes rest : Bytes) (n : Nat), modUtf8Encode cp = some bytes → bytes.length ≤ n →
      modUtf8Codepoint (bytes ++ rest) n = (cp, bytes.length)) ∧
    (∀ (s : Bytes) (n : Nat) (cp : Int) (m : Nat), modUtf8Codepoint s n = (cp, m) → 0 ≤ cp →
      modUtf8Encode cp = some (s.take m)) := by
  refine ⟨fun cp => ?_, fun cp bytes rest n h hn => ?_, fun s n cp m h hcp => (modUtf8Encode_of_codepoint_within h hcp).1⟩
  · rw [modUtf8Encode_eq]
    split_ifs with hv <;> simp [hv]
  · rw [modUtf8Encode_eq] at h
    split_ifs at h with hv
    rw [Option.some.injEq] at h
    subst h
    exact modUtf8Codepoint_utf8Bytes hv rest hn

/-- The euro sign is the three bytes `E2 82 AC`, read back as U+20AC. -/
theorem modUtf8_roundTrip_euro :
    modUtf8Encode 0x20AC = some [0xE2, 0x82, 0xAC] ∧ modUtf8Codepoint ([0xE2, 0x82, 0xAC] ++ [0]) 6 = (0x20AC, 3) :=
  ⟨by decide, modUtf8_roundTrip.2.1 0x20AC [0xE2, 0x82, 0xAC] [0] 6 (by decide) (by decide)⟩

/-! ## Valid strings -/

/-- Every `mod_utf8_codepoint` step over the bytes succeeds, within
`fuel` steps. -/
def modUtf8ValidLoop : Nat → Bytes → Bool
  | _, [] => true
  | 0, _ :: _ => false
  | fuel + 1, s@(_ :: _) =>
    let r := modUtf8Codepoint s 6
    decide (0 ≤ r.1) && modUtf8ValidLoop fuel (s.drop r.2)

/-- Valid modified UTF-8: every `mod_utf8_codepoint` step over the
string succeeds. Each step reads a byte at least, so the length bounds
the steps. -/
def modUtf8Valid (s : Bytes) : Bool := modUtf8ValidLoop s.length s

end QemuFormal

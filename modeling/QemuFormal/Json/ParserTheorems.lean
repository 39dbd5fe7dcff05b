/-
QemuFormal.Json.ParserTheorems — the parser turns the writer's tokens
back into the object.

`parseValue_jsonTokens`: given at least as much fuel as there are
tokens, `parse_value` reads the tokens of an object and returns
`parsedOf` it, the object the parser builds: the same tree, except that
a `uint64_t` that fits an `int64_t` comes back as one (`parse_literal`
tries `qemu_strtoi64` first), and a dict's entries are re-inserted, so
they may come out in another order within a hash chain.

The leaves: `parse_string` undoes `quoted_str` on a string of valid
modified UTF-8 (`parseString_quotedStr`) — the short escapes, `\u`
escapes of control characters, of U+0000 (written back as `C0 80`) and
of U+007F..U+FFFF, and surrogate pairs above — because re-encoding a
code point `mod_utf8_codepoint` decoded gives its bytes back
(`modUtf8Encode_of_codepoint`). `parse_literal` reads back the decimal
integers `%" PRId64` and `%" PRIu64` print.
-/
import Mathlib.Data.List.TakeWhile
import QemuFormal.Json.LexerTheorems

namespace QemuFormal.Json

/-! ## Hex digits -/

theorem hexDigitUpper_hexValue : ∀ d < 16,
    cIsxdigit (hexDigitUpper d) = true ∧ hexValue (hexDigitUpper d) = d := by
  decide

/-- `cvt4hex` reads back what `%04X` wrote. -/
theorem cvt4hex_hex4 (v : Nat) (hv : v < 0x10000) (more : Bytes) :
    cvt4hex (hex4 v ++ more) = v := by
  have h := fun k => hexDigitUpper_hexValue (k % 16) (Nat.mod_lt k (by decide))
  simp only [cvt4hex, hex4, byteAt, List.cons_append, List.getD_cons_zero, List.getD_cons_succ,
    List.all_cons, List.all_nil, (h _).1, Bool.and_true, if_true, List.foldl_cons,
    List.foldl_nil, (h _).2]
  omega

/-! ## Strings -/

/-- A pass of the loop that reads something other than the closing
quote. -/
theorem parseStringLoop_step (quote : UInt8) (fuel : Nat) (c : UInt8) (rest acc bytes rest' : Bytes)
    (hc : c ≠ quote) (h : parseStringStep c rest = .ok (bytes, rest')) :
    parseStringLoop quote (fuel + 1) (c :: rest) acc = parseStringLoop quote fuel rest' (acc ++ bytes) := by
  rw [parseStringLoop, if_neg hc, h]

section Strings

variable (more : Bytes)

/-- `\\` and a one-character escape. -/
theorem parseStringStep_simpleEscape (e b : UInt8) (he : e ≠ 0x75) (hb : simpleEscape e = some b) :
    parseStringStep 0x5C (e :: more) = .ok ([b], more) := by
  rw [parseStringStep, if_pos rfl]
  simp [he, hb]

/-- `\\u` and the four digits of a code point other than a leading
surrogate. -/
theorem parseStringStep_uEscape (v : Nat) (hv : v < 0x10000) (hlead : ¬(0xD800 ≤ v ∧ v ≤ 0xDBFF))
    (bytes : Bytes) (h : modUtf8Encode v = some bytes) :
    parseStringStep 0x5C (0x75 :: (hex4 v ++ more)) = .ok (bytes, more) := by
  have hsur : surrogatePair (v : Int) ((hex4 v ++ more).drop 4) = ((v : Int), 0) := by
    unfold surrogatePair
    rw [if_neg (by omega)]
  rw [parseStringStep, if_pos rfl]
  simp only [if_true, cvt4hex_hex4 v hv, hsur, h]
  simp [hex4]

/-- The arithmetic of a surrogate pair: the two halves `quoted_str`
writes give the code point back. -/
theorem surrogate_combine (c : Nat) (hlo : 0x10000 ≤ c) (hhi : c ≤ 0x10FFFF) :
    (0x10000 + ((0xD800 + ((c - 0x10000) >>> 10)) &&& 0x3FF) * 2 ^ 10) |||
      ((0xDC00 + ((c - 0x10000) &&& 0x3FF)) &&& 0x3FF) = c := by
  rw [Nat.shiftRight_eq_div_pow, show (0x3FF : Nat) = 2 ^ 10 - 1 from rfl, BitArith.and_mask,
    BitArith.and_mask, BitArith.and_mask]
  have h₁ : (0xD800 + (c - 0x10000) / 2 ^ 10) % 2 ^ 10 = (c - 0x10000) / 2 ^ 10 := by omega
  have h₂ : (0xDC00 + (c - 0x10000) % 2 ^ 10) % 2 ^ 10 = (c - 0x10000) % 2 ^ 10 := by omega
  have h₃ : 0x10000 + (c - 0x10000) / 2 ^ 10 * 2 ^ 10 = 2 ^ 10 * (64 + (c - 0x10000) / 2 ^ 10) := by
    omega
  rw [h₁, h₂, h₃, BitArith.mul_two_pow_or (Nat.mod_lt _ (by decide))]
  omega

/-- A surrogate pair: one pass reads both escapes. -/
theorem parseStringStep_surrogates (c : Nat) (hlo : 0x10000 ≤ c) (hhi : c ≤ 0x10FFFF)
    (bytes : Bytes) (h : modUtf8Encode c = some bytes) :
    parseStringStep 0x5C (0x75 :: (hex4 (0xD800 + ((c - 0x10000) >>> 10)) ++
        (uEscape (0xDC00 + ((c - 0x10000) &&& 0x3FF)) ++ more))) = .ok (bytes, more) := by
  have hhigh : 0xD800 ≤ 0xD800 + ((c - 0x10000) >>> 10) ∧ 0xD800 + ((c - 0x10000) >>> 10) ≤ 0xDBFF := by
    rw [Nat.shiftRight_eq_div_pow]; omega
  have hlow : 0xDC00 ≤ 0xDC00 + ((c - 0x10000) &&& 0x3FF) ∧ 0xDC00 + ((c - 0x10000) &&& 0x3FF) ≤ 0xDFFF := by
    rw [show (0x3FF : Nat) = 2 ^ 10 - 1 from rfl, BitArith.and_mask]; omega
  have hcomb : (0x10000 + ((0xD800 + ((c - 0x10000) >>> 10)) &&& 0x3FF) * 1024) |||
      ((0xDC00 + ((c - 0x10000) &&& 0x3FF)) &&& 0x3FF) = c := surrogate_combine c hlo hhi
  -- only the halves' ranges and how they combine matter from here on
  generalize 0xD800 + ((c - 0x10000) >>> 10) = hi at hcomb hhigh ⊢
  generalize 0xDC00 + ((c - 0x10000) &&& 0x3FF) = lo at hcomb hlow ⊢
  have hdrop : (hex4 hi ++ (uEscape lo ++ more)).drop 4 = 0x5C :: 0x75 :: (hex4 lo ++ more) := by
    simp [hex4, uEscape]
  have hsur : surrogatePair (hi : Int) (0x5C :: 0x75 :: (hex4 lo ++ more)) = ((c : Int), 6) := by
    unfold surrogatePair
    rw [if_pos (by simp [byteAt]; omega)]
    simp only [List.drop_succ_cons, List.drop_zero, cvt4hex_hex4 lo (by omega)]
    rw [if_pos (by omega)]
    rw [show (2 : Nat) ^ 10 = 1024 from rfl, Int.toNat_natCast, Int.toNat_natCast, hcomb]
  rw [parseStringStep, if_pos rfl]
  simp only [if_true, cvt4hex_hex4 hi (by omega), hdrop, hsur, h]
  simp [hex4, uEscape]

/-- A printable byte other than `"` and `\\` stands for itself. -/
theorem parseStringStep_plain (b : UInt8) (h20 : 0x20 ≤ b.toNat) (h7f : b.toNat < 0x7F)
    (h5c : b ≠ 0x5C) : parseStringStep b more = .ok ([b], more) := by
  have hb0 : b ≠ 0 := by rintro rfl; simp at h20
  have hlt : b < 0x80 := by rw [UInt8.lt_iff_toNat_lt]; simp; omega
  have hdec : modUtf8Codepoint (b :: more) 6 = ((b.toNat : Int), 1) := by
    simp [modUtf8Codepoint, hb0, hlt]
  have henc : modUtf8Encode (b.toNat : Int) = some [b] := by
    have hv : isValidCodepoint (b.toNat : Int) = true := isValidCodepoint_of_lt (by omega) (by omega)
    rw [modUtf8Encode_eq, if_pos hv, Int.toNat_natCast, utf8Bytes, if_pos ⟨by omega, by omega⟩]
    simp
  unfold parseStringStep
  rw [if_neg h5c]
  simp only [hdec, henc]
  simp

variable (fuel : Nat) (acc : Bytes)

/-- **One code point**: what `quoted_str` writes for a code point that
`mod_utf8_codepoint` decoded is read back in one pass of the loop, as
the code point's encoding. -/
theorem parseStringLoop_escapeCodepoint (cp : Int) (bytes : Bytes) (h : modUtf8Encode cp = some bytes) :
    parseStringLoop 0x22 (fuel + 1) (escapeCodepoint cp ++ more) acc =
      parseStringLoop 0x22 fuel more (acc ++ bytes) := by
  have hv : isValidCodepoint cp = true := by
    rw [modUtf8Encode_eq] at h
    split at h
    · assumption
    · simp at h
  obtain ⟨h0, hmax⟩ := isValidCodepoint_range hv
  -- the encoding of a one-byte code point
  have hone : ∀ n : Nat, 0 < n → n < 0x80 → cp = n → bytes = [n.toUInt8] := by
    intro n hn hlt hcp
    rw [modUtf8Encode_eq, if_pos hv, hcp, Int.toNat_natCast, utf8Bytes, if_pos ⟨hn, by omega⟩] at h
    exact (Option.some.inj h).symm
  -- a backslash and a one-character escape
  have hesc : ∀ (n : Nat) (e : UInt8), 0 < n → n < 0x80 → cp = n → e ≠ 0x75 →
      simpleEscape e = some n.toUInt8 →
      parseStringLoop 0x22 (fuel + 1) ([0x5C, e] ++ more) acc =
        parseStringLoop 0x22 fuel more (acc ++ bytes) := by
    intro n e hn hlt hcp he hse
    rw [hone n hn hlt hcp]
    exact parseStringLoop_step 0x22 fuel 0x5C _ acc _ _ (by decide)
      (parseStringStep_simpleEscape more e _ he hse)
  unfold escapeCodepoint
  split_ifs with h22 h5c h08 h0c h0a h0d h09 hneg
  · exact hesc 0x22 0x22 (by decide) (by decide) h22 (by decide) rfl
  · exact hesc 0x5C 0x5C (by decide) (by decide) h5c (by decide) rfl
  · exact hesc 0x08 0x62 (by decide) (by decide) h08 (by decide) rfl
  · exact hesc 0x0C 0x66 (by decide) (by decide) h0c (by decide) rfl
  · exact hesc 0x0A 0x6E (by decide) (by decide) h0a (by decide) rfl
  · exact hesc 0x0D 0x72 (by decide) (by decide) h0d (by decide) rfl
  · exact hesc 0x09 0x74 (by decide) (by decide) h09 (by decide) rfl
  · omega
  · dsimp only
    have hcp : cp = (cp.toNat : Int) := by omega
    rw [hcp] at h hv
    split_ifs with hbig hctl
    · -- above the BMP: a surrogate pair
      rw [uEscape, List.cons_append, List.cons_append, List.append_assoc]
      exact parseStringLoop_step 0x22 fuel 0x5C _ acc _ _ (by decide)
        (parseStringStep_surrogates more cp.toNat (by omega) (by omega) bytes h)
    · -- a control character or one from U+007F: `\\u`; not a surrogate,
      -- those are not valid code points
      have hlead : ¬(0xD800 ≤ cp.toNat ∧ cp.toNat ≤ 0xDBFF) := by
        intro hs
        unfold isValidCodepoint at hv
        split_ifs at hv with ha hb hc
        omega
      rw [uEscape, List.cons_append, List.cons_append]
      exact parseStringLoop_step 0x22 fuel 0x5C _ acc _ _ (by decide)
        (parseStringStep_uEscape more cp.toNat (by omega) hlead bytes h)
    · -- printable ASCII stands for itself
      have hlt : cp.toNat < 256 := by omega
      have htoNat : cp.toNat.toUInt8.toNat = cp.toNat := by simp; omega
      rw [hone cp.toNat (by omega) (by omega) hcp]
      have hne : ∀ n : Nat, n < 256 → cp.toNat ≠ n → cp.toNat.toUInt8 ≠ n.toUInt8 := by
        intro n hn hne e
        apply hne
        have := congrArg UInt8.toNat e
        simp at this
        omega
      exact parseStringLoop_step 0x22 fuel _ _ acc _ _ (hne 0x22 (by decide) (by omega))
        (parseStringStep_plain more _ (by omega) (by omega) (hne 0x5C (by decide) (by omega)))

end Strings

theorem escapeCodepoint_ne_nil (cp : Int) : escapeCodepoint cp ≠ [] := by
  unfold escapeCodepoint
  dsimp only
  split_ifs <;> simp [uEscape]

/-- **The string loop**: up to the closing quote, `parse_string` reads
back the bytes whose code points `quoted_str` wrote, as long as they are
valid modified UTF-8. Induction on the writer's loop, one code point a
pass. -/
theorem parseStringLoop_quotedStrLoop (more : Bytes) :
    ∀ (n : Nat) (s : Bytes), modUtf8ValidLoop n s = true →
      ∀ (fuel : Nat) (acc : Bytes), (quotedStrLoop n s).length < fuel →
        parseStringLoop 0x22 fuel (quotedStrLoop n s ++ 0x22 :: more) acc = .ok (acc ++ s) := by
  -- the closing quote
  have hend : ∀ (n fuel : Nat) (acc : Bytes), quotedStrLoop n [] = [] → 0 < fuel →
      parseStringLoop 0x22 fuel (quotedStrLoop n [] ++ 0x22 :: more) acc = .ok (acc ++ []) := by
    intro n fuel acc hq hf
    obtain ⟨f, rfl⟩ : ∃ f, fuel = f + 1 := ⟨fuel - 1, by omega⟩
    simp [hq, parseStringLoop]
  intro n
  induction n with
  | zero =>
    intro s hv fuel acc hlen
    cases s with
    | nil => exact hend 0 fuel acc rfl (by omega)
    | cons => simp [modUtf8ValidLoop] at hv
  | succ n ih =>
    intro s hv fuel acc hlen
    cases s with
    | nil => exact hend (n + 1) fuel acc rfl (by omega)
    | cons c cs =>
      simp only [modUtf8ValidLoop, Bool.and_eq_true, decide_eq_true_eq] at hv
      generalize hr : modUtf8Codepoint (c :: cs) 6 = r at hv
      obtain ⟨cp, k⟩ := r
      have hstep : quotedStrLoop (n + 1) (c :: cs) = escapeCodepoint cp ++ quotedStrLoop n ((c :: cs).drop k) := by
        simp [quotedStrLoop, hr]
      obtain ⟨h0, hrest⟩ := hv
      dsimp only at h0 hrest
      obtain ⟨henc, -⟩ := modUtf8Encode_of_codepoint hr h0
      -- the code point's escape is at least one byte: fuel for the rest
      have hesc : 0 < (escapeCodepoint cp).length := List.length_pos_of_ne_nil (escapeCodepoint_ne_nil cp)
      rw [hstep, List.length_append] at hlen
      obtain ⟨f, rfl⟩ : ∃ f, fuel = f + 1 := ⟨fuel - 1, by omega⟩
      rw [hstep, List.append_assoc, parseStringLoop_escapeCodepoint _ f acc cp _ henc,
        ih _ hrest f _ (by omega), List.append_assoc, List.take_append_drop]

/-- `parse_string` undoes `quoted_str` on valid modified UTF-8. -/
theorem parseString_quotedStr (s : Bytes) (h : modUtf8Valid s = true) :
    parseString (quotedStr s) = .ok s := by
  have hloop := parseStringLoop_quotedStrLoop [] s.length s h
    ((quotedStrLoop s.length s ++ [0x22]).length + 1) [] (by rw [List.length_append]; omega)
  simpa [parseString, quotedStr] using hloop

/-! ## Numbers -/

theorem digit_not_space : ∀ c : UInt8, cIsdigit c = true → cIsspace c = false ∧ c ≠ 0x2D ∧ c ≠ 0x2B := by
  decide +kernel

/-- The scan of the `strto*` functions reads a run of digits whole. -/
theorem strtoScan_digits (ds : Bytes) (hne : ds ≠ []) (hd : ∀ x ∈ ds, cIsdigit x = true) :
    strtoScan ds = some (false, digitsValue ds, ds.length) := by
  obtain ⟨d, tl, rfl⟩ := List.exists_cons_of_ne_nil hne
  obtain ⟨hsp, hm, hp⟩ := digit_not_space d (hd d (by simp))
  have hall : (d :: tl).takeWhile cIsdigit = d :: tl := List.takeWhile_eq_self_iff.mpr hd
  simp [strtoScan, hsp, hm, hp, hall]

/-- ... and a minus sign before them. -/
theorem strtoScan_neg_digits (ds : Bytes) (hne : ds ≠ []) (hd : ∀ x ∈ ds, cIsdigit x = true) :
    strtoScan (0x2D :: ds) = some (true, digitsValue ds, ds.length + 1) := by
  have hall : ds.takeWhile cIsdigit = ds := List.takeWhile_eq_self_iff.mpr hd
  have hsp : cIsspace 0x2D = false := by decide
  simp [strtoScan, hsp, hall, hne]
  omega

/-- With the whole string consumed and no end pointer, `check_strtox_error`
passes `errno` through. -/
theorem checkStrtoxError_whole (s : Bytes) (hne : s ≠ []) (checkZero : Bool) (e : Int) :
    checkStrtoxError s s.length false checkZero e = (-e, s.length) := by
  have hlen : s.length ≠ 0 := by simpa using hne
  have hend : byteAt s s.length = 0 := List.getD_eq_default _ _ (Nat.le_refl _)
  simp [checkStrtoxError, hlen, hend]

section Digits

variable (ds : Bytes) (hne : ds ≠ []) (hd : ∀ x ∈ ds, cIsdigit x = true)
include hne hd

theorem strtoll_digits (hv : digitsValue ds < 2 ^ 63) :
    strtoll ds = ⟨digitsValue ds, ds.length, false⟩ := by
  simp only [strtoll, strtoScan_digits ds hne hd, Bool.false_eq_true, if_false]
  rw [if_neg (by omega), if_neg (by omega)]

/-- Past `INT64_MAX`, `strtoll` sets `ERANGE`. -/
theorem strtoll_digits_rangeError (hv : 2 ^ 63 ≤ digitsValue ds) :
    strtoll ds = ⟨2 ^ 63 - 1, ds.length, true⟩ := by
  simp only [strtoll, strtoScan_digits ds hne hd, Bool.false_eq_true, if_false]
  rw [if_pos (by omega)]

theorem strtoll_neg_digits (hv : digitsValue ds ≤ 2 ^ 63) :
    strtoll (0x2D :: ds) = ⟨-(digitsValue ds : Int), ds.length + 1, false⟩ := by
  simp only [strtoll, strtoScan_neg_digits ds hne hd, if_true]
  rw [if_neg (by omega), if_neg (by omega)]

theorem strtoull_digits (hv : digitsValue ds < 2 ^ 64) :
    strtoull ds = ⟨digitsValue ds, ds.length, false⟩ := by
  simp only [strtoull, strtoScan_digits ds hne hd]
  rw [if_neg (by omega)]
  rfl

theorem qemuStrtoi64_digits (hv : digitsValue ds < 2 ^ 63) :
    qemuStrtoi64 ds false = ⟨0, digitsValue ds, ds.length⟩ := by
  simp only [qemuStrtoi64, strtoll_digits ds hne hd hv, Bool.false_eq_true, if_false,
    checkStrtoxError_whole ds hne]
  rfl

theorem qemuStrtoi64_digits_rangeError (hv : 2 ^ 63 ≤ digitsValue ds) :
    (qemuStrtoi64 ds false).ret = -erange := by
  simp only [qemuStrtoi64, strtoll_digits_rangeError ds hne hd hv, if_true,
    checkStrtoxError_whole ds hne]

theorem qemuStrtou64_digits (hv : digitsValue ds < 2 ^ 64) :
    qemuStrtou64 ds false = ⟨0, digitsValue ds, ds.length⟩ := by
  simp only [qemuStrtou64, strtoull_digits ds hne hd hv, Bool.false_eq_true, if_false,
    checkStrtoxError_whole ds hne]
  rfl

end Digits

theorem cIsdigit_decimal (n : Nat) : ∀ x ∈ decimal n, cIsdigit x = true := decimal_digits n

theorem decimal_ne_nil (n : Nat) : decimal n ≠ [] := by
  rw [decimal_eq]
  split <;> simp

/-- `qemu_strtoi64` reads back what `%" PRId64` printed. -/
theorem qemuStrtoi64_formatInt64 (v : Int64) :
    qemuStrtoi64 (formatInt64 v) false = ⟨0, v.toInt, (formatInt64 v).length⟩ := by
  have hlo := Int64.le_toInt v
  have hhi := Int64.toInt_lt v
  have hne : formatInt64 v ≠ [] := by
    unfold formatInt64
    split <;> simp [decimal_ne_nil]
  have hr : strtoll (formatInt64 v) = ⟨v.toInt, (formatInt64 v).length, false⟩ := by
    unfold formatInt64
    split
    · rename_i hneg
      rw [strtoll_neg_digits _ (decimal_ne_nil _) (cIsdigit_decimal _) (by rw [digitsValue_decimal]; omega),
        digitsValue_decimal]
      simp only [List.length_cons]
      congr 1
      omega
    · rename_i hpos
      rw [strtoll_digits _ (decimal_ne_nil _) (cIsdigit_decimal _) (by rw [digitsValue_decimal]; omega),
        digitsValue_decimal]
      congr 1
      omega
  simp only [qemuStrtoi64, hr, Bool.false_eq_true, if_false, checkStrtoxError_whole _ hne]
  rfl

/-- The number `parse_literal` reads back for one the writer printed: it
tries `int64_t` first, so a `uint64_t` below 2^63 comes back as an
`int64_t`. -/
def parsedNum : QNum → QNum
  | .u64 w => if w.toNat < 2 ^ 63 then .i64 (Int64.ofInt w.toNat) else .u64 w
  | n => n

section Integers

variable (strtod : Bytes → UInt64)

theorem parseInteger_formatInt64 (v : Int64) :
    parseInteger strtod (formatInt64 v) = .qnum (parsedNum (.i64 v)) := by
  simp only [parseInteger, qemuStrtoi64_formatInt64, if_true, Int64.ofInt_toInt, parsedNum]

theorem parseInteger_decimal (w : UInt64) :
    parseInteger strtod (decimal w.toNat) = .qnum (parsedNum (.u64 w)) := by
  have hw := UInt64.toNat_lt w
  have hval := digitsValue_decimal w.toNat
  have hne := decimal_ne_nil w.toNat
  have hd := cIsdigit_decimal w.toNat
  by_cases hsmall : w.toNat < 2 ^ 63
  · have hi := qemuStrtoi64_digits (decimal w.toNat) hne hd (by omega)
    rw [hval] at hi
    simp only [parseInteger, hi, if_true, parsedNum, hsmall]
  · -- `strtoll` overflows; without a minus sign `qemu_strtou64` is tried
    obtain ⟨d, tl, hdt⟩ := List.exists_cons_of_ne_nil hne
    have hfirst : byteAt (decimal w.toNat) 0 ≠ 0x2D := by
      rw [hdt]
      exact (digit_not_space d (hd d (by simp [hdt]))).2.1
    have hret : (qemuStrtoi64 (decimal w.toNat) false).ret ≠ 0 := by
      rw [qemuStrtoi64_digits_rangeError (decimal w.toNat) hne hd (by omega)]
      decide
    have hu := qemuStrtou64_digits (decimal w.toNat) hne hd (by omega)
    rw [hval] at hu
    simp only [parseInteger, if_neg hret, hu, parsedNum, hsmall]
    rw [if_pos ⟨hfirst, trivial⟩, UInt64.ofNat_toNat, if_neg not_false]

end Integers

/-! ## Values -/

mutual

/-- The object `parse_value` builds from the tokens the writer wrote for
`o`: the numbers as `parsedNum` reads them, and each dict rebuilt by
`parse_pair` inserting its entries, in order, into an empty one. -/
def parsedOf : QObject → QObject
  | .qnull => .qnull
  | .qnum n => .qnum (parsedNum n)
  | .qstring s => .qstring s
  | .qdict entries => .qdict (parsedEntries [] entries)
  | .qlist elems => .qlist (parsedElems elems)
  | .qbool b => .qbool b

def parsedEntries : QDict → List (Bytes × QObject) → QDict
  | dict, [] => dict
  | dict, (k, v) :: rest => parsedEntries (qdictPutObj dict k (parsedOf v)) rest

def parsedElems : List QObject → List QObject
  | [] => []
  | v :: rest => parsedOf v :: parsedElems rest

end

theorem parseKeyword_null : parseKeyword (ascii "null") = .ok .qnull := rfl

theorem parseKeyword_bool (b : Bool) :
    parseKeyword (ascii (if b then "true" else "false")) = .ok (.qbool b) := by
  cases b <;> rfl

theorem qdictHaskey_putObj_of_ne {d : QDict} {k j : Bytes} (v : QObject) (hj : j ≠ k) :
    qdictHaskey (qdictPutObj d k v) j = qdictHaskey d j := by
  simp [qdictHaskey, qdictGet_putObj, hj]

section Descent

variable (strtod : Bytes → UInt64)

/-! ### One token at a time

What each function of the descent does with the token in front, the way
`parse_value` dispatches on it. -/

theorem parseValue_keyword (n : Nat) (w : Bytes) (rest : List JSONToken) :
    parseValue strtod (n + 1) (⟨.tok .keyword, w⟩ :: rest) = (parseKeyword w).map (·, rest) := by
  rw [parseValue]

theorem parseValue_integer (n : Nat) (w : Bytes) (rest : List JSONToken) :
    parseValue strtod (n + 1) (⟨.tok .integer, w⟩ :: rest) = .ok (parseInteger strtod w, rest) := by
  rw [parseValue]
  rfl

theorem parseValue_string (n : Nat) (s : Bytes) (hs : modUtf8Valid s = true) (rest : List JSONToken) :
    parseValue strtod (n + 1) (stringToken s :: rest) = .ok (.qstring s, rest) := by
  rw [parseValue]
  simp [stringToken, parseLiteral, parseString_quotedStr s hs, Except.map]

theorem parseValue_lcurly (n : Nat) (rest : List JSONToken) :
    parseValue strtod (n + 1) (lcurlyToken :: rest) = parseObject strtod n rest := by
  rw [parseValue]
  rfl

theorem parseValue_lsquare (n : Nat) (rest : List JSONToken) :
    parseValue strtod (n + 1) (lsquareToken :: rest) = parseArray strtod n rest := by
  rw [parseValue]
  rfl

theorem parseObject_rcurly (n : Nat) (rest : List JSONToken) :
    parseObject strtod (n + 1) (rcurlyToken :: rest) = .ok (.qdict [], rest) := by
  rw [parseObject]
  exact if_pos rfl

theorem parseObject_pair (n : Nat) (t : JSONToken) (rest : List JSONToken) (ht : t.type ≠ .tok .rcurly)
    {dict : QDict} {ts : List JSONToken} (h : parsePair strtod n [] (t :: rest) = .ok (dict, ts)) :
    parseObject strtod (n + 1) (t :: rest) = objectLoop strtod n dict ts := by
  rw [parseObject, if_neg ht, h]

theorem objectLoop_rcurly (n : Nat) (dict : QDict) (rest : List JSONToken) :
    objectLoop strtod (n + 1) dict (rcurlyToken :: rest) = .ok (.qdict dict, rest) := by
  rw [objectLoop]
  exact if_pos rfl

theorem objectLoop_comma (n : Nat) (dict : QDict) (rest : List JSONToken) {dict' : QDict}
    {ts : List JSONToken} (h : parsePair strtod n dict rest = .ok (dict', ts)) :
    objectLoop strtod (n + 1) dict (commaToken :: rest) = objectLoop strtod n dict' ts := by
  rw [objectLoop, if_neg (by decide), if_neg (by decide), h]

/-- A member: the key, `:`, and a value under a key not yet in the dict. -/
theorem parsePair_member (n : Nat) (dict : QDict) (k : Bytes) (hk : modUtf8Valid k = true)
    {ts rest : List JSONToken} {v : QObject} (hv : parseValue strtod (n + 1) ts = .ok (v, rest))
    (hnew : qdictHaskey dict k = false) :
    parsePair strtod (n + 2) dict (stringToken k :: colonToken :: ts) =
      .ok (qdictPutObj dict k v, rest) := by
  rw [parsePair, parseValue_string strtod n k hk]
  simp only [colonToken, ne_eq, not_true_eq_false, if_false, hv, hnew, Bool.false_eq_true]

theorem parseArray_rsquare (n : Nat) (rest : List JSONToken) :
    parseArray strtod (n + 1) (rsquareToken :: rest) = .ok (.qlist [], rest) := by
  rw [parseArray]
  exact if_pos rfl

theorem parseArray_value (n : Nat) (t : JSONToken) (rest : List JSONToken) (ht : t.type ≠ .tok .rsquare)
    {v : QObject} {ts : List JSONToken} (h : parseValue strtod n (t :: rest) = .ok (v, ts)) :
    parseArray strtod (n + 1) (t :: rest) = arrayLoop strtod n [v] ts := by
  rw [parseArray, if_neg ht, h]

theorem arrayLoop_rsquare (n : Nat) (elems : List QObject) (rest : List JSONToken) :
    arrayLoop strtod (n + 1) elems (rsquareToken :: rest) = .ok (.qlist elems, rest) := by
  rw [arrayLoop]
  exact if_pos rfl

theorem arrayLoop_comma (n : Nat) (elems : List QObject) (rest : List JSONToken) {v : QObject}
    {ts : List JSONToken} (h : parseValue strtod n rest = .ok (v, ts)) :
    arrayLoop strtod (n + 1) elems (commaToken :: rest) = arrayLoop strtod n (elems ++ [v]) ts := by
  rw [arrayLoop, if_neg (by decide), if_neg (by decide), h]

/-! ### Whole values -/

variable (fmtDouble : UInt64 → Bytes)

theorem entryTokens_false_cons (k : Bytes) (v : QObject) (es : List (Bytes × QObject)) :
    entryTokens fmtDouble false ((k, v) :: es) =
      stringToken k :: colonToken :: (jsonTokens fmtDouble v ++ entryTokens fmtDouble true es) := by
  simp [entryTokens]

theorem entryTokens_true_cons (k : Bytes) (v : QObject) (es : List (Bytes × QObject)) :
    entryTokens fmtDouble true ((k, v) :: es) =
      commaToken :: stringToken k :: colonToken :: (jsonTokens fmtDouble v ++ entryTokens fmtDouble true es) := by
  simp [entryTokens]

theorem elemTokens_false_cons (v : QObject) (vs : List QObject) :
    elemTokens fmtDouble false (v :: vs) = jsonTokens fmtDouble v ++ elemTokens fmtDouble true vs := by
  simp [elemTokens]

theorem elemTokens_true_cons (v : QObject) (vs : List QObject) :
    elemTokens fmtDouble true (v :: vs) = commaToken :: (jsonTokens fmtDouble v ++ elemTokens fmtDouble true vs) := by
  simp [elemTokens]

/-- A value's tokens never start with `]`: `parse_array` does not take
a first element for the end of the list. -/
theorem jsonTokens_head (o : QObject) :
    ∃ t ts, jsonTokens fmtDouble o = t :: ts ∧ t.type ≠ .tok .rsquare := by
  cases o <;> simp [jsonTokens, stringToken, lcurlyToken, lsquareToken]

mutual

/-- **Recursive descent over the writer's tokens**: with a unit of fuel
for each token, `parse_value` reads an object's tokens back as
`parsedOf` it and leaves the tokens after them. -/
theorem parseValue_jsonTokens : ∀ (o : QObject), jsonSafe o = true →
    ∀ (n : Nat) (rest : List JSONToken), (jsonTokens fmtDouble o).length ≤ n →
      parseValue strtod n (jsonTokens fmtDouble o ++ rest) = .ok (parsedOf o, rest)
  | .qnull, _, n, rest, hn => by
    obtain ⟨m, rfl⟩ : ∃ m, n = m + 1 := ⟨n - 1, by simp [jsonTokens] at hn; omega⟩
    rw [jsonTokens, List.singleton_append, parseValue_keyword, parseKeyword_null]
    rfl
  | .qbool b, _, n, rest, hn => by
    obtain ⟨m, rfl⟩ : ∃ m, n = m + 1 := ⟨n - 1, by simp [jsonTokens] at hn; omega⟩
    rw [jsonTokens, List.singleton_append, parseValue_keyword, parseKeyword_bool]
    rfl
  | .qnum (.i64 v), _, n, rest, hn => by
    obtain ⟨m, rfl⟩ : ∃ m, n = m + 1 := ⟨n - 1, by simp [jsonTokens] at hn; omega⟩
    rw [jsonTokens, List.singleton_append, parseValue_integer, formatQNum, parseInteger_formatInt64]
    rfl
  | .qnum (.u64 w), _, n, rest, hn => by
    obtain ⟨m, rfl⟩ : ∃ m, n = m + 1 := ⟨n - 1, by simp [jsonTokens] at hn; omega⟩
    rw [jsonTokens, List.singleton_append, parseValue_integer, formatQNum, parseInteger_decimal]
    rfl
  | .qnum (.double _), h, _, _, _ => by simp [jsonSafe] at h
  | .qstring s, h, n, rest, hn => by
    obtain ⟨m, rfl⟩ : ∃ m, n = m + 1 := ⟨n - 1, by simp [jsonTokens] at hn; omega⟩
    rw [jsonTokens, List.singleton_append, parseValue_string strtod m s h]
    rfl
  | .qdict entries, h, n, rest, hn => by
    simp only [jsonSafe, Bool.and_eq_true, decide_eq_true_eq] at h
    simp only [jsonTokens, List.length_cons, List.length_append, List.length_nil] at hn
    obtain ⟨m, rfl⟩ : ∃ m, n = m + 1 := ⟨n - 1, by omega⟩
    rw [jsonTokens, List.cons_append, List.cons_append, parseValue_lcurly, List.append_assoc,
      List.singleton_append,
      parseObject_entryTokens entries h.2 h.1 m rest (by omega)]
    rfl
  | .qlist elems, h, n, rest, hn => by
    simp only [jsonSafe] at h
    simp only [jsonTokens, List.length_cons, List.length_append, List.length_nil] at hn
    obtain ⟨m, rfl⟩ : ∃ m, n = m + 1 := ⟨n - 1, by omega⟩
    rw [jsonTokens, List.cons_append, List.cons_append, parseValue_lsquare, List.append_assoc,
      List.singleton_append,
      parseArray_elemTokens elems h m rest (by omega)]
    rfl

/-- A dict's first member, after `{`. -/
theorem parseObject_entryTokens : ∀ (entries : List (Bytes × QObject)), entriesSafe entries = true →
    (entries.map Prod.fst).Nodup → ∀ (n : Nat) (rest : List JSONToken),
      (entryTokens fmtDouble false entries).length + 1 ≤ n →
      parseObject strtod n (entryTokens fmtDouble false entries ++ rcurlyToken :: rest) =
        .ok (.qdict (parsedEntries [] entries), rest)
  | [], _, _, n, rest, hn => by
    obtain ⟨m, rfl⟩ : ∃ m, n = m + 1 := ⟨n - 1, by omega⟩
    rw [entryTokens, List.nil_append, parseObject_rcurly]
    rfl
  | (k, v) :: es, h, hnd, n, rest, hn => by
    simp only [entriesSafe, Bool.and_eq_true] at h
    obtain ⟨⟨hk, hv⟩, hes⟩ := h
    simp only [List.map_cons, List.nodup_cons] at hnd
    rw [entryTokens_false_cons] at hn ⊢
    simp only [List.length_cons, List.length_append] at hn
    obtain ⟨m, rfl⟩ : ∃ m, n = m + 3 := ⟨n - 3, by omega⟩
    -- the first value, then the loop over the others
    have hval := parseValue_jsonTokens v hv (m + 1) (entryTokens fmtDouble true es ++ rcurlyToken :: rest)
      (by omega)
    have hpair := parsePair_member strtod m [] k hk hval rfl
    rw [List.cons_append, List.cons_append, List.append_assoc,
      parseObject_pair strtod (m + 2) _ _ (by simp [stringToken]) hpair]
    have hfresh : ∀ j ∈ es.map Prod.fst, qdictHaskey (qdictPutObj [] k (parsedOf v)) j = false := by
      intro j hj
      rw [qdictHaskey_putObj_of_ne _ (by rintro rfl; exact hnd.1 hj)]
      rfl
    exact objectLoop_entryTokens es _ hes hnd.2 hfresh (m + 2) rest (by omega)

/-- The members after the first, each after a `,`, up to `}`. -/
theorem objectLoop_entryTokens : ∀ (entries : List (Bytes × QObject)) (dict : QDict),
    entriesSafe entries = true → (entries.map Prod.fst).Nodup →
    (∀ j ∈ entries.map Prod.fst, qdictHaskey dict j = false) →
    ∀ (n : Nat) (rest : List JSONToken), (entryTokens fmtDouble true entries).length + 1 ≤ n →
      objectLoop strtod n dict (entryTokens fmtDouble true entries ++ rcurlyToken :: rest) =
        .ok (.qdict (parsedEntries dict entries), rest)
  | [], dict, _, _, _, n, rest, hn => by
    obtain ⟨m, rfl⟩ : ∃ m, n = m + 1 := ⟨n - 1, by omega⟩
    rw [entryTokens, List.nil_append, objectLoop_rcurly]
    rfl
  | (k, v) :: es, dict, h, hnd, hfresh, n, rest, hn => by
    simp only [entriesSafe, Bool.and_eq_true] at h
    obtain ⟨⟨hk, hv⟩, hes⟩ := h
    simp only [List.map_cons, List.nodup_cons] at hnd
    rw [entryTokens_true_cons] at hn ⊢
    simp only [List.length_cons, List.length_append] at hn
    obtain ⟨m, rfl⟩ : ∃ m, n = m + 4 := ⟨n - 4, by omega⟩
    have hval := parseValue_jsonTokens v hv (m + 2) (entryTokens fmtDouble true es ++ rcurlyToken :: rest)
      (by omega)
    have hpair := parsePair_member strtod (m + 1) dict k hk hval (hfresh k (by simp))
    rw [List.cons_append, List.cons_append, List.cons_append, List.append_assoc,
      objectLoop_comma strtod (m + 3) dict _ hpair]
    have hfresh' : ∀ j ∈ es.map Prod.fst, qdictHaskey (qdictPutObj dict k (parsedOf v)) j = false := by
      intro j hj
      rw [qdictHaskey_putObj_of_ne _ (by rintro rfl; exact hnd.1 hj)]
      exact hfresh j (by simp [hj])
    exact objectLoop_entryTokens es _ hes hnd.2 hfresh' (m + 3) rest (by omega)

/-- A list's first element, after `[`. -/
theorem parseArray_elemTokens : ∀ (elems : List QObject), elemsSafe elems = true →
    ∀ (n : Nat) (rest : List JSONToken), (elemTokens fmtDouble false elems).length + 1 ≤ n →
      parseArray strtod n (elemTokens fmtDouble false elems ++ rsquareToken :: rest) =
        .ok (.qlist (parsedElems elems), rest)
  | [], _, n, rest, hn => by
    obtain ⟨m, rfl⟩ : ∃ m, n = m + 1 := ⟨n - 1, by omega⟩
    rw [elemTokens, List.nil_append, parseArray_rsquare]
    rfl
  | v :: vs, h, n, rest, hn => by
    simp only [elemsSafe, Bool.and_eq_true] at h
    rw [elemTokens_false_cons] at hn ⊢
    simp only [List.length_append] at hn
    obtain ⟨t, ts, hts, ht⟩ := jsonTokens_head fmtDouble v
    have hpos : 0 < (jsonTokens fmtDouble v).length := by simp [hts]
    obtain ⟨m, rfl⟩ : ∃ m, n = m + 1 := ⟨n - 1, by omega⟩
    have hval := parseValue_jsonTokens v h.1 m (elemTokens fmtDouble true vs ++ rsquareToken :: rest)
      (by omega)
    rw [hts, List.cons_append] at hval
    rw [List.append_assoc, hts, List.cons_append, parseArray_value strtod m t _ ht hval,
      arrayLoop_elemTokens vs [parsedOf v] h.2 m rest (by omega)]
    rfl

/-- The elements after the first, each after a `,`, up to `]`. -/
theorem arrayLoop_elemTokens : ∀ (elems acc : List QObject), elemsSafe elems = true →
    ∀ (n : Nat) (rest : List JSONToken), (elemTokens fmtDouble true elems).length + 1 ≤ n →
      arrayLoop strtod n acc (elemTokens fmtDouble true elems ++ rsquareToken :: rest) =
        .ok (.qlist (acc ++ parsedElems elems), rest)
  | [], acc, _, n, rest, hn => by
    obtain ⟨m, rfl⟩ : ∃ m, n = m + 1 := ⟨n - 1, by omega⟩
    rw [elemTokens, List.nil_append, arrayLoop_rsquare, parsedElems, List.append_nil]
  | v :: vs, acc, h, n, rest, hn => by
    simp only [elemsSafe, Bool.and_eq_true] at h
    rw [elemTokens_true_cons] at hn ⊢
    simp only [List.length_cons, List.length_append] at hn
    obtain ⟨t, ts, hts, -⟩ := jsonTokens_head fmtDouble v
    have hpos : 0 < (jsonTokens fmtDouble v).length := by simp [hts]
    obtain ⟨m, rfl⟩ : ∃ m, n = m + 1 := ⟨n - 1, by omega⟩
    have hval := parseValue_jsonTokens v h.1 m (elemTokens fmtDouble true vs ++ rsquareToken :: rest)
      (by omega)
    rw [List.cons_append, List.append_assoc, arrayLoop_comma strtod m acc _ hval,
      arrayLoop_elemTokens vs (acc ++ [parsedOf v]) h.2 m rest (by omega)]
    simp [parsedElems]

end

/-- `json_parser_parse` on the writer's tokens. -/
theorem jsonParserParse_jsonTokens (o : QObject) (h : jsonSafe o = true) :
    jsonParserParse strtod (jsonTokens fmtDouble o) = .ok (parsedOf o) := by
  have hv := parseValue_jsonTokens strtod fmtDouble o h (2 * (jsonTokens fmtDouble o).length + 2) []
    (by omega)
  rw [List.append_nil] at hv
  rw [jsonParserParse, hv]
  rfl

end Descent

end QemuFormal.Json

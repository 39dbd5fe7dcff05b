/-
QemuFormal.QObject.BlockQdictTheorems — `qdict_array_split` and
`qdict_array_entries` read the same array.

Both loops look at index `i` for the key `"i"` (`indexKey`) and for the
keys prefixed `"i."` (`indexPrefix`). No key is looked at by two indices
(`handledBy_unique`: digits have no `.`, and the digits before a key's
first `.` name one number), so when `qdict_array_split` reaches index `k`
its QDict is `arrayRest src k`, `src` without the entries the indices
below `k` handled, and everything index `k` reads of it is what it reads
of `src`. Both loops stop at the first index that holds both or neither
(`arrayStops`).

  §1 Prefixes    — `strstart_eq_some_iff`, `handledBy_unique`.
  §2 The helpers — `countPrefixedLoop_eq` (the count, or `-ERANGE`),
                   `qdictExtractSubqdict_fst`, `qdictGet_extractSubqdict`.
  §3 The rest    — `arrayRest` and what index `k` reads of it.
  §4 The loops   — step and run lemmas of both loops; the closed forms
                   `qdictArraySplit_eq` and `qdictArrayEntries_eq`.
  §5 Agreement   — `qdictArrayEntries_agrees_split` when
                   `qdict_size(src) <= INT_MAX`, and `nullArray`, the
                   `2^31` nulls keyed `"0"`, `"1"`, … on which the two
                   disagree: the split moves every entry and the count
                   stops at `INT_MAX`.
-/
import QemuFormal.QObject.BlockQdict
import QemuFormal.Json.WriterTheorems

namespace QemuFormal

open Keyval (intMax)
open Json (decimal decimal_digits digitsValue_decimal)
open ChainedTable (KeysNodup)

/-! ## §1 Prefixes -/

/-- `strstart(key, p, NULL)`. -/
def prefixedBy (p key : Bytes) : Bool := (strstart key p).isSome

theorem strstart_eq_some_iff : ∀ (str val r : Bytes), strstart str val = some r ↔ str = val ++ r
  | str, [], r => by simp [strstart]
  | [], _ :: _, r => by simp [strstart]
  | p :: str, q :: val, r => by
    unfold strstart
    by_cases h : p = q
    · rw [if_pos h, strstart_eq_some_iff str val r, h]
      simp
    · simp [h]

theorem prefixedBy_iff (p key : Bytes) : prefixedBy p key = true ↔ ∃ r, key = p ++ r := by
  unfold prefixedBy
  rw [Option.isSome_iff_exists]
  simp only [strstart_eq_some_iff]

/-- The entry's key starts with `p`. -/
def keyPrefixed (p : Bytes) (e : Bytes × QObject) : Bool := prefixedBy p e.1

/-- Index `i` looks at `key`: it is `"i"` or it starts with `"i."`. -/
def handledBy (i : Nat) (key : Bytes) : Bool := key == indexKey i || prefixedBy (indexPrefix i) key

theorem decimal_injective {i j : Nat} (h : decimal i = decimal j) : i = j := by
  rw [← digitsValue_decimal i, h, digitsValue_decimal]

theorem dot_not_mem_decimal (n : Nat) : (0x2E : UInt8) ∉ decimal n := by
  intro h
  have hdigit := decimal_digits n _ h
  revert hdigit
  decide

/-- Two runs of dot-free bytes, each followed by a `.`, that start the same
list are the same. -/
theorem eq_of_append_dot {x y : Bytes} :
    ∀ {a b : Bytes}, (0x2E : UInt8) ∉ a → (0x2E : UInt8) ∉ b →
      a ++ 0x2E :: x = b ++ 0x2E :: y → a = b
  | [], [], _, _, _ => rfl
  | [], c :: b, _, hb, h => by
    rw [List.nil_append, List.cons_append, List.cons.injEq] at h
    exact absurd (h.1 ▸ List.mem_cons_self) hb
  | c :: a, [], ha, _, h => by
    rw [List.nil_append, List.cons_append, List.cons.injEq] at h
    exact absurd (h.1 ▸ List.mem_cons_self) ha
  | c :: a, d :: b, ha, hb, h => by
    rw [List.cons_append, List.cons_append, List.cons.injEq] at h
    rw [h.1, eq_of_append_dot (fun h' => ha (List.mem_cons_of_mem c h'))
      (fun h' => hb (List.mem_cons_of_mem d h')) h.2]

theorem not_prefixedBy_indexKey (i j : Nat) : prefixedBy (indexPrefix j) (indexKey i) = false := by
  rw [Bool.eq_false_iff]
  intro h
  obtain ⟨r, hr⟩ := (prefixedBy_iff _ _).mp h
  have hdot : (0x2E : UInt8) ∈ indexKey i := by
    rw [hr, indexPrefix]
    simp
  exact dot_not_mem_decimal i hdot

/-- No key is looked at by two indices. -/
theorem handledBy_unique {i j : Nat} {key : Bytes} (hi : handledBy i key = true)
    (hj : handledBy j key = true) : i = j := by
  unfold handledBy at hi hj
  simp only [Bool.or_eq_true, beq_iff_eq] at hi hj
  rcases hi with rfl | hi <;> rcases hj with hj | hj
  · exact decimal_injective hj
  · rw [not_prefixedBy_indexKey] at hj
    cases hj
  · rw [hj, not_prefixedBy_indexKey] at hi
    cases hi
  · obtain ⟨r, rfl⟩ := (prefixedBy_iff _ _).mp hi
    obtain ⟨r', hr'⟩ := (prefixedBy_iff _ _).mp hj
    simp only [indexPrefix, List.append_assoc, List.singleton_append] at hr'
    exact decimal_injective (eq_of_append_dot (dot_not_mem_decimal i) (dot_not_mem_decimal j) hr')

/-! ## §2 The helpers -/

theorem intMax_eq : intMax = 2147483647 := by decide

theorem countPrefixedLoop_eq (start : Bytes) :
    ∀ (l : List (Bytes × QObject)) (c : Int), 0 ≤ c → c ≤ intMax →
      countPrefixedLoop start l c =
        if c + (l.filter (keyPrefixed start)).length ≤ intMax
        then c + (l.filter (keyPrefixed start)).length else -erange
  | [], c, _, hc => by simp [countPrefixedLoop, hc]
  | e :: l, c, h0, hc => by
    unfold countPrefixedLoop
    by_cases he : keyPrefixed start e = true
    · have he' : (strstart e.1 start).isSome = true := he
      rw [if_pos he', List.filter_cons_of_pos he, List.length_cons]
      by_cases hmax : c = intMax
      · rw [if_pos hmax, if_neg (by omega)]
      · rw [if_neg hmax, countPrefixedLoop_eq start l (c + 1) (by omega) (by omega)]
        push_cast
        rw [show ∀ n : Int, c + 1 + n = c + (n + 1) from fun n => by ring]
    · have he' : (strstart e.1 start).isSome = false := Bool.eq_false_iff.mpr he
      rw [if_neg (by rw [he']; decide), List.filter_cons_of_neg he,
        countPrefixedLoop_eq start l c h0 hc]

/-- `qdict_count_prefixed_entries` is the number of prefixed keys, or
`-ERANGE` when that is past `INT_MAX`. -/
theorem qdictCountPrefixedEntries_eq (src : QDict) (start : Bytes) :
    qdictCountPrefixedEntries src start =
      if ((src.filter (keyPrefixed start)).length : Int) ≤ intMax
      then ((src.filter (keyPrefixed start)).length : Int) else -erange := by
  rw [qdictCountPrefixedEntries, countPrefixedLoop_eq start src 0 le_rfl (by decide)]
  simp

/-- The count is non-zero exactly when some key has the prefix (an
overflow is non-zero too). -/
theorem qdictCountPrefixedEntries_ne_zero (src : QDict) (start : Bytes) :
    (qdictCountPrefixedEntries src start != 0) = src.any (keyPrefixed start) := by
  rw [Bool.eq_iff_iff, bne_iff_ne, List.any_eq_true, ← List.length_filter_pos_iff,
    qdictCountPrefixedEntries_eq]
  have herange : (0 : Int) < erange := by decide
  have hmax : (0 : Int) ≤ intMax := by decide
  split <;> omega

/-- What `qdict_extract_subqdict` does to `src` for one entry. -/
def extractDelStep (p : Bytes) (a : QDict) (e : Bytes × QObject) : QDict :=
  if prefixedBy p e.1 then qdictDel a e.1 else a

/-- What it does to the new QDict for one entry. -/
def extractPutStep (p : Bytes) (s : QDict) (e : Bytes × QObject) : QDict :=
  match strstart e.1 p with
  | some r => qdictPutObj s r e.2
  | none => s

/-- The walk's two halves do not read each other. -/
theorem foldl_extract (p : Bytes) : ∀ (l : List (Bytes × QObject)) (a s : QDict),
    l.foldl (fun acc e =>
      match strstart e.1 p with
      | some r => (qdictDel acc.1 e.1, qdictPutObj acc.2 r e.2)
      | none => acc) (a, s) =
    (l.foldl (extractDelStep p) a, l.foldl (extractPutStep p) s)
  | [], _, _ => rfl
  | e :: l, a, s => by
    simp only [List.foldl_cons]
    cases h : strstart e.1 p with
    | none =>
      have hdel : extractDelStep p a e = a := by simp [extractDelStep, prefixedBy, h]
      have hput : extractPutStep p s e = s := by simp [extractPutStep, h]
      rw [hdel, hput, foldl_extract p l a s]
    | some r =>
      have hdel : extractDelStep p a e = qdictDel a e.1 := by simp [extractDelStep, prefixedBy, h]
      have hput : extractPutStep p s e = qdictPutObj s r e.2 := by simp [extractPutStep, h]
      rw [hdel, hput, foldl_extract p l]

theorem qdictExtractSubqdict_eq (src : QDict) (p : Bytes) :
    qdictExtractSubqdict src p = (src.foldl (extractDelStep p) src, src.foldl (extractPutStep p) []) :=
  foldl_extract p src src []

theorem qdictDel_eq_filter {d : QDict} (hnd : KeysNodup d) (key : Bytes) :
    qdictDel d key = d.filter fun e => !decide (e.1 = key) :=
  ChainedTable.erase_eq_filter key hnd

theorem qdictGet_cons (e : Bytes × QObject) (d : QDict) (key : Bytes) :
    qdictGet (e :: d) key = if e.1 = key then some e.2 else qdictGet d key :=
  ChainedTable.lookup_cons e d key

/-- Deleting the prefixed keys of `l` one by one. -/
theorem foldl_extractDelStep (p : Bytes) : ∀ (l : List (Bytes × QObject)) {a : QDict}, KeysNodup a →
    l.foldl (extractDelStep p) a =
      a.filter fun e => !(prefixedBy p e.1 && (l.map Prod.fst).contains e.1)
  | [], a, _ => by simp
  | f :: l, a, hnd => by
    rw [List.foldl_cons]
    by_cases hf : prefixedBy p f.1 = true
    · have hnd' : KeysNodup (extractDelStep p a f) := by
        rw [extractDelStep, if_pos hf]
        exact ChainedTable.keysNodup_erase f.1 hnd
      have hstep : extractDelStep p a f = a.filter fun e => !decide (e.1 = f.1) := by
        rw [extractDelStep, if_pos hf, qdictDel_eq_filter hnd]
      rw [foldl_extractDelStep p l hnd', hstep, List.filter_filter]
      apply List.filter_congr
      intro e _
      by_cases he : e.1 = f.1
      · simp [he, hf]
      · simp [he, beq_false_of_ne he]
    · have hstep : extractDelStep p a f = a := by rw [extractDelStep, if_neg hf]
      rw [hstep, foldl_extractDelStep p l hnd]
      apply List.filter_congr
      intro e _
      by_cases he : e.1 = f.1
      · simp [he, hf]
      · simp [he, beq_false_of_ne he]

/-- What is left of `src`: the entries without the prefix. -/
theorem qdictExtractSubqdict_fst {src : QDict} (hnd : KeysNodup src) (p : Bytes) :
    (qdictExtractSubqdict src p).1 = src.filter fun e => !prefixedBy p e.1 := by
  rw [qdictExtractSubqdict_eq, foldl_extractDelStep p src hnd]
  apply List.filter_congr
  intro e he
  simp [List.mem_map_of_mem (f := Prod.fst) he]

theorem foldl_extractPutStep_filter (p : Bytes) :
    ∀ (l : List (Bytes × QObject)) (s : QDict),
      l.foldl (extractPutStep p) s = (l.filter (keyPrefixed p)).foldl (extractPutStep p) s
  | [], _ => rfl
  | e :: l, s => by
    by_cases he : keyPrefixed p e = true
    · rw [List.filter_cons_of_pos he, List.foldl_cons, List.foldl_cons,
        foldl_extractPutStep_filter p l]
    · have hnone : strstart e.1 p = none := by simpa [keyPrefixed, prefixedBy] using he
      have hstep : extractPutStep p s e = s := by simp [extractPutStep, hnone]
      rw [List.filter_cons_of_neg he, List.foldl_cons, hstep, foldl_extractPutStep_filter p l]

/-- The new QDict is read off the prefixed entries alone. -/
theorem qdictExtractSubqdict_snd_filter (d : QDict) (p : Bytes) {q : Bytes × QObject → Bool}
    (hq : ∀ e ∈ d, prefixedBy p e.1 = true → q e = true) :
    (qdictExtractSubqdict (d.filter q) p).2 = (qdictExtractSubqdict d p).2 := by
  rw [qdictExtractSubqdict_eq, qdictExtractSubqdict_eq]
  dsimp only
  rw [foldl_extractPutStep_filter p (d.filter q), foldl_extractPutStep_filter p d, List.filter_filter]
  congr 1
  apply List.filter_congr
  intro e he
  by_cases hp : keyPrefixed p e = true
  · simp [hp, hq e he hp]
  · simp [hp]

theorem qdictGet_foldl_extractPutStep (p key : Bytes) :
    ∀ (l : List (Bytes × QObject)) (s : QDict), KeysNodup l →
      qdictGet (l.foldl (extractPutStep p) s) key = (qdictGet l (p ++ key)).or (qdictGet s key)
  | [], _, _ => rfl
  | e :: l, s, hnd => by
    have hnd' : e.1 ∉ l.map Prod.fst ∧ KeysNodup l := by
      simpa [KeysNodup, List.nodup_cons] using hnd
    rw [List.foldl_cons, qdictGet_foldl_extractPutStep p key l _ hnd'.2, qdictGet_cons]
    cases h : strstart e.1 p with
    | none =>
      have hne : e.1 ≠ p ++ key := fun he => by
        rw [(strstart_eq_some_iff e.1 p key).mpr he] at h
        cases h
      simp [extractPutStep, h, hne]
    | some r =>
      have hr := (strstart_eq_some_iff e.1 p r).mp h
      rw [show extractPutStep p s e = qdictPutObj s r e.2 by simp [extractPutStep, h], qdictGet_putObj]
      by_cases hk : key = r
      · subst hk
        have hnone : qdictGet l e.1 = none := (ChainedTable.lookup_eq_none_iff l _).mpr hnd'.1
        simp [← hr, hnone]
      · have hne : e.1 ≠ p ++ key := fun he => hk (List.append_cancel_left (hr.symm.trans he)).symm
        simp [hk, hne]

/-- The new QDict holds under `key` what `src` holds under `p ++ key`. -/
theorem qdictGet_extractSubqdict {src : QDict} (hnd : KeysNodup src) (p key : Bytes) :
    qdictGet (qdictExtractSubqdict src p).2 key = qdictGet src (p ++ key) := by
  rw [qdictExtractSubqdict_eq, qdictGet_foldl_extractPutStep p key src [] hnd]
  simp [qdictGet]

theorem qdictExtractSubqdict_snd_ne_nil {src : QDict} (hnd : KeysNodup src) {p : Bytes}
    (h : (src.any (keyPrefixed p)) = true) : (qdictExtractSubqdict src p).2 ≠ [] := by
  obtain ⟨e, he, hp⟩ := List.any_eq_true.mp h
  obtain ⟨r, hr⟩ := (prefixedBy_iff p e.1).mp hp
  have hget : qdictGet (qdictExtractSubqdict src p).2 r = some e.2 := by
    rw [qdictGet_extractSubqdict hnd, ← hr]
    exact ChainedTable.lookup_of_mem hnd he
  intro hnil
  rw [hnil] at hget
  cases hget

/-! ## §3 The rest -/

/-- `src` without the entries that indices `0 … k-1` handle: the QDict
`qdict_array_split` holds when it reaches index `k`. -/
def arrayRest (src : QDict) : Nat → QDict
  | 0 => src
  | k + 1 => (arrayRest src k).filter fun e => !handledBy k e.1

theorem arrayRest_eq_filter (src : QDict) :
    ∀ k, arrayRest src k = src.filter fun e => (List.range k).all fun j => !handledBy j e.1
  | 0 => by simp [arrayRest]
  | k + 1 => by
    rw [arrayRest, arrayRest_eq_filter src k, List.filter_filter]
    apply List.filter_congr
    intro e _
    simp [List.range_succ, Bool.and_comm]

theorem arrayRest_sublist (src : QDict) (k : Nat) : (arrayRest src k).Sublist src := by
  rw [arrayRest_eq_filter]
  exact List.filter_sublist

theorem keysNodup_arrayRest {src : QDict} (hnd : KeysNodup src) (k : Nat) :
    KeysNodup (arrayRest src k) :=
  List.Nodup.sublist ((arrayRest_sublist src k).map Prod.fst) hnd

/-- A key that index `k` handles was handled by no index below it. -/
theorem all_not_handledBy {k : Nat} {key : Bytes} (h : handledBy k key = true) :
    ((List.range k).all fun j => !handledBy j key) = true := by
  rw [List.all_eq_true]
  intro j hj
  have hjk : j ≠ k := Nat.ne_of_lt (List.mem_range.mp hj)
  have hj' : handledBy j key = false := Bool.eq_false_iff.mpr fun h' => hjk (handledBy_unique h' h)
  rw [hj']
  rfl

/-- Everything index `k` handles is still there when the split reaches it. -/
theorem filter_arrayRest (src : QDict) (k : Nat) {q : Bytes × QObject → Bool}
    (hq : ∀ e, q e = true → handledBy k e.1 = true) :
    (arrayRest src k).filter q = src.filter q := by
  rw [arrayRest_eq_filter, List.filter_filter]
  apply List.filter_congr
  intro e _
  by_cases he : q e = true
  · rw [he, all_not_handledBy (hq e he)]
    rfl
  · simp [he]

theorem qdictGet_arrayRest (src : QDict) (k : Nat) :
    qdictGet (arrayRest src k) (indexKey k) = qdictGet src (indexKey k) := by
  rw [arrayRest_eq_filter]
  apply ChainedTable.lookup_filter
  intro e _ he
  apply all_not_handledBy
  simp [handledBy, he]

theorem prefixedBy_handledBy {k : Nat} {key : Bytes} (h : prefixedBy (indexPrefix k) key = true) :
    handledBy k key = true := by
  simp [handledBy, h]

theorem qdictCountPrefixedEntries_arrayRest (src : QDict) (k : Nat) :
    qdictCountPrefixedEntries (arrayRest src k) (indexPrefix k) =
      qdictCountPrefixedEntries src (indexPrefix k) := by
  rw [qdictCountPrefixedEntries_eq, qdictCountPrefixedEntries_eq,
    filter_arrayRest src k (q := keyPrefixed (indexPrefix k)) fun _ => prefixedBy_handledBy]

theorem qdictExtractSubqdict_arrayRest_snd (src : QDict) (k : Nat) :
    (qdictExtractSubqdict (arrayRest src k) (indexPrefix k)).2 =
      (qdictExtractSubqdict src (indexPrefix k)).2 := by
  rw [arrayRest_eq_filter]
  exact qdictExtractSubqdict_snd_filter src _ fun e _ hp => all_not_handledBy (prefixedBy_handledBy hp)

theorem arrayRest_ne_nil {src : QDict} {k : Nat} (h : (qdictGet src (indexKey k)).isSome = true) :
    arrayRest src k ≠ [] := by
  intro hnil
  rw [← qdictGet_arrayRest, hnil] at h
  cases h

/-- What index `k` hands over leaves the rest. -/
theorem length_arrayRest_succ (src : QDict) (k : Nat) :
    (arrayRest src (k + 1)).length + (src.filter fun e => handledBy k e.1).length =
      (arrayRest src k).length := by
  rw [arrayRest, ← filter_arrayRest src k (q := fun e => handledBy k e.1) fun _ h => h,
    List.length_eq_countP_add_countP (fun e => handledBy k e.1) (l := arrayRest src k),
    List.countP_eq_length_filter, List.countP_eq_length_filter]
  simp only [Bool.not_eq_true, Bool.decide_eq_false]
  omega

/-! ## §4 The loops -/

/-- The key `"i"` is in `src`. -/
def hasIndexKey (src : QDict) (i : Nat) : Bool := (qdictGet src (indexKey i)).isSome

/-- Some key of `src` starts with `"i."`. -/
def hasIndexPrefixed (src : QDict) (i : Nat) : Bool := src.any (keyPrefixed (indexPrefix i))

/-- Both loops stop at index `i`: it has the key `"i"` and keys prefixed
`"i."`, or neither. -/
def arrayStops (src : QDict) (i : Nat) : Bool := hasIndexKey src i == hasIndexPrefixed src i

/-- What both loops take for index `i`: the value under `"i"`, or the
QDict of the keys prefixed `"i."`. -/
def arrayElem (src : QDict) (i : Nat) : QObject :=
  match qdictGet src (indexKey i) with
  | some v => v
  | none => .qdict (qdictExtractSubqdict src (indexPrefix i)).2

theorem hasIndexPrefixed_iff (src : QDict) (i : Nat) :
    hasIndexPrefixed src i = true ↔ 0 < (src.filter (keyPrefixed (indexPrefix i))).length := by
  rw [hasIndexPrefixed, List.any_eq_true, List.length_filter_pos_iff]

/-- At an index with the key `"k"` and no prefixed keys, deleting the key
hands the index over. -/
theorem qdictDel_arrayRest {src : QDict} (hnd : KeysNodup src) {k : Nat}
    (hp : hasIndexPrefixed src k = false) :
    qdictDel (arrayRest src k) (indexKey k) = arrayRest src (k + 1) := by
  rw [qdictDel_eq_filter (keysNodup_arrayRest hnd k), arrayRest]
  apply List.filter_congr
  intro e he
  have hpe : prefixedBy (indexPrefix k) e.1 = false :=
    Bool.eq_false_iff.mpr (List.any_eq_false.mp hp e ((arrayRest_sublist src k).subset he))
  by_cases hk : e.1 = indexKey k <;> simp [handledBy, hpe, hk]

/-- At an index with prefixed keys and no key `"k"`, extracting them hands
the index over. -/
theorem qdictExtractSubqdict_arrayRest_fst {src : QDict} (hnd : KeysNodup src) {k : Nat}
    (hv : qdictGet src (indexKey k) = none) :
    (qdictExtractSubqdict (arrayRest src k) (indexPrefix k)).1 = arrayRest src (k + 1) := by
  rw [qdictExtractSubqdict_fst (keysNodup_arrayRest hnd k), arrayRest]
  apply List.filter_congr
  intro e he
  have hkey : e.1 ≠ indexKey k := fun hek =>
    (ChainedTable.lookup_eq_none_iff src _).mp hv
      (List.mem_map.mpr ⟨e, (arrayRest_sublist src k).subset he, hek⟩)
  simp [handledBy, hkey]

theorem qdictArraySplitLoop_step {src : QDict} (hnd : KeysNodup src) (fuel k : Nat)
    (dst : List QObject) :
    qdictArraySplitLoop (fuel + 1) k (arrayRest src k) dst =
      if arrayStops src k then (arrayRest src k, dst)
      else qdictArraySplitLoop fuel (k + 1) (arrayRest src (k + 1)) (dst ++ [arrayElem src k]) := by
  have hcount : (qdictCountPrefixedEntries (arrayRest src k) (indexPrefix k) != 0) =
      hasIndexPrefixed src k := by
    rw [qdictCountPrefixedEntries_arrayRest, qdictCountPrefixedEntries_ne_zero, hasIndexPrefixed]
  simp only [qdictArraySplitLoop, qdictGet_arrayRest, hcount, arrayStops, hasIndexKey, arrayElem]
  rcases Option.eq_none_or_eq_some (qdictGet src (indexKey k)) with hv | ⟨v, hv⟩ <;>
    rcases Bool.eq_false_or_eq_true (hasIndexPrefixed src k) with hp | hp
  case inl.inl =>
    simp only [hv, hp, Option.isNone_none, Option.isSome_none]
    rw [qdictExtractSubqdict_arrayRest_fst hnd hv, qdictExtractSubqdict_arrayRest_snd]
    rfl
  case inr.inr =>
    simp only [hv, hp, Option.isNone_some, Option.isSome_some]
    rw [qdictDel_arrayRest hnd hp]
    rfl
  -- both, or neither: the loop stops
  all_goals simp [hv, hp]

/-- `d` indices that do not stop take `d` fuel and hand their elements over
in order. -/
theorem qdictArraySplitLoop_run {src : QDict} (hnd : KeysNodup src) :
    ∀ (d fuel k : Nat) (dst : List QObject), d ≤ fuel →
      (∀ j, k ≤ j → j < k + d → arrayStops src j = false) →
      qdictArraySplitLoop fuel k (arrayRest src k) dst =
        qdictArraySplitLoop (fuel - d) (k + d) (arrayRest src (k + d))
          (dst ++ (List.range' k d).map (arrayElem src))
  | 0, fuel, k, dst, _, _ => by simp
  | d + 1, 0, _, _, hd, _ => absurd hd (by omega)
  | d + 1, fuel + 1, k, dst, hd, hgo => by
    have hk : arrayStops src k = false := hgo k le_rfl (by omega)
    rw [qdictArraySplitLoop_step hnd, if_neg (by rw [hk]; decide),
      qdictArraySplitLoop_run hnd d fuel (k + 1) _ (by omega)
        fun j hj hj' => hgo j (by omega) (by omega),
      show k + 1 + d = k + (d + 1) by omega, Nat.add_sub_add_right, List.range'_succ,
      List.map_cons, List.append_assoc, List.singleton_append]

/-- `qdict_array_split` up to the first index that stops: the rest of `src`
and the elements of the indices before it. -/
theorem qdictArraySplit_eq {src : QDict} (hnd : KeysNodup src) {m : Nat} (hm : m < uintMax)
    (hgo : ∀ j < m, arrayStops src j = false) (hstop : arrayStops src m = true) :
    qdictArraySplit src = (arrayRest src m, (List.range m).map (arrayElem src)) := by
  obtain ⟨f, hf⟩ : ∃ f, uintMax - m = f + 1 := ⟨uintMax - m - 1, by omega⟩
  have hrun := qdictArraySplitLoop_run hnd m uintMax 0 [] hm.le fun j _ hj => hgo j (by omega)
  unfold qdictArraySplit
  change qdictArraySplitLoop uintMax 0 (arrayRest src 0) [] = _
  rw [hrun, hf, Nat.zero_add, qdictArraySplitLoop_step hnd, if_pos hstop, List.nil_append,
    List.range_eq_range']

/-- What index `k` hands over when it does not stop: its key, or its
prefixed keys. -/
theorem length_filter_handledBy {src : QDict} (hnd : KeysNodup src) {k : Nat}
    (hgo : arrayStops src k = false) :
    (src.filter fun e => handledBy k e.1).length =
      if hasIndexPrefixed src k then (src.filter (keyPrefixed (indexPrefix k))).length else 1 := by
  unfold arrayStops hasIndexKey at hgo
  rcases Bool.eq_false_or_eq_true (hasIndexPrefixed src k) with hp | hp <;>
    rw [hp] at hgo ⊢ <;> simp only [beq_false, beq_true, Bool.not_eq_eq_eq_not,
      Bool.not_false] at hgo <;> simp only [if_true, if_false, Bool.false_eq_true]
  · -- prefixed keys and no key `"k"`
    congr 1
    apply List.filter_congr
    intro e he
    have hkey : e.1 ≠ indexKey k := fun hek => by
      have hget : qdictGet src e.1 = some e.2 := ChainedTable.lookup_of_mem hnd he
      rw [← hek, hget] at hgo
      cases hgo
    simp [handledBy, keyPrefixed, hkey]
  · -- the key `"k"` and no prefixed keys
    have hone := ChainedTable.length_filter_key (indexKey k) hnd
    rw [← qdictGet, hgo, if_pos rfl] at hone
    rw [← hone]
    congr 1
    apply List.filter_congr
    intro e he
    have hpe : prefixedBy (indexPrefix k) e.1 = false :=
      Bool.eq_false_iff.mpr (List.any_eq_false.mp hp e he)
    by_cases hk : e.1 = indexKey k <;> simp [handledBy, hpe, hk]

/-- With the count below `INT_MAX`, one step of `qdict_array_entries`. -/
theorem qdictArrayEntriesLoop_step {src : QDict} (hnd : KeysNodup src) {k : Nat}
    (hcnt : ((src.filter (keyPrefixed (indexPrefix k))).length : Int) ≤ intMax)
    (fuel entries : Nat) :
    qdictArrayEntriesLoop src [] (fuel + 1) k entries =
      if arrayStops src k then
        (if hasIndexKey src k then .error (-einval) else .ok (k, entries))
      else qdictArrayEntriesLoop src [] fuel (k + 1)
        ((entries + (src.filter fun e => handledBy k e.1).length) % 2 ^ 32) := by
  have hpos := hasIndexPrefixed_iff src k
  have hneg : ¬((src.filter (keyPrefixed (indexPrefix k))).length : Int) < 0 := by omega
  simp only [qdictArrayEntriesLoop, List.nil_append, qdictCountPrefixedEntries_eq, if_pos hcnt,
    if_neg hneg]
  unfold arrayStops hasIndexKey
  rcases Bool.eq_false_or_eq_true (hasIndexPrefixed src k) with hp | hp <;>
    rcases Option.eq_none_or_eq_some (qdictGet src (indexKey k)) with hv | ⟨v, hv⟩
  · -- prefixed keys only: count them
    have hgo : arrayStops src k = false := by simp [arrayStops, hasIndexKey, hv, hp]
    rw [length_filter_handledBy hnd hgo, hp]
    have h0 := hpos.mp hp
    simp [hv, Nat.pos_iff_ne_zero.mp h0]
  · -- both
    have h0 := hpos.mp hp
    simp [hv, hp, Nat.pos_iff_ne_zero.mp h0]
  · -- neither
    have h0 : (src.filter (keyPrefixed (indexPrefix k))).length = 0 := by
      have := mt hpos.mpr (by rw [hp]; decide)
      omega
    simp [hv, hp, h0]
  · -- the key only: count one
    have hgo : arrayStops src k = false := by simp [arrayStops, hasIndexKey, hv, hp]
    have h0 : (src.filter (keyPrefixed (indexPrefix k))).length = 0 := by
      have := mt hpos.mpr (by rw [hp]; decide)
      omega
    rw [length_filter_handledBy hnd hgo, hp]
    simp [hv, h0]

/-- `d` indices that do not stop take `d` fuel; `entries` is then what
the split has handed over. -/
theorem qdictArrayEntriesLoop_run {src : QDict} (hnd : KeysNodup src)
    (hcnt : ∀ j, ((src.filter (keyPrefixed (indexPrefix j))).length : Int) ≤ intMax)
    (hsz : src.length < 2 ^ 32) :
    ∀ (d fuel k entries : Nat), d ≤ fuel →
      (∀ j, k ≤ j → j < k + d → arrayStops src j = false) →
      entries + (arrayRest src k).length = src.length →
      qdictArrayEntriesLoop src [] fuel k entries =
        qdictArrayEntriesLoop src [] (fuel - d) (k + d) (src.length - (arrayRest src (k + d)).length)
  | 0, fuel, k, entries, _, _, hinv => by
    rw [Nat.sub_zero, Nat.add_zero, ← hinv, Nat.add_sub_cancel]
  | d + 1, 0, _, _, hd, _, _ => absurd hd (by omega)
  | d + 1, fuel + 1, k, entries, hd, hgo, hinv => by
    have hk : arrayStops src k = false := hgo k le_rfl (by omega)
    have hstep := length_arrayRest_succ src k
    have hinv' : (entries + (src.filter fun e => handledBy k e.1).length) % 2 ^ 32 +
        (arrayRest src (k + 1)).length = src.length := by
      rw [Nat.mod_eq_of_lt (by omega)]
      omega
    rw [qdictArrayEntriesLoop_step hnd (hcnt k), if_neg (by rw [hk]; decide),
      qdictArrayEntriesLoop_run hnd hcnt hsz d fuel (k + 1) _ (by omega)
        (fun j hj hj' => hgo j (by omega) (by omega)) hinv',
      show k + 1 + d = k + (d + 1) by omega, Nat.add_sub_add_right]

/-- The final count of `qdict_array_entries`: with the prefix `""` no key
lies outside the sub-QDict, so the indices must have handled them all. -/
theorem qdictArrayEntries_of_loop {src : QDict} (hsz : src.length < 2 ^ 32) {i : Nat}
    (h : qdictArrayEntriesLoop src [] intMax.toNat 0 0 =
      .ok (i, src.length - (arrayRest src i).length)) :
    qdictArrayEntries src [] = if arrayRest src i = [] then (i : Int) else -einval := by
  have hout : (src.filter fun e => (strstart e.1 []).isNone) = [] := by simp [strstart]
  have hle := (arrayRest_sublist src i).length_le
  rw [qdictArrayEntries, h]
  simp only [hout, List.length_nil, Nat.add_zero, Nat.mod_eq_of_lt (Nat.lt_of_le_of_lt (Nat.sub_le _ _) hsz)]
  by_cases hr : arrayRest src i = []
  · simp [hr, qdictSize]
  · have hpos : 0 < (arrayRest src i).length := List.length_pos_iff.mpr hr
    have hne : qdictSize src ≠ src.length - (arrayRest src i).length := by
      rw [qdictSize]
      omega
    simp [hr, hne]

/-- Every index that does not stop hands over at least one entry. -/
theorem length_arrayRest_add_le {src : QDict} (hnd : KeysNodup src) :
    ∀ d, (∀ j < d, arrayStops src j = false) → (arrayRest src d).length + d ≤ src.length
  | 0, _ => by simp [arrayRest]
  | d + 1, hgo => by
    have ih := length_arrayRest_add_le hnd d fun j hj => hgo j (by omega)
    have hstep := length_arrayRest_succ src d
    have hpos : 0 < (src.filter fun e => handledBy d e.1).length := by
      rw [length_filter_handledBy hnd (hgo d (by omega))]
      split
      · exact (hasIndexPrefixed_iff src d).mp ‹_›
      · exact Nat.one_pos
    omega

/-- Both loops have a first index that stops. -/
theorem exists_first_arrayStops {src : QDict} (hnd : KeysNodup src) :
    ∃ m, arrayStops src m = true ∧ ∀ j < m, arrayStops src j = false := by
  have hex : ∃ m, arrayStops src m = true := by
    by_contra h
    have hall : ∀ j < src.length + 1, arrayStops src j = false := fun j _ =>
      Bool.eq_false_iff.mpr fun hj => h ⟨j, hj⟩
    have := length_arrayRest_add_le hnd _ hall
    omega
  exact ⟨Nat.find hex, Nat.find_spec hex, fun j hj => Bool.eq_false_iff.mpr (Nat.find_min hex hj)⟩

/-- `qdict_array_entries(src, "")` up to the first index that stops: the
number of indices when the split would empty `src`, else `-EINVAL`. -/
theorem qdictArrayEntries_eq {src : QDict} (hnd : KeysNodup src) (hsize : (src.length : Int) ≤ intMax)
    {m : Nat} (hgo : ∀ j < m, arrayStops src j = false) (hstop : arrayStops src m = true) :
    qdictArrayEntries src [] = if arrayRest src m = [] then (m : Int) else -einval := by
  have hcnt : ∀ j, ((src.filter (keyPrefixed (indexPrefix j))).length : Int) ≤ intMax := fun j => by
    have := List.length_filter_le (keyPrefixed (indexPrefix j)) src
    omega
  have hfuel : intMax.toNat = 2147483647 := by rw [intMax_eq]; rfl
  rw [intMax_eq] at hsize
  have hsz : src.length < 2 ^ 32 := by omega
  have hm := length_arrayRest_add_le hnd m hgo
  have hrun := qdictArrayEntriesLoop_run hnd hcnt hsz m intMax.toNat 0 0 (by omega)
    (fun j _ hj => hgo j (by omega)) (by simp [arrayRest])
  rw [Nat.zero_add] at hrun
  rcases Nat.lt_or_ge m intMax.toNat with hlt | hge
  · obtain ⟨f, hf⟩ : ∃ f, intMax.toNat - m = f + 1 := ⟨intMax.toNat - m - 1, by omega⟩
    rw [hf, qdictArrayEntriesLoop_step hnd (hcnt m), if_pos hstop] at hrun
    by_cases hkey : hasIndexKey src m = true
    · -- both: `-EINVAL`, and the key `"m"` is left behind
      rw [if_pos hkey] at hrun
      rw [qdictArrayEntries, hrun, if_neg (arrayRest_ne_nil hkey)]
    · rw [if_neg hkey] at hrun
      exact qdictArrayEntries_of_loop hsz hrun
  · -- the count runs out of indices at `INT_MAX`
    rw [show intMax.toNat - m = 0 by omega, qdictArrayEntriesLoop] at hrun
    exact qdictArrayEntries_of_loop hsz hrun

/-- An element the split hands over: the value under `"i"`, or a non-empty
QDict holding under each `key` what `src` holds under `"i." ++ key`. -/
theorem arrayElem_spec {src : QDict} (hnd : KeysNodup src) {i : Nat}
    (hgo : arrayStops src i = false) :
    qdictGet src (indexKey i) = some (arrayElem src i) ∨
      (qdictGet src (indexKey i) = none ∧ ∃ d, arrayElem src i = .qdict d ∧ d ≠ [] ∧
        ∀ key, qdictGet d key = qdictGet src (indexPrefix i ++ key)) := by
  unfold arrayElem
  rcases Option.eq_none_or_eq_some (qdictGet src (indexKey i)) with hv | ⟨v, hv⟩
  · have hp : hasIndexPrefixed src i = true := by
      simpa [arrayStops, hasIndexKey, hv] using hgo
    refine Or.inr ⟨hv, _, by simp only [hv], qdictExtractSubqdict_snd_ne_nil hnd hp,
      qdictGet_extractSubqdict hnd _⟩
  · simp [hv]

/-! ## §5 Agreement -/

/-- `n` nulls under the keys `"0"`, `"1"`, …, `"n-1"`, put in that order. -/
def nullArray (n : Nat) : QDict :=
  (List.range n).foldl (fun d i => qdictPutObj d (indexKey i) .qnull) []

theorem nullArray_succ (n : Nat) :
    nullArray (n + 1) = qdictPutObj (nullArray n) (indexKey n) .qnull := by
  rw [nullArray, List.range_succ, List.foldl_append]
  rfl

theorem qdictWF_nullArray : ∀ n, QDictWF (nullArray n)
  | 0 => qdictWF_nil
  | n + 1 => by
    rw [nullArray_succ]
    exact qdictWF_putObj (qdictWF_nullArray n) _ _

theorem isSome_qdictGet_nullArray (key : Bytes) :
    ∀ n, (qdictGet (nullArray n) key).isSome = true ↔ ∃ j < n, key = indexKey j
  | 0 => by simp [nullArray, qdictGet]
  | n + 1 => by
    rw [nullArray_succ, qdictGet_putObj]
    by_cases hk : key = indexKey n
    · rw [if_pos hk, Option.isSome_some]
      exact iff_of_true rfl ⟨n, Nat.lt_succ_self n, hk⟩
    · rw [if_neg hk, isSome_qdictGet_nullArray key n]
      constructor
      · rintro ⟨j, hj, hkj⟩
        exact ⟨j, by omega, hkj⟩
      · rintro ⟨j, hj, hkj⟩
        have hjn : j ≠ n := fun hjn => hk (hjn ▸ hkj)
        exact ⟨j, by omega, hkj⟩

theorem hasIndexKey_nullArray (n i : Nat) : hasIndexKey (nullArray n) i = decide (i < n) := by
  rw [Bool.eq_iff_iff, hasIndexKey, isSome_qdictGet_nullArray, decide_eq_true_iff]
  constructor
  · rintro ⟨j, hj, hij⟩
    rw [decimal_injective hij]
    exact hj
  · intro hi
    exact ⟨i, hi, rfl⟩

theorem mem_nullArray {n : Nat} {e : Bytes × QObject} (he : e ∈ nullArray n) :
    ∃ j < n, e.1 = indexKey j := by
  have hget : qdictGet (nullArray n) e.1 = some e.2 :=
    ChainedTable.lookup_of_mem (qdictWF_nullArray n).2 he
  exact (isSome_qdictGet_nullArray e.1 n).mp (by rw [hget]; rfl)

theorem hasIndexPrefixed_nullArray (n i : Nat) : hasIndexPrefixed (nullArray n) i = false := by
  rw [hasIndexPrefixed, List.any_eq_false]
  intro e he
  obtain ⟨j, _, hj⟩ := mem_nullArray he
  rw [keyPrefixed, hj, not_prefixedBy_indexKey]
  decide

theorem length_nullArray : ∀ n, (nullArray n).length = n
  | 0 => rfl
  | n + 1 => by
    have hnew : (qdictGet (nullArray n) (indexKey n)).isSome = false := by
      rw [← hasIndexKey, hasIndexKey_nullArray]
      simp
    rw [nullArray_succ, qdictPutObj, ChainedTable.length_put, ← qdictGet, hnew, length_nullArray n]
    rfl

/-- Index `i` of the nulls stops exactly past the last key. -/
theorem arrayStops_nullArray (n i : Nat) : arrayStops (nullArray n) i = decide (n ≤ i) := by
  rw [arrayStops, hasIndexKey_nullArray, hasIndexPrefixed_nullArray]
  by_cases h : n ≤ i
  · simp [h]
  · simp [h, Nat.lt_of_not_le h]

theorem arrayRest_nullArray (n : Nat) : arrayRest (nullArray n) n = [] := by
  rw [arrayRest_eq_filter, List.filter_eq_nil_iff]
  intro e he
  obtain ⟨j, hj, hej⟩ := mem_nullArray he
  rw [Bool.not_eq_true, List.all_eq_false]
  exact ⟨j, List.mem_range.mpr hj, by simp [handledBy, hej]⟩

/-- With at most `INT_MAX` entries, `qdict_array_entries(src, "")` is
non-negative exactly when `qdict_array_split` empties `src`; it is then
the length of the list, whose element `i` is `src["i"]` or the QDict of
the keys prefixed `"i."` with the prefix removed; otherwise it is
`-EINVAL` and the split leaves entries behind. -/
theorem qdictArrayEntries_agrees_split (src : QDict) (hwf : QDictWF src)
    (hsize : (qdictSize src : Int) ≤ intMax) :
    (0 ≤ qdictArrayEntries src [] ↔ (qdictArraySplit src).1 = []) ∧
    (0 ≤ qdictArrayEntries src [] →
      ((qdictArraySplit src).2.length : Int) = qdictArrayEntries src [] ∧
      ∀ i (hi : i < (qdictArraySplit src).2.length),
        qdictGet src (indexKey i) = some (qdictArraySplit src).2[i] ∨
        (qdictGet src (indexKey i) = none ∧ ∃ d, (qdictArraySplit src).2[i] = .qdict d ∧ d ≠ [] ∧
          ∀ key, qdictGet d key = qdictGet src (indexPrefix i ++ key))) ∧
    (qdictArrayEntries src [] < 0 →
      qdictArrayEntries src [] = -einval ∧ (qdictArraySplit src).1 ≠ []) := by
  have hnd := hwf.2
  obtain ⟨m, hstop, hgo⟩ := exists_first_arrayStops hnd
  have hm := length_arrayRest_add_le hnd m hgo
  have hsize' : src.length ≤ 2147483647 := by
    rw [intMax_eq, qdictSize] at hsize
    omega
  rw [qdictArraySplit_eq hnd (by unfold uintMax; omega) hgo hstop, qdictArrayEntries_eq hnd hsize hgo hstop]
  have heinval : (-einval : Int) < 0 := by decide
  by_cases hr : arrayRest src m = []
  · simp only [hr, if_true, List.length_map, List.length_range]
    refine ⟨by simp, fun _ => ⟨by simp, fun i hi => ?_⟩, fun h => absurd h (by omega)⟩
    simp only [List.getElem_map, List.getElem_range]
    exact arrayElem_spec hnd (hgo i (by simpa using hi))
  · simp only [hr, if_false]
    exact ⟨by simp only [iff_false]; omega, fun h => absurd h (by omega), fun _ => ⟨by simp, hr⟩⟩

/-- The agreement at the QDict `{"0": null, "1": null}`. -/
theorem qdictArrayEntries_agrees_split_nulls :
    QDictWF (nullArray 2) ∧ (qdictSize (nullArray 2) : Int) ≤ intMax ∧
    ((0 ≤ qdictArrayEntries (nullArray 2) [] ↔ (qdictArraySplit (nullArray 2)).1 = []) ∧
    (0 ≤ qdictArrayEntries (nullArray 2) [] →
      ((qdictArraySplit (nullArray 2)).2.length : Int) = qdictArrayEntries (nullArray 2) [] ∧
      ∀ i (hi : i < (qdictArraySplit (nullArray 2)).2.length),
        qdictGet (nullArray 2) (indexKey i) = some (qdictArraySplit (nullArray 2)).2[i] ∨
        (qdictGet (nullArray 2) (indexKey i) = none ∧
          ∃ d, (qdictArraySplit (nullArray 2)).2[i] = .qdict d ∧ d ≠ [] ∧
            ∀ key, qdictGet d key = qdictGet (nullArray 2) (indexPrefix i ++ key))) ∧
    (qdictArrayEntries (nullArray 2) [] < 0 →
      qdictArrayEntries (nullArray 2) [] = -einval ∧ (qdictArraySplit (nullArray 2)).1 ≠ [])) := by
  have hsize : (qdictSize (nullArray 2) : Int) ≤ intMax := by
    rw [qdictSize, length_nullArray, intMax_eq]
    decide
  exact ⟨qdictWF_nullArray 2, hsize, qdictArrayEntries_agrees_split _ (qdictWF_nullArray 2) hsize⟩

/-- With `2^31` entries the two disagree: `qdict_array_split` moves all
of them into the list, while `qdict_array_entries` counts indices only up
to `INT_MAX`, finds the key `"2147483647"` unhandled and returns
`-EINVAL`. -/
theorem qdictArrayEntries_nullArray_int_max :
    QDictWF (nullArray (2 ^ 31)) ∧ qdictArrayEntries (nullArray (2 ^ 31)) [] = -einval ∧
      (qdictArraySplit (nullArray (2 ^ 31))).1 = [] ∧
      (qdictArraySplit (nullArray (2 ^ 31))).2.length = 2 ^ 31 := by
  have hwf := qdictWF_nullArray (2 ^ 31)
  have hlen := length_nullArray (2 ^ 31)
  have hsplit := qdictArraySplit_eq hwf.2 (m := 2 ^ 31) (by decide)
    (fun j hj => by rw [arrayStops_nullArray]; simpa using hj)
    (by rw [arrayStops_nullArray]; simp)
  have hcnt : ∀ j, (((nullArray (2 ^ 31)).filter (keyPrefixed (indexPrefix j))).length : Int) ≤ intMax :=
    fun j => by
      have hnil : (nullArray (2 ^ 31)).filter (keyPrefixed (indexPrefix j)) = [] :=
        List.filter_eq_nil_iff.mpr fun e he => by
          simpa using List.any_eq_false.mp (hasIndexPrefixed_nullArray (2 ^ 31) j) e he
      rw [hnil, intMax_eq]
      decide
  have hfuel : intMax.toNat = 2147483647 := by rw [intMax_eq]; rfl
  have hrun := qdictArrayEntriesLoop_run hwf.2 hcnt (by rw [hlen]; decide) intMax.toNat
    intMax.toNat 0 0 le_rfl (fun j _ hj => by rw [arrayStops_nullArray]; simp; omega)
    (by rw [Nat.zero_add, arrayRest])
  rw [Nat.sub_self, Nat.zero_add, qdictArrayEntriesLoop] at hrun
  have hrest : arrayRest (nullArray (2 ^ 31)) intMax.toNat ≠ [] :=
    arrayRest_ne_nil (by rw [← hasIndexKey, hasIndexKey_nullArray, hfuel]; decide)
  refine ⟨hwf, ?_, by rw [hsplit, arrayRest_nullArray], by rw [hsplit, List.length_map, List.length_range]⟩
  rw [qdictArrayEntries_of_loop (by rw [hlen]; decide) hrun, if_neg hrest]

end QemuFormal

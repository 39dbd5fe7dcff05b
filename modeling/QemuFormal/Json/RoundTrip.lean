/-
QemuFormal.Json.RoundTrip — `qobject_from_json` reads back what
`qobject_to_json_pretty` writes.

The layers meet here. The writer's text is the object's tokens, each
after some whitespace (`qobjectToJsonPretty_spaced`), and it holds no NUL,
so `qobject_from_json` feeds all of it. The lexer hands on exactly those
tokens, the last one at the flush (`jsonLexerFeed_spaced`); the streamer
makes them one message (`processTokens_message`); the parser builds
`parsedOf` the object (`jsonParserParse_jsonTokens`). That object is equal
to the one written under `qobject_is_equal` (`qobjectIsEqual_parsedOf`):
the same tree, a `uint64_t` below 2^63 coming back as the same
`int64_t`, and each dict's entries re-inserted, found under the same
keys.
-/
import QemuFormal.Json.StreamerTheorems

namespace QemuFormal.Json

/-! ## The text holds no NUL -/

theorem stringByte_ne_zero {c : UInt8} (h : isStringByte c = true) : c ≠ 0 := by
  rintro rfl
  simp [isStringByte] at h

theorem dqBody_ne_zero : ∀ (b : Bytes), dqBody b = true → ∀ c ∈ b, c ≠ 0
  | [], _, _, hc => absurd hc List.not_mem_nil
  | c :: tl, h, x, hx => by
    rw [dqBody_cons] at h
    split at h
    · -- `\` and a string byte
      rename_i hc
      cases tl with
      | nil => simp at h
      | cons d rest =>
        simp only [Bool.and_eq_true] at h
        rcases List.mem_cons.mp hx with rfl | hx
        · rw [hc]
          decide
        rcases List.mem_cons.mp hx with rfl | hx
        · exact stringByte_ne_zero h.1
        · exact dqBody_ne_zero rest h.2 x hx
    · simp only [Bool.and_eq_true, isPlainByte] at h
      rcases List.mem_cons.mp hx with rfl | hx
      · exact stringByte_ne_zero h.1.2
      · exact dqBody_ne_zero tl h.2 x hx

theorem decimal_ne_zero (n : Nat) : ∀ c ∈ decimal n, c ≠ 0 := by
  intro c hc
  have hd := decimal_digits n c hc
  rintro rfl
  simp [isDigitByte] at hd

/-- No token the writer writes holds a NUL. -/
theorem writerToken_ne_zero {t : JSONToken} (h : WriterToken t) : ∀ c ∈ t.str, c ≠ 0 := by
  cases h with
  | lcurly => simp [lcurlyToken]
  | rcurly => simp [rcurlyToken]
  | lsquare => simp [lsquareToken]
  | rsquare => simp [rsquareToken]
  | comma => simp [commaToken]
  | colon => simp [colonToken]
  | null =>
    intro c hc
    simp only [show ascii "null" = [0x6E, 0x75, 0x6C, 0x6C] from rfl, List.mem_cons, List.not_mem_nil,
      or_false] at hc
    rcases hc with rfl | rfl | rfl | rfl <;> decide
  | bool b =>
    intro c hc
    cases b
    · simp only [Bool.false_eq_true, if_false, show ascii "false" = [0x66, 0x61, 0x6C, 0x73, 0x65] from rfl,
        List.mem_cons, List.not_mem_nil, or_false] at hc
      rcases hc with rfl | rfl | rfl | rfl | rfl <;> decide
    · simp only [if_true, show ascii "true" = [0x74, 0x72, 0x75, 0x65] from rfl, List.mem_cons,
        List.not_mem_nil, or_false] at hc
      rcases hc with rfl | rfl | rfl | rfl <;> decide
  | i64 v =>
    intro c hc
    simp only [formatInt64] at hc
    split at hc
    · rcases List.mem_cons.mp hc with rfl | hc
      · decide
      · exact decimal_ne_zero _ c hc
    · exact decimal_ne_zero _ c hc
  | u64 v => exact decimal_ne_zero _
  | string s =>
    intro c hc
    simp only [stringToken, quotedStr, List.mem_cons, List.mem_append, List.not_mem_nil, or_false] at hc
    rcases hc with (rfl | hc) | rfl
    · decide
    · exact dqBody_ne_zero _ (dqBody_quotedStrLoop s.length s) c hc
    · decide

theorem spaced_ne_zero {toks : List JSONToken} {text : Bytes} (hsp : Spaced toks text)
    (htoks : ∀ t ∈ toks, ∀ c ∈ t.str, c ≠ 0) : ∀ c ∈ text, c ≠ 0 := by
  induction hsp with
  | nil => simp
  | @cons ws t ts rest hws _ ih =>
    intro c hc
    simp only [List.mem_append] at hc
    rcases hc with (hc | hc) | hc
    · have hw := hws c hc
      rintro rfl
      simp [isJsonWs] at hw
    · exact htoks t (by simp) c hc
    · exact ih (fun u hu => htoks u (by simp [hu])) c hc

/-! ## Lexer and streamer together -/

section FrontEnd

variable (strtod : Bytes → UInt64)

/-- **The front end on a text made of tokens**: what feeding such a
text to a fresh `JSONMessageParser` and flushing it emits is what the
streamer emits for the tokens and the end of input. -/
theorem feed_flush_spaced {toks : List JSONToken} {text : Bytes} (hsp : Spaced toks text)
    (hlex : ∀ t ∈ toks, Lexes t) (hchain : toks.IsChain Apart) :
    (jsonMessageParserFeed strtod jsonMessageParserInit text).2 ++
        (jsonMessageParserFlush strtod (jsonMessageParserFeed strtod jsonMessageParserInit text).1).2 =
      (jsonMessageProcessTokens strtod .reset
        (toks.map JSONToken.event ++ [⟨[], .tok .endOfInput⟩])).2 := by
  obtain ⟨lx, hfeed, hat⟩ := jsonLexerFeed_spaced hsp hlex jsonLexerInit none rfl (by simpa using hchain)
  have hp := jsonMessageParserFeed_eq strtod text jsonLexerInit .reset
  rw [hfeed] at hp
  -- the lexer's tokens: those it hands on while fed, then the held one and the end at the flush
  have hevents : (Mealy.run heldStep none toks).2 ++
      ((Mealy.run heldStep none toks).1.toList.map JSONToken.event ++ [⟨[], .tok .endOfInput⟩]) =
      toks.map JSONToken.event ++ [⟨[], .tok .endOfInput⟩] := by
    rw [← List.append_assoc, run_heldStep toks none]
    rfl
  rw [show jsonMessageParserInit = ⟨jsonLexerInit, .reset⟩ from rfl, hp]
  simp only [jsonMessageParserFlush, jsonLexerFlush_at lx _ hat]
  rw [← hevents, jsonMessageProcessTokens_append strtod .reset (Mealy.run heldStep none toks).2]

end FrontEnd

/-! ## `qobject_is_equal` on what the parser builds -/

theorem qnumIsEqual_parsedNum (n : QNum) (h : ∀ x, n ≠ .double x) : qnumIsEqual n (parsedNum n) = true := by
  cases n with
  | i64 v => simp [parsedNum, qnumIsEqual]
  | double x => exact absurd rfl (h x)
  | u64 w =>
    have hw := UInt64.toNat_lt w
    by_cases hsmall : w.toNat < 2 ^ 63
    · -- below 2^63 the parser's `int64_t` has the same value
      have hv : (Int64.ofInt (w.toNat : Int)).toInt = w.toNat :=
        Int64.toInt_ofInt_of_le (by omega) (by omega)
      rw [parsedNum, if_pos hsmall]
      simp [qnumIsEqual, hv]
    · rw [parsedNum, if_neg hsmall]
      simp [qnumIsEqual]

section Entries

/-- A key none of the entries has keeps its value. -/
theorem qdictGet_parsedEntries_of_not_mem : ∀ (es : List (Bytes × QObject)) (acc : QDict) (k : Bytes),
    k ∉ es.map Prod.fst → qdictGet (parsedEntries acc es) k = qdictGet acc k
  | [], _, _, _ => rfl
  | (k', v') :: rest, acc, k, hk => by
    simp only [List.map_cons, List.mem_cons, not_or] at hk
    rw [parsedEntries, qdictGet_parsedEntries_of_not_mem rest _ k hk.2, qdictGet_putObj,
      if_neg hk.1]

/-- Every entry is found under its key, with its parsed value. -/
theorem qdictGet_parsedEntries : ∀ (es : List (Bytes × QObject)) (acc : QDict),
    (es.map Prod.fst).Nodup → ∀ k v, (k, v) ∈ es → qdictGet (parsedEntries acc es) k = some (parsedOf v)
  | [], _, _, _, _, hkv => absurd hkv List.not_mem_nil
  | (k', v') :: rest, acc, hnd, k, v, hkv => by
    simp only [List.map_cons, List.nodup_cons] at hnd
    rw [parsedEntries]
    rcases List.mem_cons.mp hkv with heq | hrest
    · -- the first entry: no later one has its key
      obtain ⟨rfl, rfl⟩ := Prod.mk.inj heq
      rw [qdictGet_parsedEntries_of_not_mem rest _ k hnd.1, qdictGet_putObj, if_pos rfl]
    · exact qdictGet_parsedEntries rest _ hnd.2 k v hrest

theorem length_parsedEntries : ∀ (es : List (Bytes × QObject)) (acc : QDict),
    (es.map Prod.fst).Nodup → (∀ k ∈ es.map Prod.fst, qdictGet acc k = none) →
    (parsedEntries acc es).length = acc.length + es.length
  | [], _, _, _ => rfl
  | (k, v) :: rest, acc, hnd, hfresh => by
    simp only [List.map_cons, List.nodup_cons] at hnd
    have hk : qdictGet acc k = none := hfresh k (by simp)
    have hfresh' : ∀ j ∈ rest.map Prod.fst, qdictGet (qdictPutObj acc k (parsedOf v)) j = none := by
      intro j hj
      have hjk : j ≠ k := by
        rintro rfl
        exact hnd.1 hj
      rw [qdictGet_putObj, if_neg hjk]
      exact hfresh j (by simp [hj])
    have hput : (qdictPutObj acc k (parsedOf v)).length = acc.length + 1 := by
      rw [qdictPutObj, ChainedTable.length_put, show ChainedTable.lookup acc k = none from hk]
      rfl
    rw [parsedEntries, length_parsedEntries rest _ hnd.2 hfresh', hput, List.length_cons]
    omega

end Entries

mutual

/-- **What the parser builds is equal to what was written**, under
`qobject_is_equal`. -/
theorem qobjectIsEqual_parsedOf : ∀ (o : QObject), jsonSafe o = true → qobjectIsEqual o (parsedOf o) = true
  | .qnull, _ => rfl
  | .qbool b, _ => by simp [parsedOf, qobjectIsEqual]
  | .qstring s, _ => by simp [parsedOf, qobjectIsEqual]
  | .qnum n, h => by
    rw [parsedOf, qobjectIsEqual]
    apply qnumIsEqual_parsedNum
    rintro x rfl
    simp [jsonSafe] at h
  | .qdict es, h => by
    simp only [jsonSafe, Bool.and_eq_true, decide_eq_true_eq] at h
    have hlen : (parsedEntries [] es).length = es.length := by
      simpa using length_parsedEntries es [] h.1 (fun _ _ => rfl)
    rw [parsedOf, qobjectIsEqual, hlen, beq_self_eq_true, Bool.true_and]
    exact qdictEntriesEqual_parsed es _ h.2 (fun k v hkv => qdictGet_parsedEntries es [] h.1 k v hkv)
  | .qlist vs, h => by
    rw [parsedOf, qobjectIsEqual]
    exact qlistIsEqual_parsedElems vs (by simpa [jsonSafe] using h)

/-- `qdict_is_equal`'s loop, against a dict that has every entry's
parsed value under its key. -/
theorem qdictEntriesEqual_parsed : ∀ (es : List (Bytes × QObject)) (d : QDict), entriesSafe es = true →
    (∀ k v, (k, v) ∈ es → qdictGet d k = some (parsedOf v)) → qdictEntriesEqual es d = true
  | [], _, _, _ => rfl
  | (k, v) :: rest, d, h, hget => by
    simp only [entriesSafe, Bool.and_eq_true] at h
    rw [qdictEntriesEqual, hget k v (by simp)]
    simp only [Bool.and_eq_true]
    exact ⟨qobjectIsEqual_parsedOf v h.1.2,
      qdictEntriesEqual_parsed rest d h.2 (fun k' v' hkv => hget k' v' (by simp [hkv]))⟩

theorem qlistIsEqual_parsedElems : ∀ (vs : List QObject), elemsSafe vs = true →
    qlistIsEqual vs (parsedElems vs) = true
  | [], _ => rfl
  | v :: rest, h => by
    simp only [elemsSafe, Bool.and_eq_true] at h
    rw [parsedElems, qlistIsEqual]
    simp only [Bool.and_eq_true]
    exact ⟨qobjectIsEqual_parsedOf v h.1, qlistIsEqual_parsedElems rest h.2⟩

end

/-! ## The round trip -/

theorem length_le_textSize {toks : List JSONToken} {t : JSONToken} (ht : t ∈ toks) :
    t.str.length ≤ textSize toks := by
  induction toks with
  | nil => exact absurd ht List.not_mem_nil
  | cons u us ih =>
    rw [textSize_cons]
    rcases List.mem_cons.mp ht with rfl | ht
    · omega
    · have := ih ht
      omega

theorem qobjectFromJson_qobjectToJsonPretty (strtod : Bytes → UInt64) (fmtDouble : UInt64 → Bytes)
    (o : QObject) (pretty : Bool) (hsafe : jsonSafe o = true)
    (hsize : textSize (jsonTokens fmtDouble o) < maxTokenSize)
    (hcount : (jsonTokens fmtDouble o).length ≤ maxTokenCount)
    (hdepth : (depth o : Int) ≤ maxNesting) :
    ∃ o', qobjectFromJson strtod (qobjectToJsonPretty fmtDouble o pretty) = .ok o' ∧
      qobjectIsEqual o o' = true := by
  refine ⟨parsedOf o, ?_, qobjectIsEqual_parsedOf o hsafe⟩
  have hsp := qobjectToJsonPretty_spaced fmtDouble o pretty
  have hw := writerToken_jsonTokens fmtDouble o hsafe
  have hlex : ∀ t ∈ jsonTokens fmtDouble o, Lexes t := by
    intro t ht
    have hlen := length_le_textSize ht
    exact lexes_of_writerToken (hw t ht) (by omega)
  -- the text holds no NUL, so all of it is fed
  have hnul : (qobjectToJsonPretty fmtDouble o pretty).takeWhile (· ≠ 0) =
      qobjectToJsonPretty fmtDouble o pretty := by
    apply List.takeWhile_eq_self_iff.mpr
    intro c hc
    simpa using spaced_ne_zero hsp (fun t ht => writerToken_ne_zero (hw t ht)) c hc
  -- one message, within the streamer's limits, parsed to `parsedOf o`
  have hfit : Fits .reset (jsonTokens fmtDouble o) (depth o) := by
    refine ⟨?_, ?_, ?_⟩
    · simp only [JSONStreamer.reset]
      omega
    · simp only [JSONStreamer.reset, List.length_nil]
      omega
    · simp only [JSONStreamer.reset]
      omega
  have hemit := feed_flush_spaced strtod hsp hlex (isChain_jsonTokens fmtDouble o)
  rw [processTokens_message strtod fmtDouble o hfit [], jsonParserParse_jsonTokens strtod fmtDouble o hsafe]
    at hemit
  unfold qobjectFromJson
  simp only [hnul, hemit]
  rfl

theorem qobjectFromJson_qobjectToJsonPretty_dict :
    jsonSafe (.qdict [(ascii "id", .qnum (.u64 7)), (ascii "tags", .qlist [.qstring (ascii "a"), .qnull])]) = true ∧
      textSize (jsonTokens (fun _ => [])
        (.qdict [(ascii "id", .qnum (.u64 7)), (ascii "tags", .qlist [.qstring (ascii "a"), .qnull])])) <
        maxTokenSize ∧
      (jsonTokens (fun _ => [])
        (.qdict [(ascii "id", .qnum (.u64 7)), (ascii "tags", .qlist [.qstring (ascii "a"), .qnull])])).length ≤
        maxTokenCount ∧
      (depth (.qdict [(ascii "id", .qnum (.u64 7)), (ascii "tags", .qlist [.qstring (ascii "a"), .qnull])]) : Int) ≤
        maxNesting ∧
      ∃ o', qobjectFromJson (fun _ => 0) (qobjectToJsonPretty (fun _ => [])
          (.qdict [(ascii "id", .qnum (.u64 7)), (ascii "tags", .qlist [.qstring (ascii "a"), .qnull])]) true) =
          .ok o' ∧
        qobjectIsEqual (.qdict [(ascii "id", .qnum (.u64 7)), (ascii "tags", .qlist [.qstring (ascii "a"), .qnull])])
          o' = true :=
  ⟨by decide, by decide, by decide, by decide,
    qobjectFromJson_qobjectToJsonPretty (fun _ => 0) (fun _ => [])
      (.qdict [(ascii "id", .qnum (.u64 7)), (ascii "tags", .qlist [.qstring (ascii "a"), .qnull])]) true
      (by decide) (by decide) (by decide) (by decide)⟩

end QemuFormal.Json

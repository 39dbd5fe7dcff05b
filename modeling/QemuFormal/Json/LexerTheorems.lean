/-
QemuFormal.Json.LexerTheorems — the lexer reads text made of tokens
back as those tokens.

At the level of tokens the lexer is the machine `heldStep`: a string or
a structural character is handed on when its last byte is read, a
number or a keyword is held back until the byte after it. The byte-level
lexer simulates it (`jsonLexerFeed_spaced`): on text that is tokens each
after whitespace (`Spaced`), provided each token lexes on its own
(`Lexes`) and a held token is followed by a delimiter (`Apart`), it hands
on the tokens `heldStep` hands on and ends holding the token `heldStep`
holds (`LexerAt`). The flush then hands on the held token and
`JSON_END_OF_INPUT` (`jsonLexerFlush_at`).

The tokens the writer produces all lex: structural characters and
keywords by evaluation, numbers digit by digit (`jsonLexerFeed_decimal`),
strings because `quoted_str` escapes every byte the lexer would stop at
(`dqBody_quotedStrLoop`). No token may be longer than `MAX_TOKEN_SIZE`,
or the lexer's guard splits it.

The number states do not follow the grammar in the file's header in one
place: `IN_ZERO` has no transition on `e` or `E`, so an exponent after a
lone zero is not lexed as part of the number (`qobjectFromJson_zero_exponent`).
-/
import QemuFormal.Json.WriterTheorems

namespace QemuFormal.Json

/-! ## One byte -/

/-- A byte that moves the lexer to another state inside a token joins
the token; nothing is handed on. -/
theorem jsonLexerFeedChar_go (lx : JSONLexer) (c : UInt8) (s : LexState)
    (h : jsonLexer lx.state c = .go s) (hs : s ≠ .inStart) (hr : s ≠ .inRecovery)
    (hlen : (lx.token ++ [c]).length ≤ maxTokenSize) :
    jsonLexerFeedChar lx c false = (⟨s, lx.token ++ [c]⟩, []) := by
  have hstep : lexStep lx c false = (⟨s, lx.token ++ [c]⟩, [], true) := by
    simp only [lexStep, lexApply, h, Entry.go]
    cases s <;> simp_all
  -- the byte is consumed in one step, and the token stays within the guard
  have hguard : ¬(lx.token ++ [c]).length > maxTokenSize := by omega
  simp only [jsonLexerFeedChar, lexLoop_spec, hstep, if_true]
  rw [if_neg hguard]

/-- A byte that ends a token with itself hands the token on, the byte
included, and leaves the lexer idle. -/
theorem jsonLexerFeedChar_emit (lx : JSONLexer) (c : UInt8) (t : TokenType)
    (h : jsonLexer lx.state c = .emit t) (ht : t ≠ .error) :
    jsonLexerFeedChar lx c false = (jsonLexerInit, [⟨lx.token ++ [c], .tok t⟩]) := by
  have hstep : lexStep lx c false = (jsonLexerInit, [⟨lx.token ++ [c], .tok t⟩], true) := by
    simp only [lexStep, lexApply, h, Entry.emit]
    cases t <;> simp_all [jsonLexerInit]
  simp [jsonLexerFeedChar, lexLoop_spec, hstep, jsonLexerInit, maxTokenSize]

/-- Whitespace leaves the idle lexer idle. -/
theorem jsonLexerFeedChar_blank : ∀ c : UInt8, isJsonWs c = true →
    jsonLexerFeedChar jsonLexerInit c false = (jsonLexerInit, []) := by
  decide +kernel

/-- Whitespace only. -/
theorem jsonLexerFeed_blank : ∀ ws : Bytes, Blank ws →
    jsonLexerFeed jsonLexerInit ws = (jsonLexerInit, [])
  | [], _ => rfl
  | c :: ws, hws => by
    have hc := jsonLexerFeedChar_blank c (hws c (by simp))
    have ih := jsonLexerFeed_blank ws (fun x hx => hws x (by simp [hx]))
    unfold jsonLexerFeed at ih ⊢
    rw [Mealy.run_cons, hc, ih]
    rfl

/-- Bytes that keep the lexer in one state inside a token join the
token. -/
theorem jsonLexerFeed_stay (s : LexState) (hs : s ≠ .inStart) (hr : s ≠ .inRecovery) :
    ∀ (cs acc : Bytes), (∀ c ∈ cs, jsonLexer s c = .go s) → (acc ++ cs).length ≤ maxTokenSize →
      jsonLexerFeed ⟨s, acc⟩ cs = (⟨s, acc ++ cs⟩, [])
  | [], acc, _, _ => by simp [jsonLexerFeed]
  | c :: cs, acc, hgo, hlen => by
    have hc : jsonLexerFeedChar ⟨s, acc⟩ c false = (⟨s, acc ++ [c]⟩, []) :=
      jsonLexerFeedChar_go ⟨s, acc⟩ c s (hgo c (by simp)) hs hr
        (by simp at hlen ⊢; omega)
    have ih := jsonLexerFeed_stay s hs hr cs (acc ++ [c]) (fun x hx => hgo x (by simp [hx]))
      (by simpa using hlen)
    unfold jsonLexerFeed at ih ⊢
    rw [Mealy.run_cons, hc, ih]
    simp

/-! ## Holding a token back -/

/-- The lexer holding back token `t`: its text is `t`'s, and every
delimiter ends `t` without being consumed. Only numbers and keywords are
held. -/
def Holding (lx : JSONLexer) (t : JSONToken) : Prop :=
  t.type.selfDelimiting = false ∧ lx.token = t.str ∧
    ∃ tt, tt ≠ .error ∧ t.type = .tok tt ∧
      ∀ c, isDelimiter c = true → jsonLexer lx.state c = .terminal tt

/-- The lexer idle, or holding a token back. -/
def LexerAt (lx : JSONLexer) : Option JSONToken → Prop
  | none => lx = jsonLexerInit
  | some t => Holding lx t

/-- A delimiter after a held token hands the token on, then is read as
by the idle lexer. -/
theorem jsonLexerFeedChar_holding (lx : JSONLexer) (t : JSONToken) (h : Holding lx t) (c : UInt8)
    (hc : isDelimiter c = true) :
    jsonLexerFeedChar lx c false =
      ((jsonLexerFeedChar jsonLexerInit c false).1, t.event :: (jsonLexerFeedChar jsonLexerInit c false).2) := by
  obtain ⟨-, htok, tt, hne, hty, hterm⟩ := h
  have hstep : lexStep lx c false = (jsonLexerInit, [⟨t.str, .tok tt⟩], false) := by
    simp only [lexStep, lexApply, hterm c hc, Entry.terminal, htok]
    cases tt <;> simp_all [jsonLexerInit]
  have hinit := lexStep_consumes_of_inStart jsonLexerInit c rfl
  simp only [jsonLexerFeedChar, lexLoop_spec, hstep, hinit, Bool.false_eq_true, if_false, if_true]
  split <;> simp [JSONToken.event, hty]

/-- The same over bytes that start with a delimiter. -/
theorem jsonLexerFeed_holding (lx : JSONLexer) (t : JSONToken) (h : Holding lx t) (c : UInt8)
    (cs : Bytes) (hc : isDelimiter c = true) :
    jsonLexerFeed lx (c :: cs) =
      ((jsonLexerFeed jsonLexerInit (c :: cs)).1, t.event :: (jsonLexerFeed jsonLexerInit (c :: cs)).2) := by
  unfold jsonLexerFeed
  rw [Mealy.run_cons, Mealy.run_cons, jsonLexerFeedChar_holding lx t h c hc]
  rfl

/-- **The flush** hands on the held token, if any, then
`JSON_END_OF_INPUT` with an empty text. -/
theorem jsonLexerFlush_at (lx : JSONLexer) (held : Option JSONToken) (h : LexerAt lx held) :
    jsonLexerFlush lx =
      (jsonLexerInit, held.toList.map JSONToken.event ++ [⟨[], .tok .endOfInput⟩]) := by
  cases held with
  | none =>
    simp only [LexerAt] at h
    subst h
    rfl
  | some t =>
    obtain ⟨-, htok, tt, hne, hty, hterm⟩ := h
    have h0 := hterm 0 rfl
    -- the start state does not end a token at NUL, so the lexer is elsewhere
    have hnot : lx.state ≠ .inStart := by
      intro hs
      have herr : jsonLexer .inStart 0 = .err := by decide
      rw [hs, herr] at h0
      simp [Entry.err, Entry.terminal] at h0
    have hstep : lexStep lx 0 true = (jsonLexerInit, [⟨t.str, .tok tt⟩], false) := by
      simp only [lexStep, lexApply, h0, Entry.terminal, htok]
      cases tt <;> simp_all [jsonLexerInit]
    simp [jsonLexerFlush, jsonLexerFeedChar, lexLoop, hnot, hstep, jsonLexerInit,
      JSONToken.event, hty, maxTokenSize]

/-! ## The lexer at the level of tokens -/

/-- One token through the token-level lexer, holding `held`: a held
token is handed on first; a self-delimiting token is handed on at once,
any other is held. -/
def heldStep (held : Option JSONToken) (t : JSONToken) : Option JSONToken × List LexEvent :=
  (if t.type.selfDelimiting then none else some t,
    held.toList.map JSONToken.event ++ (if t.type.selfDelimiting then [t.event] else []))

/-- Whatever is held, the tokens come out in order once it is handed on. -/
theorem run_heldStep (toks : List JSONToken) : ∀ held : Option JSONToken,
    (Mealy.run heldStep held toks).2 ++ (Mealy.run heldStep held toks).1.toList.map JSONToken.event =
      held.toList.map JSONToken.event ++ toks.map JSONToken.event := by
  induction toks with
  | nil => intro held; simp
  | cons t ts ih =>
    intro held
    rw [Mealy.run_cons, List.append_assoc, ih]
    cases held <;> cases h : t.type.selfDelimiting <;> simp [heldStep, h]

/-- How the idle lexer reads a token on its own: a self-delimiting token
is handed on at its last byte, any other is held back. -/
def Lexes (t : JSONToken) : Prop :=
  if t.type.selfDelimiting then jsonLexerFeed jsonLexerInit t.str = (jsonLexerInit, [t.event])
  else ∃ lx, jsonLexerFeed jsonLexerInit t.str = (lx, []) ∧ Holding lx t

/-- Whitespace, then a token, from the idle lexer. -/
theorem jsonLexerFeed_chunk_init (ws : Bytes) (hws : Blank ws) (u : JSONToken) (hu : Lexes u) :
    ∃ lx', jsonLexerFeed jsonLexerInit (ws ++ u.str) = (lx', (heldStep none u).2) ∧
      LexerAt lx' (heldStep none u).1 := by
  have hblank := jsonLexerFeed_blank ws hws
  have hsplit : jsonLexerFeed jsonLexerInit (ws ++ u.str) = jsonLexerFeed jsonLexerInit u.str := by
    unfold jsonLexerFeed at hblank ⊢
    rw [Mealy.run_append, hblank]
    simp
  rw [hsplit]
  unfold Lexes at hu
  by_cases hsd : u.type.selfDelimiting = true
  · rw [if_pos hsd] at hu
    exact ⟨jsonLexerInit, by simp [hu, heldStep, hsd], by simp [heldStep, hsd, LexerAt]⟩
  · rw [if_neg hsd] at hu
    obtain ⟨lx, hlx, hhold⟩ := hu
    exact ⟨lx, by simp [hlx, heldStep, hsd], by simpa [heldStep, hsd, LexerAt] using hhold⟩

/-- **One step of the simulation**: whitespace and a token, from a
lexer idle or holding a token the new one is apart from. -/
theorem jsonLexerFeed_chunk (lx : JSONLexer) (held : Option JSONToken) (hat : LexerAt lx held)
    (ws : Bytes) (hws : Blank ws) (u : JSONToken) (hu : Lexes u)
    (hapart : ∀ p ∈ held, Apart p u) :
    ∃ lx', jsonLexerFeed lx (ws ++ u.str) = (lx', (heldStep held u).2) ∧
      LexerAt lx' (heldStep held u).1 := by
  obtain ⟨lx', hfeed, hat'⟩ := jsonLexerFeed_chunk_init ws hws u hu
  cases held with
  | none =>
    simp only [LexerAt] at hat
    subst hat
    exact ⟨lx', hfeed, hat'⟩
  | some p =>
    -- the first byte is whitespace, or else the token's first byte; a
    -- delimiter either way
    obtain ⟨c, cs, hcs, hc⟩ : ∃ c cs, ws ++ u.str = c :: cs ∧ isDelimiter c = true := by
      cases ws with
      | cons w ws' =>
        exact ⟨w, ws' ++ u.str, rfl, by simp [isDelimiter, hws w (by simp)]⟩
      | nil =>
        rcases hapart p rfl with hsd | ⟨c, cs, hu', hc⟩
        · exact absurd hsd (by simp [hat.1])
        · exact ⟨c, cs, by simp [hu'], hc⟩
    refine ⟨lx', ?_, by simpa [heldStep] using hat'⟩
    rw [hcs, jsonLexerFeed_holding lx p hat c cs hc, ← hcs, hfeed]
    simp [heldStep]

/-- **The lexer simulates `heldStep`** over text made of tokens, each
after whitespace. -/
theorem jsonLexerFeed_spaced {toks : List JSONToken} {text : Bytes} (hsp : Spaced toks text)
    (hlex : ∀ t ∈ toks, Lexes t) :
    ∀ (lx : JSONLexer) (held : Option JSONToken), LexerAt lx held →
      (held.toList ++ toks).IsChain Apart →
      ∃ lx', jsonLexerFeed lx text = (lx', (Mealy.run heldStep held toks).2) ∧
        LexerAt lx' (Mealy.run heldStep held toks).1 := by
  induction hsp with
  | nil => intro lx held hat _; exact ⟨lx, rfl, hat⟩
  | @cons ws t ts rest hws _ ih =>
    intro lx held hat hchain
    have hapart : ∀ p ∈ held, Apart p t := by
      intro p hp
      subst hp
      exact (List.isChain_cons_cons.mp hchain).1
    obtain ⟨lx₁, h₁, hat₁⟩ := jsonLexerFeed_chunk lx held hat ws hws t (hlex t (by simp)) hapart
    have hchain₁ : ((heldStep held t).1.toList ++ ts).IsChain Apart := by
      have htail : (t :: ts).IsChain Apart := by
        cases held with
        | none => simpa using hchain
        | some p => exact (List.isChain_cons_cons.mp hchain).2
      by_cases hsd : t.type.selfDelimiting = true
      · simpa [heldStep, hsd] using htail.tail
      · simpa [heldStep, hsd] using htail
    obtain ⟨lx₂, h₂, hat₂⟩ :=
      ih (fun x hx => hlex x (by simp [hx])) lx₁ _ hat₁ hchain₁
    refine ⟨lx₂, ?_, by rw [Mealy.run_cons]; exact hat₂⟩
    unfold jsonLexerFeed at h₁ h₂ ⊢
    rw [Mealy.run_append, h₁, h₂, Mealy.run_cons]

/-! ## Lexing a token on its own -/

theorem lexes_of_selfDelimiting (t : JSONToken) (h : t.type.selfDelimiting = true)
    (hfeed : jsonLexerFeed jsonLexerInit t.str = (jsonLexerInit, [t.event])) : Lexes t := by
  rw [Lexes, if_pos h]; exact hfeed

theorem lexes_of_holding (t : JSONToken) (h : t.type.selfDelimiting = false) (lx : JSONLexer)
    (hfeed : jsonLexerFeed jsonLexerInit t.str = (lx, [])) (hh : Holding lx t) : Lexes t := by
  rw [Lexes, if_neg (by simp [h])]; exact ⟨lx, hfeed, hh⟩

/-- The states a number or a keyword ends in end it at every delimiter. -/
theorem jsonLexer_held_delimiter : ∀ c : UInt8, isDelimiter c = true →
    jsonLexer .inKeyword c = .terminal .keyword ∧ jsonLexer .inZero c = .terminal .integer ∧
      jsonLexer .inDigits c = .terminal .integer := by
  decide +kernel

theorem holding_keyword (w : Bytes) : Holding ⟨.inKeyword, w⟩ ⟨.tok .keyword, w⟩ :=
  ⟨rfl, rfl, .keyword, by decide, rfl, fun c hc => (jsonLexer_held_delimiter c hc).1⟩

theorem holding_integer (s : LexState) (hs : s = .inZero ∨ s = .inDigits) (w : Bytes) :
    Holding ⟨s, w⟩ ⟨.tok .integer, w⟩ := by
  refine ⟨rfl, rfl, .integer, by decide, rfl, fun c hc => ?_⟩
  rcases hs with rfl | rfl
  · exact (jsonLexer_held_delimiter c hc).2.1
  · exact (jsonLexer_held_delimiter c hc).2.2

/-! ### Numbers -/

/-- The digits of a number, read from the start state or after a minus
sign: the lexer ends in `IN_ZERO` (the number 0) or `IN_DIGITS`. -/
theorem jsonLexerFeed_decimal (s : LexState) (hs : s = .inStart ∨ s = .inSign) (acc : Bytes)
    (n : Nat) (hlen : (acc ++ decimal n).length ≤ maxTokenSize) :
    ∃ s', (s' = .inZero ∨ s' = .inDigits) ∧
      jsonLexerFeed ⟨s, acc⟩ (decimal n) = (⟨s', acc ++ decimal n⟩, []) := by
  have hzero : jsonLexer s 0x30 = .go .inZero := by rcases hs with rfl | rfl <;> rfl
  rcases Nat.eq_zero_or_pos n with rfl | hn
  · refine ⟨.inZero, Or.inl rfl, ?_⟩
    rw [decimal_zero] at hlen ⊢
    unfold jsonLexerFeed
    rw [Mealy.run_singleton]
    exact jsonLexerFeedChar_go ⟨s, acc⟩ 0x30 .inZero hzero (by decide) (by decide) hlen
  · obtain ⟨d, ds, hds, hd⟩ := decimal_head n hn
    have hdig := decimal_digits n
    rw [hds] at hdig hlen ⊢
    -- the first digit is not 0, so it starts `IN_DIGITS`; the rest stay
    have hfirst : jsonLexer s d = .go .inDigits := by
      have hd' : isDigitByte d = true := hdig d (by simp)
      rcases hs with rfl | rfl
      · have h22 : d ≠ 0x22 := by rintro rfl; simp [isDigitByte] at hd'
        have h27 : d ≠ 0x27 := by rintro rfl; simp [isDigitByte] at hd'
        simp [jsonLexer, h22, h27, hd, hd']
      · simp [jsonLexer, hd, hd']
    have hrest : ∀ x ∈ ds, jsonLexer .inDigits x = .go .inDigits := by
      intro x hx
      simp [jsonLexer, hdig x (by simp [hx])]
    refine ⟨.inDigits, Or.inr rfl, ?_⟩
    have h₁ := jsonLexerFeedChar_go ⟨s, acc⟩ d .inDigits hfirst (by decide) (by decide)
      (by simp at hlen ⊢; omega)
    have h₂ := jsonLexerFeed_stay .inDigits (by decide) (by decide) ds (acc ++ [d]) hrest
      (by simpa using hlen)
    unfold jsonLexerFeed at h₂ ⊢
    rw [Mealy.run_cons, h₁, h₂]
    simp

/-- **An integer the writer writes lexes as an integer token**, held
until the byte after it. -/
theorem lexes_integer (text : Bytes)
    (htext : (∃ v : Int64, text = formatInt64 v) ∨ ∃ v : UInt64, text = decimal v.toNat)
    (hlen : text.length ≤ maxTokenSize) : Lexes ⟨.tok .integer, text⟩ := by
  -- the digits, from the start state or after `-`
  obtain ⟨s, hs, hfeed⟩ : ∃ s, (s = .inZero ∨ s = .inDigits) ∧
      jsonLexerFeed jsonLexerInit text = (⟨s, text⟩, []) := by
    rcases htext with ⟨v, rfl⟩ | ⟨v, rfl⟩
    · unfold formatInt64 at hlen ⊢
      split
      · have hminus : jsonLexerFeedChar jsonLexerInit 0x2D false = (⟨.inSign, [0x2D]⟩, []) := by
          decide
        rw [if_pos (by assumption)] at hlen
        obtain ⟨s, hs, h⟩ := jsonLexerFeed_decimal .inSign (Or.inr rfl) [0x2D] _ (by simpa using hlen)
        refine ⟨s, hs, ?_⟩
        unfold jsonLexerFeed at h ⊢
        rw [Mealy.run_cons, hminus, h]
        rfl
      · rw [if_neg (by assumption)] at hlen
        obtain ⟨s, hs, h⟩ := jsonLexerFeed_decimal .inStart (Or.inl rfl) [] _ (by simpa using hlen)
        exact ⟨s, hs, by simpa [jsonLexerInit] using h⟩
    · obtain ⟨s, hs, h⟩ := jsonLexerFeed_decimal .inStart (Or.inl rfl) [] _ (by simpa using hlen)
      exact ⟨s, hs, by simpa [jsonLexerInit] using h⟩
  exact lexes_of_holding _ rfl _ hfeed (holding_integer s hs text)

/-- An exponent after a lone `0`. The header's grammar has `0e5` as a
number (`int = zero`, then `exp`), but `IN_ZERO` ends the integer `0`
at the `e`, which starts a keyword: `qobject_from_json` sees three
values and fails, while `1e5` and `0.0e5` are read as doubles. -/
theorem qobjectFromJson_zero_exponent :
    (jsonLexerFeed jsonLexerInit (ascii "0e5")).2 = [⟨ascii "0", .tok .integer⟩, ⟨ascii "e", .tok .keyword⟩] ∧
      qobjectFromJson (fun _ => 0) (ascii "0e5") = .error .atMostOne ∧
      qobjectFromJson (fun _ => 0) (ascii "1e5") = .ok (.qnum (.double 0)) ∧
      qobjectFromJson (fun _ => 0) (ascii "0.0e5") = .ok (.qnum (.double 0)) := by
  decide +kernel

/-! ### Strings -/

/-- A byte a string holds unescaped: a string byte other than `"` and `\`. -/
def isPlainByte (c : UInt8) : Bool := c != 0x22 && c != 0x5C && isStringByte c

/-- The bytes the lexer reads inside a double-quoted string without
leaving it: plain bytes, and `\` followed by a string byte. -/
def dqBody : Bytes → Bool
  | [] => true
  | c :: tl =>
    if c = 0x5C then
      match tl with
      | [] => false
      | d :: rest => isStringByte d && dqBody rest
    else isPlainByte c && dqBody tl

theorem dqBody_cons (c : UInt8) (tl : Bytes) :
    dqBody (c :: tl) =
      if c = 0x5C then
        (match tl with
          | [] => false
          | d :: rest => isStringByte d && dqBody rest)
      else isPlainByte c && dqBody tl := by
  cases tl <;> simp [dqBody]

theorem dqBody_plain {c : UInt8} (hc : isPlainByte c = true) (b : Bytes) :
    dqBody (c :: b) = dqBody b := by
  have hne : c ≠ 0x5C := by rintro rfl; simp [isPlainByte] at hc
  rw [dqBody_cons, if_neg hne, hc, Bool.true_and]

theorem dqBody_escape {d : UInt8} (hd : isStringByte d = true) (b : Bytes) :
    dqBody (0x5C :: d :: b) = dqBody b := by
  rw [dqBody_cons, if_pos rfl]
  dsimp only
  rw [hd, Bool.true_and]

/-- A body that lexes whole can be followed by anything. -/
theorem dqBody_append : ∀ (a b : Bytes), dqBody a = true → dqBody (a ++ b) = dqBody b
  | [], _, _ => rfl
  | c :: tl, b, h => by
    by_cases hc : c = 0x5C
    · subst hc
      cases tl with
      | nil => simp [dqBody_cons] at h
      | cons d rest =>
        simp only [dqBody_cons, if_true, Bool.and_eq_true] at h
        rw [List.cons_append, List.cons_append, dqBody_escape h.1, dqBody_append rest b h.2]
    · simp only [dqBody_cons, hc, if_false, Bool.and_eq_true] at h
      rw [List.cons_append, dqBody_plain h.1, dqBody_append tl b h.2]

/-- The lexer reads a string body in `IN_DQ_STRING`, adding it to the
token. -/
theorem jsonLexerFeed_dqBody : ∀ (body acc : Bytes), dqBody body = true →
    (acc ++ body).length ≤ maxTokenSize →
    jsonLexerFeed ⟨.inDqString, acc⟩ body = (⟨.inDqString, acc ++ body⟩, [])
  | [], acc, _, _ => by simp [jsonLexerFeed]
  | c :: tl, acc, h, hlen => by
    by_cases hc : c = 0x5C
    · -- an escape: the backslash, then a string byte
      subst hc
      cases tl with
      | nil => simp [dqBody_cons] at h
      | cons d rest =>
        simp only [dqBody_cons, if_true, Bool.and_eq_true] at h
        have h₁ := jsonLexerFeedChar_go ⟨.inDqString, acc⟩ 0x5C .inDqStringEscape rfl
          (by decide) (by decide) (by simp at hlen ⊢; omega)
        have h₂ := jsonLexerFeedChar_go ⟨.inDqStringEscape, acc ++ [0x5C]⟩ d .inDqString
          (by simp [jsonLexer, h.1]) (by decide) (by decide) (by simp at hlen ⊢; omega)
        have h₃ := jsonLexerFeed_dqBody rest (acc ++ [0x5C] ++ [d]) h.2 (by simp at hlen ⊢; omega)
        unfold jsonLexerFeed at h₃ ⊢
        rw [Mealy.run_cons, h₁, Mealy.run_cons, h₂, h₃]
        simp
    · -- a plain byte
      simp only [dqBody_cons, hc, if_false, Bool.and_eq_true] at h
      obtain ⟨hplain, htl⟩ := h
      have hgo : jsonLexer .inDqString c = .go .inDqString := by
        simp only [isPlainByte, Bool.and_eq_true, bne_iff_ne, ne_eq] at hplain
        simp [jsonLexer, hplain.1.1, hplain.1.2, hplain.2]
      have h₁ := jsonLexerFeedChar_go ⟨.inDqString, acc⟩ c .inDqString hgo (by decide) (by decide)
        (by simp at hlen ⊢; omega)
      have h₂ := jsonLexerFeed_dqBody tl (acc ++ [c]) htl (by simpa using hlen)
      unfold jsonLexerFeed at h₂ ⊢
      rw [Mealy.run_cons, h₁, h₂]
      simp

/-- **A quoted string lexes as one string token.** -/
theorem jsonLexerFeed_quoted (body : Bytes) (hb : dqBody body = true)
    (hlen : (0x22 :: body ++ [0x22]).length ≤ maxTokenSize) :
    jsonLexerFeed jsonLexerInit (0x22 :: body ++ [0x22]) =
      (jsonLexerInit, [⟨0x22 :: body ++ [0x22], .tok .string⟩]) := by
  have h₁ : jsonLexerFeedChar jsonLexerInit 0x22 false = (⟨.inDqString, [0x22]⟩, []) := by decide
  have h₂ := jsonLexerFeed_dqBody body [0x22] hb (by simp at hlen ⊢; omega)
  have h₃ := jsonLexerFeedChar_emit ⟨.inDqString, [0x22] ++ body⟩ 0x22 .string rfl (by decide)
  unfold jsonLexerFeed at h₂ ⊢
  rw [List.cons_append, Mealy.run_cons, h₁, Mealy.run_append, h₂, Mealy.run_singleton, h₃]
  simp

/-- The hex digits `%04X` writes are plain bytes. -/
theorem hexDigitUpper_plain : ∀ d < 16, isPlainByte (hexDigitUpper d) = true := by
  decide

theorem dqBody_uEscape (v : Nat) : dqBody (uEscape v) = true := by
  have hd : ∀ k, isPlainByte (hexDigitUpper (k % 16)) = true :=
    fun k => hexDigitUpper_plain (k % 16) (Nat.mod_lt k (by decide))
  simp only [uEscape, hex4]
  rw [dqBody_escape rfl]
  simp only [dqBody_plain (hd _)]
  rfl

/-- A code point `quoted_str` writes as itself or as `\u` escapes. -/
theorem dqBody_escapeOther (c : Nat) (h22 : c ≠ 0x22) (h5c : c ≠ 0x5C) :
    dqBody (if c > 0xFFFF then
        uEscape (0xD800 + ((c - 0x10000) >>> 10)) ++ uEscape (0xDC00 + ((c - 0x10000) &&& 0x3FF))
      else if c < 0x20 ∨ c ≥ 0x7F then uEscape c else [c.toUInt8]) = true := by
  split_ifs with hbig hctl
  · rw [dqBody_append _ _ (dqBody_uEscape _)]
    exact dqBody_uEscape _
  · exact dqBody_uEscape _
  · -- a printable byte other than `"` and `\`
    have hprint : ∀ n < 0x7F, 0x20 ≤ n → n ≠ 0x22 → n ≠ 0x5C → isPlainByte n.toUInt8 = true := by
      decide
    rw [dqBody_plain (hprint c (by omega) (by omega) h22 h5c)]
    rfl

/-- Whatever `quoted_str` writes for one code point lexes inside a
string. -/
theorem dqBody_escapeCodepoint (cp : Int) : dqBody (escapeCodepoint cp) = true := by
  unfold escapeCodepoint
  split_ifs with h22 h5c h08 h0c h0a h0d h09 hneg
  · rfl
  · rfl
  · rfl
  · rfl
  · rfl
  · rfl
  · rfl
  · -- an invalid sequence, written as U+FFFD
    exact dqBody_escapeOther 0xFFFD (by decide) (by decide)
  · exact dqBody_escapeOther cp.toNat (by omega) (by omega)

theorem dqBody_quotedStrLoop : ∀ (n : Nat) (s : Bytes), dqBody (quotedStrLoop n s) = true
  | 0, _ => rfl
  | _ + 1, [] => rfl
  | n + 1, c :: cs => by
    rw [quotedStrLoop, dqBody_append _ _ (dqBody_escapeCodepoint _)]
    exact dqBody_quotedStrLoop n _

/-- **A string the writer writes lexes as one string token.** -/
theorem lexes_stringToken (s : Bytes) (hlen : (quotedStr s).length ≤ maxTokenSize) :
    Lexes (stringToken s) :=
  lexes_of_selfDelimiting _ rfl
    (jsonLexerFeed_quoted _ (dqBody_quotedStrLoop s.length s) hlen)

/-! ### All the writer's tokens -/

/-- **Every token the writer writes lexes on its own**, if not longer
than `MAX_TOKEN_SIZE`. -/
theorem lexes_of_writerToken {t : JSONToken} (h : WriterToken t) (hlen : t.str.length ≤ maxTokenSize) :
    Lexes t := by
  cases h with
  | lcurly => exact lexes_of_selfDelimiting _ rfl (by decide)
  | rcurly => exact lexes_of_selfDelimiting _ rfl (by decide)
  | lsquare => exact lexes_of_selfDelimiting _ rfl (by decide)
  | rsquare => exact lexes_of_selfDelimiting _ rfl (by decide)
  | comma => exact lexes_of_selfDelimiting _ rfl (by decide)
  | colon => exact lexes_of_selfDelimiting _ rfl (by decide)
  | null => exact lexes_of_holding _ rfl _ (by decide) (holding_keyword _)
  | bool b => cases b <;> exact lexes_of_holding _ rfl _ (by decide) (holding_keyword _)
  | i64 v => exact lexes_integer _ (Or.inl ⟨v, rfl⟩) hlen
  | u64 v => exact lexes_integer _ (Or.inr ⟨v, rfl⟩) hlen
  | string s => exact lexes_stringToken s hlen

end QemuFormal.Json

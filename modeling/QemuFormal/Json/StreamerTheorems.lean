/-
QemuFormal.Json.StreamerTheorems — the streamer hands the writer's tokens
to the parser as one message.

`json_message_process_token` queues a token, and parses the queue, by its
brace and bracket counters alone. Inside a container (`Inside`: a bracket
open and none closed more often than opened) it only queues
(`Queues`), and the tokens of a whole object leave the counters as they
were (`queues_jsonTokens`). From a fresh streamer, then, the tokens of an
object are one message: queued until its last token closes the counters,
then parsed and emitted (`processTokens_message`); the end of input after
it finds the queue empty and emits nothing. All this within the limits
the function enforces (`Fits`): the total token size, the token count and
the nesting.

`jsonMessageParserFeed_eq` takes the two machines of the parser apart:
feeding bytes is lexing them all, then streaming every token the lexer
handed on.
-/
import QemuFormal.Json.ParserTheorems
import QemuFormal.Json.Streamer

namespace QemuFormal.Json

section Stream

variable (strtod : Bytes → UInt64)

/-! ## Lexer, then streamer -/

theorem jsonMessageProcessTokens_append (st : JSONStreamer) (evs evs' : List LexEvent) :
    jsonMessageProcessTokens strtod st (evs ++ evs') =
      ((jsonMessageProcessTokens strtod (jsonMessageProcessTokens strtod st evs).1 evs').1,
        (jsonMessageProcessTokens strtod st evs).2 ++
          (jsonMessageProcessTokens strtod (jsonMessageProcessTokens strtod st evs).1 evs').2) :=
  Mealy.run_append _ st evs evs'

/-- **Feeding is lexing, then streaming**: `json_message_parser_feed`
over a buffer ends where the lexer over the buffer, and the streamer
over every token the lexer handed on, end. -/
theorem jsonMessageParserFeed_eq (buffer : Bytes) :
    ∀ (lx : JSONLexer) (st : JSONStreamer),
      jsonMessageParserFeed strtod ⟨lx, st⟩ buffer =
        (⟨(jsonLexerFeed lx buffer).1, (jsonMessageProcessTokens strtod st (jsonLexerFeed lx buffer).2).1⟩,
          (jsonMessageProcessTokens strtod st (jsonLexerFeed lx buffer).2).2) := by
  induction buffer with
  | nil =>
    intro lx st
    rfl
  | cons c cs ih =>
    intro lx st
    -- one byte through both machines, then the rest by the induction hypothesis
    unfold jsonMessageParserFeed jsonLexerFeed
    rw [Mealy.run_cons, Mealy.run_cons]
    unfold jsonMessageParserFeed jsonLexerFeed at ih
    rw [ih]
    simp only [jsonMessageParserFeedChar, jsonMessageProcessTokens_append]

/-! ## The counters and the limits -/

/-- A bracket open and none closed more often than opened: the condition
under which `json_message_process_token` keeps queueing. -/
def Inside (st : JSONStreamer) : Prop :=
  (st.braceCount > 0 ∨ st.bracketCount > 0) ∧ st.braceCount ≥ 0 ∧ st.bracketCount ≥ 0

instance (st : JSONStreamer) : Decidable (Inside st) := by
  unfold Inside
  infer_instance

/-- The streamer with `ts` queued after what it holds, the counters as
they were. -/
def JSONStreamer.queued (st : JSONStreamer) (ts : List JSONToken) : JSONStreamer :=
  { st with tokens := st.tokens ++ ts, tokenSize := st.tokenSize + textSize ts }

@[simp] theorem JSONStreamer.queued_nil (st : JSONStreamer) : st.queued [] = st := by
  simp [JSONStreamer.queued]

@[simp] theorem JSONStreamer.queued_append (st : JSONStreamer) (ts us : List JSONToken) :
    (st.queued ts).queued us = st.queued (ts ++ us) := by
  simp [JSONStreamer.queued, Nat.add_assoc]

/-- Queueing `ts` on `st`, and nesting `d` deeper than `st`, stays within
`MAX_TOKEN_SIZE`, `MAX_TOKEN_COUNT` and `MAX_NESTING`. -/
def Fits (st : JSONStreamer) (ts : List JSONToken) (d : Nat) : Prop :=
  st.tokenSize + textSize ts + 1 ≤ maxTokenSize ∧ st.tokens.length + ts.length ≤ maxTokenCount ∧
    st.braceCount + st.bracketCount + d ≤ maxNesting

theorem fits_left (ts us : List JSONToken) {st : JSONStreamer} {d d' : Nat} (h : Fits st (ts ++ us) d)
    (hd : d' ≤ d) : Fits st ts d' := by
  obtain ⟨hs, hc, hn⟩ := h
  simp only [textSize_append, List.length_append] at hs hc
  exact ⟨by omega, by omega, by omega⟩

theorem fits_right (ts us : List JSONToken) {st : JSONStreamer} {d d' : Nat} (h : Fits st (ts ++ us) d)
    (hd : d' ≤ d) : Fits (st.queued ts) us d' := by
  obtain ⟨hs, hc, hn⟩ := h
  simp only [textSize_append, List.length_append] at hs hc
  refine ⟨?_, ?_, ?_⟩
  · simp only [JSONStreamer.queued]; omega
  · simp only [JSONStreamer.queued, List.length_append]; omega
  · simp only [JSONStreamer.queued]; omega

/-! ## One token -/

/-- **A token that is queued**: not an error, not the end of input. The
counters move, the limits are checked, the token is queued; unless a
bracket is still open the queue is parsed and emitted. -/
theorem jsonMessageProcessToken_push (st : JSONStreamer) (t : JSONToken) (brace bracket : Int)
    (herr : t.type ≠ .tok .error) (heoi : t.type ≠ .tok .endOfInput)
    (hbrace : st.braceCount +
      (if t.type = .tok .lcurly then 1 else if t.type = .tok .rcurly then -1 else 0) = brace)
    (hbracket : st.bracketCount +
      (if t.type = .tok .lsquare then 1 else if t.type = .tok .rsquare then -1 else 0) = bracket)
    (hsize : st.tokenSize + t.str.length + 1 ≤ maxTokenSize)
    (hcount : st.tokens.length + 1 ≤ maxTokenCount)
    (hnest : bracket + brace ≤ maxNesting) :
    jsonMessageProcessToken strtod st t.event =
      if (brace > 0 ∨ bracket > 0) ∧ brace ≥ 0 ∧ bracket ≥ 0 then
        (⟨brace, bracket, st.tokens ++ [t], st.tokenSize + t.str.length⟩, [])
      else (.reset, [(jsonParserParse strtod (st.tokens ++ [t])).mapError .parse]) := by
  unfold jsonMessageProcessToken JSONToken.event
  split
  · rename_i h
    exact absurd h herr
  · rename_i h
    exact absurd h heoi
  · dsimp only
    rw [hbrace, hbracket, if_neg (by omega), if_neg (by omega), if_neg (by omega)]

/-- The tokens that leave both counters alone. -/
def Flat (t : JSONToken) : Prop :=
  t.type ≠ .tok .lcurly ∧ t.type ≠ .tok .rcurly ∧ t.type ≠ .tok .lsquare ∧
    t.type ≠ .tok .rsquare ∧ t.type ≠ .tok .error ∧ t.type ≠ .tok .endOfInput

theorem jsonMessageProcessToken_flat (st : JSONStreamer) (t : JSONToken) (ht : Flat t)
    (hfit : Fits st [t] 0) :
    jsonMessageProcessToken strtod st t.event =
      if Inside st then (st.queued [t], [])
      else (.reset, [(jsonParserParse strtod (st.tokens ++ [t])).mapError .parse]) := by
  obtain ⟨hlc, hrc, hls, hrs, herr, heoi⟩ := ht
  obtain ⟨hs, hc, hn⟩ := hfit
  simp only [textSize_cons, textSize_nil, List.length_singleton] at hs hc
  rw [jsonMessageProcessToken_push strtod st t st.braceCount st.bracketCount herr heoi
    (by simp [hlc, hrc]) (by simp [hls, hrs]) (by omega) (by omega) (by omega)]
  simp [Inside, JSONStreamer.queued]

/-- The streamer queues `ts`, emitting nothing. -/
def Queues (st : JSONStreamer) (ts : List JSONToken) : Prop :=
  jsonMessageProcessTokens strtod st (ts.map JSONToken.event) = (st.queued ts, [])

theorem queues_nil (st : JSONStreamer) : Queues strtod st [] := by
  simp [Queues, jsonMessageProcessTokens]

theorem queues_append {st : JSONStreamer} {ts us : List JSONToken} (h₁ : Queues strtod st ts)
    (h₂ : Queues strtod (st.queued ts) us) : Queues strtod st (ts ++ us) := by
  unfold Queues at h₁ h₂ ⊢
  rw [List.map_append, jsonMessageProcessTokens_append, h₁, h₂]
  simp

theorem queues_flat {st : JSONStreamer} (hin : Inside st) {t : JSONToken} (ht : Flat t)
    (hfit : Fits st [t] 0) : Queues strtod st [t] := by
  unfold Queues jsonMessageProcessTokens
  rw [List.map_singleton, Mealy.run_singleton, jsonMessageProcessToken_flat strtod st t ht hfit,
    if_pos hin]

/-- A container's tokens, as far as the streamer goes: the opening
bracket moves to `st₁`, the members are queued, and what happens is what
the closing bracket does. -/
theorem jsonMessageProcessTokens_bracketed (st st₁ : JSONStreamer) (opening closing : JSONToken)
    (body : List JSONToken) (h₁ : jsonMessageProcessToken strtod st opening.event = (st₁, []))
    (h₂ : Queues strtod st₁ body) :
    jsonMessageProcessTokens strtod st ((opening :: body ++ [closing]).map JSONToken.event) =
      jsonMessageProcessToken strtod (st₁.queued body) closing.event := by
  unfold Queues at h₂
  rw [List.map_append, List.map_cons, jsonMessageProcessTokens_append]
  unfold jsonMessageProcessTokens at h₂ ⊢
  rw [Mealy.run_cons, h₁]
  simp only [h₂, List.nil_append, List.map_singleton, Mealy.run_singleton]

/-! ## Whole values -/

section Values

variable (fmtDouble : UInt64 → Bytes)

theorem flat_scalar (o : QObject) (ho : depth o = 0) :
    ∃ t, jsonTokens fmtDouble o = [t] ∧ Flat t := by
  cases o with
  | qdict => simp [depth] at ho
  | qlist => simp [depth] at ho
  | qnull => exact ⟨_, rfl, by simp [Flat]⟩
  | qbool => exact ⟨_, rfl, by simp [Flat]⟩
  | qnum => exact ⟨_, rfl, by simp [Flat]⟩
  | qstring => exact ⟨_, rfl, by simp [Flat, stringToken]⟩

theorem flat_comma : Flat commaToken := by simp [Flat, commaToken]

theorem flat_stringToken (s : Bytes) : Flat (stringToken s) := by simp [Flat, stringToken]

theorem flat_colon : Flat colonToken := by simp [Flat, colonToken]

/-- `opening` and `closing` are a pair of brackets: queued tokens, the
first adding one to a counter (`db` to the braces, `dk` to the
brackets), the second taking it away. -/
structure Brackets (opening closing : JSONToken) (db dk : Int) : Prop where
  opening_error : opening.type ≠ .tok .error
  opening_eoi : opening.type ≠ .tok .endOfInput
  closing_error : closing.type ≠ .tok .error
  closing_eoi : closing.type ≠ .tok .endOfInput
  opening_brace : (if opening.type = .tok .lcurly then 1 else if opening.type = .tok .rcurly then -1 else 0) = db
  opening_bracket : (if opening.type = .tok .lsquare then 1 else if opening.type = .tok .rsquare then -1 else 0) = dk
  closing_brace : (if closing.type = .tok .lcurly then 1 else if closing.type = .tok .rcurly then -1 else 0) = -db
  closing_bracket : (if closing.type = .tok .lsquare then 1 else if closing.type = .tok .rsquare then -1 else 0) = -dk
  one : 0 ≤ db ∧ 0 ≤ dk ∧ db + dk = 1

theorem brackets_curly : Brackets lcurlyToken rcurlyToken 1 0 := by
  constructor <;> simp [lcurlyToken, rcurlyToken]

theorem brackets_square : Brackets lsquareToken rsquareToken 0 1 := by
  constructor <;> simp [lsquareToken, rsquareToken]

/-- **A container, from counters that are not negative**: the opening
bracket takes the streamer inside, the members are queued, and the
closing bracket brings the counters back — so the container's tokens do
what one token would: they are queued if the streamer was inside
already, else parsed and emitted. -/
theorem processTokens_container {opening closing : JSONToken} {db dk : Int}
    (hb : Brackets opening closing db dk) (body : List JSONToken) (d : Nat)
    (hbody : ∀ st, Inside st → Fits st body d → Queues strtod st body)
    (st : JSONStreamer) (h₀ : 0 ≤ st.braceCount) (h₀' : 0 ≤ st.bracketCount)
    (hfit : Fits st (opening :: body ++ [closing]) (d + 1)) :
    jsonMessageProcessTokens strtod st ((opening :: body ++ [closing]).map JSONToken.event) =
      if Inside st then (st.queued (opening :: body ++ [closing]), [])
      else (.reset, [(jsonParserParse strtod (st.tokens ++ (opening :: body ++ [closing]))).mapError .parse]) := by
  obtain ⟨hs, hc, hn⟩ := hfit
  simp only [textSize_append, textSize_cons, textSize_nil, List.length_append, List.length_cons,
    List.length_nil] at hs hc
  obtain ⟨hdb, hdk, hone⟩ := hb.one
  -- the opening bracket: one counter up, the streamer inside
  let st₁ : JSONStreamer :=
    ⟨st.braceCount + db, st.bracketCount + dk, st.tokens ++ [opening], st.tokenSize + opening.str.length⟩
  have h₁ : jsonMessageProcessToken strtod st opening.event = (st₁, []) := by
    rw [jsonMessageProcessToken_push strtod st opening _ _ hb.opening_error hb.opening_eoi
      (by rw [hb.opening_brace]) (by rw [hb.opening_bracket]) (by omega) (by omega) (by omega)]
    rw [if_pos (by omega)]
  have hin₁ : Inside st₁ := by
    simp only [Inside, st₁]
    omega
  have hfit₁ : Fits st₁ body d := by
    simp only [Fits, st₁, List.length_append, List.length_singleton]
    omega
  rw [jsonMessageProcessTokens_bracketed strtod st st₁ opening closing body h₁ (hbody st₁ hin₁ hfit₁)]
  -- the closing bracket: the counters back at `st`'s
  rw [jsonMessageProcessToken_push strtod (st₁.queued body) closing st.braceCount st.bracketCount
    hb.closing_error hb.closing_eoi (by simp only [JSONStreamer.queued, st₁]; rw [hb.closing_brace]; omega)
    (by simp only [JSONStreamer.queued, st₁]; rw [hb.closing_bracket]; omega)
    (by simp only [JSONStreamer.queued, st₁]; omega)
    (by simp only [JSONStreamer.queued, st₁, List.length_append, List.length_singleton]; omega)
    (by omega)]
  simp only [Inside, JSONStreamer.queued, st₁, List.append_assoc, List.cons_append,
    List.nil_append, textSize_cons, textSize_append, textSize_nil, Nat.add_assoc, Nat.add_zero]

/-- A scalar is one token that leaves the counters alone. -/
theorem scalar_tokens (o : QObject) (ho : depth o = 0) (st : JSONStreamer)
    (hfit : Fits st (jsonTokens fmtDouble o) (depth o)) :
    jsonMessageProcessTokens strtod st ((jsonTokens fmtDouble o).map JSONToken.event) =
      if Inside st then (st.queued (jsonTokens fmtDouble o), [])
      else (.reset, [(jsonParserParse strtod (st.tokens ++ jsonTokens fmtDouble o)).mapError .parse]) := by
  obtain ⟨t, ht, hflat⟩ := flat_scalar fmtDouble o ho
  rw [ho] at hfit
  rw [ht] at hfit ⊢
  unfold jsonMessageProcessTokens
  rw [List.map_singleton, Mealy.run_singleton, jsonMessageProcessToken_flat strtod st t hflat hfit]

/-- What is queued inside a container stays inside it. -/
theorem queues_of_inside {st : JSONStreamer} (hin : Inside st) {ts : List JSONToken}
    (h : jsonMessageProcessTokens strtod st (ts.map JSONToken.event) =
      if Inside st then (st.queued ts, [])
      else (.reset, [(jsonParserParse strtod (st.tokens ++ ts)).mapError .parse])) :
    Queues strtod st ts := by
  rw [if_pos hin] at h
  exact h

mutual

/-- **The streamer on a value's tokens**: from counters that are not
negative, an object's tokens are queued if the streamer is inside a
container, and else are one message, parsed and emitted. -/
theorem processTokens_jsonTokens : ∀ (o : QObject) (st : JSONStreamer),
    0 ≤ st.braceCount → 0 ≤ st.bracketCount → Fits st (jsonTokens fmtDouble o) (depth o) →
    jsonMessageProcessTokens strtod st ((jsonTokens fmtDouble o).map JSONToken.event) =
      if Inside st then (st.queued (jsonTokens fmtDouble o), [])
      else (.reset, [(jsonParserParse strtod (st.tokens ++ jsonTokens fmtDouble o)).mapError .parse])
  | .qdict entries, st, h₀, h₀', hfit => by
    rw [jsonTokens] at hfit ⊢
    exact processTokens_container strtod brackets_curly _ (entriesDepth entries)
      (fun st' hin hfit' => queues_entryTokens entries false st' hin hfit') st h₀ h₀'
      (by rw [depth, Nat.add_comm] at hfit; exact hfit)
  | .qlist elems, st, h₀, h₀', hfit => by
    rw [jsonTokens] at hfit ⊢
    exact processTokens_container strtod brackets_square _ (elemsDepth elems)
      (fun st' hin hfit' => queues_elemTokens elems false st' hin hfit') st h₀ h₀'
      (by rw [depth, Nat.add_comm] at hfit; exact hfit)
  | .qnull, st, _, _, hfit => scalar_tokens strtod fmtDouble .qnull rfl st hfit
  | .qbool b, st, _, _, hfit => scalar_tokens strtod fmtDouble (.qbool b) rfl st hfit
  | .qnum n, st, _, _, hfit => scalar_tokens strtod fmtDouble (.qnum n) rfl st hfit
  | .qstring s, st, _, _, hfit => scalar_tokens strtod fmtDouble (.qstring s) rfl st hfit

/-- A dict's members, inside the dict: queued. -/
theorem queues_entryTokens : ∀ (entries : List (Bytes × QObject)) (comma : Bool) (st : JSONStreamer),
    Inside st → Fits st (entryTokens fmtDouble comma entries) (entriesDepth entries) →
    Queues strtod st (entryTokens fmtDouble comma entries)
  | [], _, st, _, _ => by
    rw [entryTokens]
    exact queues_nil strtod st
  | (k, v) :: rest, comma, st, hin, hfit => by
    have hsplit : entryTokens fmtDouble comma ((k, v) :: rest) =
        (if comma then [commaToken] else []) ++
          ([stringToken k] ++ ([colonToken] ++ (jsonTokens fmtDouble v ++ entryTokens fmtDouble true rest))) := by
      simp [entryTokens]
    have hv : depth v ≤ entriesDepth ((k, v) :: rest) := by simp [entriesDepth]
    have hr : entriesDepth rest ≤ entriesDepth ((k, v) :: rest) := by simp [entriesDepth]
    rw [hsplit] at hfit ⊢
    -- the comma, the key, the colon, the value, the other members, one after the other
    have hfit₁ := fits_right _ _ hfit le_rfl
    have hfit₂ := fits_right _ _ hfit₁ le_rfl
    have hfit₃ := fits_right _ _ hfit₂ le_rfl
    have hfit₄ := fits_right _ _ hfit₃ hr
    refine queues_append strtod ?_ (queues_append strtod ?_ (queues_append strtod ?_ (queues_append strtod ?_ ?_)))
    · cases comma
      · exact queues_nil strtod st
      · exact queues_flat strtod hin flat_comma (fits_left _ _ hfit (Nat.zero_le _))
    · exact queues_flat strtod (by exact hin) (flat_stringToken k) (fits_left _ _ hfit₁ (Nat.zero_le _))
    · exact queues_flat strtod (by exact hin) flat_colon
        (fits_left _ _ hfit₂ (Nat.zero_le _))
    · -- queueing does not move the counters
      have hin₃ : Inside (((st.queued (if comma then [commaToken] else [])).queued [stringToken k]).queued
          [colonToken]) := hin
      exact queues_of_inside strtod hin₃
        (processTokens_jsonTokens v _ hin₃.2.1 hin₃.2.2 (fits_left _ _ hfit₃ hv))
    · exact queues_entryTokens rest true _ hin hfit₄

/-- A list's elements, inside the list: queued. -/
theorem queues_elemTokens : ∀ (elems : List QObject) (comma : Bool) (st : JSONStreamer),
    Inside st → Fits st (elemTokens fmtDouble comma elems) (elemsDepth elems) →
    Queues strtod st (elemTokens fmtDouble comma elems)
  | [], _, st, _, _ => by
    rw [elemTokens]
    exact queues_nil strtod st
  | v :: rest, comma, st, hin, hfit => by
    have hsplit : elemTokens fmtDouble comma (v :: rest) =
        (if comma then [commaToken] else []) ++ (jsonTokens fmtDouble v ++ elemTokens fmtDouble true rest) := by
      simp [elemTokens]
    have hv : depth v ≤ elemsDepth (v :: rest) := by simp [elemsDepth]
    have hr : elemsDepth rest ≤ elemsDepth (v :: rest) := by simp [elemsDepth]
    rw [hsplit] at hfit ⊢
    have hfit₁ := fits_right _ _ hfit le_rfl
    have hfit₂ := fits_right _ _ hfit₁ hr
    refine queues_append strtod ?_ (queues_append strtod ?_ ?_)
    · cases comma
      · exact queues_nil strtod st
      · exact queues_flat strtod hin flat_comma (fits_left _ _ hfit (Nat.zero_le _))
    · have hin₁ : Inside (st.queued (if comma then [commaToken] else [])) := hin
      exact queues_of_inside strtod hin₁
        (processTokens_jsonTokens v _ hin₁.2.1 hin₁.2.2 (fits_left _ _ hfit₁ hv))
    · exact queues_elemTokens rest true _ hin hfit₂

end

/-- The end of input on a fresh streamer: nothing is queued, nothing is
emitted. -/
theorem jsonMessageProcessToken_endOfInput_reset (input : Bytes) :
    jsonMessageProcessToken strtod .reset ⟨input, .tok .endOfInput⟩ = (.reset, []) := rfl

/-- **One message**: a fresh streamer given an object's tokens and then
the end of input emits the parse of exactly those tokens, once, and is
fresh again. -/
theorem processTokens_message (o : QObject) (hfit : Fits .reset (jsonTokens fmtDouble o) (depth o))
    (input : Bytes) :
    jsonMessageProcessTokens strtod .reset
        ((jsonTokens fmtDouble o).map JSONToken.event ++ [⟨input, .tok .endOfInput⟩]) =
      (.reset, [(jsonParserParse strtod (jsonTokens fmtDouble o)).mapError .parse]) := by
  have hout : ¬Inside JSONStreamer.reset := by decide
  rw [jsonMessageProcessTokens_append, processTokens_jsonTokens strtod fmtDouble o .reset le_rfl le_rfl hfit,
    if_neg hout]
  unfold jsonMessageProcessTokens
  rw [Mealy.run_singleton, jsonMessageProcessToken_endOfInput_reset]
  rfl

end Values

end Stream

end QemuFormal.Json

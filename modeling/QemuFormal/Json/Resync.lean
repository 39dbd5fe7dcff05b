/-
QemuFormal.Json.Resync — forcing the JSON parser into a known-good
state (`docs/interop/qmp-spec.rst`, "Forcing the JSON parser into
known-good state").

The specification tells a QMP client to "provoke a lexical error" by
sending "an ASCII control character other than `\t`, `\r`, or `\n`", or
0xFF. The lexer's table makes 0x00–0x1F (less those three) and 0xFE,
0xFF errors in every state, directly or after ending a pending token:
`isResyncByte`. After such a byte the lexer sits in `IN_RECOVERY` with
an empty token and the streamer has been reset by the error it emitted
(`jsonMessageParserFeed_resync`). From there, a message that starts with
optional whitespace and `{` behaves exactly as it does on a fresh
parser: whitespace keeps the lexer in `IN_RECOVERY` or `IN_START`, and
`{` is a resynchronisation point that both states read the same way
(`jsonMessageParserFeed_object_synced`).

So the emissions of `g`, the byte, and `m` are the emissions of `g`
and the byte, ending with the error, followed by exactly what `m`
alone emits (`resync_after_control`) — in any split into
`json_message_parser_feed` calls.

DEL (0x7F) is an ASCII control character too, but JSON admits it
unescaped inside strings, and the lexer treats it as a string byte: in
the middle of a string it provokes nothing (`resync_fails_on_del`).
-/
import QemuFormal.Json.Streamer

namespace QemuFormal.Json

/-- The bytes that provoke a lexical error in every lexer state: the
control characters 0x00–0x1F other than `\t`, `\n`, `\r`, and the
impossible UTF-8 bytes 0xFE, 0xFF. -/
def isResyncByte (c : UInt8) : Bool :=
  (c ≤ 0x1F && c != 0x09 && c != 0x0A && c != 0x0D) || c == 0xFE || c == 0xFF

/-- JSON whitespace: space, `\t`, `\n`, `\r`. -/
def isJsonWs (c : UInt8) : Bool := c == 0x20 || c == 0x09 || c == 0x0A || c == 0x0D

/-! ## 1. The lexer on a resynchronising byte -/

/-- A resynchronising byte is an error in the start state. -/
theorem jsonLexer_inStart_resync :
    ∀ c : UInt8, isResyncByte c = true → jsonLexer .inStart c = .err := by
  decide +kernel

/-- In every state a resynchronising byte is an error, or a lookahead
that sends the lexer back to the start state first. -/
theorem jsonLexer_resync :
    ∀ (s : LexState) (c : UInt8), isResyncByte c = true →
      jsonLexer s c = .err ∨ (jsonLexer s c).lookahead = true := by
  intro s
  cases s <;> decide +kernel

/-- A pass on an error entry: the byte is consumed, the token (with the
byte) is handed on as `JSON_ERROR`, and the lexer enters `IN_RECOVERY`. -/
theorem lexStep_of_err (lx : JSONLexer) (ch : UInt8) (h : jsonLexer lx.state ch = .err) :
    lexStep lx ch false = (⟨.inRecovery, []⟩, [⟨lx.token ++ [ch], .tok .error⟩], true) := by
  simp [lexStep, lexApply, h, Entry.err]

/-- **The lexer after a resynchronising byte**: in `IN_RECOVERY`, with
an empty token, having handed on some tokens and last a `JSON_ERROR`. -/
theorem jsonLexerFeedChar_resync (lx : JSONLexer) (c : UInt8) (hc : isResyncByte c = true) :
    ∃ (pre : List LexEvent) (input : Bytes),
      jsonLexerFeedChar lx c false = (⟨.inRecovery, []⟩, pre ++ [⟨input, .tok .error⟩]) := by
  have hloop : ∃ (pre : List LexEvent) (input : Bytes),
      lexLoop c false 3 lx false = (⟨.inRecovery, []⟩, pre ++ [⟨input, .tok .error⟩]) := by
    rw [lexLoop_spec]
    rcases jsonLexer_resync lx.state c hc with herr | hla
    · refine ⟨[], lx.token ++ [c], ?_⟩
      simp [lexStep_of_err lx c herr]
    · have hnot : (lexStep lx c false).2.2 = false := by
        simp [lexStep_consumed, hla]
      have hstart := lexStep_state_of_not_consumed lx c hnot
      have herr : jsonLexer (⟨.inStart, []⟩ : JSONLexer).state c = .err :=
        jsonLexer_inStart_resync c hc
      refine ⟨(lexStep lx c false).2.1, [c], ?_⟩
      simp [hnot, hstart, lexStep_of_err ⟨.inStart, []⟩ c herr]
  obtain ⟨pre, input, h⟩ := hloop
  refine ⟨pre, input, ?_⟩
  simp [jsonLexerFeedChar, h]

/-! ## 2. The streamer on an error token -/

section Stream

variable (strtod : Bytes → UInt64)

/-- An error token resets the streamer, whatever it held, and emits
the error. -/
theorem jsonMessageProcessToken_error (st : JSONStreamer) (input : Bytes) :
    jsonMessageProcessToken strtod st ⟨input, .tok .error⟩ =
      (.reset, [.error (.stray (input.takeWhile (· ≠ 0)))]) := rfl

/-- Tokens ending with an error leave the streamer reset, the last
emission being that error. -/
theorem jsonMessageProcessTokens_error (st : JSONStreamer) (pre : List LexEvent) (input : Bytes) :
    ∃ es, jsonMessageProcessTokens strtod st (pre ++ [⟨input, .tok .error⟩]) =
      (.reset, es ++ [.error (.stray (input.takeWhile (· ≠ 0)))]) := by
  refine ⟨(jsonMessageProcessTokens strtod st pre).2, ?_⟩
  unfold jsonMessageProcessTokens
  rw [Mealy.run_append, Mealy.run_singleton, jsonMessageProcessToken_error]

/-- The parser state a resynchronising byte leaves. -/
def recovered : JSONMessageParser := ⟨⟨.inRecovery, []⟩, .reset⟩

/-- **After a resynchronising byte, from any state**, the parser is
`recovered`, and the byte's own emission, an error, is the last. -/
theorem jsonMessageParserFeed_resync (p : JSONMessageParser) (c : UInt8)
    (hc : isResyncByte c = true) :
    ∃ (es : List Emission) (input : Bytes),
      jsonMessageParserFeedChar strtod p c = (recovered, es ++ [.error (.stray input)]) := by
  obtain ⟨pre, input, hlex⟩ := jsonLexerFeedChar_resync p.lexer c hc
  obtain ⟨es, hst⟩ := jsonMessageProcessTokens_error strtod p.streamer pre input
  refine ⟨es, input.takeWhile (· ≠ 0), ?_⟩
  simp [jsonMessageParserFeedChar, hlex, hst, recovered]

/-! ## 3. Whitespace and `{` from the recovered state -/

/-- The two states the parser is in between a resynchronising byte and
the `{` of the next message: `IN_RECOVERY` or a fresh parser. -/
def Synced (p : JSONMessageParser) : Prop := p = recovered ∨ p = jsonMessageParserInit

/-- Whitespace keeps the parser synced, and emits nothing. -/
theorem jsonMessageParserFeedChar_ws (p : JSONMessageParser) (hp : Synced p) (c : UInt8)
    (hc : isJsonWs c = true) :
    Synced (jsonMessageParserFeedChar strtod p c).1 ∧ (jsonMessageParserFeedChar strtod p c).2 = [] := by
  have hbytes : ∀ c : UInt8, isJsonWs c = true →
      (jsonLexerFeedChar ⟨.inRecovery, []⟩ c false = (⟨.inRecovery, []⟩, []) ∨
        jsonLexerFeedChar ⟨.inRecovery, []⟩ c false = (⟨.inStart, []⟩, [])) ∧
      jsonLexerFeedChar ⟨.inStart, []⟩ c false = (⟨.inStart, []⟩, []) := by
    decide +kernel
  obtain ⟨hrec, hstart⟩ := hbytes c hc
  rcases hp with rfl | rfl
  · rcases hrec with h | h
    · simp [jsonMessageParserFeedChar, recovered, h, jsonMessageProcessTokens, Synced]
    · simp [jsonMessageParserFeedChar, recovered, h, jsonMessageProcessTokens, Synced,
        jsonMessageParserInit, jsonLexerInit]
  · simp [jsonMessageParserFeedChar, jsonMessageParserInit, jsonLexerInit, hstart,
      jsonMessageProcessTokens, Synced]

/-- Whitespace only: the parser stays synced and emits nothing. -/
theorem jsonMessageParserFeed_ws (ws : Bytes) (hws : ∀ b ∈ ws, isJsonWs b = true) :
    ∀ p, Synced p →
      Synced (jsonMessageParserFeed strtod p ws).1 ∧ (jsonMessageParserFeed strtod p ws).2 = [] := by
  induction ws with
  | nil => intro p hp; exact ⟨hp, rfl⟩
  | cons b bs ih =>
    intro p hp
    have hb := jsonMessageParserFeedChar_ws strtod p hp b (hws b (by simp))
    have hrest := ih (fun x hx => hws x (by simp [hx])) _ hb.1
    unfold jsonMessageParserFeed at hrest ⊢
    rw [Mealy.run_cons]
    exact ⟨hrest.1, by rw [hb.2, hrest.2]; rfl⟩

/-- `{` reads the same from both synced states. -/
theorem jsonMessageParserFeedChar_lcurly (p : JSONMessageParser) (hp : Synced p) :
    jsonMessageParserFeedChar strtod p 0x7B =
      jsonMessageParserFeedChar strtod jsonMessageParserInit 0x7B := by
  rcases hp with rfl | rfl
  · rfl
  · rfl

/-- **A message that opens an object reads the same from both synced
states**: same final state, same emissions. -/
theorem jsonMessageParserFeed_object_synced (p : JSONMessageParser) (hp : Synced p)
    (ws rest : Bytes) (hws : ∀ b ∈ ws, isJsonWs b = true) :
    jsonMessageParserFeed strtod p (ws ++ 0x7B :: rest) =
      jsonMessageParserFeed strtod jsonMessageParserInit (ws ++ 0x7B :: rest) := by
  have hp' := jsonMessageParserFeed_ws strtod ws hws p hp
  have hi' := jsonMessageParserFeed_ws strtod ws hws _ (Or.inr rfl)
  unfold jsonMessageParserFeed at hp' hi' ⊢
  rw [Mealy.run_append, Mealy.run_append, Mealy.run_cons, Mealy.run_cons,
    jsonMessageParserFeedChar_lcurly strtod _ hp'.1, jsonMessageParserFeedChar_lcurly strtod _ hi'.1,
    hp'.2, hi'.2]

/-! ## 4. Resynchronisation -/

/-- **QMP resynchronisation.** Feed `g`, a resynchronising byte `c`,
then a message `m` that starts with whitespace and `{`, to a parser in
any state and in any split into `json_message_parser_feed` calls. The
parser ends where a fresh parser fed `m` alone ends, and its emissions
are those up to `c` — the last of them the error `c` provokes —
followed by exactly the emissions of `m` alone. So the last emission is
the last emission of `m` alone, and no emission after `c` depends on
`g`. -/
theorem resync_after_control (p : JSONMessageParser) (g : Bytes) (c : UInt8)
    (hc : isResyncByte c = true) (ws rest : Bytes) (hws : ∀ b ∈ ws, isJsonWs b = true)
    (chunks : List Bytes) (hsplit : chunks.flatten = g ++ c :: (ws ++ 0x7B :: rest)) :
    let alone := jsonMessageParserFeed strtod jsonMessageParserInit (ws ++ 0x7B :: rest)
    (∃ (es : List Emission) (input : Bytes),
      (jsonMessageParserFeed strtod p (g ++ [c])).2 = es ++ [.error (.stray input)]) ∧
    Mealy.run (jsonMessageParserFeed strtod) p chunks =
      (alone.1, (jsonMessageParserFeed strtod p (g ++ [c])).2 ++ alone.2) := by
  intro alone
  have hfeed : Mealy.run (jsonMessageParserFeed strtod) p chunks =
      jsonMessageParserFeed strtod p (g ++ [c] ++ (ws ++ 0x7B :: rest)) := by
    unfold jsonMessageParserFeed
    rw [Mealy.run_flatten, hsplit, List.append_assoc, List.singleton_append]
  obtain ⟨es, input, hc'⟩ :=
    jsonMessageParserFeed_resync strtod (jsonMessageParserFeed strtod p g).1 c hc
  have hgc : jsonMessageParserFeed strtod p (g ++ [c]) =
      (recovered, (jsonMessageParserFeed strtod p g).2 ++ (es ++ [.error (.stray input)])) := by
    unfold jsonMessageParserFeed at hc' ⊢
    rw [Mealy.run_append, Mealy.run_singleton, hc']
  refine ⟨⟨(jsonMessageParserFeed strtod p g).2 ++ es, input, by rw [hgc]; simp⟩, ?_⟩
  rw [hfeed]
  have hsplit' : jsonMessageParserFeed strtod p (g ++ [c] ++ (ws ++ 0x7B :: rest)) =
      ((jsonMessageParserFeed strtod (jsonMessageParserFeed strtod p (g ++ [c])).1
          (ws ++ 0x7B :: rest)).1,
        (jsonMessageParserFeed strtod p (g ++ [c])).2 ++
          (jsonMessageParserFeed strtod (jsonMessageParserFeed strtod p (g ++ [c])).1
            (ws ++ 0x7B :: rest)).2) := by
    unfold jsonMessageParserFeed
    rw [Mealy.run_append]
  rw [hsplit', hgc, jsonMessageParserFeed_object_synced strtod recovered (Or.inl rfl) ws rest hws]

end Stream

/-- `resync_after_control` at `"`, the unit separator 0x1F, and `{}`
sent as one chunk. -/
theorem resync_after_control_unit_separator :
    isResyncByte 0x1F = true ∧
    ((∃ (es : List Emission) (input : Bytes),
      (jsonMessageParserFeed (fun _ => 0) jsonMessageParserInit ([0x22] ++ [0x1F])).2 =
        es ++ [.error (.stray input)]) ∧
    Mealy.run (jsonMessageParserFeed (fun _ => 0)) jsonMessageParserInit [[0x22, 0x1F, 0x7B, 0x7D]] =
      ((jsonMessageParserFeed (fun _ => 0) jsonMessageParserInit ([] ++ 0x7B :: [0x7D])).1,
        (jsonMessageParserFeed (fun _ => 0) jsonMessageParserInit ([0x22] ++ [0x1F])).2 ++
          (jsonMessageParserFeed (fun _ => 0) jsonMessageParserInit ([] ++ 0x7B :: [0x7D])).2)) :=
  ⟨by decide,
    resync_after_control (fun _ => 0) jsonMessageParserInit [0x22] 0x1F (by decide) [] [0x7D]
      (by simp) [[0x22, 0x1F, 0x7B, 0x7D]] (by decide)⟩

/-- DEL inside a string provokes nothing: after `"`, DEL and `{}`, the
parser has emitted nothing, though `{}` alone emits the empty QDict. -/
theorem resync_fails_on_del :
    (jsonMessageParserFeed (fun _ => 0) jsonMessageParserInit ([0x22, 0x7F] ++ ascii "{}")).2 = [] ∧
    (jsonMessageParserFeed (fun _ => 0) jsonMessageParserInit (ascii "{}")).2 = [.ok (.qdict [])] := by
  decide +kernel

end QemuFormal.Json

/-
QemuFormal.Json.Lexer — the table-driven JSON lexer of
`qobject/json-lexer.c`.

`jsonLexer` is the `json_lexer[][256]` table: for a state and a byte it
gives the next state or a token type, with the `LOOKAHEAD` bit saying
that the byte is not consumed (it ends the token and is read again from
the start state). Entries the C initialisers leave out are 0, which is
`JSON_ERROR`. `jsonLexerFeedChar` is `json_lexer_feed_char`: its `while`
loop runs `lexStep` until the byte is consumed (or, when flushing, until
the start state), then applies the `MAX_TOKEN_SIZE` guard. The lexer
does not call the streamer here; it returns the calls
`json_message_process_token(lexer, token, type)` it makes, in order, as
`LexEvent`s, and `Json.Streamer` feeds them on. Nothing the streamer
does writes the lexer, so this is the same computation.

Interpolation (`IN_START_INTERP`, `IN_INTERP`, `JSON_INTERP`) is only
reachable with a non-null `va_list`, and `qobject_from_json` and the QMP
parser pass NULL; it is left out. The token coordinates `x`, `y` are
left out: no emission reads them.

The loop runs at most twice per byte: a lookahead entry always leads to
the start state, and no entry of the start state is a lookahead
(`jsonLexer_inStart_consumes`). `lexLoop` takes that bound as fuel.
-/
import Mathlib.Data.FinEnum
import QemuFormal.Lib.Mealy
import QemuFormal.Util.Unicode

namespace QemuFormal.Json

/-- `enum json_lexer_state`, without the interpolation states. -/
inductive LexState where
  | inRecovery
  | inDqStringEscape
  | inDqString
  | inSqStringEscape
  | inSqString
  | inZero
  | inExpDigits
  | inExpSign
  | inExpE
  | inMantissa
  | inMantissaDigits
  | inDigits
  | inSign
  | inKeyword
  | inStart
  deriving DecidableEq, Repr

/-- `JSONTokenType`, without `JSON_INTERP`. -/
inductive TokenType where
  | error
  | lcurly
  | rcurly
  | lsquare
  | rsquare
  | colon
  | comma
  | integer
  | float
  | keyword
  | string
  | endOfInput
  deriving DecidableEq, Repr

/-- What a table entry names: a lexer state or a token type. -/
inductive Target where
  | state (s : LexState)
  | token (t : TokenType)
  deriving DecidableEq, Repr

/-- A `json_lexer` entry: its target and its `LOOKAHEAD` bit. -/
structure Entry where
  target : Target
  lookahead : Bool
  deriving DecidableEq, Repr

namespace Entry

/-- An omitted entry: 0, `JSON_ERROR`. -/
def err : Entry := ⟨.token .error, false⟩

/-- Go to a state, consuming the byte. -/
def go (s : LexState) : Entry := ⟨.state s, false⟩

/-- `IN_START | LOOKAHEAD`. -/
def restart : Entry := ⟨.state .inStart, true⟩

/-- `TERMINAL(t)`: end token `t` without consuming the byte. -/
def terminal (t : TokenType) : Entry := ⟨.token t, true⟩

/-- End token `t` with this byte. -/
def emit (t : TokenType) : Entry := ⟨.token t, false⟩

end Entry

/-- `'0' ... '9'`. -/
def isDigitByte (c : UInt8) : Bool := 0x30 ≤ c && c ≤ 0x39

/-- The bytes a string may hold unescaped, `0x20 ... 0xFD`. -/
def isStringByte (c : UInt8) : Bool := 0x20 ≤ c && c ≤ 0xFD

/-- The `json_lexer` table. -/
def jsonLexer : LexState → UInt8 → Entry
  | .inRecovery, c =>
    -- skip to a structural character, a control character other than
    -- '\t', or 0xFE / 0xFF
    if c = 0x09 then .go .inRecovery
    else if c ≤ 0x1F ∨ c ≥ 0xFE then .restart
    else if c = 0x5B ∨ c = 0x5D ∨ c = 0x7B ∨ c = 0x7D ∨ c = 0x3A ∨ c = 0x2C then .restart
    else .go .inRecovery
  | .inDqStringEscape, c => if isStringByte c then .go .inDqString else .err
  | .inDqString, c =>
    if c = 0x5C then .go .inDqStringEscape
    else if c = 0x22 then .emit .string
    else if isStringByte c then .go .inDqString
    else .err
  | .inSqStringEscape, c => if isStringByte c then .go .inSqString else .err
  | .inSqString, c =>
    if c = 0x5C then .go .inSqStringEscape
    else if c = 0x27 then .emit .string
    else if isStringByte c then .go .inSqString
    else .err
  | .inZero, c =>
    if isDigitByte c then .err else if c = 0x2E then .go .inMantissa else .terminal .integer
  | .inExpDigits, c => if isDigitByte c then .go .inExpDigits else .terminal .float
  | .inExpSign, c => if isDigitByte c then .go .inExpDigits else .err
  | .inExpE, c =>
    if c = 0x2D ∨ c = 0x2B then .go .inExpSign
    else if isDigitByte c then .go .inExpDigits
    else .err
  | .inMantissaDigits, c =>
    if isDigitByte c then .go .inMantissaDigits
    else if c = 0x65 ∨ c = 0x45 then .go .inExpE
    else .terminal .float
  | .inMantissa, c => if isDigitByte c then .go .inMantissaDigits else .err
  | .inDigits, c =>
    if isDigitByte c then .go .inDigits
    else if c = 0x65 ∨ c = 0x45 then .go .inExpE
    else if c = 0x2E then .go .inMantissa
    else .terminal .integer
  | .inSign, c =>
    if c = 0x30 then .go .inZero else if isDigitByte c then .go .inDigits else .err
  | .inKeyword, c => if 0x61 ≤ c ∧ c ≤ 0x7A then .go .inKeyword else .terminal .keyword
  | .inStart, c =>
    if c = 0x22 then .go .inDqString
    else if c = 0x27 then .go .inSqString
    else if c = 0x30 then .go .inZero
    else if isDigitByte c then .go .inDigits
    else if c = 0x2D then .go .inSign
    else if c = 0x7B then .emit .lcurly
    else if c = 0x7D then .emit .rcurly
    else if c = 0x5B then .emit .lsquare
    else if c = 0x5D then .emit .rsquare
    else if c = 0x2C then .emit .comma
    else if c = 0x3A then .emit .colon
    else if 0x61 ≤ c ∧ c ≤ 0x7A then .go .inKeyword
    else if c = 0x20 ∨ c = 0x09 ∨ c = 0x0D ∨ c = 0x0A then .go .inStart
    else .err

/-- `MAX_TOKEN_SIZE`, 64 MiB. -/
def maxTokenSize : Nat := 64 * 2 ^ 20

/-- `JSONLexer`: the current state and the token text read so far. -/
structure JSONLexer where
  state : LexState
  token : Bytes
  deriving DecidableEq, Repr

/-- `json_lexer_init(lexer, false)`. -/
def jsonLexerInit : JSONLexer := ⟨.inStart, []⟩

/-- The `type` argument of `json_message_process_token`: a token type,
or — from the `MAX_TOKEN_SIZE` guard, which passes `lexer->state` — the
number of a lexer state. -/
inductive TokenKind where
  | tok (t : TokenType)
  | lexState (s : LexState)
  deriving DecidableEq, Repr

/-- One call `json_message_process_token(lexer, input, type)`. -/
structure LexEvent where
  input : Bytes
  kind : TokenKind
  deriving DecidableEq, Repr

/-- The body of the `while` loop of `json_lexer_feed_char` once the entry
`e = json_lexer[state][ch]` is read: the lexer after it, the token it
hands on (if any), and `char_consumed`. -/
def lexApply (lx : JSONLexer) (e : Entry) (ch : UInt8) (flush : Bool) :
    JSONLexer × List LexEvent × Bool :=
  let consumed := !flush && !e.lookahead
  let tok := if consumed then lx.token ++ [ch] else lx.token
  match e.target with
  | .token .error => (⟨.inRecovery, []⟩, [⟨tok, .tok .error⟩], consumed)
  | .token t => (⟨.inStart, []⟩, [⟨tok, .tok t⟩], consumed)
  | .state .inStart => (⟨.inStart, []⟩, [], consumed)
  | .state .inRecovery => (⟨.inRecovery, []⟩, [], consumed)
  | .state s => (⟨s, tok⟩, [], consumed)

/-- One pass through the body of the loop. -/
def lexStep (lx : JSONLexer) (ch : UInt8) (flush : Bool) : JSONLexer × List LexEvent × Bool :=
  lexApply lx (jsonLexer lx.state ch) ch flush

/-- The `while` loop of `json_lexer_feed_char`: without `flush`, until
the byte is consumed; with it, until the start state. -/
def lexLoop (ch : UInt8) (flush : Bool) : Nat → JSONLexer → Bool → JSONLexer × List LexEvent
  | 0, lx, _ => (lx, [])
  | n + 1, lx, consumed =>
    if (if flush then decide (lx.state = .inStart) else consumed) then (lx, [])
    else
      let r := lexStep lx ch flush
      let r' := lexLoop ch flush n r.1 r.2.2
      (r'.1, r.2.1 ++ r'.2)

/-- `json_lexer_feed_char(lexer, ch, flush)`: the loop, then the
`MAX_TOKEN_SIZE` guard, which hands on an overlong token under the
lexer's state and restarts. -/
def jsonLexerFeedChar (lx : JSONLexer) (ch : UInt8) (flush : Bool) : JSONLexer × List LexEvent :=
  let r := lexLoop ch flush 3 lx false
  if r.1.token.length > maxTokenSize then
    (⟨.inStart, []⟩, r.2 ++ [⟨r.1.token, .lexState r.1.state⟩])
  else r

/-- `json_lexer_feed(lexer, buffer, size)`. -/
def jsonLexerFeed (lx : JSONLexer) (buffer : Bytes) : JSONLexer × List LexEvent :=
  Mealy.run (fun lx ch => jsonLexerFeedChar lx ch false) lx buffer

/-- `json_lexer_flush`: feed a NUL with `flush`, then `JSON_END_OF_INPUT`. -/
def jsonLexerFlush (lx : JSONLexer) : JSONLexer × List LexEvent :=
  let r := jsonLexerFeedChar lx 0 true
  (r.1, r.2 ++ [⟨r.1.token, .tok .endOfInput⟩])

/-! ## The loop bound -/

/-- A target after which the lexer is in the start state: `IN_START`, or
a token other than `JSON_ERROR`. -/
def Target.restarts : Target → Bool
  | .state .inStart => true
  | .token .error => false
  | .token _ => true
  | .state _ => false

/-- No entry of the start state is a lookahead. -/
theorem jsonLexer_inStart_consumes : ∀ c : UInt8, (jsonLexer .inStart c).lookahead = false := by
  decide +kernel

/-- A lookahead entry ends a token or restarts from the start state. -/
theorem jsonLexer_lookahead_restarts :
    ∀ (s : LexState) (c : UInt8), (jsonLexer s c).lookahead = true →
      (jsonLexer s c).target.restarts = true := by
  intro s
  cases s <;> decide +kernel

/-- Whether a pass consumes the byte depends on the entry only. -/
theorem lexApply_consumed (lx : JSONLexer) (e : Entry) (ch : UInt8) (flush : Bool) :
    (lexApply lx e ch flush).2.2 = (!flush && !e.lookahead) := by
  obtain ⟨T, la⟩ := e
  cases T with
  | state s => cases s <;> rfl
  | token t => cases t <;> rfl

theorem lexStep_consumed (lx : JSONLexer) (ch : UInt8) (flush : Bool) :
    (lexStep lx ch flush).2.2 = (!flush && !(jsonLexer lx.state ch).lookahead) :=
  lexApply_consumed lx _ ch flush

/-- After an entry that restarts, the lexer is in the start state with
an empty token. -/
theorem lexApply_fst_of_restarts (lx : JSONLexer) (e : Entry) (ch : UInt8) (flush : Bool)
    (h : e.target.restarts = true) : (lexApply lx e ch flush).1 = ⟨.inStart, []⟩ := by
  obtain ⟨T, la⟩ := e
  cases T with
  | state s => cases s <;> simp_all [Target.restarts, lexApply]
  | token t => cases t <;> simp_all [Target.restarts, lexApply]

/-- After a pass that did not consume the byte, the lexer is in the
start state. -/
theorem lexStep_state_of_not_consumed (lx : JSONLexer) (ch : UInt8)
    (h : (lexStep lx ch false).2.2 = false) : (lexStep lx ch false).1 = ⟨.inStart, []⟩ := by
  have hla : (jsonLexer lx.state ch).lookahead = true := by
    simpa [lexStep_consumed] using h
  exact lexApply_fst_of_restarts lx _ ch false (jsonLexer_lookahead_restarts lx.state ch hla)

/-- A pass from the start state consumes the byte. -/
theorem lexStep_consumes_of_inStart (lx : JSONLexer) (ch : UInt8) (h : lx.state = .inStart) :
    (lexStep lx ch false).2.2 = true := by
  simp [lexStep_consumed, h, jsonLexer_inStart_consumes]

/-- **The loop runs at most twice.** Without `flush`, one pass, and a
second one from the start state when the first did not consume the
byte; the second always consumes it, so the loop stops there. -/
theorem lexLoop_spec (ch : UInt8) (lx : JSONLexer) :
    lexLoop ch false 3 lx false =
      if (lexStep lx ch false).2.2 then ((lexStep lx ch false).1, (lexStep lx ch false).2.1)
      else
        ((lexStep (lexStep lx ch false).1 ch false).1,
          (lexStep lx ch false).2.1 ++ (lexStep (lexStep lx ch false).1 ch false).2.1) := by
  by_cases h1 : (lexStep lx ch false).2.2
  · simp [lexLoop, h1]
  · have hstart := lexStep_state_of_not_consumed lx ch (by simpa using h1)
    have h2 : (lexStep (lexStep lx ch false).1 ch false).2.2 = true :=
      lexStep_consumes_of_inStart _ ch (by rw [hstart])
    simp [lexLoop, h1, h2]

end QemuFormal.Json

/-
QemuFormal.Json.Streamer — `qobject/json-streamer.c` and the
`qobject_from_json` entry point of `qobject/qjson.c`.

`jsonMessageProcessToken` is `json_message_process_token`: it counts
braces and brackets, enforces the size, count and nesting limits, and
queues tokens until the counters say a whole value is in; then it runs
the parser and emits the value or the error, resetting the counters and
the queue. An error token, an exceeded limit and the end of input emit
as well. Emissions are the calls of `parser->emit`, returned in order.

`JSONMessageParser` pairs the lexer with the streamer's state;
`jsonMessageParserFeed` is `json_message_parser_feed`: every byte goes
through the lexer and every token the lexer hands on goes through
`jsonMessageProcessToken`.

`qobjectFromJson` is `qobject_from_json`: feed the string up to its
NUL, flush, and collect the emissions as `consume_json` does — a second
emission turns the result into the error "Expecting at most one JSON
value", and the first error sticks.
-/
import QemuFormal.Json.Parser

namespace QemuFormal.Json

/-- `MAX_TOKEN_COUNT`. -/
def maxTokenCount : Nat := 2 * 2 ^ 20

/-- `MAX_NESTING`. -/
def maxNesting : Int := 2 ^ 10

/-- What `emit` receives as `err`. -/
inductive JsonError where
  /-- "JSON parse error, stray '%s'" (the token up to its first NUL). -/
  | stray (input : Bytes)
  /-- "JSON token size limit exceeded" -/
  | tokenSizeLimit
  /-- "JSON token count limit exceeded" -/
  | tokenCountLimit
  /-- "JSON nesting depth limit exceeded" -/
  | nestingLimit
  /-- An error of the parser, "JSON parse error, %s". -/
  | parse (e : ParseError)
  deriving DecidableEq, Repr

/-- One call of `emit(opaque, json, err)`: exactly one of the two is set. -/
abbrev Emission := Except JsonError QObject

/-- The streamer's fields of `JSONMessageParser`. -/
structure JSONStreamer where
  braceCount : Int
  bracketCount : Int
  tokens : List JSONToken
  tokenSize : Nat
  deriving DecidableEq, Repr

/-- The streamer as `json_message_parser_init` leaves it, and as every
emission leaves it (`out_emit`). -/
def JSONStreamer.reset : JSONStreamer := ⟨0, 0, [], 0⟩

section Stream

variable (strtod : Bytes → UInt64)

/-- `json_message_process_token(lexer, input, type)`. -/
def jsonMessageProcessToken (st : JSONStreamer) (ev : LexEvent) : JSONStreamer × List Emission :=
  match ev.kind with
  | .tok .error => (.reset, [.error (.stray (ev.input.takeWhile (· ≠ 0)))])
  | .tok .endOfInput =>
    if st.tokens = [] then (st, [])
    else (.reset, [(jsonParserParse strtod st.tokens).mapError .parse])
  | kind =>
    let brace := st.braceCount +
      (if kind = .tok .lcurly then 1 else if kind = .tok .rcurly then -1 else 0)
    let bracket := st.bracketCount +
      (if kind = .tok .lsquare then 1 else if kind = .tok .rsquare then -1 else 0)
    if st.tokenSize + ev.input.length + 1 > maxTokenSize then
      (.reset, [.error .tokenSizeLimit])
    else if st.tokens.length + 1 > maxTokenCount then
      (.reset, [.error .tokenCountLimit])
    else if bracket + brace > maxNesting then
      (.reset, [.error .nestingLimit])
    else
      let tokens := st.tokens ++ [⟨kind, ev.input⟩]
      if (brace > 0 ∨ bracket > 0) ∧ brace ≥ 0 ∧ bracket ≥ 0 then
        (⟨brace, bracket, tokens, st.tokenSize + ev.input.length⟩, [])
      else (.reset, [(jsonParserParse strtod tokens).mapError .parse])

/-- `JSONMessageParser`: the lexer and the streamer. -/
structure JSONMessageParser where
  lexer : JSONLexer
  streamer : JSONStreamer
  deriving DecidableEq, Repr

/-- `json_message_parser_init(parser, emit, opaque, NULL)`. -/
def jsonMessageParserInit : JSONMessageParser := ⟨jsonLexerInit, .reset⟩

/-- The streamer's handling of the tokens one lexer step hands on. -/
def jsonMessageProcessTokens (st : JSONStreamer) (evs : List LexEvent) :
    JSONStreamer × List Emission :=
  Mealy.run (jsonMessageProcessToken strtod) st evs

/-- One byte through `json_lexer_feed_char` and the streamer. -/
def jsonMessageParserFeedChar (p : JSONMessageParser) (ch : UInt8) :
    JSONMessageParser × List Emission :=
  let r := jsonLexerFeedChar p.lexer ch false
  let s := jsonMessageProcessTokens strtod p.streamer r.2
  (⟨r.1, s.1⟩, s.2)

/-- `json_message_parser_feed(parser, buffer, size)`. -/
def jsonMessageParserFeed (p : JSONMessageParser) (buffer : Bytes) :
    JSONMessageParser × List Emission :=
  Mealy.run (jsonMessageParserFeedChar strtod) p buffer

/-- `json_message_parser_flush(parser)`. -/
def jsonMessageParserFlush (p : JSONMessageParser) : JSONMessageParser × List Emission :=
  let r := jsonLexerFlush p.lexer
  let s := jsonMessageProcessTokens strtod p.streamer r.2
  (⟨r.1, s.1⟩, s.2)

/-! ## `qobject_from_json` -/

/-- The errors of `qobject_from_json`. -/
inductive QjsonError where
  /-- An emitted error. -/
  | json (e : JsonError)
  /-- "Expecting at most one JSON value" -/
  | atMostOne
  /-- "Expecting a JSON value" -/
  | expectingValue
  deriving DecidableEq, Repr

/-- `JSONParsingState`: `result` and `err`, at most one set. -/
structure JSONParsingState where
  result : Option QObject
  err : Option QjsonError
  deriving DecidableEq

/-- `consume_json(opaque, json, err)`. -/
def consumeJson (s : JSONParsingState) (e : Emission) : JSONParsingState :=
  let s : JSONParsingState :=
    if s.result.isSome then ⟨none, some .atMostOne⟩ else s
  if s.err.isSome then s
  else
    match e with
    | .ok v => ⟨some v, none⟩
    | .error err => ⟨none, some (.json err)⟩

/-- `qobject_from_json(string, errp)`: the value, or the error. -/
def qobjectFromJson (string : Bytes) : Except QjsonError QObject :=
  let fed := jsonMessageParserFeed strtod jsonMessageParserInit (string.takeWhile (· ≠ 0))
  let flushed := jsonMessageParserFlush strtod fed.1
  let s := (fed.2 ++ flushed.2).foldl consumeJson ⟨none, none⟩
  match s.result, s.err with
  | _, some e => .error e
  | some v, none => .ok v
  | none, none => .error .expectingValue

end Stream

end QemuFormal.Json

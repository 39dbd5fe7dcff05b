/-
QemuFormal.Json.Parser — the recursive-descent parser of
`qobject/json-parser.c`, over the token queue the streamer hands it.

`parseValue`, `parseObject`, `parsePair`, `parseArray` and the two
separator loops are the C functions, with the queue as a list: a peek
is a match on its head, a pop drops it. The `while` loops of
`parse_object` and `parse_array` are `objectLoop` and `arrayLoop`.
`parse_error` records only the first error, and every NULL return has
recorded one before, so the error the C code reports is the first one
raised: exactly what `Except` propagates. (`"Missing value in dict"` is
therefore never reported: the value's own error is already recorded.)

The recursion in C ends because every call pops a token. Here it is
structural on a fuel argument that every call decrements;
`jsonParserParse` gives a fuel that exceeds what any run can use
(`Json.ParserTheorems`).

`strtod` is libc's; the parser takes it as a parameter giving the
binary64 bit pattern of the double it returns.
-/
import QemuFormal.Json.Lexer

namespace QemuFormal.Json

/-- A `JSONToken`: its type and its text (`x`, `y` left out). -/
structure JSONToken where
  type : TokenKind
  str : Bytes
  deriving DecidableEq, Repr

/-- The errors `parse_error` records, as "JSON parse error, %s". -/
inductive ParseError where
  /-- "premature EOI" -/
  | prematureEOI
  /-- "key is not a string in object" -/
  | keyNotString
  /-- "missing : in object pair" -/
  | missingColon
  /-- "duplicate key" -/
  | duplicateKey
  /-- "expected separator in dict" -/
  | expectedSeparatorInDict
  /-- "expecting value" -/
  | expectingValue
  /-- "expected separator in list" -/
  | expectedSeparatorInList
  /-- "invalid keyword '%s'" -/
  | invalidKeyword (word : Bytes)
  /-- "invalid escape sequence in string" -/
  | invalidEscape
  /-- "%.*s is not a valid Unicode character" (the escape as written). -/
  | invalidUnicode (escape : Bytes)
  /-- "invalid UTF-8 sequence in string" -/
  | invalidUtf8
  deriving DecidableEq, Repr

/-- The value of a hex digit, as `cvt4hex` reads it. -/
def hexValue (c : UInt8) : Nat :=
  if 0x30 ≤ c ∧ c ≤ 0x39 then c.toNat - 0x30
  else if 0x61 ≤ c ∧ c ≤ 0x66 then 10 + c.toNat - 0x61
  else 10 + c.toNat - 0x41

/-- `cvt4hex(s)`: four hex digits as a number, or -1. -/
def cvt4hex (s : Bytes) : Int :=
  let ds := [byteAt s 0, byteAt s 1, byteAt s 2, byteAt s 3]
  if ds.all cIsxdigit then (ds.foldl (fun cp d => cp * 16 + hexValue d) 0 : Nat) else -1

/-- The byte a one-character escape stands for: `\"`, `\'`, `\\`, `\/`,
`\b`, `\f`, `\n`, `\r`, `\t`. -/
def simpleEscape (c : UInt8) : Option UInt8 :=
  if c = 0x22 then some 0x22
  else if c = 0x27 then some 0x27
  else if c = 0x5C then some 0x5C
  else if c = 0x2F then some 0x2F
  else if c = 0x62 then some 0x08
  else if c = 0x66 then some 0x0C
  else if c = 0x6E then some 0x0A
  else if c = 0x72 then some 0x0D
  else if c = 0x74 then some 0x09
  else none

/-- The code point of a `\u` escape whose four digits came out as `cp`,
with the text after them: a leading surrogate followed by `\u` and a
trailing surrogate is combined (and the second escape consumed); a
leading surrogate followed by `\u` and anything else is invalid (-1).
Returns the code point and how many bytes after the first four digits
belong to the escape. -/
def surrogatePair (cp : Int) (after : Bytes) : Int × Nat :=
  if 0xD800 ≤ cp ∧ cp ≤ 0xDBFF ∧ byteAt after 0 = 0x5C ∧ byteAt after 1 = 0x75 then
    let trailing := cvt4hex (after.drop 2)
    if 0xDC00 ≤ trailing ∧ trailing ≤ 0xDFFF then
      ((0x10000 + (cp.toNat &&& 0x3FF) * 2 ^ 10 : Nat) ||| (trailing.toNat &&& 0x3FF), 6)
    else (-1, 0)
  else (cp, 0)

/-- One pass through the loop of `parse_string` on the bytes `c :: rest`
at `ptr`, `c` not the closing quote: an escape (`\\` and a
one-character escape, or `\\u` with four hex digits and possibly a
second `\\u` completing a surrogate pair), or one modified UTF-8
sequence. The bytes it appends to the string and the bytes after it, or
the error. -/
def parseStringStep (c : UInt8) (rest : Bytes) : Except ParseError (Bytes × Bytes) :=
  if c = 0x5C then
    match rest with
    | [] => .error .invalidEscape
    | e :: rest' =>
      if e = 0x75 then
        let r := surrogatePair (cvt4hex rest') (rest'.drop 4)
        match modUtf8Encode r.1 with
        | none => .error (.invalidUnicode ((c :: e :: rest').take (6 + r.2)))
        | some bytes => .ok (bytes, rest'.drop (4 + r.2))
      else
        match simpleEscape e with
        | some b => .ok ([b], rest')
        | none => .error .invalidEscape
  else
    let r := modUtf8Codepoint (c :: rest) 6
    if r.1 < 0 then .error .invalidUtf8
    else
      match modUtf8Encode r.1 with
      | some bytes => .ok (bytes, (c :: rest).drop r.2)
      | none => .error .invalidUtf8

/-- The loop of `parse_string` from `ptr` (the bytes after the opening
quote), with the decoded bytes so far in `acc`. It ends at the closing
`quote`; running out of bytes cannot happen for a lexer token, which
always ends with its quote. -/
def parseStringLoop (quote : UInt8) : Nat → Bytes → Bytes → Except ParseError Bytes
  | 0, _, acc => .ok acc
  | _ + 1, [], acc => .ok acc
  | fuel + 1, c :: rest, acc =>
    if c = quote then .ok acc
    else
      match parseStringStep c rest with
      | .error e => .error e
      | .ok (bytes, rest') => parseStringLoop quote fuel rest' (acc ++ bytes)

/-- `parse_string(ctxt, token)`: the token text starts with its quote. -/
def parseString (str : Bytes) : Except ParseError Bytes :=
  match str with
  | [] => .ok []
  | quote :: rest => parseStringLoop quote (rest.length + 1) rest []

/-- `parse_keyword`. -/
def parseKeyword (str : Bytes) : Except ParseError QObject :=
  if str = ascii "true" then .ok (.qbool true)
  else if str = ascii "false" then .ok (.qbool false)
  else if str = ascii "null" then .ok .qnull
  else .error (.invalidKeyword str)

section Literals

variable (strtod : Bytes → UInt64)

/-- `parse_literal` for a `JSON_INTEGER`: an `int64_t` if
`qemu_strtoi64` takes it, else (without a minus sign) a `uint64_t` if
`qemu_strtou64` does, else the double `strtod` gives. -/
def parseInteger (str : Bytes) : QObject :=
  let r := qemuStrtoi64 str false
  if r.ret = 0 then .qnum (.i64 (Int64.ofInt r.value))
  else if byteAt str 0 ≠ 0x2D ∧ (qemuStrtou64 str false).ret = 0 then
    .qnum (.u64 (UInt64.ofNat (qemuStrtou64 str false).value))
  else .qnum (.double (strtod str))

/-- `parse_literal(ctxt)`: a string, integer or float token. -/
def parseLiteral (t : JSONToken) : Except ParseError QObject :=
  match t.type with
  | .tok .string => (parseString t.str).map .qstring
  | .tok .integer => .ok (parseInteger strtod t.str)
  | _ => .ok (.qnum (.double (strtod t.str)))

end Literals

section Descent

variable (strtod : Bytes → UInt64)

mutual

/-- `parse_value(ctxt)`: the value and the tokens left. -/
def parseValue : Nat → List JSONToken → Except ParseError (QObject × List JSONToken)
  | 0, _ => .error .prematureEOI
  | _ + 1, [] => .error .prematureEOI
  | n + 1, t :: rest =>
    match t.type with
    | .tok .lcurly => parseObject n rest
    | .tok .lsquare => parseArray n rest
    | .tok .integer | .tok .float | .tok .string =>
      (parseLiteral strtod t).map (fun v => (v, rest))
    | .tok .keyword => (parseKeyword t.str).map (fun v => (v, rest))
    | _ => .error .expectingValue

/-- `parse_object(ctxt)` after its `{` is popped. -/
def parseObject : Nat → List JSONToken → Except ParseError (QObject × List JSONToken)
  | 0, _ => .error .prematureEOI
  | _ + 1, [] => .error .prematureEOI
  | n + 1, ts@(t :: rest) =>
    if t.type = .tok .rcurly then .ok (.qdict [], rest)
    else
      match parsePair n [] ts with
      | .error e => .error e
      | .ok (dict, ts') => objectLoop n dict ts'

/-- The `while` loop of `parse_object`: pop a token; `}` ends the
object, `,` introduces another pair. -/
def objectLoop : Nat → QDict → List JSONToken → Except ParseError (QObject × List JSONToken)
  | 0, _, _ => .error .prematureEOI
  | _ + 1, _, [] => .error .prematureEOI
  | n + 1, dict, t :: rest =>
    if t.type = .tok .rcurly then .ok (.qdict dict, rest)
    else if t.type ≠ .tok .comma then .error .expectedSeparatorInDict
    else
      match parsePair n dict rest with
      | .error e => .error e
      | .ok (dict', ts') => objectLoop n dict' ts'

/-- `parse_pair(ctxt, dict)`: a string key, `:`, a value not already a
key of `dict`. -/
def parsePair : Nat → QDict → List JSONToken → Except ParseError (QDict × List JSONToken)
  | 0, _, _ => .error .prematureEOI
  | _ + 1, _, [] => .error .prematureEOI
  | n + 1, dict, ts@(_ :: _) =>
    match parseValue n ts with
    | .error e => .error e
    | .ok (.qstring key, t :: rest) =>
      if t.type ≠ .tok .colon then .error .missingColon
      else
        match parseValue n rest with
        | .error e => .error e
        | .ok (value, rest') =>
          if qdictHaskey dict key then .error .duplicateKey
          else .ok (qdictPutObj dict key value, rest')
    | .ok (.qstring _, []) => .error .prematureEOI
    | .ok (_, _) => .error .keyNotString

/-- `parse_array(ctxt)` after its `[` is popped. -/
def parseArray : Nat → List JSONToken → Except ParseError (QObject × List JSONToken)
  | 0, _ => .error .prematureEOI
  | _ + 1, [] => .error .prematureEOI
  | n + 1, ts@(t :: rest) =>
    if t.type = .tok .rsquare then .ok (.qlist [], rest)
    else
      match parseValue n ts with
      | .error e => .error e
      | .ok (v, ts') => arrayLoop n [v] ts'

/-- The `while` loop of `parse_array`; `elems` is the list so far. -/
def arrayLoop : Nat → List QObject → List JSONToken → Except ParseError (QObject × List JSONToken)
  | 0, _, _ => .error .prematureEOI
  | _ + 1, _, [] => .error .prematureEOI
  | n + 1, elems, t :: rest =>
    if t.type = .tok .rsquare then .ok (.qlist elems, rest)
    else if t.type ≠ .tok .comma then .error .expectedSeparatorInList
    else
      match parseValue n rest with
      | .error e => .error e
      | .ok (v, ts') => arrayLoop n (elems ++ [v]) ts'

end

/-- `json_parser_parse(tokens, NULL, errp)`: parse one value; the queue
is drained whatever is left. -/
def jsonParserParse (tokens : List JSONToken) : Except ParseError QObject :=
  (parseValue strtod (2 * tokens.length + 2) tokens).map Prod.fst

end Descent

end QemuFormal.Json

/-
QemuFormal.Json.Writer — `qobject/json-writer.c` and `to_json` /
`qobject_to_json_pretty` of `qobject/qjson.c`.

`JSONWriter` keeps the writer's fields: `pretty`, `need_comma`, the
text written so far, and the stack `container_is_array` (innermost
last). Each `json_writer_*` call is a function on it; `toJson` is
`to_json`, which walks a QObject and a QDict's entries in iteration
order.

`quotedStr` is `quoted_str`: it decodes the string with
`mod_utf8_codepoint` and writes `\"`, `\\`, the five short control
escapes, `\uXXXX` (upper-case hex) below 0x20, from 0x7F to 0xFFFF and
for invalid sequences (as U+FFFD), a surrogate pair above 0xFFFF, and
the byte itself otherwise.

Doubles are printed with `%.17g`, by libc: `fmtDouble` is a parameter.
-/
import QemuFormal.Json.Lexer

namespace QemuFormal.Json

/-- `struct JSONWriter`. -/
structure JSONWriter where
  pretty : Bool
  needComma : Bool
  contents : Bytes
  containerIsArray : List Bool
  deriving DecidableEq, Repr

/-- `json_writer_new(pretty)`. -/
def jsonWriterNew (pretty : Bool) : JSONWriter := ⟨pretty, false, [], []⟩

namespace JSONWriter

/-- Append bytes to `contents`. -/
def append (w : JSONWriter) (s : Bytes) : JSONWriter := { w with contents := w.contents ++ s }

/-- `enter_container`. -/
def enterContainer (w : JSONWriter) (isArray : Bool) : JSONWriter :=
  { w with containerIsArray := w.containerIsArray ++ [isArray], needComma := false }

/-- `leave_container`. -/
def leaveContainer (w : JSONWriter) : JSONWriter :=
  { w with containerIsArray := w.containerIsArray.dropLast, needComma := true }

/-- `in_object`: the innermost container is an object. -/
def inObject (w : JSONWriter) : Bool := w.containerIsArray.getLast? = some false

/-- `"\n%*s"` with four spaces per open container. -/
def newlineIndent (w : JSONWriter) : Bytes :=
  0x0A :: List.replicate (w.containerIsArray.length * 4) 0x20

/-- `pretty_newline`. -/
def prettyNewline (w : JSONWriter) : JSONWriter :=
  if w.pretty then w.append w.newlineIndent else w

/-- `pretty_newline_or_space`. -/
def prettyNewlineOrSpace (w : JSONWriter) : JSONWriter :=
  if w.pretty then w.append w.newlineIndent else w.append [0x20]

end JSONWriter

/-- An upper-case hex digit. -/
def hexDigitUpper (d : Nat) : UInt8 := if d < 10 then (0x30 + d).toUInt8 else (0x41 + d - 10).toUInt8

/-- `%04X` for a value below 0x10000. -/
def hex4 (v : Nat) : Bytes :=
  [hexDigitUpper (v / 4096 % 16), hexDigitUpper (v / 256 % 16), hexDigitUpper (v / 16 % 16),
    hexDigitUpper (v % 16)]

/-- `\uXXXX`. -/
def uEscape (v : Nat) : Bytes := 0x5C :: 0x75 :: hex4 v

/-- What `quoted_str` writes for one decoded code point (`-1` for an
invalid sequence). -/
def escapeCodepoint (cp : Int) : Bytes :=
  if cp = 0x22 then [0x5C, 0x22]
  else if cp = 0x5C then [0x5C, 0x5C]
  else if cp = 0x08 then [0x5C, 0x62]
  else if cp = 0x0C then [0x5C, 0x66]
  else if cp = 0x0A then [0x5C, 0x6E]
  else if cp = 0x0D then [0x5C, 0x72]
  else if cp = 0x09 then [0x5C, 0x74]
  else
    let c : Nat := if cp < 0 then 0xFFFD else cp.toNat
    if c > 0xFFFF then
      uEscape (0xD800 + ((c - 0x10000) >>> 10)) ++ uEscape (0xDC00 + ((c - 0x10000) &&& 0x3FF))
    else if c < 0x20 ∨ c ≥ 0x7F then uEscape c
    else [c.toUInt8]

/-- The loop of `quoted_str`, one sequence at a time. -/
def quotedStrLoop : Nat → Bytes → Bytes
  | 0, _ => []
  | _ + 1, [] => []
  | fuel + 1, s@(_ :: _) =>
    let r := modUtf8Codepoint s 6
    escapeCodepoint r.1 ++ quotedStrLoop fuel (s.drop r.2)

/-- `quoted_str(writer, str)`: the quoted, escaped string. -/
def quotedStr (str : Bytes) : Bytes := 0x22 :: quotedStrLoop str.length str ++ [0x22]

/-- The decimal digits of a natural number. -/
def decimal (n : Nat) : Bytes := (Nat.toDigits 10 n).map (fun c => c.toNat.toUInt8)

/-- `"%" PRId64`. -/
def formatInt64 (v : Int64) : Bytes :=
  if v.toInt < 0 then 0x2D :: decimal v.toInt.natAbs else decimal v.toInt.toNat

namespace JSONWriter

/-- `maybe_comma_name(writer, name)`. -/
def maybeCommaName (w : JSONWriter) (name : Option Bytes) : JSONWriter :=
  let w :=
    if w.needComma then (w.append [0x2C]).prettyNewlineOrSpace
    else { (if w.contents ≠ [] then w.prettyNewline else w) with needComma := true }
  if w.inObject then (w.append (quotedStr (name.getD []))).append [0x3A, 0x20] else w

/-- `json_writer_start_object` / `json_writer_start_array`. -/
def startContainer (w : JSONWriter) (name : Option Bytes) (isArray : Bool) : JSONWriter :=
  ((w.maybeCommaName name).append [if isArray then 0x5B else 0x7B]).enterContainer isArray

/-- `json_writer_end_object` / `json_writer_end_array`. -/
def endContainer (w : JSONWriter) (isArray : Bool) : JSONWriter :=
  (w.leaveContainer.prettyNewline).append [if isArray then 0x5D else 0x7D]

/-- A scalar: `json_writer_null`, `_bool`, `_int64`, `_uint64`,
`_double`, `_str` — the name, then the value's text. -/
def scalar (w : JSONWriter) (name : Option Bytes) (text : Bytes) : JSONWriter :=
  (w.maybeCommaName name).append text

end JSONWriter

section ToJson

variable (fmtDouble : UInt64 → Bytes)

/-- The text of a QNum. -/
def formatQNum : QNum → Bytes
  | .i64 v => formatInt64 v
  | .u64 v => decimal v.toNat
  | .double v => fmtDouble v

mutual

/-- `to_json(writer, name, obj)`. -/
def toJson : JSONWriter → Option Bytes → QObject → JSONWriter
  | w, name, .qnull => w.scalar name (ascii "null")
  | w, name, .qnum n => w.scalar name (formatQNum fmtDouble n)
  | w, name, .qstring s => w.scalar name (quotedStr s)
  | w, name, .qbool b => w.scalar name (ascii (if b then "true" else "false"))
  | w, name, .qdict entries => (toJsonEntries (w.startContainer name false) entries).endContainer false
  | w, name, .qlist elems => (toJsonElems (w.startContainer name true) elems).endContainer true

/-- The entry loop of `to_json` on a QDict. -/
def toJsonEntries : JSONWriter → List (Bytes × QObject) → JSONWriter
  | w, [] => w
  | w, (k, v) :: rest => toJsonEntries (toJson w (some k) v) rest

/-- The element loop of `to_json` on a QList. -/
def toJsonElems : JSONWriter → List QObject → JSONWriter
  | w, [] => w
  | w, v :: rest => toJsonElems (toJson w none v) rest

end

/-- `qobject_to_json_pretty(obj, pretty)`. -/
def qobjectToJsonPretty (obj : QObject) (pretty : Bool) : Bytes :=
  (toJson fmtDouble (jsonWriterNew pretty) none obj).contents

end ToJson

end QemuFormal.Json

/-
QemuFormal.Json.Tokens — the token structure of the text the JSON writer
writes, and the objects the writer and the parser agree on.

The writer's text for an object is a sequence of tokens, each after a
run of JSON whitespace (`Spaced`): the tokens of `jsonTokens`, which
follow the object's structure the way `to_json` walks it — a scalar is
one token, a container is its bracket, its members separated by `,`
(a dict member being the key, `:` and the value), and the closing
bracket. The lexer hands exactly these tokens to the streamer, and the
parser turns them back into the object (`Json.RoundTrip`).

The lexer ends a string or a structural character on its last byte, but
a number or a keyword only on the byte after it, which must not extend
it (`TokenKind.selfDelimiting`, `isDelimiter`). In the writer's text
such a token is always followed by `,`, `]` or `}` (`Apart`).

`jsonSafe` says which objects this covers: no doubles (libc prints them
with `%.17g`), strings that are valid modified UTF-8, and dicts without a
repeated key. `depth` is the nesting the streamer counts.
-/
import Mathlib.Data.List.Chain
import QemuFormal.Json.Writer
import QemuFormal.Json.Resync
import QemuFormal.Util.UnicodeTheorems

namespace QemuFormal.Json

/-! ## Tokens -/

/-- The call `json_message_process_token` gets for a token. -/
def JSONToken.event (t : JSONToken) : LexEvent := ⟨t.str, t.type⟩

/-- Whether the lexer ends a token of this kind with its last byte (a
string, a structural character) rather than at the byte after it (a
number, a keyword). -/
def TokenKind.selfDelimiting : TokenKind → Bool
  | .tok .integer | .tok .float | .tok .keyword => false
  | _ => true

/-- The bytes that end a number or a keyword without extending it:
whitespace, the structural characters, and the NUL of a flush. -/
def isDelimiter (c : UInt8) : Bool :=
  isJsonWs c || c == 0x2C || c == 0x3A || c == 0x5B || c == 0x5D || c == 0x7B || c == 0x7D ||
    c == 0x00

/-- The one-byte tokens. -/
def lcurlyToken : JSONToken := ⟨.tok .lcurly, [0x7B]⟩
def rcurlyToken : JSONToken := ⟨.tok .rcurly, [0x7D]⟩
def lsquareToken : JSONToken := ⟨.tok .lsquare, [0x5B]⟩
def rsquareToken : JSONToken := ⟨.tok .rsquare, [0x5D]⟩
def commaToken : JSONToken := ⟨.tok .comma, [0x2C]⟩
def colonToken : JSONToken := ⟨.tok .colon, [0x3A]⟩

/-- A string token: the quoted, escaped string. -/
def stringToken (s : Bytes) : JSONToken := ⟨.tok .string, quotedStr s⟩

/-- Two adjacent tokens the lexer can tell apart: the first ends itself,
or the second starts with a delimiter. -/
def Apart (t u : JSONToken) : Prop :=
  t.type.selfDelimiting = true ∨ ∃ c cs, u.str = c :: cs ∧ isDelimiter c = true

/-! ## Text made of tokens -/

/-- `text` is the texts of `toks` in order, each after a run of JSON
whitespace. -/
inductive Spaced : List JSONToken → Bytes → Prop
  | nil : Spaced [] []
  | cons {ws : Bytes} {t : JSONToken} {ts : List JSONToken} {rest : Bytes} :
      (∀ c ∈ ws, isJsonWs c = true) → Spaced ts rest → Spaced (t :: ts) (ws ++ t.str ++ rest)

namespace Spaced

theorem single (t : JSONToken) : Spaced [t] t.str := by
  have h : Spaced [t] ([] ++ t.str ++ []) := Spaced.cons (by simp) Spaced.nil
  simpa using h

theorem append {ts us : List JSONToken} {a b : Bytes} (ha : Spaced ts a) (hb : Spaced us b) :
    Spaced (ts ++ us) (a ++ b) := by
  induction ha with
  | nil => simpa using hb
  | cons hws _ ih =>
    simpa [List.append_assoc] using Spaced.cons hws ih

/-- Whitespace before the first token joins its run. -/
theorem blanks {ws text : Bytes} {t : JSONToken} {ts : List JSONToken}
    (hws : ∀ c ∈ ws, isJsonWs c = true) (h : Spaced (t :: ts) text) :
    Spaced (t :: ts) (ws ++ text) := by
  cases h with
  | @cons ws' _ _ _ hws' hrest =>
    have hall : ∀ c ∈ ws ++ ws', isJsonWs c = true := by
      intro c hc
      rcases List.mem_append.mp hc with hc | hc
      · exact hws c hc
      · exact hws' c hc
    simpa [List.append_assoc] using Spaced.cons hall hrest

end Spaced

/-! ## The tokens of an object -/

section Tokens

variable (fmtDouble : UInt64 → Bytes)

mutual

/-- The tokens of the text `to_json` writes for an object. -/
def jsonTokens : QObject → List JSONToken
  | .qnull => [⟨.tok .keyword, ascii "null"⟩]
  | .qbool b => [⟨.tok .keyword, ascii (if b then "true" else "false")⟩]
  | .qnum n => [⟨.tok .integer, formatQNum fmtDouble n⟩]
  | .qstring s => [stringToken s]
  | .qdict entries => lcurlyToken :: entryTokens false entries ++ [rcurlyToken]
  | .qlist elems => lsquareToken :: elemTokens false elems ++ [rsquareToken]

/-- The tokens of a dict's members; `comma` says whether a `,` comes
first. -/
def entryTokens : Bool → List (Bytes × QObject) → List JSONToken
  | _, [] => []
  | comma, (k, v) :: rest =>
    (if comma then [commaToken] else []) ++ stringToken k :: colonToken :: jsonTokens v ++
      entryTokens true rest

/-- The tokens of a list's elements. -/
def elemTokens : Bool → List QObject → List JSONToken
  | _, [] => []
  | comma, v :: rest =>
    (if comma then [commaToken] else []) ++ jsonTokens v ++ elemTokens true rest

end

end Tokens

/-- The total length of the tokens' texts: what the streamer adds up in
`token_size`. -/
def textSize (toks : List JSONToken) : Nat := (toks.map fun t => t.str.length).sum

@[simp] theorem textSize_nil : textSize [] = 0 := rfl

@[simp] theorem textSize_cons (t : JSONToken) (ts : List JSONToken) :
    textSize (t :: ts) = t.str.length + textSize ts := by
  simp [textSize]

@[simp] theorem textSize_append (ts us : List JSONToken) :
    textSize (ts ++ us) = textSize ts + textSize us := by
  simp [textSize]

mutual

/-- How deeply containers nest: the most brackets the streamer counts
open at once. -/
def depth : QObject → Nat
  | .qdict entries => 1 + entriesDepth entries
  | .qlist elems => 1 + elemsDepth elems
  | _ => 0

def entriesDepth : List (Bytes × QObject) → Nat
  | [] => 0
  | (_, v) :: rest => max (depth v) (entriesDepth rest)

def elemsDepth : List QObject → Nat
  | [] => 0
  | v :: rest => max (depth v) (elemsDepth rest)

end

/-! ## The objects the round trip covers -/

mutual

/-- No doubles, strings of valid modified UTF-8 (keys included), and no
dict with a key twice. -/
def jsonSafe : QObject → Bool
  | .qnum (.double _) => false
  | .qstring s => modUtf8Valid s
  | .qdict entries => decide (entries.map Prod.fst).Nodup && entriesSafe entries
  | .qlist elems => elemsSafe elems
  | _ => true

def entriesSafe : List (Bytes × QObject) → Bool
  | [] => true
  | (k, v) :: rest => modUtf8Valid k && jsonSafe v && entriesSafe rest

def elemsSafe : List QObject → Bool
  | [] => true
  | v :: rest => jsonSafe v && elemsSafe rest

end

end QemuFormal.Json

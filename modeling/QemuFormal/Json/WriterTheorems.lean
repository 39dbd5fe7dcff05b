/-
QemuFormal.Json.WriterTheorems — the writer's text is the object's
tokens, each after whitespace.

`toJson_spaced` follows `to_json` through the object: every call adds
to `contents` exactly the tokens of `headTokens` (the `,` and the key
that `maybe_comma_name` writes) and of `jsonTokens`, with only the
newlines and indentation of `pretty_newline`, and the spaces of `", "`
and `": "`, between them; and it leaves the writer as it found it except
that a comma is now due. `qobjectToJsonPretty_spaced` is the case of a
fresh writer, in either pretty setting.
-/
import QemuFormal.Json.Tokens

namespace QemuFormal.Json

/-- The tokens `maybe_comma_name` writes before a value: the `,` if one
is due, and in an object the key and `:`. -/
def headTokens (w : JSONWriter) (name : Option Bytes) : List JSONToken :=
  (if w.needComma then [commaToken] else []) ++
    (if w.inObject then [stringToken (name.getD []), colonToken] else [])

/-- A run of JSON whitespace. -/
def Blank (ws : Bytes) : Prop := ∀ c ∈ ws, isJsonWs c = true

namespace JSONWriter

variable (w : JSONWriter)

@[simp] theorem append_append (a b : Bytes) : (w.append a).append b = w.append (a ++ b) := by
  simp [append, List.append_assoc]

@[simp] theorem inObject_append (a : Bytes) : (w.append a).inObject = w.inObject := rfl

@[simp] theorem inObject_startContainer (name : Option Bytes) (isArray : Bool) :
    (w.startContainer name isArray).inObject = !isArray := by
  cases isArray <;> simp [startContainer, enterContainer, inObject]

@[simp] theorem needComma_startContainer (name : Option Bytes) (isArray : Bool) :
    (w.startContainer name isArray).needComma = false := rfl

theorem blank_newlineIndent : Blank w.newlineIndent := by
  intro c hc
  simp only [newlineIndent, List.mem_cons, List.mem_replicate] at hc
  rcases hc with rfl | ⟨-, rfl⟩ <;> rfl

theorem prettyNewline_eq : ∃ ws, w.prettyNewline = w.append ws ∧ Blank ws := by
  unfold prettyNewline
  split
  · exact ⟨_, rfl, w.blank_newlineIndent⟩
  · exact ⟨[], by simp [append], by simp [Blank]⟩

theorem prettyNewlineOrSpace_eq : ∃ ws, w.prettyNewlineOrSpace = w.append ws ∧ Blank ws := by
  unfold prettyNewlineOrSpace
  split
  · exact ⟨_, rfl, w.blank_newlineIndent⟩
  · exact ⟨[0x20], rfl, by simp [Blank]; rfl⟩

/-- `maybe_comma_name` writes the head tokens and then whitespace, and
makes a comma due. -/
theorem maybeCommaName_eq (name : Option Bytes) :
    ∃ pre ws, w.maybeCommaName name = { w.append (pre ++ ws) with needComma := true } ∧
      Spaced (headTokens w name) pre ∧ Blank ws := by
  -- the separator: `,` and a newline or space, or the first value's newline
  obtain ⟨sep, ws₀, hsep, hspaced, hws₀⟩ : ∃ sep ws₀,
      (if w.needComma then (w.append [0x2C]).prettyNewlineOrSpace
        else { (if w.contents ≠ [] then w.prettyNewline else w) with needComma := true }) =
        { w.append (sep ++ ws₀) with needComma := true } ∧
      Spaced (if w.needComma then [commaToken] else []) sep ∧ Blank ws₀ := by
    by_cases hc : w.needComma = true
    · obtain ⟨ws, hws, hb⟩ := (w.append [0x2C]).prettyNewlineOrSpace_eq
      refine ⟨[0x2C], ws, ?_, by rw [if_pos hc]; exact Spaced.single commaToken, hb⟩
      rw [if_pos hc, hws]
      cases w
      simp_all [append]
    · have hcf : w.needComma = false := by simpa using hc
      obtain ⟨ws, hws, hb⟩ : ∃ ws, (if w.contents ≠ [] then w.prettyNewline else w) = w.append ws ∧
          Blank ws := by
        split
        · exact w.prettyNewline_eq
        · exact ⟨[], by simp [append], by simp [Blank]⟩
      refine ⟨[], ws, ?_, by simpa [hcf] using Spaced.nil, hb⟩
      rw [if_neg hc, hws]
      simp
  have hin : ({ w.append (sep ++ ws₀) with needComma := true } : JSONWriter).inObject = w.inObject :=
    rfl
  unfold maybeCommaName
  simp only [hsep, hin]
  by_cases hobj : w.inObject = true
  · -- in an object: the key and `: ` follow
    refine ⟨sep ++ ws₀ ++ quotedStr (name.getD []) ++ [0x3A], [0x20], ?_, ?_, by simp [Blank]; rfl⟩
    · simp [hobj, append, List.append_assoc]
    · have hkey : Spaced [stringToken (name.getD []), colonToken]
          (ws₀ ++ quotedStr (name.getD []) ++ [0x3A]) :=
        Spaced.cons hws₀ (Spaced.single colonToken)
      simpa [headTokens, hobj, List.append_assoc] using hspaced.append hkey
  · refine ⟨sep, ws₀, ?_, ?_, hws₀⟩
    · simp [hobj]
    · simpa [headTokens, hobj] using hspaced

end JSONWriter

section ToJson

variable (fmtDouble : UInt64 → Bytes)

/-- A scalar: the head tokens, then its one token. -/
theorem scalar_spaced (w : JSONWriter) (name : Option Bytes) (t : JSONToken) :
    ∃ text, w.scalar name t.str = { w with contents := w.contents ++ text, needComma := true } ∧
      Spaced (headTokens w name ++ [t]) text := by
  obtain ⟨pre, ws, h, hpre, hws⟩ := w.maybeCommaName_eq name
  refine ⟨pre ++ (ws ++ t.str), ?_, hpre.append (Spaced.blanks hws (Spaced.single t))⟩
  simp [JSONWriter.scalar, h, JSONWriter.append, List.append_assoc]

/-- A container: the head tokens, the opening bracket, what is written
inside it, whitespace, and the closing bracket; the container stack is
back where it was. -/
theorem container_spaced (w : JSONWriter) (name : Option Bytes) (isArray : Bool)
    (inside : JSONWriter) (opening closing : JSONToken) (inner : List JSONToken) (text : Bytes)
    (nc : Bool) (hopen : opening.str = [if isArray then 0x5B else 0x7B])
    (hclose : closing.str = [if isArray then 0x5D else 0x7D])
    (hinside : inside = { w.startContainer name isArray with
      contents := (w.startContainer name isArray).contents ++ text, needComma := nc })
    (hinner : Spaced inner text) :
    ∃ text', inside.endContainer isArray = { w with contents := w.contents ++ text', needComma := true } ∧
      Spaced (headTokens w name ++ opening :: inner ++ [closing]) text' := by
  obtain ⟨pre, ws, h, hpre, hws⟩ := w.maybeCommaName_eq name
  have hstart : w.startContainer name isArray =
      { w with
        contents := w.contents ++ (pre ++ ws ++ opening.str)
        needComma := false
        containerIsArray := w.containerIsArray ++ [isArray] } := by
    simp [JSONWriter.startContainer, h, JSONWriter.enterContainer, JSONWriter.append, hopen,
      List.append_assoc]
  obtain ⟨ws', hnl, hws'⟩ := inside.leaveContainer.prettyNewline_eq
  refine ⟨pre ++ ws ++ opening.str ++ text ++ ws' ++ closing.str, ?_, ?_⟩
  · rw [JSONWriter.endContainer, hnl, hclose, hinside, hstart]
    simp [JSONWriter.leaveContainer, JSONWriter.append, List.append_assoc]
  · have hrest : Spaced (inner ++ [closing]) (text ++ (ws' ++ closing.str)) :=
      hinner.append (by simpa using Spaced.cons (t := closing) hws' Spaced.nil)
    have hopen' := Spaced.cons (t := opening) hws hrest
    simpa [List.append_assoc] using hpre.append hopen'

mutual

/-- **What `to_json` writes**: the head tokens and the object's tokens,
whitespace between them; the writer is left as it was, with a comma due. -/
theorem toJson_spaced : ∀ (w : JSONWriter) (name : Option Bytes) (o : QObject), ∃ text,
    toJson fmtDouble w name o = { w with contents := w.contents ++ text, needComma := true } ∧
      Spaced (headTokens w name ++ jsonTokens fmtDouble o) text
  | w, name, .qnull => by
    rw [toJson, jsonTokens]; exact scalar_spaced w name ⟨.tok .keyword, ascii "null"⟩
  | w, name, .qnum n => by
    rw [toJson, jsonTokens]; exact scalar_spaced w name ⟨.tok .integer, formatQNum fmtDouble n⟩
  | w, name, .qstring s => by
    rw [toJson, jsonTokens]; exact scalar_spaced w name (stringToken s)
  | w, name, .qbool b => by
    rw [toJson, jsonTokens]
    exact scalar_spaced w name ⟨.tok .keyword, ascii (if b then "true" else "false")⟩
  | w, name, .qdict entries => by
    obtain ⟨text, h, hs⟩ :=
      toJsonEntries_spaced (w.startContainer name false) entries (by simp)
    rw [JSONWriter.needComma_startContainer] at hs
    obtain ⟨text', h', hs'⟩ :=
      container_spaced w name false _ lcurlyToken rcurlyToken _ text _ rfl rfl h hs
    rw [toJson, jsonTokens]
    exact ⟨text', h', by simpa [List.append_assoc] using hs'⟩
  | w, name, .qlist elems => by
    obtain ⟨text, h, hs⟩ := toJsonElems_spaced (w.startContainer name true) elems (by simp)
    rw [JSONWriter.needComma_startContainer] at hs
    obtain ⟨text', h', hs'⟩ :=
      container_spaced w name true _ lsquareToken rsquareToken _ text _ rfl rfl h hs
    rw [toJson, jsonTokens]
    exact ⟨text', h', by simpa [List.append_assoc] using hs'⟩

/-- The members of a dict, each with its key. -/
theorem toJsonEntries_spaced : ∀ (w : JSONWriter) (entries : List (Bytes × QObject)),
    w.inObject = true → ∃ text,
      toJsonEntries fmtDouble w entries =
        { w with contents := w.contents ++ text, needComma := w.needComma || !entries.isEmpty } ∧
      Spaced (entryTokens fmtDouble w.needComma entries) text
  | w, [], _ => ⟨[], by simp [toJsonEntries], by simpa [entryTokens] using Spaced.nil⟩
  | w, (k, v) :: rest, hobj => by
    obtain ⟨t₁, h₁, hs₁⟩ := toJson_spaced w (some k) v
    obtain ⟨t₂, h₂, hs₂⟩ :=
      toJsonEntries_spaced { w with contents := w.contents ++ t₁, needComma := true } rest hobj
    refine ⟨t₁ ++ t₂, ?_, ?_⟩
    · rw [toJsonEntries, h₁, h₂]
      simp [List.append_assoc]
    · simpa [entryTokens, headTokens, hobj, List.append_assoc] using hs₁.append hs₂

/-- The elements of a list. -/
theorem toJsonElems_spaced : ∀ (w : JSONWriter) (elems : List QObject),
    w.inObject = false → ∃ text,
      toJsonElems fmtDouble w elems =
        { w with contents := w.contents ++ text, needComma := w.needComma || !elems.isEmpty } ∧
      Spaced (elemTokens fmtDouble w.needComma elems) text
  | w, [], _ => ⟨[], by simp [toJsonElems], by simpa [elemTokens] using Spaced.nil⟩
  | w, v :: rest, hobj => by
    obtain ⟨t₁, h₁, hs₁⟩ := toJson_spaced w none v
    obtain ⟨t₂, h₂, hs₂⟩ :=
      toJsonElems_spaced { w with contents := w.contents ++ t₁, needComma := true } rest hobj
    refine ⟨t₁ ++ t₂, ?_, ?_⟩
    · rw [toJsonElems, h₁, h₂]
      simp [List.append_assoc]
    · simpa [elemTokens, headTokens, hobj, List.append_assoc] using hs₁.append hs₂

end

/-- **The writer's text is the object's tokens**, each after whitespace,
in either pretty setting. -/
theorem qobjectToJsonPretty_spaced (o : QObject) (pretty : Bool) :
    Spaced (jsonTokens fmtDouble o) (qobjectToJsonPretty fmtDouble o pretty) := by
  obtain ⟨text, h, hs⟩ := toJson_spaced fmtDouble (jsonWriterNew pretty) none o
  have hhead : headTokens (jsonWriterNew pretty) none = [] := rfl
  rw [hhead, List.nil_append] at hs
  rw [qobjectToJsonPretty, h]
  simpa [jsonWriterNew] using hs

end ToJson

/-! ## Decimal digits -/

/-- `decimal` a digit at a time: the digits of `n / 10`, then the last. -/
theorem decimal_eq (n : Nat) :
    decimal n =
      if n < 10 then [(48 + n).toUInt8] else decimal (n / 10) ++ [(48 + n % 10).toUInt8] := by
  unfold decimal
  rw [Nat.toDigits_eq_if (by decide)]
  split
  · rename_i h
    simp [Nat.toNat_digitChar_of_lt_ten h]
  · simp [Nat.toNat_digitChar_of_lt_ten (Nat.mod_lt n (by decide))]

theorem digit_byte : ∀ d < 10, isDigitByte (48 + d).toUInt8 = true ∧
    ((48 + d).toUInt8.toNat - 0x30 = d) ∧ (0 < d → (48 + d).toUInt8 ≠ 0x30) := by
  decide

theorem decimal_zero : decimal 0 = [0x30] := rfl

/-- Every byte of `decimal n` is a digit. -/
theorem decimal_digits (n : Nat) : ∀ x ∈ decimal n, isDigitByte x = true := by
  rw [decimal_eq]
  split
  · rename_i h
    intro x hx
    rw [List.mem_singleton.mp hx]
    exact (digit_byte n h).1
  · intro x hx
    rcases List.mem_append.mp hx with hx | hx
    · exact decimal_digits (n / 10) x hx
    · rw [List.mem_singleton.mp hx]
      exact (digit_byte (n % 10) (Nat.mod_lt n (by decide))).1
termination_by n
decreasing_by omega

/-- A positive number's digits do not start with `0`. -/
theorem decimal_head (n : Nat) (hn : 0 < n) : ∃ d ds, decimal n = d :: ds ∧ d ≠ 0x30 := by
  rw [decimal_eq]
  split
  · rename_i h
    exact ⟨_, [], rfl, (digit_byte n h).2.2 hn⟩
  · obtain ⟨d, ds, hds, hd⟩ := decimal_head (n / 10) (by omega)
    exact ⟨d, ds ++ [(48 + n % 10).toUInt8], by rw [hds]; rfl, hd⟩
termination_by n
decreasing_by omega

/-- The value of the digits is the number. -/
theorem digitsValue_decimal (n : Nat) : digitsValue (decimal n) = n := by
  rw [decimal_eq]
  split
  · rename_i h
    simp only [digitsValue, List.foldl_cons, List.foldl_nil, (digit_byte n h).2.1]
    omega
  · have ih := digitsValue_decimal (n / 10)
    have hlast := (digit_byte (n % 10) (Nat.mod_lt n (by decide))).2.1
    simp only [digitsValue, List.foldl_append, List.foldl_cons, List.foldl_nil] at ih ⊢
    rw [ih, hlast]
    omega
termination_by n
decreasing_by omega

/-! ## The writer's tokens -/

/-- The tokens the writer writes: a structural character, a keyword, an
integer, or a string. -/
inductive WriterToken : JSONToken → Prop
  | lcurly : WriterToken lcurlyToken
  | rcurly : WriterToken rcurlyToken
  | lsquare : WriterToken lsquareToken
  | rsquare : WriterToken rsquareToken
  | comma : WriterToken commaToken
  | colon : WriterToken colonToken
  | null : WriterToken ⟨.tok .keyword, ascii "null"⟩
  | bool (b : Bool) : WriterToken ⟨.tok .keyword, ascii (if b then "true" else "false")⟩
  | i64 (v : Int64) : WriterToken ⟨.tok .integer, formatInt64 v⟩
  | u64 (v : UInt64) : WriterToken ⟨.tok .integer, decimal v.toNat⟩
  | string (s : Bytes) : WriterToken (stringToken s)

section Tokens

variable (fmtDouble : UInt64 → Bytes)

mutual

/-- Without doubles, every token of the text is one the writer writes. -/
theorem writerToken_jsonTokens : ∀ (o : QObject), jsonSafe o = true →
    ∀ t ∈ jsonTokens fmtDouble o, WriterToken t
  | .qnull, _, t, ht => by
    simp only [jsonTokens, List.mem_singleton] at ht; subst ht; exact .null
  | .qbool b, _, t, ht => by
    simp only [jsonTokens, List.mem_singleton] at ht; subst ht; exact .bool b
  | .qnum (.i64 v), _, t, ht => by
    simp only [jsonTokens, List.mem_singleton] at ht; subst ht; exact .i64 v
  | .qnum (.u64 v), _, t, ht => by
    simp only [jsonTokens, List.mem_singleton] at ht; subst ht; exact .u64 v
  | .qnum (.double _), h, _, _ => by simp [jsonSafe] at h
  | .qstring s, _, t, ht => by
    simp only [jsonTokens, List.mem_singleton] at ht; subst ht; exact .string s
  | .qdict entries, h, t, ht => by
    simp only [jsonSafe, Bool.and_eq_true] at h
    simp only [jsonTokens, List.cons_append, List.mem_cons, List.mem_append,
      List.not_mem_nil, or_false] at ht
    rcases ht with rfl | ht | rfl
    · exact .lcurly
    · exact writerToken_entryTokens entries h.2 false t ht
    · exact .rcurly
  | .qlist elems, h, t, ht => by
    simp only [jsonSafe] at h
    simp only [jsonTokens, List.cons_append, List.mem_cons, List.mem_append,
      List.not_mem_nil, or_false] at ht
    rcases ht with rfl | ht | rfl
    · exact .lsquare
    · exact writerToken_elemTokens elems h false t ht
    · exact .rsquare

theorem writerToken_entryTokens : ∀ (entries : List (Bytes × QObject)), entriesSafe entries = true →
    ∀ (comma : Bool), ∀ t ∈ entryTokens fmtDouble comma entries, WriterToken t
  | [], _, _, t, ht => by simp [entryTokens] at ht
  | (k, v) :: rest, h, comma, t, ht => by
    simp only [entriesSafe, Bool.and_eq_true] at h
    simp only [entryTokens, List.mem_append, List.mem_cons] at ht
    rcases ht with ((hc | rfl | rfl | hv) | hr)
    · split at hc
      · rw [List.mem_singleton.mp hc]; exact .comma
      · simp at hc
    · exact .string k
    · exact .colon
    · exact writerToken_jsonTokens v h.1.2 t hv
    · exact writerToken_entryTokens rest h.2 true t hr

theorem writerToken_elemTokens : ∀ (elems : List QObject), elemsSafe elems = true →
    ∀ (comma : Bool), ∀ t ∈ elemTokens fmtDouble comma elems, WriterToken t
  | [], _, _, t, ht => by simp [elemTokens] at ht
  | v :: rest, h, comma, t, ht => by
    simp only [elemsSafe, Bool.and_eq_true] at h
    simp only [elemTokens, List.mem_append] at ht
    rcases ht with ((hc | hv) | hr)
    · split at hc
      · rw [List.mem_singleton.mp hc]; exact .comma
      · simp at hc
    · exact writerToken_jsonTokens v h.1 t hv
    · exact writerToken_elemTokens rest h.2 true t hr

end

/-! ## Held tokens are followed by a delimiter -/

theorem apart_of_selfDelimiting {t : JSONToken} (h : t.type.selfDelimiting = true) (u : JSONToken) :
    Apart t u := Or.inl h

theorem apart_of_delimiter (t : JSONToken) {u : JSONToken} {c : UInt8} (hu : u.str = [c])
    (hc : isDelimiter c = true) : Apart t u := Or.inr ⟨c, [], hu, hc⟩

/-- Joining two chains where the second starts with a one-byte delimiter. -/
theorem isChain_append_delimiter {a b : List JSONToken} (ha : a.IsChain Apart) (hb : b.IsChain Apart)
    (hhead : ∀ y ∈ b.head?, ∃ c, y.str = [c] ∧ isDelimiter c = true) : (a ++ b).IsChain Apart :=
  ha.append hb fun x _ y hy => by
    obtain ⟨c, hc, hd⟩ := hhead y hy
    exact apart_of_delimiter x hc hd

/-- Joining two chains where the first ends with a self-delimiting token. -/
theorem isChain_append_self {a b : List JSONToken} (ha : a.IsChain Apart) (hb : b.IsChain Apart)
    (hlast : ∀ x ∈ a.getLast?, x.type.selfDelimiting = true) : (a ++ b).IsChain Apart :=
  ha.append hb fun x hx y _ => apart_of_selfDelimiting (hlast x hx) y

theorem isChain_cons_self {t : JSONToken} {b : List JSONToken} (ht : t.type.selfDelimiting = true)
    (hb : b.IsChain Apart) : (t :: b).IsChain Apart :=
  List.isChain_cons.mpr ⟨fun y _ => apart_of_selfDelimiting ht y, hb⟩

/-- The separator: nothing, or a comma. -/
theorem isChain_comma (comma : Bool) :
    (if comma then [commaToken] else []).IsChain Apart ∧
      ∀ x ∈ (if comma then [commaToken] else []).getLast?, x.type.selfDelimiting = true := by
  cases comma <;> simp [commaToken, TokenKind.selfDelimiting]

theorem head_entryTokens (rest : List (Bytes × QObject)) :
    ∀ y ∈ (entryTokens fmtDouble true rest).head?, ∃ c, y.str = [c] ∧ isDelimiter c = true := by
  cases rest with
  | nil => simp [entryTokens]
  | cons e rest => intro y hy; simp [entryTokens] at hy; subst hy; exact ⟨0x2C, rfl, rfl⟩

theorem head_elemTokens (rest : List QObject) :
    ∀ y ∈ (elemTokens fmtDouble true rest).head?, ∃ c, y.str = [c] ∧ isDelimiter c = true := by
  cases rest with
  | nil => simp [elemTokens]
  | cons v rest => intro y hy; simp [elemTokens] at hy; subst hy; exact ⟨0x2C, rfl, rfl⟩

mutual

/-- **A held token is always followed by a delimiter**: a number or a
keyword ends a value, and after a value comes `,`, `]` or `}`. -/
theorem isChain_jsonTokens : ∀ o : QObject, (jsonTokens fmtDouble o).IsChain Apart
  | .qnull => by simp [jsonTokens]
  | .qbool _ => by simp [jsonTokens]
  | .qnum _ => by simp [jsonTokens]
  | .qstring _ => by simp [jsonTokens]
  | .qdict entries => by
    rw [jsonTokens]
    exact isChain_append_delimiter (isChain_cons_self rfl (isChain_entryTokens entries false))
      (by simp) (by simp [rcurlyToken]; rfl)
  | .qlist elems => by
    rw [jsonTokens]
    exact isChain_append_delimiter (isChain_cons_self rfl (isChain_elemTokens elems false))
      (by simp) (by simp [rsquareToken]; rfl)

theorem isChain_entryTokens : ∀ (entries : List (Bytes × QObject)) (comma : Bool),
    (entryTokens fmtDouble comma entries).IsChain Apart
  | [], _ => by simp [entryTokens]
  | (k, v) :: rest, comma => by
    rw [entryTokens]
    obtain ⟨hc, hlast⟩ := isChain_comma comma
    have hpair : (stringToken k :: colonToken :: jsonTokens fmtDouble v).IsChain Apart :=
      isChain_cons_self rfl (isChain_cons_self rfl (isChain_jsonTokens v))
    exact isChain_append_delimiter (isChain_append_self hc hpair hlast)
      (isChain_entryTokens rest true) (head_entryTokens fmtDouble rest)

theorem isChain_elemTokens : ∀ (elems : List QObject) (comma : Bool),
    (elemTokens fmtDouble comma elems).IsChain Apart
  | [], _ => by simp [elemTokens]
  | v :: rest, comma => by
    rw [elemTokens]
    obtain ⟨hc, hlast⟩ := isChain_comma comma
    exact isChain_append_delimiter (isChain_append_self hc (isChain_jsonTokens v) hlast)
      (isChain_elemTokens rest true) (head_elemTokens fmtDouble rest)

end

end Tokens

end QemuFormal.Json

/-
QemuFormal.Util.Keyval — `util/keyval.c`: parsing `KEY=VALUE,...`.

`keyvalParse` is `keyval_parse(params, implied_key, p_help)`. It runs
`keyval_parse_one` over the input, building nested QDicts on demand
through `keyval_parse_put`, then `keyval_listify` turns every QDict whose
keys are all list indexes into a QList.

Two things of the C code shape the model:

* `keyval_parse_one` walks the key fragments with a cursor `s` and a
  current dict `cur` that it mutates in place. Here `cur` is passed down
  the recursion of `keyvalFragments` and the updated child is put back
  into its parent on the way out, which is what the in-place mutation
  does to the tree. Puts and checks happen in the C order: fragment
  `i + 1` is checked before fragment `i` is entered as a QDict.
* `keyval_listify` reads a QDict in its iteration order
  (`QObject.Core`: chains of `tdb_hash`), so which of two keys with the
  same list index (`1` and `01`) fills the element is decided by the
  hash, as in C.

Loops that advance a cursor take a fuel argument set to the input
length plus one; each iteration consumes at least one byte.
-/
import QemuFormal.Util.Unicode

namespace QemuFormal.Keyval

/-- The errors `keyval_parse` reports, with their `%` arguments. -/
inductive KeyvalError where
  /-- "Invalid parameter '%.*s'" (the whole key). -/
  | invalidParameter (key : Bytes)
  /-- "Parameter%s '%.*s' is too long" (`" fragment"` when `fragment`). -/
  | parameterTooLong (fragment : Bool) (name : Bytes)
  /-- "Parameters '%.*s.*' used inconsistently", from `keyval_parse_put`. -/
  | usedInconsistently (key : Bytes)
  /-- "Parameters '%s*' used inconsistently", from `keyval_listify`. -/
  | listUsedInconsistently (key : Bytes)
  /-- "Expected '=' after parameter '%.*s'". -/
  | expectedEquals (key : Bytes)
  /-- "Help is not available for this option". -/
  | helpNotAvailable
  /-- "Parameter '%s%d' missing". -/
  | parameterMissing (key : Bytes) (index : Nat)
  deriving DecidableEq

/-- `INT_MAX`. -/
def intMax : Int := 2 ^ 31 - 1

/-- `key_to_index(key, hasEnd ? &end : NULL)`: the index of the leading
digits capped at `INT_MAX` (or a negative errno), and the offset `*end`
is set to. -/
def keyToIndex (key : Bytes) (hasEnd : Bool) : Int × Nat :=
  if byteAt key 0 < 0x30 ∨ byteAt key 0 > 0x39 then (-einval, 0)
  else
    let r := qemuStrtoul key hasEnd
    if r.ret ≠ 0 then (if r.ret = -erange then intMax else r.ret, r.endOfs)
    else (if (r.value : Int) ≤ intMax then r.value else intMax, r.endOfs)

/-- `starts_with_help_option`: 1 for `?`, 4 for a `help` prefix, else 0. -/
def startsWithHelpOption (s : Bytes) : Nat :=
  if byteAt s 0 = 0x3F then 1
  else if s.take 4 = [0x68, 0x65, 0x6C, 0x70] then 4
  else 0

/-- `parse_qapi_name(str, false)`: the length of the QAPI name at the
start of `s` (after an optional downstream `__RFQDN_` prefix), or -1. -/
def parseQapiName (s : Bytes) : Int :=
  let afterPrefix : Option Nat :=
    if byteAt s 0 = 0x5F then
      if byteAt s 1 ≠ 0x5F then none
      else
        let q := 2 + ((s.drop 2).takeWhile
          (fun c => cIsalnum c || c == 0x2D || c == 0x2E)).length
        if byteAt s q ≠ 0x5F then none else some (q + 1)
    else some 0
  match afterPrefix with
  | none => -1
  | some p =>
    if !cIsalpha (byteAt s p) then -1
    else (p + 1 + ((s.drop (p + 1)).takeWhile
      (fun c => cIsalnum c || c == 0x2D || c == 0x5F)).length : Nat)

/-- `qobject_to(QDict, obj)`. -/
def toQDict? : QObject → Option QDict
  | .qdict d => some d
  | _ => none

/-- `keyval_parse_put(cur, key_in_cur, value, key, key_cursor)`: map
`keyInCur` to a QDict (`value = none`) or to the QString `value`.
`errKey` is the key up to `key_cursor`, for the error. On success, the
updated `cur` and the object now mapped. -/
def keyvalParsePut (cur : QDict) (keyInCur : Bytes) (value : Option Bytes) (errKey : Bytes) :
    Except KeyvalError (QDict × QObject) :=
  match qdictGet cur keyInCur with
  | some old =>
    if old.qobjectType ≠ (if value.isSome then QType.qstring else QType.qdict) then
      .error (.usedInconsistently errKey)
    else
      match value with
      | none => .ok (cur, old)
      | some v => .ok (qdictPutObj cur keyInCur (.qstring v), .qstring v)
  | none =>
    let new : QObject :=
      match value with
      | some v => .qstring v
      | none => .qdict []
    .ok (qdictPutObj cur keyInCur new, new)

/-- The value loop of `keyval_parse_one`: `,,` stands for a comma, a
single `,` or the end stops it. The value, and the input after the
separating comma. -/
def parseVal : Bytes → Bytes × Bytes
  | [] => ([], [])
  | 0x2C :: 0x2C :: rest => let r := parseVal rest; (0x2C :: r.1, r.2)
  | 0x2C :: rest => ([], rest)
  | c :: rest => let r := parseVal rest; (c :: r.1, r.2)

/-- What follows the fragment loop of `keyval_parse_one`: with the
implied key, the value is `params` up to `valEnd`; else `=` must follow
the key and the value loop runs. Then the value is put under the last
fragment `here`. On success the updated `cur` and the rest of the input. -/
def keyvalFinish (params key : Bytes) (keyEnd : Nat) (valEnd : Option Nat)
    (cur : QDict) (here : Bytes) (s : Nat) : Except KeyvalError (QDict × Bytes) :=
  let valRest : Except KeyvalError (Bytes × Bytes) :=
    match valEnd with
    | some e =>
      let rest := params.drop e
      .ok (params.take e, if rest.head? = some 0x2C then rest.tail else rest)
    | none =>
      if byteAt key s ≠ 0x3D then .error (.expectedEquals (key.take s))
      else .ok (parseVal (params.drop (s + 1)))
  match valRest with
  | .error e => .error e
  | .ok (val, rest) =>
    match keyvalParsePut cur here (some val) (key.take keyEnd) with
    | .error e => .error e
    | .ok (cur', _) => .ok (cur', rest)

/-- The fragment loop of `keyval_parse_one`. `s` is the offset of the
current fragment in `key`; `prev` is `key_in_cur`, the previous fragment,
absent exactly when `s` is the start of the key. Entering the previous
fragment as a QDict happens after the current one is checked. -/
def keyvalFragments (params key : Bytes) (keyEnd : Nat) (valEnd : Option Nat) :
    Nat → QDict → Option Bytes → Nat → Except KeyvalError (QDict × Bytes)
  | 0, _, _, _ => .error (.invalidParameter (key.take keyEnd))
  | fuel + 1, cur, prev, s =>
    let frag := key.drop s
    let idx := keyToIndex frag true
    let len : Nat :=
      if s ≠ 0 ∧ idx.1 ≥ 0 then idx.2
      else let r := parseQapiName frag; if r < 0 then 0 else r.toNat
    if len = 0 ∨ (s + len < keyEnd ∧ byteAt key (s + len) ≠ 0x2E) then
      .error (.invalidParameter (key.take keyEnd))
    else if len ≥ 128 then
      .error (.parameterTooLong (s ≠ 0 ∨ s + len ≠ keyEnd) (frag.take len))
    else
      let here := frag.take len
      let next (d : QDict) : Except KeyvalError (QDict × Bytes) :=
        if byteAt key (s + len) ≠ 0x2E then keyvalFinish params key keyEnd valEnd d here (s + len)
        else keyvalFragments params key keyEnd valEnd fuel d (some here) (s + len + 1)
      match prev with
      | none => next cur
      | some p =>
        match keyvalParsePut cur p none (key.take (s - 1)) with
        | .error e => .error e
        | .ok (cur', child) =>
          match toQDict? child with
          -- unreachable: a put without value maps to a QDict
          | none => .error (.usedInconsistently (key.take (s - 1)))
          | some d =>
            match next d with
            | .error e => .error e
            | .ok (d', rest) => .ok (qdictPutObj cur' p (.qdict d'), rest)

/-- `keyval_parse_one(qdict, params, implied_key, &help)`: the updated
dict, the input after this parameter, and the help flag. -/
def keyvalParseOne (qdict : QDict) (params : Bytes) (impliedKey : Option Bytes) (help : Bool) :
    Except KeyvalError (QDict × Bytes × Bool) :=
  let len := (params.takeWhile (fun c => c != 0x3D && c != 0x2C)).length
  let run (key : Bytes) (keyEnd : Nat) (valEnd : Option Nat) :
      Except KeyvalError (QDict × Bytes × Bool) :=
    match keyvalFragments params key keyEnd valEnd (key.length + 1) qdict none 0 with
    | .error e => .error e
    | .ok (d, rest) => .ok (d, rest, help)
  if len ≠ 0 ∧ byteAt params len ≠ 0x3D then
    if startsWithHelpOption params = len then
      let s := params.drop len
      .ok (qdict, (if s.head? = some 0x2C then s.tail else s), true)
    else
      match impliedKey with
      | some ik => run ik ik.length (some len)
      | none => run params len none
  else run params len none

/-- The parameter loop of `keyval_parse_into`: `implied_key` applies to
the first parameter only. -/
def keyvalParseLoop : Nat → QDict → Bytes → Option Bytes → Bool →
    Except KeyvalError (QDict × Bool)
  | _, qdict, [], _, help => .ok (qdict, help)
  | 0, qdict, _, _, help => .ok (qdict, help)
  | fuel + 1, qdict, s@(_ :: _), impliedKey, help =>
    match keyvalParseOne qdict s impliedKey help with
    | .error e => .error e
    | .ok (qdict', s', help') => keyvalParseLoop fuel qdict' s' none help'

/-- `reassemble_key`: the fragments of `key_of_cur` (innermost first),
outermost first, each followed by a dot. -/
def reassembleKey (keyOfCur : List Bytes) : Bytes :=
  keyOfCur.foldl (fun s k => k ++ 0x2E :: s) []

/-- The index a listified key stands for (`key_to_index(key, NULL)`). -/
def keyIndex (key : Bytes) : Int := (keyToIndex key false).1

/-- The element loop of `keyval_listify`: `elt[index] = value` for every
entry, in iteration order, skipping indexes at or past `nelt - 1`. -/
def listifyElements (nelt : Nat) (entries : QDict) : List (Option QObject) :=
  entries.foldl
    (fun elt e =>
      let index := (keyIndex e.1).toNat
      if index ≥ nelt - 1 then elt else elt.set index (some e.2))
    (List.replicate nelt none)

/-- The list loop of `keyval_listify`: elements `0 .. n - 1`, reporting
the first missing one. -/
def listifyCollect (keyOfCur : List Bytes) (elt : List (Option QObject)) :
    Nat → Nat → Except KeyvalError (List QObject)
  | 0, _ => .ok []
  | n + 1, i =>
    match elt.getD i none with
    | none => .error (.parameterMissing (reassembleKey keyOfCur) i)
    | some v =>
      match listifyCollect keyOfCur elt n (i + 1) with
      | .error e => .error e
      | .ok vs => .ok (v :: vs)

/-- The part of `keyval_listify` after its first loop: given the
members (already listified), keep the QDict when no key is an index,
fail when keys of both kinds occur, else build the QList. -/
def listifyFinish (keyOfCur : List Bytes) (entries : QDict) : Except KeyvalError QObject :=
  let hasIndex := entries.any (fun e => decide (keyIndex e.1 ≥ 0))
  let hasMember := entries.any (fun e => decide (keyIndex e.1 < 0))
  if hasIndex ∧ hasMember then .error (.listUsedInconsistently (reassembleKey keyOfCur))
  else if !hasIndex then .ok (.qdict entries)
  else
    let nelt := entries.length + 1
    let maxIndex : Int := entries.foldl (fun m e => max m (keyIndex e.1)) (-1)
    match listifyCollect keyOfCur (listifyElements nelt entries)
        (min nelt (maxIndex + 1).toNat) 0 with
    | .error e => .error e
    | .ok vs => .ok (.qlist vs)

mutual

/-- One member in the first loop of `keyval_listify`: a QDict member is
listified recursively (its `key_of_cur` is the member's key, then the
parent's), any other member is kept. -/
def listifyValue : QObject → List Bytes → Except KeyvalError QObject
  | .qdict d, keyOfCur =>
    match listifyMembers d keyOfCur with
    | .error e => .error e
    | .ok entries => listifyFinish keyOfCur entries
  | other, _ => .ok other

/-- The first loop of `keyval_listify`: listify every member, in
iteration order, replacing it in place. -/
def listifyMembers : QDict → List Bytes → Except KeyvalError QDict
  | [], _ => .ok []
  | (k, v) :: rest, keyOfCur =>
    match listifyValue v (k :: keyOfCur) with
    | .error e => .error e
    | .ok w =>
      match listifyMembers rest keyOfCur with
      | .error e => .error e
      | .ok rest' => .ok ((k, w) :: rest')

end

/-- `keyval_listify(cur, key_of_cur)`. -/
def keyvalListify (cur : QDict) (keyOfCur : List Bytes) : Except KeyvalError QObject :=
  match listifyMembers cur keyOfCur with
  | .error e => .error e
  | .ok entries => listifyFinish keyOfCur entries

/-- `keyval_parse(params, implied_key, p_help)` with `p_help` non-NULL
when `wantHelp`: the listified root and the help flag. -/
def keyvalParse (params : Bytes) (impliedKey : Option Bytes) (wantHelp : Bool) :
    Except KeyvalError (QObject × Bool) :=
  match keyvalParseLoop (params.length + 1) [] params impliedKey false with
  | .error e => .error e
  | .ok (qdict, help) =>
    if !wantHelp ∧ help then .error .helpNotAvailable
    else
      match keyvalListify qdict [] with
      | .error e => .error e
      | .ok listified => .ok (listified, if wantHelp then help else false)

end QemuFormal.Keyval

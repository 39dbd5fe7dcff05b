/-
QemuFormal.QObject.BlockQdict — the QDict helpers of
`qobject/block-qdict.c` and the `qdict_del` of `qobject/qdict.c`.

* `qdictDel` unlinks the entry with the key from its chain.
* `qdictCountPrefixedEntries` counts the keys with a prefix, and gives
  `-ERANGE` rather than count past `INT_MAX`.
* `qdictExtractSubqdict` walks the entries once, in order (the next entry
  is read before the current one is deleted), moving those with the
  prefix into a new QDict under the rest of their key.
* `qdictArraySplit` and `qdictArrayEntries` scan indices `0, 1, …` for a
  key `"%u"` or keys prefixed `"%u."`; the first runs to `UINT_MAX`, the
  second to `INT_MAX`, and each loop bound is the fuel of its model.
  `qdict_array_entries`'s count `entries` is `unsigned`, kept modulo
  `2^32`.

`qdict_array_split`'s `assert(qdict_size(subqdict) > 0)` holds whenever
it is reached (the count is non-zero only if some key has the prefix)
and is not modelled.

* `qdictFlatten` renames the leaves of nested non-empty QDicts and QLists
  to `"x.y"` keys of the root. The root loop walks the table it writes
  (`target == qdict`): `qdictFlattenRootLoop` reads each entry's value
  when it reaches it and fixes the successor before processing, as
  `qdict_next` does.
* `qdictCrumple` builds the two-level QDict (step 1), crumples its
  non-empty QDict values (step 2) and turns the result into a QList when
  its keys are indices (step 3). Its recursion is on QDicts of strictly
  shorter keys, so the longest key bounds the depth (`qdictCrumpleAux`'s
  fuel).

Objects are values here: a QObject the C code holds twice (a reference
taken with `qobject_ref`) is two copies. Step 1 of `qdict_crumple` fills
an existing QDict under a prefix in place, and that QDict may be a value
of `src` itself; the model updates the copy in the two-level QDict and
leaves `src` as it was. Counters declared `int` (`qdict_flatten_qlist`'s
`i`) are `Nat`: lists have fewer than `2^31` elements.
-/
import QemuFormal.Util.Keyval
import QemuFormal.Json.Writer

namespace QemuFormal

open Keyval (intMax)
open Json (decimal)

/-- `qdict_del`. -/
def qdictDel (d : QDict) (key : Bytes) : QDict := ChainedTable.erase key d

/-- The loop of `qdict_count_prefixed_entries`, with `count` matches so far. -/
def countPrefixedLoop (start : Bytes) : List (Bytes × QObject) → Int → Int
  | [], count => count
  | e :: rest, count =>
    if (strstart e.1 start).isSome then
      if count = intMax then -erange else countPrefixedLoop start rest (count + 1)
    else countPrefixedLoop start rest count

/-- `qdict_count_prefixed_entries(src, start)`. -/
def qdictCountPrefixedEntries (src : QDict) (start : Bytes) : Int := countPrefixedLoop start src 0

/-- `qdict_extract_subqdict(src, &dst, start)`: `src` without the entries
prefixed `start`, and the new QDict of those entries under the rest of
their keys. -/
def qdictExtractSubqdict (src : QDict) (start : Bytes) : QDict × QDict :=
  src.foldl (fun acc e =>
    match strstart e.1 start with
    | some p => (qdictDel acc.1 e.1, qdictPutObj acc.2 p e.2)
    | none => acc) (src, [])

/-- `"%u"` of an index. -/
def indexKey (i : Nat) : Bytes := decimal i

/-- `"%u."` of an index. -/
def indexPrefix (i : Nat) : Bytes := decimal i ++ [0x2E]

/-- `UINT_MAX`. -/
def uintMax : Nat := 2 ^ 32 - 1

/-- The loop of `qdict_array_split` from index `i`, with `fuel` indices
left before `UINT_MAX`: the remaining `src` and the list built so far. -/
def qdictArraySplitLoop : (fuel i : Nat) → QDict → List QObject → QDict × List QObject
  | 0, _, src, dst => (src, dst)
  | fuel + 1, i, src, dst =>
    let subqobj := qdictGet src (indexKey i)
    -- overflow is the same as positive non-zero results
    let isSubqdict : Bool := qdictCountPrefixedEntries src (indexPrefix i) != 0
    if subqobj.isNone == !isSubqdict then (src, dst)
    else if isSubqdict then
      let r := qdictExtractSubqdict src (indexPrefix i)
      qdictArraySplitLoop fuel (i + 1) r.1 (dst ++ [.qdict r.2])
    else
      match subqobj with
      | some obj => qdictArraySplitLoop fuel (i + 1) (qdictDel src (indexKey i)) (dst ++ [obj])
      | none => (src, dst)

/-- `qdict_array_split(src, &dst)`: what is left of `src`, and `dst`. -/
def qdictArraySplit (src : QDict) : QDict × List QObject := qdictArraySplitLoop uintMax 0 src []

/-- The index loop of `qdict_array_entries` from index `i`, with `fuel`
indices left before `INT_MAX`: the index it stops at and `entries`, or a
negative errno. -/
def qdictArrayEntriesLoop (src : QDict) (subqdict : Bytes) :
    (fuel i entries : Nat) → Except Int (Nat × Nat)
  | 0, i, entries => .ok (i, entries)
  | fuel + 1, i, entries =>
    let subqdictEntries := qdictCountPrefixedEntries src (subqdict ++ indexPrefix i)
    let subqobj := qdictGet src (subqdict ++ indexKey i)
    if subqdictEntries < 0 then .error subqdictEntries
    -- either a single subordinate object or prefixed ones, but not both
    else if subqobj.isSome ∧ subqdictEntries ≠ 0 then .error (-einval)
    else if subqobj.isNone ∧ subqdictEntries = 0 then .ok (i, entries)
    else
      qdictArrayEntriesLoop src subqdict fuel (i + 1)
        ((entries + if subqdictEntries ≠ 0 then subqdictEntries.toNat else 1) % 2 ^ 32)

/-- `qdict_array_entries(src, subqdict)`. -/
def qdictArrayEntries (src : QDict) (subqdict : Bytes) : Int :=
  match qdictArrayEntriesLoop src subqdict intMax.toNat 0 0 with
  | .error e => e
  | .ok (i, entries) =>
    -- everything outside the sub-QDict counts as handled
    let entries := (entries + (src.filter fun e => (strstart e.1 subqdict).isNone).length) % 2 ^ 32
    if qdictSize src ≠ entries then -einval else i

/-! ## Flattening -/

/-- `"%s.%s"` and `"%s.%i"`: a key under a prefix. -/
def joinKey (pre key : Bytes) : Bytes := pre ++ 0x2E :: key

mutual

/-- The body shared by both flatten loops for one value under `key`:
"Flatten non-empty QDict and QList recursively into @target, copy other
objects to @target". -/
def qdictFlattenValue : QObject → QDict → Bytes → QDict
  | .qdict entries, target, key =>
    if entries = [] then qdictPutObj target key (.qdict entries)
    else qdictFlattenQdict entries target key
  | .qlist elems, target, key =>
    if elems = [] then qdictPutObj target key (.qlist elems)
    else qdictFlattenQlist elems 0 target key
  | value, target, key => qdictPutObj target key value

/-- `qdict_flatten_qdict(qdict, target, pre)` below the root: `qdict` is
another QDict than `target`, so the loop walks it unchanged. -/
def qdictFlattenQdict : List (Bytes × QObject) → QDict → Bytes → QDict
  | [], target, _ => target
  | (k, value) :: rest, target, pre =>
    qdictFlattenQdict rest (qdictFlattenValue value target (joinKey pre k)) pre

/-- `qdict_flatten_qlist(qlist, target, pre)` from index `i`. -/
def qdictFlattenQlist : List QObject → Nat → QDict → Bytes → QDict
  | [], _, target, _ => target
  | value :: rest, i, target, pre =>
    qdictFlattenQlist rest (i + 1) (qdictFlattenValue value target (joinKey pre (decimal i))) pre

end

/-- `qdict_next`: the entry after the one with key `k`. -/
def qdictNext (d : QDict) (k : Bytes) : Option Bytes :=
  match d.dropWhile (fun e => e.1 != k) with
  | _ :: e :: _ => some e.1
  | _ => none

mutual

/-- The number of QObjects in a value, itself included. -/
def qobjectNodes : QObject → Nat
  | .qdict entries => entriesNodes entries + 1
  | .qlist elems => listNodes elems + 1
  | _ => 1

def entriesNodes : List (Bytes × QObject) → Nat
  | [] => 0
  | (_, v) :: rest => qobjectNodes v + entriesNodes rest

def listNodes : List QObject → Nat
  | [] => 0
  | v :: rest => qobjectNodes v + listNodes rest

end

/-- The root loop of `qdict_flatten_qdict(qdict, qdict, NULL)` at the
entry with key `k`, if any. A non-empty QDict or QList value is
flattened into the root and its key deleted; other values stay. The
entries the loop puts into the table may be reached later; they hold no
non-empty container and are passed over. -/
def qdictFlattenRootLoop : Nat → QDict → Option Bytes → QDict
  | 0, qdict, _ => qdict
  | _ + 1, qdict, none => qdict
  | fuel + 1, qdict, some k =>
    let next := qdictNext qdict k
    let qdict :=
      match qdictGet qdict k with
      | some (.qdict entries) =>
        if entries = [] then qdict else qdictDel (qdictFlattenQdict entries qdict k) k
      | some (.qlist elems) =>
        if elems = [] then qdict else qdictDel (qdictFlattenQlist elems 0 qdict k) k
      | _ => qdict
    qdictFlattenRootLoop fuel qdict next

/-- `qdict_flatten(qdict)`. The walk reaches each entry of the table at
most once, and the table never holds more entries than `qdict` has
objects. -/
def qdictFlatten (qdict : QDict) : QDict :=
  qdictFlattenRootLoop (entriesNodes qdict + 1) qdict (qdict.head?.map Prod.fst)

/-! ## Crumpling -/

/-- The errors of `qdict_crumple`, with the data of their messages. -/
inductive CrumpleError where
  /-- "Value %s is not flat". -/
  | notFlat (key : Bytes)
  /-- "Cannot mix scalar and non-scalar keys". -/
  | mixScalar
  /-- "Cannot mix list and non-list keys". -/
  | mixList
  /-- "List indices are not contiguous, saw %zd elements but %zd largest index". -/
  | notContiguous (len max : Int)
  /-- "Missing list index %zu". -/
  | missingIndex (i : Nat)
  deriving DecidableEq

/-- The separator search of `qdict_split_flat_key`: the first `.` that is
not followed by another, `..` pairs skipped; the bytes before it and the
suffix after it (NULL without a separator). -/
def splitFlatKeyScan : Bytes → Bytes × Option Bytes
  | [] => ([], none)
  | c :: rest =>
    if c = 0x2E then
      match rest with
      | d :: rest' =>
        if d = 0x2E then
          let r := splitFlatKeyScan rest'
          (c :: d :: r.1, r.2)
        else ([], some rest)
      | [] => ([], some [])
    else
      let r := splitFlatKeyScan rest
      (c :: r.1, r.2)

/-- The unescaping loop of `qdict_split_flat_key`: each `..` becomes `.`.
The separator search leaves dots in the prefix only in pairs, so the
`assert` on the second dot holds. -/
def unescapeDots : Bytes → Bytes
  | [] => []
  | c :: rest =>
    if c = 0x2E then
      match rest with
      | _ :: rest' => c :: unescapeDots rest'
      | [] => [c]
    else c :: unescapeDots rest

/-- `qdict_split_flat_key(key, &prefix, &suffix)`. -/
def qdictSplitFlatKey (key : Bytes) : Bytes × Option Bytes :=
  let r := splitFlatKeyScan key
  (unescapeDots r.1, r.2)

/-- `(dict_val && qdict_size(dict_val)) || (list_val && !qlist_empty(list_val))`. -/
def isNonEmptyContainer : QObject → Bool
  | .qdict entries => !entries.isEmpty
  | .qlist elems => !elems.isEmpty
  | _ => false

/-- The loop of `qdict_is_list`: `is_list` (`-1` before the first key),
`len` and `max`. -/
def qdictIsListLoop : List (Bytes × QObject) → Int → Nat → Int → Except CrumpleError (Int × Nat × Int)
  | [], isList, len, max => .ok (isList, len, max)
  | (k, _) :: rest, isList, len, max =>
    let r := qemuStrtoi64 k false
    let isIndex : Int := if r.ret = 0 then 1 else 0
    let isList := if isList = -1 then isIndex else isList
    if isIndex ≠ isList then .error .mixList
    else if isIndex = 1 then
      qdictIsListLoop rest isList (len + 1) (if r.value > max then r.value else max)
    else qdictIsListLoop rest isList len max

/-- `qdict_is_list(maybe_list)`: a list (`1`) or a dict (`0`). -/
def qdictIsList (maybeList : QDict) : Except CrumpleError Bool := do
  let (isList, len, max) ← qdictIsListLoop maybeList (-1) 0 (-1)
  -- an empty QDict is a dict
  let isList := if isList = -1 then 0 else isList
  if (len : Int) ≠ max + 1 then .error (.notContiguous len max)
  else .ok (isList = 1)

/-- Step 1 of `qdict_crumple`: split each flat key at its first separator
into the two-level QDict. A QDict already under the prefix is filled in
place, whether step 1 made it or it was a value of `src`. -/
def qdictCrumpleSplit : List (Bytes × QObject) → QDict → Except CrumpleError QDict
  | [], twoLevel => .ok twoLevel
  | (key, value) :: rest, twoLevel =>
    if isNonEmptyContainer value then .error (.notFlat key)
    else
      let split := qdictSplitFlatKey key
      let child := qdictGet twoLevel split.1
      let childDict := child.bind Keyval.toQDict?
      if child.isSome ∧ (childDict.isNone ∨ split.2.isNone) then .error .mixScalar
      else
        match split.2 with
        | some suffix =>
          qdictCrumpleSplit rest
            (qdictPutObj twoLevel split.1 (.qdict (qdictPutObj (childDict.getD []) suffix value)))
        | none => qdictCrumpleSplit rest (qdictPutObj twoLevel split.1 value)

/-- Step 3 of `qdict_crumple` for a list: the values under `"0"`, `"1"`,
…, `"%zu"` of `qdict_size(multi_level) - 1`. -/
def qdictCrumpleList (multiLevel : QDict) : Except CrumpleError (List QObject) :=
  (List.range multiLevel.length).foldlM (fun dst i =>
    match qdictGet multiLevel (decimal i) with
    | some child => .ok (dst ++ [child])
    | none => .error (.missingIndex i)) []

/-- `qdict_crumple(src)` with `fuel` levels of recursion left. -/
def qdictCrumpleAux : Nat → QDict → Except CrumpleError QObject
  | 0, _ => .error .mixScalar
  | fuel + 1, src => do
    let twoLevel ← qdictCrumpleSplit src []
    -- step 2: crumple the non-empty QDicts of the two-level QDict
    let multiLevel ← twoLevel.foldlM (fun multiLevel e =>
      match e.2 with
      | .qdict entries =>
        if entries = [] then .ok (qdictPutObj multiLevel e.1 e.2)
        else do
          let child ← qdictCrumpleAux fuel entries
          .ok (qdictPutObj multiLevel e.1 child)
      | value => .ok (qdictPutObj multiLevel e.1 value)) []
    -- step 3: a QList when the keys are the indices
    if ← qdictIsList multiLevel then .qlist <$> qdictCrumpleList multiLevel
    else .ok (.qdict multiLevel)

/-- `qdict_crumple(src)`. Each level of recursion crumples QDicts whose
keys are suffixes of `src`'s keys after a separator, so the longest key
bounds the depth. -/
def qdictCrumple (src : QDict) : Except CrumpleError QObject :=
  qdictCrumpleAux ((src.map fun e => e.1.length).foldl max 0 + 1) src

/-- The result of `qdict_crumple` hangs on the table's order when a key is
both a leaf and a prefix. `"d"` (chain 42) is reached before `"d.a"`
(chain 436): its empty QDict is taken as the QDict of the prefix and
filled with `"a"`, so the leaf `{}` is lost without an error; `"a"`
(chain 233) comes after `"a.b"` (chain 115), and the same shape is
rejected. The round trip through `qdict_flatten` also breaks on empty
keys: their joins make `..`, which `qdict_split_flat_key` reads as an
escaped dot. -/
theorem qdictCrumple_loses_empty_dict_leaf :
    qdictCrumple (qdictPutObj (qdictPutObj [] (ascii "d.a") (.qnum (.i64 1))) (ascii "d") (.qdict [])) =
      .ok (.qdict [(ascii "d", .qdict [(ascii "a", .qnum (.i64 1))])]) ∧
    qdictCrumple (qdictPutObj (qdictPutObj [] (ascii "a.b") (.qnum (.i64 1))) (ascii "a") (.qdict [])) =
      .error .mixScalar ∧
    qdictFlatten [([], .qdict [([], .qdict [([], .qnull)])])] = [(ascii "..", .qnull)] ∧
    qdictCrumple [(ascii "..", .qnull)] = .ok (.qdict [(ascii ".", .qnull)]) ∧
    qobjectIsEqual (.qdict [(ascii ".", .qnull)]) (.qdict [([], .qdict [([], .qdict [([], .qnull)])])]) =
      false := by
  decide

end QemuFormal

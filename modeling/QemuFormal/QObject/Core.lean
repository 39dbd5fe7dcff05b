/-
QemuFormal.QObject.Core — the QObject data model of `qobject/`.

* `QNum` is `qnum.c`'s tagged number: `QNUM_I64`, `QNUM_U64`, or
  `QNUM_DOUBLE`. A double is kept as its IEEE binary64 bit pattern, and
  `doubleIsEqual` is C's `==` on doubles (NaN unequal to itself, the two
  zeros equal).
* `QObject` has one constructor per `QType`. A QString is its bytes
  without the NUL; a QList is its elements in order; a QDict is its
  entries in the order `qdict_first` / `qdict_next` visit them.
* The QDict table (`QDICT_BUCKET_MAX` chains, `tdb_hash`, insertion at
  the chain head) is `Lib.ChainedTable` instantiated at `qdictBucket`.
  So iteration order is modelled exactly: it is what decides, in
  `keyval.c`, which of two spellings of one list index wins.
* `qobjectIsEqual` is `qobject_is_equal` with the per-type comparators
  of `qnull.c`, `qnum.c`, `qstring.c`, `qdict.c`, `qlist.c`, `qbool.c`.

Reference counting and the `QObjectBase_` header are not modelled: no
function below observes them.
-/
import Mathlib
import QemuFormal.Lib.ChainedTable

namespace QemuFormal

/-- A C string's bytes, without the terminating NUL. -/
abbrev Bytes := List UInt8

/-- The bytes of an ASCII string literal. -/
def ascii (s : String) : Bytes := s.toList.map (fun c => c.toNat.toUInt8)

/-- `QNum`: `QNUM_I64`, `QNUM_U64`, `QNUM_DOUBLE` (the double as its
binary64 bits). -/
inductive QNum where
  | i64 (v : Int64)
  | u64 (v : UInt64)
  | double (v : UInt64)
  deriving DecidableEq

/-- `QType` without `QTYPE_NONE`, which no object has. -/
inductive QType where
  | qnull | qnum | qdict | qlist | qstring | qbool
  deriving DecidableEq, Repr

/-- A QObject. A QDict's entries are listed in iteration order. -/
inductive QObject where
  | qnull
  | qnum (n : QNum)
  | qstring (s : Bytes)
  | qdict (entries : List (Bytes × QObject))
  | qlist (elems : List QObject)
  | qbool (b : Bool)

/-- A QDict's entries, in iteration order. -/
abbrev QDict := List (Bytes × QObject)

mutual

/-- Decidable equality of QObjects (structural, not `qobject_is_equal`). -/
def QObject.decEq : (x y : QObject) → Decidable (x = y)
  | .qnull, .qnull => isTrue rfl
  | .qnum a, .qnum b =>
    if h : a = b then isTrue (h ▸ rfl) else isFalse (fun e => h (QObject.qnum.inj e))
  | .qstring a, .qstring b =>
    if h : a = b then isTrue (h ▸ rfl) else isFalse (fun e => h (QObject.qstring.inj e))
  | .qbool a, .qbool b =>
    if h : a = b then isTrue (h ▸ rfl) else isFalse (fun e => h (QObject.qbool.inj e))
  | .qdict a, .qdict b =>
    match QObject.decEqEntries a b with
    | isTrue h => isTrue (h ▸ rfl)
    | isFalse h => isFalse (fun e => h (QObject.qdict.inj e))
  | .qlist a, .qlist b =>
    match QObject.decEqList a b with
    | isTrue h => isTrue (h ▸ rfl)
    | isFalse h => isFalse (fun e => h (QObject.qlist.inj e))
  | .qnull, .qnum _ | .qnull, .qstring _ | .qnull, .qdict _ | .qnull, .qlist _
  | .qnull, .qbool _ | .qnum _, .qnull | .qnum _, .qstring _ | .qnum _, .qdict _
  | .qnum _, .qlist _ | .qnum _, .qbool _ | .qstring _, .qnull | .qstring _, .qnum _
  | .qstring _, .qdict _ | .qstring _, .qlist _ | .qstring _, .qbool _
  | .qdict _, .qnull | .qdict _, .qnum _ | .qdict _, .qstring _ | .qdict _, .qlist _
  | .qdict _, .qbool _ | .qlist _, .qnull | .qlist _, .qnum _ | .qlist _, .qstring _
  | .qlist _, .qdict _ | .qlist _, .qbool _ | .qbool _, .qnull | .qbool _, .qnum _
  | .qbool _, .qstring _ | .qbool _, .qdict _ | .qbool _, .qlist _ =>
    isFalse (fun e => QObject.noConfusion e)

/-- Decidable equality of QDict entry lists. -/
def QObject.decEqEntries : (x y : List (Bytes × QObject)) → Decidable (x = y)
  | [], [] => isTrue rfl
  | [], _ :: _ => isFalse (fun e => by cases e)
  | _ :: _, [] => isFalse (fun e => by cases e)
  | (k, v) :: xs, (k', v') :: ys =>
    if hk : k = k' then
      match QObject.decEq v v', QObject.decEqEntries xs ys with
      | isTrue hv, isTrue hs => isTrue (hk ▸ hv ▸ hs ▸ rfl)
      | isFalse hv, _ => isFalse (fun e => hv (Prod.mk.inj (List.cons.inj e).1).2)
      | _, isFalse hs => isFalse (fun e => hs (List.cons.inj e).2)
    else isFalse (fun e => hk (Prod.mk.inj (List.cons.inj e).1).1)

/-- Decidable equality of QList element lists. -/
def QObject.decEqList : (x y : List QObject) → Decidable (x = y)
  | [], [] => isTrue rfl
  | [], _ :: _ => isFalse (fun e => by cases e)
  | _ :: _, [] => isFalse (fun e => by cases e)
  | v :: xs, v' :: ys =>
    match QObject.decEq v v', QObject.decEqList xs ys with
    | isTrue hv, isTrue hs => isTrue (hv ▸ hs ▸ rfl)
    | isFalse hv, _ => isFalse (fun e => hv (List.cons.inj e).1)
    | _, isFalse hs => isFalse (fun e => hs (List.cons.inj e).2)

end

instance : DecidableEq QObject := QObject.decEq

namespace QObject

/-- `qobject_type`. -/
def qobjectType : QObject → QType
  | .qnull => .qnull
  | .qnum _ => .qnum
  | .qstring _ => .qstring
  | .qdict _ => .qdict
  | .qlist _ => .qlist
  | .qbool _ => .qbool

end QObject

/-! ## `qdict.c`: the hash table -/

/-- `QDICT_BUCKET_MAX`. -/
def qdictBucketMax : Nat := 512

/-- `tdb_hash`, in C's 32-bit `unsigned` arithmetic: the seed is
`0x238F13AF * strlen(name)`, byte `i` is added shifted left by
`i * 5 % 24`, and the result goes through `1103515243 * value + 12345`. -/
def tdbHash (name : Bytes) : Nat :=
  let step : Nat × Nat → UInt8 → Nat × Nat := fun acc c =>
    ((acc.1 + c.toNat * 2 ^ (acc.2 * 5 % 24)) % 2 ^ 32, acc.2 + 1)
  let value := (name.foldl step ((0x238F13AF * name.length) % 2 ^ 32, 0)).1
  (1103515243 * value + 12345) % 2 ^ 32

/-- The chain a key lives in: `tdb_hash(key) % QDICT_BUCKET_MAX`. -/
def qdictBucket (key : Bytes) : Nat := tdbHash key % qdictBucketMax

/-- `qdict_get`: the value under `key`, or NULL. (`qdict_find` searches
only `key`'s chain; the first entry with that key is in it.) -/
def qdictGet (d : QDict) (key : Bytes) : Option QObject := ChainedTable.lookup d key

/-- `qdict_haskey`. -/
def qdictHaskey (d : QDict) (key : Bytes) : Bool := (qdictGet d key).isSome

/-- `qdict_put_obj`: replace the value of an existing key in place, or
insert a new entry at the head of its chain. -/
def qdictPutObj (d : QDict) (key : Bytes) (value : QObject) : QDict :=
  ChainedTable.put qdictBucket d key value

/-- `qdict_size`. -/
def qdictSize (d : QDict) : Nat := d.length

/-- A QDict built by `qdict_put_obj` alone: entries in chain order, no
key twice. -/
def QDictWF (d : QDict) : Prop :=
  ChainedTable.Ordered qdictBucket d ∧ ChainedTable.KeysNodup d

theorem qdictWF_nil : QDictWF [] := ⟨List.Pairwise.nil, List.nodup_nil⟩

theorem qdictWF_putObj {d : QDict} (h : QDictWF d) (key : Bytes) (value : QObject) :
    QDictWF (qdictPutObj d key value) :=
  ⟨ChainedTable.ordered_put qdictBucket d key value h.1,
    ChainedTable.keysNodup_put qdictBucket d key value h.2⟩

theorem qdictGet_putObj (d : QDict) (key : Bytes) (value : QObject) (j : Bytes) :
    qdictGet (qdictPutObj d key value) j = if j = key then some value else qdictGet d j :=
  ChainedTable.lookup_put qdictBucket d key value j

/-! ## `qobject_is_equal` -/

/-- C's `==` on two doubles given as binary64 bit patterns: false when
either is a NaN, true for `+0 == -0`, else bitwise equality. -/
def doubleIsEqual (x y : UInt64) : Bool :=
  let isNaN (v : UInt64) : Bool := (v >>> 52) &&& 0x7FF == 0x7FF && v &&& 0xFFFFFFFFFFFFF != 0
  !isNaN x && !isNaN y && (x == y || (x <<< 1 == 0 && y <<< 1 == 0))

/-- `qnum_is_equal`: integers compare by value whatever their kind, a
double never equals an integer. -/
def qnumIsEqual : QNum → QNum → Bool
  | .i64 x, .i64 y => x == y
  | .i64 x, .u64 y => decide (0 ≤ x.toInt) && decide (x.toInt = y.toNat)
  | .u64 x, .i64 y => decide (0 ≤ y.toInt) && decide (y.toInt = x.toNat)
  | .u64 x, .u64 y => x == y
  | .double x, .double y => doubleIsEqual x y
  | _, _ => false

mutual

/-- `qobject_is_equal` on two non-NULL objects. -/
def qobjectIsEqual : QObject → QObject → Bool
  | .qnull, .qnull => true
  | .qnum x, .qnum y => qnumIsEqual x y
  | .qstring x, .qstring y => x == y
  | .qbool x, .qbool y => x == y
  | .qdict xs, .qdict ys => xs.length == ys.length && qdictEntriesEqual xs ys
  | .qlist xs, .qlist ys => qlistIsEqual xs ys
  | _, _ => false

/-- The loop of `qdict_is_equal`: every entry of `x` has an equal value
under its key in `ys` (`qobject_is_equal(obj, NULL)` is false). -/
def qdictEntriesEqual : List (Bytes × QObject) → QDict → Bool
  | [], _ => true
  | (k, v) :: xs, ys =>
    (match qdictGet ys k with
      | some w => qobjectIsEqual v w
      | none => false) && qdictEntriesEqual xs ys

/-- `qlist_is_equal`: pairwise equal elements and the same length. -/
def qlistIsEqual : List QObject → List QObject → Bool
  | [], [] => true
  | x :: xs, y :: ys => qobjectIsEqual x y && qlistIsEqual xs ys
  | _, _ => false

end

end QemuFormal

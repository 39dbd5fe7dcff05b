/-
QemuFormal.Util.KeyvalTheorems — what `keyval_parse` does when several
key-vals denote one list element.

The header comment of `util/keyval.c` says: "If multiple key-val denote
the same leaf, the last one determines the value", and a numeric
fragment denotes its index, so `list.1` and `list.01` denote the same
element. The parser keeps them apart (they are different QDict keys);
`keyval_listify` then copies the members into `elt[]` in QDict
iteration order, so the element is the value of the key that comes
LAST IN HASH ORDER (`listifyElements_getD`), not the one that came last
in the input.

`keyvalParse_index_spelling` runs the model on
`list.0=null,list.01=eins,list.1=goner`: `tdb_hash` puts `"1"` in chain
217 and `"01"` in chain 499, so `eins` wins over the later `goner`.
-/
import QemuFormal.Util.Keyval

namespace QemuFormal.Keyval

/-! ## 1. Entering a fragment always yields a QDict -/

/-! ## 2. `elt[]` holds the last entry of each index in iteration order -/

/-- The last entry, in iteration order, whose key is list index `i`. -/
def lastForIndex (i : Nat) (entries : QDict) : Option (Bytes × QObject) :=
  (entries.filter (fun e => (keyIndex e.1).toNat = i)).getLast?

/-- One step of the element loop. -/
theorem listifyStep_getD (nelt i : Nat) (hi : i < nelt - 1) (elt : List (Option QObject))
    (hlen : elt.length = nelt) (e : Bytes × QObject) :
    (if (keyIndex e.1).toNat ≥ nelt - 1 then elt else elt.set (keyIndex e.1).toNat (some e.2)).getD i none
      = if (keyIndex e.1).toNat = i then some e.2 else elt.getD i none := by
  split
  · rename_i hge
    have hne : (keyIndex e.1).toNat ≠ i := by omega
    simp [hne]
  · by_cases hidx : (keyIndex e.1).toNat = i
    · rw [hidx]; simp [List.getD_eq_getElem?_getD, hlen, show i < nelt by omega]
    · simp [List.getD_eq_getElem?_getD, hidx, List.getElem?_set_ne hidx]

theorem foldl_listifyStep_getD (nelt i : Nat) (hi : i < nelt - 1) :
    ∀ (entries : QDict) (elt : List (Option QObject)), elt.length = nelt →
      (entries.foldl
        (fun elt e =>
          if (keyIndex e.1).toNat ≥ nelt - 1 then elt else elt.set (keyIndex e.1).toNat (some e.2))
        elt).getD i none
        = ((lastForIndex i entries).map Prod.snd).or (elt.getD i none)
  | [], elt, _ => by simp [lastForIndex]
  | e :: es, elt, hlen => by
    have hlen' : (if (keyIndex e.1).toNat ≥ nelt - 1 then elt
        else elt.set (keyIndex e.1).toNat (some e.2)).length = nelt := by
      split <;> simp [hlen]
    rw [List.foldl_cons, foldl_listifyStep_getD nelt i hi es _ hlen',
      listifyStep_getD nelt i hi elt hlen e]
    unfold lastForIndex
    by_cases hidx : (keyIndex e.1).toNat = i
    · cases hrest : (es.filter (fun e => (keyIndex e.1).toNat = i)).getLast? <;>
        simp [hidx, hrest, List.getLast?_cons]
    · simp [hidx]

/-- **The element loop of `keyval_listify`.** For every index below
`nelt - 1`, `elt[i]` is the value of the last entry with index `i` in
the QDict's iteration order, or NULL when there is none. -/
theorem listifyElements_getD (nelt i : Nat) (hi : i < nelt - 1) (entries : QDict) :
    (listifyElements nelt entries).getD i none = (lastForIndex i entries).map Prod.snd := by
  unfold listifyElements
  rw [foldl_listifyStep_getD nelt i hi entries _ (by simp)]
  cases lastForIndex i entries <;>
    simp [List.getD_eq_getElem?_getD, show i < nelt by omega]

/-! ## 3. The failing input -/

/-- `list.01=eins` comes before `list.1=goner` in the input, yet the
list's element 1 is `eins`: in the list's QDict, `"01"` (chain 499)
iterates after `"1"` (chain 217). -/
theorem keyvalParse_index_spelling :
    keyvalParse (ascii "list.0=null,list.01=eins,list.1=goner") none true
      = .ok (.qdict [(ascii "list", .qlist [.qstring (ascii "null"), .qstring (ascii "eins")])],
          false) := by
  decide +kernel

end QemuFormal.Keyval

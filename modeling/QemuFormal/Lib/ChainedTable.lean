/-
QemuFormal.Lib.ChainedTable — a separate-chaining hash table, read as the
list of its entries in iteration order.

A table with `n` chains that inserts new entries at the HEAD of their
chain and iterates chain 0, chain 1, … is fully described by one list:
the chains concatenated. Inserting key `k` is then inserting before the
first entry whose chain index is at least that of `k`, and replacing a
value keeps the entry where it is. The chain array itself never has to
be modelled, and the iteration order, which callers can observe, is the
list order.

The table is generic: a key type with decidable equality and a chain
index `b : κ → Nat`. Two invariants make the list a real table:
`Ordered b` (chain indices never decrease along the list) and
`KeysNodup` (a key occurs once). Every operation keeps both; removal
keeps them because it leaves a sublist (`erase_sublist`).
-/
import Mathlib.Data.List.Pairwise
import Mathlib.Data.List.Nodup

namespace ChainedTable

variable {κ V : Type} [DecidableEq κ]

/-- The value stored under `k`: the first entry with that key. With
distinct keys this is the only one, and it sits in `k`'s chain. -/
def lookup (t : List (κ × V)) (k : κ) : Option V :=
  (t.find? (fun e => decide (e.1 = k))).map Prod.snd

/-- Insert a new entry at the head of its chain: before the first entry
whose chain index is at least `b k`. -/
def insertHead (b : κ → Nat) (k : κ) (v : V) : List (κ × V) → List (κ × V)
  | [] => [(k, v)]
  | e :: t => if b k ≤ b e.1 then (k, v) :: e :: t else e :: insertHead b k v t

/-- Replace the value of the first entry with key `k`, in place. -/
def replace (k : κ) (v : V) : List (κ × V) → List (κ × V)
  | [] => []
  | e :: t => if e.1 = k then (k, v) :: t else e :: replace k v t

/-- Put: replace the value when the key is present, else insert a new
entry at the head of its chain. -/
def put (b : κ → Nat) (t : List (κ × V)) (k : κ) (v : V) : List (κ × V) :=
  if (lookup t k).isSome then replace k v t else insertHead b k v t

/-- Remove the first entry with key `k`: unlink it from its chain. -/
def erase (k : κ) : List (κ × V) → List (κ × V)
  | [] => []
  | e :: t => if e.1 = k then t else e :: erase k t

/-- Chain indices never decrease along the list. -/
def Ordered (b : κ → Nat) (t : List (κ × V)) : Prop :=
  t.Pairwise (fun e f => b e.1 ≤ b f.1)

/-- No key occurs twice. -/
def KeysNodup (t : List (κ × V)) : Prop := (t.map Prod.fst).Nodup

/-! ## Lookup -/

@[simp] theorem lookup_nil (k : κ) : lookup ([] : List (κ × V)) k = none := rfl

theorem lookup_cons (e : κ × V) (t : List (κ × V)) (k : κ) :
    lookup (e :: t) k = if e.1 = k then some e.2 else lookup t k := by
  by_cases h : e.1 = k <;> simp [lookup, h]

theorem lookup_eq_none_iff (t : List (κ × V)) (k : κ) :
    lookup t k = none ↔ k ∉ t.map Prod.fst := by
  induction t with
  | nil => simp
  | cons e t ih =>
    rw [lookup_cons]
    by_cases h : e.1 = k
    · simp [h]
    · simp [h, ih, Ne.symm h]

theorem lookup_of_mem {t : List (κ × V)} (hnd : KeysNodup t) {k : κ} {v : V}
    (h : (k, v) ∈ t) : lookup t k = some v := by
  induction t with
  | nil => simp at h
  | cons e t ih =>
    have hnd' : e.1 ∉ t.map Prod.fst ∧ KeysNodup t := by
      simpa [KeysNodup, List.nodup_cons] using hnd
    rw [lookup_cons]
    rcases List.mem_cons.mp h with h | h
    · subst h; simp
    · have hk : e.1 ≠ k := by
        rintro rfl
        exact hnd'.1 (List.mem_map.mpr ⟨_, h, rfl⟩)
      simp [hk, ih hnd'.2 h]

/-! ## Insertion at the head of a chain -/

omit [DecidableEq κ] in
theorem insertHead_perm (b : κ → Nat) (k : κ) (v : V) (t : List (κ × V)) :
    (insertHead b k v t).Perm ((k, v) :: t) := by
  induction t with
  | nil => simp [insertHead]
  | cons e t ih =>
    unfold insertHead
    split
    · exact List.Perm.refl _
    · exact (ih.cons e).trans (List.Perm.swap _ _ _)

omit [DecidableEq κ] in
theorem length_insertHead (b : κ → Nat) (k : κ) (v : V) (t : List (κ × V)) :
    (insertHead b k v t).length = t.length + 1 := by
  simpa using (insertHead_perm b k v t).length_eq

omit [DecidableEq κ] in
theorem ordered_insertHead (b : κ → Nat) (k : κ) (v : V) :
    ∀ t : List (κ × V), Ordered b t → Ordered b (insertHead b k v t)
  | [], _ => by simp [insertHead, Ordered]
  | e :: t, h => by
    have h' : (∀ f ∈ t, b e.1 ≤ b f.1) ∧ Ordered b t := by
      simpa [Ordered, List.pairwise_cons] using h
    unfold insertHead
    split
    · rename_i hle
      refine List.Pairwise.cons ?_ h
      intro f hf
      rcases List.mem_cons.mp hf with rfl | hf
      · exact hle
      · exact Nat.le_trans hle (h'.1 f hf)
    · rename_i hlt
      refine List.Pairwise.cons ?_ (ordered_insertHead b k v t h'.2)
      intro f hf
      rcases List.mem_cons.mp ((insertHead_perm b k v t).mem_iff.mp hf) with rfl | hf
      · exact Nat.le_of_lt (Nat.lt_of_not_le hlt)
      · exact h'.1 f hf

/-! ## Replacement in place -/

theorem map_fst_replace (k : κ) (v : V) :
    ∀ t : List (κ × V), (replace k v t).map Prod.fst = t.map Prod.fst
  | [] => rfl
  | e :: t => by
    unfold replace
    split
    · rename_i h; simp [h]
    · simp [map_fst_replace k v t]

theorem length_replace (k : κ) (v : V) (t : List (κ × V)) :
    (replace k v t).length = t.length := by
  simpa using congrArg List.length (map_fst_replace k v t)

theorem ordered_replace (b : κ → Nat) (k : κ) (v : V) (t : List (κ × V))
    (h : Ordered b t) : Ordered b (replace k v t) := by
  unfold Ordered at *
  have hmap : (replace k v t).map Prod.fst = t.map Prod.fst := map_fst_replace k v t
  rw [← List.pairwise_map (R := fun x y => b x ≤ b y)] at h ⊢
  rwa [hmap]

theorem lookup_replace (k : κ) (v : V) :
    ∀ (t : List (κ × V)) (j : κ), lookup (replace k v t) j =
      if j = k ∧ (lookup t k).isSome then some v else lookup t j
  | [], j => by simp [replace]
  | e :: t, j => by
    unfold replace
    by_cases he : e.1 = k
    · subst he
      by_cases hj : j = e.1
      · subst hj; simp [lookup_cons]
      · simp [lookup_cons, hj, Ne.symm hj]
    · simp only [he, if_false, lookup_cons, lookup_replace k v t j]
      by_cases hj : e.1 = j
      · subst hj; simp [he]
      · simp [hj]

theorem lookup_insertHead (b : κ → Nat) (k : κ) (v : V) :
    ∀ (t : List (κ × V)) (j : κ), lookup t k = none →
      lookup (insertHead b k v t) j = if j = k then some v else lookup t j
  | [], j, _ => by
    by_cases hj : j = k
    · subst hj; simp [insertHead, lookup_cons]
    · simp [insertHead, lookup_cons, Ne.symm hj, hj]
  | e :: t, j, hk => by
    have hek : e.1 ≠ k := by
      intro he
      simp [lookup_cons, he] at hk
    have hk' : lookup t k = none := by simpa [lookup_cons, hek] using hk
    unfold insertHead
    split
    · by_cases hj : j = k
      · subst hj; simp [lookup_cons]
      · simp [lookup_cons, Ne.symm hj, hj]
    · rw [lookup_cons, lookup_cons, lookup_insertHead b k v t j hk']
      by_cases hj : j = k
      · subst hj; simp [hek]
      · simp [hj]

/-! ## Put -/

section Put

variable (b : κ → Nat)

theorem lookup_put (t : List (κ × V)) (k : κ) (v : V) (j : κ) :
    lookup (put b t k v) j = if j = k then some v else lookup t j := by
  unfold put
  split
  · rename_i hk
    rw [lookup_replace]
    by_cases hj : j = k <;> simp [hj, hk]
  · rename_i hk
    exact lookup_insertHead b k v t j (by simpa using hk)

theorem keysNodup_put (t : List (κ × V)) (k : κ) (v : V) (h : KeysNodup t) :
    KeysNodup (put b t k v) := by
  unfold put KeysNodup at *
  split
  · rwa [map_fst_replace]
  · rename_i hk
    have hnot : k ∉ t.map Prod.fst := (lookup_eq_none_iff t k).mp (by simpa using hk)
    rw [((insertHead_perm b k v t).map Prod.fst).nodup_iff, List.map_cons]
    exact List.nodup_cons.mpr ⟨hnot, h⟩

theorem ordered_put (t : List (κ × V)) (k : κ) (v : V) (h : Ordered b t) :
    Ordered b (put b t k v) := by
  unfold put
  split
  · exact ordered_replace b k v t h
  · exact ordered_insertHead b k v t h

theorem length_put (t : List (κ × V)) (k : κ) (v : V) :
    (put b t k v).length = if (lookup t k).isSome then t.length else t.length + 1 := by
  unfold put
  split
  · exact length_replace k v t
  · exact length_insertHead b k v t

end Put

/-! ## Removal -/

theorem erase_sublist (k : κ) : ∀ t : List (κ × V), (erase k t).Sublist t
  | [] => List.Sublist.slnil
  | e :: t => by
    unfold erase
    split
    · exact List.sublist_cons_self e t
    · exact (erase_sublist k t).cons_cons e

theorem keysNodup_erase (k : κ) {t : List (κ × V)} (h : KeysNodup t) : KeysNodup (erase k t) :=
  List.Nodup.sublist ((erase_sublist k t).map Prod.fst) h

/-- With distinct keys, removing `k` removes exactly the entries with key `k`. -/
theorem erase_eq_filter (k : κ) :
    ∀ {t : List (κ × V)}, KeysNodup t → erase k t = t.filter (fun e => !decide (e.1 = k))
  | [], _ => rfl
  | e :: t, h => by
    have h' : e.1 ∉ t.map Prod.fst ∧ KeysNodup t := by
      simpa [KeysNodup, List.nodup_cons] using h
    unfold erase
    by_cases he : e.1 = k
    · subst he
      rw [if_pos rfl, List.filter_cons_of_neg (by simp), List.filter_eq_self.mpr]
      intro f hf
      have : f.1 ≠ e.1 := fun hfe => h'.1 (List.mem_map.mpr ⟨f, hf, hfe⟩)
      simp [this]
    · rw [if_neg he, List.filter_cons_of_pos (by simp [he]), erase_eq_filter k h'.2]

/-- Filtering away entries never hides `k` while the entries with key `k` stay. -/
theorem lookup_filter {q : κ × V → Bool} {k : κ} :
    ∀ {t : List (κ × V)}, (∀ e ∈ t, e.1 = k → q e = true) → lookup (t.filter q) k = lookup t k
  | [], _ => rfl
  | e :: t, h => by
    have ht : ∀ f ∈ t, f.1 = k → q f = true := fun f hf => h f (List.mem_cons_of_mem e hf)
    by_cases he : e.1 = k
    · rw [List.filter_cons_of_pos (h e List.mem_cons_self he), lookup_cons, lookup_cons,
        if_pos he, if_pos he]
    · by_cases hq : q e = true
      · rw [List.filter_cons_of_pos hq, lookup_cons, lookup_cons, lookup_filter ht]
      · rw [List.filter_cons_of_neg hq, lookup_cons, if_neg he, lookup_filter ht]

/-- With distinct keys, `k` is the key of one entry or of none. -/
theorem length_filter_key (k : κ) {t : List (κ × V)} (h : KeysNodup t) :
    (t.filter fun e => decide (e.1 = k)).length = if (lookup t k).isSome then 1 else 0 := by
  induction t with
  | nil => rfl
  | cons e t ih =>
    have h' : e.1 ∉ t.map Prod.fst ∧ KeysNodup t := by
      simpa [KeysNodup, List.nodup_cons] using h
    rw [lookup_cons]
    by_cases he : e.1 = k
    · have hnone : lookup t k = none := (lookup_eq_none_iff t k).mpr (he ▸ h'.1)
      rw [List.filter_cons_of_pos (by simpa using he), if_pos he, List.length_cons, ih h'.2, hnone]
      rfl
    · rw [List.filter_cons_of_neg (by simpa using he), if_neg he, ih h'.2]

end ChainedTable

/-
QemuFormal.Lib.Scatter — scattered buffers: segments of an address space
read as the list of addresses they cover, and memory written through a
list of addresses.

A segment list is generic: `base` and `len` project an address and a
length from each item. `addrs` lists the addresses the segments cover,
in order; `size` is their number. A loop over a scatter list that skips
`offset` bytes and then takes `n` works on the window
`((addrs l).drop offset).take n`; the lemmas below peel one segment off
the front of such a window, whole (`drop_addrs_cons_of_le`) or cut at the
offset (`drop_addrs_cons_of_lt`).

`writeList mem as vs` writes the values `vs` at the addresses `as`, one
after the other, until either list runs out. Writes compose along an
append of addresses (`writeList_append_left`), leave every other address
as it was (`writeList_of_not_mem`), and with distinct addresses each
address holds its own value (`map_writeList_of_nodup`).
-/
import Mathlib.Data.List.Nodup

namespace Scatter

/-! ## Segments -/

section Segments

variable {α : Type*} (base len : α → Nat)

/-- The addresses the segments cover, in order. -/
def addrs (l : List α) : List Nat := l.flatMap fun e => List.range' (base e) (len e)

/-- The total length of the segments. -/
def size : List α → Nat
  | [] => 0
  | e :: l => len e + size l

@[simp] theorem addrs_nil : addrs base len ([] : List α) = [] := rfl

theorem addrs_cons (e : α) (l : List α) :
    addrs base len (e :: l) = List.range' (base e) (len e) ++ addrs base len l :=
  List.flatMap_cons

theorem addrs_append (l l' : List α) : addrs base len (l ++ l') = addrs base len l ++ addrs base len l' :=
  List.flatMap_append

@[simp] theorem size_nil : size len ([] : List α) = 0 := rfl

theorem size_cons (e : α) (l : List α) : size len (e :: l) = len e + size len l := rfl

theorem length_addrs (l : List α) : (addrs base len l).length = size len l := by
  induction l with
  | nil => rfl
  | cons e l ih => rw [addrs_cons, List.length_append, List.length_range', ih, size_cons]

/-- Skipping a whole segment. -/
theorem drop_addrs_cons_of_le {e : α} {offset : Nat} (l : List α) (h : len e ≤ offset) :
    (addrs base len (e :: l)).drop offset = (addrs base len l).drop (offset - len e) := by
  rw [addrs_cons, List.drop_append, List.drop_eq_nil_of_le (by simp [h]), List.nil_append,
    List.length_range']

/-- Skipping into a segment: the rest of it, then the segments after it. -/
theorem drop_addrs_cons_of_lt {e : α} {offset : Nat} (l : List α) (h : offset < len e) :
    (addrs base len (e :: l)).drop offset =
      List.range' (base e + offset) (len e - offset) ++ addrs base len l := by
  rw [addrs_cons, List.drop_append_of_le_length (by simp; omega), List.drop_range', Nat.mul_one]

/-- The first segments cover a prefix of what all of them cover. -/
theorem addrs_take_prefix (l : List α) (n : Nat) : addrs base len (l.take n) <+: addrs base len l :=
  ⟨addrs base len (l.drop n), by rw [← addrs_append, List.take_append_drop]⟩

end Segments

theorem take_range' (start n k : Nat) : (List.range' start n).take k = List.range' start (min k n) := by
  rcases Nat.le_total n k with h | h
  · rw [List.take_range'_of_length_le h, Nat.min_eq_right h]
  · rw [List.take_range'_of_length_ge h, Nat.min_eq_left h]

/-- Cutting a list that ends in an interval inside the interval. -/
theorem take_append_range' (l : List Nat) (start : Nat) {n m : Nat} (h : m ≤ n) :
    (l ++ List.range' start n).take (l.length + m) = l ++ List.range' start m := by
  rw [List.take_append, List.take_of_length_le (Nat.le_add_right _ _), take_range', Nat.add_sub_cancel_left,
    Nat.min_eq_left h]

/-! ## Writing through a list of addresses -/

section Memory

variable {β : Type*}

/-- Write the values `vs` at the addresses `as`, one after the other. -/
def writeList (mem : Nat → β) : List Nat → List β → Nat → β
  | a :: as, v :: vs => writeList (Function.update mem a v) as vs
  | _, _ => mem

@[simp] theorem writeList_nil_left (mem : Nat → β) (vs : List β) : writeList mem [] vs = mem := by
  cases vs <;> rfl

@[simp] theorem writeList_nil_right (mem : Nat → β) (as : List Nat) : writeList mem as [] = mem := by
  cases as <;> rfl

/-- Writing along `as₁ ++ as₂`: first along `as₁`, then along `as₂` with the
values `as₁` did not use. -/
theorem writeList_append_left (mem : Nat → β) (as₁ as₂ : List Nat) (vs : List β) :
    writeList mem (as₁ ++ as₂) vs = writeList (writeList mem as₁ vs) as₂ (vs.drop as₁.length) := by
  induction as₁ generalizing mem vs with
  | nil => simp
  | cons a as₁ ih =>
    cases vs with
    | nil => simp
    | cons v vs => exact ih (Function.update mem a v) vs

/-- Values past the end of the addresses are not used. -/
theorem writeList_take_right (mem : Nat → β) (as : List Nat) (vs : List β) :
    writeList mem as (vs.take as.length) = writeList mem as vs := by
  induction as generalizing mem vs with
  | nil => simp
  | cons a as ih =>
    cases vs with
    | nil => rfl
    | cons v vs => exact ih (Function.update mem a v) vs

/-- Addresses past the end of the values are not written. -/
theorem writeList_take_left (mem : Nat → β) (as : List Nat) (vs : List β) :
    writeList mem (as.take vs.length) vs = writeList mem as vs := by
  induction as generalizing mem vs with
  | nil => simp
  | cons a as ih =>
    cases vs with
    | nil => simp
    | cons v vs => exact ih (Function.update mem a v) vs

/-- An address the list does not name keeps its value. -/
theorem writeList_of_not_mem (mem : Nat → β) {as : List Nat} (vs : List β) {x : Nat} (h : x ∉ as) :
    writeList mem as vs x = mem x := by
  induction as generalizing mem vs with
  | nil => cases vs <;> rfl
  | cons a as ih =>
    cases vs with
    | nil => rfl
    | cons v vs =>
      rw [List.mem_cons, not_or] at h
      rw [writeList, ih _ _ h.2, Function.update_of_ne h.1]

/-- Addresses the list does not name keep their values. -/
theorem map_writeList_of_disjoint (mem : Nat → β) {as : List Nat} (vs : List β) {bs : List Nat}
    (h : ∀ x ∈ bs, x ∉ as) : bs.map (writeList mem as vs) = bs.map mem :=
  List.map_congr_left fun x hx => writeList_of_not_mem mem vs (h x hx)

/-- With distinct addresses, each holds the value written at it. -/
theorem map_writeList_of_nodup (mem : Nat → β) {as : List Nat} {vs : List β} (hnd : as.Nodup)
    (h : as.length = vs.length) : as.map (writeList mem as vs) = vs := by
  induction as generalizing mem vs with
  | nil =>
    cases vs with
    | nil => rfl
    | cons _ _ => simp at h
  | cons a as ih =>
    cases vs with
    | nil => simp at h
    | cons v vs =>
      obtain ⟨ha, hnd⟩ := List.nodup_cons.mp hnd
      rw [List.map_cons, writeList, writeList_of_not_mem _ _ ha, Function.update_self,
        ih _ hnd (by simpa using h)]

end Memory

end Scatter

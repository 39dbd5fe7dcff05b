/-
QemuFormal.Lib.IntervalList — lists of half-open integer intervals read as
partial maps.

An item `x` of the list holds the addresses `[lo x, hi x)`, and the list
answers an address with the first item holding it (`find`), or with that
item's value there (`denote`). A list whose intervals are non-empty and
increasing with no overlap is `Ordered`; in such a list the first item
holding an address is the only one (`find_of_mem`), so inserting an item
into a gap, or replacing two adjacent items by one that agrees with both
(`denote_merge`), changes the map only where the new item lies.
-/
import Mathlib.Data.List.Pairwise

namespace IntervalList

variable {α β : Type*} (lo hi : α → Int)

/-- The first item whose interval holds `a`. -/
def find (xs : List α) (a : Int) : Option α :=
  xs.find? fun x => decide (lo x ≤ a ∧ a < hi x)

/-- The map the list denotes, given the value `val x a` of each item at
each address it holds. -/
def denote (val : α → Int → β) (xs : List α) (a : Int) : Option β :=
  (find lo hi xs a).map (val · a)

/-- Non-empty intervals, each ending where or before the next one starts. -/
def Ordered (xs : List α) : Prop :=
  (∀ x ∈ xs, lo x < hi x) ∧ xs.Pairwise fun x y => hi x ≤ lo y

/-! ## `find` -/

@[simp] theorem find_nil (a : Int) : find lo hi [] a = none := rfl

theorem find_cons_of_holds {x : α} (xs : List α) {a : Int} (h : lo x ≤ a ∧ a < hi x) :
    find lo hi (x :: xs) a = some x := by
  simp [find, h]

theorem find_cons_of_not_holds {x : α} (xs : List α) {a : Int} (h : ¬(lo x ≤ a ∧ a < hi x)) :
    find lo hi (x :: xs) a = find lo hi xs a := by
  simp only [find, List.find?_cons, h, decide_false]

theorem find_append (xs ys : List α) (a : Int) :
    find lo hi (xs ++ ys) a = (find lo hi xs a).or (find lo hi ys a) :=
  List.find?_append

theorem find_eq_none {xs : List α} {a : Int} (h : ∀ x ∈ xs, ¬(lo x ≤ a ∧ a < hi x)) :
    find lo hi xs a = none := by
  rw [find, List.find?_eq_none]
  intro x hx
  simpa using h x hx

/-- No item starts at or before `a`. -/
theorem find_eq_none_of_lt {xs : List α} {a : Int} (h : ∀ x ∈ xs, a < lo x) :
    find lo hi xs a = none :=
  find_eq_none lo hi fun x hx hin => by have := h x hx; omega

theorem holds_of_find {xs : List α} {a : Int} {x : α} (h : find lo hi xs a = some x) :
    x ∈ xs ∧ lo x ≤ a ∧ a < hi x :=
  ⟨List.mem_of_find?_eq_some h, by simpa using List.find?_some h⟩

/-! ## Ordered lists -/

@[simp] theorem ordered_nil : Ordered lo hi ([] : List α) := ⟨by simp, List.Pairwise.nil⟩

theorem ordered_cons {x : α} {xs : List α} :
    Ordered lo hi (x :: xs) ↔ lo x < hi x ∧ (∀ y ∈ xs, hi x ≤ lo y) ∧ Ordered lo hi xs := by
  simp only [Ordered, List.mem_cons, forall_eq_or_imp, List.pairwise_cons]
  constructor
  · rintro ⟨⟨hx, hxs⟩, hafter, hp⟩
    exact ⟨hx, hafter, hxs, hp⟩
  · rintro ⟨hx, hafter, hxs, hp⟩
    exact ⟨⟨hx, hxs⟩, hafter, hp⟩

theorem ordered_append {xs ys : List α} :
    Ordered lo hi (xs ++ ys) ↔
      Ordered lo hi xs ∧ Ordered lo hi ys ∧ ∀ x ∈ xs, ∀ y ∈ ys, hi x ≤ lo y := by
  simp only [Ordered, List.mem_append, List.pairwise_append]
  constructor
  · rintro ⟨hne, hxs, hys, hxy⟩
    exact ⟨⟨fun x hx => hne x (.inl hx), hxs⟩, ⟨fun y hy => hne y (.inr hy), hys⟩, hxy⟩
  · rintro ⟨⟨hne₁, hxs⟩, ⟨hne₂, hys⟩, hxy⟩
    exact ⟨fun x hx => hx.elim (hne₁ x) (hne₂ x), hxs, hys, hxy⟩

/-- In an ordered list the first item holding `a` is every item holding it. -/
theorem find_of_mem {xs : List α} (hord : Ordered lo hi xs) {x : α} (hx : x ∈ xs) {a : Int}
    (ha : lo x ≤ a ∧ a < hi x) : find lo hi xs a = some x := by
  induction xs with
  | nil => exact absurd hx List.not_mem_nil
  | cons y ys ih =>
    obtain ⟨hy, hafter, hys⟩ := (ordered_cons lo hi).mp hord
    rcases List.mem_cons.mp hx with rfl | hx
    · exact find_cons_of_holds lo hi ys ha
    · -- `y` ends before `x` starts, so it does not hold `a`
      have hyx := hafter x hx
      rw [find_cons_of_not_holds lo hi ys (by omega), ih hys hx]

/-- In an ordered list, `find` answers exactly the items holding `a`. -/
theorem find_eq_some_iff {xs : List α} (hord : Ordered lo hi xs) {a : Int} {x : α} :
    find lo hi xs a = some x ↔ x ∈ xs ∧ lo x ≤ a ∧ a < hi x :=
  ⟨holds_of_find lo hi, fun ⟨hx, ha⟩ => find_of_mem lo hi hord hx ha⟩

/-! ## The map -/

@[simp] theorem denote_nil (val : α → Int → β) (a : Int) : denote lo hi val [] a = none := rfl

theorem denote_append (val : α → Int → β) (xs ys : List α) (a : Int) :
    denote lo hi val (xs ++ ys) a = (denote lo hi val xs a).or (denote lo hi val ys a) := by
  simp only [denote, find_append, Option.map_or]

theorem denote_cons (val : α → Int → β) (x : α) (xs : List α) (a : Int) :
    denote lo hi val (x :: xs) a =
      (if lo x ≤ a ∧ a < hi x then some (val x a) else none).or (denote lo hi val xs a) := by
  by_cases h : lo x ≤ a ∧ a < hi x
  · simp [denote, find_cons_of_holds lo hi xs h, h]
  · simp [denote, find_cons_of_not_holds lo hi xs h, h]

/-- **Merging two adjacent items** into one that holds both intervals and
agrees with each on its own leaves the map as it was. -/
theorem denote_merge (val : α → Int → β) {x y z : α} (xs : List α) (hx : lo x ≤ hi x)
    (hy : lo y ≤ hi y) (hxy : hi x = lo y) (hlo : lo z = lo x) (hhi : hi z = hi y)
    (hvx : ∀ a, lo x ≤ a → a < hi x → val z a = val x a)
    (hvy : ∀ a, lo y ≤ a → a < hi y → val z a = val y a) (a : Int) :
    denote lo hi val (z :: xs) a = denote lo hi val (x :: y :: xs) a := by
  simp only [denote_cons]
  by_cases hinx : lo x ≤ a ∧ a < hi x
  · rw [if_pos (by omega), if_pos hinx, hvx a hinx.1 hinx.2]
    rfl
  · by_cases hiny : lo y ≤ a ∧ a < hi y
    · rw [if_pos (by omega), if_neg hinx, if_pos hiny, hvy a hiny.1 hiny.2]
      rfl
    · rw [if_neg (by omega), if_neg hinx, if_neg hiny]
      rfl

end IntervalList

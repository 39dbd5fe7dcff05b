/-
QemuFormal.Lib.Simulation — a machine run over a list of operations, each
taken under the precondition the code asserts for it, and read through an
abstraction of its state.

`Valid step Pre s ops` says that each operation of `ops` meets `Pre` in
the state it is taken in. When one step taken under its precondition
keeps an invariant and is, through `abs`, a step of the abstract machine,
a whole valid run keeps the invariant and ends where the abstract run
ends (`foldl_simulates`). A precondition that no step changes can be
checked on the first state alone (`valid_of_forall`).
-/
import Mathlib.Logic.Basic

namespace Simulation

variable {S A O : Type*}

/-- Each operation meets its precondition in the state it is taken in. -/
def Valid (step : S → O → S) (Pre : S → O → Prop) : S → List O → Prop
  | _, [] => True
  | s, o :: ops => Pre s o ∧ Valid step Pre (step s o) ops

section Run

variable {step : S → O → S} {Pre : S → O → Prop}

/-- A precondition that every step leaves as it was holds along a run when
it holds of each operation at the start. -/
theorem valid_of_forall (hstable : ∀ s o o', Pre (step s o) o' ↔ Pre s o') :
    ∀ (ops : List O) (s : S), (∀ o ∈ ops, Pre s o) → Valid step Pre s ops := by
  intro ops
  induction ops with
  | nil => intro _ _; trivial
  | cons o ops ih =>
    intro s hall
    refine ⟨hall o List.mem_cons_self, ih (step s o) fun o' ho' => ?_⟩
    rw [hstable]
    exact hall o' (List.mem_cons_of_mem o ho')

/-- Forward simulation of runs: a valid run keeps the invariant, and its
abstraction is the abstract run from the abstraction of the start. -/
theorem foldl_simulates {astep : A → O → A} {abs : S → A} {Inv : S → Prop}
    (hstep : ∀ s o, Inv s → Pre s o → Inv (step s o) ∧ abs (step s o) = astep (abs s) o) :
    ∀ (ops : List O) (s : S), Inv s → Valid step Pre s ops →
      Inv (ops.foldl step s) ∧ abs (ops.foldl step s) = ops.foldl astep (abs s) := by
  intro ops
  induction ops with
  | nil => intro s hs _; exact ⟨hs, rfl⟩
  | cons o ops ih =>
    intro s hs hv
    obtain ⟨ho, hrest⟩ := hv
    obtain ⟨hs', habs⟩ := hstep s o hs ho
    rw [List.foldl_cons, List.foldl_cons, ← habs]
    exact ih (step s o) hs' hrest

end Run

end Simulation

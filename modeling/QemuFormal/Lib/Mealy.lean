/-
QemuFormal.Lib.Mealy — Mealy machines: a step function that reads one
input and emits a list of outputs, run over a list of inputs.

A byte-at-a-time lexer, a token-at-a-time stream processor, and their
composition are all of this shape. What the proofs about them need is
here once: a run splits at any point of the input (`run_append`), so
feeding a string in chunks is feeding it whole (`run_flatten`), and two
runs that reach the same state emit the same outputs from then on.
-/
import Mathlib.Data.List.Basic

namespace Mealy

variable {σ α β : Type}

/-- Run `step` from state `s` over the inputs, collecting the outputs. -/
def run (step : σ → α → σ × List β) : σ → List α → σ × List β
  | s, [] => (s, [])
  | s, a :: as =>
    let r := step s a
    let r' := run step r.1 as
    (r'.1, r.2 ++ r'.2)

variable (step : σ → α → σ × List β)

@[simp] theorem run_nil (s : σ) : run step s [] = (s, []) := rfl

theorem run_cons (s : σ) (a : α) (as : List α) :
    run step s (a :: as) =
      ((run step (step s a).1 as).1, (step s a).2 ++ (run step (step s a).1 as).2) := rfl

theorem run_singleton (s : σ) (a : α) : run step s [a] = step s a := by
  simp [run_cons]

/-- A run splits where the input does. -/
theorem run_append (s : σ) (xs ys : List α) :
    run step s (xs ++ ys) =
      ((run step (run step s xs).1 ys).1,
        (run step s xs).2 ++ (run step (run step s xs).1 ys).2) := by
  induction xs generalizing s with
  | nil => simp
  | cons a xs ih =>
    rw [List.cons_append, run_cons, ih, run_cons]
    simp

/-- Running chunk after chunk is running their concatenation. -/
theorem run_flatten (s : σ) (chunks : List (List α)) :
    run (run step) s chunks = run step s chunks.flatten := by
  induction chunks generalizing s with
  | nil => simp
  | cons c cs ih =>
    rw [run_cons, ih, List.flatten_cons, run_append]

end Mealy

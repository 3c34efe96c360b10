import Mathlib

/-!
# Runs of a labelled transition relation

`Run step s is t`: from `s` the labels `is`, taken in order, lead to `t`.  The two rules below are
the only inductions over runs: what every step keeps, a run keeps.
-/

namespace Thuban.Lib

variable {σ ι : Type*}

/-- A finite run of the transition relation `step`. -/
inductive Run (step : σ → ι → σ → Prop) : σ → List ι → σ → Prop
  | nil (s : σ) : Run step s [] s
  | cons {s t u : σ} {i : ι} {is : List ι} (first : step s i t) (rest : Run step t is u) :
      Run step s (i :: is) u

namespace Run

variable {step step' : σ → ι → σ → Prop}

variable {s t u : σ} {is js : List ι}

theorem invariant {P : σ → Prop} (keep : ∀ s i t, P s → step s i t → P t) (run : Run step s is t)
    (init : P s) : P t := by
  induction run with
  | nil => exact init
  | cons first _ ih => exact ih (keep _ _ _ init first)

theorem append (first : Run step s is t) (second : Run step t js u) : Run step s (is ++ js) u := by
  induction first with
  | nil => exact second
  | cons head _ ih => exact .cons head (ih second)

theorem mono (h : ∀ s i t, step s i t → step' s i t) (run : Run step s is t) :
    Run step' s is t := by
  induction run with
  | nil => exact .nil _
  | cons first _ ih => exact .cons (h _ _ _ first) ih

end Run

end Thuban.Lib

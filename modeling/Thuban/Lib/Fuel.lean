import Mathlib

/-!
# Fuel-indexed computations

A loop whose exit depends on data is written with a fuel argument and answers `none` when the
fuel runs out.  `Converges f a` says that `f` ends with the answer `a`: from some amount of fuel
on, the answer is `a`.  A computation that loops for ever converges to nothing.
-/

namespace Thuban.Lib

variable {α β : Type*} {f : ℕ → Option α} {a : α}

/-- The fuel-indexed computation `f` terminates with the answer `a`. -/
def Converges (f : ℕ → Option α) (a : α) : Prop :=
  ∃ bound, ∀ fuel, bound ≤ fuel → f fuel = some a

namespace Converges

theorem unique {b : α} (ha : Converges f a) (hb : Converges f b) : a = b := by
  obtain ⟨m, hm⟩ := ha
  obtain ⟨n, hn⟩ := hb
  have h₁ := hm (max m n) (le_max_left m n)
  have h₂ := hn (max m n) (le_max_right m n)
  exact Option.some.inj (h₁.symm.trans h₂)

theorem const (h : ∀ fuel, f fuel = some a) : Converges f a :=
  ⟨0, fun fuel _ => h fuel⟩

theorem step {g : ℕ → Option α} (h : ∀ fuel, f (fuel + 1) = g fuel)
    (hg : Converges g a) : Converges f a := by
  obtain ⟨n, hn⟩ := hg
  refine ⟨n + 1, fun fuel hf => ?_⟩
  obtain ⟨k, rfl⟩ : ∃ k, fuel = k + 1 := ⟨fuel - 1, by omega⟩
  rw [h k]
  exact hn k (by omega)

variable {b : β} {g k : ℕ → Option β}

section

variable (hf : Converges f a)

include hf

theorem imp (h : ∀ fuel, f fuel = some a → g fuel = some b) : Converges g b := by
  obtain ⟨n, hn⟩ := hf
  exact ⟨n, fun fuel hfuel => h fuel (hn fuel hfuel)⟩

theorem seq (hg : Converges g b) (h : ∀ fuel, f fuel = some a → k fuel = g fuel) :
    Converges k b := by
  obtain ⟨m, hm⟩ := hf
  obtain ⟨n, hn⟩ := hg
  refine ⟨max m n, fun fuel hfuel => ?_⟩
  rw [h fuel (hm fuel (le_trans (le_max_left m n) hfuel))]
  exact hn fuel (le_trans (le_max_right m n) hfuel)

theorem seq_iff (h : ∀ fuel, f fuel = some a → k fuel = g fuel) : Converges k b ↔ Converges g b :=
  ⟨fun hk => hf.seq hk fun fuel ended => (h fuel ended).symm, fun hg => hf.seq hg h⟩

theorem bind_iff {g : α → ℕ → Option β} :
    Converges (fun fuel => (f fuel).bind fun x => g x fuel) b ↔ Converges (g a) b :=
  hf.seq_iff fun fuel ended => by rw [ended, Option.bind_some]

theorem bind {g : α → ℕ → Option β} (hg : Converges (g a) b) :
    Converges (fun fuel => (f fuel).bind fun x => g x fuel) b :=
  hf.bind_iff.mpr hg

end

end Converges

/-- More fuel does not change an answer. -/
def Stable (f : ℕ → Option α) : Prop := ∀ fuel a, f fuel = some a → f (fuel + 1) = some a

namespace Stable

theorem converges (h : Stable f) {fuel : ℕ} (ends : f fuel = some a) :
    Converges f a := by
  refine ⟨fuel, fun more le => ?_⟩
  induction more, le using Nat.le_induction with
  | base => exact ends
  | succ more _ ih => exact h more a ih

theorem const (a : Option α) : Stable fun _ => a := fun _ _ h => h

theorem loop {σ : Type*} {f : ℕ → σ → Option α} (empty : ∀ s, f 0 s = none)
    (round : ∀ s, (∃ a, ∀ fuel, f (fuel + 1) s = some a) ∨
      ∃ s', ∀ fuel, f (fuel + 1) s = f fuel s') (s : σ) : Stable fun fuel => f fuel s := by
  intro fuel a h
  induction fuel generalizing s with
  | zero => simp [empty] at h
  | succ fuel ih =>
    rcases round s with ⟨b, ends⟩ | ⟨s', goesOn⟩
    · rw [← h]
      exact (ends _).trans (ends _).symm
    · exact (goesOn _).trans (ih s' ((goesOn fuel).symm.trans h))

theorem bind {g : α → ℕ → Option β} (hf : Stable f) (hg : ∀ x, Stable (g x)) :
    Stable fun fuel => (f fuel).bind fun x => g x fuel := by
  intro fuel b h
  obtain ⟨x, hx, hb⟩ := Option.bind_eq_some_iff.mp h
  exact Option.bind_eq_some_iff.mpr ⟨x, hf fuel x hx, hg x fuel b hb⟩

theorem map (hf : Stable f) (k : α → β) :
    Stable fun fuel => (f fuel).map k := by
  intro fuel b h
  obtain ⟨x, hx, hb⟩ := Option.map_eq_some_iff.mp h
  exact Option.map_eq_some_iff.mpr ⟨x, hf fuel x hx, hb⟩

end Stable

def Terminates (f : ℕ → Option α) : Prop := ∃ a, Converges f a

namespace Terminates

theorem const (h : ∀ fuel, f fuel = some a) : Terminates f :=
  ⟨a, .const h⟩

theorem step {g : ℕ → Option α} (h : ∀ fuel, f (fuel + 1) = g fuel) (hg : Terminates g) :
    Terminates f := by
  obtain ⟨a, ha⟩ := hg
  exact ⟨a, .step h ha⟩

theorem of_stable (stable : Stable f) {n : ℕ} (answers : (f n).isSome = true) :
    Terminates f := by
  obtain ⟨a, ended⟩ := Option.isSome_iff_exists.mp answers
  exact ⟨a, stable.converges ended⟩

theorem exists_answer (h : Terminates f) : ∃ fuel a, f fuel = some a := by
  obtain ⟨a, bound, answer⟩ := h
  exact ⟨bound, a, answer bound le_rfl⟩

variable {g : α → ℕ → Option β}

theorem bind_iff (hf : Converges f a) :
    Terminates (fun fuel => (f fuel).bind fun x => g x fuel) ↔ Terminates (g a) :=
  exists_congr fun _ => hf.bind_iff

theorem of_bind (stable : Stable f) (h : Terminates fun fuel => (f fuel).bind fun x => g x fuel) :
    Terminates f := by
  obtain ⟨fuel, b, answer⟩ := h.exists_answer
  obtain ⟨a, ended, -⟩ := Option.bind_eq_some_iff.mp answer
  exact ⟨a, stable.converges ended⟩

theorem map_iff (stable : Stable f) {k : α → β} :
    Terminates (fun fuel => (f fuel).map k) ↔ Terminates f := by
  constructor
  · intro h
    obtain ⟨fuel, b, answer⟩ := h.exists_answer
    obtain ⟨a, ended, -⟩ := Option.map_eq_some_iff.mp answer
    exact ⟨a, stable.converges ended⟩
  · rintro ⟨a, ha⟩
    exact ⟨k a, ha.imp fun fuel ended => by rw [ended, Option.map_some]⟩

/-- A loop whose round number `n` ends it where `P n` holds and goes on to the next round where it
does not; `R n` is what is known of the other variables of the loop in this round. -/
theorem loop_iff {σ : Type*} {f : ℕ → ℕ → σ → Option α} {P : ℕ → Prop} {R : ℕ → σ → Prop}
    (empty : ∀ n s, f 0 n s = none)
    (ends : ∀ n s, R n s → P n → Terminates fun fuel => f fuel n s)
    (goesOn : ∀ n s, R n s → ¬ P n →
      ∃ s', R (n + 1) s' ∧ ∀ fuel, f (fuel + 1) n s = f fuel (n + 1) s')
    {s : σ} (start : R 0 s) : Terminates (f · 0 s) ↔ ∃ n, P n := by
  constructor
  · -- An answer comes from a round in which the loop stops.
    intro h
    obtain ⟨fuel, a, answer⟩ := h.exists_answer
    clear h
    generalize (0 : ℕ) = n at start answer
    induction fuel generalizing n s with
    | zero => simp [empty] at answer
    | succ fuel ih =>
      by_cases here : P n
      · exact ⟨n, here⟩
      · obtain ⟨s', related, round⟩ := goesOn n s start here
        rw [round] at answer
        exact ih (n + 1) related answer
  · -- From a round before one that stops, the loop gets there or stops earlier.
    rintro ⟨n, here⟩
    suffices h : ∀ k m s, k + m = n → R m s → Terminates fun fuel => f fuel m s from
      h n 0 s rfl start
    intro k
    induction k with
    | zero =>
      intro m s position related
      refine ends m s related ?_
      rwa [← position, Nat.zero_add] at here
    | succ k ih =>
      intro m s position related
      by_cases early : P m
      · exact ends m s related early
      · obtain ⟨s', related', round⟩ := goesOn m s related early
        exact .step round (ih (m + 1) s' (by omega) related')

end Terminates

end Thuban.Lib

import Mathlib

/-!
# Scanning a list up to a stop

`firstHit stop hit l` is the first element of `l` that satisfies `hit`, provided that no element up
to it satisfies `stop`.
-/

namespace Thuban.Lib

variable {α : Type*} (stop hit : α → Bool)

def firstHit : List α → Option α
  | [] => none
  | a :: l => if stop a then none else if hit a then some a else firstHit l

variable {stop hit}

variable {l₁ l₂ l : List α} {a : α} {hit' : α → Bool}

theorem firstHit_append (passed : ∀ b ∈ l₁, stop b = false ∧ hit b = false) :
    firstHit stop hit (l₁ ++ l₂) = firstHit stop hit l₂ := by
  induction l₁ with
  | nil => rfl
  | cons b l₁ ih =>
    obtain ⟨goesOn, missed⟩ := passed b List.mem_cons_self
    rw [List.cons_append, firstHit, goesOn, missed]
    exact ih fun c hc => passed c (List.mem_cons_of_mem _ hc)

theorem firstHit_append_hit (passed : ∀ b ∈ l₁, stop b = false ∧ hit b = false)
    (goesOn : stop a = false) (found : hit a = true) :
    firstHit stop hit (l₁ ++ a :: l₂) = some a := by
  rw [firstHit_append passed, firstHit, goesOn, found]
  rfl

theorem exists_of_firstHit_eq_some (h : firstHit stop hit l = some a) :
    ∃ l₁ l₂, l = l₁ ++ a :: l₂ ∧ stop a = false ∧ hit a = true ∧
      ∀ b ∈ l₁, stop b = false ∧ hit b = false := by
  induction l with
  | nil => exact absurd h (by simp [firstHit])
  | cons b l ih =>
    rw [firstHit] at h
    cases hs : stop b with
    | true => simp [hs] at h
    | false =>
      cases hh : hit b with
      | true =>
        obtain rfl : b = a := by simpa [hs, hh] using h
        exact ⟨[], l, rfl, hs, hh, by simp⟩
      | false =>
        obtain ⟨l₁, l₂, rfl, rest⟩ := ih (by simpa [hs, hh] using h)
        refine ⟨b :: l₁, l₂, rfl, rest.1, rest.2.1, fun c hc => ?_⟩
        rcases List.mem_cons.mp hc with rfl | hc
        · exact ⟨hs, hh⟩
        · exact rest.2.2 c hc

theorem not_hit_of_firstHit_eq_none (h : firstHit stop hit (l₁ ++ l₂) = none)
    (goesOn : ∀ b ∈ l₁, stop b = false) : ∀ b ∈ l₁, hit b = false := by
  induction l₁ with
  | nil => simp
  | cons a l₁ ih =>
    rw [List.cons_append, firstHit, goesOn a List.mem_cons_self] at h
    cases hh : hit a with
    | true => simp [hh] at h
    | false =>
      intro b hb
      rcases List.mem_cons.mp hb with rfl | hb
      · exact hh
      · refine ih ?_ (fun c hc => goesOn c (List.mem_cons_of_mem _ hc)) b hb
        simpa [hh] using h

theorem firstHit_congr {stop' : α → Bool}
    (same : ∀ a ∈ l, stop a = stop' a ∧ (stop a = false → hit a = hit' a)) :
    firstHit stop hit l = firstHit stop' hit' l := by
  induction l with
  | nil => rfl
  | cons a l ih =>
    obtain ⟨hs, hh⟩ := same a List.mem_cons_self
    rw [firstHit, firstHit, ← hs]
    cases stops : stop a with
    | true => rfl
    | false => rw [hh stops, ih fun b hb => same b (List.mem_cons_of_mem _ hb)]

theorem exists_firstHit_of_imp (more : ∀ b, hit b = true → hit' b = true)
    (h : firstHit stop hit l = some a) : ∃ b, firstHit stop hit' l = some b := by
  induction l with
  | nil => exact absurd h (by simp [firstHit])
  | cons b l ih =>
    rw [firstHit] at h ⊢
    cases stops : stop b with
    | true => simp [stops] at h
    | false =>
      cases hits : hit' b with
      | true => exact ⟨b, by simp⟩
      | false =>
        have missed : hit b = false := by
          cases hb : hit b with
          | false => rfl
          | true => rw [← hits, more b hb]
        simp only [stops, missed, Bool.false_eq_true, if_false] at h
        simpa using ih h

theorem takeWhile_of_firstHit [DecidableEq α] (h : firstHit stop hit l = some a) :
    ∃ l₂, l = l.takeWhile (· ≠ a) ++ a :: l₂ ∧ stop a = false ∧ hit a = true ∧
      ∀ b ∈ l.takeWhile (· ≠ a), stop b = false ∧ hit b = false := by
  obtain ⟨l₁, l₂, rfl, goesOn, found, passed⟩ := exists_of_firstHit_eq_some h
  have before : (l₁ ++ a :: l₂).takeWhile (· ≠ a) = l₁ := by
    rw [List.takeWhile_append_of_pos fun b hb => ?_]
    · simp
    · have : b ≠ a := by
        rintro rfl
        rw [(passed b hb).2] at found
        exact absurd found (by decide)
      simpa using this
  rw [before]
  exact ⟨l₂, rfl, goesOn, found, passed⟩

theorem firstHit_eq_some_iff [DecidableEq α] (h : firstHit stop hit l = some a)
    (accepts : hit' a = true) :
    firstHit stop hit' l = some a ↔ ∀ b ∈ l.takeWhile (· ≠ a), hit' b = false := by
  constructor
  · intro h'
    obtain ⟨-, -, -, -, passed⟩ := takeWhile_of_firstHit h'
    exact fun b hb => (passed b hb).2
  · intro missed
    obtain ⟨l₂, split, goesOn, -, passed⟩ := takeWhile_of_firstHit h
    rw [split]
    exact firstHit_append_hit (fun b hb => ⟨(passed b hb).1, missed b hb⟩) goesOn accepts

end Thuban.Lib

import Mathlib

/-!
# Following links and erasing them

A link function `f` on the numbers gives each element its successor; only the members of a finite
set, those that satisfy `valid`, are followed.  `Reached f valid a c` says that `c` is met on the way
from `a`.  A walk that erases every link it has followed (sets it to a number that is not valid)
meets the same elements as one that does not, and it ends, whatever the links are: this is the
induction rule `erase_induct`.
-/

namespace Thuban.Lib.Links

/-- The valid elements on the way from `a`. -/
inductive Reached (f : ℕ → ℕ) (valid : ℕ → Prop) : ℕ → ℕ → Prop
  | start {a : ℕ} (good : valid a) : Reached f valid a a
  | next {a c : ℕ} (before : Reached f valid a c) (good : valid (f c)) : Reached f valid a (f c)

variable {f g : ℕ → ℕ} {valid : ℕ → Prop} {a c d mark : ℕ}

namespace Reached

theorem valid_first (h : Reached f valid a c) : valid a := by
  induction h with
  | start good => exact good
  | next _ _ ih => exact ih

theorem trans (h : Reached f valid a c) (h' : Reached f valid c d) : Reached f valid a d := by
  induction h' with
  | start => exact h
  | next _ good ih => exact .next ih good

theorem erase_iff (good : valid c) (erased : ¬ valid mark) (other : d ≠ c) :
    Reached f valid c d ↔ Reached (Function.update f c mark) valid (f c) d := by
  constructor
  · intro h
    induction h with
    | start => exact absurd rfl other
    | @next e before good' ih =>
      by_cases first : e = c
      · rw [first] at good' ⊢
        exact .start good'
      · have same : Function.update f c mark e = f e := Function.update_of_ne first ..
        rw [← same] at good' ⊢
        exact .next (ih first) good'
  · intro h
    clear other
    induction h with
    | start good' => exact .next (.start good) good'
    | @next e before good' ih =>
      by_cases first : e = c
      · rw [first, Function.update_self] at good'
        exact absurd good' erased
      · rw [Function.update_of_ne first] at good' ⊢
        exact .next ih good'

end Reached

/-- The valid elements whose link is not erased. -/
def linked (f : ℕ → ℕ) (valid : ℕ → Prop) [DecidablePred valid] (bound mark : ℕ) : Finset ℕ :=
  (Finset.range bound).filter fun c => valid c ∧ f c ≠ mark

theorem linked_erase_lt [DecidablePred valid] {bound : ℕ} (inside : c < bound) (good : valid c)
    (left : f c ≠ mark) :
    (linked (Function.update f c mark) valid bound mark).card < (linked f valid bound mark).card := by
  apply Finset.card_lt_card
  rw [Finset.ssubset_iff_of_subset]
  · refine ⟨c, ?_, ?_⟩
    · exact Finset.mem_filter.mpr ⟨Finset.mem_range.mpr inside, good, left⟩
    · intro mem
      exact (Finset.mem_filter.mp mem).2.2 (Function.update_self ..)
  · intro d mem
    obtain ⟨low, good', left'⟩ := Finset.mem_filter.mp mem
    refine Finset.mem_filter.mpr ⟨low, good', ?_⟩
    by_cases same : d = c
    · rwa [same]
    · rwa [Function.update_of_ne same] at left'

theorem erase_induct [DecidablePred valid] {bound : ℕ} (finite : ∀ c, valid c → c < bound)
    (erased : ¬ valid mark) {P : (ℕ → ℕ) → ℕ → Prop} (stop : ∀ f c, ¬ valid c → P f c)
    (go : ∀ f c, valid c → P (Function.update f c mark) (f c) → P f c) (f : ℕ → ℕ) (c : ℕ) :
    P f c := by
  induction size : (linked f valid bound mark).card using Nat.strong_induction_on
    generalizing f c with
  | _ n ih =>
    by_cases good : valid c
    · apply go f c good
      by_cases left : f c = mark
      · exact stop _ _ (left ▸ erased)
      · exact ih _ (size ▸ linked_erase_lt (finite c good) good left) _ _ rfl
    · exact stop f c good

end Thuban.Lib.Links

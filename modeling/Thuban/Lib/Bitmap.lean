import Mathlib

/-!
# Bitmaps in words

A set of numbers kept in words of `n` bits: number `i` is bit `i % n` of word `i / n`.  `test` is the
only view of the words: bitmaps with the same members are equal (`ext_test`).
-/

namespace Thuban.Lib.Bitmap

variable {n : ℕ}

/-- The word with only the bit of number `i`. -/
def mask (n i : ℕ) : BitVec n := 1#n <<< (i % n)

def set (m : ℕ → BitVec n) (i : ℕ) : ℕ → BitVec n :=
  Function.update m (i / n) (m (i / n) ||| mask n i)

def clear (m : ℕ → BitVec n) (i : ℕ) : ℕ → BitVec n :=
  Function.update m (i / n) (m (i / n) &&& ~~~ mask n i)

/-- Whether a number is a member. -/
def test (m : ℕ → BitVec n) (i : ℕ) : Bool := m (i / n) &&& mask n i ≠ 0

theorem getLsbD_mask (i k : ℕ) (hk : k < n) : (mask n i).getLsbD k = decide (k = i % n) := by
  rw [mask, BitVec.getLsbD_shiftLeft, BitVec.getLsbD_one]
  rw [Bool.eq_iff_iff]
  simp only [Bool.and_eq_true, decide_eq_true_eq, Bool.not_eq_true', decide_eq_false_iff_not]
  omega

theorem test_eq (m : ℕ → BitVec n) (i : ℕ) (pos : 0 < n) :
    test m i = (m (i / n)).getLsbD (i % n) := by
  have inside := Nat.mod_lt i pos
  rw [Bool.eq_iff_iff, test, decide_eq_true_iff]
  constructor
  · intro some
    by_contra none
    refine some (BitVec.eq_of_getLsbD_eq fun k hk => ?_)
    rw [BitVec.getLsbD_and, getLsbD_mask i k hk]
    by_cases same : k = i % n
    · rw [same]
      simpa using none
    · simp [same]
  · intro member zero
    have bit := congrArg (fun x : BitVec n => x.getLsbD (i % n)) zero
    simp only [BitVec.getLsbD_and, getLsbD_mask i _ inside, member] at bit
    simp at bit

theorem word_ne {i j : ℕ} (h : i / n = j / n) (different : i ≠ j) : i % n ≠ j % n := by
  intro same
  apply different
  rw [← Nat.div_add_mod i n, ← Nat.div_add_mod j n, h, same]

variable (pos : 0 < n)

include pos

theorem test_set (m : ℕ → BitVec n) (i j : ℕ) : test (set m i) j = (decide (j = i) || test m j) := by
  rw [test_eq _ _ pos, test_eq _ _ pos, set]
  by_cases word : j / n = i / n
  · rw [word, Function.update_self, BitVec.getLsbD_or, getLsbD_mask _ _ (Nat.mod_lt j pos)]
    by_cases same : j = i
    · simp [same]
    · simp [same, word_ne word same]
  · have different : j ≠ i := by
      rintro rfl
      exact word rfl
    rw [Function.update_of_ne word]
    simp [different]

theorem test_clear (m : ℕ → BitVec n) (i j : ℕ) :
    test (clear m i) j = (decide (j ≠ i) && test m j) := by
  rw [test_eq _ _ pos, test_eq _ _ pos, clear]
  have inside := Nat.mod_lt j pos
  by_cases word : j / n = i / n
  · rw [word, Function.update_self, BitVec.getLsbD_and, BitVec.getLsbD_not,
      getLsbD_mask _ _ inside]
    by_cases same : j = i
    · simp [same]
    · simp [same, word_ne word same, inside]
  · have different : j ≠ i := by
      rintro rfl
      exact word rfl
    rw [Function.update_of_ne word]
    simp [different]

theorem ext_test {m m' : ℕ → BitVec n} (same : ∀ i, test m i = test m' i) : m = m' := by
  funext w
  refine BitVec.eq_of_getLsbD_eq fun k hk => ?_
  have member := same (n * w + k)
  rw [test_eq _ _ pos, test_eq _ _ pos, Nat.mul_add_div pos, Nat.div_eq_of_lt hk, Nat.mul_add_mod,
    Nat.mod_eq_of_lt hk, Nat.add_zero] at member
  exact member

end Thuban.Lib.Bitmap

import Mathlib

/-!
# Positional numerals

`pushDigits` writes a number by repeated division: the least significant digit is written first, and
each further digit goes in front of those already there.  Filled up with zeros on the left, the
result is the list of the digits at fixed positions (`padded_pushDigits`).
-/

namespace Thuban.Lib

variable {α : Type*} (glyph : ℕ → α) (base : ℕ)

/-- The digits of `n` in front of `buf`; 0 has no digits. -/
def pushDigits : (fuel n : ℕ) → List α → List α
  | 0, _, buf => buf
  | fuel + 1, n, buf =>
      if n = 0 then buf else pushDigits fuel (n / base) (glyph (n % base) :: buf)

variable {glyph base}

theorem pushDigits_zero (fuel : ℕ) (buf : List α) : pushDigits glyph base fuel 0 buf = buf := by
  cases fuel with
  | zero => rfl
  | succ fuel => rw [pushDigits, if_pos rfl]

theorem pushDigits_append (fuel n : ℕ) (buf : List α) :
    pushDigits glyph base fuel n buf = pushDigits glyph base fuel n [] ++ buf := by
  induction fuel generalizing n buf with
  | zero => rfl
  | succ fuel ih =>
    rw [pushDigits, pushDigits]
    split_ifs
    · rfl
    · rw [ih, ih _ [glyph (n % base)], List.append_assoc]
      rfl

theorem pushDigits_eq_digits {fuel n : ℕ} (big : 1 < base) (small : n < base ^ fuel) :
    pushDigits glyph base fuel n [] = (Nat.digits base n).reverse.map glyph := by
  induction fuel generalizing n with
  | zero =>
    obtain rfl : n = 0 := by simpa using small
    simp [pushDigits]
  | succ fuel ih =>
    rw [pushDigits]
    split_ifs with zero
    · simp [zero]
    · have front : n / base < base ^ fuel := by
        rw [Nat.div_lt_iff_lt_mul (by omega), ← pow_succ]
        exact small
      rw [pushDigits_append, ih front, Nat.digits_def' big (Nat.pos_of_ne_zero zero), List.reverse_cons,
        List.map_append, List.map_singleton]

theorem pushDigits_congr {glyph' : ℕ → α} (pos : 0 < base)
    (same : ∀ d < base, glyph d = glyph' d) (fuel n : ℕ) (buf : List α) :
    pushDigits glyph base fuel n buf = pushDigits glyph' base fuel n buf := by
  induction fuel generalizing n buf with
  | zero => rfl
  | succ fuel ih =>
    rw [pushDigits, pushDigits, ih, same _ (Nat.mod_lt n pos)]

/-- A number below `base ^ k`, filled up with zeros to `k` digits, shows its digits at the positions
`k - 1` to 0. -/
theorem padded_pushDigits {k fuel n : ℕ} (pos : 0 < base) (small : n < base ^ k) (enough : k ≤ fuel) :
    (pushDigits glyph base fuel n []).length ≤ k ∧
      List.replicate (k - (pushDigits glyph base fuel n []).length) (glyph 0) ++
        pushDigits glyph base fuel n [] =
          (List.range k).map fun j => glyph (n / base ^ (k - 1 - j) % base) := by
  induction k generalizing fuel n with
  | zero =>
    obtain rfl : n = 0 := by simpa using small
    rw [pushDigits_zero]
    simp
  | succ k ih =>
    obtain ⟨fuel, rfl⟩ : ∃ m, fuel = m + 1 := ⟨fuel - 1, by omega⟩
    have front : n / base < base ^ k := by
      rw [Nat.div_lt_iff_lt_mul pos, ← pow_succ]
      exact small
    obtain ⟨short, digits⟩ := ih front (by omega : k ≤ fuel)
    have positions : (List.range (k + 1)).map (fun j => glyph (n / base ^ (k + 1 - 1 - j) % base)) =
        (List.range k).map (fun j => glyph (n / base / base ^ (k - 1 - j) % base)) ++
          [glyph (n % base)] := by
      rw [List.range_succ, List.map_append, List.map_singleton]
      congr 1
      · refine List.map_congr_left fun j hj => ?_
        have := List.mem_range.mp hj
        rw [Nat.div_div_eq_div_mul, ← pow_succ']
        congr 4
        omega
      · simp
    rw [positions, ← digits, pushDigits]
    split_ifs with zero
    · subst zero
      simp [pushDigits_zero, List.replicate_succ']
    · rw [pushDigits_append]
      refine ⟨by simpa using short, ?_⟩
      rw [List.length_append, List.length_singleton, Nat.add_sub_add_right, List.append_assoc]

end Thuban.Lib

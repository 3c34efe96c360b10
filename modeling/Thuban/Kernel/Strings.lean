import Mathlib

/-!
# C strings

`lib/string.c`, as far as the file system uses it.  A string is the list of its bytes before the
terminating NUL; `strcmp` of two strings is then equality of lists.
-/

namespace Thuban

/-- The bytes of a C string, without the terminator. -/
abbrev CString := List UInt8

/-- `strchr`: the index of the first `c`; the terminator counts as part of the string. -/
def strchr (s : CString) (c : UInt8) : Option ℕ :=
  if c = 0 then some s.length else s.idxOf? c

/-- The loop of `strrchr`: `i` is the index of the rest, `last` the latest match before it. -/
def strrchrFrom (c : UInt8) : CString → ℕ → Option ℕ → Option ℕ
  | [], _, last => last
  | x :: rest, i, last => strrchrFrom c rest (i + 1) (if x = c then some i else last)

/-- `strrchr` with a character other than NUL: the index of the last `c`. -/
def strrchr (s : CString) (c : UInt8) : Option ℕ := strrchrFrom c s 0 none

variable {c : UInt8} {s t : CString}

theorem strrchrFrom_eq_last (absent : c ∉ s) (i : ℕ) (last : Option ℕ) :
    strrchrFrom c s i last = last := by
  induction s generalizing i last with
  | nil => rfl
  | cons x s ih =>
    rw [List.mem_cons, not_or] at absent
    rw [strrchrFrom, if_neg (Ne.symm absent.1)]
    exact ih absent.2 _ _

theorem strrchrFrom_append (absent : c ∉ t) (i : ℕ) (last : Option ℕ) :
    strrchrFrom c (s ++ c :: t) i last = some (i + s.length) := by
  induction s generalizing i last with
  | nil =>
    rw [List.nil_append, strrchrFrom, if_pos rfl]
    exact strrchrFrom_eq_last absent _ _
  | cons x s ih =>
    rw [List.cons_append, strrchrFrom, ih, List.length_cons]
    congr 1
    omega

theorem strrchr_eq_none (absent : c ∉ s) : strrchr s c = none :=
  strrchrFrom_eq_last absent _ _

theorem strrchr_append (absent : c ∉ t) : strrchr (s ++ c :: t) c = some s.length := by
  rw [strrchr, strrchrFrom_append absent, Nat.zero_add]

theorem exists_split_last (mem : c ∈ s) : ∃ s₁ s₂, s = s₁ ++ c :: s₂ ∧ c ∉ s₂ := by
  induction s with
  | nil => exact absurd mem List.not_mem_nil
  | cons x s ih =>
    by_cases later : c ∈ s
    · obtain ⟨s₁, s₂, rfl, absent⟩ := ih later
      exact ⟨x :: s₁, s₂, rfl, absent⟩
    · obtain rfl := (List.mem_cons.mp mem).resolve_right later
      exact ⟨[], s, rfl, later⟩

end Thuban

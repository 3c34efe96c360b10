import Thuban.Mm.Pmm

/-!
# First fit

`pmm_alloc_pages` hands out the first run of free pages that is long enough.  The scan of
`find_free_pages` keeps the length of the run that ends at the page it looks at; that no earlier
window is free is the invariant `Passed`, which the page in front of the run carries from page to
page (`passed_free`, `passed_used`).

A pointer to page 0 is NULL.  `pmm_init` reserves this page, but the search does not leave it out.
-/

namespace Thuban.Mm

namespace Pmm

/-- The `count` pages from `page` on are all below `total_pages` and free. -/
def FreeRun (s : Pmm) (count page : ℕ) : Prop :=
  page + count ≤ s.totalPages ∧ ∀ p, InRange page count p → s.bitmapTest p = false

/-- No window of `count` pages that ends at or before page `i` is free. -/
def Passed (s : Pmm) (count i : ℕ) : Prop :=
  ∀ q, q + count ≤ i → ∃ p, InRange q count p ∧ s.bitmapTest p = true

/-- The pointer that a caller sees: NULL is the address 0. -/
def pointer (answer : Option ℕ) : ℕ := answer.getD 0

variable {s : Pmm} {count i found n start p : ℕ}

theorem passed_zero (s : Pmm) (pos : 0 < count) : s.Passed count 0 := fun q ends => by omega

theorem passed_used (passed : s.Passed count i) (pos : 0 < count) (used : s.bitmapTest i = true) :
    s.Passed count (i + 1) := by
  intro q ends
  by_cases last : q + count ≤ i
  · exact passed q last
  · exact ⟨i, ⟨by omega, by omega⟩, used⟩

section

variable (passed : s.Passed count i) (le : found ≤ i)
  (edge : found < i → s.bitmapTest (i - found - 1) = true)

include passed le edge

theorem passed_free (short : found + 1 < count) : s.Passed count (i + 1) := by
  intro q ends
  by_cases last : q + count ≤ i
  · exact passed q last
  · exact ⟨i - found - 1, ⟨by omega, by omega⟩, edge (by omega)⟩

/-- The scan of `find_free_pages`: the window it returns is the first one that is free, and without an
answer there is none. -/
theorem findFreePagesFrom_first (first : found ≠ 0 → start = i - found) (short : found < count) :
    (∀ p, s.findFreePagesFrom count n i found start = some p → s.Passed count (p + count - 1)) ∧
      (s.findFreePagesFrom count n i found start = none → s.Passed count (i + n)) := by
  induction n generalizing i found start with
  | zero => exact ⟨fun p found => absurd found (by simp [findFreePagesFrom]), fun _ => passed⟩
  | succ n ih =>
    have start' : (if found = 0 then i else start) = i - found := by
      split_ifs with none
      · omega
      · exact first none
    rw [findFreePagesFrom]
    simp only [start']
    cases used : s.bitmapTest i with
    | true =>
      have next := @ih (i + 1) 0 start (passed_used passed (by omega) used) (Nat.zero_le _)
        (fun _ => used) (absurd rfl ·) (by omega)
      simpa only [Bool.not_true, Bool.false_eq_true, if_false, Nat.add_right_comm i 1 n,
        Nat.add_assoc i n 1] using next
    | false =>
      simp only [Bool.not_false, if_true]
      split_ifs with full
      · refine ⟨fun p same => ?_, fun none => absurd none (by simp)⟩
        cases same
        have here : i - found + count - 1 = i := by omega
        rw [here]
        exact passed
      · have edge' : found + 1 < i + 1 → s.bitmapTest (i + 1 - (found + 1) - 1) = true := by
          intro before
          rw [Nat.add_sub_add_right]
          exact edge (by omega)
        have next := @ih (i + 1) (found + 1) (i - found) (passed_free passed le edge (by omega))
          (by omega) edge' (fun _ => by omega) (by omega)
        simpa only [Nat.add_right_comm i 1 n, Nat.add_assoc i n 1] using next

end

theorem findFreePageFrom_none (done : s.findFreePageFrom n i = none) :
    ∀ q, i ≤ q → q < i + n → s.bitmapTest q = true := by
  induction n generalizing i with
  | zero => exact fun q low high => by omega
  | succ n ih =>
    rw [findFreePageFrom] at done
    split_ifs at done with free
    intro q low high
    rcases Nat.eq_or_lt_of_le low with rfl | later
    · simpa using free
    · exact ih done q later (by omega)

theorem FreeRun.lt_of_passed (run : s.FreeRun count p) (passed : s.Passed count i) : i < p + count := by
  by_contra reached
  obtain ⟨q, inside, used⟩ := passed p (by omega)
  rw [run.2 q inside] at used
  cases used

theorem allocPages_none (pos : 0 < count) {s' : Pmm} (done : s.allocPages count = (none, s')) :
    s' = s ∧ ∀ page, ¬ s.FreeRun count page := by
  refine ⟨allocPages_eq_none done, fun page run => ?_⟩
  rw [allocPages, if_neg (by omega)] at done
  split_ifs at done with one
  · cases found : s.findFreePage with
    | some p => simp [alloc, found] at done
    | none =>
      have used := findFreePageFrom_none found page (by omega) (by have := run.1; omega)
      rw [run.2 page ⟨le_rfl, by omega⟩] at used
      cases used
  · cases found : s.findFreePages count with
    | some p => simp [found] at done
    | none =>
      have passed := (findFreePagesFrom_first (passed_zero s pos) le_rfl (fun h => by omega)
        (absurd rfl ·) (by omega)).2 found
      have := run.lt_of_passed passed
      have := run.1
      omega

theorem allocPages_some {s' : Pmm} {addr : ℕ} (done : s.allocPages count = (some addr, s')) :
    ∃ page, IsLeast {p | s.FreeRun count p} page ∧ addr = page * pageSize ∧
      s' = s.takeRange page count := by
  obtain ⟨page, pos, inside, free, address, rest⟩ := allocPages_eq_some done
  refine ⟨page, ⟨⟨inside, free⟩, fun q run => ?_⟩, address, rest⟩
  rw [allocPages, if_neg (by omega)] at done
  split_ifs at done with one
  · obtain ⟨page', -, -, address', -, first⟩ := alloc_eq_some done
    obtain rfl : page' = page := by
      have : 0 < pageSize := by decide
      exact Nat.eq_of_mul_eq_mul_right this (address'.symm.trans address)
    by_contra before
    have used := first q (by omega)
    rw [run.2 q ⟨le_rfl, by omega⟩] at used
    cases used
  · cases found : s.findFreePages count with
    | none => simp [found] at done
    | some page' =>
      simp only [found, Prod.mk.injEq, Option.some.injEq] at done
      obtain rfl : page' = page := by
        have : 0 < pageSize := by decide
        exact Nat.eq_of_mul_eq_mul_right this (done.1.trans address)
      have passed := (findFreePagesFrom_first (passed_zero s pos) le_rfl (fun h => by omega)
        (absurd rfl ·) (by omega)).1 _ found
      have := run.lt_of_passed passed
      omega

end Pmm

open Pmm

/-- For every bitmap, `pmm_alloc_pages` hands out the first run of `count` free pages and marks exactly
these, or there is no such run and it changes nothing.  The pointer is NULL if there is no run, or the
first one starts at page 0. -/
theorem allocation_first_fit (s : Pmm) {count : ℕ} (pos : 0 < count) :
    ((∃ page, IsLeast {p | s.FreeRun count p} page ∧
        pointer (s.allocPages count).1 = pageSize * page ∧
        (s.allocPages count).2.totalPages = s.totalPages ∧
        ∀ p, (s.allocPages count).2.bitmapTest p = true ↔
          InRange page count p ∨ s.bitmapTest p = true) ∨
      (∀ page, ¬ s.FreeRun count page) ∧ pointer (s.allocPages count).1 = 0 ∧
        (s.allocPages count).2 = s) ∧
    (pointer (s.allocPages count).1 = 0 ↔
      (∀ page, ¬ s.FreeRun count page) ∨ s.FreeRun count 0) := by
  rcases answer : s.allocPages count with ⟨_ | addr, s'⟩
  · obtain ⟨same, none⟩ := allocPages_none pos answer
    exact ⟨.inr ⟨none, rfl, same⟩, fun _ => .inl none, fun _ => rfl⟩
  · obtain ⟨page, least, rfl, rfl⟩ := allocPages_some answer
    refine ⟨.inl ⟨page, least, Nat.mul_comm .., takeRange_totalPages .., fun p => ?_⟩, ?_⟩
    · rw [takeRange_test]
      simp
    · show page * pageSize = 0 ↔ _
      constructor
      · intro zero
        obtain rfl : page = 0 := by
          simpa [pageSize] using zero
        exact .inr least.1
      · rintro (none | run)
        · exact absurd least.1 (none page)
        · rw [Nat.le_zero.mp (least.2 run), Nat.zero_mul]

/-- Four pages, of which the first one is in use. -/
def fourPages : Pmm := { bitmap := fun w => if w = 0 then 1 else 0, totalPages := 4, usedPages := 1 }

/-- Two of the four pages are handed out, and not as NULL. -/
theorem allocation_first_fit_four :
    ∃ page, IsLeast {p | fourPages.FreeRun 2 p} page ∧
      pointer (fourPages.allocPages 2).1 = pageSize * page ∧ pointer (fourPages.allocPages 2).1 ≠ 0 := by
  have run : fourPages.FreeRun 2 1 := by
    refine ⟨by decide, fun p inside => ?_⟩
    obtain rfl | rfl : p = 1 ∨ p = 2 := by
      have := inside.1
      have := inside.2
      omega
    · decide
    · decide
  obtain ⟨⟨page, least, address, -⟩ | ⟨none, -⟩, null⟩ := allocation_first_fit fourPages (by decide : 0 < 2)
  · refine ⟨page, least, address, fun zero => ?_⟩
    rcases null.mp zero with none | first
    · exact none 1 run
    · exact absurd (first.2 0 ⟨le_rfl, by decide⟩) (by decide)
  · exact absurd run (none 1)

/-- Four pages, none of which is in use. -/
def fourFree : Pmm := { bitmap := fun _ => 0, totalPages := 4, usedPages := 0 }

/-- The first of four free pages is handed out as NULL, and marked. -/
theorem page_zero_is_null :
    fourFree.FreeRun 1 0 ∧ pointer (fourFree.allocPages 1).1 = 0 ∧
      (fourFree.allocPages 1).2.bitmapTest 0 = true ∧ fourFree.bitmapTest 0 = false := by
  refine ⟨⟨by decide, fun p inside => ?_⟩, by decide, by decide, by decide⟩
  obtain rfl : p = 0 := by
    have := inside.2
    omega
  decide

end Thuban.Mm

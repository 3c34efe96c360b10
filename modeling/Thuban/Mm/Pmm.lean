import Thuban.Lib.Bitmap

/-!
# The physical memory manager

`mm/pmm.c`: one bit for each page of 4 KB, set while the page is in use.  Pages are numbers and
addresses are 64-bit numbers; the functions hand out and take back addresses, and `none` is NULL.
Locks and the statistics (`pmm_get_total_memory` and the like) are left out.
-/

namespace Thuban.Mm

open Lib

def pageSize : ℕ := 4096

/-- The words of the bitmap. -/
def bitmapSize : ℕ := 32768

def kernelVirtBase : ℕ := 0xFFFFFFFF80000000

/-- The static variables of `mm/pmm.c`. -/
structure Pmm where
  bitmap : ℕ → BitVec 32
  totalPages : ℕ
  usedPages : ℕ

namespace Pmm

/-- `bitmap_set`, with the count of used pages that always goes with it. -/
def take (s : Pmm) (page : ℕ) : Pmm :=
  { s with bitmap := Bitmap.set s.bitmap page, usedPages := (s.usedPages + 1) % 2 ^ 64 }

/-- `bitmap_test` -/
def bitmapTest (s : Pmm) (page : ℕ) : Bool := Bitmap.test s.bitmap page

/-- The loop of `find_free_page` with `n` pages to go. -/
def findFreePageFrom (s : Pmm) : (n i : ℕ) → Option ℕ
  | 0, _ => none
  | n + 1, i => if !s.bitmapTest i then some i else findFreePageFrom s n (i + 1)

/-- `find_free_page` -/
def findFreePage (s : Pmm) : Option ℕ := s.findFreePageFrom s.totalPages 0

/-- The loop of `find_free_pages` with `n` pages to go; the last `found` pages are free, the first of
them is `start`. -/
def findFreePagesFrom (s : Pmm) (count : ℕ) : (n i found start : ℕ) → Option ℕ
  | 0, _, _, _ => none
  | n + 1, i, found, start =>
      if !s.bitmapTest i then
        let start := if found = 0 then i else start
        if found + 1 = count then some start
        else findFreePagesFrom s count n (i + 1) (found + 1) start
      else findFreePagesFrom s count n (i + 1) 0 start

/-- `find_free_pages` -/
def findFreePages (s : Pmm) (count : ℕ) : Option ℕ := s.findFreePagesFrom count s.totalPages 0 0 0

/-- The loops that mark `n` pages from `page` on. -/
def takeRange (s : Pmm) (page : ℕ) : ℕ → Pmm
  | 0 => s
  | n + 1 => (s.take page).takeRange (page + 1) n

/-- The pages below the end of the kernel image, at least the first megabyte; `kernelEnd` is the
address of `_kernel_end`. -/
def kernelPages (kernelEnd : ℕ) : ℕ :=
  let physical := (kernelEnd + (2 ^ 64 - kernelVirtBase)) % 2 ^ 64
  max 256 ((physical + pageSize - 1) % 2 ^ 64 / pageSize)

/-- `pmm_init` -/
def init (memSize kernelEnd : ℕ) : Pmm :=
  takeRange
    { bitmap := fun _ => 0
      totalPages := min (memSize / pageSize) (bitmapSize * 32)
      usedPages := 0 }
    0 (kernelPages kernelEnd)

/-- `pmm_alloc` -/
def alloc (s : Pmm) : Option ℕ × Pmm :=
  match s.findFreePage with
  | none => (none, s)
  | some page => (some (page * pageSize), s.take page)

/-- `pmm_alloc_pages` -/
def allocPages (s : Pmm) (count : ℕ) : Option ℕ × Pmm :=
  if count = 0 then (none, s)
  else if count = 1 then s.alloc
  else
    match s.findFreePages count with
    | none => (none, s)
    | some page => (some (page * pageSize), s.takeRange page count)

/-- `pmm_free` -/
def free (s : Pmm) (addr : ℕ) : Pmm :=
  if addr = 0 then s
  else if s.totalPages ≤ addr / pageSize then s
  else if !s.bitmapTest (addr / pageSize) then s
  else
    { s with
      bitmap := Bitmap.clear s.bitmap (addr / pageSize)
      usedPages := (s.usedPages + (2 ^ 64 - 1)) % 2 ^ 64 }

/-- The loop of `pmm_free_pages` with `n` pages to go. -/
def freePagesFrom (s : Pmm) (addr : ℕ) : (n i : ℕ) → Pmm
  | 0, _ => s
  | n + 1, i => (s.free ((addr + i * pageSize) % 2 ^ 64)).freePagesFrom addr n (i + 1)

/-- `pmm_free_pages` -/
def freePages (s : Pmm) (addr count : ℕ) : Pmm := s.freePagesFrom addr count 0

/-! ## What the calls do to the set of used pages -/

/-- The pages from `page` on, `n` of them. -/
def InRange (page n p : ℕ) : Prop := page ≤ p ∧ p < page + n

instance (page n p : ℕ) : Decidable (InRange page n p) := inferInstanceAs (Decidable (_ ∧ _))

variable {s s' : Pmm} {page n p : ℕ}

@[simp] theorem take_totalPages (s : Pmm) (page : ℕ) : (s.take page).totalPages = s.totalPages := rfl

@[simp] theorem take_test (s : Pmm) (page p : ℕ) :
    (s.take page).bitmapTest p = (decide (p = page) || s.bitmapTest p) :=
  Bitmap.test_set (by decide) s.bitmap page p

theorem takeRange_test (s : Pmm) (page n p : ℕ) :
    (s.takeRange page n).bitmapTest p = (decide (InRange page n p) || s.bitmapTest p) := by
  induction n generalizing s page with
  | zero =>
    have none : ¬ InRange page 0 p := by unfold InRange; omega
    simp [takeRange, none]
  | succ n ih =>
    rw [takeRange, ih, take_test, ← Bool.or_assoc, ← Bool.decide_or]
    congr 2
    simp only [InRange, eq_iff_iff]
    omega

@[simp] theorem takeRange_totalPages (s : Pmm) (page n : ℕ) :
    (s.takeRange page n).totalPages = s.totalPages := by
  induction n generalizing s page with
  | zero => rfl
  | succ n ih => rw [takeRange, ih, take_totalPages]

theorem takeRange_spec (s : Pmm) (page n : ℕ) (small : s.usedPages + n < 2 ^ 64) :
    (∀ p, (s.takeRange page n).bitmapTest p = (decide (InRange page n p) || s.bitmapTest p)) ∧
      (s.takeRange page n).totalPages = s.totalPages ∧
      (s.takeRange page n).usedPages = s.usedPages + n := by
  refine ⟨takeRange_test s page n, takeRange_totalPages s page n, ?_⟩
  induction n generalizing s page with
  | zero => rfl
  | succ n ih =>
    have used : (s.take page).usedPages = s.usedPages + 1 := Nat.mod_eq_of_lt (by omega)
    rw [takeRange, ih (s.take page) (page + 1) (by omega), used]
    omega

variable {i count found start addr : ℕ}

theorem findFreePageFrom_spec (found : s.findFreePageFrom n i = some p) :
    i ≤ p ∧ p < i + n ∧ s.bitmapTest p = false ∧ ∀ q, i ≤ q → q < p → s.bitmapTest q = true := by
  induction n generalizing i with
  | zero => cases found
  | succ n ih =>
    rw [findFreePageFrom] at found
    split_ifs at found with free
    · cases found
      exact ⟨le_rfl, by omega, by simpa using free, fun q low high => by omega⟩
    · obtain ⟨low, high, free', first⟩ := ih found
      refine ⟨by omega, by omega, free', fun q hq hqp => ?_⟩
      rcases Nat.eq_or_lt_of_le hq with rfl | later
      · simpa using free
      · exact first q later hqp

theorem findFreePagesFrom_spec (le : found ≤ i)
    (run : ∀ q, i - found ≤ q → q < i → s.bitmapTest q = false)
    (first : found ≠ 0 → start = i - found) (short : found < count)
    (done : s.findFreePagesFrom count n i found start = some p) :
    p + count ≤ i + n ∧ ∀ q, InRange p count q → s.bitmapTest q = false := by
  induction n generalizing i found start with
  | zero => cases done
  | succ n ih =>
    have start' : (if found = 0 then i else start) = i - found := by
      split_ifs with none
      · omega
      · exact first none
    rw [findFreePagesFrom] at done
    simp only [start'] at done
    by_cases free : s.bitmapTest i = false
    · have longer : ∀ q, i - found ≤ q → q < i + 1 → s.bitmapTest q = false := by
        intro q low high
        by_cases last : q = i
        · rw [last]
          exact free
        · exact run q low (by omega)
      rw [if_pos (by simp [free])] at done
      split_ifs at done with full
      · cases done
        exact ⟨by omega, fun q hq => longer q hq.1 (by have := hq.2; omega)⟩
      · obtain ⟨bound, range⟩ := ih (i := i + 1) (by omega)
          (fun q low => longer q (by omega)) (fun _ => by omega) (by omega) done
        exact ⟨by omega, range⟩
    · rw [if_neg (by simpa using free)] at done
      obtain ⟨bound, range⟩ := ih (i := i + 1) (Nat.zero_le _) (fun q low high => by omega)
        (absurd rfl ·) (by omega) done
      exact ⟨by omega, range⟩

theorem alloc_eq_some (done : s.alloc = (some addr, s')) :
    ∃ page < s.totalPages, s.bitmapTest page = false ∧ addr = page * pageSize ∧
      s' = s.take page ∧ ∀ q < page, s.bitmapTest q = true := by
  unfold alloc at done
  cases found : s.findFreePage with
  | none => simp [found] at done
  | some page =>
    simp only [found, Prod.mk.injEq, Option.some.injEq] at done
    obtain ⟨-, inside, free, first⟩ := findFreePageFrom_spec found
    exact ⟨page, by omega, free, done.1.symm, done.2.symm, fun q hq => first q q.zero_le hq⟩

theorem alloc_eq_none (done : s.alloc = (none, s')) : s' = s := by
  unfold alloc at done
  cases found : s.findFreePage with
  | none =>
    simp only [found, Prod.mk.injEq, true_and] at done
    exact done.symm
  | some page => simp [found] at done

theorem allocPages_eq_some (done : s.allocPages count = (some addr, s')) :
    ∃ page, 0 < count ∧ page + count ≤ s.totalPages ∧
      (∀ p, InRange page count p → s.bitmapTest p = false) ∧ addr = page * pageSize ∧
        s' = s.takeRange page count := by
  unfold allocPages at done
  split_ifs at done with none one
  · cases done
  · obtain ⟨page, inside, free, address, rest, -⟩ := alloc_eq_some done
    subst one
    refine ⟨page, Nat.one_pos, inside, fun p hp => ?_, address, rest⟩
    have same : p = page := by unfold InRange at hp; omega
    rw [same]
    exact free
  · cases found : s.findFreePages count with
    | none => simp [found] at done
    | some page =>
      simp only [found, Prod.mk.injEq, Option.some.injEq] at done
      obtain ⟨bound, free⟩ := findFreePagesFrom_spec le_rfl (fun q low high => by omega)
        (absurd rfl ·) (by omega) found
      exact ⟨page, by omega, by omega, free, done.1.symm, done.2.symm⟩

theorem allocPages_eq_none (done : s.allocPages count = (none, s')) : s' = s := by
  unfold allocPages at done
  split_ifs at done with none one
  · exact (Prod.mk.inj done).2.symm
  · exact alloc_eq_none done
  · cases found : s.findFreePages count with
    | none =>
      simp only [found, Prod.mk.injEq, true_and] at done
      exact done.symm
    | some page => simp [found] at done

theorem allocPages_totalPages (s : Pmm) (count : ℕ) :
    (s.allocPages count).2.totalPages = s.totalPages := by
  rcases done : s.allocPages count with ⟨_ | addr, s'⟩
  · rw [allocPages_eq_none done]
  · obtain ⟨page, -, -, -, -, rfl⟩ := allocPages_eq_some done
    exact takeRange_totalPages ..

/-! ## While the used pages are the first ones -/

theorem findFreePageFrom_eq (low : i ≤ p) (high : p < i + n) (free : s.bitmapTest p = false)
    (first : ∀ q, i ≤ q → q < p → s.bitmapTest q = true) : s.findFreePageFrom n i = some p := by
  induction n generalizing i with
  | zero => omega
  | succ n ih =>
    rw [findFreePageFrom]
    by_cases here : i = p
    · rw [here, free]
      rfl
    · rw [first i le_rfl (by omega)]
      exact ih (by omega) (by omega) fun q hq => first q (by omega)

theorem findFreePagesFrom_inside (at_run : i = p + found) (begins : found ≠ 0 → start = p)
    (short : found < count) (room : p + count ≤ i + n)
    (free : ∀ q, InRange p count q → s.bitmapTest q = false) :
    s.findFreePagesFrom count n i found start = some p := by
  induction n generalizing i found start with
  | zero => omega
  | succ n ih =>
    have start' : (if found = 0 then i else start) = p := by
      split_ifs with none
      · omega
      · exact begins none
    have here : s.bitmapTest i = false := free i ⟨by omega, by omega⟩
    rw [findFreePagesFrom, here]
    simp only [Bool.not_false, if_true, start']
    split_ifs with full
    · rfl
    · exact ih (by omega) (fun _ => rfl) (by omega) (by omega)

theorem findFreePagesFrom_before (low : i ≤ p) (pos : 0 < count) (room : p + count ≤ i + n)
    (used : ∀ q, i ≤ q → q < p → s.bitmapTest q = true)
    (free : ∀ q, InRange p count q → s.bitmapTest q = false) :
    s.findFreePagesFrom count n i 0 start = some p := by
  induction n generalizing i with
  | zero => omega
  | succ n ih =>
    by_cases here : i = p
    · exact findFreePagesFrom_inside here (absurd rfl ·) pos room free
    · rw [findFreePagesFrom, used i le_rfl (by omega)]
      exact ih (by omega) (by omega) fun q hq => used q (by omega)

theorem alloc_of_first (inside : p < s.totalPages) (free : s.bitmapTest p = false)
    (first : ∀ q < p, s.bitmapTest q = true) : s.alloc = (some (p * pageSize), s.take p) := by
  have found : s.findFreePage = some p :=
    findFreePageFrom_eq p.zero_le (by omega) free fun q _ hq => first q hq
  rw [alloc, found]

theorem allocPages_of_first (pos : 0 < count) (room : p + count ≤ s.totalPages)
    (free : ∀ q, InRange p count q → s.bitmapTest q = false)
    (first : ∀ q < p, s.bitmapTest q = true) :
    s.allocPages count = (some (p * pageSize), s.takeRange p count) := by
  rw [allocPages, if_neg (by omega)]
  split_ifs with one
  · rw [alloc_of_first (by omega) (free p ⟨le_rfl, by omega⟩) first, one]
    rfl
  · have found : s.findFreePages count = some p :=
      findFreePagesFrom_before p.zero_le pos (by omega) (fun q _ hq => first q hq) free
    rw [found]

section Filled

variable {k : ℕ} (filled : ∀ p, s.bitmapTest p = decide (p < k))

include filled

theorem alloc_of_filled (room : k < s.totalPages) : s.alloc = (some (k * pageSize), s.take k) :=
  alloc_of_first room (by rw [filled]; simp) fun q hq => by rw [filled, decide_eq_true hq]

theorem allocPages_of_filled {count : ℕ} (pos : 0 < count) (room : k + count ≤ s.totalPages) :
    s.allocPages count = (some (k * pageSize), s.takeRange k count) :=
  allocPages_of_first pos room
    (fun q hq => by rw [filled, decide_eq_false (Nat.not_lt.mpr hq.1)])
    fun q hq => by rw [filled, decide_eq_true hq]

theorem takeRange_filled (count p : ℕ) :
    (s.takeRange k count).bitmapTest p = decide (p < k + count) := by
  rw [takeRange_test, filled, ← Bool.decide_or]
  congr 1
  exact propext (by unfold InRange; omega)

end Filled

theorem free_test (s : Pmm) (addr q : ℕ) :
    (s.free addr).bitmapTest q =
      if addr ≠ 0 ∧ addr / pageSize < s.totalPages ∧ q = addr / pageSize then false
      else s.bitmapTest q := by
  unfold free
  by_cases zero : addr = 0
  · rw [if_pos zero, if_neg (by simp [zero])]
  rw [if_neg zero]
  by_cases outside : s.totalPages ≤ addr / pageSize
  · rw [if_pos outside, if_neg (by omega)]
  rw [if_neg outside]
  by_cases unused : s.bitmapTest (addr / pageSize) = false
  · rw [if_pos (by simp [unused])]
    split_ifs with same
    · rw [same.2.2]
      exact unused
    · rfl
  · rw [if_neg (by simpa using unused)]
    refine (Bitmap.test_clear (by decide) s.bitmap (addr / pageSize) q).trans ?_
    by_cases same : q = addr / pageSize
    · rw [if_pos ⟨zero, by omega, same⟩, decide_eq_false (by simp [same])]
      rfl
    · rw [if_neg fun h => same h.2.2, decide_eq_true same]
      rfl

@[simp] theorem free_totalPages (s : Pmm) (addr : ℕ) : (s.free addr).totalPages = s.totalPages := by
  unfold free
  split_ifs <;> rfl

variable {addr i q : ℕ}

theorem freePagesFrom_test_of_ne
    (apart : ∀ j, i ≤ j → j < i + n → (addr + j * pageSize) % 2 ^ 64 / pageSize ≠ q) :
    (s.freePagesFrom addr n i).bitmapTest q = s.bitmapTest q := by
  induction n generalizing s i with
  | zero => rfl
  | succ n ih =>
    rw [freePagesFrom, ih fun j low high => apart j (by omega) (by omega), free_test,
      if_neg fun same => apart i le_rfl (by omega) same.2.2.symm]

theorem freePagesFrom_used (used : (s.freePagesFrom addr n i).bitmapTest q = true) :
    s.bitmapTest q = true := by
  induction n generalizing s i with
  | zero => exact used
  | succ n ih =>
    have before := ih used
    rw [free_test] at before
    split_ifs at before
    exact before

theorem freePagesFrom_test_of_eq {addr i j : ℕ} (low : i ≤ j) (high : j < i + n)
    (nonzero : (addr + j * pageSize) % 2 ^ 64 ≠ 0)
    (inside : (addr + j * pageSize) % 2 ^ 64 / pageSize < s.totalPages) :
    (s.freePagesFrom addr n i).bitmapTest ((addr + j * pageSize) % 2 ^ 64 / pageSize) = false := by
  induction n generalizing s i with
  | zero => omega
  | succ n ih =>
    rw [freePagesFrom]
    by_cases here : j = i
    · subst here
      refine Bool.eq_false_of_not_eq_true fun used => ?_
      have before := freePagesFrom_used used
      rw [free_test, if_pos ⟨nonzero, inside, rfl⟩] at before
      cases before
    · exact ih (by omega) (by omega) (by rw [free_totalPages]; exact inside)

@[simp] theorem freePagesFrom_totalPages (s : Pmm) (addr n i : ℕ) :
    (s.freePagesFrom addr n i).totalPages = s.totalPages := by
  induction n generalizing s i with
  | zero => rfl
  | succ n ih => rw [freePagesFrom, ih, free_totalPages]

theorem freePages_test_of_not_mem {count : ℕ} (inside : page + count ≤ 2 ^ 20)
    (outside : ¬ InRange page count q) :
    (s.freePages (page * pageSize) count).bitmapTest q = s.bitmapTest q := by
  refine freePagesFrom_test_of_ne fun j _ hj same => outside ?_
  unfold pageSize at same
  unfold InRange
  omega

theorem free_spec (page : addr / pageSize = p) (nonzero : p ≠ 0) (inside : p < s.totalPages)
    (used : s.bitmapTest p = true) (count : 0 < s.usedPages) (small : s.usedPages < 2 ^ 64) :
    (∀ q, (s.free addr).bitmapTest q = (decide (q ≠ p) && s.bitmapTest q)) ∧
      (s.free addr).totalPages = s.totalPages ∧ (s.free addr).usedPages = s.usedPages - 1 := by
  have address : addr ≠ 0 := by
    rintro rfl
    exact nonzero (by rw [← page, Nat.zero_div])
  unfold free
  rw [page, if_neg address, if_neg (by omega), if_neg (by simp [used])]
  refine ⟨Bitmap.test_clear (by decide) s.bitmap p, rfl, ?_⟩
  show (s.usedPages + (2 ^ 64 - 1)) % 2 ^ 64 = s.usedPages - 1
  omega

theorem freePagesFrom_spec {addr i : ℕ} (low : pageSize ≤ addr) (high : s.totalPages ≤ 2 ^ 20)
    (used : ∀ q, InRange (addr / pageSize + i) n q → q < s.totalPages ∧ s.bitmapTest q = true)
    (count : n ≤ s.usedPages) (small : s.usedPages < 2 ^ 64) :
    (∀ q, (s.freePagesFrom addr n i).bitmapTest q =
        (decide (¬ InRange (addr / pageSize + i) n q) && s.bitmapTest q)) ∧
      (s.freePagesFrom addr n i).totalPages = s.totalPages ∧
      (s.freePagesFrom addr n i).usedPages = s.usedPages - n := by
  induction n generalizing s i with
  | zero =>
    refine ⟨fun q => ?_, rfl, rfl⟩
    have none : ¬ InRange (addr / pageSize + i) 0 q := by unfold InRange; omega
    simp [freePagesFrom, none]
  | succ n ih =>
    obtain ⟨inside, set⟩ := used (addr / pageSize + i) ⟨le_rfl, by omega⟩
    have page : (addr + i * pageSize) % 2 ^ 64 / pageSize = addr / pageSize + i := by
      simp only [pageSize] at inside ⊢
      omega
    obtain ⟨bits, total, rest⟩ := free_spec page (by simp only [pageSize] at low ⊢; omega) inside set
      (by omega) small
    obtain ⟨bits', total', rest'⟩ := @ih (s.free ((addr + i * pageSize) % 2 ^ 64)) (i + 1)
      (by omega) (by
        intro q hq
        obtain ⟨inside', set'⟩ := used q (by unfold InRange at hq ⊢; omega)
        rw [bits, total, set']
        refine ⟨inside', ?_⟩
        have other : q ≠ addr / pageSize + i := by unfold InRange at hq; omega
        simp [other]) (by omega) (by omega)
    refine ⟨fun q => ?_, total'.trans total, ?_⟩
    · rw [freePagesFrom, bits', bits, ← Bool.and_assoc, ← Bool.decide_and]
      congr 2
      simp only [InRange, eq_iff_iff]
      omega
    · rw [freePagesFrom, rest', rest]
      omega

end Pmm

end Thuban.Mm

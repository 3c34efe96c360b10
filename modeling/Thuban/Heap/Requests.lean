import Thuban.Heap.Sessions

/-!
# What a request gets

How large the block behind a returned pointer is, what a request leaves behind that fails, and how
the pointer is aligned.  Sizes are rounded in 64-bit arithmetic: from `2 ^ 64 - 15` on they round to
zero, and from `2 ^ 64 - 47` on the page count of `expand_heap` wraps too.
-/

namespace Thuban.Heap

open Lib

variable {base n ptr fuel : ℕ} {x : Session} {s s' : State} {v : Vmm} {c : Call} {r : Option ℕ}
  {b : Block} {h h' : Image} {mem : Bytes}

def Image.blockSize (h : Image) (ptr : ℕ) : ℕ := (header h.mem (Image.blockOf ptr)).size

/-- The number of bytes a call asks for, as `size_t` has it. -/
def Call.wanted : Call → ℕ
  | .malloc size => size
  | .calloc num size => wrap (num * size)
  | .realloc _ size => size
  | .free _ => 0

/-! ## Sizes -/

theorem Good.blockSize (good : Good base x s) (hb : b ∈ s.blocks) :
    x.heap.blockSize b.payload = b.size := by
  unfold Image.blockSize
  rw [Image.blockOf_payload good.neat.sane hb]
  exact (good.shows.holds.fields hb).2.1

theorem Call.run_served (neat : Neat base s) (nonempty : s.blocks ≠ []) (upward : v.Upward)
    (legal : c.Legal s) (done : c.run v s fuel = some (some ptr, s')) :
    ∃ b ∈ s'.blocks, b.payload = ptr ∧ (c.wanted + 15 < 2 ^ 64 → c.wanted ≤ b.size) := by
  have malloc_served {size q : ℕ} {s₁ : State} (answer : Heap.malloc v fuel s size = some (some q, s₁)) :
      ∃ b ∈ s₁.blocks, b.free = false ∧ b.payload = q ∧ (size + 15 < 2 ^ 64 → size ≤ b.size) := by
    obtain ⟨b, hb, used, pointer, large⟩ := (malloc_rounds answer).returned rfl
    exact ⟨b, hb, used, pointer, fun small => (alignUp_of_lt small).trans large⟩
  cases c with
  | malloc size =>
    obtain ⟨b, hb, -, served⟩ := malloc_served done
    exact ⟨b, hb, served⟩
  | calloc num size =>
    obtain ⟨middle, m, answer, rfl⟩ := calloc_cases done
    obtain ⟨b, hb, -, served⟩ := malloc_served answer
    exact ⟨b, hb, served⟩
  | free ptr => simp [Call.run] at done
  | realloc old size =>
    rcases legal with rfl | live
    · obtain ⟨b, hb, -, served⟩ := malloc_served (realloc_null.symm.trans done)
      exact ⟨b, hb, served⟩
    rcases realloc_cases neat.magic neat.sane.apart live done with ⟨-, failed, -⟩ |
      ⟨-, ⟨b, hb, -, pointer, large⟩, same, rfl⟩ | ⟨-, failed, -⟩ |
      ⟨-, -, q, middle, m, -, -, answer, same, rfl⟩
    · cases failed
    · rw [Option.some.inj same]
      exact ⟨b, hb, pointer, fun _ => large⟩
    · cases failed
    · cases same
      obtain ⟨b, hb, used, rfl, large⟩ := malloc_served answer
      have moved := malloc_neat neat nonempty upward answer
      have still : Live middle old := malloc_live live answer
      have other : b.payload ≠ old := by
        rintro rfl
        exact (malloc_rounds answer).fresh (neat.placed upward) rfl live
      refine ⟨b, ?_, rfl, large⟩
      exact mem_free_of_used (h := { middle with mem := m }) moved.magic moved.sane.apart still hb
        used other

theorem Good.served (good : Good base x s) (legal : x.Legal c) (upward : v.Upward)
    (rounds : c.Rounds) (done : Converges (x.heap.run v c) (some ptr, h')) :
    h'.blockSize ptr + 4096 < 2 ^ 64 ∧
      (c.wanted + 15 < 2 ^ 64 → c.wanted ≤ h'.blockSize ptr) := by
  obtain ⟨fuel, s', listed, after⟩ := good.call legal upward rounds done
  obtain ⟨b, hb, rfl, large⟩ :=
    Call.run_served good.neat good.shows.nonempty upward (good.legal legal) listed
  have size : h'.blockSize b.payload = b.size := after.blockSize hb
  have low := after.neat.page_le hb
  have high := after.neat.limit_le hb
  rw [size]
  simp only [Block.limit, headerSize] at high
  exact ⟨by omega, large⟩

/-- A memory manager that never has a page. -/
def noPages : Vmm where
  alloc := fun _ _ => none
  none_of_zero := fun _ => rfl
  pageAligned := fun _ _ _ none => nomatch none
  noWrap := fun _ _ _ none => nomatch none
  fresh := fun _ _ _ none => nomatch none

theorem noPages_upward : noPages.Upward := fun _ _ _ none => nomatch none

theorem malloc_first (low : 4096 ≤ base) (high : base + initialHeapSize ≤ 2 ^ 64) (mem : Bytes)
    (v : Vmm) (nonzero : n ≠ 0) (fits : alignUp n ≤ initialHeapSize - headerSize) :
    ∃ h', Converges (Image.malloc v · (Image.heapInit base mem) n)
      (some (base + headerSize), h') := by
  have good := heapInit_good low high mem
  have fit : Image.fitting (alignUp n) (heapInit base).blocks =
      some ⟨base, heapMagic, initialHeapSize - headerSize, true⟩ := by
    simp [Image.fitting, heapInit, fits]
  exact ⟨_, Image.malloc_found good.shows good.neat.sane nonzero fit v⟩

/-- The block behind the pointer that `malloc` or `calloc` returns has the size that was asked for
exactly when rounding that size to 16 does not wrap; `realloc` can be relied on for exactly these
sizes. -/
theorem allocations_large_iff (low : 4096 ≤ base) (high : base + initialHeapSize ≤ 2 ^ 64)
    (mem : Bytes) :
    (∀ x v, Reached base mem x → v.Upward →
      (∀ n ptr h', Converges (fun fuel => Image.malloc v fuel x.heap n) (some ptr, h') →
        (n ≤ h'.blockSize ptr ↔ n + 15 < 2 ^ 64)) ∧
      ∀ num size ptr h',
        Converges (fun fuel => Image.calloc v fuel x.heap num size) (some ptr, h') →
        (num * size ≤ h'.blockSize ptr ↔ num * size + 15 < 2 ^ 64)) ∧
    ∀ n < 2 ^ 64, (∀ x v old ptr h', Reached base mem x → v.Upward → old = 0 ∨ old ∈ x.out →
      Converges (fun fuel => Image.realloc v fuel x.heap old n) (some ptr, h') →
      n ≤ h'.blockSize ptr) ↔ n + 15 < 2 ^ 64 := by
  refine ⟨fun x v reached upward => ⟨fun n ptr h' done => ?_, fun num size ptr h' done => ?_⟩,
    fun n bound => ⟨fun always => ?_, fun small x v old ptr h' reached upward legal done => ?_⟩⟩
  · obtain ⟨s, good⟩ := reached.good low high
    obtain ⟨upper, served⟩ := good.served (c := .malloc n) trivial upward trivial done
    exact ⟨fun large => by omega, served⟩
  · obtain ⟨s, good⟩ := reached.good low high
    obtain ⟨upper, served⟩ := good.served (c := .calloc num size) trivial upward trivial done
    refine ⟨fun large => by omega, fun small => ?_⟩
    simp only [Call.wanted, wrap_of_lt (by omega : num * size < 2 ^ 64)] at served
    exact served small
  · by_contra large
    have zero := alignUp_of_ge (by omega) bound
    obtain ⟨h', done⟩ := malloc_first low high mem noPages (by omega : n ≠ 0) (by rw [zero]; omega)
    have good := heapInit_good low high mem
    obtain ⟨upper, -⟩ := good.served (c := .malloc n) trivial noPages_upward trivial done
    have granted := always (Session.start base mem) noPages 0 _ h' ⟨[], .nil _⟩ noPages_upward
      (.inl rfl) done
    omega
  · obtain ⟨s, good⟩ := reached.good low high
    obtain ⟨-, served⟩ :=
      good.served (c := .realloc old n) legal upward (.inr small) done
    exact served small

/-- The heap after `heap_init`, in memory that is zero elsewhere. -/
def blank : Image := Image.heapInit heapBase fun _ => 0

theorem blank_allocation_large : ∃ h',
    Converges (fun fuel => Image.malloc noPages fuel blank 100) (some (heapBase + 40), h') ∧
      100 ≤ h'.blockSize (heapBase + 40) := by
  obtain ⟨h', done⟩ := malloc_first (by decide : 4096 ≤ heapBase) (by decide) (fun _ => 0) noPages
    (by decide : 100 ≠ 0) (by decide)
  have large := (allocations_large_iff (by decide) (by decide) fun _ => 0).1
    (Session.start heapBase fun _ => 0) noPages ⟨[], .nil _⟩ noPages_upward
  exact ⟨h', done, (large.1 100 _ h' done).mpr (by decide)⟩

/-- The first block, cut down to `size` bytes. -/
def blankTaken (size : ℕ) : Image := { blank with
  mem := Image.takeBlock size blank.mem heapBase
  used := wrap (blank.used + ((header (Image.takeBlock size blank.mem heapBase) heapBase).size +
    headerSize)) }

variable {size : ℕ}

theorem blankTaken_step (v : Vmm) (nonzero : n ≠ 0) (rounded : alignUp n = size)
    (fits : size ≤ initialHeapSize - headerSize) :
    Converges (Image.malloc v · blank n) (some (heapBase + 40), blankTaken size) := by
  have good := heapInit_good (by decide : 4096 ≤ heapBase) (by decide) fun _ => 0
  subst rounded
  exact Image.malloc_found (b := ⟨heapBase, heapMagic, initialHeapSize - headerSize, true⟩)
    good.shows good.neat.sane nonzero (by simp [Image.fitting, heapInit, fits]) v

theorem blankTaken_reached (nonzero : n ≠ 0) (rounded : alignUp n = size)
    (fits : size ≤ initialHeapSize - headerSize) :
    Reached heapBase (fun _ => 0) ⟨blankTaken size, [heapBase + 40]⟩ := by
  refine ⟨[.call (.malloc n)], .cons ⟨?_, trivial⟩ (.nil _)⟩
  exact .call (s := Session.start heapBase fun _ => 0) (c := .malloc n) trivial noPages_upward
    (blankTaken_step noPages nonzero rounded fits)

theorem blankTaken_good (nonzero : n ≠ 0) (rounded : alignUp n = size)
    (fits : size ≤ initialHeapSize - headerSize)
    (list : ∀ fuel, malloc noPages (fuel + 1) (heapInit heapBase) n =
      some (some (heapBase + 40), s)) : Good heapBase ⟨blankTaken size, [heapBase + 40]⟩ s := by
  have good := heapInit_good (by decide : 4096 ≤ heapBase) (by decide) fun _ => 0
  obtain ⟨fuel, s', listed, after⟩ := good.call (c := .malloc n) trivial noPages_upward trivial
    (blankTaken_step noPages nonzero rounded fits)
  cases fuel with
  | zero => cases listed
  | succ fuel =>
    have same := (list fuel).symm.trans listed
    simp only [Option.some.injEq, Prod.mk.injEq, true_and] at same
    rw [same]
    exact after

/-- A request for `2 ^ 64 - 1` bytes gets none, and one for `2 ^ 64 + 16` bytes in pieces of four
gets 16. -/
theorem wrapped_requests_succeed :
    Converges (fun fuel => Image.malloc noPages fuel blank (2 ^ 64 - 1))
        (some (heapBase + 40), blankTaken 0) ∧
      (blankTaken 0).blockSize (heapBase + 40) = 0 ∧
      ∃ h', Converges (fun fuel => Image.calloc noPages fuel blank (2 ^ 62 + 4) 4)
        (some (heapBase + 40), h') ∧ h'.blockSize (heapBase + 40) = 16 := by
  refine ⟨blankTaken_step noPages (by decide) (by decide) (by decide), by decide +kernel,
    { blankTaken 16 with mem := (blankTaken 16).mem.fill (heapBase + 40) 16 0 }, ?_,
    by decide +kernel⟩
  have taken := blankTaken_step (n := 16) noPages (by decide) (by decide : alignUp 16 = 16)
    (by decide)
  apply taken.imp
  intro fuel done
  have total : wrap ((2 ^ 62 + 4) * 4) = 16 := by decide
  have room : ¬ 2 ^ 64 < heapBase + 40 + 16 := by decide
  unfold Image.calloc
  simp only [total, done, if_neg room]

/-! ## Requests that fail -/

/-- `malloc` ends, calls `expand_heap` at most once and, if it fails, leaves the heap as it was. -/
def Clean (v : Vmm) (h : Image) (n : ℕ) : Prop :=
  ∃ r h', Converges (fun fuel => Image.malloc v fuel h n) (r, h') ∧
    h'.expandCalls ≤ h.expandCalls + 1 ∧
    (r = none → h'.mem = h.mem ∧ h'.start = h.start ∧ h'.total = h.total ∧ h'.used = h.used)

theorem expandHeap_calls {needed : ℕ} {success : Bool}
    (done : Image.expandHeap v fuel h needed = some (success, h')) :
    h'.expandCalls = h.expandCalls + 1 := by
  unfold Image.expandHeap at done
  dsimp only at done
  split at done
  · simp only [Option.some.injEq, Prod.mk.injEq] at done
    rw [← done.2]
  · split at done
    · cases done
    · simp only [Option.some.injEq, Prod.mk.injEq] at done
      rw [← done.2]

theorem malloc_expandCalls (done : Image.malloc v fuel h n = some (r, h')) :
    h.expandCalls ≤ h'.expandCalls := by
  induction fuel generalizing h n with
  | zero => simp [Image.malloc] at done
  | succ fuel ih =>
    rw [Image.malloc] at done
    split_ifs at done with empty
    · simp only [Option.some.injEq, Prod.mk.injEq] at done
      rw [done.2]
    cases found : Image.walk (alignUp n) h.mem (fuel + 1) h.start with
    | none => simp [found] at done
    | some outcome =>
      rw [found] at done
      cases outcome with
      | corrupt =>
        simp only [Option.some.injEq, Prod.mk.injEq] at done
        rw [done.2]
      | found current =>
        simp only [Option.some.injEq, Prod.mk.injEq] at done
        rw [← done.2]
      | exhausted =>
        cases grown : Image.expandHeap v (fuel + 1) h (alignUp n) with
        | none => simp [grown] at done
        | some result =>
          obtain ⟨success, larger⟩ := result
          have count := expandHeap_calls grown
          rw [grown] at done
          cases success with
          | false =>
            simp only [Option.some.injEq, Prod.mk.injEq] at done
            rw [← done.2]
            omega
          | true =>
            have later := ih done
            omega

theorem pagesFor_rounded (small : n + 47 < 2 ^ 64) :
    pagesFor (alignUp n) = 0 ∨ alignUp n ≤ pagesFor (alignUp n) * 4096 - headerSize := by
  simp only [pagesFor, alignUp, wrap, headerSize]
  omega

theorem pagesFor_wrapped (large : 2 ^ 64 ≤ n + 47) (bound : n < 2 ^ 64) :
    pagesFor (alignUp n) = 1 ∧ (alignUp n = 0 ∨ 2 ^ 64 - 32 ≤ alignUp n) := by
  simp only [pagesFor, alignUp, wrap, headerSize]
  omega

theorem fitting_eq_none {blocks : List Block} :
    Image.fitting size blocks = none ↔ ∀ b ∈ blocks, b.free = true → ¬ size ≤ b.size := by
  unfold Image.fitting
  rw [List.find?_eq_none]
  simp

theorem clean_of_fit (good : Good base x s) (nonzero : n ≠ 0)
    (fit : Image.fitting (alignUp n) s.blocks = some b) (v : Vmm) : Clean v x.heap n := by
  refine ⟨_, _, Image.malloc_found good.shows good.neat.sane nonzero fit v, Nat.le_succ _, ?_⟩
  exact fun none => nomatch none

theorem clean_of_stuck (good : Good base x s) (nonzero : n ≠ 0)
    (fit : Image.fitting (alignUp n) s.blocks = none)
    (failed : expandHeap v s (alignUp n) = none) : Clean v x.heap n :=
  ⟨_, _, Image.malloc_stuck good.shows good.neat.sane nonzero fit failed, le_rfl,
    fun _ => ⟨rfl, rfl, rfl, rfl⟩⟩

theorem clean_of_growth (good : Good base x s) (upward : v.Upward) (nonzero : n ≠ 0)
    (small : n + 47 < 2 ^ 64) (fit : Image.fitting (alignUp n) s.blocks = none)
    (grown : expandHeap v s (alignUp n) = some s') : Clean v x.heap n := by
  have placed := good.neat.placed upward
  obtain ⟨larger, shown, count, again⟩ := Image.malloc_retry good.shows placed nonzero fit grown
  have placed' := Image.expandHeap_placed placed grown
  obtain ⟨a, -, some_pages, blocks⟩ := expandHeap_cases grown
  have room := (pagesFor_rounded small).resolve_left some_pages
  have rounded := alignUp_of_lt (by omega : n + 15 < 2 ^ 64)
  have fit' : Image.fitting (alignUp (alignUp n)) s'.blocks =
      some ⟨a, heapMagic, pagesFor (alignUp n) * 4096 - headerSize, true⟩ := by
    rw [alignUp_alignUp, blocks]
    unfold Image.fitting at fit ⊢
    rw [List.find?_append, fit]
    simp [room]
  have found := Image.malloc_found shown placed'.sane (by omega : alignUp n ≠ 0) fit' v
  exact ⟨_, _, (again _).mpr found, count.le, fun failed => nomatch failed⟩

theorem expandCalls_of_no_fit (shows : Shows h s) (placed : Placed v s) (nonzero : n ≠ 0)
    (fit : Image.fitting (alignUp n) s.blocks = none)
    (done : Converges (Image.malloc v · h n) (r, h')) :
    h.expandCalls + 1 ≤ h'.expandCalls := by
  cases grown : expandHeap v s (alignUp n) with
  | none =>
    have same := done.unique (Image.malloc_stuck shows placed.sane nonzero fit grown)
    simp only [Prod.mk.injEq] at same
    rw [same.2]
  | some s' =>
    obtain ⟨larger, -, count, again⟩ := Image.malloc_retry shows placed nonzero fit grown
    obtain ⟨bound, ends⟩ := (again _).mp done
    have more := malloc_expandCalls (ends bound le_rfl)
    omega

theorem not_clean_of_growth (good : Good base x s) (upward : v.Upward) (large : 2 ^ 64 ≤ n + 47)
    (bound : n < 2 ^ 64) (fit : Image.fitting (alignUp n) s.blocks = none)
    (grown : expandHeap v s (alignUp n) = some s') : ¬ Clean v x.heap n := by
  rintro ⟨r, h', done, calls, unchanged⟩
  have placed := good.neat.placed upward
  obtain ⟨larger, shown, count, again⟩ :=
    Image.malloc_retry good.shows placed (by omega) fit grown
  replace done := (again _).mp done
  obtain ⟨pages, size⟩ := pagesFor_wrapped large bound
  rcases size with zero | huge
  · -- the second attempt is a request for nothing
    rw [zero] at done
    have same := done.unique (Image.malloc_zero v larger)
    simp only [Prod.mk.injEq] at same
    have total := (unchanged same.1).2.2.1
    obtain ⟨a, -, -, rfl⟩ := expandHeap_cases grown
    rw [same.2, shown.total, good.shows.total, pages] at total
    simp only [wrap] at total
    omega
  · have placed' := Image.expandHeap_placed placed grown
    have fit' : Image.fitting (alignUp (alignUp n)) s'.blocks = none := by
      rw [alignUp_alignUp, fitting_eq_none]
      intro b hb free fits
      have high := placed'.sane.high b hb
      simp only [Block.limit, headerSize] at high
      omega
    have more := expandCalls_of_no_fit shown placed' (by omega) fit' done
    omega

/-- A failed `malloc` changes nothing (and none expands the heap twice), except when no block fits,
the request is so large that rounding or the page count wraps, and there is a page to be had. -/
theorem failed_malloc_clean_iff (low : 4096 ≤ base) (high : base + initialHeapSize ≤ 2 ^ 64)
    (reached : Reached base mem x) (upward : v.Upward) (bound : n < 2 ^ 64) :
    Clean v x.heap n ↔ n + 47 < 2 ^ 64 ∨
      (∃ blocks, x.heap.Lists blocks ∧ ∃ b ∈ blocks, b.free = true ∧ alignUp n ≤ b.size) ∨
      v.alloc x.heap.regions 1 = none := by
  obtain ⟨s, good⟩ := reached.good low high
  by_cases empty : n = 0
  · subst empty
    have nothing : Clean v x.heap 0 :=
      ⟨none, x.heap, Image.malloc_zero v x.heap, Nat.le_succ _, fun _ => ⟨rfl, rfl, rfl, rfl⟩⟩
    exact iff_of_true nothing (.inl (by norm_num))
  cases fit : Image.fitting (alignUp n) s.blocks with
  | some b =>
    have fits := List.find?_some fit
    simp only [Bool.and_eq_true, decide_eq_true_eq] at fits
    refine iff_of_true (clean_of_fit good empty fit v) (.inr (.inl ⟨s.blocks, ?_, b, ?_, fits⟩))
    · exact good.lists_iff.mpr rfl
    · exact List.mem_of_find?_eq_some fit
  | none =>
    have none_fits : ¬ ∃ blocks, x.heap.Lists blocks ∧
        ∃ b ∈ blocks, b.free = true ∧ alignUp n ≤ b.size := by
      rintro ⟨blocks, lists, b, hb, free, fits⟩
      rw [good.lists_iff.mp lists] at hb
      exact fitting_eq_none.mp fit b hb free fits
    by_cases small : n + 47 < 2 ^ 64
    · refine iff_of_true ?_ (.inl small)
      cases grown : expandHeap v s (alignUp n) with
      | none => exact clean_of_stuck good empty fit grown
      | some s' => exact clean_of_growth good upward empty small fit grown
    · have pages := (pagesFor_wrapped (by omega) bound).1
      have answer : v.alloc x.heap.regions 1 = v.alloc s.regions (pagesFor (alignUp n)) := by
        rw [good.shows.regions, pages]
      cases grown : expandHeap v s (alignUp n) with
      | none =>
        refine iff_of_true (clean_of_stuck good empty fit grown) (.inr (.inr ?_))
        rw [answer]
        exact expandHeap_eq_none.mp grown
      | some s' =>
        refine iff_of_false (not_clean_of_growth good upward (by omega) bound fit grown) ?_
        obtain ⟨a, granted, -⟩ := expandHeap_cases grown
        rintro (tiny | fits | refused)
        · exact small tiny
        · exact none_fits fits
        · rw [answer, granted] at refused
          cases refused

theorem onePage_upward : onePage.Upward := by
  intro rs n a granted r hr
  unfold onePage at granted
  dsimp only at granted
  split_ifs at granted with one
  cases granted
  obtain ⟨-, rfl⟩ := one
  rw [List.mem_singleton.mp hr]
  decide

theorem blank_fails_clean : Clean onePage blank (2 ^ 64 - 48) :=
  (failed_malloc_clean_iff (x := Session.start heapBase fun _ => 0) (by decide : 4096 ≤ heapBase)
    (by decide) ⟨[], .nil _⟩ onePage_upward (by decide)).mpr (.inl (by decide))

/-- `initial_heap` is allocated as a whole. -/
def full : Session := ⟨blankTaken 262096, [heapBase + 40]⟩

theorem full_good : Good heapBase full filled :=
  blankTaken_good (by decide) (by decide : alignUp 262096 = 262096) (by decide) fun _ => rfl

/-- The heap is full and one page is left: a request for `2 ^ 64 - 1` bytes takes the page and fails
nevertheless. -/
theorem failed_malloc_grows : ∃ x h', Reached heapBase (fun _ => 0) x ∧
    Converges (fun fuel => Image.malloc onePage fuel x.heap (2 ^ 64 - 1)) (none, h') ∧
      x.heap.total = 262144 ∧ h'.total = 266240 := by
  have placed := full_good.neat.placed onePage_upward
  obtain ⟨larger, shown, -, again⟩ := Image.malloc_retry full_good.shows placed
    (by decide : 2 ^ 64 - 1 ≠ 0) (by decide) rfl
  refine ⟨full, larger, ?_, (again _).mpr ?_, rfl, shown.total⟩
  · exact blankTaken_reached (by decide) (by decide : alignUp 262096 = 262096) (by decide)
  · exact Image.malloc_zero onePage larger

/-! ## Alignment -/

/-- A block from a new region starts at a page, so that its payload is 8 bytes off. -/
theorem malloc_beyond (magic : ∀ b ∈ s.blocks, b.magic = heapMagic)
    (fit : Image.fitting (alignUp n) s.blocks = none)
    (done : malloc v fuel s n = some (some ptr, s')) : ptr % 16 = 8 := by
  induction fuel generalizing s n with
  | zero => cases done
  | succ fuel ih =>
    rw [malloc] at done
    split_ifs at done with empty
    · cases done
    rw [Image.scan_of_fitting_none magic fit] at done
    cases grown : expandHeap v s (alignUp n) with
    | none =>
      rw [grown] at done
      cases done
    | some larger =>
      rw [grown] at done
      dsimp only at done
      obtain ⟨a, granted, -, rfl⟩ := expandHeap_cases grown
      have aligned := v.pageAligned _ _ _ granted
      set new : Block := ⟨a, heapMagic, pagesFor (alignUp n) * 4096 - headerSize, true⟩ with new_eq
      have magic' : ∀ b ∈ s.blocks ++ [new], b.magic = heapMagic := by
        intro b hb
        rcases List.mem_append.mp hb with hb | hb
        · exact magic b hb
        · rw [List.mem_singleton.mp hb]
      cases fit' : Image.fitting (alignUp (alignUp n)) (s.blocks ++ [new]) with
      | none => exact ih magic' fit' done
      | some b =>
        -- the older blocks are still too small
        have here : b = new := by
          have found := fit'
          rw [alignUp_alignUp] at found
          unfold Image.fitting at found fit
          rw [List.find?_append, fit] at found
          have member := List.mem_of_find?_eq_some found
          exact List.mem_singleton.mp member
        cases fuel with
        | zero => cases done
        | succ fuel =>
          obtain ⟨pre, post, -, -, -, taken⟩ := Image.scan_of_fitting magic' fit'
          rw [malloc] at done
          split_ifs at done
          · cases done
          · rw [taken] at done
            simp only [Option.some.injEq, Prod.mk.injEq] at done
            rw [← done.1, Block.payload, Image.carve_addr, here]
            simp only [new_eq, headerSize]
            omega

/-- `malloc` returns a multiple of 16 exactly when the block it finds lies 8 bytes behind one. -/
theorem malloc_aligned_iff (low : 4096 ≤ base) (high : base + initialHeapSize ≤ 2 ^ 64)
    (reached : Reached base mem x) (upward : v.Upward)
    (done : Converges (fun fuel => Image.malloc v fuel x.heap n) (some ptr, h')) :
    16 ∣ ptr ↔ ∃ blocks b, x.heap.Lists blocks ∧ Image.fitting (alignUp n) blocks = some b ∧
      b.addr % 16 = 8 := by
  obtain ⟨s, good⟩ := reached.good low high
  have nonzero : n ≠ 0 := by
    rintro rfl
    simpa using done.unique (Image.malloc_zero v x.heap)
  cases fit : Image.fitting (alignUp n) s.blocks with
  | some b =>
    have same := done.unique (Image.malloc_found good.shows good.neat.sane nonzero fit v)
    simp only [Prod.mk.injEq, Option.some.injEq] at same
    rw [same.1, Block.payload, headerSize]
    constructor
    · intro aligned
      exact ⟨s.blocks, b, good.lists_iff.mpr rfl, fit, by omega⟩
    · rintro ⟨blocks, c, lists, found, offset⟩
      rw [good.lists_iff.mp lists, fit] at found
      obtain rfl := Option.some.inj found
      omega
  | none =>
    obtain ⟨bound, ends⟩ := done
    obtain ⟨s', listed, -⟩ :=
      Image.malloc_sim good.shows (good.neat.placed upward) (ends bound le_rfl)
    have off := malloc_beyond good.neat.magic fit listed
    refine iff_of_false (by omega) ?_
    rintro ⟨blocks, b, lists, found, -⟩
    rw [good.lists_iff.mp lists, fit] at found
    cases found

/-- One block of 16 bytes is allocated. -/
def oneTaken : State := { heapInit heapBase with
  blocks := [⟨heapBase, heapMagic, 16, false⟩, ⟨heapBase + 56, heapMagic, 262048, true⟩]
  used := 96 }

theorem oneTaken_good : Good heapBase ⟨blankTaken 16, [heapBase + 40]⟩ oneTaken :=
  blankTaken_good (by decide) (by decide : alignUp 16 = 16) (by decide) fun _ => rfl

/-- The second of two requests for 16 bytes. -/
theorem second_allocation_aligned : ∃ h',
    Converges (fun fuel => Image.malloc noPages fuel (blankTaken 16) 16) (some (heapBase + 96), h') ∧
      16 ∣ heapBase + 96 := by
  have fit : Image.fitting (alignUp 16) oneTaken.blocks =
      some ⟨heapBase + 56, heapMagic, 262048, true⟩ := by decide
  have done := Image.malloc_found oneTaken_good.shows oneTaken_good.neat.sane (by decide) fit noPages
  have reached := blankTaken_reached (by decide) (by decide : alignUp 16 = 16) (by decide)
  refine ⟨_, done, ?_⟩
  exact (malloc_aligned_iff (by decide) (by decide) reached noPages_upward done).mpr
    ⟨_, _, oneTaken_good.lists_iff.mpr rfl, fit, by decide⟩

/-- The first one is 8 bytes off. -/
theorem first_allocation_misaligned : heapBase % 16 = 0 ∧
    Converges (fun fuel => Image.malloc noPages fuel blank 16) (some (heapBase + 40), blankTaken 16) ∧
      ¬ 16 ∣ heapBase + 40 :=
  ⟨by decide, blankTaken_step noPages (by decide) (by decide) (by decide), by decide⟩

end Thuban.Heap

import Thuban.Mm.Allocation

/-!
# The addresses of virtual allocations

`vmm_alloc` hands out addresses from `next_virt_addr` on.  `vmm_free` gives none of them back, so the
next address follows from the number of pages handed out since boot, modulo 2^64.  The gigabyte above
`virtBase` is enough for 2^18 pages (`ranges_in_window_iff`); with more, freed or not, the ranges run
over the end of the address space into the boot mapping (`range_wraps`).
-/

namespace Thuban.Mm

open Lib Lib.Paging

/-- The range lies between `virtBase` and the end of the address space. -/
def InWindow (r : ℕ × ℕ) : Prop := virtBase ≤ r.1 ∧ r.1 + r.2 * 4096 ≤ 2 ^ 64

def granted (ranges : List (ℕ × ℕ)) : ℕ := (ranges.map Prod.snd).sum

/-- One call, with the ranges for which `vmm_alloc` came to its end so far, the latest one first.  They
stay in the list when they are freed. -/
inductive Handing (p4 : ℕ) : Vmm × List (ℕ × ℕ) → VmmCall → Vmm × List (ℕ × ℕ) → Prop
  | failed {s s' : Vmm} {ranges : List (ℕ × ℕ)} {pages flags : ℕ}
      (call : vmmAlloc p4 pages flags s = some (none, s')) :
      Handing p4 (s, ranges) (.alloc pages flags) (s', ranges)
  | done {s s' : Vmm} {ranges : List (ℕ × ℕ)} {pages flags virt : ℕ}
      (call : vmmAlloc p4 pages flags s = some (some virt, s')) :
      Handing p4 (s, ranges) (.alloc pages flags) (s', (virt, pages) :: ranges)
  | free {s s' : Vmm} {ranges : List (ℕ × ℕ)} {virt pages : ℕ}
      (call : vmmFree p4 virt pages s = some s') :
      Handing p4 (s, ranges) (.free virt pages) (s', ranges)

/-! ## What the loops leave alone -/

/-- The next address and the size of memory stay. -/
def Steady (s s' : Vmm) : Prop :=
  s'.nextVirtAddr = s.nextVirtAddr ∧ s'.pmm.totalPages = s.pmm.totalPages

theorem Steady.refl (s : Vmm) : Steady s s := ⟨rfl, rfl⟩

theorem Steady.trans {s s₁ s₂ : Vmm} (first : Steady s s₁) (second : Steady s₁ s₂) : Steady s s₂ :=
  ⟨second.1.trans first.1, second.2.trans first.2⟩

variable {p4 : ℕ} {s s' : Vmm}

variable {v table i phys flags n virt pages a : ℕ} {create : Bool} {answer : Option ℕ} {r : ℕ × ℕ}
  {ranges : List (ℕ × ℕ)}

theorem store_steady {x : ℕ} (done : s.store p4 v x = some s') : Steady s s' := by
  obtain ⟨a, -, rfl⟩ := Option.map_eq_some_iff.mp done
  exact ⟨rfl, rfl⟩

theorem clearPage_steady (done : s.clearPage p4 v = some s') : Steady s s' := by
  obtain ⟨a, -, rfl⟩ := Option.map_eq_some_iff.mp done
  exact ⟨rfl, rfl⟩

theorem descend_steady (done : descend p4 create table i s = some (answer, s')) : Steady s s' := by
  obtain ⟨e, -, done⟩ := Option.bind_eq_some_iff.mp done
  split_ifs at done with up new
  · cases done
    exact .refl _
  · cases done
    exact .refl _
  · match alloc : s.pmm.alloc, done with
    | (none, pmm), done =>
      obtain rfl := Pmm.alloc_eq_none alloc
      cases done
      exact .refl _
    | (some page, pmm), done =>
      obtain ⟨u, -, -, -, rfl, -⟩ := Pmm.alloc_eq_some alloc
      obtain ⟨s₁, cleared, done⟩ := Option.bind_eq_some_iff.mp done
      obtain ⟨s₂, stored, done⟩ := Option.bind_eq_some_iff.mp done
      obtain ⟨e, -, last⟩ := Option.map_eq_some_iff.mp done
      cases last
      have taken : Steady s { s with pmm := s.pmm.take u } := ⟨rfl, rfl⟩
      exact (taken.trans (clearPage_steady cleared)).trans (store_steady stored)

theorem walkTables_steady {is : List ℕ} (done : walkTables p4 create is table s = some (answer, s')) :
    Steady s s' := by
  induction is generalizing table s with
  | nil =>
    cases done
    exact .refl _
  | cons i is ih =>
    obtain ⟨⟨next, s₁⟩, first, done⟩ := Option.bind_eq_some_iff.mp done
    cases next with
    | none =>
      cases done
      exact descend_steady first
    | some table => exact (descend_steady first).trans (ih done)

theorem getPte_steady (done : getPte p4 v create s = some (answer, s')) : Steady s s' := by
  obtain ⟨⟨table, s₁⟩, walk, last⟩ := Option.map_eq_some_iff.mp done
  cases last
  exact walkTables_steady walk

theorem mapRange_steady {answer : Bool} (done : mapRange p4 phys flags n i s = some (answer, s')) :
    Steady s s' := by
  induction n generalizing i s with
  | zero =>
    cases done
    exact .refl _
  | succ n ih =>
    obtain ⟨⟨pte, s₁⟩, found, done⟩ := Option.bind_eq_some_iff.mp done
    cases pte with
    | none =>
      cases done
      exact getPte_steady found
    | some pte =>
      obtain ⟨s₂, stored, rest⟩ := Option.bind_eq_some_iff.mp done
      exact ((getPte_steady found).trans (store_steady stored)).trans (ih rest)

theorem freeRange_steady (done : freeRange p4 virt n i s = some s') : Steady s s' := by
  induction n generalizing i s with
  | zero =>
    cases done
    exact .refl _
  | succ n ih =>
    obtain ⟨⟨pte, s₁⟩, found, done⟩ := Option.bind_eq_some_iff.mp done
    have first := getPte_steady found
    cases pte with
    | none => exact first.trans (ih done)
    | some pte =>
      obtain ⟨e, -, done⟩ := Option.bind_eq_some_iff.mp done
      split_ifs at done
      · obtain ⟨s₂, stored, rest⟩ := Option.bind_eq_some_iff.mp done
        have freed : Steady s₁ { s₁ with pmm := s₁.pmm.free (e / 4096 * 4096) } :=
          ⟨rfl, Pmm.free_totalPages _ _⟩
        exact ((first.trans freed).trans (store_steady stored)).trans (ih rest)
      · exact first.trans (ih done)

theorem vmmAlloc_done (done : vmmAlloc p4 pages flags s = some (some virt, s')) :
    virt = s.nextVirtAddr ∧ s'.nextVirtAddr = (s.nextVirtAddr + pages * 4096) % 2 ^ 64 ∧
      s'.pmm.totalPages = s.pmm.totalPages ∧ 0 < pages ∧ pages ≤ s.pmm.totalPages := by
  rw [vmmAlloc] at done
  rcases alloc : s.pmm.allocPages pages with ⟨_ | phys, pmm⟩
  all_goals rw [alloc] at done
  · cases done
  · obtain ⟨page, pos, inside, -, -, rfl⟩ := Pmm.allocPages_eq_some alloc
    obtain ⟨⟨mapped, s₁⟩, loop, last⟩ := Option.map_eq_some_iff.mp done
    obtain ⟨next, total⟩ := mapRange_steady loop
    cases mapped with
    | false => cases last
    | true =>
      cases last
      exact ⟨next, congrArg (fun a => (a + pages * 4096) % 2 ^ 64) next,
        total.trans (Pmm.takeRange_totalPages ..), pos, by omega⟩

theorem vmmAlloc_failed (done : vmmAlloc p4 pages flags s = some (none, s')) : Steady s s' := by
  rw [vmmAlloc] at done
  rcases alloc : s.pmm.allocPages pages with ⟨_ | phys, pmm⟩
  all_goals rw [alloc] at done
  · obtain rfl := Pmm.allocPages_eq_none alloc
    cases done
    exact .refl _
  · obtain ⟨page, -, -, -, -, rfl⟩ := Pmm.allocPages_eq_some alloc
    obtain ⟨⟨mapped, s₁⟩, loop, last⟩ := Option.map_eq_some_iff.mp done
    obtain ⟨next, total⟩ := mapRange_steady loop
    cases mapped with
    | false =>
      cases last
      exact ⟨next, (Pmm.freePagesFrom_totalPages ..).trans
        (total.trans (Pmm.takeRange_totalPages ..))⟩
    | true => cases last

/-! ## Runs -/

theorem granted_cons (r : ℕ × ℕ) (ranges : List (ℕ × ℕ)) :
    granted (r :: ranges) = r.2 + granted ranges := by
  rw [granted, List.map_cons, List.sum_cons]
  rfl

theorem InWindow.uncovered (window : InWindow r) (first : r.1 ≤ a) (last : a < r.1 + r.2 * 4096) :
    ¬ Covered a := by
  have base : virtBase = 2 ^ 64 - 2 ^ 30 := by decide
  obtain ⟨low, high⟩ := window
  rintro ⟨-, second⟩
  have : index 2 a = 511 := by
    unfold index
    omega
  omega

/-- The ranges handed out as pointers lie in the window. -/
def Windowed (ranges : List (ℕ × ℕ)) : Prop :=
  ∀ r ∈ ranges, r.1 ≠ 0 → InWindow r ∧ ∀ a, r.1 ≤ a → a < r.1 + r.2 * 4096 → ¬ Covered a

/-- At most 2^18 pages were handed out, or exactly that many before the last range, which started at
address 0 and was taken for a failure. -/
def Within (ranges : List (ℕ × ℕ)) : Prop :=
  granted ranges ≤ 2 ^ 18 ∨ granted ranges.tail = 2 ^ 18

/-- What every state of a run satisfies. -/
structure Bumped (s : Vmm) (ranges : List (ℕ × ℕ)) : Prop where
  total : s.pmm.totalPages ≤ 2 ^ 20
  next : s.nextVirtAddr = (virtBase + granted ranges * 4096) % 2 ^ 64
  sizes : ∀ r ∈ ranges, 0 < r.2 ∧ r.2 ≤ 2 ^ 20
  windowed : Windowed ranges ↔ Within ranges

theorem next_range_iff {g n : ℕ} (pos : 0 < n) (bound : g ≤ 2 ^ 18 + 2 ^ 20) :
    ((virtBase + g * 4096) % 2 ^ 64 ≠ 0 → InWindow ((virtBase + g * 4096) % 2 ^ 64, n)) ↔
      g + n ≤ 2 ^ 18 ∨ g = 2 ^ 18 := by
  have base : virtBase = 2 ^ 64 - 2 ^ 30 := by decide
  unfold InWindow
  omega

theorem Bumped.granted_le (bumped : Bumped s ranges) (within : Within ranges) :
    granted ranges ≤ 2 ^ 18 + 2 ^ 20 := by
  obtain few | exact_before := within
  · omega
  · cases ranges with
    | nil => exact absurd exact_before (by decide)
    | cons r ranges =>
      rw [List.tail_cons] at exact_before
      have := (bumped.sizes r List.mem_cons_self).2
      rw [granted_cons]
      omega

theorem within_cons :
    Within (r :: ranges) ↔ r.2 + granted ranges ≤ 2 ^ 18 ∨ granted ranges = 2 ^ 18 := by
  rw [Within, granted_cons, List.tail_cons]

theorem windowed_cons : Windowed (r :: ranges) ↔ (r.1 ≠ 0 → InWindow r) ∧ Windowed ranges := by
  rw [Windowed, List.forall_mem_cons]
  refine and_congr_left' (imp_congr_right fun _ => and_iff_left_of_imp fun window => ?_)
  exact fun a first last => window.uncovered first last

theorem Bumped.done {ranges : List (ℕ × ℕ)} {pages flags virt : ℕ} (bumped : Bumped s ranges)
    (call : vmmAlloc p4 pages flags s = some (some virt, s')) :
    Bumped s' ((virt, pages) :: ranges) := by
  obtain ⟨rfl, next, total, pos, fits⟩ := vmmAlloc_done call
  have large := bumped.total
  refine ⟨total.trans_le large, ?_, ?_, ?_⟩
  · rw [next, bumped.next, granted_cons, Nat.mod_add_mod]
    congr 1
    omega
  · exact List.forall_mem_cons.mpr ⟨⟨pos, fits.trans large⟩, bumped.sizes⟩
  · have room := @next_range_iff (granted ranges) pages pos
    rw [windowed_cons, within_cons, bumped.windowed, bumped.next]
    constructor
    · rintro ⟨here, within⟩
      have := (room (bumped.granted_le within)).mp here
      omega
    · intro fits
      exact ⟨(room (by omega)).mpr (by omega), .inl (by omega)⟩

theorem handing_step {a b : Vmm × List (ℕ × ℕ)} {call : VmmCall} (bumped : Bumped a.1 a.2)
    (step : Handing p4 a call b) : Bumped b.1 b.2 := by
  have keep : ∀ {s s' : Vmm} {ranges}, Bumped s ranges → Steady s s' → Bumped s' ranges :=
    fun bumped steady => ⟨steady.2.trans_le bumped.total, steady.1.trans bumped.next, bumped.sizes,
      bumped.windowed⟩
  cases step with
  | failed call => exact keep bumped (vmmAlloc_failed call)
  | done call => exact bumped.done call
  | free call => exact keep bumped (freeRange_steady call)

/-- In every run from boot, for every size of memory, the ranges that `vmm_alloc` hands out lie in the
window as long as there were at most 2^18 pages in all. -/
theorem ranges_in_window_iff (p4 : ℕ) (rest : ℕ → ℕ) (memSize kernelEnd : ℕ) {calls : List VmmCall}
    {s : Vmm} {ranges : List (ℕ × ℕ)}
    (run : Run (Handing p4) (bootVmm p4 rest memSize kernelEnd, []) calls (s, ranges)) :
    Windowed ranges ↔ Within ranges := by
  have total : (bootVmm p4 rest memSize kernelEnd).pmm.totalPages ≤ 2 ^ 20 := by
    show (Pmm.init memSize kernelEnd).totalPages ≤ 2 ^ 20
    rw [Pmm.init, Pmm.takeRange_totalPages]
    exact min_le_right _ _
  have start : Bumped (bootVmm p4 rest memSize kernelEnd) [] :=
    ⟨total, rfl, by simp, iff_of_true (by simp [Windowed]) (.inl (by decide))⟩
  have bumped := run.invariant (P := fun t => Bumped t.1 t.2)
    (fun _ _ _ bumped step => handing_step bumped step) start
  exact bumped.windowed

/-- The small machine after its first allocation. -/
theorem ranges_in_window_small : ∃ s,
    Run (Handing 264) (smallVmm, []) [.alloc 1 2] (s, [(virtBase, 1)]) ∧
      (Windowed [(virtBase, 1)] ↔ Within [(virtBase, 1)]) := by
  obtain ⟨⟨answer, s⟩, call, rfl⟩ := Option.map_eq_some_iff.mp smallVmm_first
  have run : Run (Handing 264) (smallVmm, []) [.alloc 1 2] (s, [(virtBase, 1)]) :=
    .cons (.done call) (.nil _)
  exact ⟨s, run, ranges_in_window_iff _ _ _ _ run⟩

/-! ## Over the end -/

theorem mapRange_append (m : ℕ) (first : mapRange p4 phys flags n i s = some (true, s')) :
    mapRange p4 phys flags (n + m) i s = mapRange p4 phys flags m (i + n) s' := by
  induction n generalizing i s with
  | zero =>
    cases first
    rw [Nat.zero_add, Nat.add_zero]
  | succ n ih =>
    obtain ⟨⟨pte, s₁⟩, found, rest⟩ := Option.bind_eq_some_iff.mp first
    cases pte with
    | none => cases rest
    | some pte =>
      obtain ⟨s₂, stored, rest⟩ := Option.bind_eq_some_iff.mp rest
      rw [Nat.succ_add, mapRange, found, Option.bind_some]
      dsimp only
      rw [stored, Option.bind_some, ih rest, Nat.add_right_comm, Nat.add_assoc]

variable {pd m k : ℕ} {role : ℕ → Option (List ℕ)}

theorem mapRange_null {phys flags i : ℕ} (tables : Tables p4 role s)
    (null : (s.nextVirtAddr + i * 4096) % 2 ^ 64 = 0) :
    ∃ s', mapRange p4 phys flags 1 i s = some (true, s') ∧ s'.nextVirtAddr = s.nextVirtAddr := by
  have call := getPte_covered tables (by decide : Covered 0) true
  have stored := tables.boot.store_table (by decide : index 1 0 * 512 < 2 ^ 18) (index_lt 0 0)
    (pageEntry (phys + i * 4096) flags)
  generalize Radix.store 512 s.mem _ _ _ = mem at stored
  refine ⟨{ s with mem }, ?_, rfl⟩
  rw [mapRange, null, call, Option.bind_some]
  dsimp only
  rw [stored, Option.bind_some, mapRange]

/-- Freeing a range while memory is filled leaves a hole. -/
theorem vmmFree_hole {page : ℕ} (filling : Filling p4 pd m k role s) (plain : flags < 4096)
    (inside : a + n ≤ 2 ^ 18) (pos : 0 < page) (below : page + n ≤ k) (room : k ≤ s.pmm.totalPages)
    (mapped : ∀ j < n, role (page + j) = none ∧
      entryOf p4 s.mem (pageAt (a + j)) = pageEntry ((page + j) * 4096) flags) :
    ∃ s', vmmFree p4 (pageAt a) n s = some s' ∧ Stocked p4 pd m role s' ∧ Steady s s' ∧
      ∀ p, s'.pmm.bitmapTest p = decide (p < k ∧ ¬ Pmm.InRange page n p) := by
  have address : ∀ j < n, freedAt (pageAt a) j = pageAt (a + j) := by
    intro j hj
    rw [freedAt, pageAt_add, pageAt_mod (by omega)]
  have points : ∀ j < n, decode (entryOf p4 s.mem (freedAt (pageAt a) j)) = some (page + j) := by
    intro j hj
    rw [address j hj, (mapped j hj).2, decode_pageEntry _ plain]
  obtain ⟨s', call, cleared⟩ := @freeRange_clears p4 role s (pageAt a) n 0 filling.tables
    (fun j _ hj => by
      rw [address j (by omega)]
      exact uncovered_pageAt (by omega))
    (fun j _ hj u found => by
      rw [points j (by omega)] at found
      exact Option.some.inj found ▸ (mapped j (by omega)).1)
  refine ⟨s', call, ⟨cleared.tables, ?_, fun c hc => ?_⟩, ⟨cleared.next, cleared.total⟩, fun p => ?_⟩
  · rw [cleared.upper _ _ filling.tables.pdpt (by decide) 511 (by decide)]
    exact filling.link
  · rw [cleared.upper _ _ filling.directory (by decide) c hc]
    exact filling.made c hc
  · by_cases hole : Pmm.InRange page n p
    · obtain ⟨j, rfl⟩ := Nat.exists_eq_add_of_le hole.1
      have hj : j < n := by have := hole.2; omega
      rw [decide_eq_false fun h => h.2 hole]
      exact cleared.freed j j.zero_le (by omega) _ (points j hj) (by omega) (by omega)
    · rw [cleared.kept p fun j _ hj found => ?_, filling.used, decide_eq_decide]
      · exact (and_iff_left hole).symm
      · rw [points j (by omega)] at found
        exact hole ⟨by have := Option.some.inj found; omega, by have := Option.some.inj found; omega⟩

/-- An allocation out of the hole that runs over the end of the address space by one page. -/
theorem vmmAlloc_wraps (flags : ℕ) {n page : ℕ} (stocked : Stocked p4 pd m role s)
    (hole : ∀ p, s.pmm.bitmapTest p = decide (p < k ∧ ¬ Pmm.InRange page (n + 1) p))
    (below : page + (n + 1) ≤ k) (next : s.nextVirtAddr = pageAt m) (last : m + n = 2 ^ 18)
    (low : k + ((m + n + 511) / 512 - (m + 511) / 512) ≤ 2 ^ 18)
    (room : k + ((m + n + 511) / 512 - (m + 511) / 512) ≤ s.pmm.totalPages) :
    ∃ s', vmmAlloc p4 (n + 1) flags s = some (some (pageAt m), s') := by
  have alloc : s.pmm.allocPages (n + 1) = (some (page * pageSize), s.pmm.takeRange page (n + 1)) := by
    refine Pmm.allocPages_of_first n.succ_pos (by omega) (fun q hq => ?_) fun q hq => ?_
    · rw [hole, decide_eq_false fun h => h.2 hq]
    · rw [hole, decide_eq_true ⟨by omega, fun range => by have := range.1; omega⟩]
  have used : ∀ p, (s.pmm.takeRange page (n + 1)).bitmapTest p = decide (p < k) := by
    intro p
    rw [Pmm.takeRange_test, hole, ← Bool.decide_or, decide_eq_decide]
    unfold Pmm.InRange
    omega
  have filling : Filling p4 pd m k role { s with pmm := s.pmm.takeRange page (n + 1) } :=
    Stocked.filling ⟨stocked.tables.takeRange page (n + 1), stocked.link, stocked.made⟩ used
  obtain ⟨s₁, role₁, mapped, filling₁, -⟩ := mapRange_filling (page * pageSize) flags filling
    (by omega : m = m + 0) next last.le low (by rw [Pmm.takeRange_totalPages]; exact room)
  have start : s₁.nextVirtAddr = pageAt m := (mapRange_steady mapped).1.trans next
  have null : (s₁.nextVirtAddr + (0 + n) * 4096) % 2 ^ 64 = 0 := by
    rw [start, Nat.zero_add, pageAt_add, last]
    decide
  obtain ⟨s₂, final, next₂⟩ := @mapRange_null p4 s₁ role₁ (page * pageSize) flags (0 + n)
    filling₁.tables null
  refine ⟨{ s₂ with nextVirtAddr := (s₂.nextVirtAddr + (n + 1) * 4096) % 2 ^ 64 }, ?_⟩
  rw [vmmAlloc, alloc]
  dsimp only
  rw [mapRange_append 1 mapped, final, Option.map_some]
  dsimp only
  rw [next₂, start]

/-- 2^17 pages are handed out behind the first one, freed, and handed out again. -/
theorem run_wraps (tables : Tables p4 role s) (used : ∀ p, s.pmm.bitmapTest p = decide (p < 512))
    (absent : decode (s.mem (Radix.slot 512 (p4 + 1) 511)) = none)
    (next : s.nextVirtAddr = pageAt 0) (total : s.pmm.totalPages = 2 ^ 18) :
    ∃ s', Run (Handing p4) (s, [])
      [.alloc 1 2, .alloc 131072 2, .free (pageAt 1) 131072, .alloc 131072 2]
      (s', [(pageAt 131073, 131072), (pageAt 1, 131072), (pageAt 0, 1)]) := by
  obtain ⟨s₁, role₁, call₁, filling₁, next₁, total₁, -⟩ :=
    vmmAlloc_first 2 tables used absent next (by decide) (by omega)
  obtain ⟨s₂, role₂, call₂, filling₂, next₂, total₂, -⟩ :=
    @vmmAlloc_filling p4 513 1 515 role₁ s₁ 2 131072 filling₁ (by decide) next₁ (by decide) (by decide)
      (by omega)
  have small : (s₁.pmm.allocPages 131072).2.totalPages ≤ 2 ^ 18 := by
    rw [Pmm.allocPages_totalPages]
    omega
  -- the same call, with the entries of the range
  obtain ⟨answer, s₂', role₂', call₂', allocates⟩ :=
    @vmmAlloc_spec p4 role₁ s₁ 2 131072 1 filling₁.tables (by omega) (pool_of_small small _) next₁
      (.inl (by decide))
  obtain ⟨rfl, rfl⟩ : answer = some (pageAt 1) ∧ s₂' = s₂ := by
    have same := Option.some.inj (call₂'.symm.trans call₂)
    exact ⟨congrArg Prod.fst same, congrArg Prod.snd same⟩
  obtain ⟨-, -, -, -, page, mapped⟩ := allocates.mapped _ rfl
  have stocked₂ : Stocked p4 513 131073 role₂' s₂' :=
    ⟨allocates.tables, filling₂.link, filling₂.made⟩
  have first := (mapped 0 (by decide)).2.1
  have last := (mapped 131071 (by decide)).2.2.1
  rw [filling₁.used, decide_eq_false_iff_not] at first
  rw [filling₂.used, decide_eq_true_eq] at last
  obtain ⟨s₃, call₃, stocked₃, steady₃, hole⟩ := vmmFree_hole (stocked₂.filling filling₂.used)
    (by decide : 2 < 4096) (by decide : 1 + 131072 ≤ 2 ^ 18) (by omega : 0 < page) (by omega)
    (by omega) fun j hj => (mapped j hj).2.2.2
  obtain ⟨s₄, call₄⟩ := @vmmAlloc_wraps p4 s₃ 513 131073 131843 role₂' 2 131071 page stocked₃ hole
    (by omega) (steady₃.1.trans next₂) (by decide) (by decide) (by rw [steady₃.2]; omega)
  exact ⟨s₄, .cons (.done call₁) (.cons (.done call₂) (.cons (.free call₃)
    (.cons (.done call₄) (.nil _))))⟩

/-- A machine with one gigabyte of memory. -/
def gigabyteVmm : Vmm := bootVmm 264 (fun _ => 0) 0x40000000 (kernelVirtBase + 0x200000)

/-- On this machine the run above hands out a range whose last page lies at address 0. -/
theorem range_wraps : ∃ s ranges,
    Run (Handing 264) (gigabyteVmm, [])
      [.alloc 1 2, .alloc 131072 2, .free (pageAt 1) 131072, .alloc 131072 2] (s, ranges) ∧
    (pageAt 131073, 131072) ∈ ranges ∧ pageAt 131073 ≠ 0 ∧
    pageAt 131073 + 131072 * 4096 = 2 ^ 64 + 4096 ∧ ¬ Windowed ranges := by
  have image : InImage 264 (kernelVirtBase + 0x200000) := ⟨by decide, by decide⟩
  have reserved : Pmm.kernelPages (kernelVirtBase + 0x200000) = 512 := by decide
  have tables : Tables 264 (bootRole 264) gigabyteVmm := boot_tables image fun _ => 0
  have used : ∀ p, gigabyteVmm.pmm.bitmapTest p = decide (p < 512) := by
    intro p
    rw [gigabyteVmm, bootVmm, init_filled, reserved]
  have absent : decode (gigabyteVmm.mem (Radix.slot 512 (264 + 1) 511)) = none :=
    (congrArg decode (bootTables_pdpt 264 (fun _ => 0) (by decide : 511 < 512))).trans rfl
  have total : gigabyteVmm.pmm.totalPages = 2 ^ 18 := by
    rw [gigabyteVmm, bootVmm, Pmm.init, Pmm.takeRange_totalPages]
    decide
  obtain ⟨s, run⟩ := run_wraps tables used absent rfl total
  refine ⟨s, _, run, List.mem_cons_self, by decide, by decide, fun windowed => ?_⟩
  obtain ⟨⟨-, high⟩, -⟩ := windowed _ List.mem_cons_self (by decide)
  exact absurd high (by decide)

end Thuban.Mm

import Thuban.Mm.FirstFit
import Thuban.Mm.Window

/-!
# Failed virtual allocations

`vmm_alloc` takes its pages first and the tables that it needs for them afterwards, one by one.  If
the pages run out in between, it gives the pages of the range back and leaves the entries that it has
written.

`Affordable` says that this does not happen: there are enough pages for all tables, or not even enough
for the first entry.  In runs of such calls no address of `vmm_alloc` maps a free page, and a call that
fails changes no translation (`mappings_backed`).  In general an entry is left behind that maps a free
page (`failed_allocation_maps`).
-/

namespace Thuban.Mm

open Lib Lib.Paging

namespace Pmm

def freeBelow (s : Pmm) (bound : ℕ) : ℕ :=
  ((Finset.range bound).filter fun p => s.bitmapTest p = false).card

variable {s : Pmm} {bound p : ℕ}

theorem freeBelow_take (inside : p < bound) (free : s.bitmapTest p = false) :
    (s.take p).freeBelow bound + 1 = s.freeBelow bound := by
  have taken : (Finset.range bound).filter ((s.take p).bitmapTest · = false) =
      ((Finset.range bound).filter fun q => s.bitmapTest q = false).erase p := by
    ext q
    simp only [Finset.mem_filter, Finset.mem_range, Finset.mem_erase, take_test,
      Bool.or_eq_false_iff, decide_eq_false_iff_not]
    tauto
  rw [freeBelow, taken]
  exact Finset.card_erase_add_one (Finset.mem_filter.mpr ⟨Finset.mem_range.mpr inside, free⟩)

theorem exists_free (some : 0 < s.freeBelow bound) : ∃ p < bound, s.bitmapTest p = false := by
  obtain ⟨p, mem⟩ := Finset.card_pos.mp some
  obtain ⟨inside, free⟩ := Finset.mem_filter.mp mem
  exact ⟨p, Finset.mem_range.mp inside, free⟩

theorem used_of_freeBelow (none : s.freeBelow bound = 0) (inside : p < bound) :
    s.bitmapTest p = true := by
  have empty := Finset.card_eq_zero.mp none
  refine Bool.eq_true_of_not_eq_false fun free => ?_
  exact Finset.eq_empty_iff_forall_notMem.mp empty p
    (Finset.mem_filter.mpr ⟨Finset.mem_range.mpr inside, free⟩)

theorem freeBelow_of_filled {k : ℕ} (filled : ∀ p, s.bitmapTest p = decide (p < k)) (bound : ℕ) :
    s.freeBelow bound = bound - k := by
  have pages : (Finset.range bound).filter (s.bitmapTest · = false) = Finset.Ico k bound := by
    ext p
    rw [Finset.mem_filter, Finset.mem_range, Finset.mem_Ico, filled, decide_eq_false_iff_not]
    omega
  rw [freeBelow, pages, Nat.card_Ico]

theorem alloc_of_freeBelow (below : bound ≤ s.totalPages) (some : 0 < s.freeBelow bound) :
    ∃ u < bound, s.bitmapTest u = false ∧ s.alloc = (.some (u * pageSize), s.take u) := by
  have found := exists_free some
  refine ⟨Nat.find found, (Nat.find_spec found).1, (Nat.find_spec found).2, ?_⟩
  obtain ⟨inside, free⟩ := Nat.find_spec found
  refine alloc_of_first (inside.trans_le below) free fun q hq => ?_
  exact Bool.eq_true_of_not_eq_false fun free => Nat.find_min found hq ⟨hq.trans inside, free⟩

theorem alloc_of_full (full : s.freeBelow s.totalPages = 0) : s.alloc = (none, s) := by
  have search : ∀ n i, i + n ≤ s.totalPages → s.findFreePageFrom n i = none := by
    intro n
    induction n with
    | zero => exact fun _ _ => rfl
    | succ n ih =>
      intro i room
      rw [findFreePageFrom, used_of_freeBelow full (by omega)]
      exact ih (i + 1) (by omega)
  rw [alloc, findFreePage, search _ 0 (by omega)]

/-- At least `r` pages of the first gigabyte are free. -/
def Stock (r : ℕ) (s : Pmm) : Prop := r ≤ s.freeBelow (min s.totalPages (2 ^ 18))

theorem supplies_stock : Supplies Stock := by
  intro r pmm stock
  obtain ⟨u, below, free, alloc⟩ :=
    alloc_of_freeBelow (min_le_left _ _) (Nat.lt_of_lt_of_le r.succ_pos stock)
  refine ⟨u, below.trans_le (min_le_right _ _), free, alloc, ?_⟩
  have := freeBelow_take below free
  unfold Stock at stock ⊢
  rw [take_totalPages]
  omega

end Pmm

/-- The tables that `n` pages from `next_virt_addr` on need and that are not there: the page directory,
and one for every 512 pages that begin among them. -/
def tablesNeeded (p4 : ℕ) (s : Vmm) (n : ℕ) : ℕ :=
  let h := (s.nextVirtAddr - virtBase) / 4096
  (if decode (s.mem (Radix.slot 512 (p4 + 1) 511)) = none then 1 else 0) +
    ((h + n + 511) / 512 - (h + 511) / 512)

/-- Behind the pages of the range the first gigabyte has pages for all tables; or memory has, none of
them above, not enough for the tables of the first page. -/
def Affordable (p4 n : ℕ) (s : Vmm) : Prop :=
  let pmm := (s.pmm.allocPages n).2
  pmm.Stock (tablesNeeded p4 s n) ∨
    pmm.freeBelow pmm.totalPages < tablesNeeded p4 s 1 ∧ pmm.Stock (pmm.freeBelow pmm.totalPages)

/-- The calls of a run: flags that leave the address alone, ranges of pages up to the end of the
address space, and nothing freed that the boot mapping covers. -/
inductive Guarded (p4 : ℕ) : Vmm → VmmCall → Vmm → Prop
  | alloc {s s' : Vmm} {pages flags : ℕ} {answer : Option ℕ} (plain : frame flags = 0)
      (room : (s.pmm.allocPages pages).1 = none ∨
        virtBase ≤ s.nextVirtAddr ∧ s.nextVirtAddr + pages * 4096 ≤ 2 ^ 64 ∧ Affordable p4 pages s)
      (call : vmmAlloc p4 pages flags s = some (answer, s')) : Guarded p4 s (.alloc pages flags) s'
  | free {s s' : Vmm} {virt pages : ℕ} (uncovered : ∀ j < pages, ¬ Covered (freedAt virt j))
      (call : vmmFree p4 virt pages s = some s') : Guarded p4 s (.free virt pages) s'

variable {p4 m n : ℕ} {role : ℕ → Option (List ℕ)} {s s' : Vmm}

/-- The tables for the first `m` pages of addresses, perhaps not even a page directory for none. -/
structure Prepared (p4 m : ℕ) (role : ℕ → Option (List ℕ)) (s : Vmm) : Prop where
  tables : Tables p4 role s
  stocked : (m = 0 ∧ decode (s.mem (Radix.slot 512 (p4 + 1) 511)) = none) ∨
    ∃ pd, Stocked p4 pd m role s

theorem Stocked.prepared {pd : ℕ} (stocked : Stocked p4 pd m role s) : Prepared p4 m role s :=
  ⟨stocked.tables, .inr ⟨pd, stocked⟩⟩

theorem tablesNeeded_eq (next : s.nextVirtAddr = pageAt m) (n : ℕ) :
    tablesNeeded p4 s n =
      (if decode (s.mem (Radix.slot 512 (p4 + 1) 511)) = none then 1 else 0) +
        ((m + n + 511) / 512 - (m + 511) / 512) := by
  have page : (pageAt m - virtBase) / 4096 = m := by
    unfold pageAt
    omega
  rw [tablesNeeded, next, page]

theorem Stocked.getPte_full {pd : ℕ} (stocked : Stocked p4 pd m role s) (inside : m < 2 ^ 18)
    (begins : m % 512 = 0) (full : s.pmm.freeBelow s.pmm.totalPages = 0) :
    getPte p4 (pageAt m) true s = some (none, s) := by
  have absent : decode (s.mem (Radix.slot 512 pd (m / 512))) = none :=
    (stocked.made _ (by omega)).mpr (by omega)
  rw [stocked.getPte_eq inside, descend_full stocked.tables stocked.directory (by omega) absent
    (by rw [Pmm.alloc_of_full full])]
  rfl

theorem Tables.getPte_full (tables : Tables p4 role s)
    (absent : decode (s.mem (Radix.slot 512 (p4 + 1) 511)) = none)
    (full : s.pmm.freeBelow s.pmm.totalPages = 0) :
    getPte p4 (pageAt 0) true s = some (none, s) := by
  obtain ⟨i₃, i₂, i₁, i₀⟩ := @index_pageAt 0 (by decide)
  rw [getPte, i₃, i₂, i₁, i₀]
  show Option.map _ (walkTables p4 true [511, 511, 0] (tableAddr p4) s) = _
  rw [walkTables, descend_present tables tables.root (by decide) (by decide) true tables.first_link,
    Option.bind_some]
  dsimp only
  rw [walkTables, descend_full tables tables.pdpt (by decide) absent
    (by rw [Pmm.alloc_of_full full])]
  rfl

theorem Prepared.getPte_short (prepared : Prepared p4 m role s) (inside : m < 2 ^ 18)
    (next : s.nextVirtAddr = pageAt m)
    (short : s.pmm.freeBelow s.pmm.totalPages < tablesNeeded p4 s 1)
    (low : s.pmm.Stock (s.pmm.freeBelow s.pmm.totalPages)) :
    ∃ s' role', getPte p4 (pageAt m) true s = some (none, s') ∧ Prepared p4 m role' s' ∧
      Extends p4 (fun _ => False) role s role' s' := by
  rw [tablesNeeded_eq next] at short
  obtain ⟨rfl, absent⟩ | ⟨pd, stocked⟩ := prepared.stocked
  · rw [if_pos absent] at short
    by_cases full : s.pmm.freeBelow s.pmm.totalPages = 0
    · exact ⟨s, role, prepared.tables.getPte_full absent full, prepared, .refl prepared.tables⟩
    · -- one page is left: it becomes the page directory
      obtain ⟨u, below, free, alloc⟩ := Pmm.alloc_of_freeBelow (min_le_left _ _)
        (Nat.lt_of_lt_of_le (Nat.pos_of_ne_zero full) low)
      obtain ⟨s₁, role₁, same, stocked, ext, pmm⟩ :=
        prepared.tables.make_directory absent alloc free (below.trans_le (min_le_right _ _))
      refine ⟨s₁, role₁, same.trans (stocked.getPte_full inside rfl ?_), stocked.prepared, ext⟩
      have := Pmm.freeBelow_take (below.trans_le (min_le_left _ _)) free
      rw [pmm, Pmm.take_totalPages]
      omega
  · have link : decode (s.mem (Radix.slot 512 (p4 + 1) 511)) ≠ none := by
      rw [stocked.link]
      exact Option.some_ne_none pd
    rw [if_neg link] at short
    exact ⟨s, role, stocked.getPte_full inside (by omega) (by omega), prepared,
      .refl prepared.tables⟩

/-- With pages for all tables the loop of `vmm_alloc` comes to its end. -/
theorem Prepared.mapRange_done (phys flags : ℕ) (prepared : Prepared p4 m role s) (pos : 0 < n)
    (next : s.nextVirtAddr = pageAt m) (inside : m + n ≤ 2 ^ 18)
    (stock : s.pmm.Stock (tablesNeeded p4 s n)) :
    ∃ s' role', mapRange p4 phys flags n 0 s = some (true, s') ∧ Prepared p4 (m + n) role' s' ∧
      Extends p4 (fun w => ∃ j < n, SameSlot w (pageAt (m + j))) role s role' s' ∧
      ∀ j < n, entryOf p4 s'.mem (pageAt (m + j)) = pageEntry (phys + j * 4096) flags := by
  rw [tablesNeeded_eq next] at stock
  obtain ⟨rfl, absent⟩ | ⟨pd, stocked⟩ := prepared.stocked
  · rw [if_pos absent, Nat.add_comm] at stock
    obtain ⟨u, low, free, alloc, stock₁⟩ := Pmm.supplies_stock _ _ stock
    obtain ⟨s₁, role₁, same, stocked, ext₁, pmm⟩ :=
      prepared.tables.make_directory absent alloc free low
    have next₁ : s₁.nextVirtAddr = pageAt 0 := ext₁.next.trans next
    obtain ⟨s₂, role₂, loop, stocked₂, ext₂, -, entries⟩ :=
      @mapRange_stocked p4 u 0 role₁ s₁ Pmm.Stock Pmm.supplies_stock 0 phys flags n 0 0 stocked rfl
        next₁ inside (pmm ▸ stock₁)
    refine ⟨s₂, role₂, ?_, stocked₂.prepared, ?_, fun j hj => ?_⟩
    · obtain ⟨n, rfl⟩ := Nat.exists_eq_succ_of_ne_zero pos.ne'
      rw [← loop, mapRange, mapRange, next, next₁, pageAt_add, Nat.add_zero, pageAt_mod (by decide),
        same]
    · exact (ext₁.mono fun _ h => h.elim).trans ext₂
    · rw [entries j hj, Nat.zero_add]
  · have link : decode (s.mem (Radix.slot 512 (p4 + 1) 511)) ≠ none := by
      rw [stocked.link]
      exact Option.some_ne_none pd
    rw [if_neg link, Nat.zero_add] at stock
    obtain ⟨s₂, role₂, loop, stocked₂, ext₂, -, entries⟩ :=
      @mapRange_stocked p4 pd m role s Pmm.Stock Pmm.supplies_stock 0 phys flags n 0 m stocked rfl
        next inside stock
    exact ⟨s₂, role₂, loop, stocked₂.prepared, ext₂, fun j hj => by rw [entries j hj, Nat.zero_add]⟩

/-- What every state of a run satisfies: each entry maps a used page that is no table, and no two
entries map the same. -/
structure Backed (p4 : ℕ) (s : Vmm) (role : ℕ → Option (List ℕ)) (h : ℕ) : Prop where
  prepared : Prepared p4 h role s
  total : s.pmm.totalPages ≤ 2 ^ 20
  below : h ≤ 2 ^ 18
  next : s.nextVirtAddr = pageAt h % 2 ^ 64
  used : ∀ v, ¬ Covered v → present (entryOf p4 s.mem v) = true →
    s.pmm.bitmapTest (frame (entryOf p4 s.mem v)) = true ∧ role (frame (entryOf p4 s.mem v)) = none
  injective : ∀ v w, ¬ Covered v → ¬ Covered w → present (entryOf p4 s.mem v) = true →
    present (entryOf p4 s.mem w) = true →
    frame (entryOf p4 s.mem v) = frame (entryOf p4 s.mem w) → SameSlot v w

theorem frame_pageEntry {page flags : ℕ} (small : page < 2 ^ 40) (plain : frame flags = 0) :
    frame (pageEntry (page * 4096) flags) = page := by
  have bits : ∀ e, frame e = e / 4096 % 2 ^ 40 := by
    intro e
    unfold frame
    omega
  rw [bits] at plain
  rw [bits, pageEntry_div_or, Nat.mul_div_cancel _ (by decide), Nat.or_mod_two_pow, plain,
    Nat.or_zero, Nat.mod_eq_of_lt small]

theorem frame_of_decode {e u : ℕ} (points : decode e = some u) (small : u < 2 ^ 40) :
    present e = true ∧ frame e = u := by
  cases up : present e with
  | false =>
    rw [decode_eq_none.mpr up] at points
    cases points
  | true =>
    rw [decode, if_pos up] at points
    have := Option.some.inj points
    refine ⟨rfl, ?_⟩
    unfold frame
    omega

theorem boot_entryOf (rest : ℕ → ℕ) {v : ℕ} (uncovered : ¬ Covered v) :
    entryOf p4 (bootTables p4 rest) v = 0 := by
  have ends : Radix.walk 512 decode (bootTables p4 rest) (pathOf v) p4 = none := by
    rw [pathOf, Radix.walk, bootTables_root p4 rest (index_lt 3 v)]
    split_ifs with first
    · rw [decode_link, Option.bind_some, Radix.walk, bootTables_pdpt p4 rest (index_lt 2 v),
        if_neg fun second => uncovered ⟨first, second⟩]
      rfl
    · rfl
  rw [entryOf, Radix.lookup, ends]
  rfl

theorem boot_backed {memSize kernelEnd : ℕ} (image : InImage p4 kernelEnd) (rest : ℕ → ℕ) :
    Backed p4 (bootVmm p4 rest memSize kernelEnd) (bootRole p4) 0 where
  prepared := ⟨boot_tables image rest,
    .inl ⟨rfl, (congrArg decode (bootTables_pdpt p4 rest (by decide : 511 < 512))).trans rfl⟩⟩
  total := init_totalPages_le memSize kernelEnd
  below := Nat.zero_le _
  next := by
    show virtBase = pageAt 0 % 2 ^ 64
    decide
  used v uncovered up := by
    rw [show entryOf p4 (bootVmm p4 rest memSize kernelEnd).mem v = 0 from
      boot_entryOf rest uncovered] at up
    cases up
  injective v w uncovered _ up := by
    rw [show entryOf p4 (bootVmm p4 rest memSize kernelEnd).mem v = 0 from
      boot_entryOf rest uncovered] at up
    cases up

theorem Prepared.of_mem (prepared : Prepared p4 m role s) (tables : Tables p4 role s')
    (mem : s'.mem = s.mem) : Prepared p4 m role s' := by
  refine ⟨tables, ?_⟩
  obtain ⟨none, absent⟩ | ⟨pd, stocked⟩ := prepared.stocked
  · exact .inl ⟨none, by rw [mem]; exact absent⟩
  · exact .inr ⟨pd, tables, by rw [mem]; exact stocked.link, by rw [mem]; exact stocked.made⟩

section Steps

variable {h page flags : ℕ} (backed : Backed p4 s role h)

include backed

theorem Backed.next_eq (inside : h < 2 ^ 18) : s.nextVirtAddr = pageAt h :=
  backed.next.trans (pageAt_mod inside)

theorem Backed.role_of_extends {touched : ℕ → Prop} {role' : ℕ → Option (List ℕ)}
    (ext : Extends p4 touched role { s with pmm := s.pmm.takeRange page n } role' s') {v : ℕ}
    (uncovered : ¬ Covered v) (up : present (entryOf p4 s.mem v) = true) :
    role' (frame (entryOf p4 s.mem v)) = none := by
  obtain ⟨used, data⟩ := backed.used v uncovered up
  cases place : role' (frame (entryOf p4 s.mem v)) with
  | none => rfl
  | some k =>
    rw [ext.fresh_of_taken _ k data place] at used
    cases used

/-- A call that fails before its first entry gives its pages back and changes no entry. -/
theorem Backed.short (inside : h < 2 ^ 18) (pos : 0 < n) (fits : page + n ≤ s.pmm.totalPages)
    (free : ∀ q, Pmm.InRange page n q → s.pmm.bitmapTest q = false)
    (short : (s.pmm.takeRange page n).freeBelow s.pmm.totalPages < tablesNeeded p4 s 1)
    (low : (s.pmm.takeRange page n).Stock ((s.pmm.takeRange page n).freeBelow s.pmm.totalPages)) :
    ∃ s₁ role', mapRange p4 (page * pageSize) flags n 0 { s with pmm := s.pmm.takeRange page n } =
        some (false, s₁) ∧
      Backed p4 { s₁ with pmm := s₁.pmm.freePages (page * pageSize) n } role' h ∧
      ∀ v, ¬ Covered v → entryOf p4 s₁.mem v = entryOf p4 s.mem v := by
  have total := backed.total
  have tables := backed.prepared.tables
  have start : Prepared p4 h role { s with pmm := s.pmm.takeRange page n } :=
    backed.prepared.of_mem (tables.takeRange page n) rfl
  obtain ⟨s₁, role', call, prepared, ext⟩ := start.getPte_short inside (backed.next_eq inside)
    (by rw [Pmm.takeRange_totalPages]; exact short) (by rw [Pmm.takeRange_totalPages]; exact low)
  have entries : ∀ v, ¬ Covered v → entryOf p4 s₁.mem v = entryOf p4 s.mem v := fun v uncovered =>
    ext.entries v uncovered not_false
  have data := ext.data tables free
  refine ⟨s₁, role', ?_, ⟨prepared.of_mem (prepared.tables.freePages (by omega) data) rfl, ?_,
    backed.below, ext.next.trans backed.next, ?_, ?_⟩, entries⟩
  · obtain ⟨n, rfl⟩ := Nat.exists_eq_succ_of_ne_zero pos.ne'
    have address : (s.nextVirtAddr + 0 * 4096) % 2 ^ 64 = pageAt h := by
      rw [backed.next_eq inside, pageAt_add, Nat.add_zero, pageAt_mod inside]
    rw [mapRange]
    rw [address, call, Option.bind_some]
  · refine ((Pmm.freePagesFrom_totalPages ..).trans ext.total).trans_le ?_
    rw [Pmm.takeRange_totalPages]
    exact total
  · intro v uncovered up
    rw [entries v uncovered] at up ⊢
    have used := (backed.used v uncovered up).1
    refine ⟨?_, backed.role_of_extends ext uncovered up⟩
    rw [Pmm.freePages_test_of_not_mem (by omega) fun range => ?_]
    · exact ext.used_of_taken _ used
    · rw [free _ range] at used
      cases used
  · intro v w hv hw upV upW same
    rw [entries v hv] at upV same
    rw [entries w hw] at upW same
    exact backed.injective v w hv hw upV upW same

theorem Backed.done (inside : h + n ≤ 2 ^ 18) (pos : 0 < n) (fits : page + n ≤ s.pmm.totalPages)
    (free : ∀ q, Pmm.InRange page n q → s.pmm.bitmapTest q = false) (plain : frame flags = 0)
    (stock : (s.pmm.takeRange page n).Stock (tablesNeeded p4 s n)) :
    ∃ s₁ role', mapRange p4 (page * pageSize) flags n 0 { s with pmm := s.pmm.takeRange page n } =
        some (true, s₁) ∧
      Backed p4 { s₁ with nextVirtAddr := (s₁.nextVirtAddr + n * 4096) % 2 ^ 64 } role' (h + n) := by
  have total := backed.total
  have tables := backed.prepared.tables
  have below : h < 2 ^ 18 := by omega
  have start : Prepared p4 h role { s with pmm := s.pmm.takeRange page n } :=
    backed.prepared.of_mem (tables.takeRange page n) rfl
  obtain ⟨s₁, role', loop, prepared, ext, mapped⟩ := start.mapRange_done (page * pageSize) flags pos
    (backed.next_eq below) inside stock
  have data := ext.data tables free
  have tables' : Tables p4 role'
      { s₁ with nextVirtAddr := (s₁.nextVirtAddr + n * 4096) % 2 ^ 64 } :=
    ext.tables.of_agree (fun _ _ _ _ _ _ => rfl) ext.tables.used
  -- an entry is an old one, or one of those of the range
  have cases : ∀ v, ¬ Covered v → entryOf p4 s₁.mem v = entryOf p4 s.mem v ∨
      ∃ j < n, SameSlot v (pageAt (h + j)) ∧ frame (entryOf p4 s₁.mem v) = page + j := by
    intro v uncovered
    by_cases touched : ∃ j < n, SameSlot v (pageAt (h + j))
    · obtain ⟨j, hj, same⟩ := touched
      refine .inr ⟨j, hj, same, ?_⟩
      rw [entryOf_of_sameSlot ext.tables (uncovered_pageAt (by omega)) same, mapped j hj, pageSize,
        ← Nat.add_mul, frame_pageEntry (by omega) plain]
    · exact .inl (ext.entries v uncovered touched)
  have fresh : ∀ v j, ¬ Covered v → present (entryOf p4 s.mem v) = true → j < n →
      frame (entryOf p4 s.mem v) ≠ page + j := by
    intro v j uncovered up hj same
    have used := (backed.used v uncovered up).1
    rw [same, free (page + j) ⟨by omega, by omega⟩] at used
    cases used
  refine ⟨s₁, role', loop, prepared.of_mem tables' rfl, ?_, inside, ?_, ?_, ?_⟩
  · refine ext.total.trans_le ?_
    rw [Pmm.takeRange_totalPages]
    exact total
  · show (s₁.nextVirtAddr + n * 4096) % 2 ^ 64 = _
    rw [ext.next.trans (backed.next_eq below), pageAt_add]
  · intro v uncovered up
    obtain same | ⟨j, hj, -, new⟩ := cases v uncovered
    · rw [same] at up ⊢
      exact ⟨ext.used_of_taken _ (backed.used v uncovered up).1,
        backed.role_of_extends ext uncovered up⟩
    · rw [new]
      have range : Pmm.InRange page n (page + j) := ⟨by omega, by omega⟩
      exact ⟨ext.used_data _ range, data _ range⟩
  · intro v w hv hw upV upW equal
    dsimp only at upV upW equal
    obtain sameV | ⟨i, hi, slotV, newV⟩ := cases v hv
    · rw [sameV] at upV equal
      obtain sameW | ⟨j, hj, -, newW⟩ := cases w hw
      · rw [sameW] at upW equal
        exact backed.injective v w hv hw upV upW equal
      · exact absurd (equal.trans newW) (fresh v j hv upV hj)
    · obtain sameW | ⟨j, hj, slotW, newW⟩ := cases w hw
      · rw [sameW] at upW equal
        exact absurd (equal.symm.trans newV) (fresh w i hw upW hi)
      · obtain rfl : i = j := by omega
        exact ⟨slotV.1.trans slotW.1.symm, slotV.2.trans slotW.2.symm⟩

theorem Backed.freed {virt : ℕ} (uncovered : ∀ j < n, ¬ Covered (freedAt virt j)) :
    ∃ s', vmmFree p4 virt n s = some s' ∧ Backed p4 s' role h := by
  have tables := backed.prepared.tables
  obtain ⟨s', call, cleared⟩ := @freeRange_clears p4 role s virt n 0 tables
    (fun j _ hj => uncovered j (by omega)) (by
      intro j _ hj u points
      cases place : role u with
      | none => rfl
      | some k =>
        have low := tables.low u k place
        obtain ⟨up, same⟩ := frame_of_decode points (by omega)
        have := (backed.used _ (uncovered j (by omega)) up).2
        rw [same, place] at this
        cases this)
  -- an entry that is there lies elsewhere, and is the old one
  have left : ∀ v, ¬ Covered v → present (entryOf p4 s'.mem v) = true →
      entryOf p4 s'.mem v = entryOf p4 s.mem v ∧ ∀ j < n, ¬ SameSlot v (freedAt virt j) := by
    intro v hv up
    refine ⟨?_, fun j hj same => ?_⟩
    · obtain gone | same := cleared.fewer v hv
      · rw [gone] at up
        cases up
      · exact same
    · rw [entryOf_of_sameSlot cleared.tables (uncovered j hj) same,
        cleared.gone j j.zero_le (by omega)] at up
      cases up
  refine ⟨s', call, ⟨?_, cleared.total.trans_le backed.total, backed.below,
    cleared.next.trans backed.next, ?_, ?_⟩⟩
  · refine ⟨cleared.tables, ?_⟩
    obtain ⟨none, absent⟩ | ⟨pd, stocked⟩ := backed.prepared.stocked
    · refine .inl ⟨none, ?_⟩
      rw [cleared.upper _ _ tables.pdpt (by decide) 511 (by decide)]
      exact absent
    · refine .inr ⟨pd, cleared.tables, ?_, fun c hc => ?_⟩
      · rw [cleared.upper _ _ tables.pdpt (by decide) 511 (by decide)]
        exact stocked.link
      · rw [cleared.upper _ _ stocked.directory (by decide) c hc]
        exact stocked.made c hc
  · intro v hv up
    obtain ⟨same, apart⟩ := left v hv up
    rw [same] at up ⊢
    obtain ⟨used, data⟩ := backed.used v hv up
    refine ⟨(cleared.kept _ fun j _ hj points => ?_).trans used, data⟩
    have small : frame (entryOf p4 s.mem v) < 2 ^ 40 := by
      unfold frame
      omega
    obtain ⟨up', same'⟩ := frame_of_decode points small
    exact apart j (by omega) (backed.injective v _ hv (uncovered j (by omega)) up up' same'.symm)
  · intro v w hv hw upV upW same
    have oldV := (left v hv upV).1
    have oldW := (left w hw upW).1
    rw [oldV] at upV same
    rw [oldW] at upW same
    exact backed.injective v w hv hw upV upW same

/-- A call of `vmm_alloc` in a run returns; if it fails, the entries are the old ones. -/
theorem Backed.alloc (plain : frame flags = 0)
    (room : (s.pmm.allocPages n).1 = none ∨
      virtBase ≤ s.nextVirtAddr ∧ s.nextVirtAddr + n * 4096 ≤ 2 ^ 64 ∧ Affordable p4 n s) :
    ∃ answer s' role' h', vmmAlloc p4 n flags s = some (answer, s') ∧ Backed p4 s' role' h' ∧
      (answer = none → ∀ v, ¬ Covered v → entryOf p4 s'.mem v = entryOf p4 s.mem v) := by
  rw [vmmAlloc]
  rcases alloc : s.pmm.allocPages n with ⟨_ | phys, pmm⟩
  · obtain rfl := Pmm.allocPages_eq_none alloc
    exact ⟨none, s, role, h, rfl, backed, fun _ _ _ => rfl⟩
  · obtain ⟨page, pos, fits, free, rfl, rfl⟩ := Pmm.allocPages_eq_some alloc
    obtain ⟨base, last, affordable⟩ : virtBase ≤ s.nextVirtAddr ∧ _ ∧ Affordable p4 n s := by
      refine room.resolve_left ?_
      rw [alloc]
      exact Option.some_ne_none _
    rw [Affordable, alloc] at affordable
    dsimp only at affordable ⊢
    rw [Pmm.takeRange_totalPages] at affordable
    have start : virtBase = 2 ^ 64 - 2 ^ 30 := by decide
    have below := backed.below
    have next := backed.next
    unfold pageAt at next
    obtain enough | ⟨short, low⟩ := affordable
    · obtain ⟨s₁, role', loop, backed'⟩ := backed.done (by omega) pos fits free plain enough
      refine ⟨some s₁.nextVirtAddr, _, role', h + n, ?_, backed', fun none => absurd none (by simp)⟩
      rw [loop]
      rfl
    · obtain ⟨s₁, role', loop, backed', entries⟩ := @Backed.short p4 n role s h page flags backed
        (by omega) pos fits free short low
      refine ⟨none, _, role', h, ?_, backed', fun _ => entries⟩
      rw [loop]
      rfl

end Steps

theorem guarded_step {call : VmmCall} {h : ℕ} (backed : Backed p4 s role h)
    (step : Guarded p4 s call s') : ∃ role' h', Backed p4 s' role' h' := by
  cases step with
  | alloc plain room call =>
    obtain ⟨answer, s₁, role', h', same, backed', -⟩ := backed.alloc plain room
    obtain rfl : s₁ = s' := congrArg Prod.snd (Option.some.inj (same.symm.trans call))
    exact ⟨role', h', backed'⟩
  | free uncovered call =>
    obtain ⟨s₁, same, backed'⟩ := backed.freed uncovered
    obtain rfl : s₁ = s' := Option.some.inj (same.symm.trans call)
    exact ⟨role, h, backed'⟩

theorem translate_covered {v : ℕ} (tables : Tables p4 role s) (covered : Covered v) :
    translate s.mem p4 v = if Canonical v then some (index 1 v * 2 ^ 21 + v % 2 ^ 21) else none := by
  have inside := tables.boot.inside
  have bound := index_lt 1 v
  by_cases canonical : Canonical v
  · rw [if_pos canonical]
    exact translate_huge canonical (tables.boot.first _ covered.1) (by omega)
      (tables.boot.second _ covered.2) (by omega) (tables.boot.large _ bound) (by omega)
  · unfold Paging.translate
    rw [if_pos canonical, if_neg canonical]

theorem translate_of_entries {role' : ℕ → Option (List ℕ)} (tables : Tables p4 role s)
    (tables' : Tables p4 role' s')
    (entries : ∀ v, ¬ Covered v → entryOf p4 s'.mem v = entryOf p4 s.mem v) (v : ℕ) :
    translate s'.mem p4 v = translate s.mem p4 v := by
  by_cases covered : Covered v
  · rw [translate_covered tables covered, translate_covered tables' covered]
  · rw [translate_entry tables covered, translate_entry tables' covered, entries v covered]

/-- In every run of affordable calls, no address of `vmm_alloc` is translated to a page that is free,
and a call of `vmm_alloc` that fails leaves every translation as it was. -/
theorem mappings_backed {memSize kernelEnd : ℕ} {rest : ℕ → ℕ} {calls : List VmmCall}
    (image : InImage p4 kernelEnd)
    (run : Run (Guarded p4) (bootVmm p4 rest memSize kernelEnd) calls s) :
    (∀ v a, virtBase ≤ v → v < 2 ^ 64 → translate s.mem p4 v = some a →
      s.pmm.bitmapTest (a / 4096) = true) ∧
    ∀ pages flags s', Guarded p4 s (.alloc pages flags) s' →
      vmmAlloc p4 pages flags s = some (none, s') →
        ∀ v, translate s'.mem p4 v = translate s.mem p4 v := by
  obtain ⟨role, h, backed⟩ : ∃ role h, Backed p4 s role h :=
    run.invariant (P := fun s => ∃ role h, Backed p4 s role h)
      (fun _ _ _ ⟨_, _, backed⟩ step => guarded_step backed step) ⟨_, _, boot_backed image rest⟩
  refine ⟨fun v a low high found => ?_, fun pages flags s' step failed v => ?_⟩
  · have uncovered : ¬ Covered v := by
      have base : virtBase = 2 ^ 64 - 2 ^ 30 := by decide
      rintro ⟨-, second⟩
      unfold index at second
      omega
    rw [translate_entry backed.prepared.tables uncovered] at found
    split_ifs at found with up
    have page : a / 4096 = frame (entryOf p4 s.mem v) := by
      rw [← Option.some.inj found]
      unfold large frame
      omega
    rw [page]
    exact (backed.used v uncovered up.2).1
  · cases step with
    | alloc plain room call =>
      obtain ⟨answer, s₁, role', h', same, backed', entries⟩ := backed.alloc plain room
      obtain ⟨rfl, rfl⟩ := Prod.mk.inj (Option.some.inj (same.symm.trans failed))
      exact translate_of_entries backed.prepared.tables backed'.prepared.tables (entries rfl) v

/-- The small machine has pages for the first allocation and its tables. -/
theorem mappings_backed_small : ∃ s, Run (Guarded 264) smallVmm [.alloc 1 2] s ∧
    (∀ v a, virtBase ≤ v → v < 2 ^ 64 → translate s.mem 264 v = some a →
      s.pmm.bitmapTest (a / 4096) = true) ∧
    ∀ pages flags s', Guarded 264 s (.alloc pages flags) s' →
      vmmAlloc 264 pages flags s = some (none, s') →
        ∀ v, translate s'.mem 264 v = translate s.mem 264 v := by
  obtain ⟨⟨answer, s⟩, call, -⟩ := Option.map_eq_some_iff.mp smallVmm_first
  have total : smallVmm.pmm.totalPages = 1024 := by decide +kernel
  have reserved : Pmm.kernelPages (kernelVirtBase + 0x110000) = 272 := by decide
  have used : ∀ p, smallVmm.pmm.bitmapTest p = decide (p < 272) := by
    intro p
    rw [smallVmm, bootVmm, init_filled, reserved]
  have pages : (smallVmm.pmm.allocPages 1).2.Stock (tablesNeeded 264 smallVmm 1) := by
    rw [Pmm.allocPages_of_filled used (by decide) (by omega), Pmm.Stock, Pmm.takeRange_totalPages,
      Pmm.freeBelow_of_filled (Pmm.takeRange_filled used 1), total]
    decide +kernel
  have run : Run (Guarded 264) smallVmm [.alloc 1 2] s :=
    .cons (.alloc (by decide) (.inr ⟨by decide +kernel, by decide +kernel, .inl pages⟩) call) (.nil _)
  exact ⟨s, run, mappings_backed smallVmm_image run⟩

/-! ## A call that fails in between -/

/-- 513 pages are allocated where there are two pages for tables: the third one is missing when 512
pages are mapped.  The pages are given back, and their entries stay. -/
theorem vmmAlloc_short {k : ℕ} (tables : Tables p4 role s)
    (used : ∀ p, s.pmm.bitmapTest p = decide (p < k))
    (absent : decode (s.mem (Radix.slot 512 (p4 + 1) 511)) = none)
    (next : s.nextVirtAddr = pageAt 0) (pos : 0 < k) (total : s.pmm.totalPages = k + 515)
    (low : k + 515 ≤ 2 ^ 18) :
    ∃ s', vmmAlloc p4 513 2 s = some (none, s') ∧ s'.pmm.bitmapTest k = false ∧
      translate s'.mem p4 virtBase = some (k * 4096) := by
  have alloc := Pmm.allocPages_of_filled used (by decide : 0 < 513) (by omega)
  have taken := Pmm.takeRange_filled used 513
  have total₀ := Pmm.takeRange_totalPages s.pmm k 513
  have tables₀ := tables.takeRange k 513
  generalize s.pmm.takeRange k 513 = pmm₀ at alloc taken total₀ tables₀
  have page : pmm₀.alloc = (some ((k + 513) * 4096), pmm₀.take (k + 513)) :=
    Pmm.alloc_of_filled taken (by omega)
  obtain ⟨s₁, role₁, same, stocked, ext₁, pmm⟩ := tables₀.make_directory absent page
    (by rw [taken]; simp) (by omega)
  have next₁ : s₁.nextVirtAddr = pageAt 0 := ext₁.next.trans next
  have total₁ : s₁.pmm.totalPages = k + 515 := by
    rw [pmm, Pmm.take_totalPages, total₀, total]
  have stock : Filled (k + 515) 1 s₁.pmm := by
    refine ⟨by omega, fun _ => ⟨low, by omega⟩, fun p => ?_⟩
    rw [pmm, Pmm.take_test, taken, ← Bool.decide_or, decide_eq_decide]
    omega
  obtain ⟨s₂, role₂, loop, stocked₂, ext₂, ⟨-, -, used₂⟩, entries⟩ :=
    @mapRange_stocked p4 (k + 513) 0 role₁ s₁ (Filled (k + 515)) (supplies_filled _) 0
      (k * pageSize) 2 512 0 0 stocked rfl next₁ (by decide) stock
  have total₂ : s₂.pmm.totalPages = k + 515 := ext₂.total.trans total₁
  have full : s₂.pmm.freeBelow s₂.pmm.totalPages = 0 := by
    rw [Pmm.freeBelow_of_filled used₂, total₂]
    omega
  have last : mapRange p4 (k * pageSize) 2 1 (0 + 512) s₂ = some (false, s₂) := by
    have address : (s₂.nextVirtAddr + (0 + 512) * 4096) % 2 ^ 64 = pageAt 512 := by
      rw [ext₂.next, next₁]
      decide
    rw [mapRange, address, stocked₂.getPte_full (by decide) (by decide) full]
    rfl
  have mapped : mapRange p4 (k * pageSize) 2 513 0 { s with pmm := pmm₀ } = some (false, s₂) := by
    have address : (pageAt 0 + 0 * 4096) % 2 ^ 64 = pageAt 0 := by decide
    rw [← last, ← mapRange_append 1 loop, mapRange, mapRange, next₁, address, ← same]
    rw [next, address]
  refine ⟨{ s₂ with pmm := s₂.pmm.freePages (k * pageSize) 513 }, ?_, ?_, ?_⟩
  · rw [vmmAlloc, alloc]
    dsimp only
    rw [mapped]
    rfl
  · have address : (k * pageSize + 0 * pageSize) % 2 ^ 64 = k * pageSize := by
      unfold pageSize
      omega
    have freed := @Pmm.freePagesFrom_test_of_eq s₂.pmm 513 (k * pageSize) 0 0 le_rfl (by decide)
    rw [address, Nat.mul_div_cancel _ (by decide : 0 < pageSize)] at freed
    dsimp only
    rw [Pmm.freePages]
    exact freed (by unfold pageSize; omega) (by omega)
  · have entry := entries 0 (by decide)
    simp only [Nat.add_zero, Nat.zero_mul, pageSize] at entry
    have found := translate_entry stocked₂.tables (uncovered_pageAt (by decide : 0 < 2 ^ 18))
    rw [entry, if_pos ⟨by decide, present_pageEntry _ _⟩] at found
    refine found.trans (congrArg some ?_)
    have aligned : pageAt 0 % 2 ^ 12 = 0 := by decide
    have page : frame (pageEntry (k * 4096) 2) = k := frame_pageEntry (by omega) (by decide)
    unfold frame at page
    unfold large
    omega

/-- A machine whose memory ends 515 pages behind the kernel image. -/
def tightVmm : Vmm := bootVmm 264 (fun _ => 0) (1027 * 4096) (kernelVirtBase + 0x200000)

/-- On this machine `vmm_alloc` of 513 pages returns NULL and leaves its first address mapped to a page
that is free; before the call it was not mapped. -/
theorem failed_allocation_maps : ∃ s, vmmAlloc 264 513 2 tightVmm = some (none, s) ∧
    translate tightVmm.mem 264 virtBase = none ∧
    translate s.mem 264 virtBase = some (512 * 4096) ∧ s.pmm.bitmapTest 512 = false := by
  have image : InImage 264 (kernelVirtBase + 0x200000) := ⟨by decide, by decide⟩
  have reserved : Pmm.kernelPages (kernelVirtBase + 0x200000) = 512 := by decide
  have tables : Tables 264 (bootRole 264) tightVmm := boot_tables image fun _ => 0
  have used : ∀ p, tightVmm.pmm.bitmapTest p = decide (p < 512) := by
    intro p
    rw [tightVmm, bootVmm, init_filled, reserved]
  have absent : decode (tightVmm.mem (Radix.slot 512 (264 + 1) 511)) = none :=
    (congrArg decode (bootTables_pdpt 264 (fun _ => 0) (by decide : 511 < 512))).trans rfl
  have total : tightVmm.pmm.totalPages = 512 + 515 := by
    rw [tightVmm, bootVmm, Pmm.init, Pmm.takeRange_totalPages]
    decide
  obtain ⟨s, call, free, found⟩ :=
    vmmAlloc_short tables used absent rfl (by decide) total (by decide)
  have before : translate tightVmm.mem 264 virtBase = none := by
    rw [translate_entry tables (by decide : ¬ Covered virtBase)]
    exact if_neg fun up => by
      rw [show entryOf 264 tightVmm.mem virtBase = 0 from boot_entryOf _ (by decide)] at up
      exact Bool.false_ne_true up.2
  exact ⟨s, call, before, found, free⟩

end Thuban.Mm

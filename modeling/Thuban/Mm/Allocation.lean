import Thuban.Mm.Filling
import Thuban.Mm.Walkers

/-!
# Virtual allocations

The clients of `vmm_alloc` hold the ranges of pages handed out and not freed since.  While the page
tables come from the first gigabyte, which the boot mapping covers, the ranges are disjoint, every
page of them is mapped to a physical page of its own, and none of these is in use as a table
(`ranges_separate`).

Otherwise this fails: a page table that lies above the first gigabyte is reached at the address of a
page that was handed out (`tables_above_gigabyte`).
-/

namespace Thuban.Mm

open Lib Lib.Paging

/-- The addresses of the pages of ranges, each given by its first address and number of pages. -/
def Held (live : List (ℕ × ℕ)) (v : ℕ) : Prop := ∃ r ∈ live, ∃ i < r.2, v = r.1 + i * 4096

/-- Two ranges without a common address. -/
def Apart (r r' : ℕ × ℕ) : Prop := r.1 + r.2 * 4096 ≤ r'.1 ∨ r'.1 + r'.2 * 4096 ≤ r.1

instance : Std.Symm Apart := ⟨fun _ _ => Or.symm⟩

/-- One call, with the ranges that the clients hold.  Flags do not reach into the address, and fewer
than 2^18 pages are handed out in all. -/
inductive Allocation (p4 : ℕ) : Vmm × List (ℕ × ℕ) → VmmCall → Vmm × List (ℕ × ℕ) → Prop
  | failed {s s' : Vmm} {live : List (ℕ × ℕ)} {pages flags : ℕ} (plain : flags < 4096)
      (room : s.nextVirtAddr + pages * 4096 < 2 ^ 64 ∨ (s.pmm.allocPages pages).1 = none)
      (call : vmmAlloc p4 pages flags s = some (none, s')) :
      Allocation p4 (s, live) (.alloc pages flags) (s', live)
  | done {s s' : Vmm} {live : List (ℕ × ℕ)} {pages flags virt : ℕ} (plain : flags < 4096)
      (room : s.nextVirtAddr + pages * 4096 < 2 ^ 64)
      (call : vmmAlloc p4 pages flags s = some (some virt, s')) :
      Allocation p4 (s, live) (.alloc pages flags) (s', (virt, pages) :: live)
  | free {s s' : Vmm} {live : List (ℕ × ℕ)} {virt pages : ℕ} (held : (virt, pages) ∈ live)
      (call : vmmFree p4 virt pages s = some s') :
      Allocation p4 (s, live) (.free virt pages) (s', live.erase (virt, pages))

/-- The tables that the call makes lie in the first gigabyte. -/
def LowTables (p4 : ℕ) (s : Vmm) : VmmCall → Prop
  | .alloc pages _ => Pool (tablesFor p4 pages s) (s.pmm.allocPages pages).2
  | _ => True

/-- The ranges held are disjoint, and their pages are mapped to physical pages of their own. -/
structure Separated (p4 : ℕ) (s : Vmm) (live : List (ℕ × ℕ)) : Prop where
  disjoint : live.Pairwise Apart
  mapped : ∀ v, Held live v → ∃ p, vmmGetPhys p4 v s = some (p * 4096) ∧
    p < s.pmm.totalPages ∧ s.pmm.bitmapTest p = true ∧ ∀ level, ¬ IsTable s.mem p4 level p
  injective : ∀ v w, Held live v → Held live w → vmmGetPhys p4 v s = vmmGetPhys p4 w s → v = w

/-- What every state of a run satisfies. -/
structure Holding (p4 : ℕ) (s : Vmm) (live : List (ℕ × ℕ)) (role : ℕ → Option (List ℕ)) (h : ℕ) :
    Prop where
  tables : Tables p4 role s
  total : s.pmm.totalPages ≤ 2 ^ 20
  below : h < 2 ^ 18
  next : s.nextVirtAddr = pageAt h
  ranges : ∀ r ∈ live, 0 < r.2 ∧ ∃ a, r.1 = pageAt a ∧ a + r.2 ≤ h
  disjoint : live.Pairwise Apart
  page : ∀ v, Held live v → ∃ p, decode (entryOf p4 s.mem v) = some p ∧
    p < s.pmm.totalPages ∧ s.pmm.bitmapTest p = true ∧ role p = none
  injective : ∀ v w, Held live v → Held live w →
    decode (entryOf p4 s.mem v) = decode (entryOf p4 s.mem w) → v = w

namespace Holding

variable {p4 h : ℕ} {s s' : Vmm} {live : List (ℕ × ℕ)} {role : ℕ → Option (List ℕ)}
  (holding : Holding p4 s live role h)

include holding

variable {v : ℕ} {r : ℕ × ℕ}

theorem pageAt_of_held (held : Held live v) : ∃ j < h, v = pageAt j := by
  obtain ⟨r, hr, i, hi, rfl⟩ := held
  obtain ⟨-, a, start, last⟩ := holding.ranges r hr
  exact ⟨a + i, by omega, by rw [start, pageAt_add]⟩

theorem uncovered_of_held (held : Held live v) : ¬ Covered v := by
  have := holding.below
  obtain ⟨j, hj, rfl⟩ := holding.pageAt_of_held held
  exact uncovered_pageAt (by omega)

theorem vmmGetPhys_of_held {p : ℕ} (held : Held live v)
    (points : decode (entryOf p4 s.mem v) = some p) : vmmGetPhys p4 v s = some (p * 4096) := by
  obtain ⟨j, -, rfl⟩ := holding.pageAt_of_held held
  have up : present (entryOf p4 s.mem (pageAt j)) = true := by
    by_contra down
    rw [decode, if_neg down] at points
    cases points
  rw [decode, if_pos up] at points
  have offset : pageAt j % 4096 = 0 := by
    have base : virtBase = 2 ^ 64 - 2 ^ 30 := by decide
    unfold pageAt
    omega
  rw [vmmGetPhys_eq holding.tables (holding.uncovered_of_held held), physOf, if_pos up,
    Option.some.inj points, offset, Nat.add_zero]

theorem separated : Separated p4 s live where
  disjoint := holding.disjoint
  mapped := by
    intro v held
    obtain ⟨p, points, inside, used, data⟩ := holding.page v held
    refine ⟨p, holding.vmmGetPhys_of_held held points, inside, used, fun level table => ?_⟩
    obtain ⟨k, place⟩ := holding.tables.role_of_isTable table
    rw [data] at place
    cases place
  injective := by
    intro v w heldV heldW same
    obtain ⟨p, points, -⟩ := holding.page v heldV
    obtain ⟨q, points', -⟩ := holding.page w heldW
    rw [holding.vmmGetPhys_of_held heldV points, holding.vmmGetPhys_of_held heldW points'] at same
    have equal : p = q := Nat.eq_of_mul_eq_mul_right (by decide) (Option.some.inj same)
    exact holding.injective v w heldV heldW (by rw [points, points', equal])

theorem page_of_allocates {n flags : ℕ} {answer : Option ℕ} {role' : ℕ → Option (List ℕ)}
    (allocates : Allocates p4 n flags h role s answer role' s') (inside : h + n ≤ 2 ^ 18)
    (held : Held live v) :
    entryOf p4 s'.mem v = entryOf p4 s.mem v ∧ ∃ p, decode (entryOf p4 s.mem v) = some p ∧
      p < s'.pmm.totalPages ∧ s'.pmm.bitmapTest p = true ∧ role' p = none := by
  obtain ⟨p, points, bound, used, data⟩ := holding.page v held
  obtain ⟨j, hj, rfl⟩ := holding.pageAt_of_held held
  refine ⟨allocates.entries _ (holding.uncovered_of_held held) fun i hi same => ?_, p, points,
    allocates.total ▸ bound, allocates.used p used, ?_⟩
  · have := sameSlot_pageAt (by omega) (by omega) same
    omega
  · cases place : role' p with
    | none => rfl
    | some k =>
      rw [allocates.fresh p k data place] at used
      cases used

theorem failed {n flags : ℕ} {role' : ℕ → Option (List ℕ)}
    (allocates : Allocates p4 n flags h role s none role' s')
    (inside : h + n ≤ 2 ^ 18 ∨ (s.pmm.allocPages n).1 = none) :
    Holding p4 s' live role' h := by
  rcases inside with inside | refused
  · have old := fun v (held : Held live v) => holding.page_of_allocates allocates inside held
    refine ⟨allocates.tables, allocates.total ▸ holding.total, holding.below,
      (allocates.failed rfl).trans holding.next, holding.ranges, holding.disjoint, ?_, ?_⟩
    · intro v held
      obtain ⟨same, page⟩ := old v held
      rw [same]
      exact page
    · intro v w heldV heldW
      rw [(old v heldV).1, (old w heldW).1]
      exact holding.injective v w heldV heldW
  · obtain ⟨-, rfl, rfl⟩ := allocates.refused refused
    exact holding

theorem done {n flags virt : ℕ} {role' : ℕ → Option (List ℕ)}
    (allocates : Allocates p4 n flags h role s (some virt) role' s') (plain : flags < 4096)
    (inside : h + n < 2 ^ 18) :
    Holding p4 s' ((virt, n) :: live) role' (h + n) := by
  obtain ⟨rfl, pos, -, last, page, mapped⟩ := allocates.mapped virt rfl
  have old := fun v (held : Held live v) =>
    holding.page_of_allocates allocates (le_of_lt inside) held
  have cases : ∀ v, Held ((pageAt h, n) :: live) v → Held live v ∨ ∃ j < n, v = pageAt (h + j) := by
    rintro v ⟨r, hr, i, hi, rfl⟩
    rcases List.mem_cons.mp hr with rfl | hr
    · exact .inr ⟨i, hi, pageAt_add h i⟩
    · exact .inl ⟨r, hr, i, hi, rfl⟩
  have new : ∀ j < n, decode (entryOf p4 s'.mem (pageAt (h + j))) = some (page + j) := by
    intro j hj
    obtain ⟨-, -, -, -, entry⟩ := mapped j hj
    rw [entry, decode_pageEntry _ plain]
  have fresh : ∀ v, Held live v → ∀ j < n,
      decode (entryOf p4 s'.mem v) ≠ decode (entryOf p4 s'.mem (pageAt (h + j))) := by
    intro v held j hj same
    obtain ⟨p, points, -, used, -⟩ := holding.page v held
    rw [(old v held).1, points, new j hj] at same
    rw [Option.some.inj same, (mapped j hj).2.1] at used
    cases used
  refine ⟨allocates.tables, allocates.total ▸ holding.total, inside,
    last.trans (pageAt_mod inside), ?_, ?_, ?_, ?_⟩
  · intro r hr
    rcases List.mem_cons.mp hr with rfl | hr
    · exact ⟨pos, h, rfl, le_rfl⟩
    · obtain ⟨pos', a, start, bound⟩ := holding.ranges r hr
      exact ⟨pos', a, start, by omega⟩
  · refine List.pairwise_cons.mpr ⟨fun r hr => .inr ?_, holding.disjoint⟩
    obtain ⟨-, a, start, bound⟩ := holding.ranges r hr
    rw [start]
    unfold pageAt
    omega
  · intro v held
    rcases cases v held with held | ⟨j, hj, rfl⟩
    · obtain ⟨same, page⟩ := old v held
      rw [same]
      exact page
    · obtain ⟨bound, -, used, data, -⟩ := mapped j hj
      exact ⟨page + j, new j hj, allocates.total ▸ bound, used, data⟩
  · intro v w heldV heldW same
    rcases cases v heldV with heldV | ⟨i, hi, rfl⟩ <;> rcases cases w heldW with heldW | ⟨j, hj, rfl⟩
    · rw [(old v heldV).1, (old w heldW).1] at same
      exact holding.injective v w heldV heldW same
    · exact absurd same (fresh v heldV j hj)
    · exact absurd same.symm (fresh w heldW i hi)
    · rw [new i hi, new j hj] at same
      rw [Nat.add_left_cancel (Option.some.inj same)]

theorem held_erase (mem : r ∈ live) (held : Held (live.erase r) v) :
    Held live v ∧ ∀ j < r.2, v ≠ r.1 + j * 4096 := by
  have nodup : live.Nodup := by
    refine holding.disjoint.imp_of_mem fun {r r'} hr _ apart same => ?_
    have := (holding.ranges r hr).1
    subst same
    unfold Apart at apart
    omega
  obtain ⟨r', hr', i, hi, rfl⟩ := held
  have mem' := List.mem_of_mem_erase hr'
  have other : r ≠ r' := by
    rintro rfl
    exact nodup.not_mem_erase hr'
  refine ⟨⟨r', mem', i, hi, rfl⟩, fun j hj same => ?_⟩
  have apart : Apart r r' := holding.disjoint.forall mem mem' other
  unfold Apart at apart
  omega

theorem freed (mem : r ∈ live) :
    ∃ s', vmmFree p4 r.1 r.2 s = some s' ∧ Holding p4 s' (live.erase r) role h := by
  have below := holding.below
  obtain ⟨-, a, start, bound⟩ := holding.ranges r mem
  have address : ∀ j < r.2, freedAt r.1 j = r.1 + j * 4096 := by
    intro j hj
    rw [freedAt, start, pageAt_add, pageAt_mod (by omega)]
  have held : ∀ j < r.2, Held live (freedAt r.1 j) :=
    fun j hj => ⟨r, mem, j, hj, address j hj⟩
  obtain ⟨s', call, frees⟩ := vmmFree_spec holding.tables
    (fun j hj => holding.uncovered_of_held (held j hj)) (by
      intro j hj u points
      obtain ⟨p, points', -, -, data⟩ := holding.page _ (held j hj)
      rw [points] at points'
      rw [Option.some.inj points']
      exact data)
  have same : ∀ v, Held (live.erase r) v → entryOf p4 s'.mem v = entryOf p4 s.mem v := by
    intro v held'
    obtain ⟨heldV, other⟩ := holding.held_erase mem held'
    refine frees.entries v (holding.uncovered_of_held heldV) fun j _ hj slot => ?_
    have hj : j < r.2 := by omega
    obtain ⟨i, hi, rfl⟩ := holding.pageAt_of_held heldV
    rw [address j hj, start, pageAt_add] at slot
    refine other j hj ?_
    rw [start, pageAt_add, sameSlot_pageAt (by omega) (by omega) slot]
  refine ⟨s', call, frees.tables, frees.total ▸ holding.total, below,
    frees.next.trans holding.next, ?_, ?_, ?_, ?_⟩
  · exact fun r' hr' => holding.ranges r' (List.mem_of_mem_erase hr')
  · exact holding.disjoint.sublist List.erase_sublist
  · intro v held'
    obtain ⟨heldV, other⟩ := holding.held_erase mem held'
    obtain ⟨p, points, inside, used, data⟩ := holding.page v heldV
    refine ⟨p, by rw [same v held', points], frees.total ▸ inside, ?_, data⟩
    refine (frees.kept p fun j _ hj points' => ?_).trans used
    have hj : j < r.2 := by omega
    refine other j hj ?_
    rw [← address j hj]
    exact holding.injective v _ heldV (held j hj) (points.trans points'.symm)
  · intro v w heldV heldW
    rw [same v heldV, same w heldW]
    exact holding.injective v w (holding.held_erase mem heldV).1 (holding.held_erase mem heldW).1

end Holding

variable {role : ℕ → Option (List ℕ)}

theorem allocation_step {p4 h : ℕ} {t t' : Vmm × List (ℕ × ℕ)} {call : VmmCall}
    (holding : Holding p4 t.1 t.2 role h) (low : LowTables p4 t.1 call)
    (step : Allocation p4 t call t') :
    ∃ role' h', Holding p4 t'.1 t'.2 role' h' := by
  have base : virtBase = 2 ^ 64 - 2 ^ 30 := by decide
  cases step with
  | @failed s s' live pages flags plain room call =>
    change Holding p4 s live role h at holding
    have room' : h + pages ≤ 2 ^ 18 ∨ (s.pmm.allocPages pages).1 = none := by
      refine room.imp_left fun below => ?_
      rw [holding.next, pageAt] at below
      omega
    obtain ⟨answer, s₁, role', call', allocates⟩ :=
      vmmAlloc_spec flags holding.tables holding.total low holding.next room'
    obtain ⟨rfl, rfl⟩ := Prod.mk.inj (Option.some.inj (call.symm.trans call'))
    exact ⟨role', h, holding.failed allocates room'⟩
  | @done s s' live pages flags virt plain room call =>
    change Holding p4 s live role h at holding
    have room' : h + pages < 2 ^ 18 := by
      rw [holding.next, pageAt] at room
      omega
    obtain ⟨answer, s₁, role', call', allocates⟩ :=
      vmmAlloc_spec flags holding.tables holding.total low holding.next (.inl room'.le)
    obtain ⟨rfl, rfl⟩ := Prod.mk.inj (Option.some.inj (call.symm.trans call'))
    exact ⟨role', h + pages, holding.done allocates plain room'⟩
  | @free s s' live virt pages held call =>
    change Holding p4 s live role h at holding
    obtain ⟨s₁, call', holding'⟩ := holding.freed held
    obtain rfl := Option.some.inj (call.symm.trans call')
    exact ⟨role, h, holding'⟩

/-- Along every run of allocations and frees whose tables lie in the first gigabyte, the ranges held
are disjoint and their pages are mapped to physical pages of their own, and every further such call
returns. -/
theorem ranges_separate {p4 memSize kernelEnd : ℕ} {rest : ℕ → ℕ} {calls : List VmmCall} {s : Vmm}
    {live : List (ℕ × ℕ)} (image : InImage p4 kernelEnd)
    (run : Run (fun t call t' => LowTables p4 t.1 call ∧ Allocation p4 t call t')
      (bootVmm p4 rest memSize kernelEnd, []) calls (s, live)) :
    Separated p4 s live ∧ (∀ r ∈ live, vmmFree p4 r.1 r.2 s ≠ none) ∧
      ∀ pages flags, s.nextVirtAddr + pages * 4096 < 2 ^ 64 → LowTables p4 s (.alloc pages flags) →
        vmmAlloc p4 pages flags s ≠ none := by
  have base : virtBase = 2 ^ 64 - 2 ^ 30 := by decide
  have nobody : ∀ v, ¬ Held [] v := by
    rintro v ⟨r, mem, -⟩
    cases mem
  have start : Holding p4 (bootVmm p4 rest memSize kernelEnd) [] (bootRole p4) 0 :=
    ⟨boot_tables image rest, init_totalPages_le memSize kernelEnd, by decide, rfl, by simp,
      List.Pairwise.nil, fun v held => absurd held (nobody v), fun v w held => absurd held (nobody v)⟩
  obtain ⟨role, h, holding⟩ : ∃ role h, Holding p4 s live role h :=
    run.invariant (P := fun t => ∃ role h, Holding p4 t.1 t.2 role h)
      (fun _ _ _ ⟨_, _, holding⟩ step => allocation_step holding step.1 step.2) ⟨_, _, start⟩
  refine ⟨holding.separated, fun r mem => ?_, fun pages flags room low => ?_⟩
  · obtain ⟨s', call, -⟩ := holding.freed mem
    rw [call]
    exact Option.some_ne_none s'
  · rw [holding.next, pageAt] at room
    obtain ⟨answer, s', role', call, -⟩ :=
      vmmAlloc_spec flags holding.tables holding.total low holding.next
        (.inl (by omega : h + pages ≤ _))
    rw [call]
    exact Option.some_ne_none _

theorem smallVmm_first : (vmmAlloc 264 1 2 smallVmm).map Prod.fst = some (some virtBase) := by
  decide +kernel

/-- The small machine after its first allocation. -/
theorem ranges_separate_small : ∃ s,
    Run (fun t call t' => LowTables 264 t.1 call ∧ Allocation 264 t call t') (smallVmm, [])
      [.alloc 1 2] (s, [(virtBase, 1)]) ∧
    Separated 264 s [(virtBase, 1)] ∧
    (∀ r ∈ [(virtBase, 1)], vmmFree 264 r.1 r.2 s ≠ none) ∧
    ∀ pages flags, s.nextVirtAddr + pages * 4096 < 2 ^ 64 → LowTables 264 s (.alloc pages flags) →
      vmmAlloc 264 pages flags s ≠ none := by
  obtain ⟨⟨answer, s⟩, call, rfl⟩ := Option.map_eq_some_iff.mp smallVmm_first
  have low : LowTables 264 smallVmm (.alloc 1 2) := pool_of_small (by decide +kernel) _
  have run : Run (fun t call t' => LowTables 264 t.1 call ∧ Allocation 264 t call t') (smallVmm, [])
      [.alloc 1 2] (s, [(virtBase, 1)]) :=
    .cons ⟨low, .done (by decide) (by decide +kernel) call⟩ (.nil _)
  exact ⟨s, run, ranges_separate smallVmm_image run⟩

/-! ## More than one gigabyte -/

theorem init_filled (memSize kernelEnd p : ℕ) :
    (Pmm.init memSize kernelEnd).bitmapTest p = decide (p < Pmm.kernelPages kernelEnd) := by
  have empty : ∀ q, Pmm.bitmapTest ⟨fun _ => 0, min (memSize / pageSize) (bitmapSize * 32), 0⟩ q =
      decide (q < 0) := by
    intro q
    simp [Pmm.bitmapTest, Bitmap.test]
  rw [Pmm.init, Pmm.takeRange_filled empty, Nat.zero_add]

/-- 261121 pages can be handed out such that the table for the last one is page 2^18 of memory; then
freeing the first page leaves the last one without a translation. -/
theorem run_above {p4 : ℕ} {s : Vmm} (tables : Tables p4 role s)
    (used : ∀ p, s.pmm.bitmapTest p = decide (p < 512))
    (absent : decode (s.mem (Radix.slot 512 (p4 + 1) 511)) = none)
    (next : s.nextVirtAddr = pageAt 0) (room : 2 ^ 18 < s.pmm.totalPages) :
    ∃ s' live, Run (Allocation p4) (s, [])
      [.alloc 1 2, .alloc 261119 2, .alloc 1 2, .free virtBase 1] (s', live) ∧
      Held live (pageAt 261120) ∧ vmmGetPhys p4 (pageAt 261120) s' = none := by
  obtain ⟨s₁, role₁, call₁, filling₁, next₁, total₁, data₁, entry₁⟩ :=
    vmmAlloc_first 2 tables used absent next (by decide) (by omega)
  obtain ⟨s₂, role₂, call₂, filling₂, next₂, total₂, data₂, entry₂⟩ :=
    vmmAlloc_filling 2 filling₁ (n := 261119) (by decide) next₁ (by decide) (by decide) (by omega)
  have entry : entryOf p4 s₂.mem (pageAt 0) = 512 * 4096 + 3 := by
    rw [entry₂ 0 Nat.one_pos, entry₁]
    decide
  obtain ⟨s₃, t, call₃, overlaid₃⟩ := vmmAlloc_above 2 filling₂ next₂ (by omega) entry
    (data₂ 512 (by decide) data₁) (by decide)
  obtain ⟨s₄, call₄, overlaid₄⟩ := overlaid₃.vmmFree_base (present_link 512)
  refine ⟨s₄, _, .cons (.done (by decide) ?_ call₁) (.cons (.done (by decide) ?_ call₂)
    (.cons (.done (by decide) ?_ call₃) (.cons (.free ?_ call₄) (.nil _)))), ?_,
    overlaid₄.vmmGetPhys_last rfl⟩
  · rw [next]
    decide
  · rw [next₁]
    decide
  · rw [next₂]
    decide
  · simp [pageAt]
  · refine ⟨(pageAt 261120, 1), ?_, 0, Nat.one_pos, by simp⟩
    refine (List.mem_erase_of_ne ?_).mpr (List.mem_cons_self ..)
    simp [pageAt]

/-- The run above, from the boot page tables of a machine with two gigabytes. -/
theorem tables_above_gigabyte : ∃ s live,
    Run (Allocation 264) (bootVmm 264 (fun _ => 0) 0x80000000 (kernelVirtBase + 0x200000), [])
      [.alloc 1 2, .alloc 261119 2, .alloc 1 2, .free virtBase 1] (s, live) ∧
    Held live (pageAt 261120) ∧ vmmGetPhys 264 (pageAt 261120) s = none := by
  have image : InImage 264 (kernelVirtBase + 0x200000) := ⟨by decide, by decide⟩
  have reserved : Pmm.kernelPages (kernelVirtBase + 0x200000) = 512 := by decide
  have total : (Pmm.init 0x80000000 (kernelVirtBase + 0x200000)).totalPages = 2 ^ 19 := by
    rw [Pmm.init, Pmm.takeRange_totalPages]
    decide
  refine run_above (boot_tables image fun _ => 0) (fun p => ?_) ?_ ?_ ?_
  · rw [bootVmm, init_filled, reserved]
  · exact (congrArg decode (bootTables_pdpt 264 (fun _ => 0) (by decide : 511 < 512))).trans rfl
  · rfl
  · rw [bootVmm, total]
    decide

end Thuban.Mm

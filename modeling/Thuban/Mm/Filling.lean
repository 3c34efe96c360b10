import Thuban.Mm.Mappings

/-!
# Filling memory from below

While nothing is freed, the used pages are the first ones, and the tables for the addresses of
`vmm_alloc` are made one after another: a new one for every 512 pages.  `Filling` describes such a
state exactly, by the number `m` of pages mapped and the number `k` of pages used; `mapRange_filling`
is the loop of `vmm_alloc`.  The tables alone (`Stocked`) are made in order also after pages were
freed, as long as there is a supply of pages for them (`mapRange_stocked`).
-/

namespace Thuban.Mm

open Lib Lib.Paging

/-- The first `k` pages of memory are used; the page directory `pd` holds the tables for the first `m`
pages of addresses. -/
structure Filling (p4 pd m k : ℕ) (role : ℕ → Option (List ℕ)) (s : Vmm) : Prop where
  tables : Tables p4 role s
  directory : role pd = some [0, 511]
  link : decode (s.mem (Radix.slot 512 (p4 + 1) 511)) = some pd
  made : ∀ c < 512, decode (s.mem (Radix.slot 512 pd c)) = none ↔ m ≤ c * 512
  used : ∀ p, s.pmm.bitmapTest p = decide (p < k)

variable {p4 pd m k : ℕ} {role : ℕ → Option (List ℕ)} {s : Vmm}

/-- The page directory `pd` holds the tables for the first `m` pages of addresses. -/
structure Stocked (p4 pd m : ℕ) (role : ℕ → Option (List ℕ)) (s : Vmm) : Prop where
  tables : Tables p4 role s
  link : decode (s.mem (Radix.slot 512 (p4 + 1) 511)) = some pd
  made : ∀ c < 512, decode (s.mem (Radix.slot 512 pd c)) = none ↔ m ≤ c * 512

theorem Filling.stocked (filling : Filling p4 pd m k role s) : Stocked p4 pd m role s :=
  ⟨filling.tables, filling.link, filling.made⟩

theorem Stocked.directory (stocked : Stocked p4 pd m role s) : role pd = some [0, 511] :=
  stocked.tables.tree _ _ stocked.tables.pdpt (by decide) 511 (by decide) pd stocked.link

theorem Stocked.filling (stocked : Stocked p4 pd m role s)
    (used : ∀ p, s.pmm.bitmapTest p = decide (p < k)) : Filling p4 pd m k role s :=
  ⟨stocked.tables, stocked.directory, stocked.link, stocked.made, used⟩

theorem Tables.first_link (tables : Tables p4 role s) :
    decode (s.mem (Radix.slot 512 p4 511)) = some (p4 + 1) := by
  rw [tables.boot.first _ (.inr rfl), decode_link]

theorem Stocked.getPte_eq (stocked : Stocked p4 pd m role s) {j : ℕ} (inside : j < 2 ^ 18)
    (create : Bool) :
    getPte p4 (pageAt j) create s =
      (descend p4 create (tableAddr pd) (j / 512) s).map fun (table, s) =>
        (table.map (· + 8 * (j % 512)), s) := by
  have tables := stocked.tables
  obtain ⟨i₃, i₂, i₁, i₀⟩ := index_pageAt inside
  have walk : walkTables p4 create [511, 511, j / 512] (tableAddr p4) s =
      descend p4 create (tableAddr pd) (j / 512) s := by
    rw [walkTables,
      descend_present tables tables.root (by decide) (by decide) create tables.first_link,
      Option.bind_some]
    dsimp only
    rw [walkTables,
      descend_present tables tables.pdpt (by decide) (by decide) create stocked.link,
      Option.bind_some]
    dsimp only
    rw [walkTables]
    rcases descend p4 create (tableAddr pd) (j / 512) s with _ | ⟨_ | table, s'⟩ <;> rfl
  rw [getPte, i₃, i₂, i₁, i₀]
  exact congrArg (Option.map _) walk

theorem walk_pageAt {mem : ℕ → ℕ} (inside : m < 2 ^ 18)
    (points : decode (mem (Radix.slot 512 p4 511)) = some (p4 + 1))
    (link : decode (mem (Radix.slot 512 (p4 + 1) 511)) = some pd) :
    Radix.walk 512 decode mem (pathOf (pageAt m)) p4 =
      decode (mem (Radix.slot 512 pd (m / 512))) := by
  obtain ⟨i₃, i₂, i₁, -⟩ := index_pageAt inside
  rw [pathOf, i₃, i₂, i₁, Radix.walk, points, Option.bind_some, Radix.walk, link, Option.bind_some,
    Radix.walk]
  cases decode (mem (Radix.slot 512 pd (m / 512))) <;> rfl

/-! ## Making tables in order

The tables for further pages come out of a supply: where it holds `r + 1` pages, `pmm_alloc` answers
with one of the first gigabyte and leaves `r` of them. -/

/-- What `supply` promises. -/
def Supplies (supply : ℕ → Pmm → Prop) : Prop :=
  ∀ r pmm, supply (r + 1) pmm → ∃ u < 2 ^ 18, pmm.bitmapTest u = false ∧
    pmm.alloc = (some (u * 4096), pmm.take u) ∧ supply r (pmm.take u)

/-- The first pages are used, and with `r` more of them it is the first `k`. -/
def Filled (k r : ℕ) (pmm : Pmm) : Prop :=
  r ≤ k ∧ (0 < r → k ≤ 2 ^ 18 ∧ k ≤ pmm.totalPages) ∧ ∀ p, pmm.bitmapTest p = decide (p < k - r)

theorem supplies_filled (k : ℕ) : Supplies (Filled k) := by
  rintro r pmm ⟨below, low, used⟩
  obtain ⟨low, room⟩ := low r.succ_pos
  refine ⟨k - (r + 1), by omega, by rw [used]; simp, Pmm.alloc_of_filled used (by omega), by omega,
    fun _ => ⟨low, room⟩, fun p => ?_⟩
  rw [Pmm.take_test, used, ← Bool.decide_or, decide_eq_decide]
  omega

section Supply

variable {supply : ℕ → Pmm → Prop} (supplies : Supplies supply) {r : ℕ}

include supplies

/-- The next page of addresses gets its entry, in a new table if it is the first of its 512. -/
theorem Stocked.getPte_next (stocked : Stocked p4 pd m role s) (inside : m < 2 ^ 18)
    (stock : supply ((if m % 512 = 0 then 1 else 0) + r) s.pmm) :
    ∃ s' role' t, getPte p4 (pageAt m) true s = some (some (tableAddr t + 8 * (m % 512)), s') ∧
      Radix.walk 512 decode s'.mem (pathOf (pageAt m)) p4 = some t ∧
      Stocked p4 pd (m + 1) role' s' ∧ Extends p4 (fun _ => False) role s role' s' ∧
      supply r s'.pmm := by
  have tables := stocked.tables
  have hc : m / 512 < 512 := by omega
  have inner : Inner [0, 511] := by decide
  rw [stocked.getPte_eq inside]
  cases entry : decode (s.mem (Radix.slot 512 pd (m / 512))) with
  | some t =>
    have later : ¬ m ≤ m / 512 * 512 := by
      rw [← stocked.made _ hc, entry]
      exact Option.some_ne_none t
    have same : ∀ c < 512, m + 1 ≤ c * 512 ↔ m ≤ c * 512 := by
      intro c _
      omega
    rw [if_neg (by omega), Nat.zero_add] at stock
    rw [descend_present tables stocked.directory hc inner true entry]
    refine ⟨s, role, t, rfl, (walk_pageAt inside tables.first_link stocked.link).trans entry, ?_,
      .refl tables, stock⟩
    exact ⟨tables, stocked.link, fun c hc => (stocked.made c hc).trans (same c hc).symm⟩
  | none =>
    have begins : m ≤ m / 512 * 512 := (stocked.made _ hc).mp entry
    rw [if_pos (by omega), Nat.add_comm] at stock
    obtain ⟨u, low, free, alloc, stock'⟩ := supplies r _ stock
    have fresh := tables.role_of_free free
    have grown := tables.extends_grow (fun _ => False) stocked.directory inner hc entry free low
    rw [descend_create tables stocked.directory hc inner entry alloc fresh low]
    have link := grown.links _ _ tables.pdpt (by decide) 511 (by decide) _ stocked.link
    have new : Radix.grow 512 s.mem pd (m / 512) u (u * 4096 + 3) (Radix.slot 512 pd (m / 512)) =
        u * 4096 + 3 := Radix.grow_slot_self
    refine ⟨_, _, u, rfl, ?_, ⟨grown.tables, link, fun c hc' => ?_⟩, grown, stock'⟩
    · rw [walk_pageAt inside grown.tables.first_link link]
      exact (congrArg decode new).trans (decode_link u)
    · dsimp only
      by_cases here : c = m / 512
      · subst here
        refine iff_of_false ?_ (by omega)
        rw [new, decode_link]
        exact Option.some_ne_none u
      · have other : pd ≠ u := Tables.ne_of_fresh stocked.directory fresh
        rw [Radix.grow_slot_old hc hc' other fun same => here same.2, stocked.made c hc']
        omega

omit supplies in
theorem Tables.make_directory {u : ℕ} (tables : Tables p4 role s)
    (absent : decode (s.mem (Radix.slot 512 (p4 + 1) 511)) = none)
    (alloc : s.pmm.alloc = (some (u * 4096), s.pmm.take u)) (free : s.pmm.bitmapTest u = false)
    (low : u < 2 ^ 18) :
    ∃ s' role', getPte p4 (pageAt 0) true s = getPte p4 (pageAt 0) true s' ∧
      Stocked p4 u 0 role' s' ∧ Extends p4 (fun _ => False) role s role' s' ∧
      s'.pmm = s.pmm.take u := by
  have fresh := tables.role_of_free free
  have grown := tables.extends_grow (fun _ => False) tables.pdpt (by decide) (by decide) absent free
    low
  have made := descend_create tables tables.pdpt (by decide) (by decide) absent alloc fresh low
  have link : decode (Radix.grow 512 s.mem (p4 + 1) 511 u (u * 4096 + 3)
      (Radix.slot 512 (p4 + 1) 511)) = some u :=
    (congrArg decode Radix.grow_slot_self).trans (decode_link u)
  have empty : ∀ c < 512, Radix.grow 512 s.mem (p4 + 1) 511 u (u * 4096 + 3)
      (Radix.slot 512 u c) = 0 := fun c hc =>
    Radix.grow_slot_new fresh tables.pdpt (by decide) hc
  have stocked : Stocked p4 u 0 (Function.update role u (some (child [0] 511)))
      { s with mem := Radix.grow 512 s.mem (p4 + 1) 511 u (u * 4096 + 3), pmm := s.pmm.take u } := by
    refine ⟨grown.tables, ?_, fun c hc => iff_of_true ?_ (Nat.zero_le _)⟩
    · dsimp only
      exact link
    · dsimp only
      rw [empty c hc]
      rfl
  refine ⟨_, _, ?_, stocked, grown, rfl⟩
  -- after the directory was made, the walk goes on as if it had been there
  obtain ⟨i₃, i₂, i₁, i₀⟩ := @index_pageAt 0 (by decide)
  rw [stocked.getPte_eq (by decide), getPte, i₃, i₂, i₁, i₀]
  show Option.map _ (walkTables p4 true [511, 511, 0] (tableAddr p4) s) = _
  rw [walkTables, descend_present tables tables.root (by decide) (by decide) true tables.first_link,
    Option.bind_some]
  dsimp only
  rw [walkTables, made, Option.bind_some]
  dsimp only
  rw [walkTables]
  rcases descend p4 true (tableAddr u) 0 _ with _ | ⟨_ | table, s'⟩ <;> rfl

omit supplies in
theorem Stocked.store (stocked : Stocked p4 pd m role s) {v t : ℕ} (uncovered : ¬ Covered v)
    (ends : Radix.walk 512 decode s.mem (pathOf v) p4 = some t) (e : ℕ) :
    ∃ s', s.store p4 (tableAddr t + 8 * index 0 v) e = some s' ∧ Stocked p4 pd m role s' ∧
      Extends p4 (SameSlot · v) role s role s' ∧ s'.pmm = s.pmm ∧ entryOf p4 s'.mem v = e := by
  obtain ⟨s', stored, ext, pmm, entry, -, upper⟩ := store_entry stocked.tables uncovered ends e
  refine ⟨s', stored, ⟨ext.tables, ?_, fun c hc => ?_⟩, ext, pmm, entry⟩
  · rw [upper _ _ stocked.tables.pdpt (by decide) 511 (by decide)]
    exact stocked.link
  · rw [upper _ _ stocked.directory (by decide) c hc]
    exact stocked.made c hc

/-- The loop of `vmm_alloc` while the supply of tables lasts. -/
theorem mapRange_stocked (phys flags : ℕ) {n i h : ℕ} (stocked : Stocked p4 pd m role s)
    (at_page : m = h + i) (next : s.nextVirtAddr = pageAt h) (inside : m + n ≤ 2 ^ 18)
    (stock : supply ((m + n + 511) / 512 - (m + 511) / 512 + r) s.pmm) :
    ∃ s' role', mapRange p4 phys flags n i s = some (true, s') ∧ Stocked p4 pd (m + n) role' s' ∧
      Extends p4 (fun w => ∃ j < n, SameSlot w (pageAt (m + j))) role s role' s' ∧
      supply r s'.pmm ∧
      ∀ j < n, entryOf p4 s'.mem (pageAt (m + j)) = pageEntry (phys + (i + j) * 4096) flags := by
  induction n generalizing m i s role with
  | zero =>
    rw [Nat.add_zero, Nat.sub_self, Nat.zero_add] at stock
    exact ⟨s, role, rfl, stocked, .refl stocked.tables, stock, fun j hj => absurd hj j.not_lt_zero⟩
  | succ n ih =>
    have step : (m + (n + 1) + 511) / 512 - (m + 511) / 512 + r =
        (if m % 512 = 0 then 1 else 0) + ((m + 1 + n + 511) / 512 - (m + 1 + 511) / 512 + r) := by
      split_ifs <;> omega
    rw [step] at stock
    obtain ⟨s₁, role₁, t, call, ends, stocked₁, ext₁, stock₁⟩ :=
      stocked.getPte_next supplies (by omega) stock
    have uncovered : ¬ Covered (pageAt m) := uncovered_pageAt (by omega)
    obtain ⟨s₂, stored, stocked₂, ext₂, pmm, entry⟩ := stocked₁.store uncovered ends
      (pageEntry (phys + i * 4096) flags)
    have ext₁ : Extends p4 (SameSlot · (pageAt m)) role s role₁ s₁ := ext₁.mono fun _ h => h.elim
    have ext := ext₁.trans ext₂
    rw [(index_pageAt (by omega)).2.2.2] at stored
    obtain ⟨s₃, role₃, rest, stocked₃, ext₃, stock₃, entries⟩ := ih stocked₂
      (by omega : m + 1 = h + (i + 1)) (ext.next.trans next) (by omega) (pmm ▸ stock₁)
    refine ⟨s₃, role₃, ?_, ?_, ?_, stock₃, fun j hj => ?_⟩
    · rw [mapRange, next, pageAt_add, ← at_page, pageAt_mod (by omega), call, Option.bind_some]
      dsimp only
      rw [stored, Option.bind_some]
      exact rest
    · rw [show m + (n + 1) = m + 1 + n by omega]
      exact stocked₃
    · refine (ext.mono fun w same => ⟨0, by omega, same⟩).trans (ext₃.mono ?_)
      rintro w ⟨j, hj, same⟩
      exact ⟨j + 1, by omega, by rwa [show m + (j + 1) = m + 1 + j by omega]⟩
    · cases j with
      | zero =>
        have untouched : ¬ ∃ j < n, SameSlot (pageAt m) (pageAt (m + 1 + j)) := by
          rintro ⟨j, hj, same⟩
          have := sameSlot_pageAt (by omega) (by omega) same
          omega
        exact (ext₃.entries _ uncovered untouched).trans entry
      | succ j =>
        have := entries j (by omega)
        rwa [show m + 1 + j = m + (j + 1) by omega, show i + 1 + j = i + (j + 1) by omega] at this

end Supply

/-! ## Without a free page below -/

theorem Filling.getPte_eq (filling : Filling p4 pd m k role s) (inside : m < 2 ^ 18) (create : Bool) :
    getPte p4 (pageAt m) create s =
      (descend p4 create (tableAddr pd) (m / 512) s).map fun (table, s) =>
        (table.map (· + 8 * (m % 512)), s) :=
  filling.stocked.getPte_eq inside create

theorem Filling.getPte_next (filling : Filling p4 pd m k role s) (inside : m < 2 ^ 18)
    (low : m % 512 = 0 → k < 2 ^ 18) (room : m % 512 = 0 → k < s.pmm.totalPages) :
    ∃ s' role' t, getPte p4 (pageAt m) true s = some (some (tableAddr t + 8 * (m % 512)), s') ∧
      Radix.walk 512 decode s'.mem (pathOf (pageAt m)) p4 = some t ∧
      Filling p4 pd (m + 1) (k + if m % 512 = 0 then 1 else 0) role' s' ∧
      Extends p4 (fun _ => False) role s role' s' := by
  have stock : Filled (k + if m % 512 = 0 then 1 else 0) ((if m % 512 = 0 then 1 else 0) + 0)
      s.pmm := by
    refine ⟨by omega, fun pos => ?_, fun p => ?_⟩
    · split_ifs at pos ⊢ with begins
      · exact ⟨low begins, room begins⟩
      · omega
    · rw [filling.used, Nat.add_zero, Nat.add_sub_cancel]
  obtain ⟨s', role', t, call, ends, stocked, ext, -, -, used⟩ :=
    filling.stocked.getPte_next (supplies_filled _) inside stock
  exact ⟨s', role', t, call, ends, stocked.filling used, ext⟩

theorem Filling.getPte_first (tables : Tables p4 role s)
    (used : ∀ p, s.pmm.bitmapTest p = decide (p < k))
    (absent : decode (s.mem (Radix.slot 512 (p4 + 1) 511)) = none) (low : k + 1 < 2 ^ 18)
    (room : k + 1 < s.pmm.totalPages) :
    ∃ s' role' t, getPte p4 (pageAt 0) true s = some (some (tableAddr t + 8 * 0), s') ∧
      Radix.walk 512 decode s'.mem (pathOf (pageAt 0)) p4 = some t ∧
      Filling p4 k 1 (k + 2) role' s' ∧ Extends p4 (fun _ => False) role s role' s' := by
  obtain ⟨s₁, role₁, same, stocked, ext, pmm⟩ := tables.make_directory absent
    (Pmm.alloc_of_filled used (by omega)) (by rw [used]; simp) (by omega)
  have filling : Filling p4 k 0 (k + 1) role₁ s₁ := by
    refine stocked.filling fun p => ?_
    rw [pmm, Pmm.take_test, used, ← Bool.decide_or, decide_eq_decide]
    omega
  obtain ⟨s', role', t, call, ends, filling', ext'⟩ := filling.getPte_next (by decide)
    (fun _ => by omega) (fun _ => by rw [pmm]; exact room)
  exact ⟨s', role', t, same.trans call, ends, filling', ext.trans ext'⟩

theorem Filling.store (filling : Filling p4 pd m k role s) {v t : ℕ} (uncovered : ¬ Covered v)
    (ends : Radix.walk 512 decode s.mem (pathOf v) p4 = some t) (e : ℕ) :
    ∃ s', s.store p4 (tableAddr t + 8 * index 0 v) e = some s' ∧ Filling p4 pd m k role s' ∧
      Extends p4 (SameSlot · v) role s role s' ∧ entryOf p4 s'.mem v = e := by
  obtain ⟨s', stored, stocked, ext, pmm, entry⟩ := filling.stocked.store uncovered ends e
  exact ⟨s', stored, stocked.filling (pmm ▸ filling.used), ext, entry⟩

theorem mapRange_filling (phys flags : ℕ) {n i h : ℕ} (filling : Filling p4 pd m k role s)
    (at_page : m = h + i) (next : s.nextVirtAddr = pageAt h) (inside : m + n ≤ 2 ^ 18)
    (low : k + ((m + n + 511) / 512 - (m + 511) / 512) ≤ 2 ^ 18)
    (room : k + ((m + n + 511) / 512 - (m + 511) / 512) ≤ s.pmm.totalPages) :
    ∃ s' role', mapRange p4 phys flags n i s = some (true, s') ∧
      Filling p4 pd (m + n) (k + ((m + n + 511) / 512 - (m + 511) / 512)) role' s' ∧
      Extends p4 (fun w => ∃ j < n, SameSlot w (pageAt (m + j))) role s role' s' := by
  have stock : Filled (k + ((m + n + 511) / 512 - (m + 511) / 512))
      ((m + n + 511) / 512 - (m + 511) / 512 + 0) s.pmm := by
    refine ⟨by omega, fun _ => ⟨low, room⟩, fun p => ?_⟩
    rw [filling.used, decide_eq_decide]
    omega
  obtain ⟨s', role', mapped, stocked, ext, ⟨-, -, used⟩, -⟩ :=
    mapRange_stocked (supplies_filled _) phys flags filling.stocked at_page next inside stock
  exact ⟨s', role', mapped, stocked.filling used, ext⟩

theorem Filling.takeRange (filling : Filling p4 pd m k role s) (n : ℕ) :
    Filling p4 pd m (k + n) role { s with pmm := s.pmm.takeRange k n } :=
  ⟨filling.tables.takeRange k n, filling.directory, filling.link, filling.made,
    Pmm.takeRange_filled filling.used n⟩

theorem vmmAlloc_of_mapped {phys flags n : ℕ} {pmm : Pmm} {s₁ : Vmm}
    (alloc : s.pmm.allocPages n = (some phys, pmm))
    (mapped : mapRange p4 phys flags n 0 { s with pmm } = some (true, s₁))
    (start : s₁.nextVirtAddr = pageAt m) (inside : m + n < 2 ^ 18) :
    vmmAlloc p4 n flags s =
      some (some (pageAt m), { s₁ with nextVirtAddr := pageAt (m + n) }) := by
  rw [vmmAlloc, alloc]
  dsimp only
  rw [mapped, Option.map_some]
  dsimp only
  rw [start, pageAt_add, pageAt_mod inside]

/-- `vmm_alloc` while memory is filled: the pages of data come first, the new tables behind them. -/
theorem vmmAlloc_filling (flags : ℕ) {n : ℕ} (filling : Filling p4 pd m k role s) (pos : 0 < n)
    (next : s.nextVirtAddr = pageAt m) (inside : m + n < 2 ^ 18)
    (low : k + n + ((m + n + 511) / 512 - (m + 511) / 512) ≤ 2 ^ 18)
    (room : k + n + ((m + n + 511) / 512 - (m + 511) / 512) ≤ s.pmm.totalPages) :
    ∃ s' role', vmmAlloc p4 n flags s = some (some (pageAt m), s') ∧
      Filling p4 pd (m + n) (k + n + ((m + n + 511) / 512 - (m + 511) / 512)) role' s' ∧
      s'.nextVirtAddr = pageAt (m + n) ∧ s'.pmm.totalPages = s.pmm.totalPages ∧
      (∀ p < k, role p = none → role' p = none) ∧
      ∀ j < m, entryOf p4 s'.mem (pageAt j) = entryOf p4 s.mem (pageAt j) := by
  have alloc := Pmm.allocPages_of_filled filling.used pos (by omega)
  obtain ⟨s₁, role₁, mapped, filling₁, ext⟩ := mapRange_filling (k * pageSize) flags
    (filling.takeRange n) (by omega : m = m + 0) next inside.le low
    (by rw [Pmm.takeRange_totalPages]; exact room)
  have start : s₁.nextVirtAddr = pageAt m := ext.next.trans next
  have tables : Tables p4 role₁ { s₁ with nextVirtAddr := pageAt (m + n) } :=
    filling₁.tables.of_agree (fun _ _ _ _ _ _ => rfl) filling₁.tables.used
  refine ⟨{ s₁ with nextVirtAddr := pageAt (m + n) }, role₁,
    vmmAlloc_of_mapped alloc mapped start inside,
    ⟨tables, filling₁.directory, filling₁.link, filling₁.made, filling₁.used⟩, rfl,
    ext.total.trans (Pmm.takeRange_totalPages ..), ?_, ?_⟩
  · intro p hp data
    cases place : role₁ p with
    | none => rfl
    | some key =>
      have free := ext.fresh p key data place
      rw [Pmm.takeRange_test, filling.used, decide_eq_true hp, Bool.or_true] at free
      cases free
  · intro j hj
    refine ext.entries (pageAt j) (uncovered_pageAt (by omega)) ?_
    rintro ⟨i, hi, same⟩
    have := sameSlot_pageAt (by omega) (by omega) same
    omega

theorem mapRange_one {phys flags pte : ℕ} {s₁ s₂ : Vmm} (next : s.nextVirtAddr = pageAt m)
    (inside : m < 2 ^ 18) (call : getPte p4 (pageAt m) true s = some (some pte, s₁))
    (stored : s₁.store p4 pte (pageEntry phys flags) = some s₂) :
    mapRange p4 phys flags 1 0 s = some (true, s₂) := by
  rw [mapRange, next, pageAt_add, Nat.add_zero, pageAt_mod inside, call, Option.bind_some]
  dsimp only
  rw [Nat.zero_mul, Nat.add_zero, stored, Option.bind_some, mapRange]

theorem vmmAlloc_first (flags : ℕ) (tables : Tables p4 role s)
    (used : ∀ p, s.pmm.bitmapTest p = decide (p < k))
    (absent : decode (s.mem (Radix.slot 512 (p4 + 1) 511)) = none)
    (next : s.nextVirtAddr = pageAt 0) (low : k + 2 < 2 ^ 18) (room : k + 2 < s.pmm.totalPages) :
    ∃ s' role', vmmAlloc p4 1 flags s = some (some (pageAt 0), s') ∧
      Filling p4 (k + 1) 1 (k + 3) role' s' ∧ s'.nextVirtAddr = pageAt 1 ∧
      s'.pmm.totalPages = s.pmm.totalPages ∧ role' k = none ∧
      entryOf p4 s'.mem (pageAt 0) = pageEntry (k * 4096) flags := by
  have alloc := Pmm.allocPages_of_filled used Nat.one_pos (by omega)
  have taken := Pmm.takeRange_filled used 1
  obtain ⟨s₁, role₁, t, call, ends, filling₁, ext₁⟩ := Filling.getPte_first (tables.takeRange k 1)
    taken absent (by omega) (by rw [Pmm.takeRange_totalPages]; omega)
  obtain ⟨s₂, stored, filling₂, ext₂, entry⟩ := filling₁.store (uncovered_pageAt (by decide)) ends
    (pageEntry (k * 4096) flags)
  rw [(index_pageAt (by decide)).2.2.2] at stored
  have start : s₂.nextVirtAddr = pageAt 0 := (ext₂.next.trans ext₁.next).trans next
  have tables₂ : Tables p4 role₁ { s₂ with nextVirtAddr := pageAt 1 } :=
    filling₂.tables.of_agree (fun _ _ _ _ _ _ => rfl) filling₂.tables.used
  have mapped : mapRange p4 (k * 4096) flags 1 0 { s with pmm := s.pmm.takeRange k 1 } =
      some (true, s₂) :=
    mapRange_one next (by decide) call stored
  refine ⟨{ s₂ with nextVirtAddr := pageAt 1 }, role₁,
    vmmAlloc_of_mapped alloc mapped start (by decide),
    ⟨tables₂, filling₂.directory, filling₂.link, filling₂.made, filling₂.used⟩, rfl,
    (ext₂.total.trans ext₁.total).trans (Pmm.takeRange_totalPages ..), ?_, entry⟩
  cases place : role₁ k with
  | none => rfl
  | some key =>
    have free : (s.pmm.takeRange k 1).bitmapTest k = false :=
      ext₁.fresh k key (tables.role_of_free (by rw [used]; simp)) place
    rw [taken] at free
    simp at free

/-! ## A table above the first gigabyte -/

/-- The table for page 261120 of the addresses is page 2^18 of memory.  The code looks for it at the
first page of the addresses, which entry 0 of the table `t` maps by `e`. -/
structure Overlaid (p4 pd t e : ℕ) (mem : ℕ → ℕ) : Prop where
  boot : BootMapped p4 mem
  low : pd < 2 ^ 18 ∧ t < 2 ^ 18
  apart : t ≠ p4 ∧ t ≠ p4 + 1 ∧ t ≠ p4 + 2 ∧ t ≠ pd
  link : mem (Radix.slot 512 (p4 + 1) 511) = pd * 4096 + 3
  first : mem (Radix.slot 512 pd 0) = t * 4096 + 3
  last : mem (Radix.slot 512 pd 510) = 2 ^ 18 * 4096 + 3
  entry : mem (Radix.slot 512 t 0) = e

namespace Overlaid

variable {t e : ℕ} {mem : ℕ → ℕ}

theorem of_agree {mem' : ℕ → ℕ} {e' : ℕ} (overlaid : Overlaid p4 pd t e mem)
    (same : ∀ q, q = p4 ∨ q = p4 + 1 ∨ q = p4 + 2 ∨ q = pd → ∀ i < 512,
      mem' (Radix.slot 512 q i) = mem (Radix.slot 512 q i))
    (entry : mem' (Radix.slot 512 t 0) = e') : Overlaid p4 pd t e' mem' where
  boot :=
    { inside := overlaid.boot.inside
      first := fun i hi => by rw [same _ (.inl rfl) i (by omega), overlaid.boot.first i hi]
      second := fun i hi => by rw [same _ (.inr (.inl rfl)) i (by omega), overlaid.boot.second i hi]
      large := fun i hi => by rw [same _ (.inr (.inr (.inl rfl))) i hi, overlaid.boot.large i hi] }
  low := overlaid.low
  apart := overlaid.apart
  link := by rw [same _ (.inr (.inl rfl)) 511 (by decide), overlaid.link]
  first := by rw [same _ (.inr (.inr (.inr rfl))) 0 (by decide), overlaid.first]
  last := by rw [same _ (.inr (.inr (.inr rfl))) 510 (by decide), overlaid.last]
  entry := entry

theorem translate_base (overlaid : Overlaid p4 pd t e mem) :
    translate mem p4 virtBase =
      if present e then some (large 12 e virtBase) else none := by
  have inside := overlaid.boot.inside
  have low := overlaid.low
  have e₃ : mem (p4 * 512 + index 3 virtBase) = (p4 + 1) * 4096 + 3 :=
    overlaid.boot.first 511 (.inr rfl)
  have canonical : Canonical virtBase := by decide
  have page := translate_page canonical e₃ (by omega) overlaid.link (by omega) overlaid.first (by omega)
  rw [page]
  have entry : mem (t * 512 + index 0 virtBase) = e := overlaid.entry
  rw [entry]

variable (overlaid : Overlaid p4 pd t e s.mem)

include overlaid

theorem getPte_eq {j c : ℕ} (inside : j < 2 ^ 18)
    (entry : s.mem (Radix.slot 512 pd (j / 512)) = c * 4096 + 3) :
    getPte p4 (pageAt j) false s = some (some (tableOf (c * 4096 + 3) + 8 * (j % 512)), s) := by
  have low := overlaid.low
  have image := overlaid.boot.inside
  obtain ⟨i₃, i₂, i₁, i₀⟩ := index_pageAt inside
  have first := overlaid.boot.first 511 (.inr rfl)
  have walk : walkTables p4 false [511, 511, j / 512] (tableAddr p4) s =
      some (some (tableOf (c * 4096 + 3)), s) := by
    rw [walkTables, overlaid.boot.descend_read (by omega) (by decide), first, present_link, if_pos rfl,
      tableOf_link (by omega), Option.bind_some]
    dsimp only
    rw [walkTables, overlaid.boot.descend_read (by omega) (by decide), overlaid.link, present_link,
      if_pos rfl, tableOf_link low.1, Option.bind_some]
    dsimp only
    rw [walkTables, overlaid.boot.descend_read low.1 (by omega), entry, present_link, if_pos rfl,
      Option.bind_some]
    rfl
  rw [getPte, i₃, i₂, i₁, i₀]
  exact congrArg (Option.map _) walk

theorem vmmFree_base (up : present e = true) :
    ∃ s', vmmFree p4 virtBase 1 s = some s' ∧ Overlaid p4 pd t 0 s'.mem := by
  have low := overlaid.low
  obtain ⟨first, second, third, fourth⟩ := overlaid.apart
  have pte := overlaid.getPte_eq (by decide : 0 < 2 ^ 18) overlaid.first
  rw [tableOf_link low.2] at pte
  have boot : BootMapped p4 { s with pmm := s.pmm.free (e / 4096 * 4096) }.mem := overlaid.boot
  have stored := boot.store_table low.2 (by decide : 0 < 512) 0
  have start : (virtBase + 0 * 4096) % 2 ^ 64 = pageAt 0 := by decide
  refine ⟨{ s with mem := Radix.store 512 s.mem t 0 0, pmm := s.pmm.free (e / 4096 * 4096) }, ?_,
    overlaid.of_agree ?_ Radix.store_slot_self⟩
  · rw [vmmFree, freeRange, start, pte, Option.bind_some]
    dsimp only
    rw [overlaid.boot.load_table low.2 (by decide), Option.bind_some, Nat.zero_mod, overlaid.entry,
      if_pos up, stored, Option.bind_some]
    rfl
  · intro q hq i hi
    dsimp only
    refine Radix.store_slot_ne (by decide) hi fun same => ?_
    omega

theorem store_base {q : ℕ} (mapped : e = q * 4096 + 3) (low : q < 2 ^ 18)
    (data : q ≠ p4 ∧ q ≠ p4 + 1 ∧ q ≠ p4 + 2 ∧ q ≠ pd ∧ q ≠ t) (x : ℕ) :
    ∃ s', s.store p4 virtBase x = some s' ∧ Overlaid p4 pd t e s'.mem ∧
      s'.nextVirtAddr = s.nextVirtAddr := by
  have page : large 12 e virtBase = q * 4096 := by
    have aligned : virtBase % 2 ^ 12 = 0 := by decide
    unfold large
    omega
  have word : q * 4096 / 8 = Radix.slot 512 q 0 := by
    unfold Radix.slot
    omega
  have up : present e = true := mapped ▸ present_link q
  refine ⟨{ s with mem := Radix.store 512 s.mem q 0 x }, ?_, overlaid.of_agree ?_ ?_, rfl⟩
  · rw [Vmm.store, overlaid.translate_base, up, if_pos rfl, page, Option.map_some, word]
    rfl
  · intro r hr i hi
    dsimp only
    refine Radix.store_slot_ne (by decide) hi fun same => ?_
    omega
  · dsimp only
    rw [Radix.store_slot_ne (by decide) (by decide) fun same => data.2.2.2.2 same.1.symm,
      overlaid.entry]

theorem vmmGetPhys_last (down : present e = false) : vmmGetPhys p4 (pageAt 261120) s = none := by
  have pte := overlaid.getPte_eq (by decide : 261120 < 2 ^ 18) overlaid.last
  have address : tableOf (2 ^ 18 * 4096 + 3) + 8 * (261120 % 512) = virtBase := by decide
  rw [vmmGetPhys, pte, Option.bind_some, address]
  dsimp only
  rw [Vmm.load, overlaid.translate_base, down]
  rfl

end Overlaid

/-- The new table is page 2^18; what is cleared is the page `q`, mapped at the address of the table. -/
theorem descend_above {q : ℕ} {pmm : Pmm} (boot : BootMapped p4 s.mem) (low : pd < 2 ^ 18)
    (absent : present (s.mem (Radix.slot 512 pd 510)) = false)
    (alloc : s.pmm.alloc = (some (2 ^ 18 * 4096), pmm))
    (seen : translate s.mem p4 virtBase = some (q * 4096))
    (cleared : BootMapped p4 (Radix.clear 512 s.mem q))
    (linked : BootMapped p4 (Radix.store 512 (Radix.clear 512 s.mem q) pd 510 (2 ^ 18 * 4096 + 3))) :
    descend p4 true (tableAddr pd) 510 s = some (some virtBase,
      { s with
        mem := Radix.store 512 (Radix.clear 512 s.mem q) pd 510 (2 ^ 18 * 4096 + 3), pmm }) := by
  have address : (2 ^ 18 * 4096 + kernelVirtBase) % 2 ^ 64 = virtBase := by decide
  have word : q * 4096 / 8 = q * 512 := by omega
  have clear : Vmm.clearPage p4 { s with pmm } virtBase =
      some { s with mem := Radix.clear 512 s.mem q, pmm } := by
    rw [Vmm.clearPage]
    rw [seen, Option.map_some, word]
    rfl
  have store : Vmm.store p4 { s with mem := Radix.clear 512 s.mem q, pmm } (tableAddr pd + 8 * 510)
      (2 ^ 18 * 4096 + 3) = some { s with
        mem := Radix.store 512 (Radix.clear 512 s.mem q) pd 510 (2 ^ 18 * 4096 + 3), pmm } :=
    BootMapped.store_table cleared low (by decide) _
  have load : Vmm.load p4 { s with
      mem := Radix.store 512 (Radix.clear 512 s.mem q) pd 510 (2 ^ 18 * 4096 + 3), pmm }
      (tableAddr pd + 8 * 510) = some (2 ^ 18 * 4096 + 3) := by
    rw [BootMapped.load_table linked low (by decide)]
    dsimp only
    rw [Radix.store_slot_self]
  have table : tableOf (2 ^ 18 * 4096 + 3) = virtBase := by decide
  rw [descend, boot.load_table low (by decide), Option.bind_some, absent, alloc]
  dsimp only
  rw [address, clear, Option.bind_some, store, Option.bind_some, load, Option.map_some, table]
  rfl

theorem getPte_above {q : ℕ} (filling : Filling p4 pd 261120 (2 ^ 18) role s)
    (room : 2 ^ 18 < s.pmm.totalPages) (base : entryOf p4 s.mem (pageAt 0) = q * 4096 + 3)
    (data : role q = none) (low : q < 2 ^ 18) :
    ∃ s' t, getPte p4 (pageAt 261120) true s = some (some virtBase, s') ∧
      Overlaid p4 pd t (q * 4096 + 3) s'.mem ∧ s'.nextVirtAddr = s.nextVirtAddr ∧
      q ≠ p4 ∧ q ≠ p4 + 1 ∧ q ≠ p4 + 2 ∧ q ≠ pd ∧ q ≠ t := by
  have tables := filling.tables
  have inner : Inner [0, 511] := by decide
  -- the table of the first page of addresses
  obtain ⟨t, points⟩ : ∃ t, decode (s.mem (Radix.slot 512 pd 0)) = some t := by
    refine Option.ne_none_iff_exists'.mp fun absent => ?_
    have := (filling.made 0 (by decide)).mp absent
    omega
  have key := tables.tree pd _ filling.directory inner 0 (by decide) t points
  have first := tables.link pd _ filling.directory inner 0 (by decide) t points
  have link := tables.link (p4 + 1) _ tables.pdpt (by decide) 511 (by decide) pd filling.link
  have root : decode (s.mem (Radix.slot 512 p4 511)) = some (p4 + 1) := by
    rw [tables.boot.first _ (.inr rfl), decode_link]
  have ends : Radix.walk 512 decode s.mem (pathOf (pageAt 0)) p4 = some t :=
    (walk_pageAt (by decide) root filling.link).trans points
  have entry : s.mem (Radix.slot 512 t 0) = q * 4096 + 3 := (entryOf_of_walk ends).symm.trans base
  have page : large 12 (q * 4096 + 3) virtBase = q * 4096 := by
    have aligned : virtBase % 2 ^ 12 = 0 := by decide
    unfold large
    omega
  have seen : translate s.mem p4 virtBase = some (q * 4096) := by
    have mapped := translate_eq tables (uncovered_pageAt (by decide)) (by decide) ends
    rw [base, present_link, if_pos rfl] at mapped
    exact mapped.trans (congrArg some page)
  have absent : present (s.mem (Radix.slot 512 pd 510)) = false :=
    decode_eq_none.mp ((filling.made 510 (by decide)).mpr (by decide))
  have above := Pmm.alloc_of_filled filling.used room
  -- the tables stay as they are but for the new link
  have distinct : ∀ {r r' : ℕ} {k k' : List ℕ}, role r = some k → role r' = some k' → k ≠ k' →
      r ≠ r' := by
    rintro r _ k k' place place' ne rfl
    exact ne (Option.some.inj (place.symm.trans place'))
  have clear : ∀ {r : ℕ} {k : List ℕ}, role r = some k → ∀ i < 512,
      Radix.clear 512 s.mem q (Radix.slot 512 r i) = s.mem (Radix.slot 512 r i) :=
    fun place i hi => Radix.clear_slot_ne hi (Tables.ne_of_fresh place data)
  have kept : ∀ {r : ℕ} {k : List ℕ}, role r = some k → ∀ i < 512, ¬ (r = pd ∧ i = 510) →
      Radix.store 512 (Radix.clear 512 s.mem q) pd 510 (2 ^ 18 * 4096 + 3) (Radix.slot 512 r i) =
        s.mem (Radix.slot 512 r i) :=
    fun place i hi other => (Radix.store_slot_ne (by decide) hi other).trans (clear place i hi)
  have root_ne : p4 ≠ pd := distinct tables.root filling.directory (by decide)
  have pdpt_ne : p4 + 1 ≠ pd := distinct tables.pdpt filling.directory (by decide)
  have window_ne : p4 + 2 ≠ pd := distinct tables.window filling.directory (by decide)
  have table_ne : t ≠ pd := distinct key filling.directory (by decide)
  have cleared : BootMapped p4 (Radix.clear 512 s.mem q) :=
    ⟨tables.boot.inside, fun i hi => (clear tables.root i (by omega)).trans (tables.boot.first i hi),
      fun i hi => (clear tables.pdpt i (by omega)).trans (tables.boot.second i hi),
      fun i hi => (clear tables.window i hi).trans (tables.boot.large i hi)⟩
  have linked : BootMapped p4
      (Radix.store 512 (Radix.clear 512 s.mem q) pd 510 (2 ^ 18 * 4096 + 3)) :=
    ⟨tables.boot.inside,
      fun i hi => (kept tables.root i (by omega) fun same => root_ne same.1).trans
        (tables.boot.first i hi),
      fun i hi => (kept tables.pdpt i (by omega) fun same => pdpt_ne same.1).trans
        (tables.boot.second i hi),
      fun i hi => (kept tables.window i hi fun same => window_ne same.1).trans
        (tables.boot.large i hi)⟩
  have overlaid : Overlaid p4 pd t (q * 4096 + 3)
      (Radix.store 512 (Radix.clear 512 s.mem q) pd 510 (2 ^ 18 * 4096 + 3)) :=
    { boot := linked
      low := ⟨tables.low _ _ filling.directory, tables.low _ _ key⟩
      apart := ⟨distinct key tables.root (by decide), distinct key tables.pdpt (by decide),
        distinct key tables.window (by decide), table_ne⟩
      link := (kept tables.pdpt 511 (by decide) fun same => pdpt_ne same.1).trans link
      first := (kept filling.directory 0 (by decide) fun same => by omega).trans first
      last := Radix.store_slot_self
      entry := (kept key 0 (by decide) fun same => table_ne same.1).trans entry }
  have call := filling.getPte_eq (by decide) true
  have index : 261120 / 512 = 510 := by decide
  rw [index, descend_above tables.boot overlaid.low.1 absent above seen cleared linked] at call
  have other : ∀ {r : ℕ} {k : List ℕ}, role r = some k → q ≠ r := fun place =>
    (Tables.ne_of_fresh place data).symm
  exact ⟨_, t, call, overlaid, rfl, other tables.root, other tables.pdpt, other tables.window,
    other filling.directory, other key⟩

theorem vmmAlloc_above (flags : ℕ) {q : ℕ} (filling : Filling p4 pd 261120 (2 ^ 18 - 1) role s)
    (next : s.nextVirtAddr = pageAt 261120) (room : 2 ^ 18 < s.pmm.totalPages)
    (base : entryOf p4 s.mem (pageAt 0) = q * 4096 + 3) (data : role q = none) (low : q < 2 ^ 18) :
    ∃ s' t, vmmAlloc p4 1 flags s = some (some (pageAt 261120), s') ∧
      Overlaid p4 pd t (q * 4096 + 3) s'.mem := by
  have alloc := Pmm.allocPages_of_filled filling.used Nat.one_pos (by omega)
  obtain ⟨s₁, t, call, overlaid₁, next₁, other⟩ := getPte_above (filling.takeRange 1)
    (by rw [Pmm.takeRange_totalPages]; exact room) base data low
  obtain ⟨s₂, stored, overlaid₂, next₂⟩ := overlaid₁.store_base rfl low other
    (pageEntry ((2 ^ 18 - 1) * pageSize) flags)
  have mapped : mapRange p4 ((2 ^ 18 - 1) * pageSize) flags 1 0
      { s with pmm := s.pmm.takeRange (2 ^ 18 - 1) 1 } = some (true, s₂) :=
    mapRange_one next (by decide) call stored
  have start : s₂.nextVirtAddr = pageAt 261120 := (next₂.trans next₁).trans next
  exact ⟨_, t, vmmAlloc_of_mapped alloc mapped start (by decide), overlaid₂⟩

end Thuban.Mm

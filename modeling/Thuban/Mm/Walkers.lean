import Thuban.Lib.Run
import Thuban.Mm.Mappings

/-!
# The page walkers agree, and mappings are separate

From the boot page tables on, calls of the virtual memory manager on addresses that `boot.s` leaves
free keep the tables a tree, as long as the tables that they make lie in the first gigabyte, which
the boot mapping covers.  There the two page walkers agree (`walkers_agree_iff`), and mapping a page
changes the translation of no other page but its alias under the second entry for `p3_table`
(`mapping_frame`).
-/

namespace Thuban.Mm

open Lib Lib.Paging

/-- `p4_table` and the two tables behind it lie in the kernel image and below one gigabyte. -/
structure InImage (p4 kernelEnd : ℕ) : Prop where
  reserved : p4 + 3 ≤ Pmm.kernelPages kernelEnd
  low : p4 + 3 ≤ 2 ^ 18

def bootRole (p4 t : ℕ) : Option (List ℕ) :=
  if t = p4 then some [] else if t = p4 + 1 then some [0] else if t = p4 + 2 then some [0, 0]
  else none

theorem bootRole_cases {p4 t : ℕ} {k : List ℕ} (place : bootRole p4 t = some k) :
    t = p4 ∧ k = [] ∨ t = p4 + 1 ∧ k = [0] ∨ t = p4 + 2 ∧ k = [0, 0] := by
  unfold bootRole at place
  split_ifs at place with first second third
  · exact .inl ⟨first, (Option.some.inj place).symm⟩
  · exact .inr (.inl ⟨second, (Option.some.inj place).symm⟩)
  · exact .inr (.inr ⟨third, (Option.some.inj place).symm⟩)

section Boot

variable (p4 : ℕ) (rest : ℕ → ℕ) {i : ℕ} (hi : i < 512)

include hi

theorem bootTables_root : bootTables p4 rest (Radix.slot 512 p4 i) =
    if i = 0 ∨ i = 511 then (p4 + 1) * 4096 + 3 else 0 := by
  have table : (p4 * 512 + i) / 512 = p4 := by omega
  have word : (p4 * 512 + i) % 512 = i := by omega
  unfold bootTables Radix.slot
  simp [table, word]

theorem bootTables_pdpt : bootTables p4 rest (Radix.slot 512 (p4 + 1) i) =
    if i = 0 ∨ i = 510 then (p4 + 2) * 4096 + 3 else 0 := by
  have table : ((p4 + 1) * 512 + i) / 512 = p4 + 1 := by omega
  have word : ((p4 + 1) * 512 + i) % 512 = i := by omega
  unfold bootTables Radix.slot
  simp only [table, word, if_true]
  rw [if_neg (by omega)]

theorem bootTables_window :
    bootTables p4 rest (Radix.slot 512 (p4 + 2) i) = i * 2 ^ 21 + 0x83 := by
  have table : ((p4 + 2) * 512 + i) / 512 = p4 + 2 := by omega
  have word : ((p4 + 2) * 512 + i) % 512 = i := by omega
  unfold bootTables Radix.slot
  simp only [table, word, if_true]
  rw [if_neg (by omega), if_neg (by omega)]
  omega

end Boot

variable {memSize kernelEnd p4 : ℕ}

theorem init_test {p : ℕ} (reserved : p < Pmm.kernelPages kernelEnd) :
    (Pmm.init memSize kernelEnd).bitmapTest p = true := by
  have inside : Pmm.InRange 0 (Pmm.kernelPages kernelEnd) p := ⟨p.zero_le, by omega⟩
  rw [Pmm.init, Pmm.takeRange_test, decide_eq_true inside, Bool.true_or]

theorem boot_tables (image : InImage p4 kernelEnd) (rest : ℕ → ℕ) :
    Tables p4 (bootRole p4) (bootVmm p4 rest memSize kernelEnd) := by
  have := image.reserved
  have := image.low
  have root : bootRole p4 p4 = some [] := if_pos rfl
  have pdpt : bootRole p4 (p4 + 1) = some [0] := by simp [bootRole]
  have window : bootRole p4 (p4 + 2) = some [0, 0] := by simp [bootRole]
  -- an entry of the first two tables is a link to the next table, or empty
  have entries : ∀ t k, bootRole p4 t = some k → Inner k → ∀ i < 512, ∀ u,
      decode (bootTables p4 rest (Radix.slot 512 t i)) = some u →
        bootTables p4 rest (Radix.slot 512 t i) = u * 4096 + 3 ∧
          bootRole p4 u = some (child k i) := by
    intro t k place inner i hi u points
    obtain ⟨rfl, rfl⟩ | ⟨rfl, rfl⟩ | ⟨rfl, rfl⟩ := bootRole_cases place
    · rw [bootTables_root t rest hi] at points ⊢
      split_ifs at points ⊢ with present
      · obtain rfl : t + 1 = u := Option.some.inj ((decode_link _).symm.trans points)
        refine ⟨rfl, pdpt.trans ?_⟩
        obtain rfl | rfl := present <;> rfl
      · cases points
    · rw [bootTables_pdpt p4 rest hi] at points ⊢
      split_ifs at points ⊢ with present
      · obtain rfl : p4 + 2 = u := Option.some.inj ((decode_link _).symm.trans points)
        refine ⟨rfl, window.trans ?_⟩
        obtain rfl | rfl := present <;> rfl
      · cases points
    · exact absurd rfl inner.2
  have second : IsTable (bootTables p4 rest) p4 2 (p4 + 1) := by
    have entry : bootTables p4 rest (p4 * 512 + 0) = (p4 + 1) * 4096 + 3 :=
      bootTables_root p4 rest (by decide)
    have top : IsTable (bootTables p4 rest) p4 (2 + 1) p4 := .root
    have table := top.next (i := 0) (by decide) (by rw [entry, present_link])
      (by rw [entry, huge_link])
    rwa [entry, frame_link (by omega)] at table
  have third : IsTable (bootTables p4 rest) p4 1 (p4 + 2) := by
    have entry : bootTables p4 rest ((p4 + 1) * 512 + 0) = (p4 + 2) * 4096 + 3 :=
      bootTables_pdpt p4 rest (by decide)
    have table := second.next (i := 0) (by decide) (by rw [entry, present_link])
      (by rw [entry, huge_link])
    rwa [entry, frame_link (by omega)] at table
  constructor
  · exact fun t k place inner i hi u points => (entries t k place inner i hi u points).2
  · exact fun t k place inner i hi u points => (entries t k place inner i hi u points).1
  · intro t k place
    obtain ⟨rfl, -⟩ | ⟨rfl, -⟩ | ⟨rfl, -⟩ := bootRole_cases place <;> omega
  · intro t k place
    refine init_test ?_
    obtain ⟨rfl, -⟩ | ⟨rfl, -⟩ | ⟨rfl, -⟩ := bootRole_cases place <;> omega
  · intro t k place
    obtain ⟨rfl, rfl⟩ | ⟨rfl, rfl⟩ | ⟨rfl, rfl⟩ := bootRole_cases place
    · exact .root
    · exact second
    · exact third
  · intro t
    refine ⟨fun place => ?_, fun h => h ▸ root⟩
    obtain ⟨rfl, -⟩ | ⟨-, key⟩ | ⟨-, key⟩ := bootRole_cases place
    · rfl
    · cases key
    · cases key
  · intro t
    refine ⟨fun place => ?_, fun h => h ▸ pdpt⟩
    obtain ⟨-, key⟩ | ⟨rfl, -⟩ | ⟨-, key⟩ := bootRole_cases place
    · cases key
    · rfl
    · cases key
  · intro t
    refine ⟨fun place => ?_, fun h => h ▸ window⟩
    obtain ⟨-, key⟩ | ⟨-, key⟩ | ⟨rfl, -⟩ := bootRole_cases place
    · cases key
    · cases key
    · rfl
  exact
    { inside := image.low
      first := fun i hi => (bootTables_root p4 rest (by omega)).trans (if_pos hi)
      second := fun i hi => (bootTables_pdpt p4 rest (by omega)).trans (if_pos hi)
      large := fun i hi => bootTables_window p4 rest hi }

/-! ## Runs -/

inductive VmmCall
  | map (virt phys flags : ℕ)
  | unmap (virt : ℕ)
  | alloc (pages flags : ℕ)
  | free (virt pages : ℕ)

/-- A call that keeps to addresses outside the boot mapping, and makes tables in the first gigabyte:
pages are allocated below the end of the address space, and no page that is freed is in use as a
table. -/
inductive Careful (p4 : ℕ) : Vmm → VmmCall → Vmm → Prop
  | map {s s' : Vmm} {virt phys flags : ℕ} {done : Bool} (uncovered : ¬ Covered virt)
      (low : Pool (missing s.mem (pathOf virt) p4) s.pmm)
      (call : vmmMap p4 virt phys flags s = some (done, s')) : Careful p4 s (.map virt phys flags) s'
  | unmap {s s' : Vmm} {virt : ℕ} (uncovered : ¬ Covered virt)
      (call : vmmUnmap p4 virt s = some s') : Careful p4 s (.unmap virt) s'
  | alloc {s s' : Vmm} {pages flags : ℕ} {answer : Option ℕ}
      (room : s.nextVirtAddr + pages * 4096 < 2 ^ 64 ∨ (s.pmm.allocPages pages).1 = none)
      (low : Pool (tablesFor p4 pages s) (s.pmm.allocPages pages).2)
      (call : vmmAlloc p4 pages flags s = some (answer, s')) : Careful p4 s (.alloc pages flags) s'
  | free {s s' : Vmm} {virt pages : ℕ} (uncovered : ∀ j < pages, ¬ Covered (freedAt virt j))
      (noTable : ∀ j < pages, ∀ u level, decode (entryOf p4 s.mem (freedAt virt j)) = some u →
        ¬ IsTable s.mem p4 level u)
      (call : vmmFree p4 virt pages s = some s') : Careful p4 s (.free virt pages) s'

/-- What every state of a run of such calls satisfies. -/
structure Orderly (p4 : ℕ) (s : Vmm) : Prop where
  tables : ∃ role, Tables p4 role s
  total : s.pmm.totalPages ≤ 2 ^ 20
  next : ∃ h < 2 ^ 18, s.nextVirtAddr = pageAt h

theorem init_totalPages_le (memSize kernelEnd : ℕ) :
    (Pmm.init memSize kernelEnd).totalPages ≤ 2 ^ 20 := by
  rw [Pmm.init, Pmm.takeRange_totalPages]
  exact min_le_right _ _

theorem boot_orderly (image : InImage p4 kernelEnd) (rest : ℕ → ℕ) :
    Orderly p4 (bootVmm p4 rest memSize kernelEnd) :=
  ⟨⟨_, boot_tables image rest⟩, init_totalPages_le memSize kernelEnd, 0, by decide, rfl⟩

theorem careful_step {s s' : Vmm} {call : VmmCall} (orderly : Orderly p4 s)
    (step : Careful p4 s call s') : Orderly p4 s' := by
  obtain ⟨⟨role, tables⟩, total, h, inside, next⟩ := orderly
  cases step with
  | @map _ virt phys flags done uncovered low call =>
    obtain ⟨done', s₁, role', call', ext, -⟩ := vmmMap_spec phys flags tables uncovered low
    obtain ⟨-, rfl⟩ := Prod.mk.inj (Option.some.inj (call.symm.trans call'))
    exact ⟨⟨role', ext.tables⟩, ext.total ▸ total, h, inside, ext.next.trans next⟩
  | unmap uncovered call =>
    obtain ⟨s₁, call', ext⟩ := vmmUnmap_spec tables uncovered
    obtain rfl := Option.some.inj (call.symm.trans call')
    exact ⟨⟨role, ext.tables⟩, ext.total ▸ total, h, inside, ext.next.trans next⟩
  | @alloc _ pages flags answer room low call =>
    have base : virtBase = 2 ^ 64 - 2 ^ 30 := by decide
    have room' : h + pages < 2 ^ 18 ∨ (s.pmm.allocPages pages).1 = none := by
      refine room.imp_left fun below => ?_
      rw [next, pageAt] at below
      omega
    obtain ⟨answer', s₁, role', call', allocates⟩ :=
      vmmAlloc_spec flags tables total low next (room'.imp_left le_of_lt)
    obtain ⟨rfl, rfl⟩ := Prod.mk.inj (Option.some.inj (call.symm.trans call'))
    refine ⟨⟨role', allocates.tables⟩, allocates.total ▸ total, ?_⟩
    cases answer with
    | none => exact ⟨h, inside, (allocates.failed rfl).trans next⟩
    | some v =>
      obtain ⟨-, -, -, last, -⟩ := allocates.mapped v rfl
      have below : h + pages < 2 ^ 18 :=
        room'.resolve_right fun none => Option.some_ne_none v (allocates.refused none).1
      exact ⟨h + pages, below, last.trans (pageAt_mod below)⟩
  | @free _ virt pages uncovered noTable call =>
    have data : ∀ j < pages, ∀ u, decode (entryOf p4 s.mem (freedAt virt j)) = some u →
        role u = none := by
      intro j hj u points
      cases place : role u with
      | none => rfl
      | some k => exact absurd (tables.rooted u k place) (noTable j hj u _ points)
    obtain ⟨s₁, call', frees⟩ := vmmFree_spec tables uncovered data
    obtain rfl := Option.some.inj (call.symm.trans call')
    exact ⟨⟨role, frees.tables⟩, frees.total ▸ total, h, inside, frees.next.trans next⟩

/-! ## The walkers agree -/

section Covered

variable {p4 v : ℕ} {role : ℕ → Option (List ℕ)} {s : Vmm} (tables : Tables p4 role s)
  (covered : Covered v)

/-- The word that lies where a table for a covered address would have its entry. -/
def strayEntry (mem : ℕ → ℕ) (v : ℕ) : ℕ := mem (Radix.slot 512 (index 1 v * 512) (index 0 v))

include tables covered

theorem getPte_covered (create : Bool) :
    getPte p4 v create s = some (some (tableAddr (index 1 v * 512) + 8 * index 0 v), s) := by
  have base : kernelVirtBase = 2 ^ 64 - 2 ^ 31 := by decide
  have h₁ := index_lt 1 v
  have points₃ : decode (s.mem (Radix.slot 512 p4 (index 3 v))) = some (p4 + 1) := by
    rw [tables.boot.first _ covered.1, decode_link]
  have points₂ : decode (s.mem (Radix.slot 512 (p4 + 1) (index 2 v))) = some (p4 + 2) := by
    rw [tables.boot.second _ covered.2, decode_link]
  have up : present (index 1 v * 2 ^ 21 + 0x83) = true := decide_eq_true (by omega)
  have address : tableOf (index 1 v * 2 ^ 21 + 0x83) = tableAddr (index 1 v * 512) := by
    unfold tableOf tableAddr
    omega
  have window : descend p4 create (tableAddr (p4 + 2)) (index 1 v) s =
      some (some (tableAddr (index 1 v * 512)), s) := by
    rw [descend, tables.boot.load_table (tables.low _ _ tables.window) h₁, Option.bind_some,
      tables.boot.large _ h₁, if_pos up, address]
  have walk : walkTables p4 create (pathOf v) (tableAddr p4) s =
      some (some (tableAddr (index 1 v * 512)), s) := by
    rw [pathOf, walkTables,
      descend_present tables tables.root (index_lt 3 v) (by decide) create points₃,
      Option.bind_some]
    dsimp only
    rw [walkTables, descend_present tables tables.pdpt (index_lt 2 v) (by decide) create points₂,
      Option.bind_some]
    dsimp only
    rw [walkTables, window, Option.bind_some]
    rfl
  rw [getPte]
  exact congrArg (Option.map _) walk

theorem vmmGetPhys_covered : vmmGetPhys p4 v s = some (physOf (strayEntry s.mem v) v) := by
  have h₁ := index_lt 1 v
  rw [vmmGetPhys, getPte_covered tables covered, Option.bind_some]
  show (s.load p4 (tableAddr (index 1 v * 512) + 8 * index 0 v)).map _ = _
  rw [tables.boot.load_table (by omega) (index_lt 0 v), Option.map_some]
  rfl

theorem pagingGetPhys_covered :
    pagingGetPhys p4 v s = some (index 1 v * 2 ^ 21 + v % 2 ^ 21) := by
  have h₁ := index_lt 1 v
  have low₂ := tables.low _ _ tables.pdpt
  have low₁ := tables.low _ _ tables.window
  have up : present (index 1 v * 2 ^ 21 + 0x83) = true := decide_eq_true (by omega)
  have large : huge (index 1 v * 2 ^ 21 + 0x83) = true := decide_eq_true (by omega)
  have address : (index 1 v * 2 ^ 21 + 0x83) / 2 ^ 21 * 2 ^ 21 = index 1 v * 2 ^ 21 := by omega
  rw [pagingGetPhys]
  show (s.load p4 (tableAddr p4 + 8 * index 3 v)).bind _ = _
  rw [tables.boot.load_table (tables.low _ _ tables.root) (index_lt 3 v), Option.bind_some,
    tables.boot.first _ covered.1, present_link, Bool.not_true, if_neg Bool.false_ne_true,
    tableOf_link low₂, tables.boot.load_table low₂ (index_lt 2 v), Option.bind_some,
    tables.boot.second _ covered.2, present_link, huge_link, Bool.not_true, if_neg Bool.false_ne_true,
    if_neg Bool.false_ne_true, tableOf_link low₁, tables.boot.load_table low₁ h₁,
    Option.bind_some, tables.boot.large _ h₁, up, large, Bool.not_true, if_neg Bool.false_ne_true,
    if_pos rfl, address]

end Covered

/-- The word that `get_pte` takes for the entry of a covered address maps the address where the boot
mapping does. -/
def Mirrored (mem : ℕ → ℕ) (v : ℕ) : Prop :=
  if present (strayEntry mem v) then strayEntry mem v / 4096 = index 1 v * 512 + index 0 v
  else v % 2 ^ 30 = 0

theorem physOf_stray_iff (mem : ℕ → ℕ) (v : ℕ) :
    physOf (strayEntry mem v) v = index 1 v * 2 ^ 21 + v % 2 ^ 21 ↔ Mirrored mem v := by
  unfold physOf Mirrored index
  split_ifs <;> omega

/-- In every state that careful calls reach from the boot page tables, the two walkers agree on an
address exactly if it is not covered by the boot mapping, or memory happens to mirror it.  A page that
was mapped, with tables in the first gigabyte, is then found by the walkers and by the processor. -/
theorem walkers_agree_iff {p4 memSize kernelEnd : ℕ} {rest : ℕ → ℕ} {calls : List VmmCall} {s : Vmm}
    (image : InImage p4 kernelEnd)
    (run : Run (Careful p4) (bootVmm p4 rest memSize kernelEnd) calls s) :
    (∀ v, ∃ a b, vmmGetPhys p4 v s = some a ∧ pagingGetPhys p4 v s = some b ∧
      (a = b ↔ (Covered v → Mirrored s.mem v))) ∧
    ∀ v phys flags s', ¬ Covered v → flags < 4096 → Pool (missing s.mem (pathOf v) p4) s.pmm →
      vmmMap p4 v phys flags s = some (true, s') →
      vmmGetPhys p4 v s' = some (phys / 4096 * 4096 + v % 4096) ∧
      pagingGetPhys p4 v s' = some (phys / 4096 * 4096 + v % 4096) ∧
      (Canonical v → phys < 2 ^ 52 →
        translate s'.mem p4 v = some (phys / 4096 * 4096 + v % 4096)) := by
  have orderly : Orderly p4 s :=
    run.invariant (fun _ _ _ orderly step => careful_step orderly step) (boot_orderly image rest)
  obtain ⟨⟨role, tables⟩, -⟩ := orderly
  refine ⟨fun v => ?_, fun v phys flags s' uncovered plain low call => ?_⟩
  · by_cases covered : Covered v
    · refine ⟨_, _, vmmGetPhys_covered tables covered, pagingGetPhys_covered tables covered, ?_⟩
      rw [physOf_stray_iff]
      exact ⟨fun h _ => h, fun h => h covered⟩
    · exact ⟨_, _, vmmGetPhys_eq tables covered, pagingGetPhys_eq tables covered,
        fun _ h => absurd h covered, fun _ => rfl⟩
  · obtain ⟨done, s₁, role', call', ext, mapped⟩ :=
      vmmMap_spec phys flags tables uncovered low
    obtain ⟨rfl, rfl⟩ := Prod.mk.inj (Option.some.inj (call.symm.trans call'))
    have entry := mapped rfl
    have up : present (entryOf p4 s'.mem v) = true := by rw [entry, present_pageEntry]
    have page : entryOf p4 s'.mem v / 4096 = phys / 4096 := by rw [entry, pageEntry_div phys plain]
    have found : physOf (entryOf p4 s'.mem v) v = phys / 4096 * 4096 + v % 4096 := by
      rw [physOf, if_pos up, page]
    refine ⟨found ▸ vmmGetPhys_eq ext.tables uncovered,
      found ▸ pagingGetPhys_eq ext.tables uncovered, fun canonical below => ?_⟩
    obtain ⟨t, ends⟩ := exists_walk up
    have address : large 12 (entryOf p4 s'.mem v) v = phys / 4096 * 4096 + v % 4096 := by
      unfold large
      omega
    rw [translate_eq ext.tables uncovered canonical ends, if_pos up, address]

/-- A machine with four megabytes, whose kernel image ends at 0x110000; the rest of memory is 0. -/
def smallVmm : Vmm := bootVmm 264 (fun _ => 0) 0x400000 (kernelVirtBase + 0x110000)

theorem smallVmm_image : InImage 264 (kernelVirtBase + 0x110000) := ⟨by decide, by decide⟩

/-- The walkers on the boot page tables. -/
theorem walkers_agree_small :
    (∀ v, ∃ a b, vmmGetPhys 264 v smallVmm = some a ∧ pagingGetPhys 264 v smallVmm = some b ∧
      (a = b ↔ (Covered v → Mirrored smallVmm.mem v))) ∧
    ∀ v phys flags s', ¬ Covered v → flags < 4096 →
      Pool (missing smallVmm.mem (pathOf v) 264) smallVmm.pmm →
      vmmMap 264 v phys flags smallVmm = some (true, s') →
        vmmGetPhys 264 v s' = some (phys / 4096 * 4096 + v % 4096) ∧
        pagingGetPhys 264 v s' = some (phys / 4096 * 4096 + v % 4096) ∧
        (Canonical v → phys < 2 ^ 52 →
          translate s'.mem 264 v = some (phys / 4096 * 4096 + v % 4096)) :=
  walkers_agree_iff smallVmm_image (.nil _)

/-- On the boot page tables `vmm_get_phys` takes the word at physical address 8 for the entry of
0x1000. -/
theorem walkers_differ :
    vmmGetPhys 264 0x1000 smallVmm = some 0 ∧ pagingGetPhys 264 0x1000 smallVmm = some 0x1000 := by
  decide +kernel

/-! ## Mappings are separate -/

/-- Two addresses that differ in which of the two entries for `p3_table` they use. -/
def Alias (w v : ℕ) : Prop :=
  (index 3 w = 0 ∧ index 3 v = 511 ∨ index 3 w = 511 ∧ index 3 v = 0) ∧
    index 2 w = index 2 v ∧ index 1 w = index 1 v ∧ index 0 w = index 0 v

theorem keyOf_of_uncovered {v : ℕ} (uncovered : ¬ Covered v) :
    keyOf v = [if index 3 v = 511 then 0 else index 3 v, index 2 v, index 1 v] := by
  have other : ¬ ((index 3 v = 0 ∨ index 3 v = 511) ∧ index 2 v = 510) := fun window =>
    uncovered ⟨window.1, .inr window.2⟩
  rw [keyOf_eq, if_neg other]

theorem SameSlot.page_or_alias {w v : ℕ} (same : SameSlot w v) (canonical : Canonical w)
    (canonical' : Canonical v) (uncovered : ¬ Covered w) (uncovered' : ¬ Covered v) :
    w / 4096 = v / 4096 ∨ Alias w v := by
  obtain ⟨key, last⟩ := same
  rw [keyOf_of_uncovered uncovered, keyOf_of_uncovered uncovered'] at key
  obtain ⟨top, second, first, -⟩ : _ ∧ _ ∧ _ ∧ True := by simpa using key
  by_cases equal : index 3 w = index 3 v
  · refine .inl ?_
    unfold Canonical at canonical canonical'
    unfold index at equal second first last
    omega
  · refine .inr ⟨?_, second, first, last⟩
    split_ifs at top <;> omega

/-- Mapping `v` cannot change what is found at `w`: `w` is no alias of `v`, or, for a covered `w`, the
page in which `get_pte` looks for its entry is neither a table nor free to become one. -/
def Separate (p4 : ℕ) (s : Vmm) (w v : ℕ) : Prop :=
  if Covered w then
    s.pmm.bitmapTest (index 1 w * 512) = true ∧
      ∀ level, ¬ IsTable s.mem p4 level (index 1 w * 512)
  else ¬ Alias w v

theorem vmmGetPhys_of_extends {p4 w v : ℕ} {role role' : ℕ → Option (List ℕ)} {s s' : Vmm}
    (tables : Tables p4 role s) (ext : Extends p4 (SameSlot · v) role s role' s')
    (canonical : Canonical w) (canonical' : Canonical v) (uncovered : ¬ Covered v)
    (other : w / 4096 ≠ v / 4096) (separate : Separate p4 s w v) :
    vmmGetPhys p4 w s' = vmmGetPhys p4 w s := by
  by_cases covered : Covered w
  · rw [Separate, if_pos covered] at separate
    obtain ⟨used, noTable⟩ := separate
    have before : role (index 1 w * 512) = none := by
      cases place : role (index 1 w * 512) with
      | none => rfl
      | some k => exact absurd (tables.rooted _ k place) (noTable _)
    have after : role' (index 1 w * 512) = none := by
      cases place : role' (index 1 w * 512) with
      | none => rfl
      | some k =>
        rw [ext.fresh _ k before place] at used
        cases used
    have word := ext.outside _ after _ (index_lt 0 w)
    rw [vmmGetPhys_covered ext.tables covered, vmmGetPhys_covered tables covered, strayEntry,
      strayEntry, word]
  · rw [Separate, if_neg covered] at separate
    have apart : ¬ SameSlot w v := fun same =>
      (same.page_or_alias canonical canonical' covered uncovered).elim other separate
    rw [vmmGetPhys_eq ext.tables covered, vmmGetPhys_eq tables covered,
      ext.entries w covered apart]

/-- In every state that careful calls reach, `vmm_map` with tables in the first gigabyte and
`vmm_unmap` of a page return, and leave the translation of every separate page as it was. -/
theorem mapping_frame {p4 memSize kernelEnd : ℕ} {rest : ℕ → ℕ} {calls : List VmmCall} {s : Vmm}
    (image : InImage p4 kernelEnd)
    (run : Run (Careful p4) (bootVmm p4 rest memSize kernelEnd) calls s)
    {v : ℕ} (canonical : Canonical v) (uncovered : ¬ Covered v) :
    (Pool (missing s.mem (pathOf v) p4) s.pmm →
      ∀ phys flags, ∃ done s', vmmMap p4 v phys flags s = some (done, s') ∧
      ∀ w, Canonical w → w / 4096 ≠ v / 4096 → Separate p4 s w v →
        vmmGetPhys p4 w s' = vmmGetPhys p4 w s) ∧
    ∃ s', vmmUnmap p4 v s = some s' ∧
      ∀ w, Canonical w → w / 4096 ≠ v / 4096 → Separate p4 s w v →
        vmmGetPhys p4 w s' = vmmGetPhys p4 w s := by
  have orderly : Orderly p4 s :=
    run.invariant (fun _ _ _ orderly step => careful_step orderly step) (boot_orderly image rest)
  obtain ⟨⟨role, tables⟩, -⟩ := orderly
  constructor
  · intro low phys flags
    obtain ⟨done, s', role', call, ext, -⟩ := vmmMap_spec phys flags tables uncovered low
    exact ⟨done, s', call, fun w hw other separate =>
      vmmGetPhys_of_extends tables ext hw canonical uncovered other separate⟩
  · obtain ⟨s', call, ext⟩ := vmmUnmap_spec tables uncovered
    exact ⟨s', call, fun w hw other separate =>
      vmmGetPhys_of_extends tables ext hw canonical uncovered other separate⟩

/-- Mapping the page at one gigabyte, on the boot page tables. -/
theorem mapping_frame_small :
    Pool (missing smallVmm.mem (pathOf 0x40000000) 264) smallVmm.pmm ∧
    (∀ phys flags, ∃ done s', vmmMap 264 0x40000000 phys flags smallVmm = some (done, s') ∧
      ∀ w, Canonical w → w / 4096 ≠ 0x40000000 / 4096 → Separate 264 smallVmm w 0x40000000 →
        vmmGetPhys 264 w s' = vmmGetPhys 264 w smallVmm) ∧
    ∃ s', vmmUnmap 264 0x40000000 smallVmm = some s' ∧
      ∀ w, Canonical w → w / 4096 ≠ 0x40000000 / 4096 → Separate 264 smallVmm w 0x40000000 →
        vmmGetPhys 264 w s' = vmmGetPhys 264 w smallVmm := by
  have low : Pool (missing smallVmm.mem (pathOf 0x40000000) 264) smallVmm.pmm :=
    pool_of_small (by decide +kernel) _
  obtain ⟨map, unmap⟩ := mapping_frame smallVmm_image (.nil _) (v := 0x40000000) (by decide)
    (by decide)
  exact ⟨low, map low, unmap⟩

/-- Mapping the page at one gigabyte maps the page at 0xFFFFFF8040000000, too. -/
theorem mapping_shows_twice :
    vmmGetPhys 264 0xFFFFFF8040000000 smallVmm = some 0 ∧
      ((vmmMap 264 0x40000000 0x200000 3 smallVmm).map fun (done, s) =>
        (done, vmmGetPhys 264 0xFFFFFF8040000000 s)) = some (true, some 0x200000) := by
  decide +kernel

end Thuban.Mm

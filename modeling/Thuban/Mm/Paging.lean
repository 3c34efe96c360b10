import Thuban.Mm.Walkers

/-!
# Mapping single pages

`paging_map` and `paging_unmap` of `mm/paging.c` beside `paging_get_phys`.  They make no tables: a
level that is missing ends the call.  An entry holds the physical address between flags on both
sides, `PAGING_PRESENT` to `PAGING_GLOBAL` below and `PAGING_NX` in bit 63; `paging_get_phys` takes
off only those below.

`Located` says where the code finds the entry of an address.  It names the words of memory, not the
tables, so that it holds for any page tables and any way to reach them.
-/

namespace Thuban.Mm

open Lib Lib.Paging

/-- `PAGING_NX` -/
def pagingNx : ℕ := 2 ^ 63

/-- A combination of the flags of `paging.h`: those in bits 0 to 8, and `PAGING_NX`. -/
def IsFlags (flags : ℕ) : Prop := flags % pagingNx < 2 ^ 9 ∧ flags < 2 * pagingNx

variable (p4 : ℕ)

/-- The walk of `paging_map` and `paging_unmap`, and the store to the entry at its end. -/
def pagingStore (virt e : ℕ) (s : Vmm) : Option Vmm :=
  (s.load p4 (pml4 p4 + 8 * index 3 virt)).bind fun e₃ =>
    if !present e₃ then some s
    else
      (s.load p4 (tableOf e₃ + 8 * index 2 virt)).bind fun e₂ =>
        if !present e₂ then some s
        else
          (s.load p4 (tableOf e₂ + 8 * index 1 virt)).bind fun e₁ =>
            if !present e₁ then some s else s.store p4 (tableOf e₁ + 8 * index 0 virt) e

/-- `paging_map` -/
def pagingMap (virt phys flags : ℕ) (s : Vmm) : Option Vmm :=
  pagingStore p4 virt (pageEntry phys flags) s

/-- `paging_unmap` -/
def pagingUnmap (virt : ℕ) (s : Vmm) : Option Vmm := pagingStore p4 virt 0 s

/-- The word `w` is found at the address `a`, whatever the word `w₀` holds. -/
def Sees (mem : ℕ → ℕ) (w₀ a w : ℕ) : Prop :=
  ∀ e, translate (Function.update mem w₀ e) p4 a = some (8 * w)

/-- The upper three levels for `v` are the words `w₃`, `w₂` and `w₁`: present, and no large pages.  The
entry is the word `w₀`, and a store to it changes neither these words nor the way to them. -/
structure Located (v : ℕ) (mem : ℕ → ℕ) (w₃ w₂ w₁ w₀ : ℕ) : Prop where
  first : Sees p4 mem w₀ (pml4 p4 + 8 * index 3 v) w₃
  second : Sees p4 mem w₀ (tableOf (mem w₃) + 8 * index 2 v) w₂
  third : Sees p4 mem w₀ (tableOf (mem w₂) + 8 * index 1 v) w₁
  last : Sees p4 mem w₀ (tableOf (mem w₁) + 8 * index 0 v) w₀
  up : present (mem w₃) = true ∧ present (mem w₂) = true ∧ present (mem w₁) = true
  small : huge (mem w₂) = false ∧ huge (mem w₁) = false
  apart : w₃ ≠ w₀ ∧ w₂ ≠ w₀ ∧ w₁ ≠ w₀

variable {p4} {v w₃ w₂ w₁ w₀ a w : ℕ} {s : Vmm}

theorem Sees.load (sees : Sees p4 s.mem w₀ a w) : s.load p4 a = some (s.mem w) := by
  have here := sees (s.mem w₀)
  rw [Function.update_eq_self] at here
  rw [Vmm.load, here, Option.map_some, Nat.mul_div_cancel_left w (by decide)]

theorem Sees.store (sees : Sees p4 s.mem w₀ a w) (e : ℕ) :
    s.store p4 a e = some { s with mem := Function.update s.mem w e } := by
  have here := sees (s.mem w₀)
  rw [Function.update_eq_self] at here
  rw [Vmm.store, here, Option.map_some, Nat.mul_div_cancel_left w (by decide)]

theorem Sees.update {mem : ℕ → ℕ} (sees : Sees p4 mem w₀ a w) (e : ℕ) :
    Sees p4 (Function.update mem w₀ e) w₀ a w := by
  intro e'
  rw [Function.update_idem]
  exact sees e'

namespace Located

theorem update {mem : ℕ → ℕ} (located : Located p4 v mem w₃ w₂ w₁ w₀) (e : ℕ) :
    Located p4 v (Function.update mem w₀ e) w₃ w₂ w₁ w₀ := by
  obtain ⟨apart₃, apart₂, apart₁⟩ := located.apart
  have e₃ : Function.update mem w₀ e w₃ = mem w₃ := Function.update_of_ne apart₃ ..
  have e₂ : Function.update mem w₀ e w₂ = mem w₂ := Function.update_of_ne apart₂ ..
  have e₁ : Function.update mem w₀ e w₁ = mem w₁ := Function.update_of_ne apart₁ ..
  refine ⟨located.first.update e, ?_, ?_, ?_, ?_, ?_, located.apart⟩
  · rw [e₃]
    exact located.second.update e
  · rw [e₂]
    exact located.third.update e
  · rw [e₁]
    exact located.last.update e
  · rw [e₃, e₂, e₁]
    exact located.up
  · rw [e₂, e₁]
    exact located.small

section

variable (located : Located p4 v s.mem w₃ w₂ w₁ w₀)

include located

theorem pagingStore (e : ℕ) :
    pagingStore p4 v e s = some { s with mem := Function.update s.mem w₀ e } := by
  obtain ⟨up₃, up₂, up₁⟩ := located.up
  simp [Mm.pagingStore, located.first.load, located.second.load, located.third.load,
    located.last.store, up₃, up₂, up₁]

theorem pagingGetPhys : pagingGetPhys p4 v s = some (physOf (s.mem w₀) v) := by
  obtain ⟨up₃, up₂, up₁⟩ := located.up
  obtain ⟨small₂, small₁⟩ := located.small
  simp [Mm.pagingGetPhys, located.first.load, located.second.load, located.third.load,
    located.last.load, up₃, up₂, up₁, small₂, small₁, physOf]

theorem pagingGetPhys_store (e : ℕ) :
    Mm.pagingGetPhys p4 v { s with mem := Function.update s.mem w₀ e } = some (physOf e v) := by
  have here : Function.update s.mem w₀ e w₀ = e := Function.update_self ..
  have after := (located.update e).pagingGetPhys (s := { s with mem := Function.update s.mem w₀ e })
  exact after.trans (congrArg (fun e => some (physOf e v)) here)

end

end Located

theorem pageEntry_address {phys flags : ℕ} (small : phys < 2 ^ 52) (isFlags : IsFlags flags) :
    pageEntry phys flags / 4096 * 4096 =
      phys / 4096 * 4096 + if pagingNx ≤ flags then pagingNx else 0 := by
  obtain ⟨low, high⟩ := isFlags
  unfold pagingNx at *
  rw [pageEntry_div_or]
  split_ifs with nx
  · have top : flags / 4096 = 2 ^ 51 := by omega
    have page : phys / 4096 < 2 ^ 51 := by omega
    have apart : phys / 4096 ||| 2 ^ 51 = 2 ^ 51 + phys / 4096 := by
      rw [Nat.or_comm]
      simpa using (Nat.two_pow_add_eq_or_of_lt page 1).symm
    rw [top, apart]
    omega
  · have top : flags / 4096 = 0 := by omega
    rw [top, Nat.or_zero, Nat.add_zero]

/-! ## In the page tables of the virtual memory manager -/

theorem BootMapped.sees {t i : ℕ} {mem : ℕ → ℕ} (boot : ∀ e, BootMapped p4 (Function.update mem w₀ e))
    (low : t < 2 ^ 18) (hi : i < 512) : Sees p4 mem w₀ (tableAddr t + 8 * i) (Radix.slot 512 t i) := by
  intro e
  have address : tableAddr t + 8 * i = t * 4096 + 8 * i + kernelVirtBase := by
    unfold tableAddr
    omega
  have word : t * 4096 + 8 * i = 8 * Radix.slot 512 t i := by
    unfold Radix.slot
    omega
  rw [address, (boot e).translate_low (by omega), word]

/-- In every state of the virtual memory manager the entry of a page that has a table is located. -/
theorem Tables.located {t : ℕ} {role : ℕ → Option (List ℕ)} (tables : Tables p4 role s)
    (uncovered : ¬ Covered v) (ends : Radix.walk 512 decode s.mem (pathOf v) p4 = some t) :
    ∃ w₃ w₂ w₁, Located p4 v s.mem w₃ w₂ w₁ (Radix.slot 512 t (index 0 v)) := by
  obtain ⟨inner₃, h₃, inner₂, h₂, inner₁, h₁, -⟩ := descends_pathOf uncovered
  have key₀ := tables.walk_key uncovered ends
  have low₀ := tables.low _ _ key₀
  have h₀ := index_lt 0 v
  have boot : ∀ e, BootMapped p4 (Function.update s.mem (Radix.slot 512 t (index 0 v)) e) := by
    intro e
    obtain ⟨s', stored, after, -⟩ := store_entry tables uncovered ends e
    rw [tables.boot.store_table low₀ h₀] at stored
    have same : Function.update s.mem (Radix.slot 512 t (index 0 v)) e = s'.mem :=
      congrArg Vmm.mem (Option.some.inj stored)
    rw [same]
    exact after.tables.boot
  obtain ⟨t₂, next₃, ends₂⟩ := Option.bind_eq_some_iff.mp ends
  obtain ⟨t₁, next₂, ends₁⟩ := Option.bind_eq_some_iff.mp ends₂
  obtain ⟨t₀, next₁, ends₀⟩ := Option.bind_eq_some_iff.mp ends₁
  obtain rfl := Option.some.inj ends₀
  have key₂ := tables.tree _ _ tables.root inner₃ _ h₃ _ next₃
  have key₁ := tables.tree _ _ key₂ inner₂ _ h₂ _ next₂
  have link₃ := tables.link _ _ tables.root inner₃ _ h₃ _ next₃
  have link₂ := tables.link _ _ key₂ inner₂ _ h₂ _ next₂
  have link₁ := tables.link _ _ key₁ inner₁ _ h₁ _ next₁
  -- The table of the entry is on the lowest level, so that it is none of the tables above it.
  have other : ∀ {u k i}, role u = some k → Inner k → i < 512 →
      Radix.slot 512 u i ≠ Radix.slot 512 t₀ (index 0 v) := by
    intro u k i place inner hi same
    obtain ⟨rfl, -⟩ := Radix.slot_inj hi h₀ same
    rw [key₀] at place
    exact not_inner_keyOf v (Option.some.inj place ▸ inner)
  refine ⟨Radix.slot 512 p4 (index 3 v), Radix.slot 512 t₂ (index 2 v),
    Radix.slot 512 t₁ (index 1 v), ?_, ?_, ?_, ?_, ?_, ?_, ?_⟩
  · exact BootMapped.sees boot (tables.low _ _ tables.root) h₃
  · rw [link₃, tableOf_link (tables.low _ _ key₂)]
    exact BootMapped.sees boot (tables.low _ _ key₂) h₂
  · rw [link₂, tableOf_link (tables.low _ _ key₁)]
    exact BootMapped.sees boot (tables.low _ _ key₁) h₁
  · rw [link₁, tableOf_link low₀]
    exact BootMapped.sees boot low₀ h₀
  · rw [link₃, link₂, link₁]
    exact ⟨present_link _, present_link _, present_link _⟩
  · rw [link₂, link₁]
    exact ⟨huge_link _, huge_link _⟩
  · exact ⟨other tables.root inner₃ h₃, other key₂ inner₂ h₂, other key₁ inner₁ h₁⟩

/-- After `paging_map`, `paging_get_phys` returns the address that was mapped if and only if the flags
do not contain `PAGING_NX`; after `paging_unmap` it returns 0. -/
theorem map_get_phys_iff (located : Located p4 v s.mem w₃ w₂ w₁ w₀) {phys flags : ℕ}
    (small : phys < 2 ^ 52) (isFlags : IsFlags flags) :
    ∃ s₁ s₂, pagingMap p4 v phys flags s = some s₁ ∧ pagingUnmap p4 v s₁ = some s₂ ∧
      (pagingGetPhys p4 v s₁ = some (phys / 4096 * 4096 + v % 4096) ↔ flags < pagingNx) ∧
      pagingGetPhys p4 v s₂ = some 0 := by
  set e := pageEntry phys flags with he
  have after := located.update e
  refine ⟨{ s with mem := Function.update s.mem w₀ e }, _, located.pagingStore e,
    after.pagingStore (s := { s with mem := Function.update s.mem w₀ e }) 0, ?_, ?_⟩
  · rw [located.pagingGetPhys_store e, he, physOf, present_pageEntry, if_pos rfl,
      pageEntry_address small isFlags]
    have top : 0 < pagingNx := by decide
    split_ifs with nx
    · simp only [Option.some.injEq]
      omega
    · simp only [Option.some.injEq]
      omega
  · exact after.pagingGetPhys_store (s := { s with mem := Function.update s.mem w₀ e }) 0

/-- The small machine after the page at one gigabyte was mapped. -/
def mappedVmm : Vmm := ((vmmMap 264 0x40000000 0x200000 3 smallVmm).map Prod.snd).getD smallVmm

theorem located_mapped :
    ∃ w₃ w₂ w₁ w₀, Located 264 0x40000000 mappedVmm.mem w₃ w₂ w₁ w₀ := by
  have tables : Tables 264 (bootRole 264) smallVmm := boot_tables smallVmm_image fun _ => 0
  have uncovered : ¬ Covered 0x40000000 := by decide
  obtain ⟨done, s, role, mapped, after, entry⟩ :=
    vmmMap_spec 0x200000 3 tables uncovered (pool_of_small (by decide +kernel) _)
  have here : mappedVmm = s := by
    rw [mappedVmm, mapped]
    rfl
  have finished : done = true := by
    have answer : (vmmMap 264 0x40000000 0x200000 3 smallVmm).map Prod.fst = some true := by
      decide +kernel
    rw [mapped] at answer
    exact Option.some.inj answer
  have up : present (entryOf 264 s.mem 0x40000000) = true := by
    rw [entry finished]
    exact present_pageEntry ..
  obtain ⟨t, ends⟩ := exists_walk up
  obtain ⟨w₃, w₂, w₁, located⟩ := after.tables.located uncovered ends
  rw [here]
  exact ⟨w₃, w₂, w₁, _, located⟩

/-- The page at one gigabyte is mapped to another one, and unmapped. -/
theorem map_get_phys_mapped : ∃ s₁ s₂,
    pagingMap 264 0x40000000 0x201000 3 mappedVmm = some s₁ ∧
      pagingUnmap 264 0x40000000 s₁ = some s₂ ∧
      (pagingGetPhys 264 0x40000000 s₁ = some 0x201000 ↔ 3 < pagingNx) ∧
      pagingGetPhys 264 0x40000000 s₂ = some 0 := by
  obtain ⟨w₃, w₂, w₁, w₀, located⟩ := located_mapped
  exact map_get_phys_iff located (by decide) ⟨by decide, by decide⟩

/-- With `PAGING_NX` the physical address is returned with bit 63 set. -/
theorem nx_in_address :
    (∃ w₃ w₂ w₁ w₀, Located 264 0x40000000 mappedVmm.mem w₃ w₂ w₁ w₀) ∧
      IsFlags (3 + pagingNx) ∧
      ((pagingMap 264 0x40000000 0x201000 (3 + pagingNx) mappedVmm).map
        (pagingGetPhys 264 0x40000000)) = some (some (0x201000 + pagingNx)) :=
  ⟨located_mapped, ⟨by decide, by decide⟩, by decide +kernel⟩

end Thuban.Mm

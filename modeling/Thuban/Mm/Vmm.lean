import Thuban.Lib.Paging
import Thuban.Mm.Pmm

/-!
# The virtual memory manager

`mm/vmm.c` and the page walker of `mm/paging.c`, over the page tables that `boot.s` sets up.  The
code reaches the tables at virtual addresses, so each of its loads and stores goes through the
address translation of the processor; `none` is a page fault.  `p4` is the page of `p4_table`, which
`p3_table` and `p2_table` follow.

Physical memory is a map from word numbers to 64-bit words.  `x & ~0xFFF` is written
`x / 4096 * 4096`, and `|` of numbers without a common bit is written `+`.  Locks and messages are
left out; `invlpg` keeps the processor from using old entries.
-/

namespace Thuban.Mm

open Lib Lib.Paging

/-- Physical memory, the physical memory manager and the static variable of `mm/vmm.c`. -/
structure Vmm where
  mem : ℕ → ℕ
  pmm : Pmm
  nextVirtAddr : ℕ

variable (p4 : ℕ)

namespace Vmm

def load (s : Vmm) (v : ℕ) : Option ℕ := (translate s.mem p4 v).map fun a => s.mem (a / 8)

def store (s : Vmm) (v x : ℕ) : Option Vmm :=
  (translate s.mem p4 v).map fun a => { s with mem := Function.update s.mem (a / 8) x }

/-- `memset` of a page to 0. -/
def clearPage (s : Vmm) (v : ℕ) : Option Vmm :=
  (translate s.mem p4 v).map fun a =>
    { s with mem := fun w => if a / 8 ≤ w ∧ w < a / 8 + 512 then 0 else s.mem w }

end Vmm

def tableOf (e : ℕ) : ℕ := (e / 4096 * 4096 + kernelVirtBase) % 2 ^ 64

/-- The address of `p4_table`. -/
def pml4 : ℕ := p4 * 4096 + kernelVirtBase

/-- One level of `get_pte`: the table that index `i` of a table leads to, made on demand. -/
def descend (create : Bool) (table i : ℕ) (s : Vmm) : Option (Option ℕ × Vmm) :=
  (s.load p4 (table + 8 * i)).bind fun e =>
    if present e then some (some (tableOf e), s)
    else if !create then some (none, s)
    else
      match s.pmm.alloc with
      | (none, pmm) => some (none, { s with pmm })
      | (some page, pmm) =>
          (Vmm.clearPage p4 { s with pmm } ((page + kernelVirtBase) % 2 ^ 64)).bind fun s =>
            (s.store p4 (table + 8 * i) (page + 3)).bind fun s =>
              (s.load p4 (table + 8 * i)).map fun e => (some (tableOf e), s)

/-- The levels of `get_pte`, one index after another. -/
def walkTables (create : Bool) : List ℕ → (table : ℕ) → Vmm → Option (Option ℕ × Vmm)
  | [], table, s => some (some table, s)
  | i :: is, table, s =>
      (descend p4 create table i s).bind fun
        | (none, s) => some (none, s)
        | (some table, s) => walkTables create is table s

/-- `get_pte`: the address of the entry for a page. -/
def getPte (virt : ℕ) (create : Bool) (s : Vmm) : Option (Option ℕ × Vmm) :=
  (walkTables p4 create [index 3 virt, index 2 virt, index 1 virt] (pml4 p4) s).map
    fun (table, s) => (table.map (· + 8 * index 0 virt), s)

def pageEntry (phys flags : ℕ) : ℕ := phys / 4096 * 4096 ||| flags ||| 1

/-- `vmm_map`; the result says whether the page was mapped. -/
def vmmMap (virt phys flags : ℕ) (s : Vmm) : Option (Bool × Vmm) :=
  (getPte p4 virt true s).bind fun
    | (none, s) => some (false, s)
    | (some pte, s) => (s.store p4 pte (pageEntry phys flags)).map fun s => (true, s)

/-- `vmm_unmap` -/
def vmmUnmap (virt : ℕ) (s : Vmm) : Option Vmm :=
  (getPte p4 virt false s).bind fun
    | (none, s) => some s
    | (some pte, s) => s.store p4 pte 0

/-- The loop of `vmm_alloc` with `n` pages to go; the result says whether it came to its end. -/
def mapRange (phys flags : ℕ) : (n i : ℕ) → Vmm → Option (Bool × Vmm)
  | 0, _, s => some (true, s)
  | n + 1, i, s =>
      (getPte p4 ((s.nextVirtAddr + i * 4096) % 2 ^ 64) true s).bind fun
        | (none, s) => some (false, s)
        | (some pte, s) =>
            (s.store p4 pte (pageEntry (phys + i * 4096) flags)).bind (mapRange phys flags n (i + 1))

/-- `vmm_alloc` -/
def vmmAlloc (pages flags : ℕ) (s : Vmm) : Option (Option ℕ × Vmm) :=
  match s.pmm.allocPages pages with
  | (none, pmm) => some (none, { s with pmm })
  | (some phys, pmm) =>
      (mapRange p4 phys flags pages 0 { s with pmm }).map fun
        | (false, s) => (none, { s with pmm := s.pmm.freePages phys pages })
        | (true, s) =>
            (some s.nextVirtAddr,
              { s with nextVirtAddr := (s.nextVirtAddr + pages * 4096) % 2 ^ 64 })

/-- The loop of `vmm_free` with `n` pages to go. -/
def freeRange (virt : ℕ) : (n i : ℕ) → Vmm → Option Vmm
  | 0, _, s => some s
  | n + 1, i, s =>
      (getPte p4 ((virt + i * 4096) % 2 ^ 64) false s).bind fun
        | (none, s) => freeRange virt n (i + 1) s
        | (some pte, s) =>
            (s.load p4 pte).bind fun e =>
              if present e then
                (Vmm.store p4 { s with pmm := s.pmm.free (e / 4096 * 4096) } pte 0).bind
                  (freeRange virt n (i + 1))
              else freeRange virt n (i + 1) s

/-- `vmm_free` -/
def vmmFree (virt pages : ℕ) (s : Vmm) : Option Vmm := freeRange p4 virt pages 0 s

/-- `vmm_get_phys` -/
def vmmGetPhys (virt : ℕ) (s : Vmm) : Option ℕ :=
  (getPte p4 virt false s).bind fun
    | (none, _) => some 0
    | (some pte, s) =>
        (s.load p4 pte).map fun e => if present e then e / 4096 * 4096 + virt % 4096 else 0

/-- `paging_get_phys` -/
def pagingGetPhys (virt : ℕ) (s : Vmm) : Option ℕ :=
  (s.load p4 (pml4 p4 + 8 * index 3 virt)).bind fun e₃ =>
    if !present e₃ then some 0
    else
      (s.load p4 (tableOf e₃ + 8 * index 2 virt)).bind fun e₂ =>
        if !present e₂ then some 0
        else if huge e₂ then some (e₂ / 2 ^ 30 * 2 ^ 30 + virt % 2 ^ 30)
        else
          (s.load p4 (tableOf e₂ + 8 * index 1 virt)).bind fun e₁ =>
            if !present e₁ then some 0
            else if huge e₁ then some (e₁ / 2 ^ 21 * 2 ^ 21 + virt % 2 ^ 21)
            else
              (s.load p4 (tableOf e₁ + 8 * index 0 virt)).map fun e₀ =>
                if present e₀ then e₀ / 4096 * 4096 + virt % 4096 else 0

/-- The page tables of `boot.s`, with any contents of the rest of memory. -/
def bootTables (rest : ℕ → ℕ) : ℕ → ℕ := fun w =>
  let i := w % 512
  if w / 512 = p4 then if i = 0 ∨ i = 511 then (p4 + 1) * 4096 + 0b11 else 0
  else if w / 512 = p4 + 1 then if i = 0 ∨ i = 510 then (p4 + 2) * 4096 + 0b11 else 0
  else if w / 512 = p4 + 2 then i * 0x200000 + 0b10000011
  else rest w

/-- The first address that `vmm_alloc` hands out. -/
def virtBase : ℕ := 0xFFFFFFFFC0000000

/-- The state after `pmm_init`, before the first call of the virtual memory manager. -/
def bootVmm (rest : ℕ → ℕ) (memSize kernelEnd : ℕ) : Vmm where
  mem := bootTables p4 rest
  pmm := Pmm.init memSize kernelEnd
  nextVirtAddr := virtBase

end Thuban.Mm

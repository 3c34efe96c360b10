import Thuban.Heap.Model
import Thuban.Lib.DoublyLinked

/-!
# The heap as it lies in memory

`mm/heap.c` once more, one level below `Heap.State`: block headers are bytes of the memory that also
holds the payloads, the list exists only through their `next` and `prev` fields, and whatever
writes past a payload writes into a header.  `Holds` reads the list of blocks off the memory.

A header has its `magic` at offset 0, `size` at 8, `free` at 16, `next` at 24 and `prev` at 32.
-/

namespace Thuban.Heap

open Lib

/-! ## Headers -/

/-- The fields of a `heap_block_t`. -/
structure Header where
  magic : ℕ
  size : ℕ
  free : ℕ
  next : ℕ
  prev : ℕ
  deriving DecidableEq

/-- The header at address `a`. -/
def header (m : Bytes) (a : ℕ) : Header where
  magic := m.le32 a
  size := m.le64 (a + 8)
  free := m.le32 (a + 16)
  next := m.le64 (a + 24)
  prev := m.le64 (a + 32)

inductive Field
  | magic | size | free | next | prev

/-- A header with a new value in one field; the fields have 4 and 8 bytes. -/
def Header.set (x : Header) : Field → ℕ → Header
  | .magic, v => { x with magic := v % 2 ^ 32 }
  | .size, v => { x with size := v % 2 ^ 64 }
  | .free, v => { x with free := v % 2 ^ 32 }
  | .next, v => { x with next := v % 2 ^ 64 }
  | .prev, v => { x with prev := v % 2 ^ 64 }

/-- The assignment of `v` to a field of the header at `a`. -/
def setField (m : Bytes) (a : ℕ) : Field → ℕ → Bytes
  | .magic, v => m.put32 a v
  | .size, v => m.put64 (a + 8) v
  | .free, v => m.put32 (a + 16) v
  | .next, v => m.put64 (a + 24) v
  | .prev, v => m.put64 (a + 32) v

/-- The headers at two addresses do not overlap. -/
def Clear (a b : ℕ) : Prop := a + headerSize ≤ b ∨ b + headerSize ≤ a

theorem Clear.symm {a b : ℕ} (clear : Clear a b) : Clear b a := Or.symm clear

theorem header_congr {m m' : Bytes} {a : ℕ} (same : ∀ j < headerSize, m' (a + j) = m (a + j)) :
    header m' a = header m a := by
  have word32 (i : ℕ) (hi : i + 4 ≤ 40) : m'.le32 (a + i) = m.le32 (a + i) := by
    apply Bytes.le32_congr
    intro j hj
    rw [Nat.add_assoc]
    exact same (i + j) (by simp only [headerSize]; omega)
  have word64 (i : ℕ) (hi : i + 8 ≤ 40) : m'.le64 (a + i) = m.le64 (a + i) := by
    apply Bytes.le64_congr
    intro j hj
    rw [Nat.add_assoc]
    exact same (i + j) (by simp only [headerSize]; omega)
  have first := word32 0 (by omega)
  simp only [header, Nat.add_zero] at first ⊢
  rw [first, word64 8 (by omega), word32 16 (by omega), word64 24 (by omega), word64 32 (by omega)]

theorem header_setField (m : Bytes) (a : ℕ) (f : Field) (v : ℕ) :
    header (setField m a f v) a = (header m a).set f v := by
  cases f with
  | magic =>
    simp only [setField, header, Header.set, Bytes.le32_put32]
    rw [Bytes.le64_put32_apart _ _ (by omega), Bytes.le32_put32_apart _ _ (by omega),
      Bytes.le64_put32_apart _ _ (by omega), Bytes.le64_put32_apart _ _ (by omega)]
  | size =>
    simp only [setField, header, Header.set, Bytes.le64_put64]
    rw [Bytes.le32_put64_apart _ _ (by omega), Bytes.le32_put64_apart _ _ (by omega),
      Bytes.le64_put64_apart _ _ (by omega), Bytes.le64_put64_apart _ _ (by omega)]
  | free =>
    simp only [setField, header, Header.set, Bytes.le32_put32]
    rw [Bytes.le32_put32_apart _ _ (by omega), Bytes.le64_put32_apart _ _ (by omega),
      Bytes.le64_put32_apart _ _ (by omega), Bytes.le64_put32_apart _ _ (by omega)]
  | next =>
    simp only [setField, header, Header.set, Bytes.le64_put64]
    rw [Bytes.le32_put64_apart _ _ (by omega), Bytes.le64_put64_apart _ _ (by omega),
      Bytes.le32_put64_apart _ _ (by omega), Bytes.le64_put64_apart _ _ (by omega)]
  | prev =>
    simp only [setField, header, Header.set, Bytes.le64_put64]
    rw [Bytes.le32_put64_apart _ _ (by omega), Bytes.le64_put64_apart _ _ (by omega),
      Bytes.le32_put64_apart _ _ (by omega), Bytes.le64_put64_apart _ _ (by omega)]

theorem setField_outside (m : Bytes) {a k : ℕ} (f : Field) (v : ℕ)
    (outside : k < a ∨ a + headerSize ≤ k) : setField m a f v k = m k := by
  simp only [headerSize] at outside
  cases f with
  | magic => exact Bytes.put32_outside _ _ _ _ (by omega)
  | size => exact Bytes.put64_outside _ _ _ _ (by omega)
  | free => exact Bytes.put32_outside _ _ _ _ (by omega)
  | next => exact Bytes.put64_outside _ _ _ _ (by omega)
  | prev => exact Bytes.put64_outside _ _ _ _ (by omega)

theorem header_setField_clear (m : Bytes) {a b : ℕ} (f : Field) (v : ℕ) (clear : Clear a b) :
    header (setField m a f v) b = header m b :=
  header_congr fun j hj => setField_outside m f v (by unfold Clear at clear; omega)

/-- The header at `a` as a block. -/
def blockAt (m : Bytes) (a : ℕ) : Block :=
  ⟨a, (header m a).magic, (header m a).size, decide ((header m a).free ≠ 0)⟩

/-- Subtraction in `size_t`. -/
def wrapSub (a b : ℕ) : ℕ := wrap (a + 2 ^ 64 - b)

/-- The memory, the variables of `heap.c`, the memory the heap was given, and how often
`expand_heap` was called. -/
structure Image where
  mem : Bytes
  /-- `heap_start` -/
  start : ℕ
  /-- `total_heap_size` -/
  total : ℕ
  /-- `used_heap_size` -/
  used : ℕ
  regions : List Region
  expandCalls : ℕ

/-- The memory manager hands out ever higher addresses, as `vmm_alloc` does by adding to
`next_virt_addr`. -/
def Vmm.Upward (v : Vmm) : Prop :=
  ∀ rs n a, v.alloc rs n = some a → ∀ r ∈ rs, r.base + r.len ≤ a

namespace Image

/-! ## The code -/

/-- The assignments with which `heap_init` and `expand_heap` make a free block of `size` bytes. -/
def newBlock (m : Bytes) (block size : ℕ) : Bytes :=
  let m := setField m block .magic heapMagic
  let m := setField m block .size size
  let m := setField m block .free 1
  let m := setField m block .next 0
  setField m block .prev 0

/-- `heap_init`, with `initial_heap` at address `base` of the memory `mem`. -/
def heapInit (base : ℕ) (mem : Bytes) : Image where
  mem := newBlock mem base (initialHeapSize - headerSize)
  start := base
  total := initialHeapSize
  used := headerSize
  regions := [⟨base, initialHeapSize⟩]
  expandCalls := 0

/-- The walk of `expand_heap` to the end of the list. -/
def lastBlock (m : Bytes) : ℕ → ℕ → Option ℕ
  | 0, _ => none
  | fuel + 1, current =>
      if (header m current).next ≠ 0 then lastBlock m fuel (header m current).next
      else some current

/-- `expand_heap`; `none` when the walk does not end within the fuel. -/
def expandHeap (v : Vmm) (fuel : ℕ) (h : Image) (needed : ℕ) : Option (Bool × Image) :=
  let pages := pagesFor needed
  match v.alloc h.regions pages with
  | none => some (false, { h with expandCalls := h.expandCalls + 1 })
  | some new =>
      let m := newBlock h.mem new (wrapSub (pages * 4096) headerSize)
      match lastBlock m fuel h.start with
      | none => none
      | some current =>
          let m := setField m current .next new
          let m := setField m new .prev current
          some (true, { h with
            mem := m
            total := wrap (h.total + pages * 4096)
            regions := h.regions ++ [⟨new, pages * 4096⟩]
            expandCalls := h.expandCalls + 1 })

/-- First half of `coalesce`. -/
def absorbNext (m : Bytes) (block : ℕ) : Bytes :=
  if (header m block).next ≠ 0 ∧ (header m (header m block).next).free ≠ 0 then
    let m := setField m block .size
      (wrap ((header m block).size + (headerSize + (header m (header m block).next).size)))
    let m := setField m block .next (header m (header m block).next).next
    if (header m block).next ≠ 0 then setField m (header m block).next .prev block else m
  else m

/-- Second half of `coalesce`. -/
def absorbIntoPrev (m : Bytes) (block : ℕ) : Bytes :=
  if (header m block).prev ≠ 0 ∧ (header m (header m block).prev).free ≠ 0 then
    let m := setField m (header m block).prev .size
      (wrap ((header m (header m block).prev).size + (headerSize + (header m block).size)))
    let m := setField m (header m block).prev .next (header m block).next
    if (header m block).next ≠ 0 then
      setField m (header m block).next .prev (header m block).prev
    else m
  else m

def coalesce (m : Bytes) (block : ℕ) : Bytes := absorbIntoPrev (absorbNext m block) block

/-- The outcome of the search loop of `malloc`. -/
inductive Walk
  | corrupt
  | found (current : ℕ)
  | exhausted
  deriving DecidableEq

/-- The search loop of `malloc`. -/
def walk (size : ℕ) (m : Bytes) : ℕ → ℕ → Option Walk
  | 0, _ => none
  | fuel + 1, current =>
      if current = 0 then some .exhausted
      else if (header m current).magic ≠ heapMagic then some .corrupt
      else if (header m current).free ≠ 0 ∧ size ≤ (header m current).size then
        some (.found current)
      else walk size m fuel (header m current).next

/-- Cut the block at `current` down to `size` bytes and link the rest behind it. -/
def split (size : ℕ) (m : Bytes) (current : ℕ) : Bytes :=
  let new := wrap (current + headerSize + size)
  let m := setField m new .magic heapMagic
  let m := setField m new .size (wrapSub (wrapSub (header m current).size size) headerSize)
  let m := setField m new .free 1
  let m := setField m new .next (header m current).next
  let m := setField m new .prev current
  let m := if (header m current).next ≠ 0 then setField m (header m current).next .prev new else m
  let m := setField m current .next new
  setField m current .size size

/-- What `malloc` does with the block it settles on. -/
def takeBlock (size : ℕ) (m : Bytes) (current : ℕ) : Bytes :=
  let m := if wrap (size + headerSize + 64) ≤ (header m current).size then split size m current
    else m
  setField m current .free 0

/-- `malloc` -/
def malloc (v : Vmm) : ℕ → Image → ℕ → Option (Option ℕ × Image)
  | 0, _, _ => none
  | fuel + 1, h, size =>
      if size = 0 then some (none, h)
      else match walk (alignUp size) h.mem (fuel + 1) h.start with
        | none => none
        | some .corrupt => some (none, h)
        | some (.found current) =>
            let m := takeBlock (alignUp size) h.mem current
            some (some (wrap (current + headerSize)), { h with
              mem := m
              used := wrap (h.used + ((header m current).size + headerSize)) })
        | some .exhausted => match expandHeap v (fuel + 1) h (alignUp size) with
            | none => none
            | some (false, h) => some (none, h)
            | some (true, h) => malloc v fuel h (alignUp size)

/-- How a call of `free` ends; the second and the third print a message. -/
inductive Release
  | null | invalid | doubleFree | done
  deriving DecidableEq

def blockOf (ptr : ℕ) : ℕ := wrapSub ptr headerSize

/-- `free` -/
def free (h : Image) (ptr : ℕ) : Release × Image :=
  let block := blockOf ptr
  if ptr = 0 then (.null, h)
  else if (header h.mem block).magic ≠ heapMagic then (.invalid, h)
  else if (header h.mem block).free ≠ 0 then (.doubleFree, h)
  else
    let m := setField h.mem block .free 1
    (.done, { h with
      mem := coalesce m block
      used := wrapSub h.used (wrap ((header m block).size + headerSize)) })

/-- `calloc`.  A `memset` that runs past the end of the address space meets pages that are not
mapped, and the call does not return. -/
def calloc (v : Vmm) (fuel : ℕ) (h : Image) (num size : ℕ) : Option (Option ℕ × Image) :=
  let total := wrap (num * size)
  match malloc v fuel h total with
  | none => none
  | some (none, h) => some (none, h)
  | some (some ptr, h) =>
      if 2 ^ 64 < ptr + total then none
      else some (some ptr, { h with mem := h.mem.fill ptr total 0 })

/-- `realloc`, with the byte-by-byte `memcpy` of `lib/string.c`. -/
def realloc (v : Vmm) (fuel : ℕ) (h : Image) (ptr size : ℕ) : Option (Option ℕ × Image) :=
  let block := blockOf ptr
  if ptr = 0 then malloc v fuel h size
  else if size = 0 then some (none, (free h ptr).2)
  else if (header h.mem block).magic ≠ heapMagic then some (none, h)
  else if size ≤ (header h.mem block).size then some (some ptr, h)
  else match malloc v fuel h size with
    | none => none
    | some (none, h) => some (none, h)
    | some (some new, h) =>
        let h := { h with mem := h.mem.copy new ptr (header h.mem block).size }
        some (some new, (free h ptr).2)

/-- `heap_get_total` -/
def heapGetTotal (h : Image) : ℕ := h.total

/-- `heap_get_used` -/
def heapGetUsed (h : Image) : ℕ := h.used

/-- `heap_get_free` -/
def heapGetFree (h : Image) : ℕ := wrapSub h.total h.used

/-! ## Runs -/

structure Holds (h : Image) (blocks : List Block) : Prop where
  linked : Linked (fun a => (header h.mem a).next) (fun a => (header h.mem a).prev) 0 h.start
    (blocks.map Block.addr)
  shown : ∀ b ∈ blocks, blockAt h.mem b.addr = b

/-- The blocks that the `next` pointers lead through, from address `a` on. -/
def Chain (m : Bytes) : ℕ → List Block → Prop
  | a, [] => a = 0
  | a, b :: rest => a ≠ 0 ∧ blockAt m a = b ∧ Chain m (header m a).next rest

/-- The list of the heap, whatever its `prev` pointers are. -/
def Lists (h : Image) (blocks : List Block) : Prop := Chain h.mem h.start blocks

def run (v : Vmm) (h : Image) : Call → ℕ → Option (Option ℕ × Image)
  | .malloc size, fuel => malloc v fuel h size
  | .calloc num size, fuel => calloc v fuel h num size
  | .realloc ptr size, fuel => realloc v fuel h ptr size
  | .free ptr, _ => some (none, (free h ptr).2)

end Image

/-- The heap, and the pointers that were handed out and not freed since. -/
structure Session where
  heap : Image
  out : List ℕ

namespace Session

/-- Only live pointers (or NULL) are freed or reallocated. -/
def Legal (s : Session) : Call → Prop
  | .malloc _ => True
  | .calloc _ _ => True
  | .realloc ptr _ => ptr = 0 ∨ ptr ∈ s.out
  | .free ptr => ptr = 0 ∨ ptr ∈ s.out

/-- The live pointers after a call that returned `r`.  A `realloc` that fails leaves the old pointer
live, unless it was asked for no memory at all. -/
def handOver (out : List ℕ) (r : Option ℕ) : Call → List ℕ
  | .malloc _ => r.toList ++ out
  | .calloc _ _ => r.toList ++ out
  | .realloc ptr size => if r = none ∧ size ≠ 0 then out else r.toList ++ out.erase ptr
  | .free ptr => out.erase ptr

/-- A client may store into the blocks it was given. -/
def Writable (s : Session) (a : ℕ) : Prop :=
  ∃ ptr ∈ s.out, ptr ≤ a ∧ a < ptr + (header s.heap.mem (Image.blockOf ptr)).size

/-- What happens to the heap: calls, and a client that stores a byte. -/
inductive Act
  | call (c : Call)
  | store (a : ℕ) (value : UInt8)

/-- One legal call, with some behaviour of the memory manager, or one store of a client. -/
inductive Step : Session → Act → Session → Prop
  | call {s : Session} {c : Call} {v : Vmm} {r : Option ℕ} {h : Image} (legal : s.Legal c)
      (upward : v.Upward) (done : Converges (s.heap.run v c) (r, h)) :
      Step s (.call c) ⟨h, handOver s.out r c⟩
  | store {s : Session} {a : ℕ} {value : UInt8} (writable : s.Writable a) :
      Step s (.store a value) { s with heap := { s.heap with mem := s.heap.mem.put a value } }

/-- After `heap_init`. -/
def start (base : ℕ) (mem : Bytes) : Session := ⟨Image.heapInit base mem, []⟩

end Session

end Thuban.Heap

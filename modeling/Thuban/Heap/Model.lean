import Thuban.Lib.Bytes
import Thuban.Lib.Fuel

/-!
# The kernel heap

`mm/heap.c`: a list of blocks, each a 40-byte header followed by its payload.  The list starts
with the static `initial_heap` and `expand_heap` appends the memory it gets from `vmm_alloc`.
`blocks` is the list in the order of the `next` pointers, kept apart from the bytes `mem` of the
payloads: `Heap.Memory` has the headers as bytes.  Headers that `coalesce` unlinks stay in memory
and are kept in `stale`.  `regions` records the memory the heap owns; no function reads
it to decide anything.
-/

namespace Thuban.Heap

open Lib

/-- `sizeof(heap_block_t)` -/
def headerSize : ℕ := 40

def heapMagic : ℕ := 0x48454150

def initialHeapSize : ℕ := 256 * 1024

/-- Arithmetic in `size_t`. -/
def wrap (n : ℕ) : ℕ := n % 2 ^ 64

structure Block where
  addr : ℕ
  magic : ℕ
  size : ℕ
  free : Bool
  deriving DecidableEq, Repr

namespace Block

/-- The pointer `malloc` hands out. -/
def payload (b : Block) : ℕ := b.addr + headerSize

def limit (b : Block) : ℕ := b.addr + headerSize + b.size

end Block

structure Region where
  base : ℕ
  len : ℕ
  deriving DecidableEq, Repr

structure State where
  blocks : List Block
  stale : List Block
  /-- `total_heap_size` -/
  total : ℕ
  /-- `used_heap_size` -/
  used : ℕ
  regions : List Region
  mem : Bytes

/-- The virtual memory manager as the heap sees it: a request for `n` pages either fails or
returns whole pages that overlap nothing the heap owns already. -/
structure Vmm where
  /-- `vmm_alloc` -/
  alloc : List Region → ℕ → Option ℕ
  none_of_zero : ∀ rs, alloc rs 0 = none
  pageAligned : ∀ rs n a, alloc rs n = some a → a % 4096 = 0 ∧ a ≠ 0
  noWrap : ∀ rs n a, alloc rs n = some a → a + n * 4096 ≤ 2 ^ 64
  fresh : ∀ rs n a, alloc rs n = some a → ∀ r ∈ rs, a + n * 4096 ≤ r.base ∨ r.base + r.len ≤ a

/-- `heap_init`, with `initial_heap` at address `base`. -/
def heapInit (base : ℕ) : State where
  blocks := [⟨base, heapMagic, initialHeapSize - headerSize, true⟩]
  stale := []
  total := initialHeapSize
  used := headerSize
  regions := [⟨base, initialHeapSize⟩]
  mem := fun _ => 0

/-- The number of pages `expand_heap` asks for. -/
def pagesFor (needed : ℕ) : ℕ := wrap (needed + headerSize + 4095) / 4096

/-- `expand_heap`: append one free block, or fail. -/
def expandHeap (v : Vmm) (h : State) (needed : ℕ) : Option State :=
  let pages := pagesFor needed
  match v.alloc h.regions pages with
  | none => none
  | some a => some { h with
      blocks := h.blocks ++ [⟨a, heapMagic, pages * 4096 - headerSize, true⟩]
      total := wrap (h.total + pages * 4096)
      regions := h.regions ++ [⟨a, pages * 4096⟩] }

/-- `(size + 15) & ~15` -/
def alignUp (size : ℕ) : ℕ := wrap (size + 15) / 16 * 16

/-- What `malloc` does with the free block it settles on: the block it returns, and the rest of
the old block when enough is left over. -/
def carve (size : ℕ) (b : Block) : Block × List Block :=
  if wrap (size + headerSize + 64) ≤ b.size then
    (⟨b.addr, b.magic, size, false⟩,
      [⟨b.addr + headerSize + size, heapMagic, b.size - size - headerSize, true⟩])
  else (⟨b.addr, b.magic, b.size, false⟩, [])

/-- The outcome of the walk over the list. -/
inductive Scan
  /-- A header without the magic number. -/
  | corrupt
  /-- The block taken and the new list. -/
  | taken (b : Block) (blocks : List Block)
  | exhausted

/-- First fit. -/
def scan (size : ℕ) : List Block → Scan
  | [] => .exhausted
  | b :: rest =>
      if b.magic ≠ heapMagic then .corrupt
      else if b.free = true ∧ size ≤ b.size then
        .taken (carve size b).1 ((carve size b).1 :: ((carve size b).2 ++ rest))
      else match scan size rest with
        | .taken c blocks => .taken c (b :: blocks)
        | other => other

/-- `malloc`.  After an expansion it starts over with the rounded size. -/
def malloc (v : Vmm) : ℕ → State → ℕ → Option (Option ℕ × State)
  | 0, _, _ => none
  | fuel + 1, h, size =>
      if size = 0 then some (none, h)
      else match scan (alignUp size) h.blocks with
        | .corrupt => some (none, h)
        | .taken b blocks => some (some b.payload,
            { h with blocks := blocks, used := wrap (h.used + (b.size + headerSize)) })
        | .exhausted => match expandHeap v h (alignUp size) with
            | none => some (none, h)
            | some larger => malloc v fuel larger (alignUp size)

/-- The header a pointer's address arithmetic finds: one in the list, or one `coalesce` left. -/
def headerAt (h : State) (a : ℕ) : Option Block :=
  (h.blocks ++ h.stale).find? fun b => b.addr = a

/-- First half of `coalesce`: absorb a free successor. -/
def mergeNext (b : Block) : List Block → Block × List Block × List Block
  | [] => (b, [], [])
  | n :: rest =>
      if n.free = true then
        ({ b with size := wrap (b.size + (headerSize + n.size)) }, rest, [n])
      else (b, n :: rest, [])

/-- Second half of `coalesce`: be absorbed by a free predecessor. -/
def mergePrev (before : List Block) (b : Block) : List Block × List Block :=
  match before.getLast? with
  | none => ([b], [])
  | some p =>
      if p.free = true then
        (before.dropLast ++ [{ p with size := wrap (p.size + (headerSize + b.size)) }], [b])
      else (before ++ [b], [])

/-- `coalesce`, on the block at address `a`.  Neither half looks at the addresses of the blocks
it joins. -/
def coalesce (h : State) (a : ℕ) : State :=
  match h.blocks.dropWhile fun b => b.addr ≠ a with
  | [] => h
  | b :: after =>
      let before := h.blocks.takeWhile fun b => b.addr ≠ a
      let next := mergeNext b after
      let prev := mergePrev before next.1
      { h with blocks := prev.1 ++ next.2.1, stale := prev.2 ++ next.2.2 ++ h.stale }

/-- Set the `free` flag of the header at `a`. -/
def markFree (a : ℕ) (blocks : List Block) : List Block :=
  blocks.map fun b => if b.addr = a then { b with free := true } else b

/-- `free` -/
def free (h : State) (ptr : ℕ) : State :=
  if ptr = 0 then h
  else match headerAt h (ptr - headerSize) with
    | none => h
    | some b =>
        if b.magic ≠ heapMagic then h
        else if b.free = true then h
        else coalesce { h with
          blocks := markFree b.addr h.blocks
          used := wrap (h.used + 2 ^ 64 - (b.size + headerSize)) } b.addr

/-- `calloc` -/
def calloc (v : Vmm) (fuel : ℕ) (h : State) (num size : ℕ) : Option (Option ℕ × State) :=
  match malloc v fuel h (wrap (num * size)) with
  | none => none
  | some (none, h') => some (none, h')
  | some (some p, h') => some (some p, { h' with mem := h'.mem.fill p (wrap (num * size)) 0 })

/-- `realloc`.  The old block's size is read again after the new block has been found. -/
def realloc (v : Vmm) (fuel : ℕ) (h : State) (ptr size : ℕ) : Option (Option ℕ × State) :=
  if ptr = 0 then malloc v fuel h size
  else if size = 0 then some (none, free h ptr)
  else match headerAt h (ptr - headerSize) with
    | none => some (none, h)
    | some b =>
        if b.magic ≠ heapMagic then some (none, h)
        else if size ≤ b.size then some (some ptr, h)
        else match malloc v fuel h size with
          | none => none
          | some (none, h') => some (none, h')
          | some (some q, h') =>
              let len := ((headerAt h' (ptr - headerSize)).map Block.size).getD 0
              some (some q, free { h' with mem := h'.mem.blit q h'.mem ptr len } ptr)

/-- `heap_get_total` -/
def heapGetTotal (h : State) : ℕ := h.total

/-- `heap_get_used` -/
def heapGetUsed (h : State) : ℕ := h.used

/-- `heap_get_free` -/
def heapGetFree (h : State) : ℕ := wrap (h.total + 2 ^ 64 - h.used)

inductive Call
  | malloc (size : ℕ)
  | calloc (num size : ℕ)
  | realloc (ptr size : ℕ)
  | free (ptr : ℕ)

def Call.run (v : Vmm) (h : State) : Call → ℕ → Option (Option ℕ × State)
  | .malloc size, fuel => Heap.malloc v fuel h size
  | .calloc num size, fuel => Heap.calloc v fuel h num size
  | .realloc ptr size, fuel => Heap.realloc v fuel h ptr size
  | .free ptr, _ => some (none, Heap.free h ptr)

/-- `ptr` was handed out and not freed since. -/
def Live (h : State) (ptr : ℕ) : Prop := ∃ b ∈ h.blocks, b.free = false ∧ b.payload = ptr

/-- Only live pointers (or NULL) are freed or reallocated. -/
def Call.Legal (h : State) : Call → Prop
  | .malloc _ => True
  | .calloc _ _ => True
  | .realloc ptr _ => ptr = 0 ∨ Live h ptr
  | .free ptr => ptr = 0 ∨ Live h ptr

/-- One legal call, with some behaviour of the virtual memory manager. -/
def Step (h : State) (c : Call) (h' : State) : Prop :=
  c.Legal h ∧ ∃ v r, Converges (c.run v h) (r, h')

end Thuban.Heap

import Thuban.Lib.Bytes

/-!
# The world of the file system code

What `fs/` sees of the rest of the kernel: the block layer (`kernel/disk/blkdev.c`) over a set of
devices, and the allocator seen from outside, as a ledger of live objects.  Which driver call and
which `malloc` fail is input: the two failure lists give the outcomes of the coming calls.

The numbers that the ledger hands out name allocations, not addresses: `mm/heap.c` may place an
allocation where a freed one has been, and then two numbers stand for one address.  Pointers to live
objects differ as their numbers do.  What a pointer to a freed object shows is not known here; the
code that follows such pointers gets arbitrary contents (`Vfs.ruins`).
-/

namespace Thuban

open Lib (Bytes)

def sectorSize : ℕ := 512

/-- `struct block_device` with its medium.  `faults` holds the outcomes of the coming driver calls,
`true` for a failure, and the driver never fails once it is empty; `log` lists the sectors passed to
`blkdev_write`, the latest first. -/
structure BlockDevice where
  totalSectors : ℕ
  present : Bool
  readonly : Bool
  bytes : Bytes
  faults : List Bool
  log : List ℕ

def BlockDevice.respond (d : BlockDevice) : Bool × BlockDevice :=
  match d.faults with
  | [] => (true, d)
  | failed :: later => (!failed, { d with faults := later })

theorem BlockDevice.respond_bytes (d : BlockDevice) : d.respond.2.bytes = d.bytes := by
  unfold respond
  split <;> rfl

/-- The allocator from outside.  `oom` holds the outcomes of the coming calls of `malloc`, `true`
for a failure; `misfreed` collects the pointers passed to `free` that were not live; `junk` is what
a fresh buffer contains. -/
structure Ledger where
  next : ℕ
  live : List ℕ
  misfreed : List ℕ
  oom : List Bool
  junk : Bytes

structure World where
  devs : ℕ → BlockDevice
  heap : Ledger

namespace World

def setDev (w : World) (dev : ℕ) (d : BlockDevice) : World :=
  { w with devs := Function.update w.devs dev d }

/-- `malloc`. -/
def malloc (w : World) (size : ℕ) : Option ℕ × World :=
  if size = 0 then (none, w)
  else
    match w.heap.oom with
    | true :: later => (none, { w with heap := { w.heap with oom := later } })
    | outcomes =>
        (some w.heap.next,
          { w with heap := { w.heap with
              next := w.heap.next + 1
              live := w.heap.next :: w.heap.live
              oom := outcomes.tail } })

/-- `free` of a pointer that is not NULL. -/
def free (w : World) (p : ℕ) : World :=
  if p ∈ w.heap.live then { w with heap := { w.heap with live := w.heap.live.erase p } }
  else { w with heap := { w.heap with misfreed := p :: w.heap.misfreed } }

/-- `blkdev_read` into `buf` at `pos`: the buffer after the call, or `none` for an error. -/
def blkdevRead (w : World) (dev sector count : ℕ) (buf : Bytes) (pos : ℕ) :
    Option Bytes × World :=
  let d := w.devs dev
  if count = 0 then (none, w)
  else if !d.present then (none, w)
  else if d.totalSectors ≤ sector then (none, w)
  else
    let count := if d.totalSectors < sector + count then d.totalSectors - sector else count
    match d.respond with
    | (false, d) => (none, w.setDev dev d)
    | (true, d) =>
        (some (buf.blit pos d.bytes (sector * sectorSize) (count * sectorSize)), w.setDev dev d)

/-- `blkdev_write` from `buf` at `pos`; `true` for success. -/
def blkdevWrite (w : World) (dev sector count : ℕ) (buf : Bytes) (pos : ℕ) : Bool × World :=
  let d := { w.devs dev with log := sector :: (w.devs dev).log }
  if count = 0 then (false, w.setDev dev d)
  else if !d.present then (false, w.setDev dev d)
  else if d.readonly then (false, w.setDev dev d)
  else if d.totalSectors ≤ sector then (false, w.setDev dev d)
  else
    let count := if d.totalSectors < sector + count then d.totalSectors - sector else count
    match d.respond with
    | (false, d) => (false, w.setDev dev d)
    | (true, d) =>
        (true, w.setDev dev
          { d with bytes := d.bytes.blit (sector * sectorSize) buf pos (count * sectorSize) })

/-! ## Devices and allocators that do not fail -/

/-- A device that is present, writable, has at least `sectors` sectors and never fails. -/
structure Working (d : BlockDevice) (sectors : ℕ) : Prop where
  present : d.present = true
  writable : d.readonly = false
  large : sectors ≤ d.totalSectors
  reliable : d.faults = []

theorem setDev_self (w : World) (dev : ℕ) : w.setDev dev (w.devs dev) = w := by
  rw [setDev, Function.update_eq_self]

@[simp] theorem setDev_devs (w : World) (dev : ℕ) (d : BlockDevice) :
    (w.setDev dev d).devs dev = d := Function.update_self _ _ _

theorem setDev_setDev (w : World) (dev : ℕ) (d d' : BlockDevice) :
    (w.setDev dev d).setDev dev d' = w.setDev dev d' := by
  simp [setDev]

variable {w : World} {dev sector sectors : ℕ}

theorem blkdevRead_working (working : Working (w.devs dev) sectors) (inside : sector < sectors)
    (buf : Bytes) (pos : ℕ) :
    w.blkdevRead dev sector 1 buf pos =
      (some (buf.blit pos (w.devs dev).bytes (sector * sectorSize) sectorSize), w) := by
  have large := working.large
  unfold blkdevRead
  simp only [one_ne_zero, if_false, working.present, Bool.not_true, Bool.false_eq_true,
    BlockDevice.respond, working.reliable]
  rw [if_neg (by omega), if_neg (by omega), Nat.one_mul, setDev_self]

theorem blkdevWrite_working (working : Working (w.devs dev) sectors) (inside : sector < sectors)
    (buf : Bytes) (pos : ℕ) :
    w.blkdevWrite dev sector 1 buf pos =
      (true, w.setDev dev
        { w.devs dev with
          bytes := (w.devs dev).bytes.blit (sector * sectorSize) buf pos sectorSize
          log := sector :: (w.devs dev).log }) := by
  have large := working.large
  unfold blkdevWrite
  simp only [one_ne_zero, if_false, working.present, working.writable, Bool.not_true,
    Bool.false_eq_true, BlockDevice.respond, working.reliable]
  rw [if_neg (by omega), if_neg (by omega), Nat.one_mul]

@[simp] theorem malloc_devs (w : World) (size : ℕ) : (w.malloc size).2.devs = w.devs := by
  unfold malloc
  split_ifs
  · rfl
  · split <;> rfl

theorem blkdevRead_eq_some {w' : World} {pos : ℕ} {buf buf' : Bytes}
    (done : w.blkdevRead dev sector 1 buf pos = (some buf', w')) :
    buf' = buf.blit pos (w.devs dev).bytes (sector * sectorSize) sectorSize := by
  unfold blkdevRead at done
  simp only [one_ne_zero, if_false] at done
  split_ifs at done with absent beyond short
  · simp at done
  · simp at done
  · omega
  · have same := (w.devs dev).respond_bytes
    generalize (w.devs dev).respond = answer at done same
    obtain ⟨ok, d⟩ := answer
    cases ok with
    | false => simp at done
    | true =>
      simp only [Prod.mk.injEq, Option.some.injEq] at done same
      rw [← done.1, same, Nat.one_mul]

theorem malloc_of_reliable (reliable : w.heap.oom = []) {size : ℕ} (pos : 0 < size) :
    w.malloc size =
      (some w.heap.next,
        { w with heap := { w.heap with
            next := w.heap.next + 1, live := w.heap.next :: w.heap.live } }) := by
  unfold malloc
  rw [if_neg (by omega), reliable]
  simp [reliable]

@[simp] theorem free_devs (w : World) (p : ℕ) : (w.free p).devs = w.devs := by
  unfold free
  split <;> rfl

@[simp] theorem free_oom (w : World) (p : ℕ) : (w.free p).heap.oom = w.heap.oom := by
  unfold free
  split <;> rfl

@[simp] theorem free_next (w : World) (p : ℕ) : (w.free p).heap.next = w.heap.next := by
  unfold free
  split <;> rfl

end World

end Thuban

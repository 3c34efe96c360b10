import Mathlib
import Thuban.Lib.Run

/-!
# Spinlocks

`kernel/lock/spinlock.c` on the single core it is written for.  A lock does not spin: acquiring it
stores RFLAGS in the lock and clears the interrupt flag, releasing it loads RFLAGS back from the
lock.  The flags a lock saved are therefore right only as long as nobody acquires the same lock
again and locks are released in the reverse order of their acquisition.

`Nest` records the locks that are held, innermost first.  `Saved` says what their saved flags are:
the outermost lock holds the flags of before, every lock above it was taken with interrupts off.
-/

namespace Thuban.Kernel

open Lib

/-- RFLAGS.  `RF`, which every instruction clears, and `VM`, which is 0 in 64-bit mode, aside,
`pushfq` reads and `popfq` at ring 0 writes the whole register. -/
abbrev Rflags := BitVec 64

/-- Bit 9 of RFLAGS: maskable interrupts are delivered. -/
def interruptFlag (flags : Rflags) : Bool := flags.getLsbD 9

/-- The instruction `cli`. -/
def cli (flags : Rflags) : Rflags := flags &&& ~~~(1#64 <<< 9)

@[simp] theorem interruptFlag_cli (flags : Rflags) : interruptFlag (cli flags) = false := by
  simp [interruptFlag, cli]

/-- `spinlock_t`; its name is only printed. -/
structure Spinlock where
  flags : Rflags
  locked : ℤ
  deriving DecidableEq

structure Core (ι : Type) where
  rflags : Rflags
  lock : ι → Spinlock

section Code

variable {ι : Type} [DecidableEq ι]

def Core.setLock (c : Core ι) (l : ι) (v : Spinlock) : Core ι :=
  { c with lock := Function.update c.lock l v }

/-- `pushfq; pop flags; cli`: the flags of before and the core afterwards. -/
def saveFlagsAndCli (c : Core ι) : Rflags × Core ι :=
  (c.rflags, { c with rflags := cli c.rflags })

/-- `push flags; popfq`. -/
def restoreFlags (flags : Rflags) (c : Core ι) : Core ι := { c with rflags := flags }

def spinLock (l : ι) (c : Core ι) : Core ι :=
  let (flags, c) := saveFlagsAndCli c
  let c := c.setLock l { c.lock l with flags := flags }
  c.setLock l { c.lock l with locked := 1 }

def spinUnlock (l : ι) (c : Core ι) : Core ι :=
  let c := c.setLock l { c.lock l with locked := 0 }
  restoreFlags (c.lock l).flags c

def spinTrylock (l : ι) (c : Core ι) : ℤ × Core ι :=
  let (flags, c) := saveFlagsAndCli c
  if (c.lock l).locked ≠ 0 then
    (0, restoreFlags flags c)
  else
    let c := c.setLock l { c.lock l with flags := flags }
    (1, c.setLock l { c.lock l with locked := 1 })

theorem spinLock_eq (l : ι) (c : Core ι) :
    spinLock l c = ⟨cli c.rflags, Function.update c.lock l ⟨c.rflags, 1⟩⟩ := by
  simp [spinLock, saveFlagsAndCli, Core.setLock]

theorem spinUnlock_eq (l : ι) (c : Core ι) :
    spinUnlock l c =
      ⟨(c.lock l).flags, Function.update c.lock l ⟨(c.lock l).flags, 0⟩⟩ := by
  simp [spinUnlock, restoreFlags, Core.setLock]

theorem spinTrylock_held {l : ι} {c : Core ι} (held : (c.lock l).locked ≠ 0) :
    spinTrylock l c = (0, c) := by
  simp [spinTrylock, saveFlagsAndCli, restoreFlags, held]

theorem spinTrylock_free {l : ι} {c : Core ι} (free : (c.lock l).locked = 0) :
    spinTrylock l c = (1, spinLock l c) := by
  simp [spinTrylock, spinLock, saveFlagsAndCli, Core.setLock, free]

end Code

/-! ## Well-nested sequences -/

/-- What the holder of the core may do. -/
inductive LockCall (ι : Type)
  | spinLock (l : ι)
  | spinTrylock (l : ι)
  | spinUnlock (l : ι)
  /-- The instructions of a critical section, which leave the flags `flags`. -/
  | compute (flags : Rflags)

/-- The core together with the locks that are held, innermost first. -/
structure Nest (ι : Type) where
  core : Core ι
  held : List ι

variable {ι : Type}

/-- The flags saved by the held locks, when `initial` was RFLAGS before the outermost of them. -/
def Saved (initial : Rflags) (lock : ι → Spinlock) : List ι → Prop
  | [] => True
  | [l] => (lock l).flags = initial
  | l :: below => interruptFlag (lock l).flags = false ∧ Saved initial lock below

variable {initial : Rflags} {held : List ι} {l : ι} {c : Core ι}

theorem Saved.congr {lock lock' : ι → Spinlock} (h : Saved initial lock held)
    (same : ∀ l ∈ held, lock' l = lock l) : Saved initial lock' held := by
  induction held with
  | nil => trivial
  | cons l below ih =>
    have here : lock' l = lock l := same l (by simp)
    cases below with
    | nil => exact (congrArg Spinlock.flags here).trans h
    | cons k rest =>
      refine ⟨?_, ih h.2 fun j hj => same j (by simp [hj])⟩
      rw [here]
      exact h.1

theorem Saved.tail {lock : ι → Spinlock} {below : List ι} (h : Saved initial lock (l :: below)) :
    Saved initial lock below := by
  cases below with
  | nil => trivial
  | cons => exact h.2

variable [DecidableEq ι]

/-- One call of a well-nested sequence: `spin_lock` takes a lock that is not held, `spin_unlock`
releases the lock taken last, and a critical section does not touch the interrupt flag. -/
inductive NestStep : Nest ι → LockCall ι → Nest ι → Prop
  | lock {c : Core ι} {held : List ι} {l : ι} (new : l ∉ held) :
      NestStep ⟨c, held⟩ (.spinLock l) ⟨spinLock l c, l :: held⟩
  | trylockFails {c c' : Core ι} {held : List ι} {l : ι} (result : spinTrylock l c = (0, c')) :
      NestStep ⟨c, held⟩ (.spinTrylock l) ⟨c', held⟩
  | trylockTakes {c c' : Core ι} {held : List ι} {l : ι} (result : spinTrylock l c = (1, c')) :
      NestStep ⟨c, held⟩ (.spinTrylock l) ⟨c', l :: held⟩
  | unlock {c : Core ι} {held : List ι} {l : ι} :
      NestStep ⟨c, l :: held⟩ (.spinUnlock l) ⟨spinUnlock l c, held⟩
  | compute {c : Core ι} {held : List ι} {flags : Rflags} (inside : held ≠ [])
      (same : interruptFlag flags = interruptFlag c.rflags) :
      NestStep ⟨c, held⟩ (.compute flags) ⟨{ c with rflags := flags }, held⟩

/-- What every call of a well-nested sequence keeps. -/
structure Nested (initial : Rflags) (n : Nest ι) : Prop where
  distinct : n.held.Nodup
  marked : ∀ l ∈ n.held, (n.core.lock l).locked ≠ 0
  saved : Saved initial n.core.lock n.held
  masked : n.held ≠ [] → interruptFlag n.core.rflags = false
  restored : n.held = [] → n.core.rflags = initial

theorem Nested.lock (h : Nested initial ⟨c, held⟩) (new : l ∉ held) :
    Nested initial ⟨spinLock l c, l :: held⟩ := by
  have others : ∀ k ∈ held, Function.update c.lock l ⟨c.rflags, 1⟩ k = c.lock k := by
    intro k hk
    apply Function.update_of_ne
    rintro rfl
    exact new hk
  rw [spinLock_eq]
  constructor
  case distinct => exact List.nodup_cons.mpr ⟨new, h.distinct⟩
  case marked =>
    intro k hk
    rcases List.mem_cons.mp hk with rfl | hk
    · simp
    · show (Function.update c.lock l ⟨c.rflags, 1⟩ k).locked ≠ 0
      rw [others k hk]
      exact h.marked k hk
  case saved =>
    have below := h.saved.congr others
    cases held with
    | nil =>
      show (Function.update c.lock l _ l).flags = initial
      rw [Function.update_self]
      exact h.restored rfl
    | cons k rest =>
      refine ⟨?_, below⟩
      show interruptFlag (Function.update c.lock l ⟨c.rflags, 1⟩ l).flags = false
      rw [Function.update_self]
      exact h.masked (List.cons_ne_nil _ _)
  case masked => exact fun _ => interruptFlag_cli _
  case restored => exact fun empty => absurd empty (List.cons_ne_nil _ _)

theorem Nested.unlock (h : Nested initial ⟨c, l :: held⟩) :
    Nested initial ⟨spinUnlock l c, held⟩ := by
  have split : l ∉ held ∧ held.Nodup := List.nodup_cons.mp h.distinct
  have others : ∀ k ∈ held,
      Function.update c.lock l ⟨(c.lock l).flags, 0⟩ k = c.lock k := by
    intro k hk
    apply Function.update_of_ne
    rintro rfl
    exact split.1 hk
  rw [spinUnlock_eq]
  constructor
  case distinct => exact split.2
  case marked =>
    intro k hk
    show (Function.update c.lock l ⟨(c.lock l).flags, 0⟩ k).locked ≠ 0
    rw [others k hk]
    exact h.marked k (List.mem_cons_of_mem _ hk)
  case saved => exact h.saved.tail.congr others
  case masked =>
    intro inside
    cases held with
    | nil => exact absurd rfl inside
    | cons => exact h.saved.1
  case restored =>
    rintro rfl
    exact h.saved

theorem Nested.step {n n' : Nest ι} {call : LockCall ι} (h : Nested initial n)
    (step : NestStep n call n') : Nested initial n' := by
  cases step with
  | lock new => exact h.lock new
  | @trylockFails c c' held l result =>
    by_cases free : (c.lock l).locked = 0
    · rw [spinTrylock_free free] at result
      exact absurd (congrArg Prod.fst result) one_ne_zero
    · rw [spinTrylock_held free] at result
      obtain rfl : c = c' := congrArg Prod.snd result
      exact h
  | @trylockTakes c c' held l result =>
    by_cases free : (c.lock l).locked = 0
    · rw [spinTrylock_free free] at result
      obtain rfl : spinLock l c = c' := congrArg Prod.snd result
      -- a held lock is marked, so the lock that was free is not among them
      exact h.lock fun held => h.marked l held free
    · rw [spinTrylock_held free] at result
      exact absurd (congrArg Prod.fst result) zero_ne_one
  | unlock => exact h.unlock
  | compute inside same =>
    exact ⟨h.distinct, h.marked, h.saved, fun _ => same.trans (h.masked inside),
      fun empty => absurd empty inside⟩

/-- In every well-nested sequence interrupts are off while a lock is held, a `spin_trylock` that
fails leaves RFLAGS alone, and when no lock is held RFLAGS is what it was at the beginning. -/
theorem nested_spinlocks_restore_flags (initial : Core ι) (calls : List (LockCall ι)) (n : Nest ι)
    (run : Run NestStep ⟨initial, []⟩ calls n) :
    (n.held ≠ [] → interruptFlag n.core.rflags = false) ∧
      (∀ l, (spinTrylock l n.core).1 = 0 → (spinTrylock l n.core).2.rflags = n.core.rflags) ∧
      (n.held = [] → n.core.rflags = initial.rflags) := by
  have start : Nested initial.rflags ⟨initial, []⟩ :=
    ⟨List.nodup_nil, by simp, trivial, fun inside => absurd rfl inside, fun _ => rfl⟩
  have final : Nested initial.rflags n :=
    run.invariant (P := Nested initial.rflags) (fun _ _ _ h step => h.step step) start
  refine ⟨final.masked, ?_, final.restored⟩
  intro l failed
  by_cases free : (n.core.lock l).locked = 0
  · rw [spinTrylock_free free] at failed
    exact absurd failed one_ne_zero
  · rw [spinTrylock_held free]

/-- A core with interrupts on and no lock taken. -/
def idleCore : Core Bool := ⟨0x202#64, fun _ => ⟨0#64, 0⟩⟩

/-- The core after the heap's lock, then the frame allocator's inside it. -/
def twoLocked : Core Bool := (spinTrylock false (spinLock true idleCore)).2

/-- The heap's lock, the frame allocator's lock inside it, an attempt at a lock that is held, and
the two releases. -/
theorem nested_spinlocks_heap_frames :
    (spinUnlock true (spinUnlock false twoLocked)).rflags = 0x202#64 := by
  have run : Run NestStep ⟨idleCore, []⟩
      [.spinLock true, .spinTrylock false, .spinTrylock true, .spinUnlock false, .spinUnlock true]
      ⟨spinUnlock true (spinUnlock false twoLocked), []⟩ :=
    .cons (.lock List.not_mem_nil) <| .cons (@NestStep.trylockTakes _ _ _ twoLocked _ _ rfl) <|
      .cons (@NestStep.trylockFails _ _ _ twoLocked _ _ rfl) <|
        .cons .unlock <| .cons .unlock (.nil _)
  exact (nested_spinlocks_restore_flags idleCore _ _ run).2.2 rfl

end Thuban.Kernel

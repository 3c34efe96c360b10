import Thuban.Heap.Calls

/-!
# Runs of the heap in memory

The list that the memory shows goes through a run of the list-level heap, whatever the client stores
into the blocks it was given.  The one call that can break this is a `realloc` whose size wraps when
it is rounded (`Call.Rounds`).
-/

namespace Thuban.Heap

open Lib

variable {base fuel ptr : ℕ} {s s' : State} {v : Vmm} {c : Call} {r : Option ℕ}

/-- A `realloc` that may move asks for a size that does not wrap when it is rounded. -/
def Call.Rounds : Call → Prop
  | .malloc _ => True
  | .calloc _ _ => True
  | .realloc ptr size => ptr = 0 ∨ size + 15 < 2 ^ 64
  | .free _ => True

/-! ## Calls on the list -/

theorem Neat.placed (neat : Neat base s) (upward : v.Upward) : Placed v s :=
  ⟨neat.sane, neat.avoids upward⟩

section

variable (neat : Neat base s) (nonempty : s.blocks ≠ []) (upward : v.Upward) (legal : c.Legal s)
  (done : c.run v s fuel = some (r, s'))

include neat nonempty upward legal done

theorem Call.run_neat : Neat base s' := by
  cases c with
  | malloc size => exact malloc_neat neat nonempty upward done
  | calloc num size =>
    obtain ⟨middle, m, answer, rfl⟩ := calloc_cases done
    exact (malloc_neat neat nonempty upward answer).congr rfl rfl rfl rfl
  | free ptr =>
    simp only [Call.run, Option.some.injEq, Prod.mk.injEq] at done
    rw [← done.2]
    rcases legal with rfl | live
    · rw [free_null]
      exact neat
    · exact free_neat neat live
  | realloc ptr size =>
    rcases legal with rfl | live
    · exact malloc_neat neat nonempty upward (realloc_null.symm.trans done)
    rcases realloc_cases neat.magic neat.sane.apart live done with ⟨-, -, rfl⟩ | ⟨-, -, -, rfl⟩ |
      ⟨-, -, failed⟩ | ⟨-, b, q, middle, m, -, -, answer, -, rfl⟩
    · exact free_neat neat live
    · exact neat
    · exact malloc_neat neat nonempty upward failed
    · have moved : Neat base { middle with mem := m } :=
        (malloc_neat neat nonempty upward answer).congr rfl rfl rfl rfl
      have still : Live middle ptr := malloc_live live answer
      exact free_neat moved still

theorem Call.run_inUse :
    ((inUse s'.blocks).map Block.payload).Perm
      (Session.handOver ((inUse s.blocks).map Block.payload) r c) := by
  cases c with
  | malloc size => exact (malloc_rounds done).inUse_perm
  | calloc num size =>
    obtain ⟨middle, m, answer, rfl⟩ := calloc_cases done
    exact (malloc_rounds answer).inUse_perm
  | free ptr =>
    simp only [Call.run, Option.some.injEq, Prod.mk.injEq] at done
    rw [← done.2]
    rcases legal with rfl | live
    · have unused : 0 ∉ (inUse s.blocks).map Block.payload := by
        simp [Block.payload, headerSize]
      rw [free_null, Session.handOver, List.erase_of_not_mem unused]
    · exact free_inUse neat.magic neat.sane.apart live
  | realloc ptr size =>
    rcases legal with rfl | live
    · have unused : 0 ∉ (inUse s.blocks).map Block.payload := by
        simp [Block.payload, headerSize]
      have perm := (malloc_rounds (realloc_null.symm.trans done)).inUse_perm
      rw [Session.handOver, List.erase_of_not_mem unused]
      split_ifs with failed
      · rw [failed.1] at perm
        exact perm
      · exact perm
    have member := live_iff.mp live
    rw [Session.handOver]
    rcases realloc_cases neat.magic neat.sane.apart live done with ⟨empty, rfl, rfl⟩ |
      ⟨nonzero, -, rfl, rfl⟩ | ⟨nonzero, rfl, failed⟩ |
      ⟨nonzero, b, q, middle, m, -, -, answer, rfl, rfl⟩
    · rw [if_neg (by simp [empty])]
      exact free_inUse neat.magic neat.sane.apart live
    · rw [if_neg (by simp)]
      exact List.perm_cons_erase member
    · rw [if_pos ⟨rfl, nonzero⟩]
      exact (malloc_rounds failed).inUse_perm
    · rw [if_neg (by simp)]
      have rounds := malloc_rounds answer
      have moved := malloc_neat neat nonempty upward answer
      have released : ((inUse (Heap.free { middle with mem := m } ptr).blocks).map
          Block.payload).Perm
          (((inUse middle.blocks).map Block.payload).erase ptr) := by
        have still : Live middle ptr := malloc_live live answer
        exact free_inUse moved.magic moved.sane.apart still
      have different : q ≠ ptr := by
        rintro rfl
        exact rounds.fresh (neat.placed upward) rfl live
      refine released.trans ((rounds.inUse_perm.erase ptr).trans ?_)
      rw [Option.toList_some, List.singleton_append, List.erase_cons_tail (by simpa using different)]
      exact List.Perm.refl _

end

/-! ## Sessions -/

/-- The memory shows a list that carries the invariant, and the pointers in use are those that were
handed out. -/
structure Good (base : ℕ) (x : Session) (s : State) : Prop where
  shows : Shows x.heap s
  neat : Neat base s
  out : x.out.Perm ((inUse s.blocks).map Block.payload)

/-- A call that can be rounded, or a store of the client. -/
def Act.Rounds : Session.Act → Prop
  | .call c => c.Rounds
  | .store _ _ => True

/-- A step in which no `realloc` wraps. -/
def SafeStep (x : Session) (a : Session.Act) (y : Session) : Prop := x.Step a y ∧ Act.Rounds a

variable {x y : Session} {a : Session.Act}

theorem Good.live (good : Good base x s) : ptr ∈ x.out ↔ Live s ptr := by
  rw [live_iff]
  exact good.out.mem_iff

theorem Good.legal (good : Good base x s) (legal : x.Legal c) : c.Legal s := by
  cases c with
  | malloc => trivial
  | calloc => trivial
  | realloc ptr size => exact legal.imp id good.live.mp
  | free ptr => exact legal.imp id good.live.mp

theorem run_refines {h h' : Image} (shows : Shows h s) (placed : Placed v s) (legal : c.Legal s)
    (rounds : c.Rounds) (done : h.run v c fuel = some (r, h')) :
    ∃ s', c.run v s fuel = some (r, s') ∧ Shows h' s' := by
  cases c with
  | malloc size =>
    obtain ⟨s', listed, shown, -⟩ := Image.malloc_sim shows placed done
    exact ⟨s', listed, shown⟩
  | calloc num size =>
    obtain ⟨s', listed, shown, -⟩ := Image.calloc_sim shows placed done
    exact ⟨s', listed, shown⟩
  | realloc ptr size => exact Image.realloc_sim shows placed legal rounds done
  | free ptr =>
    cases done
    refine ⟨_, rfl, ?_⟩
    rcases legal with rfl | live
    · rw [free_null]
      exact shows
    · exact (Image.free_sim shows placed.sane live).2.1

theorem Session.handOver_perm {out out' : List ℕ} (same : out.Perm out') (r : Option ℕ) (c : Call) :
    (Session.handOver out r c).Perm (Session.handOver out' r c) := by
  cases c with
  | malloc => exact same.append_left _
  | calloc => exact same.append_left _
  | realloc ptr size =>
    simp only [Session.handOver]
    split_ifs
    · exact same
    · exact (same.erase ptr).append_left _
  | free ptr => exact same.erase ptr

theorem Good.call {h : Image} (good : Good base x s) (legal : x.Legal c) (upward : v.Upward)
    (rounds : c.Rounds) (done : Converges (x.heap.run v c) (r, h)) :
    ∃ fuel s', c.run v s fuel = some (r, s') ∧ Good base ⟨h, Session.handOver x.out r c⟩ s' := by
  obtain ⟨bound, converges⟩ := done
  have done := converges bound le_rfl
  have legal := good.legal legal
  have nonempty := good.shows.nonempty
  obtain ⟨s', listed, shown⟩ := run_refines good.shows (good.neat.placed upward) legal rounds done
  refine ⟨bound, s', listed, shown, Call.run_neat good.neat nonempty upward legal listed, ?_⟩
  exact (Session.handOver_perm good.out r c).trans
    (Call.run_inUse good.neat nonempty upward legal listed).symm

theorem Good.store {k : ℕ} {value : UInt8} (good : Good base x s) (writable : x.Writable k) :
    Good base { x with heap := { x.heap with mem := x.heap.mem.put k value } } s := by
  obtain ⟨ptr, held, low, high⟩ := writable
  obtain ⟨b, hb, used, rfl⟩ := good.live.mp held
  rw [Image.blockOf_payload good.neat.sane hb, (good.shows.holds.fields hb).2.1] at high
  refine ⟨Image.shows_payload good.shows good.neat.sane hb (fun j outside => ?_) s.mem,
    good.neat, good.out⟩
  apply Bytes.put_ne
  rintro rfl
  simp only [Block.payload, Block.limit] at low high outside
  omega

theorem Good.step (good : Good base x s) (step : SafeStep x a y) : ∃ s', Good base y s' := by
  obtain ⟨step, rounds⟩ := step
  cases step with
  | call legal upward done =>
    obtain ⟨-, s', -, kept⟩ := good.call legal upward rounds done
    exact ⟨s', kept⟩
  | store writable => exact ⟨s, good.store writable⟩

theorem heapInit_neat (low : 4096 ≤ base) (high : base + initialHeapSize ≤ 2 ^ 64) :
    Neat base (heapInit base) := by
  have whole : headerSize + (initialHeapSize - headerSize) = initialHeapSize := by decide
  constructor
  case floor => exact low
  case magic => simp [heapInit]
  case low => simp [heapInit]
  case ascending => exact List.pairwise_singleton _ _
  case high =>
    simp only [heapInit, List.mem_singleton, forall_eq, exists_eq_left, Block.limit]
    omega
  case room =>
    simp only [heapInit, List.mem_singleton, forall_eq, Block.payload]
    simp only [initialHeapSize, headerSize] at high ⊢
    omega
  case regions =>
    simp only [heapInit, List.mem_singleton, forall_eq]
    exact ⟨le_rfl, high⟩
  case total => simp [heapInit, span, initialHeapSize, headerSize]
  case given => simp [heapInit]
  case used => simp [heapInit, occupied, inUse]

theorem heapInit_good (low : 4096 ≤ base) (high : base + initialHeapSize ≤ 2 ^ 64) (mem : Bytes) :
    Good base (Session.start base mem) (heapInit base) := by
  have small : initialHeapSize - headerSize < 2 ^ 64 := by decide
  have fresh := Image.header_newBlock mem base small
  refine ⟨⟨⟨?_, ?_⟩, by simp [heapInit], rfl, rfl, rfl⟩, heapInit_neat low high, ?_⟩
  · refine ⟨base, rfl, (by omega : base ≠ 0), ?_, rfl, ?_⟩
    · show (header (Image.newBlock mem base _) base).prev = 0
      rw [fresh]
    · show 0 = (header (Image.newBlock mem base _) base).next
      rw [fresh]
  · simp only [heapInit, List.mem_singleton, forall_eq, blockAt_eq_iff]
    simp only [Session.start, Image.heapInit, fresh]
    simp
  · exact List.Perm.nil

/-- The states that runs without a wrapping `realloc` lead to, from `heap_init` on. -/
def Reached (base : ℕ) (mem : Bytes) (x : Session) : Prop :=
  ∃ acts, Run SafeStep (Session.start base mem) acts x

theorem Reached.good {mem : Bytes} (reached : Reached base mem x) (low : 4096 ≤ base)
    (high : base + initialHeapSize ≤ 2 ^ 64) : ∃ s, Good base x s := by
  obtain ⟨acts, run⟩ := reached
  exact run.invariant (P := fun x => ∃ s, Good base x s)
    (fun _ _ _ ⟨_, good⟩ step => good.step step) ⟨_, heapInit_good low high mem⟩

/-! ## The list by its `next` pointers -/

namespace Image

variable {h : Image} {blocks blocks' : List Block} {m : Bytes} {k : ℕ}

theorem Chain.unique (first : Chain m k blocks) (second : Chain m k blocks') :
    blocks = blocks' := by
  induction blocks generalizing k blocks' with
  | nil =>
    cases blocks' with
    | nil => rfl
    | cons => exact absurd first second.1
  | cons b rest ih =>
    cases blocks' with
    | nil => exact absurd second first.1
    | cons b' rest' =>
      rw [← first.2.1, ← second.2.1, ih first.2.2 second.2.2]

theorem Holds.chain (pre : List Block) (holds : h.Holds (pre ++ blocks)) :
    Chain h.mem ((blocks.head?.map Block.addr).getD 0) blocks := by
  induction blocks generalizing pre with
  | nil => rfl
  | cons b rest ih =>
    have link := holds.links.1
    refine ⟨holds.addr_ne_zero (by simp), holds.shown b (by simp), ?_⟩
    rw [List.head?_cons, Option.map_some, Option.getD_some, link]
    have shift : pre ++ b :: rest = (pre ++ [b]) ++ rest := by simp
    rw [shift] at holds
    exact ih _ holds

theorem Holds.lists (holds : h.Holds blocks) : h.Lists blocks := by
  unfold Lists
  rw [holds.start_eq]
  exact holds.chain []

end Image

theorem Good.lists_iff {blocks : List Block} (good : Good base x s) :
    x.heap.Lists blocks ↔ blocks = s.blocks := by
  refine ⟨fun lists => lists.unique good.shows.holds.lists, ?_⟩
  rintro rfl
  exact good.shows.holds.lists

end Thuban.Heap

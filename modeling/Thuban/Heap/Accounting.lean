import Thuban.Heap.Requests

/-!
# The counters

`total_heap_size` counts every byte of the list and `used_heap_size` the bytes of the blocks in use
and one header more (`counters_exact`).  That header is why the second counter can exceed the first:
it does when every block of the list is in use.  A client that always leaves a free block stays clear
of this (`free_space_never_wraps`).
-/

namespace Thuban.Heap

open Lib

variable {base n fuel ptr : ℕ} {x y : Session} {s s' : State} {v : Vmm} {c : Call} {r : Option ℕ}
  {a : Session.Act} {acts : List Session.Act} {mem : Bytes} {pre post : List Block} {b : Block}

/-! ## The sums -/

/-- The counters are the sums over the list. -/
def Accounted (h : Image) : Prop :=
  ∃ blocks, h.Lists blocks ∧ Image.heapGetTotal h = span blocks ∧
    Image.heapGetUsed h = headerSize + occupied blocks

/-- While no `realloc` wraps, the counters are the sums over the list. -/
theorem counters_exact (low : 4096 ≤ base) (high : base + initialHeapSize ≤ 2 ^ 64)
    (run : Run SafeStep (Session.start base mem) acts x) : Accounted x.heap := by
  obtain ⟨s, good⟩ := Reached.good ⟨acts, run⟩ low high
  refine ⟨s.blocks, good.shows.holds.lists, ?_, ?_⟩
  · exact good.shows.total.trans good.neat.total
  · exact good.shows.used.trans good.neat.used

theorem one_taken_accounted : Accounted (blankTaken 16) := by
  obtain ⟨acts, run⟩ := blankTaken_reached (by decide) (by decide : alignUp 16 = 16) (by decide)
  exact counters_exact (by decide) (by decide) run

/-! ### A `realloc` that wraps -/

/-- A second block, of no bytes, has been cut off the rest. -/
def emptyTaken : Image := { blankTaken 16 with
  mem := Image.takeBlock 0 (blankTaken 16).mem (heapBase + 56)
  used := wrap ((blankTaken 16).used +
    ((header (Image.takeBlock 0 (blankTaken 16).mem (heapBase + 56)) (heapBase + 56)).size +
      headerSize)) }

/-- The 16 bytes have been copied to the second block and the first has been freed. -/
def overrun : Image :=
  (Image.free { emptyTaken with
    mem := emptyTaken.mem.copy (heapBase + 96) (heapBase + 40)
      (header emptyTaken.mem (Image.blockOf (heapBase + 40))).size } (heapBase + 40)).2

theorem overrun_step : Converges
    ((blankTaken 16).run noPages (.realloc (heapBase + 40) (2 ^ 64 - 1)))
    (some (heapBase + 96), overrun) := by
  have fit : Image.fitting (alignUp (2 ^ 64 - 1)) oneTaken.blocks =
      some ⟨heapBase + 56, heapMagic, 262048, true⟩ := by decide
  have taken : Converges (Image.malloc noPages · (blankTaken 16) (2 ^ 64 - 1))
      (some (heapBase + 96), emptyTaken) :=
    Image.malloc_found oneTaken_good.shows oneTaken_good.neat.sane (by decide) fit noPages
  exact Image.realloc_moves (by decide : heapBase + 40 ≠ 0) (by decide +kernel) (by decide +kernel)
    taken

/-- The copy runs over the header of the rest, which ends the list early: 136 of 262144 bytes are
left in it. -/
theorem overrun_not_accounted : ∃ acts x,
    Run Session.Step (Session.start heapBase fun _ => 0) acts x ∧ ¬ Accounted x.heap := by
  refine ⟨[.call (.malloc 16), .call (.realloc (heapBase + 40) (2 ^ 64 - 1))],
    ⟨overrun, [heapBase + 96]⟩,
    .cons (t := ⟨blankTaken 16, [heapBase + 40]⟩) ?_ (.cons ?_ (.nil _)), ?_⟩
  · exact .call (s := Session.start heapBase fun _ => 0) (c := .malloc 16) trivial noPages_upward
      (blankTaken_step noPages (by decide) (by decide) (by decide))
  · have legal : Session.Legal ⟨blankTaken 16, [heapBase + 40]⟩
        (.realloc (heapBase + 40) (2 ^ 64 - 1)) := Or.inr (List.mem_singleton_self _)
    exact .call legal noPages_upward overrun_step
  · rintro ⟨blocks, lists, total, -⟩
    have chain : overrun.Lists [⟨heapBase, heapMagic, 16, true⟩,
        ⟨heapBase + 56, heapMagic, 0, false⟩, ⟨heapBase + 96, 0, 0, true⟩] := by
      have first : header overrun.mem heapBase = ⟨heapMagic, 16, 1, heapBase + 56, 0⟩ := by
        decide +kernel
      have second : header overrun.mem (heapBase + 56) =
          ⟨heapMagic, 0, 0, heapBase + 96, heapBase⟩ := by decide +kernel
      have third : header overrun.mem (heapBase + 96) = ⟨0, 0, 1, 0, heapBase + 56⟩ := by
        decide +kernel
      have start : overrun.start = heapBase := by decide +kernel
      simp only [Image.Lists, Image.Chain, blockAt, start, first, second, third]
      decide
    rw [lists.unique chain] at total
    have counter : overrun.total = 262144 := by decide +kernel
    rw [Image.heapGetTotal, counter] at total
    exact absurd total (by decide)

/-! ## Free space -/

theorem Neat.used_le_iff (neat : Neat base s) :
    s.used ≤ s.total ↔ ∃ b ∈ s.blocks, b.free = true := by
  rw [neat.used, neat.total]
  exact header_add_occupied_le_iff

/-- A free block that can serve a request for `n` bytes is large enough to be split, or another block
of the list is free. -/
def Spares (blocks : List Block) (n : ℕ) : Prop :=
  ∀ b ∈ blocks, b.free = true → alignUp n ≤ b.size →
    alignUp n + headerSize + 64 ≤ b.size ∨ ∃ c ∈ blocks, c ≠ b ∧ c.free = true

/-- The calls that could take the last free block do not. -/
def Call.Spares (blocks : List Block) : Call → Prop
  | .malloc size => Heap.Spares blocks size
  | .calloc num size => Heap.Spares blocks (wrap (num * size))
  | .realloc ptr size => ptr = 0 → Heap.Spares blocks size
  | .free _ => True

/-- A step that leaves a free block, and in which no `realloc` wraps. -/
def SparingStep (x : Session) (a : Session.Act) (y : Session) : Prop :=
  SafeStep x a y ∧ ∀ c blocks, a = .call c → x.heap.Lists blocks → c.Spares blocks

theorem free_used_le (neat : Neat base s) (live : Live s ptr) :
    (free s ptr).used ≤ (free s ptr).total := by
  have after := free_neat neat live
  obtain ⟨pre, b, post, split, used, -, users⟩ := free_users neat.magic neat.sane.apart live
  have le := occupied_le_span s.blocks
  have released : occupied (free s ptr).blocks = occupied (pre ++ post) := by
    rw [occupied, occupied, users, inUse_append]
  rw [split, occupied_append, occupied_cons_used used, ← split, ← neat.total] at le
  rw [after.used, released, occupied_append, free_total]
  omega

theorem malloc_leaves_free (neat : Neat base s) (room : ∃ b ∈ s.blocks, b.free = true)
    (spares : Spares s.blocks n) (done : malloc v fuel s n = some (r, s')) :
    ∃ b ∈ s'.blocks, b.free = true := by
  cases fit : Image.fitting (alignUp n) s.blocks with
  | none =>
    -- the free block is too small and stays as it is
    obtain ⟨b, hb, free⟩ := room
    refine ⟨b, (malloc_rounds done).mem_of_unfit hb ?_, free⟩
    exact fun fits => fitting_eq_none.mp fit b hb free fits.2
  | some b =>
    obtain ⟨pre, post, split, free, fits, taken⟩ := Image.scan_of_fitting neat.magic fit
    have hb : b ∈ s.blocks := by
      rw [split]
      simp
    cases fuel with
    | zero => cases done
    | succ fuel =>
      rw [malloc] at done
      split_ifs at done with empty
      · simp only [Option.some.injEq, Prod.mk.injEq] at done
        rw [← done.2]
        exact ⟨b, hb, free⟩
      rw [taken] at done
      simp only [Option.some.injEq, Prod.mk.injEq] at done
      rw [← done.2]
      rcases spares b hb free fits with large | ⟨c, hc, different, free'⟩
      · have exact : wrap (alignUp n + headerSize + 64) = alignUp n + headerSize + 64 := by
          apply wrap_of_lt
          have low := neat.page_le hb
          have high := neat.limit_le hb
          simp only [Block.limit, headerSize] at high ⊢
          omega
        refine ⟨⟨b.addr + headerSize + alignUp n, heapMagic, b.size - alignUp n - headerSize, true⟩,
          ?_, rfl⟩
        unfold carve
        rw [exact, if_pos large]
        simp
      · refine ⟨c, ?_, free'⟩
        rw [split] at hc
        simp only [List.mem_append, List.mem_cons, different, false_or] at hc ⊢
        tauto

theorem Round.mem_of_fails (round : Round v s n r s') (fails : r = none) (hb : b ∈ s.blocks) :
    b ∈ s'.blocks := by
  induction round with
  | fails => exact hb
  | takes => cases fails
  | expands grown _ ih =>
    obtain ⟨a, -, -, rfl⟩ := expandHeap_cases grown
    exact ih fails (List.mem_append_left _ hb)

theorem Call.run_used_le (neat : Neat base s) (nonempty : s.blocks ≠ []) (upward : v.Upward)
    (room : s.used ≤ s.total) (legal : c.Legal s) (spares : c.Spares s.blocks)
    (done : c.run v s fuel = some (r, s')) : s'.used ≤ s'.total := by
  have free_block := neat.used_le_iff.mp room
  have after := Call.run_neat neat nonempty upward legal done
  cases c with
  | malloc size => exact after.used_le_iff.mpr (malloc_leaves_free neat free_block spares done)
  | calloc num size =>
    obtain ⟨middle, m, answer, rfl⟩ := calloc_cases done
    have leaves := malloc_leaves_free neat free_block spares answer
    exact after.used_le_iff.mpr leaves
  | free ptr =>
    simp only [Call.run, Option.some.injEq, Prod.mk.injEq] at done
    rw [← done.2]
    rcases legal with rfl | live
    · rw [free_null]
      exact room
    · exact free_used_le neat live
  | realloc ptr size =>
    rcases legal with rfl | live
    · have answer := realloc_null.symm.trans done
      exact after.used_le_iff.mpr (malloc_leaves_free neat free_block (spares rfl) answer)
    rcases realloc_cases neat.magic neat.sane.apart live done with ⟨-, -, rfl⟩ | ⟨-, -, -, rfl⟩ |
      ⟨-, -, failed⟩ | ⟨-, b, q, middle, m, -, -, answer, -, rfl⟩
    · exact free_used_le neat live
    · exact room
    · obtain ⟨b, hb, free⟩ := free_block
      exact after.used_le_iff.mpr ⟨b, (malloc_rounds failed).mem_of_fails rfl hb, free⟩
    · have moved : Neat base { middle with mem := m } :=
        (malloc_neat neat nonempty upward answer).congr rfl rfl rfl rfl
      have still : Live middle ptr := malloc_live live answer
      exact free_used_le moved still

theorem sparingStep_used_le (held : ∃ s, Good base x s ∧ s.used ≤ s.total)
    (step : SparingStep x a y) : ∃ s, Good base y s ∧ s.used ≤ s.total := by
  obtain ⟨s, good, room⟩ := held
  obtain ⟨⟨step, rounds⟩, spares⟩ := step
  cases step with
  | call legal upward done =>
    obtain ⟨fuel, s', listed, after⟩ := good.call legal upward rounds done
    refine ⟨s', after, Call.run_used_le good.neat good.shows.nonempty upward room
      (good.legal legal) ?_ listed⟩
    exact spares _ _ rfl good.shows.holds.lists
  | store writable => exact ⟨s, good.store writable, room⟩

/-- In a run that always leaves a free block, `heap_get_free` is the difference of the counters. -/
theorem free_space_never_wraps (low : 4096 ≤ base) (high : base + initialHeapSize ≤ 2 ^ 64)
    (run : Run SparingStep (Session.start base mem) acts x) :
    Image.heapGetUsed x.heap ≤ Image.heapGetTotal x.heap ∧
      Image.heapGetFree x.heap ≤ Image.heapGetTotal x.heap ∧
      Image.heapGetFree x.heap + Image.heapGetUsed x.heap = Image.heapGetTotal x.heap := by
  obtain ⟨s, good, room⟩ := run.invariant (P := fun x => ∃ s, Good base x s ∧ s.used ≤ s.total)
    (fun _ _ _ held step => sparingStep_used_le held step)
    ⟨_, heapInit_good low high mem, (by decide : headerSize ≤ initialHeapSize)⟩
  have bound : s.total < 2 ^ 64 := by
    have := good.neat.span_le
    have := good.neat.total
    omega
  rw [← good.shows.used, ← good.shows.total] at room
  rw [← good.shows.total] at bound
  simp only [Image.heapGetUsed, Image.heapGetTotal, Image.heapGetFree, wrapSub, wrap]
  omega

theorem one_taken_free_space :
    Image.heapGetFree (blankTaken 16) + Image.heapGetUsed (blankTaken 16) =
      Image.heapGetTotal (blankTaken 16) := by
  have good := heapInit_good (by decide : 4096 ≤ heapBase) (by decide) fun _ => 0
  have step : SparingStep (Session.start heapBase fun _ => 0) (.call (.malloc 16))
      ⟨blankTaken 16, [heapBase + 40]⟩ := by
    refine ⟨⟨?_, trivial⟩, ?_⟩
    · exact .call (s := Session.start heapBase fun _ => 0) (c := .malloc 16) trivial noPages_upward
        (blankTaken_step noPages (by decide) (by decide) (by decide))
    · rintro c blocks ⟨⟩ lists b hb -
      rw [good.lists_iff.mp lists] at hb
      rw [List.mem_singleton.mp hb]
      exact fun _ => .inl (by decide)
  exact (free_space_never_wraps (by decide) (by decide) (.cons step (.nil _))).2.2

/-- When the whole list is in use, `heap_get_free` reports almost `2 ^ 64` bytes. -/
theorem full_heap_free_wraps : Reached heapBase (fun _ => 0) full ∧
    Image.heapGetTotal full.heap = 262144 ∧ Image.heapGetUsed full.heap = 262184 ∧
      Image.heapGetFree full.heap = 2 ^ 64 - 40 := by
  have total : full.heap.total = 262144 := full_good.shows.total
  have used : full.heap.used = 262184 := full_good.shows.used
  refine ⟨?_, total, used, ?_⟩
  · exact blankTaken_reached (by decide) (by decide : alignUp 262096 = 262096) (by decide)
  · rw [Image.heapGetFree, total, used]
    decide

end Thuban.Heap

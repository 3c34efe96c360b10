import Thuban.Heap.Requests

/-!
# Freeing a pointer twice

`free` recognises a pointer that was freed before by the flag in its header.  `coalesce` may have
taken that header out of the list since; its bytes are then part of the payload of a free block
(`Covers`), where neither further calls of `free` nor the stores of a client reach them.  This needs
blocks that follow one another in memory, as they do while the heap has not been expanded.
-/

namespace Thuban.Heap

open Lib

variable {base a ptr : ℕ} {x y z : Session} {s s' : State} {blocks pre post : List Block}
  {b c n : Block} {acts : List Session.Act} {mem : Bytes}

/-! ## Headers inside free blocks -/

/-- The header at `a` is that of a free block of the list, or lies in the payload of one. -/
def Covers (blocks : List Block) (a : ℕ) : Prop :=
  ∃ c ∈ blocks, c.free = true ∧ (c.addr = a ∨ c.payload ≤ a) ∧ a + headerSize ≤ c.limit

theorem Ascending.tiles (ascending : Ascending blocks) {lo hi : ℕ}
    (low : ∀ b ∈ blocks, lo ≤ b.addr) (high : ∀ b ∈ blocks, b.limit ≤ hi)
    (filled : lo + span blocks = hi) : Tiles lo blocks hi := by
  induction blocks generalizing lo with
  | nil => exact filled
  | cons b rest ih =>
    obtain ⟨behind, later⟩ := List.pairwise_cons.mp ascending
    have above := low b (by simp)
    have fits := Ascending.span_le later (high b (by simp)) behind
      fun c hc => high c (List.mem_cons_of_mem _ hc)
    rw [span_cons] at filled
    simp only [Block.limit] at fits
    refine ⟨by omega, ih later behind (fun c hc => high c (List.mem_cons_of_mem _ hc)) ?_⟩
    simp only [Block.limit]
    omega

theorem Neat.tiles (neat : Neat base s) (regions : s.regions = [⟨base, initialHeapSize⟩]) :
    Tiles base s.blocks (base + initialHeapSize) := by
  apply neat.ascending.tiles neat.low
  · intro b hb
    obtain ⟨r, hr, le⟩ := neat.high b hb
    rw [regions] at hr
    rw [List.mem_singleton.mp hr] at le
    exact le
  · rw [← neat.total, neat.given, regions]
    simp

theorem Covers.join (covers : Covers (pre ++ b :: n :: post) a) (free : b.free = true)
    (adjacent : b.limit = n.addr)
    (sum : wrap (b.size + (headerSize + n.size)) = b.size + (headerSize + n.size)) :
    Covers (pre ++ { b with size := wrap (b.size + (headerSize + n.size)) } :: post) a := by
  obtain ⟨c, hc, unused, place, fits⟩ := covers
  simp only [List.mem_append, List.mem_cons] at hc
  have here : c = b ∨ c = n → Covers (pre ++ { b with
      size := wrap (b.size + (headerSize + n.size)) } :: post) a := by
    intro part
    refine ⟨{ b with size := wrap (b.size + (headerSize + n.size)) }, by simp, free, ?_⟩
    rw [sum]
    simp only [Block.payload, Block.limit, headerSize] at adjacent place fits ⊢
    rcases part with rfl | rfl <;> omega
  rcases hc with hc | rfl | rfl | hc
  · exact ⟨c, by simp [hc], unused, place, fits⟩
  · exact here (.inl rfl)
  · exact here (.inr rfl)
  · exact ⟨c, by simp [hc], unused, place, fits⟩

theorem free_covers (neat : Neat base s) (regions : s.regions = [⟨base, initialHeapSize⟩])
    (live : Live s ptr) (before : a = ptr - headerSize ∨ Covers s.blocks a) :
    Covers (free s ptr).blocks a := by
  obtain ⟨pre, b, post, split, used, rfl, -, -, blocks⟩ :=
    free_live neat.magic neat.sane.apart live
  have marked : Covers (pre ++ { b with free := true } :: post) a := by
    rcases before with rfl | ⟨c, hc, unused, place, fits⟩
    · refine ⟨{ b with free := true }, by simp, rfl, .inl ?_, ?_⟩
      · simp [Block.payload]
      · simp only [Block.payload, Block.limit]
        omega
    · have different := (ne_of_used used unused).symm
      rw [split] at hc
      simp only [List.mem_append, List.mem_cons, different, false_or] at hc
      refine ⟨c, ?_, unused, place, fits⟩
      simp only [List.mem_append, List.mem_cons]
      tauto
  have small : base + initialHeapSize - base < 2 ^ 64 := by
    simp only [initialHeapSize]
    omega
  have merged := merges_keep
    (P := fun l => Tiles base l (base + initialHeapSize) ∧ Covers l a) ?_ rfl
    ⟨(neat.mark split used).tiles regions, marked⟩
  · rw [blocks]
    exact merged.2
  · rintro pre b n post free - ⟨tiles, covers⟩
    obtain ⟨adjacent, sum⟩ := tiles.sizes small
    exact ⟨tiles.join small, covers.join free adjacent sum⟩

/-! ## The header of a freed pointer -/

/-- The header at `a` says that its block is free, and lies in a free block of the list. -/
structure Stale (base : ℕ) (x : Session) (s : State) (a : ℕ) : Prop where
  good : Good base x s
  regions : s.regions = [⟨base, initialHeapSize⟩]
  covers : Covers s.blocks a
  magic : (header x.heap.mem a).magic = heapMagic
  flag : (header x.heap.mem a).free ≠ 0

theorem Good.release (good : Good base x s) (step : x.Step (.call (.free ptr)) y) :
    y.heap = (Image.free x.heap ptr).2 ∧ (ptr = 0 ∨ Live s ptr) ∧ Good base y (free s ptr) := by
  cases step with
  | call legal upward done =>
    obtain ⟨fuel, s', listed, after⟩ := good.call legal upward trivial done
    obtain ⟨bound, ends⟩ := done
    have image := ends bound le_rfl
    simp only [Image.run, Call.run, Option.some.injEq, Prod.mk.injEq] at image listed
    rw [listed.2]
    exact ⟨image.2.symm, good.legal (c := .free ptr) legal, after⟩

theorem free_regions (neat : Neat base s) (live : Live s ptr) : (free s ptr).regions = s.regions := by
  obtain ⟨pre, b, post, -, -, -, regions, -⟩ := free_live neat.magic neat.sane.apart live
  exact regions

theorem Good.stale (good : Good base x s) (regions : s.regions = [⟨base, initialHeapSize⟩])
    (hb : b ∈ s.blocks) (used : b.free = false) (step : x.Step (.call (.free b.payload)) y) :
    Stale base y (free s b.payload) b.addr := by
  obtain ⟨heap, -, after⟩ := good.release step
  have live : Live s b.payload := ⟨b, hb, used, rfl⟩
  obtain ⟨-, -, tame⟩ := Image.free_sim good.shows good.neat.sane live
  rw [Image.blockOf_payload good.neat.sane hb, ← heap] at tame
  obtain ⟨magic, flag⟩ := tame.flags b hb
  rw [header_setField] at magic flag
  refine ⟨after, (free_regions good.neat live).trans regions, ?_, ?_, ?_⟩
  · have place : b.addr = b.payload - headerSize := by simp [Block.payload]
    exact free_covers good.neat regions live (.inl place)
  · rw [magic]
    exact (good.shows.holds.fields hb).1.trans (good.neat.magic b hb)
  · rw [flag]
    show 1 % 2 ^ 32 ≠ 0
    decide

theorem Stale.release (stale : Stale base x s a) (step : x.Step (.call (.free ptr)) y) :
    Stale base y (free s ptr) a := by
  have good := stale.good
  obtain ⟨heap, legal, after⟩ := good.release step
  rcases legal with rfl | live
  · have same : y.heap = x.heap := heap.trans (by simp [Image.free])
    rw [free_null] at after ⊢
    exact ⟨after, stale.regions, stale.covers, same ▸ stale.magic, same ▸ stale.flag⟩
  have sane := good.neat.sane
  have fields : (header y.heap.mem a).magic = (header x.heap.mem a).magic ∧
      (header y.heap.mem a).free = (header x.heap.mem a).free := by
    obtain ⟨c, hc, unused, place, fits⟩ := stale.covers
    rcases place with rfl | inside
    · obtain ⟨-, -, tame⟩ := Image.free_sim good.shows sane live
      obtain ⟨b, hb, used, rfl⟩ := live
      have different := ne_of_used used unused
      have clear := clear_of_disjoint (sane.apart.disjoint_of_ne hb hc different)
      have flags := tame.flags c hc
      rwa [Image.blockOf_payload sane hb, header_setField_clear _ _ _ clear, ← heap] at flags
    · have same : header y.heap.mem a = header x.heap.mem a := by
        rw [heap]
        refine header_congr fun j hj => ?_
        exact Image.free_payload good.shows sane live hc (by omega) (by omega)
      rw [same]
      exact ⟨rfl, rfl⟩
  refine ⟨after, (free_regions good.neat live).trans stale.regions, ?_, ?_, ?_⟩
  · exact free_covers good.neat stale.regions live (.inr stale.covers)
  · rw [fields.1]
    exact stale.magic
  · rw [fields.2]
    exact stale.flag

theorem Stale.store {k : ℕ} {value : UInt8} (stale : Stale base x s a) (writable : x.Writable k) :
    Stale base { x with heap := { x.heap with mem := x.heap.mem.put k value } } s a := by
  have good := stale.good
  have sane := good.neat.sane
  have same : header (x.heap.mem.put k value) a = header x.heap.mem a := by
    refine header_congr fun j hj => Bytes.put_ne _ _ ?_
    obtain ⟨c, hc, unused, place, fits⟩ := stale.covers
    obtain ⟨ptr, held, low, high⟩ := writable
    obtain ⟨b, hb, used, rfl⟩ := good.live.mp held
    rw [Image.blockOf_payload sane hb, (good.shows.holds.fields hb).2.1] at high
    have different := ne_of_used used unused
    have beyond := sane.payload_beyond hb hc different low high
    simp only [Block.payload] at place
    omega
  refine ⟨good.store writable, stale.regions, stale.covers, ?_, ?_⟩
  · show (header (x.heap.mem.put k value) a).magic = _
    rw [same]
    exact stale.magic
  · show (header (x.heap.mem.put k value) a).free ≠ 0
    rw [same]
    exact stale.flag

/-! ## The second call -/

/-- A further call of `free`, or a store of the client into a block in use. -/
def Releasing (x : Session) (a : Session.Act) (y : Session) : Prop :=
  x.Step a y ∧ ∀ c, a = .call c → ∃ ptr, c = .free ptr

theorem Stale.step {act : Session.Act} (stale : ∃ s, Stale base x s a) (step : Releasing x act y) :
    ∃ s, Stale base y s a := by
  obtain ⟨s, stale⟩ := stale
  obtain ⟨step, releases⟩ := step
  cases act with
  | call c =>
    obtain ⟨ptr, rfl⟩ := releases c rfl
    exact ⟨_, stale.release step⟩
  | store k value =>
    cases step with
    | store writable => exact ⟨s, stale.store writable⟩

/-- A pointer that is freed a second time, with nothing but calls of `free` and stores to live memory
in between, is recognised, and the heap stays as it is. -/
theorem double_free_detected (low : 4096 ≤ base) (high : base + initialHeapSize ≤ 2 ^ 64)
    (reached : Reached base mem x) (unexpanded : x.heap.regions = [⟨base, initialHeapSize⟩])
    (held : ptr ∈ x.out) (first : x.Step (.call (.free ptr)) y) (rest : Run Releasing y acts z) :
    (header z.heap.mem (Image.blockOf ptr)).free ≠ 0 ∧
      Image.free z.heap ptr = (.doubleFree, z.heap) := by
  obtain ⟨s, good⟩ := reached.good low high
  obtain ⟨b, hb, used, rfl⟩ := good.live.mp held
  have start := good.stale (good.shows.regions.symm.trans unexpanded) hb used first
  obtain ⟨s', stale⟩ := rest.invariant (P := fun z => ∃ s, Stale base z s b.addr)
    (fun _ _ _ stale step => Stale.step stale step) ⟨_, start⟩
  have block := Image.blockOf_payload good.neat.sane hb
  have nonnull : b.payload ≠ 0 := by simp [Block.payload, headerSize]
  refine ⟨by rw [block]; exact stale.flag, ?_⟩
  unfold Image.free
  dsimp only
  rw [block, if_neg nonnull, if_neg (not_not.mpr stale.magic), if_pos stale.flag]

theorem blank_double_free_detected :
    Image.free (Image.free (blankTaken 16) (heapBase + 40)).2 (heapBase + 40) =
      (.doubleFree, (Image.free (blankTaken 16) (heapBase + 40)).2) := by
  have reached := blankTaken_reached (by decide) (by decide : alignUp 16 = 16) (by decide)
  have legal : Session.Legal ⟨blankTaken 16, [heapBase + 40]⟩ (.free (heapBase + 40)) :=
    Or.inr (List.mem_singleton_self _)
  have first := Session.Step.call (v := noPages) (c := .free (heapBase + 40)) legal noPages_upward
    (.const fun _ => rfl)
  exact (double_free_detected (by decide) (by decide) reached rfl (List.mem_singleton_self _) first
    (.nil _)).2

/-! ### A header that was overwritten -/

/-- The heap after a request that no expansion is needed for. -/
def taken (h : Image) (n : ℕ) : Image := ((Image.malloc noPages 5 h n).map Prod.snd).getD h

theorem taken_converges {h : Image} {n : ℕ}
    (answer : (Image.malloc noPages 5 h n).map Prod.fst = some (some ptr)) :
    Converges (Image.malloc noPages · h n) (some ptr, taken h n) := by
  unfold taken
  cases done : Image.malloc noPages 5 h n with
  | none => simp [done] at answer
  | some result =>
    obtain ⟨r, h'⟩ := result
    rw [done, Option.map_some] at answer
    cases answer
    exact (Image.malloc_stable noPages h n).converges done

theorem taken_step {n : ℕ}
    (answer : (Image.malloc noPages 5 x.heap n).map Prod.fst = some (some ptr)) :
    x.Step (.call (.malloc n)) ⟨taken x.heap n, ptr :: x.out⟩ :=
  .call (c := .malloc n) (r := some ptr) trivial noPages_upward (taken_converges answer)

def three : Image := taken (taken (taken blank 64) 16) 16

/-- The second of them has been freed. -/
def hole : Image := (Image.free three (heapBase + 144)).2

/-- The first has been moved there by a `realloc` that wraps: its 64 bytes cover the 16 bytes of the
hole and the header of the third block. -/
def smashed : Image :=
  (Image.free { taken hole (2 ^ 64 - 1) with
    mem := (taken hole (2 ^ 64 - 1)).mem.copy (heapBase + 144) (heapBase + 40)
      (header (taken hole (2 ^ 64 - 1)).mem (Image.blockOf (heapBase + 40))).size }
    (heapBase + 40)).2

theorem smashed_step : Converges (hole.run noPages (.realloc (heapBase + 40) (2 ^ 64 - 1)))
    (some (heapBase + 144), smashed) := by
  have answer : Converges (Image.malloc noPages · hole (2 ^ 64 - 1))
      (some (heapBase + 144), taken hole (2 ^ 64 - 1)) := taken_converges (by decide +kernel)
  have moved := Image.realloc_moves (by decide : heapBase + 40 ≠ 0) (by decide +kernel)
    (by decide +kernel) answer
  exact moved

theorem smashed_run : Run Session.Step (Session.start heapBase fun _ => 0)
    [.call (.malloc 64), .call (.malloc 16), .call (.malloc 16), .call (.free (heapBase + 144)),
      .call (.realloc (heapBase + 40) (2 ^ 64 - 1))]
    ⟨smashed, [heapBase + 144, heapBase + 200]⟩ := by
  refine .cons (t := ⟨taken blank 64, [heapBase + 40]⟩) ?_
    (.cons (t := ⟨taken (taken blank 64) 16, [heapBase + 144, heapBase + 40]⟩) ?_
      (.cons (t := ⟨three, [heapBase + 200, heapBase + 144, heapBase + 40]⟩) ?_
        (.cons (t := ⟨hole, [heapBase + 200, heapBase + 40]⟩) ?_ (.cons ?_ (.nil _)))))
  · exact taken_step (x := Session.start heapBase fun _ => 0) (by decide +kernel)
  · exact taken_step (x := ⟨taken blank 64, [heapBase + 40]⟩) (by decide +kernel)
  · exact taken_step (x := ⟨taken (taken blank 64) 16, [heapBase + 144, heapBase + 40]⟩)
      (by decide +kernel)
  · have legal : Session.Legal ⟨three, [heapBase + 200, heapBase + 144, heapBase + 40]⟩
        (.free (heapBase + 144)) := Or.inr (by simp)
    exact .call (v := noPages) (r := none) legal noPages_upward (.const fun _ => rfl)
  · have legal : Session.Legal ⟨hole, [heapBase + 200, heapBase + 40]⟩
        (.realloc (heapBase + 40) (2 ^ 64 - 1)) := Or.inr (by simp)
    have out : [heapBase + 144, heapBase + 200] = Session.handOver [heapBase + 200, heapBase + 40]
        (some (heapBase + 144)) (.realloc (heapBase + 40) (2 ^ 64 - 1)) := by decide
    rw [out]
    refine Session.Step.call legal noPages_upward ?_
    dsimp only
    exact smashed_step

/-- The third block's header is gone: `free` rejects its pointer, the second time too, and never
marks it. -/
theorem overwritten_header_not_marked : ∃ acts x y,
    Run Session.Step (Session.start heapBase fun _ => 0) acts x ∧
      x.heap.regions = [⟨heapBase, initialHeapSize⟩] ∧ heapBase + 200 ∈ x.out ∧
      x.Step (.call (.free (heapBase + 200))) y ∧
      (header y.heap.mem (Image.blockOf (heapBase + 200))).free = 0 ∧
      (Image.free y.heap (heapBase + 200)).1 = .invalid := by
  have legal : Session.Legal ⟨smashed, [heapBase + 144, heapBase + 200]⟩ (.free (heapBase + 200)) :=
    Or.inr (by simp)
  refine ⟨_, _, _, smashed_run, by decide +kernel, by simp,
    .call (v := noPages) legal noPages_upward (.const fun _ => rfl), by decide +kernel,
    by decide +kernel⟩

end Thuban.Heap

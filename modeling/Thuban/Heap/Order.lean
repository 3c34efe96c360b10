import Thuban.Heap.Restore
import Thuban.Heap.Memory

/-!
# The order of the heap's blocks

`vmm_alloc` hands out ever higher addresses, so the list of blocks is ordered by address, and it stays
so even when `coalesce` joins blocks of two regions: the joined block ends no later than the second
of them did.  Along with the order every call keeps the two sums that `total_heap_size` and
`used_heap_size` stand for (`Neat`).
-/

namespace Thuban.Heap

open Lib

def span (blocks : List Block) : ℕ := (blocks.map fun b => b.size + headerSize).sum

def Ascending (blocks : List Block) : Prop := blocks.Pairwise fun b c => b.limit ≤ c.addr

/-- A list that the code can work with: its headers are intact, its blocks lie in the address space
and do not overlap. -/
structure Sane (blocks : List Block) : Prop where
  magic : ∀ b ∈ blocks, b.magic = heapMagic
  low : ∀ b ∈ blocks, 4096 ≤ b.addr
  high : ∀ b ∈ blocks, b.limit ≤ 2 ^ 64
  room : ∀ b ∈ blocks, b.payload < 2 ^ 64
  apart : Apart Block.extent blocks

/-- The memory manager hands out nothing that a block of the heap covers, now or after further
expansions. -/
def Avoids (v : Vmm) (h : State) : Prop :=
  ∀ rs n a, h.regions ⊆ rs → v.alloc rs n = some a →
    ∀ b ∈ h.blocks, a + n * 4096 ≤ b.addr ∨ b.limit ≤ a

/-- What holds in every state of the heap whose `initial_heap` is at `base`. -/
structure Neat (base : ℕ) (h : State) : Prop where
  floor : 4096 ≤ base
  magic : ∀ b ∈ h.blocks, b.magic = heapMagic
  low : ∀ b ∈ h.blocks, base ≤ b.addr
  ascending : Ascending h.blocks
  high : ∀ b ∈ h.blocks, ∃ r ∈ h.regions, b.limit ≤ r.base + r.len
  room : ∀ b ∈ h.blocks, b.payload < 2 ^ 64
  regions : ∀ r ∈ h.regions, base ≤ r.base ∧ r.base + r.len ≤ 2 ^ 64
  total : h.total = span h.blocks
  given : h.total = (h.regions.map Region.len).sum
  used : h.used = headerSize + occupied h.blocks

variable {base : ℕ} {h h' : State} {pre post mid parts blocks : List Block} {b c n : Block} {v : Vmm}

/-! ## Sums -/

theorem span_append (l₁ l₂ : List Block) : span (l₁ ++ l₂) = span l₁ + span l₂ := by
  simp [span]

theorem span_cons (b : Block) (l : List Block) : span (b :: l) = b.size + headerSize + span l := by
  simp [span]

theorem occupied_append (l₁ l₂ : List Block) :
    occupied (l₁ ++ l₂) = occupied l₁ + occupied l₂ := by
  simp [occupied, inUse_append]

theorem occupied_cons_free (free : b.free = true) (l : List Block) :
    occupied (b :: l) = occupied l := by
  simp [occupied, inUse_cons_free free]

theorem occupied_cons_used (used : b.free = false) (l : List Block) :
    occupied (b :: l) = b.size + headerSize + occupied l := by
  simp [occupied, inUse_cons_used used]

theorem occupied_le_span (l : List Block) : occupied l ≤ span l := by
  induction l with
  | nil => exact le_rfl
  | cons b rest ih =>
    rw [span_cons]
    cases free : b.free with
    | false =>
      rw [occupied_cons_used free]
      omega
    | true =>
      rw [occupied_cons_free free]
      omega

theorem header_add_occupied_le_iff :
    headerSize + occupied blocks ≤ span blocks ↔ ∃ b ∈ blocks, b.free = true := by
  induction blocks with
  | nil => simp [occupied, inUse, span, headerSize]
  | cons b rest ih =>
    rw [span_cons]
    cases free : b.free with
    | false =>
      rw [occupied_cons_used free, Nat.add_left_comm, Nat.add_le_add_iff_left, ih]
      simp [free]
    | true =>
      have := occupied_le_span rest
      rw [occupied_cons_free free]
      simp only [headerSize, List.mem_cons, exists_eq_or_imp, free, true_or, iff_true]
      omega

theorem Ascending.span_le (ascending : Ascending blocks) {lo hi : ℕ} (room : lo ≤ hi)
    (low : ∀ b ∈ blocks, lo ≤ b.addr) (high : ∀ b ∈ blocks, b.limit ≤ hi) :
    lo + span blocks ≤ hi := by
  induction blocks generalizing lo with
  | nil => simpa [span] using room
  | cons b rest ih =>
    have first : lo ≤ b.addr := low b (by simp)
    have inside : b.limit ≤ hi := high b (by simp)
    obtain ⟨behind, ascending⟩ := List.pairwise_cons.mp ascending
    have later := ih ascending inside behind fun c hc => high c (by simp [hc])
    rw [span_cons]
    simp only [Block.limit] at later
    omega

/-! ## Replacing part of the list -/

theorem Ascending.replace (ascending : Ascending (pre ++ (mid ++ post))) (inner : Ascending parts)
    (low : ∀ c ∈ parts, ∃ x ∈ mid, x.addr ≤ c.addr)
    (high : ∀ c ∈ parts, ∃ y ∈ mid, c.limit ≤ y.limit) :
    Ascending (pre ++ (parts ++ post)) := by
  unfold Ascending at *
  rw [List.pairwise_append, List.pairwise_append] at ascending
  obtain ⟨before, ⟨-, behind, inside⟩, across⟩ := ascending
  rw [List.pairwise_append, List.pairwise_append]
  refine ⟨before, ⟨inner, behind, fun c hc d hd => ?_⟩, fun a ha d hd => ?_⟩
  · obtain ⟨y, hy, le⟩ := high c hc
    exact le.trans (inside y hy d hd)
  · rcases List.mem_append.mp hd with hd | hd
    · obtain ⟨x, hx, le⟩ := low d hd
      exact (across a ha x (by simp [hx])).trans le
    · exact across a ha d (by simp [hd])

section

variable (neat : Neat base h)

include neat

theorem Neat.limit_le (hb : b ∈ h.blocks) : b.limit ≤ 2 ^ 64 := by
  obtain ⟨r, hr, le⟩ := neat.high b hb
  exact le.trans (neat.regions r hr).2

theorem Neat.page_le (hb : b ∈ h.blocks) : 4096 ≤ b.addr :=
  neat.floor.trans (neat.low b hb)

theorem Neat.span_le : 4096 + span h.blocks ≤ 2 ^ 64 :=
  neat.ascending.span_le (by norm_num) (fun _ hb => neat.page_le hb) fun _ hb => neat.limit_le hb

theorem Neat.sane : Sane h.blocks where
  magic := neat.magic
  low := fun _ hb => neat.page_le hb
  high := fun _ hb => neat.limit_le hb
  room := neat.room
  apart := by
    refine neat.ascending.imp fun {b c} le => ?_
    rw [Block.extent, Block.extent, Set.Ico_disjoint_Ico]
    omega

theorem Neat.avoids (upward : v.Upward) : Avoids v h := by
  intro rs n a old answer b hb
  obtain ⟨r, hr, le⟩ := neat.high b hb
  exact .inr (le.trans (upward rs n a answer r (old hr)))

/-- A step that replaces neighbours of the list by blocks of the same extent altogether. -/
theorem Neat.replace (pre mid parts post : List Block) (before : h.blocks = pre ++ (mid ++ post))
    (after : h'.blocks = pre ++ (parts ++ post)) (regions : h'.regions = h.regions)
    (total : h'.total = h.total) (inner : Ascending parts)
    (low : ∀ c ∈ parts, ∃ x ∈ mid, x.addr ≤ c.addr)
    (high : ∀ c ∈ parts, ∃ y ∈ mid, c.limit ≤ y.limit) (magic : ∀ c ∈ parts, c.magic = heapMagic)
    (room : ∀ c ∈ parts, c.payload < 2 ^ 64) (same : span parts = span mid)
    (used : h'.used = headerSize + occupied h'.blocks) : Neat base h' := by
  have member : ∀ x ∈ mid, x ∈ h.blocks := by
    intro x hx
    rw [before]
    simp [hx]
  constructor
  case floor => exact neat.floor
  case magic => exact forall_replaced mid parts before after neat.magic magic
  case low =>
    apply forall_replaced mid parts before after neat.low
    intro d hd
    obtain ⟨x, hx, le⟩ := low d hd
    exact (neat.low x (member x hx)).trans le
  case ascending =>
    have ascending := neat.ascending
    rw [before] at ascending
    rw [after]
    exact ascending.replace inner low high
  case high =>
    rw [regions]
    apply forall_replaced mid parts before after neat.high
    intro d hd
    obtain ⟨y, hy, le⟩ := high d hd
    obtain ⟨r, hr, le'⟩ := neat.high y (member y hy)
    exact ⟨r, hr, le.trans le'⟩
  case room => exact forall_replaced mid parts before after neat.room room
  case regions =>
    rw [regions]
    exact neat.regions
  case total =>
    rw [total, neat.total, before, after]
    simp only [span_append, same]
  case given =>
    rw [total, regions]
    exact neat.given
  case used => exact used

theorem Neat.congr (blocks : h'.blocks = h.blocks) (regions : h'.regions = h.regions)
    (total : h'.total = h.total) (used : h'.used = h.used) : Neat base h' := by
  obtain ⟨floor, magic, low, ascending, high, room, bound, sum, given, taken⟩ := neat
  rw [← blocks] at magic low ascending high room sum taken
  rw [← regions] at high bound given
  rw [← total] at sum given
  rw [← used] at taken
  exact ⟨floor, magic, low, ascending, high, room, bound, sum, given, taken⟩

end

/-! ## Lists without overlaps -/

theorem extent_subset_iff : c.extent ⊆ b.extent ↔ b.addr ≤ c.addr ∧ c.limit ≤ b.limit := by
  apply Set.Ico_subset_Ico_iff
  simp only [Block.limit, headerSize]
  omega

theorem Sane.replace (sane : Sane (pre ++ b :: post)) (parts : List Block)
    (inside : ∀ c ∈ parts, c.extent ⊆ b.extent)
    (apart : Apart Block.extent parts) (magic : ∀ c ∈ parts, c.magic = heapMagic)
    (room : ∀ c ∈ parts, c.payload < 2 ^ 64) : Sane (pre ++ (parts ++ post)) := by
  have hb : b ∈ pre ++ b :: post := by simp
  constructor
  case magic => exact forall_replaced [b] parts rfl rfl sane.magic magic
  case low =>
    apply forall_replaced [b] parts rfl rfl sane.low
    exact fun c hc => (sane.low b hb).trans (extent_subset_iff.mp (inside c hc)).1
  case high =>
    apply forall_replaced [b] parts rfl rfl sane.high
    exact fun c hc => (extent_subset_iff.mp (inside c hc)).2.trans (sane.high b hb)
  case room => exact forall_replaced [b] parts rfl rfl sane.room room
  case apart => exact sane.apart.split inside apart

theorem Sane.reflag (sane : Sane (pre ++ b :: post)) (flag : Bool) :
    Sane (pre ++ { b with free := flag } :: post) := by
  refine sane.replace [{ b with free := flag }] ?_ (List.pairwise_singleton _ _) ?_ ?_
  · exact List.forall_mem_singleton.mpr subset_rfl
  · exact List.forall_mem_singleton.mpr (sane.magic b (by simp))
  · exact List.forall_mem_singleton.mpr (sane.room b (by simp))

variable {size needed : ℕ}

theorem carve_room (fits : size ≤ b.size) (low : 4096 ≤ b.addr) (high : b.limit ≤ 2 ^ 64)
    (room : b.payload < 2 ^ 64) :
    ∀ c ∈ (carve size b).1 :: (carve size b).2, c.payload < 2 ^ 64 := by
  unfold carve
  split_ifs with large
  · simp only [List.mem_cons, List.not_mem_nil, or_false, forall_eq_or_imp, forall_eq]
    refine ⟨room, ?_⟩
    simp only [Block.payload, Block.limit, wrap, headerSize] at *
    omega
  · simp only [List.mem_singleton, forall_eq]
    exact room

theorem Sane.take (sane : Sane (pre ++ b :: post)) (fits : size ≤ b.size) :
    Sane (pre ++ ((carve size b).1 :: (carve size b).2 ++ post)) := by
  obtain ⟨inside, apart⟩ := carve_parts fits (sane.low b (by simp)) (sane.high b (by simp))
  exact sane.replace _ inside apart (carve_magic (sane.magic b (by simp)))
    (carve_room fits (sane.low b (by simp)) (sane.high b (by simp)) (sane.room b (by simp)))

theorem Sane.append (sane : Sane blocks) (magic : b.magic = heapMagic) (low : 4096 ≤ b.addr)
    (high : b.limit ≤ 2 ^ 64) (room : b.payload < 2 ^ 64)
    (outside : ∀ c ∈ blocks, Disjoint c.extent b.extent) : Sane (blocks ++ [b]) where
  magic := forall_concat sane.magic magic
  low := forall_concat sane.low low
  high := forall_concat sane.high high
  room := forall_concat sane.room room
  apart := sane.apart.append_fresh outside

/-! ## Allocation -/

theorem Tiles.ascending {a e : ℕ} (tiles : Tiles a blocks e) :
    Ascending blocks ∧ (∀ c ∈ blocks, a ≤ c.addr ∧ c.limit ≤ e) ∧ a + span blocks = e := by
  induction blocks generalizing a with
  | nil => exact ⟨List.Pairwise.nil, by simp, tiles⟩
  | cons b rest ih =>
    obtain ⟨start, later⟩ := tiles
    obtain ⟨ascending, bounds, sum⟩ := ih later
    have fits := later.le
    refine ⟨List.pairwise_cons.mpr ⟨fun c hc => (bounds c hc).1, ascending⟩, ?_, ?_⟩
    · intro c hc
      rcases List.mem_cons.mp hc with rfl | hc
      · exact ⟨start.ge, fits⟩
      · have := bounds c hc
        simp only [Block.limit] at this ⊢
        omega
    · rw [span_cons]
      simp only [Block.limit] at sum
      omega

theorem occupied_of_free (free : ∀ c ∈ blocks, c.free = true) : occupied blocks = 0 := by
  simp [occupied, inUse_of_free free]

theorem Neat.take (neat : Neat base h) (split : h.blocks = pre ++ b :: post) (free : b.free = true)
    (fits : size ≤ b.size) :
    Neat base { h with
      blocks := pre ++ ((carve size b).1 :: (carve size b).2 ++ post)
      used := wrap (h.used + ((carve size b).1.size + headerSize)) } := by
  have member := mem_of_split split
  obtain ⟨ascending, bounds, sum⟩ :=
    (carve_tiles fits (neat.page_le member) (neat.limit_le member)).ascending
  have spans : span ((carve size b).1 :: (carve size b).2) = span [b] := by
    rw [span_cons b, span]
    simp only [Block.limit, span] at sum ⊢
    simp only [List.map_nil, List.sum_nil]
    omega
  have magic := @carve_magic size b (neat.magic b member)
  refine neat.replace pre [b] ((carve size b).1 :: (carve size b).2) post split rfl rfl rfl ascending
    (fun c hc => ⟨b, by simp, (bounds c hc).1⟩) (fun c hc => ⟨b, by simp, (bounds c hc).2⟩)
    magic (carve_room fits (neat.page_le member) (neat.limit_le member) (neat.room b member)) spans ?_
  -- the bytes handed out before, and those of the new block
  have count : occupied (pre ++ ((carve size b).1 :: (carve size b).2 ++ post)) =
      occupied h.blocks + ((carve size b).1.size + headerSize) := by
    rw [split, occupied_append, occupied_append, occupied_append,
      occupied_cons_used (carve_used size b), occupied_cons_free free,
      occupied_of_free (carve_rest_free size b)]
    omega
  have bound := neat.span_le
  have le := occupied_le_span (pre ++ ((carve size b).1 :: (carve size b).2 ++ post))
  rw [span_append, span_append, spans, ← span_append, ← span_append, List.singleton_append,
    ← split] at le
  show wrap (h.used + ((carve size b).1.size + headerSize)) = _
  rw [count] at le ⊢
  rw [neat.used, wrap_of_lt (by simp only [headerSize] at *; omega)]
  omega

theorem expandHeap_neat (neat : Neat base h) (nonempty : h.blocks ≠ []) (upward : v.Upward)
    (grown : expandHeap v h needed = some h') : Neat base h' := by
  obtain ⟨a, answer, some_pages, rfl⟩ := expandHeap_cases grown
  have aligned := v.pageAligned _ _ _ answer
  have fits := v.noWrap _ _ _ answer
  have above := upward _ _ _ answer
  generalize pagesFor needed = pages at *
  set new : Block := ⟨a, heapMagic, pages * 4096 - headerSize, true⟩ with new_eq
  have limit : new.limit = a + pages * 4096 := by
    simp only [new_eq, Block.limit, headerSize]
    omega
  have ascending : Ascending (h.blocks ++ [new]) := by
    unfold Ascending
    rw [List.pairwise_append]
    refine ⟨neat.ascending, List.pairwise_singleton _ _, fun b hb c hc => ?_⟩
    rw [List.mem_singleton.mp hc]
    obtain ⟨r, hr, le⟩ := neat.high b hb
    exact le.trans (above r hr)
  have low : ∀ b ∈ h.blocks ++ [new], 4096 ≤ b.addr := by
    apply forall_concat fun b hb => neat.page_le hb
    show 4096 ≤ a
    omega
  have above_base : base ≤ a := by
    obtain ⟨b, hb⟩ := List.exists_mem_of_ne_nil _ nonempty
    obtain ⟨r, hr, -⟩ := neat.high b hb
    have := (neat.regions r hr).1
    have := above r hr
    omega
  have high : ∀ b ∈ h.blocks ++ [new], b.limit ≤ 2 ^ 64 := by
    apply forall_concat fun b hb => neat.limit_le hb
    rw [limit]
    exact fits
  have sum : span (h.blocks ++ [new]) = h.total + pages * 4096 := by
    rw [span_append, neat.total]
    simp only [span, new_eq, headerSize, List.map_cons, List.map_nil, List.sum_cons,
      List.sum_nil]
    omega
  have bound := ascending.span_le (by norm_num) low high
  constructor
  case floor => exact neat.floor
  case magic => exact forall_concat neat.magic rfl
  case low => exact forall_concat neat.low above_base
  case ascending => exact ascending
  case high =>
    refine forall_concat (fun b hb => ?_) ⟨⟨a, pages * 4096⟩, by simp, limit.le⟩
    obtain ⟨r, hr, le⟩ := neat.high b hb
    exact ⟨r, List.mem_append_left _ hr, le⟩
  case room =>
    apply forall_concat neat.room
    show a + headerSize < 2 ^ 64
    simp only [headerSize]
    omega
  case regions => exact forall_concat neat.regions ⟨above_base, fits⟩
  case total =>
    show wrap (h.total + pages * 4096) = _
    rw [sum, wrap_of_lt (by omega)]
  case given =>
    show wrap (h.total + pages * 4096) = _
    rw [wrap_of_lt (by omega), neat.given, List.map_append, List.sum_append]
    simp
  case used =>
    show h.used = _
    have nothing : occupied [new] = 0 := occupied_of_free (by simp [new_eq])
    rw [occupied_append, nothing, neat.used, Nat.add_zero]

theorem expandHeap_nonempty (grown : expandHeap v h needed = some h') : h'.blocks ≠ [] := by
  obtain ⟨a, -, -, rfl⟩ := expandHeap_cases grown
  simp

theorem malloc_neat {fuel : ℕ} {r : Option ℕ} (neat : Neat base h) (nonempty : h.blocks ≠ [])
    (upward : v.Upward) (done : malloc v fuel h size = some (r, h')) : Neat base h' := by
  have rounds := malloc_rounds done
  clear done
  induction rounds with
  | fails => exact neat
  | takes split free fits => exact neat.take split free fits
  | expands grown _ ih =>
    exact ih (expandHeap_neat neat nonempty upward grown) (expandHeap_nonempty grown)

/-! ## Release -/

theorem Neat.join (neat : Neat base h) (before : h.blocks = pre ++ b :: n :: post)
    (free : b.free = true) (free' : n.free = true) :
    Neat base { h with
      blocks := pre ++ { b with size := wrap (b.size + (headerSize + n.size)) } :: post } := by
  have hb := mem_of_split before
  have hn : n ∈ h.blocks := by
    rw [before]
    simp
  have order : b.limit ≤ n.addr := by
    have ascending := neat.ascending
    rw [before] at ascending
    exact List.rel_of_pairwise_cons (List.pairwise_append.mp ascending).2.1 (by simp)
  have high := neat.limit_le hn
  have exact : wrap (b.size + (headerSize + n.size)) = b.size + (headerSize + n.size) := by
    apply wrap_of_lt
    simp only [Block.limit, headerSize] at order high ⊢
    omega
  rw [exact]
  set joined : Block := { b with size := b.size + (headerSize + n.size) } with joined_eq
  refine neat.replace pre [b, n] [joined] post before rfl rfl rfl (List.pairwise_singleton _ _)
    ?_ ?_ ?_ ?_ ?_ ?_
  · simp [joined_eq]
  · simp only [forall_eq, List.mem_cons, List.not_mem_nil, or_false]
    refine ⟨n, .inr rfl, ?_⟩
    simp only [joined_eq, Block.limit] at order ⊢
    omega
  · exact List.forall_mem_singleton.mpr (neat.magic b hb)
  · exact List.forall_mem_singleton.mpr (neat.room b hb)
  · simp only [span, joined_eq, List.map_cons, List.map_nil, List.sum_cons, List.sum_nil]
    omega
  · have same : joined.free = true := free
    show h.used = _
    rw [neat.used, before, occupied_append, occupied_append, occupied_cons_free free,
      occupied_cons_free free', occupied_cons_free same]

theorem free_total (h : State) (ptr : ℕ) : (free h ptr).total = h.total := by
  unfold free coalesce
  repeat' first | rfl | split

theorem Neat.mark (neat : Neat base h) (before : h.blocks = pre ++ b :: post) (used : b.free = false) :
    Neat base { h with
      blocks := pre ++ { b with free := true } :: post
      used := wrap (h.used + 2 ^ 64 - (b.size + headerSize)) } := by
  have hb := mem_of_split before
  refine neat.replace pre [b] [{ b with free := true }] post before rfl rfl rfl
    (List.pairwise_singleton _ _) (by simp) ?_ ?_ ?_ rfl ?_
  · simp [Block.limit]
  · exact List.forall_mem_singleton.mpr (neat.magic b hb)
  · exact List.forall_mem_singleton.mpr (neat.room b hb)
  · have bound := neat.span_le
    have le := occupied_le_span h.blocks
    have count : occupied h.blocks = b.size + headerSize +
        occupied (pre ++ { b with free := true } :: post) := by
      rw [before, occupied_append, occupied_append, occupied_cons_used used,
        occupied_cons_free rfl]
      omega
    show wrap (h.used + 2 ^ 64 - (b.size + headerSize)) = _
    rw [neat.used]
    simp only [wrap, headerSize] at count ⊢
    omega

theorem free_neat {ptr : ℕ} (neat : Neat base h) (live : Live h ptr) : Neat base (free h ptr) := by
  obtain ⟨pre, b, post, split, used, -, regions, total, blocks⟩ :=
    free_live neat.magic neat.sane.apart live
  have closed := merges_keep
    (P := fun l => Neat base { h with
      blocks := l
      used := wrap (h.used + 2 ^ 64 - (b.size + headerSize)) })
    (fun _ _ _ _ free free' neat => neat.join rfl free free') rfl (neat.mark split used)
  exact closed.congr blocks regions (free_total h ptr) total

end Thuban.Heap

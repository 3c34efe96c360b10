import Thuban.Heap.Model
import Thuban.Lib.Extents
import Thuban.Lib.Run

/-!
# Which memory the heap's blocks cover

`coalesce` joins neighbours of the list.  As long as every pair it joins is adjacent in memory,
each block stays inside memory the heap owns and no two blocks overlap
(`sound_of_adjacent_merges`).  When the last block of one region and the first block of the next
are both free, it joins them although unrelated memory lies between (`merge_across_regions`).
-/

namespace Thuban.Heap

open Lib

def Block.extent (b : Block) : Set ℕ := Set.Ico b.addr b.limit

def Region.extent (r : Region) : Set ℕ := Set.Ico r.base (r.base + r.len)

/-- The addresses the heap owns. -/
def owned (h : State) : Set ℕ := {x | ∃ r ∈ h.regions, x ∈ r.extent}

/-- Every block lies in memory the heap owns, and no two blocks overlap. -/
structure Sound (h : State) : Prop where
  inside : ∀ b ∈ h.blocks, b.extent ⊆ owned h
  apart : Apart Block.extent h.blocks

/-- The free list-neighbours of the block at `a` are also its neighbours in memory. -/
def MergesAdjacent (h : State) (a : ℕ) : Prop :=
  ∀ before b after, h.blocks = before ++ b :: after → b.addr = a →
    (∀ n ∈ after.head?, n.free = true → b.limit = n.addr) ∧
      ∀ p ∈ before.getLast?, p.free = true → p.limit = b.addr

/-- Whenever the call comes to `coalesce`, the blocks it joins are adjacent in memory; and a
`realloc` that may move asks for a size that does not wrap when it is rounded, for otherwise it
copies more than the new block has room for. -/
def Call.Guard (v : Vmm) (h : State) : Call → Prop
  | .malloc _ => True
  | .calloc _ _ => True
  | .free ptr => MergesAdjacent h (ptr - headerSize)
  | .realloc ptr size =>
      (ptr = 0 ∨ size + 15 < 2 ^ 64) ∧ (size = 0 → MergesAdjacent h (ptr - headerSize)) ∧
        ∀ b, headerAt h (ptr - headerSize) = some b → b.size < size →
          ∀ fuel q h', Heap.malloc v fuel h size = some (some q, h') →
            MergesAdjacent h' (ptr - headerSize)

def GuardedStep (h : State) (c : Call) (h' : State) : Prop :=
  c.Legal h ∧ ∃ v r, Converges (c.run v h) (r, h') ∧ c.Guard v h

/-- What every reachable state satisfies. -/
structure Inv (h : State) : Prop extends Sound h where
  magic : ∀ b ∈ h.blocks, b.magic = heapMagic
  regions : ∀ r ∈ h.regions, 4096 ≤ r.base ∧ r.base + r.len ≤ 2 ^ 64

/-! ## Extents -/

theorem addr_mem_extent (b : Block) : b.addr ∈ b.extent := by
  simp only [Block.extent, Block.limit, headerSize, Set.mem_Ico]
  omega

variable {h h' s : State} {b c : Block} {size needed fuel ptr : ℕ} {pre post : List Block} {v : Vmm}
  {r : Option ℕ}

theorem Inv.bounds (inv : Inv h) (hb : b ∈ h.blocks) : 4096 ≤ b.addr ∧ b.limit ≤ 2 ^ 64 := by
  obtain ⟨r, hr, low⟩ := inv.inside b hb (addr_mem_extent b)
  have last : b.limit - 1 ∈ b.extent := by
    simp only [Block.extent, Block.limit, headerSize, Set.mem_Ico]
    omega
  obtain ⟨q, hq, high⟩ := inv.inside b hb last
  have hr := inv.regions r hr
  have hq := inv.regions q hq
  simp only [Region.extent, Set.mem_Ico] at low high
  omega

/-! ## Allocation -/

theorem scan_taken {blocks blocks' : List Block} (h : scan size blocks = .taken c blocks') :
    ∃ pre b post, blocks = pre ++ b :: post ∧ b.magic = heapMagic ∧ b.free = true ∧
      size ≤ b.size ∧ c = (carve size b).1 ∧
      blocks' = pre ++ ((carve size b).1 :: (carve size b).2 ++ post) := by
  induction blocks generalizing blocks' with
  | nil => simp [scan] at h
  | cons b rest ih =>
    rw [scan] at h
    split_ifs at h with corrupt fits
    · simp only [Scan.taken.injEq] at h
      refine ⟨[], b, rest, rfl, not_not.mp corrupt, fits.1, fits.2, h.1.symm, ?_⟩
      rw [← h.2]
      simp
    · cases later : scan size rest with
      | corrupt => simp [later] at h
      | exhausted => simp [later] at h
      | taken d tail =>
        simp only [later] at h
        cases h
        obtain ⟨pre, e, post, rfl, hm, hf, hs, hd, rfl⟩ := ih later
        exact ⟨b :: pre, e, post, rfl, hm, hf, hs, hd, rfl⟩

theorem wrap_of_lt {n : ℕ} (small : n < 2 ^ 64) : wrap n = n := Nat.mod_eq_of_lt small

theorem wrap_room (fits : size ≤ b.size) (low : 4096 ≤ b.addr) (high : b.limit ≤ 2 ^ 64) :
    wrap (size + headerSize + 64) = size + headerSize + 64 := by
  apply wrap_of_lt
  simp only [Block.limit, headerSize] at high ⊢
  omega

theorem carve_parts (fits : size ≤ b.size) (low : 4096 ≤ b.addr) (high : b.limit ≤ 2 ^ 64) :
    (∀ c ∈ (carve size b).1 :: (carve size b).2, c.extent ⊆ b.extent) ∧
      Apart Block.extent ((carve size b).1 :: (carve size b).2) := by
  unfold carve
  rw [wrap_room fits low high]
  split_ifs with large
  · constructor
    · intro c hc
      simp only [List.mem_cons, List.not_mem_nil, or_false] at hc
      rcases hc with rfl | rfl
      all_goals
        apply Set.Ico_subset_Ico
        all_goals simp only [Block.limit, headerSize] at large ⊢; omega
    · apply List.pairwise_pair.mpr
      rw [Block.extent, Block.extent, Set.Ico_disjoint_Ico]
      simp only [Block.limit]
      omega
  · constructor
    · intro c hc
      simp only [List.mem_cons, List.not_mem_nil, or_false] at hc
      rw [hc]
      exact subset_rfl
    · exact List.pairwise_singleton _ _

theorem carve_magic {size : ℕ} {b : Block} (hm : b.magic = heapMagic) :
    ∀ c ∈ (carve size b).1 :: (carve size b).2, c.magic = heapMagic := by
  intro c hc
  unfold carve at hc
  split_ifs at hc <;> simp only [List.mem_cons, List.not_mem_nil, or_false] at hc
  · rcases hc with rfl | rfl
    · exact hm
    · rfl
  · rw [hc]
    exact hm

theorem Inv.congr (inv : Inv h) (blocks : h'.blocks = h.blocks) (regions : h'.regions = h.regions) :
    Inv h' := by
  have same : owned h' = owned h := by rw [owned, owned, regions]
  refine ⟨⟨?_, ?_⟩, ?_, ?_⟩
  · rw [blocks, same]
    exact inv.inside
  · rw [blocks]
    exact inv.apart
  · rw [blocks]
    exact inv.magic
  · rw [regions]
    exact inv.regions

theorem Inv.split {h h' : State} (inv : Inv h) {pre post parts : List Block} {b : Block}
    (before : h.blocks = pre ++ b :: post) (after : h'.blocks = pre ++ (parts ++ post))
    (regions : h'.regions = h.regions) (inside : ∀ c ∈ parts, c.extent ⊆ b.extent)
    (apart : Apart Block.extent parts) (magic : ∀ c ∈ parts, c.magic = heapMagic) : Inv h' := by
  have same : owned h' = owned h := by rw [owned, owned, regions]
  refine ⟨⟨?_, ?_⟩, forall_replaced [b] parts before after inv.magic magic, ?_⟩
  · rw [same]
    apply forall_replaced [b] parts before after inv.inside
    intro c hc
    exact (inside c hc).trans (inv.inside b (mem_of_split before))
  · rw [after]
    have apart₀ := inv.apart
    rw [before] at apart₀
    exact apart₀.split inside apart
  · rw [regions]
    exact inv.regions

theorem Inv.replace (inv : Inv h) (before : h.blocks = pre ++ b :: post)
    (after : h'.blocks = pre ++ c :: post) (regions : h'.regions = h.regions)
    (inside : c.extent ⊆ b.extent) (magic : c.magic = heapMagic) : Inv h' := by
  refine @Inv.split h h' inv pre post [c] b before after regions ?_ (List.pairwise_singleton _ _) ?_
  · exact List.forall_mem_singleton.mpr inside
  · exact List.forall_mem_singleton.mpr magic

theorem expandHeap_eq_none :
    expandHeap v s needed = none ↔ v.alloc s.regions (pagesFor needed) = none := by
  unfold expandHeap
  dsimp only
  cases v.alloc s.regions (pagesFor needed) <;> simp

theorem expandHeap_cases {s' : State} (grown : expandHeap v s needed = some s') :
    ∃ a, v.alloc s.regions (pagesFor needed) = some a ∧ pagesFor needed ≠ 0 ∧ s' = { s with
      blocks := s.blocks ++ [⟨a, heapMagic, pagesFor needed * 4096 - headerSize, true⟩]
      total := wrap (s.total + pagesFor needed * 4096)
      regions := s.regions ++ [⟨a, pagesFor needed * 4096⟩] } := by
  unfold expandHeap at grown
  dsimp only at grown
  cases answer : v.alloc s.regions (pagesFor needed) with
  | none =>
    rw [answer] at grown
    cases grown
  | some a =>
    rw [answer] at grown
    refine ⟨a, rfl, ?_, (Option.some.inj grown).symm⟩
    intro none_asked
    rw [none_asked, v.none_of_zero] at answer
    cases answer

theorem expandHeap_inv (inv : Inv h) (grown : expandHeap v h needed = some h') : Inv h' := by
  obtain ⟨a, answer, some_pages, rfl⟩ := expandHeap_cases grown
  have aligned := v.pageAligned _ _ _ answer
  have fits := v.noWrap _ _ _ answer
  have fresh := v.fresh _ _ _ answer
  generalize pagesFor needed = pages at *
  have extent : (⟨a, heapMagic, pages * 4096 - headerSize, true⟩ : Block).extent =
      (⟨a, pages * 4096⟩ : Region).extent := by
    have : a + headerSize + (pages * 4096 - headerSize) = a + pages * 4096 := by
      simp only [headerSize]
      omega
    rw [Block.extent, Region.extent, Block.limit, this]
  refine ⟨⟨forall_concat ?_ ?_, ?_⟩, forall_concat inv.magic rfl, forall_concat inv.regions ?_⟩
  · intro b hb x hx
    obtain ⟨r, hr, hx⟩ := inv.inside b hb hx
    exact ⟨r, by simp [hr], hx⟩
  · rw [extent]
    intro x hx
    exact ⟨_, by simp, hx⟩
  · apply inv.apart.append_fresh
    intro b hb
    rw [extent]
    refine Set.disjoint_of_subset_left (inv.inside b hb) (Set.disjoint_left.mpr ?_)
    rintro x ⟨r, hr, hx⟩ hx'
    have := fresh r hr
    simp only [Region.extent, Set.mem_Ico] at hx hx'
    omega
  · show 4096 ≤ a ∧ a + pages * 4096 ≤ 2 ^ 64
    omega

theorem alignUp_alignUp (size : ℕ) : alignUp (alignUp size) = alignUp size := by
  simp only [alignUp, wrap]
  omega

/-- What one round of `malloc` can do: give up, take a block of the list, or expand the heap and
start over. -/
inductive Round (v : Vmm) : State → ℕ → Option ℕ → State → Prop
  | fails {s : State} {size : ℕ} : Round v s size none s
  | takes {s : State} {size : ℕ} {pre post : List Block} {b : Block}
      (split : s.blocks = pre ++ b :: post) (free : b.free = true) (fits : alignUp size ≤ b.size) :
      Round v s size (some (carve (alignUp size) b).1.payload) { s with
        blocks := pre ++ ((carve (alignUp size) b).1 :: (carve (alignUp size) b).2 ++ post)
        used := wrap (s.used + ((carve (alignUp size) b).1.size + headerSize)) }
  | expands {s larger s' : State} {size : ℕ} {r : Option ℕ}
      (grown : expandHeap v s (alignUp size) = some larger)
      (later : Round v larger (alignUp size) r s') : Round v s size r s'

theorem malloc_rounds (done : malloc v fuel s size = some (r, s')) : Round v s size r s' := by
  induction fuel generalizing s size with
  | zero => simp [malloc] at done
  | succ fuel ih =>
    rw [malloc] at done
    split_ifs at done with empty
    · cases done
      exact .fails
    cases found : scan (alignUp size) s.blocks with
    | corrupt =>
      simp only [found] at done
      cases done
      exact .fails
    | taken c blocks =>
      simp only [found, Option.some.injEq, Prod.mk.injEq] at done
      obtain ⟨pre, b, post, split, -, free, fits, rfl, rfl⟩ := scan_taken found
      obtain ⟨rfl, rfl⟩ := done
      exact .takes split free fits
    | exhausted =>
      simp only [found] at done
      cases grown : expandHeap v s (alignUp size) with
      | none =>
        simp only [grown] at done
        cases done
        exact .fails
      | some larger =>
        simp only [grown] at done
        exact .expands grown (ih done)

theorem malloc_inv (inv : Inv h) (done : malloc v fuel h size = some (r, h')) : Inv h' := by
  have rounds := malloc_rounds done
  clear done
  induction rounds with
  | fails => exact inv
  | @takes h size pre post b split free fits =>
    have hb := mem_of_split split
    obtain ⟨low, high⟩ := inv.bounds hb
    obtain ⟨inside, apart⟩ := carve_parts fits low high
    exact inv.split split rfl rfl inside apart (carve_magic (inv.magic b hb))
  | expands grown _ ih => exact ih (expandHeap_inv inv grown)

/-! ## Release -/

theorem headerAt_live (apart : Apart Block.extent h.blocks) (live : Live h ptr) :
    ∃ pre b post, h.blocks = pre ++ b :: post ∧ b.free = false ∧ b.payload = ptr ∧
      ptr ≠ 0 ∧ headerAt h (ptr - headerSize) = some b ∧ ∀ c ∈ pre ++ post, c.addr ≠ b.addr := by
  obtain ⟨b, hb, used, rfl⟩ := live
  have position : b.payload - headerSize = b.addr := by simp [Block.payload]
  obtain ⟨pre, post, split⟩ := List.append_of_mem hb
  have others : ∀ c ∈ pre ++ post, c.addr ≠ b.addr := by
    intro c hc same
    rw [split] at apart
    have hcb : Disjoint c.extent b.extent := by
      unfold Apart at apart
      rw [List.pairwise_append, List.pairwise_cons] at apart
      rcases List.mem_append.mp hc with hc | hc
      · exact apart.2.2 c hc b (by simp)
      · exact (apart.2.1.1 c hc).symm
    exact Set.disjoint_left.mp hcb (addr_mem_extent c) (same ▸ addr_mem_extent b)
  refine ⟨pre, b, post, split, used, rfl, ?_, ?_, others⟩
  · simp [Block.payload, headerSize]
  · rw [position, headerAt, split, List.append_assoc, List.find?_append]
    have skip : pre.find? (·.addr = b.addr) = none := by
      rw [List.find?_eq_none]
      intro c hc
      simpa using others c (by simp [hc])
    simp [skip]

theorem takeWhile_addr {pre post : List Block} {b : Block} {a : ℕ} (hb : b.addr = a)
    (others : ∀ c ∈ pre, c.addr ≠ a) :
    (pre ++ b :: post).takeWhile (·.addr ≠ a) = pre ∧
      (pre ++ b :: post).dropWhile (·.addr ≠ a) = b :: post := by
  constructor
  · rw [List.takeWhile_append_of_pos (by simpa using others)]
    simp [hb]
  · rw [List.dropWhile_append_of_pos (by simpa using others)]
    simp [hb]

theorem markFree_split (others : ∀ c ∈ pre ++ post, c.addr ≠ b.addr) :
    markFree b.addr (pre ++ b :: post) = pre ++ { b with free := true } :: post := by
  have same : ∀ l : List Block, (∀ c ∈ l, c.addr ≠ b.addr) → markFree b.addr l = l := by
    intro l hl
    refine (List.map_congr_left fun c hc => ?_).trans (List.map_id l)
    exact if_neg (hl c hc)
  have left := same pre fun c hc => others c (by simp [hc])
  have right := same post fun c hc => others c (by simp [hc])
  unfold markFree at *
  rw [List.map_append, List.map_cons, left, right, if_pos rfl]

theorem free_live (magic : ∀ b ∈ h.blocks, b.magic = heapMagic)
    (apart : Apart Block.extent h.blocks) (live : Live h ptr) :
    ∃ pre b post, h.blocks = pre ++ b :: post ∧ b.free = false ∧ b.payload = ptr ∧
      (free h ptr).regions = h.regions ∧
      (free h ptr).used = wrap (h.used + 2 ^ 64 - (b.size + headerSize)) ∧
      (free h ptr).blocks = (mergePrev pre (mergeNext { b with free := true } post).1).1 ++
        (mergeNext { b with free := true } post).2.1 := by
  obtain ⟨pre, b, post, split, used, pointer, nonnull, header, others⟩ := headerAt_live apart live
  have hm : b.magic = heapMagic := magic b (mem_of_split split)
  have marked := markFree_split others
  have ends := @takeWhile_addr pre post { b with free := true } b.addr rfl
    fun c hc => others c (by simp [hc])
  refine ⟨pre, b, post, split, used, pointer, ?_⟩
  have unused : ¬ b.free = true := by simp [used]
  unfold free
  rw [if_neg nonnull, header]
  dsimp only
  rw [if_neg (not_not.mpr hm), if_neg unused, split, marked]
  unfold coalesce
  simp only [ends.1, ends.2, and_self]

theorem mergeNext_cases (b : Block) (post : List Block) :
    ((mergeNext b post).1 = b ∧ (mergeNext b post).2.1 = post ∧
      ∀ n ∈ post.head?, n.free = false) ∨
    ∃ n rest, post = n :: rest ∧ n.free = true ∧
      (mergeNext b post).1 = { b with size := wrap (b.size + (headerSize + n.size)) } ∧
      (mergeNext b post).2.1 = rest := by
  cases post with
  | nil => exact .inl ⟨rfl, rfl, by simp⟩
  | cons n rest =>
    rw [mergeNext]
    split_ifs with joined
    · exact .inr ⟨n, rest, rfl, joined, rfl, rfl⟩
    · exact .inl ⟨rfl, rfl, by simpa using joined⟩

theorem mergePrev_cases (pre : List Block) (b : Block) :
    ((mergePrev pre b).1 = pre ++ [b] ∧ ∀ p ∈ pre.getLast?, p.free = false) ∨
    ∃ init p, pre = init ++ [p] ∧ p.free = true ∧
      (mergePrev pre b).1 =
        init ++ [{ p with size := wrap (p.size + (headerSize + b.size)) }] := by
  rcases pre.eq_nil_or_concat' with rfl | ⟨init, p, rfl⟩
  · exact .inl ⟨rfl, by simp⟩
  · rw [mergePrev, List.getLast?_concat, List.dropLast_concat]
    dsimp only
    split_ifs with joined
    · exact .inr ⟨init, p, rfl, joined, rfl⟩
    · exact .inl ⟨rfl, by simpa using joined⟩

/-- What joining two free neighbours keeps, both halves of `coalesce` keep. -/
theorem merges_keep {P : List Block → Prop}
    (join : ∀ pre b n post, b.free = true → n.free = true → P (pre ++ b :: n :: post) →
      P (pre ++ { b with size := wrap (b.size + (headerSize + n.size)) } :: post))
    (free : b.free = true) (before : P (pre ++ b :: post)) :
    P ((mergePrev pre (mergeNext b post).1).1 ++ (mergeNext b post).2.1) := by
  obtain ⟨free', first⟩ : (mergeNext b post).1.free = true ∧
      P (pre ++ (mergeNext b post).1 :: (mergeNext b post).2.1) := by
    rcases mergeNext_cases b post with ⟨here, rest, -⟩ | ⟨n, rest, rfl, joined, here, later⟩
    · rw [here, rest]
      exact ⟨free, before⟩
    · rw [here, later]
      exact ⟨free, join pre b n rest free joined before⟩
  rcases mergePrev_cases pre (mergeNext b post).1 with ⟨same, -⟩ | ⟨init, p, rfl, joined, same⟩
  · rw [same, List.append_assoc]
    exact first
  · rw [List.append_assoc] at first
    rw [same, List.append_assoc]
    exact join init p _ _ joined free' first

theorem extent_join (b n : Block) (adjacent : b.limit = n.addr) (high : n.limit ≤ 2 ^ 64)
    (low : 4096 ≤ b.addr) (c : Block) (hc : c.addr = b.addr)
    (size : c.size = wrap (b.size + (headerSize + n.size))) :
    c.extent ⊆ b.extent ∪ n.extent := by
  simp only [Block.limit, headerSize] at adjacent high
  have exact : wrap (b.size + (headerSize + n.size)) = b.size + (headerSize + n.size) := by
    apply wrap_of_lt
    simp only [headerSize]
    omega
  rw [exact] at size
  intro x hx
  simp only [Block.extent, Block.limit, hc, size, headerSize, Set.mem_Ico, Set.mem_union] at hx ⊢
  omega

/-- Joining two neighbours that are adjacent in memory keeps the invariant. -/
theorem Inv.join (inv : Inv h) {n : Block} (before : h.blocks = pre ++ b :: n :: post)
    (after : h'.blocks = pre ++ c :: post) (regions : h'.regions = h.regions)
    (adjacent : b.limit = n.addr) (addr : c.addr = b.addr)
    (size : c.size = wrap (b.size + (headerSize + n.size))) (magic : c.magic = b.magic) :
    Inv h' := by
  have hb := mem_of_split before
  have hn : n ∈ h.blocks := by rw [before]; simp
  have inside : c.extent ⊆ b.extent ∪ n.extent :=
    extent_join b n adjacent (inv.bounds hn).2 (inv.bounds hb).1 c addr size
  have same : owned h' = owned h := by rw [owned, owned, regions]
  refine ⟨⟨?_, ?_⟩, ?_, ?_⟩
  · rw [same]
    apply forall_replaced [b, n] [c] before after inv.inside
    refine List.forall_mem_singleton.mpr ?_
    exact inside.trans (Set.union_subset (inv.inside b hb) (inv.inside n hn))
  · rw [after]
    have apart := inv.apart
    rw [before] at apart
    exact apart.join inside
  · apply forall_replaced [b, n] [c] before after inv.magic
    exact List.forall_mem_singleton.mpr (magic.trans (inv.magic b hb))
  · rw [regions]
    exact inv.regions

theorem mergeNext_inv (inv : Inv h) (split : h.blocks = pre ++ b :: post)
    (adjacent : ∀ n ∈ post.head?, n.free = true → b.limit = n.addr) :
    Inv { h with blocks := pre ++ (mergeNext b post).1 :: (mergeNext b post).2.1 } := by
  rcases mergeNext_cases b post with ⟨here, rest, -⟩ | ⟨n, rest, rfl, joined, here, later⟩
  · rw [here, rest]
    exact inv.congr split.symm rfl
  · rw [here, later]
    exact inv.join split rfl rfl (adjacent n rfl joined) rfl rfl rfl

theorem mergeNext_addr (b : Block) (post : List Block) : (mergeNext b post).1.addr = b.addr := by
  rcases mergeNext_cases b post with ⟨here, -⟩ | ⟨n, rest, -, -, here, -⟩ <;> rw [here]

theorem mergePrev_inv (inv : Inv h) (split : h.blocks = pre ++ b :: post)
    (adjacent : ∀ p ∈ pre.getLast?, p.free = true → p.limit = b.addr) :
    Inv { h with blocks := (mergePrev pre b).1 ++ post } := by
  rcases mergePrev_cases pre b with ⟨same, -⟩ | ⟨init, p, rfl, joined, same⟩
  · rw [same, List.append_assoc]
    exact inv.congr split.symm rfl
  · rw [List.append_assoc] at split
    rw [same, List.append_assoc]
    exact inv.join split rfl rfl (adjacent p (by simp) joined) rfl rfl rfl

theorem free_inv (inv : Inv h) (live : Live h ptr) (adjacent : MergesAdjacent h (ptr - headerSize)) :
    Inv (free h ptr) := by
  obtain ⟨pre, b, post, split, -, rfl, regions, -, blocks⟩ := free_live inv.magic inv.apart live
  have position : b.addr = b.payload - headerSize := by simp [Block.payload]
  obtain ⟨next, prev⟩ := adjacent pre b post split position
  -- marking the block does not move it
  have marked : Inv { h with blocks := pre ++ { b with free := true } :: post } :=
    inv.replace split rfl rfl subset_rfl (inv.magic b (mem_of_split split))
  have joined := mergeNext_inv marked rfl next
  have closed := mergePrev_inv joined rfl (by
    intro p hp free
    rw [mergeNext_addr]
    exact prev p hp free)
  exact closed.congr blocks regions

/-! ## Runs -/

theorem free_null (h : State) : free h 0 = h := by simp [free]

theorem Round.mem_of_unfit (round : Round v h size r h') (hb : b ∈ h.blocks)
    (unfit : ¬ (b.free = true ∧ alignUp size ≤ b.size)) : b ∈ h'.blocks := by
  induction round with
  | fails => exact hb
  | @takes h size pre post d split free fits =>
    have different : b ≠ d := by
      rintro rfl
      exact unfit ⟨free, fits⟩
    rw [split, List.mem_append, List.mem_cons] at hb
    show b ∈ pre ++ ((carve (alignUp size) d).1 :: (carve (alignUp size) d).2 ++ post)
    rw [List.mem_append, List.mem_append]
    tauto
  | expands grown _ ih =>
    rw [alignUp_alignUp] at ih
    obtain ⟨a, -, -, rfl⟩ := expandHeap_cases grown
    exact ih (List.mem_append_left _ hb) unfit

theorem Round.mem_of_used (round : Round v h size r h') (hb : b ∈ h.blocks) (used : b.free = false) :
    b ∈ h'.blocks :=
  round.mem_of_unfit hb (by simp [used])

theorem malloc_live (live : Live h ptr) (done : malloc v fuel h size = some (r, h')) :
    Live h' ptr := by
  obtain ⟨b, hb, used, pointer⟩ := live
  exact ⟨b, (malloc_rounds done).mem_of_used hb used, used, pointer⟩

theorem calloc_cases {num : ℕ} (done : calloc v fuel h num size = some (r, h')) :
    ∃ middle m, malloc v fuel h (wrap (num * size)) = some (r, middle) ∧
      h' = { middle with mem := m } := by
  unfold calloc at done
  cases answer : malloc v fuel h (wrap (num * size)) with
  | none => simp [answer] at done
  | some result =>
    obtain ⟨p, middle⟩ := result
    cases p with
    | none =>
      simp only [answer, Option.some.injEq, Prod.mk.injEq] at done
      obtain ⟨rfl, rfl⟩ := done
      exact ⟨middle, middle.mem, rfl, rfl⟩
    | some p =>
      simp only [answer] at done
      cases done
      exact ⟨middle, _, rfl, rfl⟩

/-- `realloc` of a live pointer: release, keep, fail or move. -/
theorem realloc_cases (magic : ∀ b ∈ h.blocks, b.magic = heapMagic)
    (apart : Apart Block.extent h.blocks) (live : Live h ptr)
    (done : realloc v fuel h ptr size = some (r, h')) :
    (size = 0 ∧ r = none ∧ h' = free h ptr) ∨
      (size ≠ 0 ∧ (∃ b ∈ h.blocks, b.free = false ∧ b.payload = ptr ∧ size ≤ b.size) ∧
        r = some ptr ∧ h' = h) ∨
      (size ≠ 0 ∧ r = none ∧ malloc v fuel h size = some (none, h')) ∨
      (size ≠ 0 ∧ ∃ b q middle m, headerAt h (ptr - headerSize) = some b ∧ b.size < size ∧
        malloc v fuel h size = some (some q, middle) ∧ r = some q ∧
        h' = free { middle with mem := m } ptr) := by
  obtain ⟨pre, b, post, split, used, pointer, nonnull, header, -⟩ := headerAt_live apart live
  have hb := mem_of_split split
  have intact : b.magic = heapMagic := magic b hb
  unfold realloc at done
  rw [if_neg nonnull] at done
  by_cases empty : size = 0
  · simp only [if_pos empty, Option.some.injEq, Prod.mk.injEq] at done
    exact .inl ⟨empty, done.1.symm, done.2.symm⟩
  rw [if_neg empty, header] at done
  dsimp only at done
  rw [if_neg (not_not.mpr intact)] at done
  by_cases large : size ≤ b.size
  · simp only [if_pos large, Option.some.injEq, Prod.mk.injEq] at done
    exact .inr (.inl ⟨empty, ⟨b, hb, used, pointer, large⟩, done.1.symm, done.2.symm⟩)
  rw [if_neg large] at done
  cases answer : malloc v fuel h size with
  | none => simp [answer] at done
  | some result =>
    obtain ⟨q, middle⟩ := result
    cases q with
    | none =>
      simp only [answer] at done
      cases done
      exact .inr (.inr (.inl ⟨empty, rfl, rfl⟩))
    | some q =>
      simp only [answer, Option.some.injEq, Prod.mk.injEq] at done
      exact .inr (.inr (.inr ⟨empty, b, q, middle, _, header, by omega, rfl, done.1.symm,
        done.2.symm⟩))

theorem realloc_null :
    realloc v fuel h 0 size = malloc v fuel h size := if_pos rfl

theorem realloc_inv (inv : Inv h) (legal : ptr = 0 ∨ Live h ptr)
    (guard : (Call.realloc ptr size).Guard v h) (done : realloc v fuel h ptr size = some (r, h')) :
    Inv h' := by
  obtain ⟨-, released, moved⟩ := guard
  rcases legal with rfl | live
  · exact malloc_inv inv (realloc_null.symm.trans done)
  rcases realloc_cases inv.magic inv.apart live done with ⟨empty, -, rfl⟩ | ⟨-, -, -, rfl⟩ |
    ⟨-, -, failed⟩ | ⟨-, b, q, middle, m, header, larger, answer, -, rfl⟩
  · exact free_inv inv live (released empty)
  · exact inv
  · exact malloc_inv inv failed
  · -- copying the payload changes neither the list nor the regions
    have same : Inv { middle with mem := m } := (malloc_inv inv answer).congr rfl rfl
    have still : Live middle ptr := malloc_live live answer
    exact free_inv same still (moved b header larger fuel q middle answer)

theorem guardedStep_inv {c : Call} (inv : Inv h) (step : GuardedStep h c h') : Inv h' := by
  obtain ⟨legal, v, r, ⟨bound, converges⟩, guard⟩ := step
  have done := converges bound le_rfl
  cases c with
  | malloc size => exact malloc_inv inv done
  | calloc num size =>
    obtain ⟨middle, m, answer, rfl⟩ := calloc_cases done
    exact (malloc_inv inv answer).congr rfl rfl
  | realloc ptr size => exact realloc_inv inv legal guard done
  | free ptr =>
    simp only [Call.run, Option.some.injEq, Prod.mk.injEq] at done
    rw [← done.2]
    rcases legal with rfl | live
    · rw [free_null]
      exact inv
    · exact free_inv inv live guard

theorem heapInit_inv {base : ℕ} (low : 4096 ≤ base) (high : base + initialHeapSize ≤ 2 ^ 64) :
    Inv (heapInit base) := by
  have block : ∀ b ∈ (heapInit base).blocks,
      b = ⟨base, heapMagic, initialHeapSize - headerSize, true⟩ := by simp [heapInit]
  have region : ∀ r ∈ (heapInit base).regions, r = ⟨base, initialHeapSize⟩ := by simp [heapInit]
  refine ⟨⟨?_, List.pairwise_singleton _ _⟩, ?_, ?_⟩
  · intro b hb x hx
    refine ⟨⟨base, initialHeapSize⟩, by simp [heapInit], ?_⟩
    rw [block b hb] at hx
    have total : headerSize + (initialHeapSize - headerSize) = initialHeapSize := by decide
    simp only [Block.extent, Block.limit, Region.extent, Set.mem_Ico] at hx ⊢
    omega
  · intro b hb
    rw [block b hb]
  · intro r hr
    rw [region r hr]
    exact ⟨low, high⟩

/-- In every run of legal calls in which `coalesce` joins only blocks that are adjacent in memory,
the heap hands out nothing it does not own: each block lies in owned memory, apart from the
others. -/
theorem sound_of_adjacent_merges {base : ℕ} (low : 4096 ≤ base)
    (high : base + initialHeapSize ≤ 2 ^ 64) {calls : List Call} {h : State}
    (run : Run GuardedStep (heapInit base) calls h) : Sound h :=
  (run.invariant (fun _ _ _ inv step => guardedStep_inv inv step) (heapInit_inv low high)).toSound

/-! ### A run that joins blocks of two regions -/

/-- An address of `initial_heap` in the kernel image. -/
def heapBase : ℕ := 0xFFFFFFFF80200000

/-- The address of the first page `vmm_alloc` hands out. -/
def vmmBase : ℕ := 0xFFFFFFFFC0000000

/-- A memory manager that grants one page, at the start of its window, and then no more. -/
def onePage : Vmm where
  alloc := fun rs n => if n = 1 ∧ rs = [⟨heapBase, initialHeapSize⟩] then some vmmBase else none
  none_of_zero := fun rs => if_neg (by omega)
  pageAligned := by
    intro rs n a h
    split_ifs at h with granted
    obtain rfl := Option.some.inj h
    decide
  noWrap := by
    intro rs n a h
    split_ifs at h with granted
    obtain rfl := Option.some.inj h
    obtain ⟨rfl, -⟩ := granted
    decide
  fresh := by
    intro rs n a h r hr
    split_ifs at h with granted
    obtain rfl := Option.some.inj h
    obtain ⟨rfl, rfl⟩ := granted
    rw [List.mem_singleton.mp hr]
    right
    decide

/-- `initial_heap` is allocated as a whole. -/
def filled : State := { heapInit heapBase with
  blocks := [⟨heapBase, heapMagic, 262104, false⟩]
  used := 262184 }

/-- A further request has brought in a page. -/
def expanded : State := { filled with
  blocks := [⟨heapBase, heapMagic, 262104, false⟩, ⟨vmmBase, heapMagic, 16, false⟩,
    ⟨vmmBase + 56, heapMagic, 4000, true⟩]
  total := 266240
  used := 262240
  regions := [⟨heapBase, 262144⟩, ⟨vmmBase, 4096⟩] }

/-- Both allocations have been freed, the older one first. -/
def crossed : State := free (free expanded (heapBase + 40)) (vmmBase + 40)

theorem filled_step : Converges ((Call.malloc 262096).run onePage (heapInit heapBase))
    (some (heapBase + 40), filled) :=
  Converges.step (fun _ => rfl) (Converges.const fun _ => rfl)

theorem expanded_step : Converges ((Call.malloc 16).run onePage filled)
    (some (vmmBase + 40), expanded) :=
  Converges.step (fun _ => rfl) (Converges.step (fun _ => rfl) (Converges.const fun _ => rfl))

theorem crossed_run : Run Step (heapInit heapBase)
    [.malloc 262096, .malloc 16, .free (heapBase + 40), .free (vmmBase + 40)] crossed := by
  refine .cons ⟨trivial, onePage, _, filled_step⟩ (.cons ⟨trivial, onePage, _, expanded_step⟩
    (.cons ⟨.inr ?_, onePage, none, Converges.const fun _ => rfl⟩
      (.cons ⟨.inr ?_, onePage, none, Converges.const fun _ => rfl⟩ (.nil _))))
  · exact ⟨⟨heapBase, heapMagic, 262104, false⟩, by decide, rfl, rfl⟩
  · exact ⟨⟨vmmBase, heapMagic, 16, false⟩, by decide, rfl, rfl⟩

/-- The surviving block starts in `initial_heap` and runs 4096 bytes past its end. -/
theorem merge_across_regions :
    ∃ calls h, Run Step (heapInit heapBase) calls h ∧ ¬ Sound h := by
  refine ⟨_, crossed, crossed_run, fun sound => ?_⟩
  have block : ⟨heapBase, heapMagic, 266200, true⟩ ∈ crossed.blocks := by decide
  have past : heapBase + 262144 ∈ (⟨heapBase, heapMagic, 266200, true⟩ : Block).extent := by
    simp only [Block.extent, Block.limit, headerSize, Set.mem_Ico]
    omega
  obtain ⟨r, hr, hx⟩ := sound.inside _ block past
  have regions : crossed.regions = [⟨heapBase, 262144⟩, ⟨vmmBase, 4096⟩] := by decide
  rw [regions, List.mem_cons, List.mem_singleton] at hr
  rcases hr with rfl | rfl <;>
    simp only [Region.extent, Set.mem_Ico, heapBase, vmmBase] at hx <;> omega

theorem expanded_merges_adjacent : MergesAdjacent expanded vmmBase := by
  intro before b after split position
  have blocks : expanded.blocks = [⟨heapBase, heapMagic, 262104, false⟩,
    ⟨vmmBase, heapMagic, 16, false⟩, ⟨vmmBase + 56, heapMagic, 4000, true⟩] := rfl
  rw [blocks] at split
  rcases before with _ | ⟨x, _ | ⟨y, _ | ⟨z, rest⟩⟩⟩
  · simp only [List.nil_append, List.cons.injEq] at split
    rw [← split.1] at position
    exact absurd position (by decide)
  · cases split
    exact ⟨fun n hn _ => by obtain rfl := Option.some.inj hn; rfl,
      fun p hp free => by obtain rfl := Option.some.inj hp; cases free⟩
  · simp only [List.cons_append, List.nil_append, List.cons.injEq] at split
    rw [← split.2.2.1] at position
    exact absurd position (by decide)
  · simp at split

/-- The rule applied to a run that expands the heap and frees inside the new page. -/
theorem sound_within_page : Sound (free expanded (vmmBase + 40)) := by
  refine @sound_of_adjacent_merges heapBase (by decide) (by decide)
    [.malloc 262096, .malloc 16, .free (vmmBase + 40)] _ ?_
  refine .cons ⟨trivial, onePage, _, filled_step, trivial⟩
    (.cons ⟨trivial, onePage, _, expanded_step, trivial⟩
      (.cons ⟨.inr ?_, onePage, none, Converges.const fun _ => rfl, ?_⟩ (.nil _)))
  · exact ⟨⟨vmmBase, heapMagic, 16, false⟩, by decide, rfl, rfl⟩
  · exact expanded_merges_adjacent

end Thuban.Heap

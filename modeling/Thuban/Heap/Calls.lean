import Thuban.Heap.Coalescing

/-!
# Whole calls

Every call of `malloc`, `calloc`, `realloc` and `free` takes a memory that shows a list to one that
shows the list after the same call (`run_refines`), unless it is a `realloc` whose size wraps when it
is rounded.  Such a call copies more bytes than the new block has.
-/

namespace Thuban.Heap

open Lib

variable {base : ℕ} {h h' : Image} {s s' : State} {pre post blocks : List Block} {b c n : Block}
  {v : Vmm} {m m' : Bytes} {a size fuel ptr : ℕ} {r : Option ℕ}

/-! ## Rounding -/

theorem alignUp_of_lt (small : size + 15 < 2 ^ 64) : size ≤ alignUp size := by
  unfold alignUp
  rw [wrap_of_lt small]
  omega

theorem alignUp_of_ge (large : 2 ^ 64 ≤ size + 15) (bound : size < 2 ^ 64) : alignUp size = 0 := by
  simp only [alignUp, wrap]
  omega

/-! ## What `malloc` hands out -/

theorem carve_size (fits : size ≤ b.size) : size ≤ (carve size b).1.size := by
  unfold carve
  split_ifs
  · exact le_rfl
  · exact fits

theorem Round.returned (round : Round v s size r s') {ptr : ℕ} (pointer : r = some ptr) :
    ∃ b ∈ s'.blocks, b.free = false ∧ b.payload = ptr ∧ alignUp size ≤ b.size := by
  induction round with
  | fails => cases pointer
  | takes split free fits =>
    refine ⟨_, ?_, carve_used _ _, Option.some.inj pointer, carve_size fits⟩
    simp
  | @expands _ size _ _ _ _ _ ih =>
    obtain ⟨b, member, used, payload, large⟩ := ih pointer
    rw [alignUp_alignUp] at large
    exact ⟨b, member, used, payload, large⟩

theorem Round.fresh (round : Round v s size r s') (placed : Placed v s) {ptr : ℕ}
    (pointer : r = some ptr) : ¬ Live s ptr := by
  induction round with
  | fails => cases pointer
  | @takes s size pre post b split free fits =>
    rintro ⟨c, hc, used, payload⟩
    have same : c.addr = b.addr := by
      have equal := payload.trans (Option.some.inj pointer).symm
      simp only [Block.payload, Image.carve_addr] at equal
      omega
    have hb : b ∈ s.blocks := by
      rw [split]
      simp
    have one : c = b := by
      refine placed.sane.apart.eq_of_mem hc hb (addr_mem_extent c) ?_
      rw [same]
      exact addr_mem_extent b
    rw [one, free] at used
    cases used
  | expands grown later ih =>
    rintro ⟨c, hc, used, payload⟩
    refine ih (Image.expandHeap_placed placed grown) pointer ⟨c, ?_, used, payload⟩
    obtain ⟨a, -, -, rfl⟩ := expandHeap_cases grown
    exact List.mem_append_left _ hc

theorem Round.inUse_perm (round : Round v s size r s') :
    ((inUse s'.blocks).map Block.payload).Perm
      (r.toList ++ (inUse s.blocks).map Block.payload) := by
  induction round with
  | fails => exact List.Perm.refl _
  | takes split free fits =>
    rw [split, inUse_append, carve_inUse, inUse_append, inUse_cons_free free, List.map_append,
      List.map_cons, List.map_append]
    exact List.perm_middle
  | expands grown later ih =>
    obtain ⟨a, -, -, rfl⟩ := expandHeap_cases grown
    refine ih.trans ?_
    have none_used (n : ℕ) : inUse [Block.mk a heapMagic n true] = [] :=
      inUse_of_free (by simp)
    rw [inUse_append, none_used, List.append_nil]

namespace Image

/-! ## One round of `malloc` in memory -/

theorem malloc_zero (v : Vmm) (h : Image) : Converges (malloc v · h 0) (none, h) :=
  .step (fun fuel => by rw [malloc, if_pos rfl]) (.const fun _ => rfl)

theorem malloc_found (shows : Shows h s) (sane : Sane s.blocks) (nonzero : size ≠ 0)
    (fit : fitting (alignUp size) s.blocks = some b) (v : Vmm) :
    Converges (malloc v · h size) (some b.payload, { h with
      mem := takeBlock (alignUp size) h.mem b.addr
      used := wrap (h.used +
        ((header (takeBlock (alignUp size) h.mem b.addr) b.addr).size + headerSize)) }) := by
  refine ⟨s.blocks.length + 1, fun fuel enough => ?_⟩
  obtain ⟨fuel, rfl⟩ : ∃ k, fuel = k + 1 := ⟨fuel - 1, by omega⟩
  have enough' : s.blocks.length ≤ fuel := by omega
  have walked := walk_total (alignUp size) shows sane (Nat.lt_succ_of_le enough')
  rw [fit] at walked
  show malloc v (fuel + 1) h size = _
  rw [malloc, if_neg nonzero, walked]
  have room : wrap (b.addr + headerSize) = b.payload :=
    wrap_of_lt (sane.room b (List.mem_of_find?_eq_some fit))
  simp [room]

theorem malloc_stuck (shows : Shows h s) (sane : Sane s.blocks) (nonzero : size ≠ 0)
    (fit : fitting (alignUp size) s.blocks = none)
    (failed : Heap.expandHeap v s (alignUp size) = none) :
    Converges (malloc v · h size)
      (none, { h with expandCalls := h.expandCalls + 1 }) := by
  refine ⟨s.blocks.length + 1, fun fuel enough => ?_⟩
  obtain ⟨fuel, rfl⟩ : ∃ k, fuel = k + 1 := ⟨fuel - 1, by omega⟩
  have enough' : s.blocks.length ≤ fuel := by omega
  have walked := walk_total (alignUp size) shows sane (Nat.lt_succ_of_le enough')
  rw [fit] at walked
  show malloc v (fuel + 1) h size = _
  rw [malloc, if_neg nonzero, walked]
  simp [expandHeap_fails shows failed]

theorem malloc_retry (shows : Shows h s) (placed : Placed v s) (nonzero : size ≠ 0)
    (fit : fitting (alignUp size) s.blocks = none)
    (grown : Heap.expandHeap v s (alignUp size) = some s') :
    ∃ larger, Shows larger s' ∧ larger.expandCalls = h.expandCalls + 1 ∧
      ∀ result, Converges (malloc v · h size) result ↔
        Converges (malloc v · larger (alignUp size)) result := by
  obtain ⟨larger, expands, shown, count, -⟩ := expandHeap_grows shows placed le_rfl grown
  have again (fuel : ℕ) (enough : s.blocks.length ≤ fuel) :
      malloc v (fuel + 1) h size = malloc v fuel larger (alignUp size) := by
    have enough' : s.blocks.length ≤ fuel + 1 := by omega
    obtain ⟨larger', expands', -⟩ := expandHeap_grows shows placed enough' grown
    have same : (true, larger') = (true, larger) :=
      ((expandHeap_stable v h (alignUp size)).converges expands').unique
        ((expandHeap_stable v h (alignUp size)).converges expands)
    have walked := walk_total (alignUp size) shows placed.sane (Nat.lt_succ_of_le enough)
    rw [fit] at walked
    rw [malloc, if_neg nonzero, walked]
    simp [expands', same]
  refine ⟨larger, shown, count, fun result => ⟨?_, ?_⟩⟩
  · rintro ⟨bound, ends⟩
    refine ⟨max bound s.blocks.length, fun fuel enough => ?_⟩
    exact (again fuel (by omega)).symm.trans (ends (fuel + 1) (by omega))
  · rintro ⟨bound, ends⟩
    refine ⟨max bound s.blocks.length + 1, fun fuel enough => ?_⟩
    obtain ⟨fuel, rfl⟩ : ∃ k, fuel = k + 1 := ⟨fuel - 1, by omega⟩
    exact (again fuel (by omega)).trans (ends fuel (by omega))

/-! ## Stores into a payload -/

theorem Holds.payload (holds : h.Holds blocks) (sane : Sane blocks) (hb : b ∈ blocks)
    (same : ∀ k, k < b.payload ∨ b.limit ≤ k → m k = h.mem k) :
    { h with mem := m }.Holds blocks := by
  refine holds.congr rfl fun c hc => header_congr fun j hj => same _ ?_
  by_contra inside
  have := sane.payload_outside hb hc (k := c.addr + j) (by omega) (by omega)
  omega

theorem shows_payload (shows : Shows h s) (sane : Sane s.blocks) (hb : b ∈ s.blocks)
    (same : ∀ k, k < b.payload ∨ b.limit ≤ k → m k = h.mem k) (m' : Bytes) :
    Shows { h with mem := m } { s with mem := m' } :=
  ⟨shows.holds.payload sane hb same, shows.nonempty, shows.total, shows.used, shows.regions⟩

theorem keeps_payload {blocks' : List Block} (sane : Sane blocks') (hn : n ∈ blocks')
    (others : ∀ b ∈ blocks, b.free = false → b ∈ blocks' ∧ b ≠ n)
    (same : ∀ k, k < n.payload ∨ n.limit ≤ k → m' k = m k) : Keeps blocks m m' := by
  intro b hb used k low high
  obtain ⟨member, different⟩ := others b hb used
  have beyond := sane.payload_beyond member hn different low high
  apply same
  simp only [Block.payload]
  omega

/-! ## `free` -/

theorem blockOf_payload (sane : Sane blocks) (hb : b ∈ blocks) : blockOf b.payload = b.addr := by
  have room := sane.room b hb
  simp only [blockOf, wrapSub, wrap, Block.payload, headerSize] at room ⊢
  omega

section

variable (shows : Shows h s) (sane : Sane s.blocks) (live : Live s ptr)

include shows sane live

/-- `free` in memory does what `free` does on the list. -/
theorem free_sim :
    (free h ptr).1 = .done ∧ Shows (free h ptr).2 (Heap.free s ptr) ∧
      Tame s.blocks (setField h.mem (blockOf ptr) .free 1) (free h ptr).2.mem := by
  obtain ⟨pre, b, post, split, used, rfl, regions, counter, blocks⟩ :=
    free_live sane.magic sane.apart live
  have hb : b ∈ s.blocks := by
    rw [split]
    simp
  obtain ⟨magic, length, flag⟩ := shows.holds.fields hb
  have unused : (header h.mem b.addr).free = 0 := by
    rw [used] at flag
    simpa using flag
  have holds := shows.holds
  rw [split] at holds sane
  have marked : { h with mem := setField h.mem b.addr .free 1 }.Holds
      (pre ++ { b with free := true } :: post) := setFree_holds holds sane 1
  have addresses : ((pre ++ { b with free := true } :: post).map Block.addr).Sublist
      ((pre ++ b :: post).map Block.addr) := by simp
  have spaced := sane.spaced.congr addresses
  obtain ⟨shown, tame⟩ := coalesce_holds marked spaced
  replace tame := tame.mono addresses sane.spaced
  have nonnull : b.payload ≠ 0 := by simp [Block.payload, headerSize]
  unfold free
  rw [blockOf_payload sane (by simp)]
  rw [if_neg nonnull, if_neg (by rw [magic]; exact not_not.mpr (sane.magic b (by simp))),
    if_neg (not_not.mpr unused)]
  dsimp only at shown tame ⊢
  refine ⟨rfl, ⟨?_, ?_, ?_, ?_, ?_⟩, ?_⟩
  · rw [blocks]
    exact shown.congr rfl fun _ _ => rfl
  · rw [blocks]
    exact merges_keep (P := (· ≠ [])) (fun _ _ _ _ _ _ _ => by simp) rfl (by simp)
  · rw [free_total]
    exact shows.total
  · have low := sane.low b (by simp)
    have high := sane.high b (by simp)
    have size : (header (setField h.mem b.addr .free 1) b.addr).size = b.size := by
      rw [header_setField]
      exact length
    have exact : wrap (b.size + headerSize) = b.size + headerSize := by
      apply wrap_of_lt
      simp only [Block.limit] at high
      omega
    rw [counter, size, exact, shows.used]
    rfl
  · rw [regions]
    exact shows.regions
  · rw [split]
    exact tame

theorem free_outside {k : ℕ} (far : ∀ c ∈ s.blocks, k < c.addr ∨ c.addr + headerSize ≤ k) :
    (free h ptr).2.mem k = h.mem k := by
  obtain ⟨-, -, tame⟩ := free_sim shows sane live
  obtain ⟨b, hb, -, rfl⟩ := live
  rw [tame.outside k far, blockOf_payload sane hb, setField_outside _ _ _ (far b hb)]

theorem free_payload (hb : b ∈ s.blocks) {k : ℕ} (low : b.payload ≤ k) (high : k < b.limit) :
    (free h ptr).2.mem k = h.mem k :=
  free_outside shows sane live fun _ hc => sane.payload_outside hb hc low high

end

/-! ## `calloc` -/

theorem malloc_new (shows : Shows h s) (placed : Placed v s)
    (done : malloc v fuel h size = some (some ptr, h')) :
    ∃ s' n, Heap.malloc v fuel s size = some (some ptr, s') ∧ Shows h' s' ∧ Placed v s' ∧
      Keeps s.blocks h.mem h'.mem ∧ n ∈ s'.blocks ∧ n.free = false ∧ n.payload = ptr ∧
      alignUp size ≤ n.size ∧
      ∀ b ∈ s.blocks, b.free = false → b ∈ s'.blocks ∧ b ≠ n := by
  obtain ⟨s', listed, shown, placed', kept⟩ := malloc_sim shows placed done
  have rounds := malloc_rounds listed
  obtain ⟨n, hn, used, pointer, large⟩ := rounds.returned rfl
  refine ⟨s', n, listed, shown, placed', kept, hn, used, pointer, large, fun b hb live => ?_⟩
  refine ⟨rounds.mem_of_used hb live, ?_⟩
  rintro rfl
  exact rounds.fresh placed rfl ⟨b, hb, live, pointer⟩

theorem calloc_sim {num : ℕ} (shows : Shows h s) (placed : Placed v s)
    (done : calloc v fuel h num size = some (r, h')) :
    ∃ s', Heap.calloc v fuel s num size = some (r, s') ∧ Shows h' s' ∧
      Keeps s.blocks h.mem h'.mem := by
  unfold calloc at done
  unfold Heap.calloc
  dsimp only at done
  have bound : wrap (num * size) < 2 ^ 64 := Nat.mod_lt _ (by norm_num)
  generalize wrap (num * size) = total at done bound ⊢
  cases answer : malloc v fuel h total with
  | none => simp [answer] at done
  | some result =>
    obtain ⟨pointer, h₁⟩ := result
    rw [answer] at done
    cases pointer with
    | none =>
      obtain ⟨s', listed, shown, -, kept⟩ := malloc_sim shows placed answer
      cases done
      rw [listed]
      exact ⟨s', rfl, shown, kept⟩
    | some ptr =>
      obtain ⟨s', n, listed, shown, placed', kept, hn, used, pointer, large, old⟩ :=
        malloc_new shows placed answer
      dsimp only at done
      split_ifs at done with past
      cases done
      -- a total that wraps when it is rounded is too large for the address space
      have fits : total ≤ n.size := by
        have low := placed'.sane.low n hn
        have small : total + 15 < 2 ^ 64 := by
          simp only [← pointer, Block.payload, headerSize] at past
          omega
        exact (alignUp_of_lt small).trans large
      have cleared : ∀ k, k < n.payload ∨ n.limit ≤ k → h₁.mem.fill ptr total 0 k = h₁.mem k := by
        intro k outside
        apply if_neg
        simp only [Block.payload, Block.limit] at outside pointer
        omega
      rw [listed]
      refine ⟨_, rfl, shows_payload shown placed'.sane hn cleared _, ?_⟩
      exact kept.trans (keeps_payload placed'.sane hn old cleared) fun _ hb _ => hb

/-! ## `realloc` -/

theorem realloc_cases (shows : Shows h s) (sane : Sane s.blocks) (hb : b ∈ s.blocks)
    (done : realloc v fuel h b.payload size = some (r, h')) :
    (size = 0 ∧ r = none ∧ h' = (free h b.payload).2) ∨
      (size ≠ 0 ∧ size ≤ b.size ∧ r = some b.payload ∧ h' = h) ∨
      (b.size < size ∧ r = none ∧ malloc v fuel h size = some (none, h')) ∨
      (b.size < size ∧ ∃ q h₁, malloc v fuel h size = some (some q, h₁) ∧ r = some q ∧
        h' = (free { h₁ with
          mem := h₁.mem.copy q b.payload (header h₁.mem b.addr).size } b.payload).2) := by
  obtain ⟨magic, length, -⟩ := shows.holds.fields hb
  have nonnull : b.payload ≠ 0 := by simp [Block.payload, headerSize]
  unfold realloc at done
  rw [blockOf_payload sane hb] at done
  rw [if_neg nonnull, magic, sane.magic b hb, length] at done
  by_cases empty : size = 0
  · simp only [if_pos empty, Option.some.injEq, Prod.mk.injEq] at done
    exact .inl ⟨empty, done.1.symm, done.2.symm⟩
  rw [if_neg empty, if_neg (not_not.mpr rfl)] at done
  by_cases large : size ≤ b.size
  · simp only [if_pos large, Option.some.injEq, Prod.mk.injEq] at done
    exact .inr (.inl ⟨empty, large, done.1.symm, done.2.symm⟩)
  rw [if_neg large] at done
  cases answer : malloc v fuel h size with
  | none => simp [answer] at done
  | some result =>
    obtain ⟨pointer, h₁⟩ := result
    rw [answer] at done
    cases pointer with
    | none =>
      cases done
      exact .inr (.inr (.inl ⟨by omega, rfl, rfl⟩))
    | some q =>
      simp only [Option.some.injEq, Prod.mk.injEq] at done
      exact .inr (.inr (.inr ⟨by omega, q, h₁, rfl, done.1.symm, done.2.symm⟩))

theorem realloc_moves {q : ℕ} (nonnull : ptr ≠ 0)
    (magic : (header h.mem (blockOf ptr)).magic = heapMagic)
    (larger : (header h.mem (blockOf ptr)).size < size)
    (done : Converges (malloc v · h size) (some q, h')) :
    Converges (realloc v · h ptr size) (some q, (free { h' with
      mem := h'.mem.copy q ptr (header h'.mem (blockOf ptr)).size } ptr).2) := by
  apply done.imp
  intro fuel answer
  unfold realloc
  rw [if_neg nonnull, if_neg (by omega), magic, if_neg (not_not.mpr rfl), if_neg (by omega), answer]

/-- The state in which `realloc` copies from the old block to the new one. -/
structure Moving (v : Vmm) (h : Image) (s : State) (b n : Block) : Prop where
  shows : Shows h s
  placed : Placed v s
  old : b ∈ s.blocks
  held : b.free = false
  new : n ∈ s.blocks
  taken : n.free = false
  different : b ≠ n
  fits : b.size ≤ n.size

namespace Moving

variable (moving : Moving v h s b n)

include moving

theorem copy_eq : h.mem.copy n.payload b.payload (header h.mem b.addr).size =
    h.mem.blit n.payload h.mem b.payload b.size := by
  obtain ⟨-, length, -⟩ := moving.shows.holds.fields moving.old
  rw [length]
  apply Bytes.copy_eq_blit
  have apart := moving.placed.sane.apart.disjoint_of_ne moving.old moving.new moving.different
  have fits := moving.fits
  rw [Block.extent, Block.extent, Set.Ico_disjoint_Ico] at apart
  simp only [Block.limit, Block.payload] at apart ⊢
  omega

theorem copy_outside {k : ℕ} (outside : k < n.payload ∨ n.limit ≤ k) :
    h.mem.copy n.payload b.payload (header h.mem b.addr).size k = h.mem k := by
  have fits := moving.fits
  rw [moving.copy_eq, Bytes.blit_outside]
  simp only [Block.limit, Block.payload] at outside ⊢
  omega

theorem copy_inside {k : ℕ} (inside : k < b.size) :
    h.mem.copy n.payload b.payload (header h.mem b.addr).size (n.payload + k) =
      h.mem (b.payload + k) := by
  rw [moving.copy_eq, Bytes.blit_inside _ _ _ _ _ _ (by omega) (by omega),
    Nat.add_sub_cancel_left]

theorem copied (m' : Bytes) :
    Shows { h with mem := h.mem.copy n.payload b.payload (header h.mem b.addr).size }
      { s with mem := m' } :=
  shows_payload moving.shows moving.placed.sane moving.new (fun _ => moving.copy_outside) m'

end Moving

theorem malloc_moving (shows : Shows h s) (placed : Placed v s) (hb : b ∈ s.blocks)
    (held : b.free = false) (larger : b.size < size) (small : size + 15 < 2 ^ 64)
    (done : malloc v fuel h size = some (some ptr, h')) :
    ∃ s' n, Heap.malloc v fuel s size = some (some ptr, s') ∧ Moving v h' s' b n ∧
      n.payload = ptr ∧ size ≤ n.size ∧ Keeps s.blocks h.mem h'.mem ∧
      ∀ c ∈ s.blocks, c.free = false → c ∈ s'.blocks ∧ c ≠ n := by
  obtain ⟨s', n, listed, shown, placed', kept, hn, used, pointer, large, old⟩ :=
    malloc_new shows placed done
  have enough := (alignUp_of_lt small).trans large
  refine ⟨s', n, listed, ?_, pointer, enough, kept, old⟩
  exact ⟨shown, placed', (old b hb held).1, held, hn, used, (old b hb held).2, by omega⟩

theorem realloc_sim (shows : Shows h s) (placed : Placed v s) (legal : ptr = 0 ∨ Live s ptr)
    (rounds : ptr = 0 ∨ size + 15 < 2 ^ 64) (done : realloc v fuel h ptr size = some (r, h')) :
    ∃ s', Heap.realloc v fuel s ptr size = some (r, s') ∧ Shows h' s' := by
  by_cases null : ptr = 0
  · unfold realloc at done
    unfold Heap.realloc
    rw [if_pos null] at done ⊢
    obtain ⟨s', listed, shown, -⟩ := malloc_sim shows placed done
    exact ⟨s', listed, shown⟩
  have live := legal.resolve_left null
  have small := rounds.resolve_left null
  obtain ⟨pre, b, post, split, held, rfl, -, found, -⟩ := headerAt_live placed.sane.apart live
  have hb : b ∈ s.blocks := by
    rw [split]
    simp
  unfold Heap.realloc
  rw [if_neg null, found]
  dsimp only
  rw [if_neg (not_not.mpr (placed.sane.magic b hb))]
  rcases realloc_cases shows placed.sane hb done with ⟨empty, rfl, rfl⟩ |
    ⟨nonzero, large, rfl, rfl⟩ | ⟨larger, rfl, failed⟩ | ⟨larger, q, h₁, answer, rfl, rfl⟩
  · rw [if_pos empty]
    exact ⟨_, rfl, (free_sim shows placed.sane live).2.1⟩
  · rw [if_neg nonzero, if_pos large]
    exact ⟨s, rfl, shows⟩
  · obtain ⟨s', listed, shown, -⟩ := malloc_sim shows placed failed
    rw [if_neg (by omega), if_neg (by omega), listed]
    exact ⟨s', rfl, shown⟩
  · obtain ⟨s₁, n, listed, moving, rfl, -⟩ := malloc_moving shows placed hb held larger small answer
    rw [if_neg (by omega), if_neg (by omega), listed]
    refine ⟨_, rfl, ?_⟩
    generalize s₁.mem.blit n.payload s₁.mem b.payload _ = m'
    have still : Live { s₁ with mem := m' } b.payload := ⟨b, moving.old, held, rfl⟩
    exact (free_sim (moving.copied m') moving.placed.sane still).2.1

end Image

end Thuban.Heap

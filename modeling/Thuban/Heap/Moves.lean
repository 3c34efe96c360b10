import Thuban.Heap.Requests

/-!
# What `realloc` does to the payloads

`realloc` allocates (which may cut a block or expand the heap), copies, and releases the old block
(which may join it with its neighbours).  Whatever it does to the headers, the bytes of the old
payload arrive in the new one and no other payload in use changes (`realloc_preserves_contents`).
-/

namespace Thuban.Heap

open Lib

variable {v : Vmm} {h h' : Image} {s : State} {blocks : List Block} {b n : Block} {m m' : Bytes}
  {size fuel ptr : ℕ} {r : Option ℕ}

def SamePayload (m m' : Bytes) (b : Block) : Prop :=
  ∀ k < b.size, m' (b.payload + k) = m (b.payload + k)

theorem Keeps.samePayload (keeps : Keeps blocks m m') (hb : b ∈ blocks) (used : b.free = false) :
    SamePayload m m' b := by
  intro k hk
  apply keeps b hb used
  · exact Nat.le_add_right _ _
  · simp only [Block.payload, Block.limit]
    omega

/-- The other blocks in use stay in the list, with their contents. -/
def Spared (m m' : Bytes) (blocks blocks' : List Block) (b : Block) : Prop :=
  ∀ c ∈ blocks, c.free = false → c ≠ b → c ∈ blocks' ∧ SamePayload m m' c

theorem Sane.payload_ne (sane : Sane blocks) {c : Block} (hb : b ∈ blocks) (hc : c ∈ blocks)
    (different : c ≠ b) : c.payload ≠ b.payload := by
  intro same
  simp only [Block.payload, Nat.add_right_cancel_iff] at same
  refine different (sane.apart.eq_of_mem hc hb (addr_mem_extent c) ?_)
  rw [same]
  exact addr_mem_extent b

theorem free_spares (shows : Shows h s) (sane : Sane s.blocks) (hb : b ∈ s.blocks)
    (used : b.free = false) :
    Spared h.mem (Image.free h b.payload).2.mem s.blocks (free s b.payload).blocks b := by
  have live : Live s b.payload := ⟨b, hb, used, rfl⟩
  intro c hc held different
  refine ⟨?_, fun k hk => ?_⟩
  · exact mem_free_of_used sane.magic sane.apart live hc held (sane.payload_ne hb hc different)
  · apply Image.free_payload shows sane live hc
    · exact Nat.le_add_right _ _
    · simp only [Block.payload, Block.limit]
      omega

theorem malloc_spares (shows : Shows h s) (placed : Placed v s)
    (done : Image.malloc v fuel h size = some (r, h')) :
    ∃ s', Shows h' s' ∧
      ∀ c ∈ s.blocks, c.free = false → c ∈ s'.blocks ∧ SamePayload h.mem h'.mem c := by
  obtain ⟨s', listed, shown, -, kept⟩ := Image.malloc_sim shows placed done
  exact ⟨s', shown, fun c hc held =>
    ⟨(malloc_rounds listed).mem_of_used hc held, kept.samePayload hc held⟩⟩

theorem move_contents (shows : Shows h s) (placed : Placed v s) (hb : b ∈ s.blocks)
    (used : b.free = false) (larger : b.size < size) (small : size + 15 < 2 ^ 64) {h₁ : Image}
    (answer : Image.malloc v fuel h size = some (some ptr, h₁))
    (moved : h' = (Image.free { h₁ with
      mem := h₁.mem.copy ptr b.payload (header h₁.mem b.addr).size } b.payload).2) :
    (∃ blocks', h'.Holds blocks' ∧ Spared h.mem h'.mem s.blocks blocks' b) ∧
      (∀ k < b.size, h'.mem (ptr + k) = h.mem (b.payload + k)) ∧
      (header h'.mem b.addr).free ≠ 0 := by
  obtain ⟨s₁, n, -, moving, rfl, -, kept, old⟩ :=
    Image.malloc_moving shows placed hb used larger small answer
  have sane := moving.placed.sane
  have live : Live { s₁ with mem := h₁.mem } b.payload := ⟨b, moving.old, used, rfl⟩
  have copied := moving.copied h₁.mem
  obtain ⟨-, shown, tame⟩ := Image.free_sim copied sane live
  have spared := free_spares copied sane moving.old used
  rw [← moved] at shown tame spared
  refine ⟨⟨_, shown.holds, fun c hc held different => ?_⟩, fun k hk => ?_, ?_⟩
  · obtain ⟨member, apart⟩ := old c hc held
    obtain ⟨still, same⟩ := spared c member held different
    refine ⟨still, fun k hk => ?_⟩
    have beyond := sane.payload_beyond member moving.new apart (k := c.payload + k)
      (Nat.le_add_right _ _) (by simp only [Block.payload, Block.limit]; omega)
    rw [same k hk, ← kept.samePayload hc held k hk]
    exact moving.copy_outside (by simp only [Block.payload] at beyond ⊢; omega)
  · have fits := moving.fits
    have arrived : h'.mem (n.payload + k) =
        h₁.mem.copy n.payload b.payload (header h₁.mem b.addr).size (n.payload + k) := by
      rw [moved]
      exact Image.free_payload copied sane live moving.new (Nat.le_add_right _ _)
        (by simp only [Block.payload, Block.limit]; omega)
    rw [arrived, ← kept.samePayload hb used k hk]
    exact moving.copy_inside hk
  · have flag := (tame.flags b moving.old).2
    rw [Image.blockOf_payload sane moving.old, header_setField] at flag
    rw [flag]
    show 1 % 2 ^ 32 ≠ 0
    decide

/-- `realloc` preserves contents: the bytes at the pointer it returns, the other allocations, and the
old block if it fails. -/
theorem realloc_preserves_contents (holds : h.Holds blocks) (sane : Sane blocks)
    (avoids : ∀ rs pages a, h.regions ⊆ rs → v.alloc rs pages = some a →
      ∀ c ∈ blocks, a + pages * 4096 ≤ c.addr ∨ c.limit ≤ a)
    (hb : b ∈ blocks) (used : b.free = false) (small : size + 15 < 2 ^ 64)
    (done : Converges (fun fuel => Image.realloc v fuel h b.payload size) (r, h')) :
    (∀ q, r = some q → (∀ k < min b.size size, h'.mem (q + k) = h.mem (b.payload + k)) ∧
      (q ≠ b.payload → (header h'.mem b.addr).free ≠ 0)) ∧
    ∃ blocks', h'.Holds blocks' ∧ Spared h.mem h'.mem blocks blocks' b ∧
      (r = none → 0 < size → b ∈ blocks' ∧ SamePayload h.mem h'.mem b) := by
  let s : State := ⟨blocks, [], h.total, h.used, h.regions, h.mem⟩
  have shows : Shows h s := ⟨holds, List.ne_nil_of_mem hb, rfl, rfl, rfl⟩
  have placed : Placed v s := ⟨sane, avoids⟩
  obtain ⟨fuel, ends⟩ := done
  rcases Image.realloc_cases shows sane hb (ends fuel le_rfl) with ⟨empty, rfl, rfl⟩ |
    ⟨nonzero, large, rfl, rfl⟩ | ⟨larger, rfl, failed⟩ | ⟨larger, q, h₁, answer, rfl, moved⟩
  · have live : Live s b.payload := ⟨b, hb, used, rfl⟩
    refine ⟨fun q none => absurd none (by simp), _, (Image.free_sim shows sane live).2.1.holds,
      free_spares shows sane hb used, fun _ positive => ?_⟩
    omega
  · refine ⟨fun q same => ?_, blocks, holds, fun c hc _ _ => ⟨hc, fun _ _ => rfl⟩,
      fun none => absurd none (by simp)⟩
    obtain rfl := Option.some.inj same
    exact ⟨fun _ _ => rfl, fun different => absurd rfl different⟩
  · obtain ⟨s', shown, kept⟩ := malloc_spares shows placed failed
    exact ⟨fun q none => absurd none (by simp), s'.blocks, shown.holds, fun c hc held _ => kept c hc held,
      fun _ _ => kept b hb used⟩
  · obtain ⟨⟨blocks', shown, spared⟩, contents, released⟩ :=
      move_contents shows placed hb used larger small answer moved
    refine ⟨fun p same => ?_, blocks', shown, spared, fun none => absurd none (by simp)⟩
    obtain rfl := Option.some.inj same
    exact ⟨fun k hk => contents k (lt_of_lt_of_le hk (min_le_left _ _)), fun _ => released⟩

/-- A block of 16 bytes that is moved to make room for 100. -/
theorem sixteen_bytes_moved : ∃ h',
    Converges (fun fuel => Image.realloc noPages fuel (blankTaken 16) (heapBase + 40) 100)
        (some (heapBase + 96), h') ∧
      ∀ k < 16, h'.mem (heapBase + 96 + k) = (blankTaken 16).mem (heapBase + 40 + k) := by
  have shows := oneTaken_good.shows
  have sane := oneTaken_good.neat.sane
  have fit : Image.fitting (alignUp 100) oneTaken.blocks =
      some ⟨heapBase + 56, heapMagic, 262048, true⟩ := by decide
  have hb : ⟨heapBase, heapMagic, 16, false⟩ ∈ oneTaken.blocks := by decide
  obtain ⟨h₁, taken⟩ : ∃ h₁, Converges (fun fuel => Image.malloc noPages fuel (blankTaken 16) 100)
      (some (heapBase + 96), h₁) := ⟨_, Image.malloc_found shows sane (by decide) fit noPages⟩
  have done := Image.realloc_moves (by decide : heapBase + 40 ≠ 0) (by decide +kernel)
    (by decide +kernel) taken
  obtain ⟨contents, -⟩ := (realloc_preserves_contents shows.holds sane
    (oneTaken_good.neat.avoids noPages_upward) hb rfl (by decide) done).1 _ rfl
  exact ⟨_, done, contents⟩

end Thuban.Heap

import Thuban.Heap.Safety

/-!
# Freeing everything restores the heap

While `expand_heap` is not called, the blocks of the list follow one another in memory, fill
`initial_heap` and no two neighbours are both free.  A client that frees every pointer it was given
therefore leaves the single free block of `heap_init` behind (`restored_of_all_freed`).
-/

namespace Thuban.Heap

open Lib

/-- The blocks follow one another in memory, from address `a` up to `e`. -/
def Tiles : ℕ → List Block → ℕ → Prop
  | a, [], e => a = e
  | a, b :: rest, e => b.addr = a ∧ Tiles b.limit rest e

/-- No two neighbours are both free. -/
def Coalesced (blocks : List Block) : Prop :=
  blocks.IsChain fun b c => b.free = false ∨ c.free = false

/-- The blocks handed out. -/
def inUse (blocks : List Block) : List Block := blocks.filter fun b => !b.free

/-- The bytes of the blocks handed out, headers included. -/
def occupied (blocks : List Block) : ℕ :=
  ((inUse blocks).map fun b => b.size + headerSize).sum

/-- A client of the heap, with the pointers it was given and has not freed.  A `malloc` finds its
block in the list, so that `expand_heap` is not called. -/
inductive Client : State × List ℕ → Call → State × List ℕ → Prop
  | malloc {h h' : State} {out : List ℕ} {size : ℕ} {v : Vmm} {r : Option ℕ}
      (found : size ≠ 0 → scan (alignUp size) h.blocks ≠ .exhausted)
      (done : Converges ((Call.malloc size).run v h) (r, h')) :
      Client (h, out) (.malloc size) (h', r.toList ++ out)
  | free {h : State} {out : List ℕ} {ptr : ℕ} (held : ptr ∈ out) :
      Client (h, out) (.free ptr) (Heap.free h ptr, out.erase ptr)
  | null {h : State} {out : List ℕ} : Client (h, out) (.free 0) (Heap.free h 0, out)

variable {h h' : State} {pre post blocks : List Block} {b : Block} {a e : ℕ}

/-! ## Tilings -/

theorem tiles_append {l₁ l₂ : List Block} :
    Tiles a (l₁ ++ l₂) e ↔ ∃ m, Tiles a l₁ m ∧ Tiles m l₂ e := by
  induction l₁ generalizing a with
  | nil => simp [Tiles]
  | cons b l₁ ih =>
    rw [List.cons_append, Tiles, ih]
    simp [Tiles, and_assoc]

theorem Tiles.le (tiles : Tiles a blocks e) : a ≤ e := by
  induction blocks generalizing a with
  | nil => exact le_of_eq tiles
  | cons b rest ih =>
    have := ih tiles.2
    have := tiles.1
    simp only [Block.limit] at *
    omega

theorem Tiles.occupied_le (tiles : Tiles a blocks e) : occupied blocks ≤ e - a := by
  induction blocks generalizing a with
  | nil => simp [occupied, inUse]
  | cons b rest ih =>
    have later := ih tiles.2
    have fits := tiles.2.le
    have := tiles.1
    simp only [Block.limit] at later fits
    unfold occupied inUse at later ⊢
    rw [List.filter_cons]
    split_ifs with used
    · rw [List.map_cons, List.sum_cons]
      omega
    · omega

theorem inUse_append (l₁ l₂ : List Block) : inUse (l₁ ++ l₂) = inUse l₁ ++ inUse l₂ :=
  List.filter_append ..

theorem inUse_cons_free (free : b.free = true) (rest : List Block) :
    inUse (b :: rest) = inUse rest := List.filter_cons_of_neg (by simp [free])

theorem inUse_cons_used (used : b.free = false) (rest : List Block) :
    inUse (b :: rest) = b :: inUse rest := List.filter_cons_of_pos (by simp [used])

variable {ptr fuel size : ℕ} {v : Vmm} {r : Option ℕ} {n : Block}

theorem live_iff : Live h ptr ↔ ptr ∈ (inUse h.blocks).map Block.payload := by
  simp [Live, inUse, and_assoc]

theorem inUse_of_free (free : ∀ c ∈ blocks, c.free = true) : inUse blocks = [] := by
  rw [inUse, List.filter_eq_nil_iff]
  intro c hc
  simp [free c hc]

theorem coalesced_used (used : b.free = false) :
    Coalesced (pre ++ b :: post) ↔ Coalesced pre ∧ Coalesced post := by
  unfold Coalesced
  rw [List.isChain_append, List.isChain_cons]
  simp [used]

theorem coalesced_free (free : b.free = true) :
    Coalesced (pre ++ b :: post) ↔ Coalesced pre ∧ Coalesced post ∧
      (∀ p ∈ pre.getLast?, p.free = false) ∧ ∀ n ∈ post.head?, n.free = false := by
  unfold Coalesced
  rw [List.isChain_append, List.isChain_cons]
  simp only [List.head?_cons, Option.mem_some_iff, forall_eq', free, Bool.true_eq_false, or_false,
    false_or]
  tauto

/-! ## Allocation -/

theorem malloc_cases (found : size ≠ 0 → scan (alignUp size) h.blocks ≠ .exhausted)
    (done : malloc v fuel h size = some (r, h')) :
    r = none ∧ h' = h ∨ ∃ pre b post, h.blocks = pre ++ b :: post ∧ b.free = true ∧
      alignUp size ≤ b.size ∧ r = some (carve (alignUp size) b).1.payload ∧
      h' = { h with
        blocks := pre ++ ((carve (alignUp size) b).1 :: (carve (alignUp size) b).2 ++ post)
        used := wrap (h.used + ((carve (alignUp size) b).1.size + headerSize)) } := by
  cases fuel with
  | zero => simp [malloc] at done
  | succ fuel =>
    rw [malloc] at done
    split_ifs at done with empty
    · simp only [Option.some.injEq, Prod.mk.injEq] at done
      exact .inl ⟨done.1.symm, done.2.symm⟩
    · cases walk : scan (alignUp size) h.blocks with
      | exhausted => exact absurd walk (found empty)
      | corrupt =>
        simp only [walk, Option.some.injEq, Prod.mk.injEq] at done
        exact .inl ⟨done.1.symm, done.2.symm⟩
      | taken c blocks =>
        simp only [walk, Option.some.injEq, Prod.mk.injEq] at done
        obtain ⟨pre, b, post, split, -, free, fits, rfl, rfl⟩ := scan_taken walk
        exact .inr ⟨pre, b, post, split, free, fits, done.1.symm, done.2.symm⟩

theorem carve_used (size : ℕ) (b : Block) : (carve size b).1.free = false := by
  unfold carve
  split_ifs <;> rfl

theorem carve_rest_free (size : ℕ) (b : Block) : ∀ c ∈ (carve size b).2, c.free = true := by
  unfold carve
  split_ifs <;> simp

theorem carve_length (size : ℕ) (b : Block) : (carve size b).2.length ≤ 1 := by
  unfold carve
  split_ifs <;> simp

theorem carve_tiles (fits : size ≤ b.size) (low : 4096 ≤ b.addr) (high : b.limit ≤ 2 ^ 64) :
    Tiles b.addr ((carve size b).1 :: (carve size b).2) b.limit := by
  unfold carve
  rw [wrap_room fits low high]
  split_ifs with large
  · refine ⟨rfl, rfl, ?_⟩
    show b.addr + headerSize + size + headerSize + (b.size - size - headerSize) = b.limit
    simp only [Block.limit, headerSize] at large ⊢
    omega
  · exact ⟨rfl, rfl⟩

theorem carve_coalesced (free : b.free = true) (coalesced : Coalesced (pre ++ b :: post)) :
    Coalesced (pre ++ ((carve size b).1 :: (carve size b).2 ++ post)) := by
  have one := carve_length size b
  obtain ⟨before, behind, -, next⟩ := (coalesced_free free).mp coalesced
  rw [List.cons_append, coalesced_used (carve_used size b)]
  refine ⟨before, ?_⟩
  have rest := carve_rest_free size b
  generalize (carve size b).2 = tail at rest one
  match tail, one with
  | [], _ => exact behind
  | [c], _ =>
    have := (@coalesced_free [] post c (rest c (List.mem_singleton_self c))).mpr
    exact this ⟨List.isChain_nil, behind, by simp, next⟩

theorem carve_inUse (size : ℕ) (b : Block) (post : List Block) :
    inUse ((carve size b).1 :: (carve size b).2 ++ post) = (carve size b).1 :: inUse post := by
  rw [List.cons_append, inUse_cons_used (carve_used size b), inUse_append,
    inUse_of_free (carve_rest_free size b), List.nil_append]

/-! ## Release -/

theorem merges_inUse (free : b.free = true) (pre post : List Block) :
    inUse ((mergePrev pre (mergeNext b post).1).1 ++ (mergeNext b post).2.1) =
      inUse pre ++ inUse post := by
  refine merges_keep (P := fun l => inUse l = inUse pre ++ inUse post) ?_ free ?_
  · intro pre b n post free free' same
    rw [inUse_append, inUse_cons_free free, inUse_cons_free free'] at same
    rw [inUse_append, inUse_cons_free (by exact free)]
    exact same
  · rw [inUse_append, inUse_cons_free free]

theorem Tiles.sizes (tiles : Tiles a (pre ++ b :: n :: post) e) (small : e - a < 2 ^ 64) :
    b.limit = n.addr ∧
      wrap (b.size + (headerSize + n.size)) = b.size + (headerSize + n.size) := by
  obtain ⟨m, front, start, next, later⟩ := tiles_append.mp tiles
  have room := front.le
  have fits := later.le
  refine ⟨next.symm, wrap_of_lt ?_⟩
  simp only [Block.limit] at next fits
  omega

theorem Tiles.join (tiles : Tiles a (pre ++ b :: n :: post) e) (small : e - a < 2 ^ 64) :
    Tiles a (pre ++ { b with size := wrap (b.size + (headerSize + n.size)) } :: post) e := by
  obtain ⟨next, sum⟩ := tiles.sizes small
  obtain ⟨m, front, start, -, later⟩ := tiles_append.mp tiles
  have limit : ({ b with size := wrap (b.size + (headerSize + n.size)) } : Block).limit =
      n.limit := by
    simp only [Block.limit] at next ⊢
    rw [sum]
    omega
  refine tiles_append.mpr ⟨m, front, start, ?_⟩
  rw [limit]
  exact later

theorem merges_coalesced (free : b.free = true) (before : Coalesced pre) (behind : Coalesced post) :
    Coalesced ((mergePrev pre (mergeNext b post).1).1 ++ (mergeNext b post).2.1) := by
  obtain ⟨free', behind', used⟩ : (mergeNext b post).1.free = true ∧
      Coalesced (mergeNext b post).2.1 ∧ ∀ n ∈ (mergeNext b post).2.1.head?, n.free = false := by
    rcases mergeNext_cases b post with ⟨here, rest, used⟩ | ⟨n, rest, rfl, joined, here, later⟩
    · rw [here, rest]
      exact ⟨free, behind, used⟩
    · obtain ⟨-, behind, -, used⟩ := (@coalesced_free [] rest n joined).mp behind
      rw [here, later]
      exact ⟨free, behind, used⟩
  rcases mergePrev_cases pre (mergeNext b post).1 with ⟨same, prev⟩ | ⟨init, p, rfl, joined, same⟩
  · rw [same, List.append_assoc]
    exact (coalesced_free free').mpr ⟨before, behind', prev, used⟩
  · obtain ⟨front, -, prev, -⟩ := (@coalesced_free init [] p joined).mp before
    rw [same, List.append_assoc]
    exact (coalesced_free (by exact joined)).mpr ⟨front, behind', prev, used⟩

section

variable (magic : ∀ b ∈ h.blocks, b.magic = heapMagic) (apart : Apart Block.extent h.blocks)
  (live : Live h ptr)

include magic apart live

theorem free_users :
    ∃ pre b post, h.blocks = pre ++ b :: post ∧ b.free = false ∧ b.payload = ptr ∧
      inUse (free h ptr).blocks = inUse pre ++ inUse post := by
  obtain ⟨pre, b, post, split, used, pointer, -, -, blocks⟩ := free_live magic apart live
  refine ⟨pre, b, post, split, used, pointer, ?_⟩
  rw [blocks]
  exact merges_inUse rfl pre post

theorem free_inUse :
    ((inUse (free h ptr).blocks).map Block.payload).Perm
      (((inUse h.blocks).map Block.payload).erase ptr) := by
  obtain ⟨pre, b, post, split, used, pointer, users⟩ := free_users magic apart live
  rw [users, split, inUse_append, inUse_cons_used used, List.map_append, List.map_append,
    List.map_cons, pointer]
  have first : ((inUse pre).map Block.payload ++ ptr :: (inUse post).map Block.payload).Perm
      (ptr :: ((inUse pre).map Block.payload ++ (inUse post).map Block.payload)) :=
    List.perm_middle
  have middle := first.erase ptr
  rw [List.erase_cons_head] at middle
  exact middle.symm

theorem mem_free_of_used {c : Block} (hc : c ∈ h.blocks) (used : c.free = false)
    (other : c.payload ≠ ptr) : c ∈ (free h ptr).blocks := by
  obtain ⟨pre, b, post, split, -, pointer, users⟩ := free_users magic apart live
  have different : c ≠ b := by
    rintro rfl
    exact other pointer
  have member : c ∈ inUse (free h ptr).blocks := by
    rw [split] at hc
    simp only [List.mem_append, List.mem_cons, different, false_or] at hc
    rw [users, ← inUse_append]
    simpa [inUse, used] using hc
  exact List.mem_of_mem_filter member

end

/-! ## Runs -/

/-- What holds in every state of a run without expansions. -/
structure Tiled (base : ℕ) (s : State × List ℕ) : Prop where
  inv : Inv s.1
  tiles : Tiles base s.1.blocks (base + initialHeapSize)
  coalesced : Coalesced s.1.blocks
  used : s.1.used = headerSize + occupied s.1.blocks
  held : s.2.Perm ((inUse s.1.blocks).map Block.payload)

variable {base : ℕ} {out : List ℕ}

theorem heapInit_tiled (low : 4096 ≤ base) (high : base + initialHeapSize ≤ 2 ^ 64) :
    Tiled base (heapInit base, []) where
  inv := heapInit_inv low high
  tiles := by
    have whole : headerSize + (initialHeapSize - headerSize) = initialHeapSize := by decide
    refine ⟨rfl, ?_⟩
    rw [Block.limit, Nat.add_assoc, whole]
    rfl
  coalesced := List.isChain_singleton _
  used := rfl
  held := List.Perm.nil

theorem malloc_tiled (tiled : Tiled base (h, out))
    (found : size ≠ 0 → scan (alignUp size) h.blocks ≠ .exhausted)
    (done : malloc v fuel h size = some (r, h')) : Tiled base (h', r.toList ++ out) := by
  have inv := malloc_inv tiled.inv done
  obtain ⟨rfl, rfl⟩ | ⟨pre, b, post, split, free, fits, rfl, rfl⟩ := malloc_cases found done
  · exact tiled
  obtain ⟨low, high⟩ := tiled.inv.bounds (mem_of_split split)
  have users := carve_inUse (alignUp size) b post
  have tiles := tiled.tiles
  rw [split, tiles_append] at tiles
  obtain ⟨m, front, start, later⟩ := tiles
  have whole : Tiles base (pre ++ ((carve (alignUp size) b).1 :: (carve (alignUp size) b).2 ++ post))
      (base + initialHeapSize) := by
    refine tiles_append.mpr ⟨m, front, tiles_append.mpr ⟨b.limit, ?_, later⟩⟩
    rw [← start]
    exact carve_tiles fits low high
  have before : h.used = headerSize + occupied h.blocks := tiled.used
  have kept : out.Perm ((inUse h.blocks).map Block.payload) := tiled.held
  simp only [split, inUse_append, inUse_cons_free free, List.map_append] at kept
  refine ⟨inv, whole, ?_, ?_, ?_⟩
  · have coalesced := tiled.coalesced
    rw [split] at coalesced
    exact carve_coalesced free coalesced
  · have total := whole.occupied_le
    simp only [split, occupied, inUse_append, inUse_cons_free free, List.map_append,
      List.sum_append] at before
    simp only [occupied, inUse_append, users, List.map_append, List.map_cons, List.sum_append,
      List.sum_cons, before] at total ⊢
    rw [wrap_of_lt (by simp only [initialHeapSize, headerSize] at total ⊢; omega)]
    omega
  · simp only [inUse_append, users, List.map_append, List.map_cons]
    exact (kept.cons _).trans List.perm_middle.symm

theorem Tiles.mergesAdjacent (tiles : Tiles base h.blocks e) (a : ℕ) : MergesAdjacent h a := by
  intro before b after split _
  rw [split, tiles_append] at tiles
  obtain ⟨m, front, start, later⟩ := tiles
  constructor
  · intro n hn _
    cases after with
    | nil => cases hn
    | cons c rest =>
      obtain rfl : c = n := Option.some.inj hn
      exact later.1.symm
  · intro p hp _
    obtain ⟨init, rfl⟩ := List.getLast?_eq_some_iff.mp hp
    obtain ⟨m', -, start', limit⟩ := tiles_append.mp front
    exact limit.trans start.symm

theorem free_tiled (tiled : Tiled base (h, out)) (held : ptr ∈ out) :
    Tiled base (free h ptr, out.erase ptr) := by
  have live : Live h ptr := live_iff.mpr (tiled.held.subset held)
  have inv := free_inv tiled.inv live (tiled.tiles.mergesAdjacent _)
  obtain ⟨pre, b, post, split, used, -, -, total, blocks⟩ :=
    free_live (h := h) tiled.inv.magic tiled.inv.apart live
  have tiles := tiled.tiles
  have coalesced := tiled.coalesced
  rw [split, coalesced_used used] at coalesced
  have small : base + initialHeapSize - base < 2 ^ 64 := by
    simp only [initialHeapSize]
    omega
  have marked : Tiles base (pre ++ { b with free := true } :: post) (base + initialHeapSize) := by
    rw [split, tiles_append] at tiles
    exact tiles_append.mpr tiles
  have before : h.used = headerSize + occupied h.blocks := tiled.used
  refine ⟨inv, ?_, ?_, ?_, ?_⟩
  · rw [blocks]
    exact merges_keep (P := fun l => Tiles base l (base + initialHeapSize))
      (fun _ _ _ _ _ _ tiles => tiles.join small) rfl marked
  · rw [blocks]
    exact merges_coalesced rfl coalesced.1 coalesced.2
  · have bound : occupied h.blocks ≤ base + initialHeapSize - base := tiled.tiles.occupied_le
    simp only [split, occupied, inUse_append, inUse_cons_used used, List.map_append, List.map_cons,
      List.sum_append, List.sum_cons] at before bound
    rw [total, blocks, before, occupied, merges_inUse rfl, List.map_append, List.sum_append]
    simp only [wrap, initialHeapSize, headerSize] at bound ⊢
    omega
  · exact (tiled.held.erase ptr).trans (free_inUse tiled.inv.magic tiled.inv.apart live).symm

theorem client_tiled {s s' : State × List ℕ} {c : Call} (tiled : Tiled base s)
    (step : Client s c s') : Tiled base s' := by
  cases step with
  | malloc found done =>
    obtain ⟨bound, converges⟩ := done
    exact malloc_tiled tiled found (converges bound le_rfl)
  | free held => exact free_tiled tiled held
  | null =>
    rw [free_null]
    exact tiled

theorem Tiled.eq_initial (tiled : Tiled base (h, [])) : h.blocks = (heapInit base).blocks := by
  have nothing : inUse h.blocks = [] := List.map_eq_nil_iff.mp (List.nil_perm.mp tiled.held)
  have free : ∀ b ∈ h.blocks, b.free = true := by
    intro b hb
    simpa using (List.filter_eq_nil_iff.mp nothing) b hb
  have tiles := tiled.tiles
  have coalesced := tiled.coalesced
  have magic := tiled.inv.magic
  match blocks : h.blocks with
  | [] =>
    rw [blocks] at tiles
    exact absurd tiles (by simp [Tiles, initialHeapSize])
  | b :: c :: rest =>
    rw [blocks] at coalesced free
    rcases List.IsChain.rel coalesced with used | used
    · rw [free b (by simp)] at used
      cases used
    · rw [free c (by simp)] at used
      cases used
  | [b] =>
    rw [blocks] at tiles free magic
    obtain ⟨start, limit⟩ := tiles
    have size : b.size = initialHeapSize - headerSize := by
      simp only [Tiles, Block.limit, initialHeapSize, headerSize] at limit ⊢
      omega
    obtain ⟨addr, m, sz, f⟩ := b
    simp only [List.mem_singleton, forall_eq] at free magic
    subst start size free magic
    rfl

/-- Along every run of `malloc` and `free` that stays within `initial_heap`, in whatever order the
pointers are freed, the blocks tile `initial_heap` and no two neighbours are both free; and whenever
every pointer handed out has been freed, the list is the one of `heap_init` and `used_heap_size` is
back at its first value. -/
theorem restored_of_all_freed (low : 4096 ≤ base) (high : base + initialHeapSize ≤ 2 ^ 64)
    {calls : List Call} (run : Run Client (heapInit base, []) calls (h, out)) :
    Tiles base h.blocks (base + initialHeapSize) ∧ Coalesced h.blocks ∧
      (out = [] → h.blocks = [⟨base, heapMagic, initialHeapSize - headerSize, true⟩] ∧
        h.used = headerSize) := by
  have tiled : Tiled base (h, out) :=
    run.invariant (fun _ _ _ tiled step => client_tiled tiled step) (heapInit_tiled low high)
  refine ⟨tiled.tiles, tiled.coalesced, ?_⟩
  rintro rfl
  have blocks : h.blocks = [⟨base, heapMagic, initialHeapSize - headerSize, true⟩] :=
    tiled.eq_initial
  refine ⟨blocks, ?_⟩
  rw [tiled.used, blocks]
  rfl

/-- Two blocks are handed out in `initial_heap`. -/
def twoBlocks : State := { heapInit heapBase with
  blocks := [⟨heapBase, heapMagic, 112, false⟩, ⟨heapBase + 152, heapMagic, 208, false⟩,
    ⟨heapBase + 400, heapMagic, 261704, true⟩]
  used := 440 }

/-- The rule applied to a client that allocates twice and frees the older block first. -/
theorem restored_after_two :
    (free (free twoBlocks (heapBase + 40)) (heapBase + 192)).blocks =
        [⟨heapBase, heapMagic, initialHeapSize - headerSize, true⟩] ∧
      (free (free twoBlocks (heapBase + 40)) (heapBase + 192)).used = headerSize := by
  refine (@restored_of_all_freed _ heapBase [] (by decide) (by decide)
    [.malloc 100, .malloc 200, .free (heapBase + 40), .free (heapBase + 192)] ?_).2.2 rfl
  have first : Client (heapInit heapBase, []) (.malloc 100)
      ({ heapInit heapBase with
        blocks := [⟨heapBase, heapMagic, 112, false⟩, ⟨heapBase + 152, heapMagic, 261952, true⟩]
        used := 192 }, [heapBase + 40]) :=
    .malloc (v := onePage) (r := some (heapBase + 40)) (fun _ => Scan.noConfusion)
      (.step (fun _ => rfl) (.const fun _ => rfl))
  refine .cons first (.cons (t := (twoBlocks, [heapBase + 192, heapBase + 40])) ?_
    (.cons (.free (by decide)) (.cons (.free (by decide)) (.nil _))))
  exact .malloc (v := onePage) (r := some (heapBase + 192)) (fun _ => Scan.noConfusion)
    (.step (fun _ => rfl) (.const fun _ => rfl))

end Thuban.Heap

import Thuban.Heap.Order

/-!
# The memory shows the list

The byte-level heap does what the list-level heap does, as long as the blocks of the list do not
overlap.  `Shows h s` says that the memory of `h` holds the list of `s`; each function of `heap.c`
takes a memory that shows a list to one that shows the list after the same function of `Heap.State`,
and leaves the payloads alone that are in use (`Keeps`).
-/

namespace Thuban.Heap

open Lib

/-- The memory of `h` holds the list of `s`, and the counters agree. -/
structure Shows (h : Image) (s : State) : Prop where
  holds : h.Holds s.blocks
  nonempty : s.blocks ≠ []
  total : h.total = s.total
  used : h.used = s.used
  regions : h.regions = s.regions

/-- Blocks that do not overlap, and a memory manager that stays away from them. -/
structure Placed (v : Vmm) (s : State) : Prop where
  sane : Sane s.blocks
  avoids : Avoids v s

def Keeps (blocks : List Block) (m m' : Bytes) : Prop :=
  ∀ b ∈ blocks, b.free = false → ∀ k, b.payload ≤ k → k < b.limit → m' k = m k

variable {h h' : Image} {s s' : State} {pre post blocks : List Block} {b c n : Block} {v : Vmm}
  {m m' : Bytes} {a size fuel : ℕ}

/-! ## Blocks that do not overlap -/

theorem clear_of_disjoint (apart : Disjoint b.extent c.extent) : Clear b.addr c.addr := by
  rw [Block.extent, Block.extent, Set.Ico_disjoint_Ico] at apart
  simp only [Block.limit, Clear, headerSize] at apart ⊢
  omega

theorem Sane.others (sane : Sane (pre ++ b :: post)) :
    ∀ c ∈ pre ++ post, Disjoint c.extent b.extent := by
  have apart := sane.apart
  unfold Apart at apart
  rw [List.pairwise_append, List.pairwise_cons] at apart
  intro c hc
  rcases List.mem_append.mp hc with hc | hc
  · exact apart.2.2 c hc b (by simp)
  · exact (apart.2.1.1 c hc).symm

theorem Sane.clear_others (sane : Sane (pre ++ b :: post)) :
    ∀ c ∈ pre ++ post, Clear b.addr c.addr :=
  fun c hc => (clear_of_disjoint (sane.others c hc)).symm

theorem Sane.addr_lt (sane : Sane blocks) (hb : b ∈ blocks) : b.addr < 2 ^ 64 := by
  have := sane.high b hb
  simp only [Block.limit, headerSize] at this
  omega

theorem ne_of_used (used : b.free = false) (free : c.free = true) : b ≠ c := by
  rintro rfl
  rw [used] at free
  cases free

theorem blockAt_eq_iff : blockAt m b.addr = b ↔ (header m b.addr).magic = b.magic ∧
    (header m b.addr).size = b.size ∧ (b.free = true ↔ (header m b.addr).free ≠ 0) := by
  obtain ⟨addr, magic, size, free⟩ := b
  simp only [blockAt, Block.mk.injEq, true_and]
  cases free <;> simp

theorem head_addr {P : ℕ → Prop} (each : ∀ c ∈ post.head?, P c.addr) :
    (post.head?.map Block.addr).getD 0 ≠ 0 → P ((post.head?.map Block.addr).getD 0) := by
  cases post with
  | nil => exact fun none => absurd rfl none
  | cons c rest => exact fun _ => each c rfl

theorem Sane.payload_outside (sane : Sane blocks) (hb : b ∈ blocks) (hc : c ∈ blocks) {k : ℕ}
    (low : b.payload ≤ k) (high : k < b.limit) : k < c.addr ∨ c.addr + headerSize ≤ k := by
  by_cases same : b = c
  · subst same
    exact .inr low
  · have apart := sane.apart.disjoint_of_ne hb hc same
    rw [Block.extent, Block.extent, Set.Ico_disjoint_Ico] at apart
    simp only [Block.limit, Block.payload] at low high apart
    omega

theorem Sane.payload_beyond (sane : Sane blocks) (hb : b ∈ blocks) (hc : c ∈ blocks)
    (different : b ≠ c) {k : ℕ} (low : b.payload ≤ k) (high : k < b.limit) :
    k < c.addr ∨ c.limit ≤ k := by
  have apart := sane.apart.disjoint_of_ne hb hc different
  rw [Block.extent, Block.extent, Set.Ico_disjoint_Ico] at apart
  simp only [Block.limit, Block.payload] at low high apart ⊢
  omega

namespace Image

theorem Holds.fields (holds : h.Holds blocks) (hb : b ∈ blocks) :
    (header h.mem b.addr).magic = b.magic ∧ (header h.mem b.addr).size = b.size ∧
      (b.free = true ↔ (header h.mem b.addr).free ≠ 0) :=
  blockAt_eq_iff.mp (holds.shown b hb)

theorem Holds.links (holds : h.Holds (pre ++ b :: post)) :
    (header h.mem b.addr).next = (post.head?.map Block.addr).getD 0 ∧
      (header h.mem b.addr).prev = (pre.getLast?.map Block.addr).getD 0 := by
  have linked := holds.linked
  rw [List.map_append, List.map_cons] at linked
  obtain ⟨forth, back⟩ := linked.neighbours
  rw [forth, back, List.head?_map, List.getLast?_map]
  exact ⟨rfl, rfl⟩

theorem Holds.start_eq (holds : h.Holds blocks) :
    h.start = (blocks.head?.map Block.addr).getD 0 := by
  rw [holds.linked.start_eq, List.head?_map]

theorem Holds.addr_ne_zero (holds : h.Holds blocks) (hb : b ∈ blocks) : b.addr ≠ 0 :=
  holds.linked.ne_null (List.mem_map_of_mem hb)

theorem Holds.congr (holds : h.Holds blocks) (start : h'.start = h.start)
    (same : ∀ b ∈ blocks, header h'.mem b.addr = header h.mem b.addr) : h'.Holds blocks := by
  constructor
  · rw [start]
    apply holds.linked.congr
    · intro a ha
      obtain ⟨b, hb, rfl⟩ := List.mem_map.mp ha
      exact congrArg Header.next (same b hb)
    · intro a ha
      obtain ⟨b, hb, rfl⟩ := List.mem_map.mp ha
      exact congrArg Header.prev (same b hb)
  · intro b hb
    rw [← holds.shown b hb]
    simp only [blockAt, same b hb]

theorem Holds.first_prev (holds : h.Holds blocks) (listed : ∀ c ∈ post, c ∈ blocks)
    (next : (post.head?.map Block.addr).getD 0 ≠ 0 →
      header m ((post.head?.map Block.addr).getD 0) =
        { header h.mem ((post.head?.map Block.addr).getD 0) with prev := a }) :
    ∀ c ∈ post.head?, header m c.addr = { header h.mem c.addr with prev := a } := by
  intro c hc
  have address : (post.head?.map Block.addr).getD 0 = c.addr := by
    rw [Option.mem_def.mp hc]
    rfl
  rw [address] at next
  exact next (holds.addr_ne_zero (listed c (List.mem_of_mem_head? hc)))

/-- Around a place where the list changes, only the first block behind it has another header, and
in it only another back link. -/
structure Spliced (m m' : Bytes) (pre post : List Block) (back : ℕ) : Prop where
  before : ∀ c ∈ pre, header m' c.addr = header m c.addr
  head : ∀ c ∈ post.head?, header m' c.addr = { header m c.addr with prev := back }
  after : ∀ c ∈ post.tail, header m' c.addr = header m c.addr

section

variable (spliced : Spliced m m' pre post a)

include spliced

theorem Spliced.behind (hc : c ∈ post) :
    ∃ p, header m' c.addr = { header m c.addr with prev := p } := by
  cases post with
  | nil => cases hc
  | cons d rest =>
    rcases List.mem_cons.mp hc with rfl | hc
    · exact ⟨a, spliced.head c rfl⟩
    · exact ⟨_, spliced.after c hc⟩

theorem Spliced.around : Around (fun x => (header m x).next) (fun x => (header m x).prev)
    (fun x => (header m' x).next) (fun x => (header m' x).prev)
    (pre.map Block.addr) (post.map Block.addr) a where
  before := by
    intro x hx
    obtain ⟨c, hc, rfl⟩ := List.mem_map.mp hx
    simp [spliced.before c hc]
  first := by
    intro x hx
    rw [List.head?_map, Option.mem_def, Option.map_eq_some_iff] at hx
    obtain ⟨c, hc, rfl⟩ := hx
    simp only [spliced.head c hc]
  forth := by
    intro x hx
    obtain ⟨c, hc, rfl⟩ := List.mem_map.mp hx
    obtain ⟨p, changed⟩ := spliced.behind hc
    simp only [changed]
  back := by
    intro x hx
    rw [← List.map_tail] at hx
    obtain ⟨c, hc, rfl⟩ := List.mem_map.mp hx
    simp only [spliced.after c hc]

end

theorem Spliced.shown (spliced : Spliced h.mem m' pre post a) (holds : h.Holds blocks)
    (listed : c ∈ blocks) (hc : c ∈ pre ++ post) : blockAt m' c.addr = c := by
  rw [blockAt_eq_iff]
  rcases List.mem_append.mp hc with hc | hc
  · rw [spliced.before c hc]
    exact holds.fields listed
  · obtain ⟨p, changed⟩ := spliced.behind hc
    rw [changed]
    exact holds.fields listed

/-! ## Taking a block -/

section Split

variable {current new next : ℕ}

section

variable (place : wrap (current + headerSize + size) = new) (clear : Clear new current)
  (link : (header m current).next = next)

include place clear link

theorem split_eq :
    split size m current =
      let rest := setField (setField (setField (setField (setField m new .magic heapMagic) new .size
        (wrapSub (wrapSub (header m current).size size) headerSize)) new .free 1) new .next next)
        new .prev current
      setField (setField (if next ≠ 0 then setField rest next .prev new else rest)
        current .next new) current .size size := by
  unfold split
  simp only [place, header_setField_clear _ _ _ clear, link]

theorem split_headers (behind : next ≠ 0 → Clear next new ∧ Clear next current)
    (small : current < 2 ^ 64) (small' : size < 2 ^ 64) :
    header (split size m current) current =
        { header m current with size := size, next := new } ∧
      header (split size m current) new =
        ⟨heapMagic, wrapSub (wrapSub (header m current).size size) headerSize, 1, next, current⟩ ∧
      (next ≠ 0 → header (split size m current) next = { header m next with prev := new }) ∧
      ∀ a, Clear current a → Clear new a → (next ≠ 0 → Clear next a) →
        header (split size m current) a = header m a := by
  have bound : new % 2 ^ 64 = new := by
    rw [← place, wrap, Nat.mod_mod]
  have bound' : next % 2 ^ 64 = next := by
    rw [← link]
    exact Nat.mod_eq_of_lt (Bytes.le64_lt _ _)
  have rest : wrapSub (wrapSub (header m current).size size) headerSize % 2 ^ 64 =
      wrapSub (wrapSub (header m current).size size) headerSize := Nat.mod_mod _ _
  have small := Nat.mod_eq_of_lt small
  have small' := Nat.mod_eq_of_lt small'
  have magic : heapMagic % 2 ^ 32 = heapMagic := rfl
  have one : 1 % 2 ^ 32 = 1 := rfl
  have back := clear.symm
  rw [split_eq place clear link]
  by_cases last : next = 0
  · subst last
    simp only [ne_eq, not_true_eq_false, if_false, false_implies, true_and]
    refine ⟨?_, ?_, fun a first second _ => ?_⟩
    · simp only [header_setField, header_setField_clear, clear, Header.set, small', bound]
    · simp only [header_setField, header_setField_clear, back, Header.set, rest, small, bound',
        magic, one]
    · simp only [header_setField_clear, first, second]
  · obtain ⟨far, far'⟩ := behind last
    have far₁ := far.symm
    have far₂ := far'.symm
    simp only [ne_eq, last, not_false_eq_true, if_true, true_implies]
    refine ⟨?_, ?_, ?_, fun a first second third => ?_⟩
    · simp only [header_setField, header_setField_clear, clear, far', Header.set, small', bound]
    · simp only [header_setField, header_setField_clear, back, far, Header.set, rest, small, bound',
        magic, one]
    · simp only [header_setField, header_setField_clear, far₁, far₂, Header.set, bound]
    · simp only [header_setField_clear, first, second, third]

theorem split_outside {k : ℕ} (first : k < current ∨ current + headerSize ≤ k)
    (second : k < new ∨ new + headerSize ≤ k) (third : next ≠ 0 → k < next ∨ next + headerSize ≤ k) :
    split size m current k = m k := by
  rw [split_eq place clear link]
  rw [setField_outside _ _ _ first, setField_outside _ _ _ first]
  split_ifs with more
  · rw [setField_outside _ _ _ (third more)]
    simp only [setField_outside _ _ _ second]
  · simp only [setField_outside _ _ _ second]

end

end Split

theorem rest_place (sane : Sane (pre ++ b :: post)) (large : size + headerSize + 64 ≤ b.size) :
    wrap (b.addr + headerSize + size) = b.addr + headerSize + size ∧
      Clear (b.addr + headerSize + size) b.addr ∧
      ∀ c ∈ pre ++ post, Clear (b.addr + headerSize + size) c.addr := by
  have high := sane.high b (by simp)
  simp only [Block.limit, headerSize] at high large
  refine ⟨wrap_of_lt (by simp only [headerSize]; omega), ?_, fun c hc => ?_⟩
  · simp only [Clear, headerSize]
    omega
  · have apart := sane.others c hc
    rw [Block.extent, Block.extent, Set.Ico_disjoint_Ico] at apart
    simp only [Block.limit, Clear, headerSize] at apart ⊢
    omega

section

variable (holds : h.Holds (pre ++ b :: post)) (sane : Sane (pre ++ b :: post))

include holds sane

theorem split_holds (large : size + headerSize + 64 ≤ b.size) :
    { h with mem := split size h.mem b.addr }.Holds
      (pre ++ { b with size := size } ::
        ⟨b.addr + headerSize + size, heapMagic, b.size - size - headerSize, true⟩ :: post) := by
  obtain ⟨place, clear, clear'⟩ := rest_place sane large
  obtain ⟨magic, length, free⟩ := holds.fields (b := b) (by simp)
  have others := sane.clear_others
  have high := sane.high b (by simp)
  simp only [Block.limit, headerSize] at high large
  have link := holds.links.1
  have behind : (post.head?.map Block.addr).getD 0 ≠ 0 →
      Clear ((post.head?.map Block.addr).getD 0) (b.addr + headerSize + size) ∧
        Clear ((post.head?.map Block.addr).getD 0) b.addr := by
    apply head_addr (P := fun k => Clear k (b.addr + headerSize + size) ∧ Clear k b.addr)
    intro n hn
    have hn : n ∈ pre ++ post := by simp [List.mem_of_mem_head? hn]
    exact ⟨(clear' n hn).symm, (others n hn).symm⟩
  obtain ⟨cut, rest, next, same⟩ := split_headers place clear link behind
    (sane.addr_lt (by simp)) (by omega : size < 2 ^ 64)
  have spliced : Spliced h.mem (split size h.mem b.addr) pre post (b.addr + headerSize + size) := by
    refine ⟨fun c hc => ?_, holds.first_prev (fun c hc => by simp [hc]) next, fun c hc => ?_⟩
    · refine same c.addr (others c (by simp [hc])) (clear' c (by simp [hc])) ?_
      apply head_addr (P := (Clear · c.addr))
      intro n hn
      have apart := (List.pairwise_append.mp sane.apart).2.2 c hc n
        (by simp [List.mem_of_mem_head? hn])
      exact (clear_of_disjoint apart).symm
    · cases post with
      | nil => cases hc
      | cons n tail =>
        have hc : c ∈ tail := hc
        refine same c.addr (others c (by simp [hc])) (clear' c (by simp [hc])) fun _ => ?_
        have apart := (List.pairwise_cons.mp (List.pairwise_append.mp sane.apart).2.1).2
        exact clear_of_disjoint (List.rel_of_pairwise_cons apart hc)
  constructor
  · have linked := holds.linked
    simp only [List.map_append, List.map_cons] at linked ⊢
    refine linked.insert (by simp only [headerSize]; omega) spliced.around ?_ ?_
    · simp [cut]
    · simp [rest, link]
  · intro c hc
    simp only [List.mem_append, List.mem_cons] at hc
    rcases hc with hc | rfl | rfl | hc
    · exact spliced.shown holds (by simp [hc]) (by simp [hc])
    · rw [blockAt_eq_iff]
      rw [cut]
      exact ⟨magic, rfl, free⟩
    · rw [blockAt_eq_iff]
      rw [rest]
      refine ⟨rfl, ?_, by simp⟩
      rw [length]
      simp only [wrapSub, wrap, headerSize]
      omega
    · exact spliced.shown holds (by simp [hc]) (by simp [hc])

theorem setFree_holds (v : ℕ) : { h with mem := setField h.mem b.addr .free v }.Holds
      (pre ++ { b with free := decide (v % 2 ^ 32 ≠ 0) } :: post) := by
  have others := sane.clear_others
  have here := header_setField h.mem b.addr .free v
  have same : ∀ c ∈ pre ++ post,
      header (setField h.mem b.addr .free v) c.addr = header h.mem c.addr :=
    fun c hc => header_setField_clear _ _ _ (others c hc)
  constructor
  · have linked := holds.linked
    rw [List.map_append, List.map_cons] at linked ⊢
    have kept : ∀ a ∈ pre.map Block.addr ++ b.addr :: post.map Block.addr,
        (header (setField h.mem b.addr .free v) a).next = (header h.mem a).next ∧
          (header (setField h.mem b.addr .free v) a).prev = (header h.mem a).prev := by
      intro a ha
      simp only [List.mem_append, List.mem_cons, List.mem_map] at ha
      rcases ha with ⟨c, hc, rfl⟩ | rfl | ⟨c, hc, rfl⟩
      · simp [same c (by simp [hc])]
      · simp [here, Header.set]
      · simp [same c (by simp [hc])]
    exact linked.congr (fun a ha => (kept a ha).1) fun a ha => (kept a ha).2
  · intro c hc
    rw [blockAt_eq_iff]
    rcases List.mem_append.mp hc with hc | hc
    · rw [same c (by simp [hc])]
      exact holds.fields (by simp [hc])
    · rcases List.mem_cons.mp hc with rfl | hc
      · obtain ⟨magic, length, -⟩ := holds.fields (b := b) (by simp)
        rw [here]
        exact ⟨magic, length, by simp [Header.set]⟩
      · rw [same c (by simp [hc])]
        exact holds.fields (by simp [hc])

theorem takeBlock_holds (fits : size ≤ b.size) : { h with mem := takeBlock size h.mem b.addr }.Holds
      (pre ++ ((carve size b).1 :: (carve size b).2 ++ post)) := by
  have length := (holds.fields (b := b) (by simp)).2.1
  have exact := wrap_room fits (sane.low b (by simp)) (sane.high b (by simp))
  unfold takeBlock carve
  rw [exact, length]
  split_ifs with large
  · have taken := sane.take fits
    simp only [carve, exact, if_pos large] at taken
    exact setFree_holds (split_holds holds sane large) (taken.reflag b.free) 0
  · exact setFree_holds holds sane 0

theorem takeBlock_keeps (free : b.free = true) (fits : size ≤ b.size) :
    Keeps (pre ++ b :: post) h.mem (takeBlock size h.mem b.addr) := by
  have length := (holds.fields (b := b) (by simp)).2.1
  have exact := wrap_room fits (sane.low b (by simp)) (sane.high b (by simp))
  intro c hc used k lower upper
  have different := ne_of_used used free
  have beyond := sane.payload_beyond hc (c := b) (by simp) different lower upper
  have first : k < b.addr ∨ b.addr + headerSize ≤ k := by
    simp only [Block.limit] at beyond
    omega
  unfold takeBlock
  rw [setField_outside _ _ _ first, exact, length]
  split_ifs with large
  · obtain ⟨place, clear, -⟩ := rest_place sane large
    apply split_outside place clear holds.links.1 first
    · simp only [Block.limit, headerSize] at beyond large ⊢
      omega
    · apply head_addr (P := fun x => k < x ∨ x + headerSize ≤ k)
      intro n hn
      exact sane.payload_outside hc (by simp [List.mem_of_mem_head? hn]) lower upper
  · rfl

end

/-! ## The walks over the list -/

def fitting (size : ℕ) (blocks : List Block) : Option Block :=
  blocks.find? fun b => b.free && decide (size ≤ b.size)

theorem walk_eq (pre : List Block) (size : ℕ) (holds : h.Holds (pre ++ post))
    (magic : ∀ b ∈ pre ++ post, b.magic = heapMagic)
    (enough : post.length < fuel) :
    walk size h.mem fuel ((post.head?.map Block.addr).getD 0) =
      some (((fitting size post).map fun b => Walk.found b.addr).getD .exhausted) := by
  induction post generalizing pre fuel with
  | nil =>
    obtain ⟨fuel, rfl⟩ := Nat.exists_eq_add_of_lt enough
    rfl
  | cons b rest ih =>
    obtain ⟨fuel, rfl⟩ := Nat.exists_eq_add_of_lt (Nat.zero_lt_of_lt enough)
    rw [Nat.zero_add]
    obtain ⟨intact, length, free⟩ := holds.fields (b := b) (by simp)
    have cell : b.addr ≠ 0 := holds.addr_ne_zero (by simp)
    rw [List.head?_cons, Option.map_some, Option.getD_some, walk, if_neg cell, intact,
      magic b (by simp), length]
    simp only [ne_eq, not_true_eq_false, if_false]
    by_cases fits : b.free = true ∧ size ≤ b.size
    · have found : fitting size (b :: rest) = some b := by
        simp [fitting, fits]
      rw [if_pos ⟨free.mp fits.1, fits.2⟩, found]
      rfl
    · have skip : fitting size (b :: rest) = fitting size rest := by
        apply List.find?_cons_of_neg
        simpa using fits
      rw [if_neg (fun both => fits ⟨free.mpr both.1, both.2⟩), skip, holds.links.1]
      have shift : pre ++ b :: rest = (pre ++ [b]) ++ rest := by simp
      rw [shift] at holds magic
      exact ih _ holds magic (by simp only [List.length_cons] at enough; omega)

theorem lastBlock_eq (pre : List Block) (holds : h.Holds (pre ++ b :: post)) (enough : post.length < fuel) :
    lastBlock h.mem fuel b.addr = some ((b :: post).getLast (List.cons_ne_nil _ _)).addr := by
  induction post generalizing pre b fuel with
  | nil =>
    obtain ⟨fuel, rfl⟩ := Nat.exists_eq_add_of_lt enough
    rw [List.length_nil, Nat.zero_add, lastBlock, holds.links.1]
    simp
  | cons n rest ih =>
    obtain ⟨fuel, rfl⟩ := Nat.exists_eq_add_of_lt (Nat.zero_lt_of_lt enough)
    have cell : n.addr ≠ 0 := holds.addr_ne_zero (by simp)
    have link : (header h.mem b.addr).next = n.addr := holds.links.1
    have shift : pre ++ b :: n :: rest = (pre ++ [b]) ++ n :: rest := by simp
    rw [shift] at holds
    rw [Nat.zero_add, lastBlock, link, if_pos cell,
      ih _ holds (by simp only [List.length_cons] at enough; omega)]
    rw [List.getLast_cons (List.cons_ne_nil _ _)]

theorem scan_of_fitting_none (magic : ∀ b ∈ blocks, b.magic = heapMagic)
    (none_fits : fitting size blocks = none) : scan size blocks = .exhausted := by
  induction blocks with
  | nil => rfl
  | cons b rest ih =>
    have all := List.find?_eq_none.mp none_fits
    have skip := all b (by simp)
    simp only [Bool.and_eq_true, decide_eq_true_eq] at skip
    rw [scan, if_neg (not_not.mpr (magic b (by simp))), if_neg skip,
      ih (fun c hc => magic c (by simp [hc]))
        (List.find?_eq_none.mpr fun c hc => all c (by simp [hc]))]

theorem scan_of_fitting (magic : ∀ b ∈ blocks, b.magic = heapMagic)
    (fits : fitting size blocks = some b) :
    ∃ pre post, blocks = pre ++ b :: post ∧ b.free = true ∧ size ≤ b.size ∧
      scan size blocks = .taken (carve size b).1
        (pre ++ ((carve size b).1 :: (carve size b).2 ++ post)) := by
  induction blocks with
  | nil => cases fits
  | cons c rest ih =>
    rw [scan, if_neg (not_not.mpr (magic c (by simp)))]
    by_cases here : c.free = true ∧ size ≤ c.size
    · have found : fitting size (c :: rest) = some c := by
        simp [fitting, here]
      obtain rfl : c = b := Option.some.inj (found.symm.trans fits)
      refine ⟨[], rest, rfl, here.1, here.2, ?_⟩
      rw [if_pos here]
      rfl
    · have skip : fitting size (c :: rest) = fitting size rest := by
        apply List.find?_cons_of_neg
        simpa using here
      obtain ⟨pre, post, rfl, free, enough, later⟩ :=
        ih (fun d hd => magic d (by simp [hd])) (skip.symm.trans fits)
      refine ⟨c :: pre, post, rfl, free, enough, ?_⟩
      rw [if_neg here, later]
      rfl

/-! ## Expansion -/

theorem header_newBlock (m : Bytes) (a : ℕ) (small : size < 2 ^ 64) :
    header (newBlock m a size) a = ⟨heapMagic, size, 1, 0, 0⟩ := by
  have small := Nat.mod_eq_of_lt small
  have magic : heapMagic % 2 ^ 32 = heapMagic := rfl
  simp only [newBlock, header_setField, Header.set, small, magic]
  rfl

theorem newBlock_outside (m : Bytes) {k : ℕ} (outside : k < a ∨ a + headerSize ≤ k) :
    newBlock m a size k = m k := by
  simp only [newBlock, setField_outside _ _ _ outside]

theorem header_newBlock_clear (m : Bytes) {x : ℕ} (clear : Clear a x) :
    header (newBlock m a size) x = header m x := by
  simp only [newBlock, header_setField_clear _ _ _ clear]

theorem append_holds (holds : h.Holds (pre ++ [b])) (sane : Sane (pre ++ [b]))
    (clear : ∀ c ∈ pre ++ [b], Clear a c.addr) (cell : a ≠ 0) (small : a < 2 ^ 64)
    (fresh : header h.mem a = ⟨heapMagic, size, 1, 0, 0⟩) :
    { h with mem := setField (setField h.mem b.addr .next a) a .prev b.addr }.Holds
      (pre ++ [b] ++ [Block.mk a heapMagic size true]) := by
  have others := sane.clear_others
  have position := Nat.mod_eq_of_lt (sane.addr_lt (b := b) (by simp))
  have small := Nat.mod_eq_of_lt small
  have clear₁ := clear b (by simp)
  have clear₂ := clear₁.symm
  have new : header (setField (setField h.mem b.addr .next a) a .prev b.addr) a =
      ⟨heapMagic, size, 1, 0, b.addr⟩ := by
    simp only [header_setField, header_setField_clear, clear₂, fresh, Header.set, position]
  have old : header (setField (setField h.mem b.addr .next a) a .prev b.addr) b.addr =
      { header h.mem b.addr with next := a } := by
    simp only [header_setField, header_setField_clear, clear₁, Header.set, small]
  have spliced : Spliced h.mem (setField (setField h.mem b.addr .next a) a .prev b.addr) pre [] a := by
    refine ⟨fun c hc => ?_, by simp, by simp⟩
    have far := clear c (by simp [hc])
    have far' := others c (by simp [hc])
    simp only [header_setField_clear, far, far']
  constructor
  · have linked := holds.linked
    rw [List.map_append, List.map_cons] at linked
    simp only [List.append_assoc, List.map_append, List.map_cons, List.map_nil, List.cons_append,
      List.nil_append] at linked ⊢
    refine linked.insert cell spliced.around ?_ ?_
    · simp [old]
    · simp only [new, holds.links.1]
      exact ⟨rfl, trivial⟩
  · intro c hc
    simp only [List.mem_append, List.mem_singleton] at hc
    rcases hc with (hc | rfl) | rfl
    · exact spliced.shown holds (by simp [hc]) (by simp [hc])
    · rw [blockAt_eq_iff, old]
      exact holds.fields (by simp)
    · rw [blockAt_eq_iff]
      rw [new]
      exact ⟨rfl, rfl, by simp⟩

variable {needed : ℕ}

theorem expandHeap_fails (shows : Shows h s) (failed : Heap.expandHeap v s needed = none) (fuel : ℕ) :
    expandHeap v fuel h needed = some (false, { h with expandCalls := h.expandCalls + 1 }) := by
  unfold expandHeap
  dsimp only
  rw [shows.regions, expandHeap_eq_none.mp failed]

/-- The new block lies outside the others, and later ones will avoid it too. -/
theorem expandHeap_placed (placed : Placed v s) (grown : Heap.expandHeap v s needed = some s') :
    Placed v s' := by
  obtain ⟨sane, avoids⟩ := placed
  obtain ⟨a, answer, some_pages, rfl⟩ := expandHeap_cases grown
  have aligned := v.pageAligned _ _ _ answer
  have fits := v.noWrap _ _ _ answer
  generalize pagesFor needed = pages at *
  have limit : a + headerSize + (pages * 4096 - headerSize) = a + pages * 4096 := by
    simp only [headerSize]
    omega
  constructor
  · refine sane.append rfl ?_ ?_ ?_ fun c hc => ?_
    · show 4096 ≤ a
      omega
    · rw [Block.limit, limit]
      exact fits
    · show a + headerSize < 2 ^ 64
      simp only [headerSize]
      omega
    · have apart := avoids _ _ _ (List.Subset.refl _) answer c hc
      rw [Block.extent, Block.extent, Set.Ico_disjoint_Ico, Block.limit, Block.limit, limit]
      dsimp only [Block.limit] at apart ⊢
      omega
  · intro rs n x old given b hb
    rcases List.mem_append.mp hb with hb | hb
    · refine avoids rs n x (fun r hr => old ?_) given b hb
      exact List.mem_append_left _ hr
    · rw [List.mem_singleton.mp hb, Block.limit, limit]
      have region : (⟨a, pages * 4096⟩ : Region) ∈ rs := old (by simp)
      exact v.fresh rs n x given _ region

theorem expandHeap_grows (shows : Shows h s) (placed : Placed v s) (enough : s.blocks.length ≤ fuel)
    (grown : Heap.expandHeap v s needed = some s') :
    ∃ h', expandHeap v fuel h needed = some (true, h') ∧ Shows h' s' ∧
      h'.expandCalls = h.expandCalls + 1 ∧ Keeps s.blocks h.mem h'.mem := by
  obtain ⟨sane, avoids⟩ := placed
  obtain ⟨a, answer, some_pages, rfl⟩ := expandHeap_cases grown
  have aligned := v.pageAligned _ _ _ answer
  have fits := v.noWrap _ _ _ answer
  have apart := avoids _ _ _ (List.Subset.refl _) answer
  unfold expandHeap
  dsimp only
  rw [shows.regions, answer]
  dsimp only
  generalize pagesFor needed = pages at *
  have length : wrapSub (pages * 4096) headerSize = pages * 4096 - headerSize := by
    simp only [wrapSub, wrap, headerSize]
    omega
  have clear : ∀ c ∈ s.blocks, Clear a c.addr := by
    intro c hc
    have := apart c hc
    simp only [Block.limit, Clear, headerSize] at this ⊢
    omega
  set m := newBlock h.mem a (wrapSub (pages * 4096) headerSize) with m_eq
  have holds : { h with mem := m }.Holds s.blocks :=
    shows.holds.congr rfl fun c hc => header_newBlock_clear h.mem (clear c hc)
  have fresh : header m a = ⟨heapMagic, pages * 4096 - headerSize, 1, 0, 0⟩ := by
    rw [m_eq, length]
    exact header_newBlock h.mem a (by omega)
  -- the walk to the end of the list
  obtain ⟨pre, b, split⟩ : ∃ pre b, s.blocks = pre ++ [b] :=
    ⟨_, _, (List.dropLast_append_getLast shows.nonempty).symm⟩
  obtain ⟨first, rest, list⟩ := List.exists_cons_of_ne_nil shows.nonempty
  have last : (first :: rest).getLast (List.cons_ne_nil _ _) = b := by
    simp only [← list, split, List.getLast_append, List.getLast_singleton]
    simp
  have walked : lastBlock m fuel h.start = some b.addr := by
    rw [shows.holds.start_eq, list]
    rw [list] at holds enough
    rw [← last]
    exact lastBlock_eq (h := { h with mem := m }) [] holds
      (by simp only [List.length_cons] at enough; omega)
  rw [walked]
  refine ⟨_, rfl, ⟨?_, ?_, ?_, shows.used, ?_⟩, rfl, ?_⟩
  · rw [split] at holds sane clear ⊢
    have linked := append_holds holds sane clear aligned.2 (by omega) fresh
    exact linked.congr rfl fun _ _ => rfl
  · simp
  · show wrap (h.total + pages * 4096) = wrap (s.total + pages * 4096)
    rw [shows.total]
  · rfl
  · intro c hc _ k lower upper
    have member := mem_of_split split
    have outside : k < a ∨ a + headerSize ≤ k := by
      have := apart c hc
      simp only [Block.limit, Block.payload, headerSize] at this lower upper ⊢
      omega
    show setField (setField m b.addr .next a) a .prev b.addr k = h.mem k
    rw [setField_outside _ _ _ outside,
      setField_outside _ _ _ (sane.payload_outside hc member lower upper), m_eq,
      newBlock_outside _ outside]

/-! ## Allocation -/

theorem walk_stable (size : ℕ) (m : Bytes) (current : ℕ) :
    Stable fun fuel => walk size m fuel current := by
  refine Stable.loop (f := fun fuel c => walk size m fuel c) (fun _ => rfl) (fun c => ?_) current
  by_cases ended : c = 0
  · exact .inl ⟨_, fun fuel => by rw [walk, if_pos ended]⟩
  by_cases corrupt : (header m c).magic ≠ heapMagic
  · exact .inl ⟨_, fun fuel => by rw [walk, if_neg ended, if_pos corrupt]⟩
  by_cases fits : (header m c).free ≠ 0 ∧ size ≤ (header m c).size
  · exact .inl ⟨_, fun fuel => by rw [walk, if_neg ended, if_neg corrupt, if_pos fits]⟩
  · exact .inr ⟨(header m c).next, fun fuel => by
      rw [walk, if_neg ended, if_neg corrupt, if_neg fits]⟩

theorem lastBlock_stable (m : Bytes) (current : ℕ) :
    Stable fun fuel => lastBlock m fuel current := by
  refine Stable.loop (f := fun fuel c => lastBlock m fuel c) (fun _ => rfl) (fun c => ?_) current
  by_cases more : (header m c).next ≠ 0
  · exact .inr ⟨(header m c).next, fun fuel => by rw [lastBlock, if_pos more]⟩
  · exact .inl ⟨c, fun fuel => by rw [lastBlock, if_neg more]⟩

theorem expandHeap_stable (v : Vmm) (h : Image) (needed : ℕ) :
    Stable fun fuel => expandHeap v fuel h needed := by
  intro fuel x done
  unfold expandHeap at done ⊢
  dsimp only at done ⊢
  cases answer : v.alloc h.regions (pagesFor needed) with
  | none =>
    rw [answer] at done
    exact done
  | some new =>
    simp only [answer] at done ⊢
    generalize newBlock h.mem new (wrapSub (pagesFor needed * 4096) headerSize) = m at done ⊢
    cases last : lastBlock m fuel h.start with
    | none => simp [last] at done
    | some current =>
      have still : lastBlock m (fuel + 1) h.start = some current := lastBlock_stable _ _ _ _ last
      rw [last] at done
      rw [still]
      exact done

theorem malloc_stable (v : Vmm) (h : Image) (size : ℕ) :
    Stable fun fuel => malloc v fuel h size := by
  intro fuel x done
  dsimp only at done ⊢
  induction fuel generalizing h size with
  | zero => simp [malloc] at done
  | succ fuel ih =>
    rw [malloc] at done ⊢
    split_ifs at done ⊢ with empty
    · exact done
    cases found : walk (alignUp size) h.mem (fuel + 1) h.start with
    | none => simp [found] at done
    | some outcome =>
      have still : walk (alignUp size) h.mem (fuel + 1 + 1) h.start = some outcome :=
        walk_stable _ _ _ _ _ found
      rw [found] at done
      rw [still]
      cases outcome with
      | corrupt => exact done
      | found current => exact done
      | exhausted =>
        cases grown : expandHeap v (fuel + 1) h (alignUp size) with
        | none => simp [grown] at done
        | some result =>
          have again : expandHeap v (fuel + 1 + 1) h (alignUp size) = some result :=
            expandHeap_stable v h (alignUp size) _ _ grown
          rw [grown] at done
          rw [again]
          obtain ⟨success, larger⟩ := result
          cases success with
          | false => exact done
          | true => exact ih larger (alignUp size) done

end Image

theorem Keeps.trans {m₁ m₂ m₃ : Bytes} {blocks' : List Block} (first : Keeps blocks m₁ m₂)
    (second : Keeps blocks' m₂ m₃) (live : ∀ b ∈ blocks, b.free = false → b ∈ blocks') :
    Keeps blocks m₁ m₃ := by
  intro b hb used k low high
  exact (second b (live b hb used) used k low high).trans (first b hb used k low high)

theorem Keeps.refl (blocks : List Block) (m : Bytes) : Keeps blocks m m :=
  fun _ _ _ _ _ _ => rfl

theorem Placed.take (placed : Placed v s) (split : s.blocks = pre ++ b :: post)
    (fits : size ≤ b.size) (used : ℕ) :
    Placed v { s with
      blocks := pre ++ ((carve size b).1 :: (carve size b).2 ++ post)
      used := used } := by
  obtain ⟨sane, avoids⟩ := placed
  rw [split] at sane
  refine ⟨sane.take fits, fun rs n a old answer c hc => ?_⟩
  obtain ⟨inside, -⟩ := carve_parts fits (sane.low b (by simp)) (sane.high b (by simp))
  rcases List.mem_append.mp hc with hc | hc
  · exact avoids rs n a old answer c (by rw [split]; simp [hc])
  rcases List.mem_append.mp hc with hc | hc
  · have within := extent_subset_iff.mp (inside c hc)
    rcases avoids rs n a old answer b (mem_of_split split) with before | behind
    · exact .inl (before.trans within.1)
    · exact .inr (within.2.trans behind)
  · exact avoids rs n a old answer c (by rw [split]; simp [hc])

namespace Image

theorem walk_total (size : ℕ) (shows : Shows h s) (sane : Sane s.blocks)
    (enough : s.blocks.length < fuel) :
    walk size h.mem fuel h.start =
      some (((fitting size s.blocks).map fun b => Walk.found b.addr).getD .exhausted) := by
  rw [shows.holds.start_eq]
  exact walk_eq [] size shows.holds sane.magic enough

theorem walk_ends (shows : Shows h s) (sane : Sane s.blocks) {outcome : Walk}
    (ends : walk size h.mem fuel h.start = some outcome) :
    outcome = ((fitting size s.blocks).map fun b => Walk.found b.addr).getD .exhausted := by
  have whole := walk_total size shows sane (Nat.lt_succ_self _)
  have first := (walk_stable size h.mem h.start).converges ends
  have second := (walk_stable size h.mem h.start).converges whole
  exact first.unique second

theorem carve_addr (size : ℕ) (b : Block) : (carve size b).1.addr = b.addr := by
  unfold carve
  split_ifs <;> rfl

theorem take_shows (shows : Shows h s) (placed : Placed v s) (split : s.blocks = pre ++ b :: post)
    (free : b.free = true) (fits : size ≤ b.size) :
    Shows { h with
        mem := takeBlock size h.mem b.addr
        used := wrap (h.used + ((header (takeBlock size h.mem b.addr) b.addr).size + headerSize)) }
      { s with
        blocks := pre ++ ((carve size b).1 :: (carve size b).2 ++ post)
        used := wrap (s.used + ((carve size b).1.size + headerSize)) } ∧
      Keeps s.blocks h.mem (takeBlock size h.mem b.addr) := by
  have holds := shows.holds
  have sane := placed.sane
  rw [split] at holds sane
  have taken := takeBlock_holds holds sane fits
  have length := (taken.fields (b := (carve size b).1) (by simp)).2.1
  rw [carve_addr] at length
  constructor
  · refine ⟨taken.congr rfl fun _ _ => rfl, by simp, shows.total, ?_, shows.regions⟩
    rw [length, shows.used]
  · rw [split]
    exact takeBlock_keeps holds sane free fits

/-- `malloc` in memory does what `malloc` does on the list. -/
theorem malloc_sim {r : Option ℕ} (shows : Shows h s) (placed : Placed v s)
    (done : malloc v fuel h size = some (r, h')) :
    ∃ s', Heap.malloc v fuel s size = some (r, s') ∧ Shows h' s' ∧ Placed v s' ∧
      Keeps s.blocks h.mem h'.mem := by
  induction fuel generalizing h s size with
  | zero => simp [malloc] at done
  | succ fuel ih =>
    rw [malloc] at done
    rw [Heap.malloc]
    split_ifs at done ⊢ with empty
    · cases done
      exact ⟨s, rfl, shows, placed, .refl _ _⟩
    cases walked : walk (alignUp size) h.mem (fuel + 1) h.start with
    | none => simp [walked] at done
    | some outcome =>
      rw [walked] at done
      have outcome_eq := walk_ends shows placed.sane walked
      cases fit : fitting (alignUp size) s.blocks with
      | some b =>
        rw [fit] at outcome_eq
        obtain rfl : outcome = .found b.addr := outcome_eq
        obtain ⟨pre, post, split, free, fits, taken⟩ := scan_of_fitting placed.sane.magic fit
        obtain ⟨shown, kept⟩ := take_shows shows placed split free fits
        cases done
        rw [taken]
        refine ⟨_, ?_, shown, placed.take split fits _, kept⟩
        have pointer : wrap (b.addr + headerSize) = (carve (alignUp size) b).1.payload := by
          rw [Block.payload, carve_addr]
          exact wrap_of_lt (placed.sane.room b (mem_of_split split))
        rw [pointer]
      | none =>
        rw [fit] at outcome_eq
        obtain rfl : outcome = .exhausted := outcome_eq
        rw [scan_of_fitting_none placed.sane.magic fit]
        cases grown : Heap.expandHeap v s (alignUp size) with
        | none =>
          rw [expandHeap_fails shows grown] at done
          cases done
          refine ⟨s, rfl, ?_, placed, .refl _ _⟩
          exact ⟨shows.holds.congr rfl fun _ _ => rfl, shows.nonempty, shows.total, shows.used,
            shows.regions⟩
        | some larger =>
          cases expansion : expandHeap v (fuel + 1) h (alignUp size) with
          | none => simp [expansion] at done
          | some result =>
            rw [expansion] at done
            have enough : s.blocks.length ≤ max (fuel + 1) s.blocks.length := le_max_right _ _
            obtain ⟨h₁, expands, shown, -, kept⟩ := expandHeap_grows shows placed enough grown
            -- the expansion is the same however long the walk may take
            obtain rfl : result = (true, h₁) :=
              ((expandHeap_stable v h (alignUp size)).converges expansion).unique
                ((expandHeap_stable v h (alignUp size)).converges expands)
            obtain ⟨s', ends, shown', placed', kept'⟩ :=
              ih shown (expandHeap_placed placed grown) done
            refine ⟨s', ends, shown', placed', kept.trans kept' fun b hb _ => ?_⟩
            obtain ⟨a, -, -, rfl⟩ := expandHeap_cases grown
            exact List.mem_append_left _ hb

end Image

end Thuban.Heap

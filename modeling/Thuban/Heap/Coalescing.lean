import Thuban.Heap.Refinement

/-!
# Releasing a block in memory

Both halves of `coalesce` do the same thing to two neighbours of the list: the first takes over the
room of the second, which is unlinked and keeps its header as it was (`absorb`).  Here only the
headers have to be apart; the blocks may overlap once neighbours from two regions have been joined.
-/

namespace Thuban.Heap

open Lib

variable {h h' : Image} {s s' : State} {pre post blocks : List Block} {b c n : Block} {v : Vmm}
  {m m' : Bytes} {a size fuel : ℕ}

/-- The headers of the list do not overlap. -/
structure Spaced (blocks : List Block) : Prop where
  clear : blocks.Pairwise fun b c => Clear b.addr c.addr
  small : ∀ b ∈ blocks, b.addr < 2 ^ 64

theorem Sane.spaced (sane : Sane blocks) : Spaced blocks where
  clear := sane.apart.imp fun apart => clear_of_disjoint apart
  small := fun _ hb => sane.addr_lt hb

theorem Spaced.congr {blocks' : List Block} (spaced : Spaced blocks)
    (same : (blocks'.map Block.addr).Sublist (blocks.map Block.addr)) : Spaced blocks' := by
  have clear : (blocks.map Block.addr).Pairwise Clear := List.pairwise_map.mpr spaced.clear
  refine ⟨List.pairwise_map.mp (clear.sublist same), fun b hb => ?_⟩
  obtain ⟨c, hc, equal⟩ := List.mem_map.mp (same.subset (List.mem_map_of_mem hb))
  rw [← equal]
  exact spaced.small c hc

theorem Spaced.others (spaced : Spaced (pre ++ b :: post)) :
    ∀ c ∈ pre ++ post, Clear b.addr c.addr := by
  have clear := spaced.clear
  rw [List.pairwise_append, List.pairwise_cons] at clear
  intro c hc
  rcases List.mem_append.mp hc with hc | hc
  · exact (clear.2.2 c hc b (by simp)).symm
  · exact clear.2.1.1 c hc

namespace Image

/-! ## Two neighbours -/

/-- The block at `x` takes over its successor at `y`. -/
def absorb (m : Bytes) (x y : ℕ) : Bytes :=
  let grown := setField m x .size (wrap ((header m x).size + (headerSize + (header m y).size)))
  let linked := setField grown x .next (header m y).next
  if (header m y).next ≠ 0 then setField linked (header m y).next .prev x else linked

section Absorb

variable {x y : ℕ}

theorem next_mod (m : Bytes) (a : ℕ) : (header m a).next % 2 ^ 64 = (header m a).next :=
  Nat.mod_eq_of_lt (Bytes.le64_lt _ _)

theorem absorbNext_eq (clear : Clear x y) (link : (header m x).next = y) (cell : y ≠ 0) :
    absorbNext m x = if (header m y).free ≠ 0 then absorb m x y else m := by
  unfold absorbNext absorb
  simp only [link, cell, ne_eq, not_false_eq_true, true_and, header_setField, Header.set,
    header_setField_clear _ _ _ clear, next_mod]

theorem absorbIntoPrev_eq (clear : Clear x y) (link : (header m y).prev = x) (cell : x ≠ 0) :
    absorbIntoPrev m y = if (header m x).free ≠ 0 then absorb m x y else m := by
  unfold absorbIntoPrev absorb
  simp [link, cell, header_setField_clear, clear]

theorem absorb_headers {z : ℕ} (link : (header m y).next = z) (far : z ≠ 0 → Clear z x)
    (small : x < 2 ^ 64) :
    header (absorb m x y) x = { header m x with
        size := wrap ((header m x).size + (headerSize + (header m y).size)), next := z } ∧
      (z ≠ 0 → header (absorb m x y) z = { header m z with prev := x }) ∧
      ∀ a, Clear x a → (z ≠ 0 → Clear z a) → header (absorb m x y) a = header m a := by
  have bound : z % 2 ^ 64 = z := by
    rw [← link]
    exact next_mod m y
  have small := Nat.mod_eq_of_lt small
  have size (n : ℕ) : wrap n % 2 ^ 64 = wrap n := Nat.mod_mod _ _
  unfold absorb
  rw [link]
  by_cases last : z = 0
  · subst last
    simp only [ne_eq, not_true_eq_false, if_false, false_implies, true_and]
    refine ⟨?_, fun a first _ => ?_⟩
    · simp only [header_setField, Header.set, size, bound]
    · simp only [header_setField_clear, first]
  · have far := far last
    have far' := far.symm
    simp only [ne_eq, last, not_false_eq_true, if_true, true_implies]
    refine ⟨?_, ?_, fun a first second => ?_⟩
    · simp only [header_setField, header_setField_clear, far, Header.set, size, bound]
    · simp only [header_setField, header_setField_clear, far', Header.set, small]
    · simp only [header_setField_clear, first, second]

theorem absorb_outside {z k : ℕ} (link : (header m y).next = z)
    (first : k < x ∨ x + headerSize ≤ k) (second : z ≠ 0 → k < z ∨ z + headerSize ≤ k) :
    absorb m x y k = m k := by
  unfold absorb
  rw [link]
  split_ifs with more
  · rw [setField_outside _ _ _ (second more), setField_outside _ _ _ first,
      setField_outside _ _ _ first]
  · rw [setField_outside _ _ _ first, setField_outside _ _ _ first]

end Absorb

section Join

variable (holds : h.Holds (pre ++ b :: n :: post))

include holds

theorem second_links : (header h.mem n.addr).next = (post.head?.map Block.addr).getD 0 ∧
    (header h.mem n.addr).prev = b.addr := by
  have shift : pre ++ b :: n :: post = (pre ++ [b]) ++ n :: post := by simp
  rw [shift] at holds
  obtain ⟨next, prev⟩ := holds.links
  refine ⟨next, prev.trans ?_⟩
  simp

variable (spaced : Spaced (pre ++ b :: n :: post))

include spaced

theorem join_headers :
    header (absorb h.mem b.addr n.addr) b.addr = { header h.mem b.addr with
        size := wrap (b.size + (headerSize + n.size))
        next := (post.head?.map Block.addr).getD 0 } ∧
      (∀ c ∈ post.head?,
        header (absorb h.mem b.addr n.addr) c.addr = { header h.mem c.addr with prev := b.addr }) ∧
      ∀ a, Clear b.addr a → (∀ c ∈ post.head?, Clear c.addr a) →
        header (absorb h.mem b.addr n.addr) a = header h.mem a := by
  have link := (second_links holds).1
  have length := (holds.fields (b := b) (by simp)).2.1
  have length' := (holds.fields (b := n) (by simp)).2.1
  have others := spaced.others
  have far : (post.head?.map Block.addr).getD 0 ≠ 0 →
      Clear ((post.head?.map Block.addr).getD 0) b.addr :=
    head_addr (P := (Clear · b.addr)) fun c hc =>
      (others c (by simp [List.mem_of_mem_head? hc])).symm
  obtain ⟨grown, next, same⟩ := absorb_headers link far (spaced.small b (by simp))
  rw [length, length'] at grown
  exact ⟨grown, holds.first_prev (fun c hc => by simp [hc]) next, fun a first second =>
    same a first (head_addr (P := (Clear · a)) second)⟩

/-- Joining two neighbours in memory joins them in the list. -/
theorem absorb_holds :
    { h with mem := absorb h.mem b.addr n.addr }.Holds
      (pre ++ { b with size := wrap (b.size + (headerSize + n.size)) } :: post) := by
  obtain ⟨grown, head, same⟩ := join_headers holds spaced
  have others := spaced.others
  have clear := spaced.clear
  rw [List.pairwise_append, List.pairwise_cons, List.pairwise_cons] at clear
  have spliced : Spliced h.mem (absorb h.mem b.addr n.addr) pre post b.addr := by
    refine ⟨fun c hc => ?_, head, fun c hc => ?_⟩
    · refine same c.addr (others c (by simp [hc])) fun d hd => ?_
      exact (clear.2.2 c hc d (by simp [List.mem_of_mem_head? hd])).symm
    · refine same c.addr (others c (by simp [List.mem_of_mem_tail hc])) fun d hd => ?_
      cases post with
      | nil => cases hd
      | cons e rest =>
        obtain rfl : e = d := Option.some.inj hd
        exact List.rel_of_pairwise_cons clear.2.1.2.2 hc
  constructor
  · have linked := holds.linked
    simp only [List.map_append, List.map_cons] at linked ⊢
    refine linked.unlink spliced.around ?_
    simp [grown, (second_links holds).1]
  · intro c hc
    simp only [List.mem_append, List.mem_cons] at hc
    rcases hc with hc | rfl | hc
    · exact spliced.shown holds (by simp [hc]) (by simp [hc])
    · obtain ⟨magic, -, free⟩ := holds.fields (b := b) (by simp)
      rw [blockAt_eq_iff]
      rw [grown]
      exact ⟨magic, rfl, free⟩
    · exact spliced.shown holds (by simp [hc]) (by simp [hc])

end Join

/-! ## What a release leaves alone -/

/-- Only headers of the list change, and in them neither the magic number nor the flag. -/
structure Tame (blocks : List Block) (m m' : Bytes) : Prop where
  outside : ∀ k, (∀ c ∈ blocks, k < c.addr ∨ c.addr + headerSize ≤ k) → m' k = m k
  flags : ∀ c ∈ blocks, (header m' c.addr).magic = (header m c.addr).magic ∧
    (header m' c.addr).free = (header m c.addr).free

theorem Tame.refl (blocks : List Block) (m : Bytes) : Tame blocks m m :=
  ⟨fun _ _ => rfl, fun _ _ => ⟨rfl, rfl⟩⟩

theorem Tame.trans {m₁ m₂ m₃ : Bytes} (first : Tame blocks m₁ m₂) (second : Tame blocks m₂ m₃) :
    Tame blocks m₁ m₃ where
  outside := fun k far => (second.outside k far).trans (first.outside k far)
  flags := fun c hc =>
    ⟨(second.flags c hc).1.trans (first.flags c hc).1,
      (second.flags c hc).2.trans (first.flags c hc).2⟩

theorem Tame.header_eq (tame : Tame blocks m m') (clear : ∀ c ∈ blocks, Clear c.addr a) :
    header m' a = header m a := by
  apply header_congr
  intro j hj
  apply tame.outside
  intro c hc
  have := clear c hc
  unfold Clear at this
  omega

theorem Tame.mono {blocks' : List Block} (tame : Tame blocks' m m')
    (sub : (blocks'.map Block.addr).Sublist (blocks.map Block.addr)) (spaced : Spaced blocks) :
    Tame blocks m m' := by
  constructor
  · intro k far
    apply tame.outside
    intro c hc
    obtain ⟨d, hd, equal⟩ := List.mem_map.mp (sub.subset (List.mem_map_of_mem hc))
    rw [← equal]
    exact far d hd
  · intro c hc
    by_cases listed : c.addr ∈ blocks'.map Block.addr
    · obtain ⟨d, hd, equal⟩ := List.mem_map.mp listed
      rw [← equal]
      exact tame.flags d hd
    · have same : header m' c.addr = header m c.addr := by
        apply tame.header_eq
        intro d hd
        obtain ⟨e, he, equal⟩ := List.mem_map.mp (sub.subset (List.mem_map_of_mem hd))
        rw [← equal]
        have different : e ≠ c := by
          rintro rfl
          exact listed (equal ▸ List.mem_map_of_mem hd)
        have symm : Std.Symm fun b c : Block => Clear b.addr c.addr := ⟨fun _ _ h => h.symm⟩
        exact List.Pairwise.forall spaced.clear he hc different
      rw [same]
      exact ⟨rfl, rfl⟩

theorem absorb_tame (holds : h.Holds (pre ++ b :: n :: post))
    (spaced : Spaced (pre ++ b :: n :: post)) :
    Tame (pre ++ b :: n :: post) h.mem (absorb h.mem b.addr n.addr) := by
  obtain ⟨grown, head, same⟩ := join_headers holds spaced
  constructor
  · intro k far
    apply absorb_outside (second_links holds).1 (far b (by simp))
    apply head_addr (P := fun x => k < x ∨ x + headerSize ≤ k)
    exact fun c hc => far c (by simp [List.mem_of_mem_head? hc])
  · intro c hc
    by_cases here : c = b
    · rw [here, grown]
      exact ⟨rfl, rfl⟩
    by_cases next : c ∈ post.head?
    · rw [head c next]
      exact ⟨rfl, rfl⟩
    · have symm : Std.Symm fun b c : Block => Clear b.addr c.addr := ⟨fun _ _ h => h.symm⟩
      have apart {d : Block} (hd : d ∈ pre ++ b :: n :: post) (different : d ≠ c) :
          Clear d.addr c.addr := List.Pairwise.forall spaced.clear hd hc different
      have unchanged := same c.addr (apart (by simp) (Ne.symm here)) fun d hd => by
        apply apart (by simp [List.mem_of_mem_head? hd])
        rintro rfl
        exact next hd
      rw [unchanged]
      exact ⟨rfl, rfl⟩

/-! ## The two halves -/

theorem absorbNext_none (last : (header m a).next = 0) : absorbNext m a = m := by
  simp [absorbNext, last]

theorem absorbIntoPrev_none (first : (header m a).prev = 0) : absorbIntoPrev m a = m := by
  simp [absorbIntoPrev, first]

theorem absorbNext_cons (holds : h.Holds (pre ++ b :: n :: post))
    (spaced : Spaced (pre ++ b :: n :: post)) :
    absorbNext h.mem b.addr = if n.free = true then absorb h.mem b.addr n.addr else h.mem := by
  have link : (header h.mem b.addr).next = n.addr := holds.links.1
  have clear := spaced.others n (by simp)
  have free := (holds.fields (b := n) (by simp)).2.2
  rw [absorbNext_eq clear link (holds.addr_ne_zero (by simp))]
  simp only [free]

theorem absorbIntoPrev_cons (holds : h.Holds (pre ++ b :: n :: post))
    (spaced : Spaced (pre ++ b :: n :: post)) :
    absorbIntoPrev h.mem n.addr =
      if b.free = true then absorb h.mem b.addr n.addr else h.mem := by
  have link := (second_links holds).2
  have clear := spaced.others n (by simp)
  have free := (holds.fields (b := b) (by simp)).2.2
  rw [absorbIntoPrev_eq clear link (holds.addr_ne_zero (by simp))]
  simp only [free]

theorem absorbNext_holds (holds : h.Holds (pre ++ b :: post)) (spaced : Spaced (pre ++ b :: post)) :
    { h with mem := absorbNext h.mem b.addr }.Holds
        (pre ++ (mergeNext b post).1 :: (mergeNext b post).2.1) ∧
      Tame (pre ++ b :: post) h.mem (absorbNext h.mem b.addr) := by
  cases post with
  | nil =>
    rw [absorbNext_none holds.links.1]
    exact ⟨holds, .refl _ _⟩
  | cons n rest =>
    rw [absorbNext_cons holds spaced, mergeNext]
    split_ifs with joined
    · exact ⟨absorb_holds holds spaced, absorb_tame holds spaced⟩
    · exact ⟨holds, .refl _ _⟩

theorem absorbIntoPrev_holds (holds : h.Holds (pre ++ b :: post))
    (spaced : Spaced (pre ++ b :: post)) :
    { h with mem := absorbIntoPrev h.mem b.addr }.Holds ((mergePrev pre b).1 ++ post) ∧
      Tame (pre ++ b :: post) h.mem (absorbIntoPrev h.mem b.addr) := by
  rcases pre.eq_nil_or_concat' with rfl | ⟨init, p, rfl⟩
  · rw [absorbIntoPrev_none holds.links.2]
    exact ⟨holds, .refl _ _⟩
  · have shift : init ++ [p] ++ b :: post = init ++ p :: b :: post := by simp
    rw [shift] at holds spaced ⊢
    rw [mergePrev, List.getLast?_concat, List.dropLast_concat, absorbIntoPrev_cons holds spaced]
    dsimp only
    split_ifs with joined
    · rw [List.append_assoc]
      exact ⟨absorb_holds holds spaced, absorb_tame holds spaced⟩
    · rw [List.append_assoc, List.append_assoc]
      exact ⟨holds, .refl _ _⟩

theorem mergeNext_sublist (b : Block) (pre post : List Block) :
    ((pre ++ (mergeNext b post).1 :: (mergeNext b post).2.1).map Block.addr).Sublist
      ((pre ++ b :: post).map Block.addr) := by
  cases post with
  | nil => exact List.Sublist.refl _
  | cons n rest =>
    rw [mergeNext]
    split_ifs
    · simp only [List.map_append, List.map_cons]
      exact (List.Sublist.refl _).append (((List.sublist_cons_self _ _)).cons_cons _)
    · exact List.Sublist.refl _

theorem coalesce_holds (holds : h.Holds (pre ++ b :: post)) (spaced : Spaced (pre ++ b :: post)) :
    { h with mem := coalesce h.mem b.addr }.Holds
        ((mergePrev pre (mergeNext b post).1).1 ++ (mergeNext b post).2.1) ∧
      Tame (pre ++ b :: post) h.mem (coalesce h.mem b.addr) := by
  obtain ⟨first, tame⟩ := absorbNext_holds holds spaced
  have sub := mergeNext_sublist b pre post
  have spaced' := spaced.congr sub
  obtain ⟨second, tame'⟩ := absorbIntoPrev_holds first spaced'
  replace tame' := tame'.mono sub spaced
  rw [mergeNext_addr b post] at second tame'
  exact ⟨second, tame.trans tame'⟩

end Image

end Thuban.Heap

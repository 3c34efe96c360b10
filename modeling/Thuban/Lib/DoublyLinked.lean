import Mathlib

/-!
# Doubly linked lists

Cells are linked by two functions, `next` and `prev`, and `null` ends the list.  `Seg` describes a
segment by the cells it visits; `Linked` is a whole list.  The two rules at the end are what a
program that keeps such a list needs: a cell is put in behind another (`Linked.insert`) or taken
out from behind another (`Linked.unlink`), and everything else stays as it is.
-/

namespace Thuban.Lib

variable {ι : Type*}

/-- From the cell `c`, whose predecessor is `p`, the links visit the cells `l`; then they stand at
`stop`, coming from `last`. -/
def Seg (next prev : ι → ι) (null : ι) : ι → ι → List ι → ι → ι → Prop
  | p, c, [], last, stop => last = p ∧ stop = c
  | p, c, a :: rest, last, stop =>
      c = a ∧ a ≠ null ∧ prev a = p ∧ Seg next prev null a (next a) rest last stop

/-- The links around a place where the list changes: the cells before it keep theirs, and of those
behind it only the first gets another back link, `r`. -/
structure Around (next prev next' prev' : ι → ι) (pre post : List ι) (r : ι) : Prop where
  before : ∀ a ∈ pre, next' a = next a ∧ prev' a = prev a
  first : ∀ a ∈ post.head?, prev' a = r
  forth : ∀ a ∈ post, next' a = next a
  back : ∀ a ∈ post.tail, prev' a = prev a

/-- The list that starts at `start` visits the cells `l`. -/
def Linked (next prev : ι → ι) (null start : ι) (l : List ι) : Prop :=
  ∃ last, Seg next prev null null start l last null

variable {next prev next' prev' : ι → ι} {null start p r c last stop b n : ι}
  {pre post l l₁ l₂ : List ι}

theorem seg_append : Seg next prev null p c (l₁ ++ l₂) last stop ↔
    ∃ q d, Seg next prev null p c l₁ q d ∧ Seg next prev null q d l₂ last stop := by
  induction l₁ generalizing p c with
  | nil => simp [Seg]
  | cons a rest ih =>
    rw [List.cons_append, Seg, ih]
    simp only [Seg]
    constructor
    · rintro ⟨here, cell, back, q, d, first, second⟩
      exact ⟨q, d, ⟨here, cell, back, first⟩, second⟩
    · rintro ⟨q, d, ⟨here, cell, back, first⟩, second⟩
      exact ⟨here, cell, back, q, d, first, second⟩

section

variable (seg : Seg next prev null p c l last stop)

include seg

theorem Seg.congr (forth : ∀ a ∈ l, next' a = next a) (back : ∀ a ∈ l, prev' a = prev a) :
    Seg next' prev' null p c l last stop := by
  induction l generalizing p c with
  | nil => exact seg
  | cons a rest ih =>
    obtain ⟨here, cell, before, later⟩ := seg
    refine ⟨here, cell, (back a (by simp)).trans before, ?_⟩
    rw [forth a (by simp)]
    exact ih later (fun x hx => forth x (by simp [hx])) fun x hx => back x (by simp [hx])

theorem Seg.relink (forth : ∀ a ∈ l, next' a = next a) (first : ∀ a ∈ l.head?, prev' a = r)
    (back : ∀ a ∈ l.tail, prev' a = prev a) : ∃ last', Seg next' prev' null r c l last' stop := by
  cases l with
  | nil => exact ⟨r, rfl, seg.2⟩
  | cons a rest =>
    obtain ⟨here, cell, -, later⟩ := seg
    refine ⟨last, here, cell, first a rfl, ?_⟩
    rw [forth a (by simp)]
    exact later.congr (fun x hx => forth x (by simp [hx])) back

theorem Seg.start_eq : c = l.head?.getD stop := by
  cases l with
  | nil => exact seg.2.symm
  | cons => exact seg.1

theorem Seg.last_eq : last = l.getLast?.getD p := by
  induction l generalizing p c with
  | nil => exact seg.1
  | cons a rest ih =>
    rw [ih seg.2.2.2, List.getLast?_cons]
    rfl

end

namespace Linked

theorem ne_null (linked : Linked next prev null start l) {a : ι} (member : a ∈ l) : a ≠ null := by
  obtain ⟨pre, post, rfl⟩ := List.append_of_mem member
  obtain ⟨_, seg⟩ := linked
  obtain ⟨_, _, _, later⟩ := seg_append.mp seg
  exact later.2.1

theorem start_eq (linked : Linked next prev null start l) : start = l.head?.getD null := by
  obtain ⟨_, seg⟩ := linked
  exact seg.start_eq

theorem neighbours (linked : Linked next prev null start (pre ++ b :: post)) :
    next b = post.head?.getD null ∧ prev b = pre.getLast?.getD null := by
  obtain ⟨_, seg⟩ := linked
  obtain ⟨q, d, first, -, -, back, later⟩ := seg_append.mp seg
  exact ⟨later.start_eq, back.trans first.last_eq⟩

theorem congr (linked : Linked next prev null start l) (forth : ∀ a ∈ l, next' a = next a)
    (back : ∀ a ∈ l, prev' a = prev a) : Linked next' prev' null start l := by
  obtain ⟨last, seg⟩ := linked
  exact ⟨last, seg.congr forth back⟩

theorem insert (linked : Linked next prev null start (pre ++ b :: post)) (cell : n ≠ null)
    (around : Around next prev next' prev' pre post n)
    (old : next' b = n ∧ prev' b = prev b) (new : next' n = next b ∧ prev' n = b) :
    Linked next' prev' null start (pre ++ b :: n :: post) := by
  obtain ⟨last, seg⟩ := linked
  obtain ⟨q, d, front, here, cell', behind, later⟩ := seg_append.mp seg
  obtain ⟨last', rest⟩ := later.relink around.forth around.first around.back
  refine ⟨last', seg_append.mpr ⟨q, d, ?_, here, cell', old.2.trans behind, old.1, cell, new.2, ?_⟩⟩
  · exact front.congr (fun a ha => (around.before a ha).1) fun a ha => (around.before a ha).2
  · rw [new.1]
    exact rest

theorem unlink (linked : Linked next prev null start (pre ++ b :: n :: post))
    (around : Around next prev next' prev' pre post b)
    (old : next' b = next n ∧ prev' b = prev b) :
    Linked next' prev' null start (pre ++ b :: post) := by
  obtain ⟨last, seg⟩ := linked
  obtain ⟨q, d, front, here, cell, behind, -, -, -, later⟩ := seg_append.mp seg
  obtain ⟨last', rest⟩ := later.relink around.forth around.first around.back
  refine ⟨last', seg_append.mpr ⟨q, d, ?_, here, cell, old.2.trans behind, ?_⟩⟩
  · exact front.congr (fun a ha => (around.before a ha).1) fun a ha => (around.before a ha).2
  · rw [old.1]
    exact rest

end Linked

end Thuban.Lib

import Mathlib

/-!
# Lists with pairwise disjoint extents

Each element of a list occupies a set of points and no point is occupied twice.  Splitting an
element into disjoint parts and joining neighbours into their union keep the list disjoint.
-/

namespace Thuban.Lib

variable {α X : Type*} (extent : α → Set X)

theorem mem_of_split {l pre post : List α} {b : α} (split : l = pre ++ b :: post) : b ∈ l := by
  rw [split]
  exact List.mem_append_cons_self

theorem forall_replaced {P : α → Prop} {l l' pre post : List α} (mid parts : List α)
    (before : l = pre ++ (mid ++ post)) (after : l' = pre ++ (parts ++ post))
    (old : ∀ a ∈ l, P a) (new : ∀ a ∈ parts, P a) : ∀ a ∈ l', P a := by
  intro a ha
  rw [after, List.mem_append, List.mem_append] at ha
  rcases ha with ha | ha | ha
  · exact old a (by simp [before, ha])
  · exact new a ha
  · exact old a (by simp [before, ha])

theorem forall_concat {P : α → Prop} {l : List α} {b : α} (old : ∀ a ∈ l, P a) (new : P b) :
    ∀ a ∈ l ++ [b], P a :=
  List.forall_mem_append.mpr ⟨old, List.forall_mem_singleton.mpr new⟩

/-- No point belongs to two elements of the list. -/
def Apart (l : List α) : Prop := l.Pairwise fun a b => Disjoint (extent a) (extent b)

namespace Apart

variable {extent}

variable {l : List α} {a b : α}

theorem disjoint_of_ne (h : Apart extent l) (ha : a ∈ l) (hb : b ∈ l) (different : a ≠ b) :
    Disjoint (extent a) (extent b) := by
  exact List.Pairwise.forall h ha hb different

theorem eq_of_mem (h : Apart extent l) (ha : a ∈ l) (hb : b ∈ l) {x : X} (hxa : x ∈ extent a)
    (hxb : x ∈ extent b) : a = b := by
  by_contra different
  exact Set.disjoint_left.mp (h.disjoint_of_ne ha hb different) hxa hxb

theorem split {pre post parts : List α} {b : α} (h : Apart extent (pre ++ b :: post))
    (inside : ∀ c ∈ parts, extent c ⊆ extent b) (apart : Apart extent parts) :
    Apart extent (pre ++ (parts ++ post)) := by
  unfold Apart at *
  rw [List.pairwise_append, List.pairwise_cons] at h
  obtain ⟨hpre, ⟨hb, hpost⟩, cross⟩ := h
  rw [List.pairwise_append, List.pairwise_append]
  refine ⟨hpre, ⟨apart, hpost, fun c hc d hd => ?_⟩, fun a ha d hd => ?_⟩
  · exact (hb d hd).mono_left (inside c hc)
  · rcases List.mem_append.mp hd with hd | hd
    · exact (cross a ha b (by simp)).mono_right (inside d hd)
    · exact cross a ha d (by simp [hd])

theorem join {pre post : List α} {c d : α} (h : Apart extent (pre ++ b :: c :: post))
    (inside : extent d ⊆ extent b ∪ extent c) : Apart extent (pre ++ d :: post) := by
  unfold Apart at *
  rw [List.pairwise_append, List.pairwise_cons, List.pairwise_cons] at h
  obtain ⟨hpre, ⟨hb, hc, hpost⟩, cross⟩ := h
  rw [List.pairwise_append, List.pairwise_cons]
  refine ⟨hpre, ⟨fun e he => ?_, hpost⟩, fun a ha e he => ?_⟩
  · exact Disjoint.mono_left inside (Disjoint.union_left (hb e (by simp [he])) (hc e he))
  · rcases List.mem_cons.mp he with rfl | he
    · exact Disjoint.mono_right inside
        (Disjoint.union_right (cross a ha b (by simp)) (cross a ha c (by simp)))
    · exact cross a ha e (by simp [he])

theorem append_fresh (h : Apart extent l) (outside : ∀ a ∈ l, Disjoint (extent a) (extent b)) :
    Apart extent (l ++ [b]) := by
  unfold Apart at *
  rw [List.pairwise_append]
  refine ⟨h, List.pairwise_singleton _ _, fun a ha c hc => ?_⟩
  rw [List.mem_singleton.mp hc]
  exact outside a ha

end Apart

end Thuban.Lib

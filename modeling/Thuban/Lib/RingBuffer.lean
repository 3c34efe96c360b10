import Mathlib

/-!
# Ring buffers

A queue in an array of `n` cells with an index of its first element and one behind its last.  One
cell stays free, so that equal indices mean an empty queue.
-/

namespace Thuban.Lib

structure RingBuffer (α : Type*) where
  cells : ℕ → α
  start : ℕ
  stop : ℕ

namespace RingBuffer

variable {α : Type*} {n : ℕ} {r : RingBuffer α}

/-- Both indices are indices of the array. -/
structure Within (n : ℕ) (r : RingBuffer α) : Prop where
  start : r.start < n
  stop : r.stop < n

def count (n : ℕ) (r : RingBuffer α) : ℕ := (r.stop + n - r.start) % n

/-- The elements, the oldest first. -/
def contents (n : ℕ) (r : RingBuffer α) : List α :=
  (List.range (r.count n)).map fun k => r.cells ((r.start + k) % n)

@[simp] theorem length_contents : (r.contents n).length = r.count n := by
  simp [contents]

theorem Within.count_eq (h : Within n r) :
    r.count n = if r.start ≤ r.stop then r.stop - r.start else r.stop + n - r.start := by
  obtain ⟨hs, ht⟩ := h
  unfold count
  split_ifs with le
  · rw [show r.stop + n - r.start = r.stop - r.start + n by omega, Nat.add_mod_right]
    exact Nat.mod_eq_of_lt (by omega)
  · exact Nat.mod_eq_of_lt (by omega)

theorem Within.count_lt (h : Within n r) : r.count n < n :=
  Nat.mod_lt _ (lt_of_le_of_lt (Nat.zero_le _) h.start)

theorem succ_mod {i : ℕ} (h : i < n) : (i + 1) % n = if i + 1 = n then 0 else i + 1 := by
  split_ifs with last
  · rw [last, Nat.mod_self]
  · exact Nat.mod_eq_of_lt (by omega)

theorem Within.contents_eq_nil (h : Within n r) : r.contents n = [] ↔ r.start = r.stop := by
  rw [← List.length_eq_zero_iff, length_contents, h.count_eq]
  have := h.start
  have := h.stop
  split_ifs <;> omega

theorem Within.full_iff (h : Within n r) : (r.stop + 1) % n = r.start ↔ r.count n + 1 = n := by
  have := h.start
  have := h.stop
  rw [succ_mod h.stop, h.count_eq]
  split_ifs <;> omega

/-- Store an element behind the last one. -/
def push (n : ℕ) (c : α) (r : RingBuffer α) : RingBuffer α :=
  { r with cells := Function.update r.cells r.stop c, stop := (r.stop + 1) % n }

def pop (n : ℕ) (r : RingBuffer α) : RingBuffer α := { r with start := (r.start + 1) % n }

section

variable (h : Within n r)

include h

theorem Within.push (c : α) : Within n (r.push n c) :=
  ⟨h.start, Nat.mod_lt _ (lt_of_le_of_lt (Nat.zero_le _) h.start)⟩

theorem Within.pop : Within n (r.pop n) :=
  ⟨Nat.mod_lt _ (lt_of_le_of_lt (Nat.zero_le _) h.start), h.stop⟩

theorem Within.count_push (c : α) (room : (r.stop + 1) % n ≠ r.start) :
    (r.push n c).count n = r.count n + 1 := by
  have hs := h.start
  have ht := h.stop
  rw [(h.push c).count_eq, h.count_eq]
  rw [succ_mod ht] at room
  simp only [RingBuffer.push, succ_mod ht]
  split_ifs at room ⊢ <;> omega

theorem Within.count_pop (more : r.start ≠ r.stop) : r.count n = (r.pop n).count n + 1 := by
  have hs := h.start
  have ht := h.stop
  rw [h.pop.count_eq, h.count_eq]
  simp only [RingBuffer.pop, succ_mod hs]
  split_ifs <;> omega

theorem Within.index_ne_stop {k : ℕ} (hk : k < r.count n) : (r.start + k) % n ≠ r.stop := by
  have ht := h.stop
  rw [h.count_eq] at hk
  by_cases wrap : r.start + k < n
  · rw [Nat.mod_eq_of_lt wrap]
    split_ifs at hk <;> omega
  · rw [Nat.mod_eq_sub_mod (by omega), Nat.mod_eq_of_lt (by split_ifs at hk <;> omega)]
    split_ifs at hk <;> omega

theorem Within.index_count : (r.start + r.count n) % n = r.stop := by
  have hs := h.start
  have ht := h.stop
  rw [h.count_eq]
  split_ifs with le
  · rw [Nat.add_sub_cancel' le, Nat.mod_eq_of_lt ht]
  · rw [show r.start + (r.stop + n - r.start) = r.stop + n by omega, Nat.add_mod_right,
      Nat.mod_eq_of_lt ht]

theorem Within.contents_push (c : α) (room : (r.stop + 1) % n ≠ r.start) :
    (r.push n c).contents n = r.contents n ++ [c] := by
  unfold contents
  rw [h.count_push c room, List.range_succ, List.map_append, List.map_singleton]
  congr 1
  · apply List.map_congr_left
    intro k hk
    exact Function.update_of_ne (h.index_ne_stop (List.mem_range.mp hk)) ..
  · show [Function.update r.cells r.stop c ((r.start + r.count n) % n)] = [c]
    rw [h.index_count, Function.update_self]

theorem Within.contents_pop (more : r.start ≠ r.stop) :
    r.contents n = r.cells r.start :: (r.pop n).contents n := by
  unfold contents
  rw [h.count_pop more, List.range_succ_eq_map, List.map_cons, List.map_map, Nat.add_zero,
    Nat.mod_eq_of_lt h.start]
  congr 1
  apply List.map_congr_left
  intro k _
  show r.cells ((r.start + (k + 1)) % n) = r.cells (((r.start + 1) % n + k) % n)
  rw [Nat.mod_add_mod, Nat.add_assoc, Nat.add_comm 1 k]

end

end RingBuffer

end Thuban.Lib

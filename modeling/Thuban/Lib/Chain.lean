import Mathlib

/-!
# Chains of a successor function

`Chain next node stop a l`: starting at `a` and following `next`, one visits exactly the list `l`,
every member of which satisfies `node`, and then leaves it at a point that satisfies `stop`.
When no `node` is a `stop`, the chain of a point is unique and repeats nothing.
-/

namespace Thuban.Lib

variable {α : Type*}

/-- The points met from `a` on, up to the one whose successor satisfies `stop`. -/
inductive Chain (next : α → α) (node stop : α → Prop) : α → List α → Prop
  | last {a : α} (good : node a) (ends : stop (next a)) : Chain next node stop a [a]
  | link {a : α} {l : List α} (good : node a) (rest : Chain next node stop (next a) l) :
      Chain next node stop a (a :: l)

namespace Chain

variable {next next' : α → α} {node stop : α → Prop} {a b c z : α} {l l₁ l₂ : List α}

section

variable (h : Chain next node stop a l)

include h

theorem node_of_mem (hc : c ∈ l) : node c := by
  induction h with
  | last good _ => rwa [List.mem_singleton.mp hc]
  | link good _ ih =>
    rcases List.mem_cons.mp hc with rfl | hc
    · exact good
    · exact ih hc

theorem exists_cons : ∃ t, l = a :: t := by
  cases h with
  | last => exact ⟨[], rfl⟩
  | link => exact ⟨_, rfl⟩

theorem node_head : node a := by
  cases h with
  | last good _ => exact good
  | link good _ => exact good

theorem stop_getLast : ∀ c ∈ l.getLast?, stop (next c) := by
  induction h with
  | last _ ends => simpa using ends
  | link _ rest ih =>
    obtain ⟨t, rfl⟩ := rest.exists_cons
    rwa [List.getLast?_cons_cons]

theorem length_pos : 0 < l.length := by
  obtain ⟨t, rfl⟩ := h.exists_cons
  exact Nat.succ_pos _

theorem getElem?_zero : l[0]? = some a := by
  obtain ⟨t, rfl⟩ := h.exists_cons
  rfl

end

theorem unique (apart : ∀ a, node a → ¬ stop a) (h₁ : Chain next node stop a l₁)
    (h₂ : Chain next node stop a l₂) : l₁ = l₂ := by
  induction h₁ generalizing l₂ with
  | last good ends =>
    cases h₂ with
    | last => rfl
    | link _ rest => exact absurd ends (apart _ rest.node_head)
  | link good rest ih =>
    cases h₂ with
    | last _ ends => exact absurd ends (apart _ rest.node_head)
    | link _ rest' => rw [ih rest']

theorem suffix (h : Chain next node stop a (l₁ ++ c :: l₂)) :
    Chain next node stop c (c :: l₂) := by
  induction l₁ generalizing a with
  | nil =>
    obtain ⟨t, ht⟩ := h.exists_cons
    obtain ⟨rfl, -⟩ := List.cons_eq_cons.mp ht
    exact h
  | cons b l₁ ih =>
    generalize whole : b :: l₁ ++ c :: l₂ = l at h
    cases h with
    | last => simp at whole
    | link _ rest =>
      obtain ⟨-, rfl⟩ := List.cons_eq_cons.mp whole
      exact ih rest

theorem nodup (apart : ∀ a, node a → ¬ stop a) (h : Chain next node stop a l) : l.Nodup := by
  induction h with
  | last => exact List.nodup_singleton _
  | @link a l good rest ih =>
    refine List.nodup_cons.mpr ⟨fun again => ?_, ih⟩
    -- A second visit of `a` would start a shorter chain of `a`.
    obtain ⟨l₁, l₂, rfl⟩ := List.append_of_mem again
    have whole : Chain next node stop a (a :: (l₁ ++ a :: l₂)) := .link good rest
    have tail : Chain next node stop a (a :: l₂) := rest.suffix
    have same := congrArg List.length (whole.unique apart tail)
    simp only [List.length_cons, List.length_append] at same
    omega

theorem congr (h : Chain next node stop a l) (agree : ∀ c ∈ l, next' c = next c) :
    Chain next' node stop a l := by
  induction h with
  | last good ends =>
    refine .last good ?_
    rwa [agree _ (List.mem_singleton_self _)]
  | link good rest ih =>
    refine .link good ?_
    rw [agree _ List.mem_cons_self]
    exact ih fun c hc => agree c (List.mem_cons_of_mem _ hc)

theorem getElem?_succ (h : Chain next node stop a l) {i : ℕ} (hi : l[i]? = some c) :
    l[i + 1]? = some (next c) ∨ (i + 1 = l.length ∧ stop (next c)) := by
  induction h generalizing i with
  | last good ends =>
    obtain ⟨rfl, rfl⟩ : i = 0 ∧ c = _ := by
      cases i with
      | zero => exact ⟨rfl, (Option.some.inj hi).symm⟩
      | succ i => simp at hi
    exact .inr ⟨rfl, ends⟩
  | link good rest ih =>
    cases i with
    | zero =>
      cases hi
      left
      rw [List.getElem?_cons_succ]
      exact rest.getElem?_zero
    | succ i =>
      rw [List.getElem?_cons_succ] at hi ⊢
      rcases ih hi with h | ⟨h, ends⟩
      · exact .inl h
      · exact .inr ⟨by rw [List.length_cons, h], ends⟩

theorem extend (h : Chain next node stop a l) (nodup : l.Nodup) (hz : l[l.length - 1]? = some z)
    (good : node b) (ends : stop (next' b)) (linked : next' z = b)
    (agree : ∀ c ∈ l, c ≠ z → next' c = next c) : Chain next' node stop a (l ++ [b]) := by
  have tail : Chain next' node stop b [b] := .last good ends
  induction h with
  | @last a good' _ =>
    obtain rfl : a = z := Option.some.inj hz
    refine .link good' ?_
    rwa [linked]
  | @link a l good' rest ih =>
    obtain ⟨fresh, nodup⟩ := List.nodup_cons.mp nodup
    have hz' : l[l.length - 1]? = some z := by
      have pos := rest.length_pos
      rw [List.length_cons, Nat.add_sub_cancel] at hz
      obtain ⟨n, hn⟩ : ∃ n, l.length = n + 1 := ⟨l.length - 1, by omega⟩
      rw [hn, List.getElem?_cons_succ] at hz
      rwa [hn, Nat.add_sub_cancel]
    have different : a ≠ z := by
      rintro rfl
      exact fresh (List.mem_of_getElem? hz')
    refine .link good' ?_
    rw [agree a List.mem_cons_self different]
    exact ih nodup hz' fun c hc => agree c (List.mem_cons_of_mem _ hc)

end Chain

end Thuban.Lib

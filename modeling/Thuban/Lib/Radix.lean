import Mathlib

/-!
# Radix trees in memory

Tables of `fan` words lie in a memory of words, table `t` at the words `t * fan` to
`t * fan + fan - 1`.  A word of an inner table may point to a further table (`decode`).

`role` names the place of each table in the tree by a key.  A page has one key at most, so the
tables at different places are different; a store into a table at the bottom changes what is looked
up under its key only (`lookup_store`), and a new, empty table changes nothing (`lookup_grow`).
-/

namespace Thuban.Lib.Radix

variable (fan : ℕ) (decode : ℕ → Option ℕ)

/-- The word at index `i` of table `t`. -/
def slot (t i : ℕ) : ℕ := t * fan + i

/-- Follow the indices `is` from table `t`. -/
def walk (mem : ℕ → ℕ) : List ℕ → ℕ → Option ℕ
  | [], t => some t
  | i :: is, t => (decode (mem (slot fan t i))).bind (walk mem is)

/-- The word at index `j` of the table that `is` leads to, 0 if there is none. -/
def lookup (mem : ℕ → ℕ) (root : ℕ) (is : List ℕ) (j : ℕ) : ℕ :=
  ((walk fan decode mem is root).map fun t => mem (slot fan t j)).getD 0

/-- Memory after `e` was stored at index `i` of table `t`. -/
def store (mem : ℕ → ℕ) (t i e : ℕ) : ℕ → ℕ := Function.update mem (slot fan t i) e

/-- Memory after table `u` was cleared. -/
def clear (mem : ℕ → ℕ) (u : ℕ) : ℕ → ℕ :=
  fun w => if u * fan ≤ w ∧ w < u * fan + fan then 0 else mem w

variable {κ : Type*} (child : κ → ℕ → κ) (inner : κ → Prop)

/-- The tables that inner tables point to have the keys of their places. -/
def Tree (mem : ℕ → ℕ) (role : ℕ → Option κ) : Prop :=
  ∀ t k, role t = some k → inner k → ∀ i < fan, ∀ u, decode (mem (slot fan t i)) = some u →
    role u = some (child k i)

/-- From a table with key `k` the indices `is` pass inner tables only. -/
def Descends : κ → List ℕ → Prop
  | _, [] => True
  | k, i :: is => inner k ∧ i < fan ∧ Descends (child k i) is

variable {fan decode child inner} {mem : ℕ → ℕ} {role : ℕ → Option κ} {t u i j e : ℕ} {k : κ}

theorem slot_inj (hi : i < fan) (hj : j < fan) (same : slot fan t i = slot fan u j) :
    t = u ∧ i = j := by
  have pos : 0 < fan := by omega
  have tables : t = u := by
    have := congrArg (· / fan) same
    simpa [slot, Nat.add_div_of_dvd_right, Nat.div_eq_of_lt hi, Nat.div_eq_of_lt hj,
      Nat.mul_div_cancel _ pos, Nat.mul_comm _ fan, Nat.mul_add_div pos] using this
  subst tables
  exact ⟨rfl, Nat.add_left_cancel same⟩

theorem clear_slot_self (hi : i < fan) : clear fan mem u (slot fan u i) = 0 :=
  if_pos ⟨Nat.le_add_right _ _, Nat.add_lt_add_left hi _⟩

theorem clear_slot_ne (hi : i < fan) (other : t ≠ u) :
    clear fan mem u (slot fan t i) = mem (slot fan t i) := by
  refine if_neg fun inside => other ?_
  obtain ⟨j, same⟩ := Nat.exists_eq_add_of_le inside.1
  have hj : j < fan := by omega
  exact (slot_inj hi hj same).1

theorem store_slot_self : store fan mem t i e (slot fan t i) = e := Function.update_self ..

theorem store_slot_ne {v : ℕ} (hi : i < fan) (hj : j < fan) (other : ¬ (v = t ∧ j = i)) :
    store fan mem t i e (slot fan v j) = mem (slot fan v j) :=
  Function.update_of_ne (fun same => other (slot_inj hj hi same)) ..

theorem Tree.walk_role (tree : Tree fan decode child inner mem role) {is : List ℕ}
    (start : role t = some k) (descends : Descends fan child inner k is)
    (ends : walk fan decode mem is t = some u) : role u = some (is.foldl child k) := by
  induction is generalizing t k with
  | nil =>
    cases ends
    exact start
  | cons i is ih =>
    obtain ⟨next, points, rest⟩ := Option.bind_eq_some_iff.mp ends
    exact ih (tree t k start descends.1 i descends.2.1 next points) descends.2.2 rest

/-! ## Stores into tables at the bottom -/

section Store

variable (tree : Tree fan decode child inner mem role) (place : role t = some k)
  (bottom : ¬ inner k) (hi : i < fan)

include tree place bottom hi

variable {root : ℕ} {l : κ} {is : List ℕ}

section

variable (start : role root = some l) (descends : Descends fan child inner l is)

include start descends

theorem Tree.walk_store :
    walk fan decode (Radix.store fan mem t i e) is root = walk fan decode mem is root := by
  induction is generalizing root l with
  | nil => rfl
  | cons j is ih =>
    have other : root ≠ t := by
      rintro rfl
      rw [place] at start
      exact bottom (Option.some.inj start ▸ descends.1)
    rw [walk, walk, store_slot_ne hi descends.2.1 fun same => other same.1]
    refine Option.bind_congr fun next points => ?_
    exact ih (tree root l start descends.1 j descends.2.1 next points) descends.2.2

theorem Tree.lookup_store (hj : j < fan) (other : is.foldl child l ≠ k ∨ j ≠ i) :
    lookup fan decode (Radix.store fan mem t i e) root is j = lookup fan decode mem root is j := by
  rw [lookup, lookup, tree.walk_store place bottom hi start descends]
  cases ends : walk fan decode mem is root with
  | none => rfl
  | some v =>
    have key := tree.walk_role start descends ends
    have apart : ¬ (v = t ∧ j = i) := by
      rintro ⟨rfl, rfl⟩
      rw [place] at key
      exact other.elim (· (Option.some.inj key).symm) fun ne => ne rfl
    exact store_slot_ne hi hj apart

theorem Tree.lookup_store_or (hj : j < fan) :
    lookup fan decode (Radix.store fan mem t i e) root is j = e ∨
      lookup fan decode (Radix.store fan mem t i e) root is j = lookup fan decode mem root is j := by
  rw [lookup, lookup, tree.walk_store place bottom hi start descends]
  cases ends : walk fan decode mem is root with
  | none => exact .inr rfl
  | some v =>
    by_cases same : v = t ∧ j = i
    · obtain ⟨rfl, rfl⟩ := same
      exact .inl store_slot_self
    · exact .inr (store_slot_ne hi hj same)

theorem Tree.lookup_store_self (ends : walk fan decode mem is root = some t) :
    lookup fan decode (Radix.store fan mem t i e) root is i = e := by
  rw [lookup, tree.walk_store place bottom hi start descends, ends]
  exact store_slot_self

end

end Store

/-! ## New tables -/

section Grow

/-- Memory after the cleared table `u` was entered at index `i` of table `t`. -/
def grow (fan : ℕ) (mem : ℕ → ℕ) (t i u e : ℕ) : ℕ → ℕ := store fan (clear fan mem u) t i e

variable (tree : Tree fan decode child inner mem role) (place : role t = some k)
  (hi : i < fan) (fresh : role u = none) (points : decode e = some u) (empty : decode 0 = none)

theorem grow_slot_new (fresh : role u = none) (place : role t = some k) (hi : i < fan)
    (hj : j < fan) : grow fan mem t i u e (slot fan u j) = 0 := by
  have other : u ≠ t := by
    rintro rfl
    rw [place] at fresh
    cases fresh
  rw [grow, store_slot_ne hi hj fun same => other same.1]
  exact clear_slot_self hj

theorem grow_slot_old {v : ℕ} (hi : i < fan) (hj : j < fan) (new : v ≠ u)
    (other : ¬ (v = t ∧ j = i)) :
    grow fan mem t i u e (slot fan v j) = mem (slot fan v j) := by
  rw [grow, store_slot_ne hi hj other, clear_slot_ne hj new]

theorem grow_slot_self : grow fan mem t i u e (slot fan t i) = e := store_slot_self

include tree place hi fresh points empty

theorem Tree.grow : Tree fan decode child inner (grow fan mem t i u e)
    (Function.update role u (some (child k i))) := by
  intro v l hv hl j hj w hw
  by_cases new : v = u
  · subst new
    rw [grow_slot_new fresh place hi hj, empty] at hw
    cases hw
  rw [Function.update_of_ne new] at hv
  by_cases same : v = t ∧ j = i
  · obtain ⟨rfl, rfl⟩ := same
    rw [grow_slot_self, points] at hw
    cases hw
    rw [place] at hv
    rw [Function.update_self, Option.some.inj hv]
  · rw [grow_slot_old hi hj new same] at hw
    have key := tree v l hv hl j hj w hw
    rw [Function.update_of_ne _]
    · exact key
    · rintro rfl
      rw [fresh] at key
      cases key

variable {root : ℕ} {l : κ} {is : List ℕ}

section

variable (absent : decode (mem (slot fan t i)) = none) (start : role root = some l)
  (descends : Descends fan child inner l is)

include absent start descends

theorem Tree.walk_grow :
    walk fan decode (Radix.grow fan mem t i u e) is root = walk fan decode mem is root ∨
      walk fan decode mem is root = none ∧
        walk fan decode (Radix.grow fan mem t i u e) is root = some u := by
  induction is generalizing root l with
  | nil => exact .inl rfl
  | cons j is ih =>
    have old : root ≠ u := by
      rintro rfl
      rw [fresh] at start
      cases start
    by_cases same : root = t ∧ j = i
    · obtain ⟨rfl, rfl⟩ := same
      rw [walk, walk, grow_slot_self, points, absent]
      cases is with
      | nil => exact .inr ⟨rfl, rfl⟩
      | cons j' is =>
        refine .inl ?_
        show (decode _).bind _ = none
        rw [grow_slot_new fresh place hi descends.2.2.2.1, empty]
        rfl
    · rw [walk, walk, grow_slot_old hi descends.2.1 old same]
      cases next : decode (mem (slot fan root j)) with
      | none => exact .inl rfl
      | some v => exact ih (tree root l start descends.1 j descends.2.1 v next) descends.2.2

theorem Tree.lookup_grow (deep : ¬ inner (is.foldl child l)) (upper : inner k) (hj : j < fan) :
    lookup fan decode (Radix.grow fan mem t i u e) root is j = lookup fan decode mem root is j := by
  rw [lookup, lookup]
  obtain same | ⟨none, new⟩ :=
    tree.walk_grow place hi fresh points empty absent start descends
  · rw [same]
    cases ends : walk fan decode mem is root with
    | none => rfl
    | some v =>
      have key := tree.walk_role start descends ends
      refine grow_slot_old hi hj ?_ ?_
      · rintro rfl
        rw [fresh] at key
        cases key
      · rintro ⟨rfl, -⟩
        rw [place] at key
        exact deep (Option.some.inj key ▸ upper)
  · rw [none, new]
    exact grow_slot_new fresh place hi hj

end

end Grow

end Thuban.Lib.Radix

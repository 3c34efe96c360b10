import Thuban.Lib.Radix
import Thuban.Mm.Vmm

/-!
# The page tables as a tree

The tables of the virtual memory manager form a radix tree below `p4_table`.  The key of a table is
the path that leads to it, where the two entries of `p4_table` for `p3_table` count as one, and so do
the two entries of `p3_table` for `p2_table`.  Addresses below `p2_table` are mapped in pages of 2 MB;
for all others `getPte` walks the tree (`getPte_read`) and extends it (`getPte_create`).

All of this rests on the tables lying in the first gigabyte of memory, where the code can reach them
at `KERNEL_VIRT_BASE` (`Tables.translate_low`).
-/

namespace Thuban.Mm

open Lib Lib.Paging

def decode (e : ℕ) : Option ℕ := if present e then some (e / 4096) else none

/-- The key of the table at index `i` of a table. -/
def child (k : List ℕ) (i : ℕ) : List ℕ :=
  if k = [] ∧ i = 511 then [0] else if k = [0] ∧ i = 510 then [0, 0] else k ++ [i]

/-- The tables that point to tables: the first three levels without `p2_table`. -/
def Inner (k : List ℕ) : Prop := k.length < 3 ∧ k ≠ [0, 0]

instance : DecidablePred Inner := fun _ => inferInstanceAs (Decidable (_ ∧ _))

/-- The virtual address of a table in the first gigabyte. -/
def tableAddr (t : ℕ) : ℕ := t * 4096 + kernelVirtBase

theorem length_child (k : List ℕ) (i : ℕ) : (child k i).length = k.length + 1 := by
  unfold child
  split_ifs with first second
  · simp [first.1]
  · simp [second.1]
  · simp

variable {k : List ℕ} {i : ℕ}

theorem child_eq_window (window : child k i = [0, 0]) : k = [0] ∧ (i = 0 ∨ i = 510) := by
  unfold child at window
  split_ifs at window with first second
  · cases window
  · exact ⟨second.1, .inr second.2⟩
  · have split : k ++ [i] = [0] ++ [0] := window
    obtain ⟨key, index⟩ := List.append_inj' split rfl
    exact ⟨key, .inl (List.singleton_inj.mp index)⟩

theorem child_eq_pdpt (pdpt : child k i = [0]) : k = [] ∧ (i = 0 ∨ i = 511) := by
  unfold child at pdpt
  split_ifs at pdpt with first second
  · exact ⟨first.1, .inr first.2⟩
  · cases pdpt
  · have split : k ++ [i] = [] ++ [0] := pdpt
    obtain ⟨key, index⟩ := List.append_inj' split rfl
    exact ⟨key, .inl (List.singleton_inj.mp index)⟩

theorem decode_link (u : ℕ) : decode (u * 4096 + 3) = some u := by
  have up : present (u * 4096 + 3) = true := decide_eq_true (by omega)
  rw [decode, up, if_pos rfl]
  congr 1
  omega

theorem decode_eq_none {e : ℕ} : decode e = none ↔ present e = false := by
  unfold decode
  cases present e <;> simp

/-- The entries of the boot page tables that are used to reach the tables. -/
structure BootMapped (p4 : ℕ) (mem : ℕ → ℕ) : Prop where
  inside : p4 + 3 ≤ 2 ^ 18
  first : ∀ i, i = 0 ∨ i = 511 → mem (Radix.slot 512 p4 i) = (p4 + 1) * 4096 + 3
  second : ∀ i, i = 0 ∨ i = 510 → mem (Radix.slot 512 (p4 + 1) i) = (p4 + 2) * 4096 + 3
  large : ∀ i < 512, mem (Radix.slot 512 (p4 + 2) i) = i * 2 ^ 21 + 0x83

namespace BootMapped

variable {p4 t i : ℕ} {s : Vmm}

theorem translate_low {mem : ℕ → ℕ} (boot : BootMapped p4 mem) {x : ℕ} (low : x < 2 ^ 30) :
    translate mem p4 (x + kernelVirtBase) = some x := by
  have base : kernelVirtBase = 2 ^ 64 - 2 ^ 31 := by decide
  have inside := boot.inside
  have i₃ : index 3 (x + kernelVirtBase) = 511 := by unfold index; omega
  have i₂ : index 2 (x + kernelVirtBase) = 510 := by unfold index; omega
  have i₁ : index 1 (x + kernelVirtBase) = x / 2 ^ 21 := by unfold index; omega
  have canonical : Canonical (x + kernelVirtBase) := .inr (by omega)
  have e₃ : mem (p4 * 512 + index 3 (x + kernelVirtBase)) = (p4 + 1) * 4096 + 3 := by
    rw [i₃]
    exact boot.first 511 (.inr rfl)
  have e₂ : mem ((p4 + 1) * 512 + index 2 (x + kernelVirtBase)) = (p4 + 2) * 4096 + 3 := by
    rw [i₂]
    exact boot.second 510 (.inr rfl)
  have e₁ : mem ((p4 + 2) * 512 + index 1 (x + kernelVirtBase)) = x / 2 ^ 21 * 2 ^ 21 + 0x83 := by
    rw [i₁]
    exact boot.large (x / 2 ^ 21) (by omega)
  have address : x / 2 ^ 21 * 2 ^ 21 + (x + kernelVirtBase) % 2 ^ 21 = x := by omega
  rw [translate_huge canonical e₃ (by omega) e₂ (by omega) e₁ (by omega), address]

section

variable (boot : BootMapped p4 s.mem) (ht : t < 2 ^ 18)

include boot ht

theorem load_table (hi : i < 512) :
    s.load p4 (tableAddr t + 8 * i) = some (s.mem (Radix.slot 512 t i)) := by
  have address : tableAddr t + 8 * i = t * 4096 + 8 * i + kernelVirtBase := by
    unfold tableAddr
    omega
  have word : (t * 4096 + 8 * i) / 8 = Radix.slot 512 t i := by unfold Radix.slot; omega
  rw [Vmm.load, address, boot.translate_low (by omega), Option.map_some, word]

theorem store_table (hi : i < 512) (e : ℕ) :
    s.store p4 (tableAddr t + 8 * i) e = some { s with mem := Radix.store 512 s.mem t i e } := by
  have address : tableAddr t + 8 * i = t * 4096 + 8 * i + kernelVirtBase := by
    unfold tableAddr
    omega
  have word : (t * 4096 + 8 * i) / 8 = Radix.slot 512 t i := by unfold Radix.slot; omega
  rw [Vmm.store, address, boot.translate_low (by omega), Option.map_some, word]
  rfl

theorem clearPage_table :
    s.clearPage p4 ((t * 4096 + kernelVirtBase) % 2 ^ 64) =
      some { s with mem := Radix.clear 512 s.mem t } := by
  have base : kernelVirtBase = 2 ^ 64 - 2 ^ 31 := by decide
  have address : (t * 4096 + kernelVirtBase) % 2 ^ 64 = t * 4096 + kernelVirtBase := by omega
  have word : t * 4096 / 8 = t * 512 := by omega
  rw [Vmm.clearPage, address, boot.translate_low (by omega), Option.map_some, word]
  rfl

theorem descend_read (hi : i < 512) :
    descend p4 false (tableAddr t) i s =
      some (if present (s.mem (Radix.slot 512 t i)) then
        some (tableOf (s.mem (Radix.slot 512 t i))) else none, s) := by
  rw [descend, boot.load_table ht hi, Option.bind_some]
  cases present (s.mem (Radix.slot 512 t i)) <;> rfl

end

end BootMapped

theorem tableOf_link {t : ℕ} (ht : t < 2 ^ 18) : tableOf (t * 4096 + 3) = tableAddr t := by
  have base : kernelVirtBase = 2 ^ 64 - 2 ^ 31 := by decide
  unfold tableOf tableAddr
  omega

/-- The page tables in memory: `role` gives the keys of the pages in use as tables. -/
structure Tables (p4 : ℕ) (role : ℕ → Option (List ℕ)) (s : Vmm) : Prop where
  tree : Radix.Tree 512 decode child Inner s.mem role
  link : ∀ t k, role t = some k → Inner k → ∀ i < 512, ∀ u,
    decode (s.mem (Radix.slot 512 t i)) = some u → s.mem (Radix.slot 512 t i) = u * 4096 + 3
  low : ∀ t k, role t = some k → t < 2 ^ 18
  used : ∀ t k, role t = some k → s.pmm.bitmapTest t = true
  rooted : ∀ t k, role t = some k → IsTable s.mem p4 (3 - k.length) t
  root_iff : ∀ t, role t = some [] ↔ t = p4
  pdpt_iff : ∀ t, role t = some [0] ↔ t = p4 + 1
  window_iff : ∀ t, role t = some [0, 0] ↔ t = p4 + 2
  boot : BootMapped p4 s.mem

namespace Tables

variable {p4 : ℕ} {role : ℕ → Option (List ℕ)} {s : Vmm} {t u i e : ℕ} {k : List ℕ}

section

variable (tables : Tables p4 role s)

include tables

theorem root : role p4 = some [] := (tables.root_iff p4).mpr rfl

theorem pdpt : role (p4 + 1) = some [0] := (tables.pdpt_iff _).mpr rfl

theorem window : role (p4 + 2) = some [0, 0] :=
  (tables.window_iff _).mpr rfl

theorem isTable_of_agree {mem' : ℕ → ℕ}
    (mem : ∀ t k, role t = some k → k.length < 3 → ∀ i < 512,
      decode (s.mem (Radix.slot 512 t i)) ≠ none →
        mem' (Radix.slot 512 t i) = s.mem (Radix.slot 512 t i)) {level : ℕ}
    (table : IsTable s.mem p4 level t) :
    IsTable mem' p4 level t ∧ ∃ k, role t = some k ∧ k.length + level = 3 := by
  induction table with
  | root => exact ⟨.root, [], tables.root, rfl⟩
  | @next level t i _ hi up small ih =>
    obtain ⟨above, k, place, depth⟩ := ih
    have points : decode (s.mem (Radix.slot 512 t i)) = some (s.mem (Radix.slot 512 t i) / 4096) :=
      if_pos up
    have same : mem' (t * 512 + i) = s.mem (t * 512 + i) :=
      mem t k place (by omega) i hi (points ▸ Option.some_ne_none _)
    refine ⟨same ▸ .next above hi (same ▸ up) (same ▸ small), ?_⟩
    have inner : Inner k := by
      refine ⟨by omega, ?_⟩
      rintro rfl
      obtain rfl := (tables.window_iff t).mp place
      have entry : s.mem ((p4 + 2) * 512 + i) = i * 2 ^ 21 + 0x83 := tables.boot.large i hi
      have : huge (i * 2 ^ 21 + 0x83) = true := decide_eq_true (by omega)
      rw [entry, this] at small
      cases small
    have key := tables.tree t k place inner i hi _ points
    have link : s.mem (t * 512 + i) = s.mem (Radix.slot 512 t i) / 4096 * 4096 + 3 :=
      tables.link t k place inner i hi _ points
    have below := tables.low _ _ key
    rw [link, frame_link (by omega)]
    exact ⟨child k i, key, by rw [length_child]; omega⟩

theorem role_of_isTable {level : ℕ} (table : IsTable s.mem p4 level t) : ∃ k, role t = some k := by
  obtain ⟨-, k, place, -⟩ := tables.isTable_of_agree (fun _ _ _ _ _ _ _ => rfl) table
  exact ⟨k, place⟩

theorem of_agree {s' : Vmm}
    (mem : ∀ t k, role t = some k → k.length < 3 → ∀ i < 512,
      s'.mem (Radix.slot 512 t i) = s.mem (Radix.slot 512 t i))
    (used : ∀ t k, role t = some k → s'.pmm.bitmapTest t = true) : Tables p4 role s' where
  tree := by
    intro t k ht hk i hi u
    rw [mem t k ht hk.1 i hi]
    exact tables.tree t k ht hk i hi u
  link := by
    intro t k ht hk i hi u
    rw [mem t k ht hk.1 i hi]
    exact tables.link t k ht hk i hi u
  low := tables.low
  used := used
  rooted := fun t k place =>
    (tables.isTable_of_agree (fun t k place deep i hi _ => mem t k place deep i hi)
      (tables.rooted t k place)).1
  root_iff := tables.root_iff
  pdpt_iff := tables.pdpt_iff
  window_iff := tables.window_iff
  boot :=
    { inside := tables.boot.inside
      first := fun i hi => by rw [mem _ _ tables.root (by decide) i (by omega), tables.boot.first i hi]
      second := fun i hi => by
        rw [mem _ _ tables.pdpt (by decide) i (by omega), tables.boot.second i hi]
      large := fun i hi => by rw [mem _ _ tables.window (by decide) i hi, tables.boot.large i hi] }

theorem role_of_free (free : s.pmm.bitmapTest u = false) : role u = none := by
  cases place : role u with
  | none => rfl
  | some k =>
    rw [tables.used u k place] at free
    cases free

end

theorem ne_of_fresh (place : role t = some k) (fresh : role u = none) : t ≠ u := by
  rintro rfl
  rw [place] at fresh
  cases fresh

theorem grow (tables : Tables p4 role s) (place : role t = some k) (inner : Inner k) (hi : i < 512)
    (absent : decode (s.mem (Radix.slot 512 t i)) = none) (fresh : role u = none) (hu : u < 2 ^ 18) :
    Tables p4 (Function.update role u (some (child k i)))
      { s with mem := Radix.grow 512 s.mem t i u (u * 4096 + 3), pmm := s.pmm.take u } := by
  have same : ∀ v l, child k i ≠ l →
      (Function.update role u (some (child k i)) v = some l ↔ role v = some l) := by
    intro v l other
    by_cases new : v = u
    · simp [new, fresh, other]
    · rw [Function.update_of_ne new]
  -- an entry that points somewhere is not the one that is filled in
  have kept : ∀ v l, role v = some l → ∀ j < 512,
      decode (s.mem (Radix.slot 512 v j)) ≠ none →
        Radix.grow 512 s.mem t i u (u * 4096 + 3) (Radix.slot 512 v j) =
          s.mem (Radix.slot 512 v j) := by
    intro v l hv j hj points
    refine Radix.grow_slot_old hi hj (ne_of_fresh hv fresh) ?_
    rintro ⟨rfl, rfl⟩
    exact points absent
  constructor
  · exact tables.tree.grow place hi fresh (decode_link u) (by decide)
  · intro v l hv hl j hj w points
    dsimp only at points ⊢
    by_cases new : v = u
    · subst new
      rw [Radix.grow_slot_new fresh place hi hj] at points
      cases points
    rw [Function.update_of_ne new] at hv
    by_cases same : v = t ∧ j = i
    · obtain ⟨rfl, rfl⟩ := same
      rw [Radix.grow_slot_self, decode_link] at points
      rw [Radix.grow_slot_self, Option.some.inj points]
    · rw [Radix.grow_slot_old hi hj new same] at points ⊢
      exact tables.link v l hv hl j hj w points
  · intro v l hv
    by_cases new : v = u
    · rw [new]
      exact hu
    · rw [Function.update_of_ne new] at hv
      exact tables.low v l hv
  · intro v l hv
    show (s.pmm.take u).bitmapTest v = true
    by_cases new : v = u
    · simp [new]
    · rw [Function.update_of_ne new] at hv
      simp [tables.used v l hv]
  · intro v l hv
    by_cases new : v = u
    · subst new
      rw [Function.update_self] at hv
      cases hv
      have parent : IsTable (Radix.grow 512 s.mem t i v (v * 4096 + 3)) p4
          (3 - (child k i).length + 1) t := by
        have depth : 3 - (child k i).length + 1 = 3 - k.length := by
          have := inner.1
          rw [length_child]
          omega
        rw [depth]
        exact (tables.isTable_of_agree (fun v l hv _ => kept v l hv) (tables.rooted t k place)).1
      have entry : Radix.grow 512 s.mem t i v (v * 4096 + 3) (t * 512 + i) = v * 4096 + 3 :=
        Radix.grow_slot_self
      have child := parent.next hi (by rw [entry, present_link]) (by rw [entry, huge_link])
      rw [entry, frame_link (by omega)] at child
      exact child
    · rw [Function.update_of_ne new] at hv
      exact (tables.isTable_of_agree (fun v l hv _ => kept v l hv) (tables.rooted v l hv)).1
  · exact fun v => (same v [] (by simp [← List.length_eq_zero_iff, length_child])).trans
      (tables.root_iff v)
  · refine fun v => (same v [0] fun pdpt => ?_).trans (tables.pdpt_iff v)
    obtain ⟨rfl, low⟩ := child_eq_pdpt pdpt
    obtain rfl := (tables.root_iff t).mp place
    rw [tables.boot.first i low, decode_link] at absent
    cases absent
  · refine fun v => (same v [0, 0] fun window => ?_).trans (tables.window_iff v)
    obtain ⟨rfl, low⟩ := child_eq_window window
    obtain rfl := (tables.pdpt_iff t).mp place
    rw [tables.boot.second i low, decode_link] at absent
    cases absent
  refine ⟨tables.boot.inside, fun j hj => ?_, fun j hj => ?_, fun j hj => ?_⟩
  · refine (kept _ _ tables.root j (by omega) ?_).trans (tables.boot.first j hj)
    rw [tables.boot.first j hj, decode_link]
    exact Option.some_ne_none _
  · refine (kept _ _ tables.pdpt j (by omega) ?_).trans (tables.boot.second j hj)
    rw [tables.boot.second j hj, decode_link]
    exact Option.some_ne_none _
  · refine (kept _ _ tables.window j hj ?_).trans (tables.boot.large j hj)
    have up : present (j * 2 ^ 21 + 0x83) = true := decide_eq_true (by omega)
    rw [tables.boot.large j hj, decode, if_pos up]
    exact Option.some_ne_none _

end Tables

/-! ## One level of the walk -/

section Descend

variable {p4 : ℕ} {role : ℕ → Option (List ℕ)} {s : Vmm} {t u i : ℕ} {k : List ℕ}
  (tables : Tables p4 role s) (place : role t = some k) (hi : i < 512)

include tables place hi

theorem descend_present (inner : Inner k) (create : Bool)
    (points : decode (s.mem (Radix.slot 512 t i)) = some u) :
    descend p4 create (tableAddr t) i s = some (some (tableAddr u), s) := by
  have link := tables.link t k place inner i hi u points
  have up : present (u * 4096 + 3) = true := decide_eq_true (by omega)
  have small := tables.low u _ (tables.tree t k place inner i hi u points)
  rw [descend, tables.boot.load_table (tables.low t k place) hi, Option.bind_some, link, if_pos up,
    tableOf_link small]

theorem descend_absent (absent : decode (s.mem (Radix.slot 512 t i)) = none) :
    descend p4 false (tableAddr t) i s = some (none, s) := by
  have down := decode_eq_none.mp absent
  rw [descend, tables.boot.load_table (tables.low t k place) hi, Option.bind_some, down]
  rfl

theorem descend_full (absent : decode (s.mem (Radix.slot 512 t i)) = none)
    (full : s.pmm.alloc.1 = none) : descend p4 true (tableAddr t) i s = some (none, s) := by
  have down := decode_eq_none.mp absent
  rw [descend, tables.boot.load_table (tables.low t k place) hi, Option.bind_some, down]
  match alloc : s.pmm.alloc with
  | (none, pmm) =>
    obtain rfl := Pmm.alloc_eq_none alloc
    rfl
  | (some page, pmm) =>
    rw [alloc] at full
    cases full

theorem descend_create (inner : Inner k) (absent : decode (s.mem (Radix.slot 512 t i)) = none)
    (alloc : s.pmm.alloc = (some (u * 4096), s.pmm.take u)) (fresh : role u = none)
    (hu : u < 2 ^ 18) :
    descend p4 true (tableAddr t) i s =
      some (some (tableAddr u),
        { s with mem := Radix.grow 512 s.mem t i u (u * 4096 + 3), pmm := s.pmm.take u }) := by
  have down := decode_eq_none.mp absent
  have ht := tables.low t k place
  have taken : Tables p4 role { s with pmm := s.pmm.take u } :=
    tables.of_agree (fun _ _ _ _ _ _ => rfl) fun v l hv => by simp [tables.used v l hv]
  have cleared : Tables p4 role { s with mem := Radix.clear 512 s.mem u, pmm := s.pmm.take u } :=
    taken.of_agree (fun v l hv _ j hj => Radix.clear_slot_ne hj (Tables.ne_of_fresh hv fresh))
      taken.used
  have grown := tables.grow place inner hi absent fresh hu
  have entry := grown.boot.load_table ht hi
  dsimp only at entry
  rw [Radix.grow_slot_self] at entry
  rw [descend, tables.boot.load_table ht hi, Option.bind_some, down, alloc]
  show (Vmm.clearPage p4 { s with pmm := s.pmm.take u } ((u * 4096 + kernelVirtBase) % 2 ^ 64)).bind _
    = _
  rw [taken.boot.clearPage_table hu, Option.bind_some, cleared.boot.store_table ht hi, Option.bind_some]
  refine (congrArg (Option.map _) entry).trans ?_
  rw [Option.map_some, tableOf_link hu]
  rfl

end Descend

/-! ## The whole walk -/

/-- The indices of the tables above a page. -/
def pathOf (v : ℕ) : List ℕ := [index 3 v, index 2 v, index 1 v]

/-- The key of the table that holds the entry of a page. -/
def keyOf (v : ℕ) : List ℕ := (pathOf v).foldl child []

/-- The addresses that `boot.s` maps in pages of 2 MB. -/
def Covered (v : ℕ) : Prop :=
  (index 3 v = 0 ∨ index 3 v = 511) ∧ (index 2 v = 0 ∨ index 2 v = 510)

instance (v : ℕ) : Decidable (Covered v) := inferInstanceAs (Decidable (_ ∧ _))

/-- The entry of a page, 0 if there is no table for it. -/
def entryOf (p4 : ℕ) (mem : ℕ → ℕ) (v : ℕ) : ℕ :=
  Radix.lookup 512 decode mem p4 (pathOf v) (index 0 v)

theorem descends_pathOf {v : ℕ} (uncovered : ¬ Covered v) :
    Radix.Descends 512 child Inner [] (pathOf v) := by
  have second : Inner (child [] (index 3 v)) := by
    refine ⟨by simp [length_child], fun window => ?_⟩
    have := congrArg List.length window
    simp [length_child] at this
  have third : Inner (child (child [] (index 3 v)) (index 2 v)) := by
    refine ⟨by simp [length_child], fun window => uncovered ?_⟩
    obtain ⟨pdpt, low⟩ := child_eq_window window
    exact ⟨(child_eq_pdpt pdpt).2, low⟩
  exact ⟨⟨by decide, by decide⟩, index_lt 3 v, second, index_lt 2 v, third, index_lt 1 v, trivial⟩

theorem not_inner_keyOf (v : ℕ) : ¬ Inner (keyOf v) := by
  intro inner
  have := inner.1
  simp [keyOf, pathOf, length_child] at this

/-- The next `n` pages that `pmm_alloc` hands out, if it does, lie in the first gigabyte. -/
def Pool : ℕ → Pmm → Prop
  | 0, _ => True
  | n + 1, pmm => ∀ addr pmm', pmm.alloc = (some addr, pmm') → addr < 2 ^ 30 ∧ Pool n pmm'

theorem Pool.alloc {n : ℕ} {pmm pmm' : Pmm} {addr : ℕ} (pool : Pool (n + 1) pmm)
    (done : pmm.alloc = (some addr, pmm')) :
    ∃ u < 2 ^ 18, addr = u * 4096 ∧ pmm' = pmm.take u ∧ pmm.bitmapTest u = false ∧
      Pool n (pmm.take u) := by
  obtain ⟨low, rest⟩ := pool addr pmm' done
  obtain ⟨u, -, free, rfl, rfl, -⟩ := Pmm.alloc_eq_some done
  refine ⟨u, ?_, rfl, rfl, free, rest⟩
  unfold pageSize at low
  omega

theorem Pool.mono {m n : ℕ} {pmm : Pmm} (pool : Pool n pmm) (le : m ≤ n) : Pool m pmm := by
  induction m generalizing n pmm with
  | zero => trivial
  | succ m ih =>
    obtain ⟨n, rfl⟩ := Nat.exists_eq_add_of_lt le
    intro addr pmm' done
    obtain ⟨low, rest⟩ := pool addr pmm' done
    exact ⟨low, ih rest (by omega)⟩

theorem pool_of_small {pmm : Pmm} (small : pmm.totalPages ≤ 2 ^ 18) (n : ℕ) : Pool n pmm := by
  induction n generalizing pmm with
  | zero => trivial
  | succ n ih =>
    intro addr pmm' done
    obtain ⟨u, inside, -, rfl, rfl, -⟩ := Pmm.alloc_eq_some done
    refine ⟨?_, ih (by rw [Pmm.take_totalPages]; exact small)⟩
    unfold pageSize
    omega

/-- The number of tables on the way that are not there. -/
def missing (mem : ℕ → ℕ) : List ℕ → ℕ → ℕ
  | [], _ => 0
  | i :: is, t => (decode (mem (Radix.slot 512 t i))).elim (is.length + 1) (missing mem is)

theorem missing_le_length (mem : ℕ → ℕ) (is : List ℕ) (t : ℕ) : missing mem is t ≤ is.length := by
  induction is generalizing t with
  | nil => exact le_rfl
  | cons i is ih =>
    rw [missing]
    cases decode (mem (Radix.slot 512 t i)) with
    | none => exact le_rfl
    | some u => exact (ih u).trans (Nat.le_succ _)

/-- New tables were made, and only the entries of `touched` addresses have changed. -/
structure Extends (p4 : ℕ) (touched : ℕ → Prop) (role : ℕ → Option (List ℕ)) (s : Vmm)
    (role' : ℕ → Option (List ℕ)) (s' : Vmm) : Prop where
  tables : Tables p4 role' s'
  roles : ∀ t k, role t = some k → role' t = some k
  links : ∀ t k, role t = some k → Inner k → ∀ i < 512, ∀ u,
    decode (s.mem (Radix.slot 512 t i)) = some u → decode (s'.mem (Radix.slot 512 t i)) = some u
  used : ∀ p, s'.pmm.bitmapTest p = true ↔
    s.pmm.bitmapTest p = true ∨ role p = none ∧ ∃ k, role' p = some k
  fresh : ∀ t k, role t = none → role' t = some k → s.pmm.bitmapTest t = false
  entries : ∀ v, ¬ Covered v → ¬ touched v → entryOf p4 s'.mem v = entryOf p4 s.mem v
  outside : ∀ p, role' p = none → ∀ i < 512,
    s'.mem (Radix.slot 512 p i) = s.mem (Radix.slot 512 p i)
  total : s'.pmm.totalPages = s.pmm.totalPages
  next : s'.nextVirtAddr = s.nextVirtAddr

namespace Extends

variable {p4 : ℕ} {touched : ℕ → Prop} {role role' role'' : ℕ → Option (List ℕ)} {s s' s'' : Vmm}

theorem refl (tables : Tables p4 role s) : Extends p4 touched role s role s where
  tables := tables
  roles := fun _ _ place => place
  links := fun _ _ _ _ _ _ _ points => points
  used := fun p => ⟨.inl, fun h => h.elim id fun ⟨fresh, k, place⟩ => by
    rw [fresh] at place
    cases place⟩
  fresh := fun t k fresh place => by
    rw [fresh] at place
    cases place
  entries := fun _ _ _ => rfl
  outside := fun _ _ _ _ => rfl
  total := rfl
  next := rfl

theorem trans (first : Extends p4 touched role s role' s')
    (second : Extends p4 touched role' s' role'' s'') : Extends p4 touched role s role'' s'' where
  tables := second.tables
  roles := fun t k place => second.roles t k (first.roles t k place)
  links := fun t k place inner i hi u points =>
    second.links t k (first.roles t k place) inner i hi u (first.links t k place inner i hi u points)
  used := by
    intro p
    rw [second.used, first.used]
    constructor
    · rintro ((used | ⟨none, k, some⟩) | ⟨none', k, some⟩)
      · exact .inl used
      · exact .inr ⟨none, k, second.roles p k some⟩
      · refine .inr ⟨?_, k, some⟩
        cases place : role p with
        | none => rfl
        | some l =>
          rw [first.roles p l place] at none'
          cases none'
    · rintro (used | ⟨none, k, some⟩)
      · exact .inl (.inl used)
      · cases middle : role' p with
        | none => exact .inr ⟨rfl, k, some⟩
        | some l => exact .inl (.inr ⟨none, l, rfl⟩)
  fresh := by
    intro t k none some
    cases middle : role' t with
    | none =>
      have free := second.fresh t k middle some
      by_contra used
      rw [Bool.not_eq_false] at used
      rw [(first.used t).mpr (.inl used)] at free
      cases free
    | some l => exact first.fresh t l none middle
  entries := fun v uncovered untouched =>
    (second.entries v uncovered untouched).trans (first.entries v uncovered untouched)
  outside := by
    intro p data i hi
    have data' : role' p = none := by
      cases place : role' p with
      | none => rfl
      | some k =>
        rw [second.roles p k place] at data
        cases data
    rw [second.outside p data i hi, first.outside p data' i hi]
  total := second.total.trans first.total
  next := second.next.trans first.next

theorem mono {touched' : ℕ → Prop} (ext : Extends p4 touched role s role' s')
    (sub : ∀ v, touched v → touched' v) : Extends p4 touched' role s role' s' :=
  { ext with entries := fun v uncovered untouched =>
      ext.entries v uncovered fun h => untouched (sub v h) }

end Extends

variable {p4 t : ℕ} {role : ℕ → Option (List ℕ)} {s : Vmm} {k is : List ℕ}

theorem Tables.extends_grow (touched : ℕ → Prop) {u i : ℕ} (tables : Tables p4 role s)
    (place : role t = some k) (inner : Inner k) (hi : i < 512)
    (absent : decode (s.mem (Radix.slot 512 t i)) = none) (free : s.pmm.bitmapTest u = false)
    (hu : u < 2 ^ 18) :
    Extends p4 touched role s (Function.update role u (some (child k i)))
      { s with mem := Radix.grow 512 s.mem t i u (u * 4096 + 3), pmm := s.pmm.take u } := by
  have fresh := tables.role_of_free free
  constructor
  · exact tables.grow place inner hi absent fresh hu
  · intro v l hv
    rw [Function.update_of_ne (ne_of_fresh hv fresh), hv]
  · intro v l hv _ j hj w points
    have other : ¬ (v = t ∧ j = i) := by
      rintro ⟨rfl, rfl⟩
      rw [absent] at points
      cases points
    show decode (Radix.grow 512 s.mem t i u (u * 4096 + 3) (Radix.slot 512 v j)) = some w
    rw [Radix.grow_slot_old hi hj (ne_of_fresh hv fresh) other]
    exact points
  · intro p
    show (s.pmm.take u).bitmapTest p = true ↔ _
    rw [Pmm.take_test, Bool.or_eq_true, decide_eq_true_iff]
    by_cases new : p = u
    · subst new
      simp [fresh]
    · simp only [new, false_or, Function.update_of_ne new]
      refine ⟨.inl, fun h => h.elim id fun ⟨absent, l, place⟩ => ?_⟩
      rw [absent] at place
      cases place
  · intro v l absent place
    by_cases new : v = u
    · rw [new]
      exact free
    · rw [Function.update_of_ne new, absent] at place
      cases place
  · intro v uncovered _
    exact tables.tree.lookup_grow place hi fresh (decode_link u) (by decide) absent tables.root
      (descends_pathOf uncovered) (not_inner_keyOf v) inner (index_lt 0 v)
  · intro p data j hj
    have new : p ≠ u := by
      rintro rfl
      rw [Function.update_self] at data
      cases data
    rw [Function.update_of_ne new] at data
    have other : ¬ (p = t ∧ j = i) := fun same => ne_of_fresh place data same.1.symm
    show Radix.grow 512 s.mem t i u (u * 4096 + 3) (Radix.slot 512 p j) = _
    rw [Radix.grow_slot_old hi hj new other]
  · rfl
  · rfl

section

variable (tables : Tables p4 role s) (place : role t = some k)
  (descends : Radix.Descends 512 child Inner k is)

include tables place descends

theorem Extends.walk {touched : ℕ → Prop} {role' : ℕ → Option (List ℕ)} {s' : Vmm} {u : ℕ}
    (ext : Extends p4 touched role s role' s') (ends : Radix.walk 512 decode s.mem is t = some u) :
    Radix.walk 512 decode s'.mem is t = some u := by
  induction is generalizing t k with
  | nil => exact ends
  | cons i is ih =>
    obtain ⟨inner, hi, rest⟩ := descends
    rw [Radix.walk] at ends ⊢
    obtain ⟨v, entry, ends⟩ := Option.bind_eq_some_iff.mp ends
    rw [ext.links t k place inner i hi v entry]
    exact ih (tables.tree t k place inner i hi v entry) rest ends

/-- With `create` the walk makes the tables that are missing, as long as there are pages. -/
theorem walkTables_create {touched : ℕ → Prop} {r : ℕ}
    (pool : Pool (missing s.mem is t + r) s.pmm) :
    ∃ answer s' role', walkTables p4 true is (tableAddr t) s = some (answer, s') ∧
      Extends p4 touched role s role' s' ∧
      ∀ table, answer = some table → Pool r s'.pmm ∧
        ∃ u, table = tableAddr u ∧ Radix.walk 512 decode s'.mem is t = some u := by
  induction is generalizing s role t k with
  | nil =>
    rw [missing, Nat.zero_add] at pool
    refine ⟨_, s, role, rfl, .refl tables, fun table found => ⟨pool, t, ?_, rfl⟩⟩
    exact (Option.some.inj found).symm
  | cons i is ih =>
    obtain ⟨inner, hi, rest⟩ := descends
    rw [missing] at pool
    cases entry : decode (s.mem (Radix.slot 512 t i)) with
    | some u =>
      have key := tables.tree t k place inner i hi u entry
      rw [entry] at pool
      obtain ⟨answer, s', role', walk, grows, found⟩ := ih tables key rest pool
      refine ⟨answer, s', role', ?_, grows, fun table ends => ?_⟩
      · rw [walkTables, descend_present tables place hi inner true entry, Option.bind_some]
        exact walk
      · obtain ⟨left, v, address, below⟩ := found table ends
        refine ⟨left, v, address, ?_⟩
        rw [Radix.walk, grows.links t k place inner i hi u entry]
        exact below
    | none =>
      rw [entry, Option.elim_none, Nat.add_right_comm] at pool
      rcases alloc : s.pmm.alloc with ⟨_ | page, pmm⟩
      · refine ⟨none, s, role, ?_, .refl tables, fun table found => by cases found⟩
        rw [walkTables, descend_full tables place hi entry (by rw [alloc]), Option.bind_some]
      · obtain ⟨u, hu, rfl, rfl, free, pool'⟩ := Pool.alloc pool alloc
        have step := tables.extends_grow touched place inner hi entry free hu
        have made : Function.update role u (some (child k i)) u = some (child k i) :=
          Function.update_self ..
        obtain ⟨answer, s', role', walk, grows, found⟩ := ih step.tables made rest
          (pool'.mono (Nat.add_le_add_right (missing_le_length _ is u) r))
        refine ⟨answer, s', role', ?_, step.trans grows, fun table ends => ?_⟩
        · rw [walkTables, descend_create tables place hi inner entry alloc
            (tables.role_of_free free) hu, Option.bind_some]
          exact walk
        · obtain ⟨left, v, address, below⟩ := found table ends
          refine ⟨left, v, address, ?_⟩
          have link : decode (s'.mem (Radix.slot 512 t i)) = some u := by
            refine grows.links t k (step.roles t k place) inner i hi u ?_
            exact (congrArg decode Radix.grow_slot_self).trans (decode_link u)
          rw [Radix.walk, link]
          exact below

theorem walkTables_read :
    walkTables p4 false is (tableAddr t) s =
      some ((Radix.walk 512 decode s.mem is t).map tableAddr, s) := by
  induction is generalizing t k with
  | nil => rfl
  | cons i is ih =>
    obtain ⟨inner, hi, rest⟩ := descends
    rw [walkTables, Radix.walk]
    cases entry : decode (s.mem (Radix.slot 512 t i)) with
    | none =>
      rw [descend_absent tables place hi entry, Option.bind_some]
      rfl
    | some u =>
      rw [descend_present tables place hi inner false entry, Option.bind_some, Option.bind_some]
      exact ih (tables.tree t k place inner i hi u entry) rest

end

end Thuban.Mm

import Thuban.Mm.PageTables

/-!
# What the calls do to the entries of pages

Over the tree of page tables each address that `boot.s` does not cover has one entry (`entryOf`).
Both page walkers read it (`vmmGetPhys_eq`, `pagingGetPhys_eq`), as the processor does
(`translate_eq`), and every call of the virtual memory manager changes the entries of its own
addresses only (`vmmMap_spec`, `vmmUnmap_spec`, `vmmAlloc_spec`, `freeRange_clears`).
-/

namespace Thuban.Mm

open Lib Lib.Paging

/-- The entries of two addresses lie in the same place. -/
def SameSlot (w v : ℕ) : Prop := keyOf w = keyOf v ∧ index 0 w = index 0 v

instance (w v : ℕ) : Decidable (SameSlot w v) := inferInstanceAs (Decidable (_ ∧ _))

/-- The physical address that an entry gives, 0 if it is not present. -/
def physOf (e v : ℕ) : ℕ := if present e then e / 4096 * 4096 + v % 4096 else 0

variable {p4 v t : ℕ} {role : ℕ → Option (List ℕ)} {s : Vmm}

theorem Tables.walk_key (tables : Tables p4 role s) (uncovered : ¬ Covered v)
    (ends : Radix.walk 512 decode s.mem (pathOf v) p4 = some t) : role t = some (keyOf v) :=
  tables.tree.walk_role tables.root (descends_pathOf uncovered) ends

theorem entryOf_of_walk (ends : Radix.walk 512 decode s.mem (pathOf v) p4 = some t) :
    entryOf p4 s.mem v = s.mem (Radix.slot 512 t (index 0 v)) := by
  rw [entryOf, Radix.lookup, ends]
  rfl

theorem entryOf_of_none (ends : Radix.walk 512 decode s.mem (pathOf v) p4 = none) :
    entryOf p4 s.mem v = 0 := by
  rw [entryOf, Radix.lookup, ends]
  rfl

theorem keyOf_eq (v : ℕ) : keyOf v =
    [if index 3 v = 511 then 0 else index 3 v,
      if (index 3 v = 0 ∨ index 3 v = 511) ∧ index 2 v = 510 then 0 else index 2 v, index 1 v] := by
  show child (child (child [] (index 3 v)) (index 2 v)) (index 1 v) = _
  unfold child
  split_ifs <;> simp_all

theorem entryOf_of_sameSlot {w : ℕ} (tables : Tables p4 role s) (uncovered : ¬ Covered w)
    (same : SameSlot v w) : entryOf p4 s.mem v = entryOf p4 s.mem w := by
  obtain ⟨key, last⟩ := same
  rw [keyOf_eq, keyOf_eq, List.cons.injEq, List.cons.injEq, List.cons.injEq] at key
  obtain ⟨key₃, key₂, key₁, -⟩ := key
  unfold Covered at uncovered
  have index₂ : index 2 v = index 2 w := by
    split_ifs at key₃ key₂ <;> omega
  have word : s.mem (Radix.slot 512 p4 (index 3 v)) = s.mem (Radix.slot 512 p4 (index 3 w)) := by
    by_cases equal : index 3 v = index 3 w
    · rw [equal]
    · -- the two entries of `p4_table` for `p3_table`
      rw [tables.boot.first _ (by split_ifs at key₃ <;> omega),
        tables.boot.first _ (by split_ifs at key₃ <;> omega)]
  have walk : Radix.walk 512 decode s.mem (pathOf v) p4 =
      Radix.walk 512 decode s.mem (pathOf w) p4 := by
    rw [pathOf, pathOf, Radix.walk, Radix.walk, word, index₂, key₁]
  rw [entryOf, entryOf, Radix.lookup, Radix.lookup, walk, last]

/-! ## Finding an entry -/

theorem getPte_read (tables : Tables p4 role s) (uncovered : ¬ Covered v) :
    getPte p4 v false s =
      some ((Radix.walk 512 decode s.mem (pathOf v) p4).map fun t => tableAddr t + 8 * index 0 v,
        s) := by
  have walk := walkTables_read tables tables.root (descends_pathOf uncovered)
  rw [getPte]
  refine (congrArg (Option.map _) walk).trans ?_
  show some (Option.map (· + 8 * index 0 v) (Option.map tableAddr _), s) = _
  rw [Option.map_map]
  rfl

theorem getPte_create (touched : ℕ → Prop) (tables : Tables p4 role s) (uncovered : ¬ Covered v)
    {r : ℕ} (pool : Pool (missing s.mem (pathOf v) p4 + r) s.pmm) :
    ∃ answer s' role', getPte p4 v true s = some (answer, s') ∧
      Extends p4 touched role s role' s' ∧
      ∀ pte, answer = some pte → Pool r s'.pmm ∧ ∃ t, pte = tableAddr t + 8 * index 0 v ∧
        Radix.walk 512 decode s'.mem (pathOf v) p4 = some t := by
  obtain ⟨answer, s', role', walk, ext, found⟩ :=
    walkTables_create tables tables.root (descends_pathOf uncovered) pool
  refine ⟨answer.map (· + 8 * index 0 v), s', role', ?_, ext, fun pte ends => ?_⟩
  · rw [getPte]
    exact congrArg (Option.map _) walk
  · obtain ⟨table, rfl, rfl⟩ := Option.map_eq_some_iff.mp ends
    obtain ⟨left, t, rfl, ends'⟩ := found table rfl
    exact ⟨left, t, rfl, ends'⟩

section

variable (tables : Tables p4 role s) (uncovered : ¬ Covered v)

include tables uncovered

theorem store_entry (ends : Radix.walk 512 decode s.mem (pathOf v) p4 = some t) (e : ℕ) :
    ∃ s', s.store p4 (tableAddr t + 8 * index 0 v) e = some s' ∧
      Extends p4 (SameSlot · v) role s role s' ∧ s'.pmm = s.pmm ∧ entryOf p4 s'.mem v = e ∧
      (∀ w, ¬ Covered w → entryOf p4 s'.mem w = e ∨ entryOf p4 s'.mem w = entryOf p4 s.mem w) ∧
      ∀ u k, role u = some k → k.length < 3 → ∀ i < 512,
        s'.mem (Radix.slot 512 u i) = s.mem (Radix.slot 512 u i) := by
  have key := tables.walk_key uncovered ends
  have bottom := not_inner_keyOf v
  have hi := index_lt 0 v
  have deep : (keyOf v).length = 3 := by simp [keyOf, pathOf, length_child]
  have upper : ∀ u k, role u = some k → k.length < 3 → u ≠ t := by
    rintro u k place short rfl
    rw [key] at place
    cases place
    omega
  have kept : ∀ u k, role u = some k → k.length < 3 → ∀ i < 512,
      Radix.store 512 s.mem t (index 0 v) e (Radix.slot 512 u i) = s.mem (Radix.slot 512 u i) :=
    fun u k place short i hu =>
      Radix.store_slot_ne hi hu fun same => upper u k place short same.1
  have outside : ∀ p, role p = none → ∀ i < 512,
      Radix.store 512 s.mem t (index 0 v) e (Radix.slot 512 p i) = s.mem (Radix.slot 512 p i) :=
    fun p none i hp => Radix.store_slot_ne hi hp fun same =>
      Tables.ne_of_fresh key none same.1.symm
  have unchanged : Extends p4 (SameSlot · v) role s role s := .refl tables
  refine ⟨_, tables.boot.store_table (tables.low _ _ key) hi e, ?_, rfl,
    tables.tree.lookup_store_self key bottom hi tables.root (descends_pathOf uncovered) ends,
    fun w hw => tables.tree.lookup_store_or key bottom hi tables.root (descends_pathOf hw)
      (index_lt 0 w), kept⟩
  constructor
  · exact tables.of_agree kept tables.used
  · exact fun u k place => place
  · intro u k place inner i hu w points
    show decode (Radix.store 512 s.mem t (index 0 v) e (Radix.slot 512 u i)) = some w
    rw [kept u k place inner.1 i hu]
    exact points
  · exact unchanged.used
  · exact unchanged.fresh
  · intro w hw other
    refine tables.tree.lookup_store key bottom hi tables.root (descends_pathOf hw) (index_lt 0 w) ?_
    exact Decidable.not_and_iff_or_not.mp other
  · exact outside
  · rfl
  · rfl

/-! ## The walkers -/

theorem vmmGetPhys_eq : vmmGetPhys p4 v s = some (physOf (entryOf p4 s.mem v) v) := by
  rw [vmmGetPhys, getPte_read tables uncovered, Option.bind_some]
  cases ends : Radix.walk 512 decode s.mem (pathOf v) p4 with
  | none =>
    rw [entryOf_of_none ends]
    rfl
  | some t =>
    have below := tables.low _ _ (tables.walk_key uncovered ends)
    rw [entryOf_of_walk ends]
    show (s.load p4 (tableAddr t + 8 * index 0 v)).map _ = _
    rw [tables.boot.load_table below (index_lt 0 v), Option.map_some]
    rfl

theorem pagingGetPhys_eq : pagingGetPhys p4 v s = some (physOf (entryOf p4 s.mem v) v) := by
  obtain ⟨inner₃, h₃, inner₂, h₂, inner₁, h₁, -⟩ := descends_pathOf uncovered
  rw [pagingGetPhys]
  show (s.load p4 (tableAddr p4 + 8 * index 3 v)).bind _ = _
  rw [tables.boot.load_table (tables.low _ _ tables.root) h₃, Option.bind_some]
  cases next₃ : decode (s.mem (Radix.slot 512 p4 (index 3 v))) with
  | none =>
    have ends : Radix.walk 512 decode s.mem (pathOf v) p4 = none := by
      rw [pathOf, Radix.walk, next₃, Option.bind_none]
    rw [decode_eq_none.mp next₃, entryOf_of_none ends]
    rfl
  | some t₂ =>
  have key₂ := tables.tree _ _ tables.root inner₃ _ h₃ _ next₃
  have low₂ := tables.low _ _ key₂
  rw [tables.link _ _ tables.root inner₃ _ h₃ _ next₃, tableOf_link low₂, present_link,
    Bool.not_true, if_neg Bool.false_ne_true, tables.boot.load_table low₂ h₂, Option.bind_some]
  cases next₂ : decode (s.mem (Radix.slot 512 t₂ (index 2 v))) with
  | none =>
    have ends : Radix.walk 512 decode s.mem (pathOf v) p4 = none := by
      rw [pathOf, Radix.walk, next₃, Option.bind_some, Radix.walk, next₂, Option.bind_none]
    rw [decode_eq_none.mp next₂, entryOf_of_none ends]
    rfl
  | some t₁ =>
  have key₁ := tables.tree _ _ key₂ inner₂ _ h₂ _ next₂
  have low₁ := tables.low _ _ key₁
  rw [tables.link _ _ key₂ inner₂ _ h₂ _ next₂, tableOf_link low₁, present_link, huge_link,
    Bool.not_true, if_neg Bool.false_ne_true, if_neg Bool.false_ne_true,
    tables.boot.load_table low₁ h₁, Option.bind_some]
  cases next₁ : decode (s.mem (Radix.slot 512 t₁ (index 1 v))) with
  | none =>
    have ends : Radix.walk 512 decode s.mem (pathOf v) p4 = none := by
      rw [pathOf, Radix.walk, next₃, Option.bind_some, Radix.walk, next₂, Option.bind_some,
        Radix.walk, next₁, Option.bind_none]
    rw [decode_eq_none.mp next₁, entryOf_of_none ends]
    rfl
  | some t₀ =>
  have low₀ := tables.low _ _ (tables.tree _ _ key₁ inner₁ _ h₁ _ next₁)
  have ends : Radix.walk 512 decode s.mem (pathOf v) p4 = some t₀ := by
    rw [pathOf, Radix.walk, next₃, Option.bind_some, Radix.walk, next₂, Option.bind_some,
      Radix.walk, next₁, Option.bind_some, Radix.walk]
  rw [tables.link _ _ key₁ inner₁ _ h₁ _ next₁, tableOf_link low₀, present_link, huge_link,
    Bool.not_true, if_neg Bool.false_ne_true, if_neg Bool.false_ne_true,
    tables.boot.load_table low₀ (index_lt 0 v), Option.map_some, entryOf_of_walk ends]
  rfl

theorem translate_eq (canonical : Canonical v)
    (ends : Radix.walk 512 decode s.mem (pathOf v) p4 = some t) :
    translate s.mem p4 v =
      if present (entryOf p4 s.mem v) then some (large 12 (entryOf p4 s.mem v) v) else none := by
  obtain ⟨inner₃, h₃, inner₂, h₂, inner₁, h₁, -⟩ := descends_pathOf uncovered
  obtain ⟨t₂, next₃, ends₂⟩ := Option.bind_eq_some_iff.mp ends
  obtain ⟨t₁, next₂, ends₁⟩ := Option.bind_eq_some_iff.mp ends₂
  obtain ⟨t₀, next₁, ends₀⟩ := Option.bind_eq_some_iff.mp ends₁
  cases ends₀
  have key₂ := tables.tree _ _ tables.root inner₃ _ h₃ _ next₃
  have key₁ := tables.tree _ _ key₂ inner₂ _ h₂ _ next₂
  have key₀ := tables.tree _ _ key₁ inner₁ _ h₁ _ next₁
  have low₂ := tables.low _ _ key₂
  have low₁ := tables.low _ _ key₁
  have low₀ := tables.low _ _ key₀
  rw [entryOf_of_walk ends]
  exact translate_page canonical (tables.link _ _ tables.root inner₃ _ h₃ _ next₃) (by omega)
    (tables.link _ _ key₂ inner₂ _ h₂ _ next₂) (by omega)
    (tables.link _ _ key₁ inner₁ _ h₁ _ next₁) (by omega)

theorem translate_none (ends : Radix.walk 512 decode s.mem (pathOf v) p4 = none) :
    translate s.mem p4 v = none := by
  obtain ⟨inner₃, h₃, inner₂, h₂, inner₁, h₁, -⟩ := descends_pathOf uncovered
  cases next₃ : decode (s.mem (Radix.slot 512 p4 (index 3 v))) with
  | none => exact translate_absent_third (decode_eq_none.mp next₃)
  | some t₂ =>
  have key₂ := tables.tree _ _ tables.root inner₃ _ h₃ _ next₃
  have low₂ := tables.low _ _ key₂
  have link₃ := tables.link _ _ tables.root inner₃ _ h₃ _ next₃
  cases next₂ : decode (s.mem (Radix.slot 512 t₂ (index 2 v))) with
  | none => exact translate_absent_second link₃ (by omega) (decode_eq_none.mp next₂)
  | some t₁ =>
  have key₁ := tables.tree _ _ key₂ inner₂ _ h₂ _ next₂
  have low₁ := tables.low _ _ key₁
  have link₂ := tables.link _ _ key₂ inner₂ _ h₂ _ next₂
  cases next₁ : decode (s.mem (Radix.slot 512 t₁ (index 1 v))) with
  | none =>
    exact translate_absent_first link₃ (by omega) link₂ (by omega) (decode_eq_none.mp next₁)
  | some t₀ =>
    rw [pathOf, Radix.walk, next₃, Option.bind_some, Radix.walk, next₂, Option.bind_some,
      Radix.walk, next₁] at ends
    cases ends

theorem translate_entry :
    translate s.mem p4 v =
      if Canonical v ∧ present (entryOf p4 s.mem v) then some (large 12 (entryOf p4 s.mem v) v)
      else none := by
  by_cases canonical : Canonical v
  · cases ends : Radix.walk 512 decode s.mem (pathOf v) p4 with
    | none =>
      rw [translate_none tables uncovered ends, entryOf_of_none ends]
      exact (if_neg fun h => Bool.false_ne_true h.2).symm
    | some t =>
      rw [translate_eq tables uncovered canonical ends]
      exact if_congr (and_iff_right canonical).symm rfl rfl
  · unfold Paging.translate
    rw [if_pos canonical, if_neg fun h => canonical h.1]

end

/-! ## Single pages -/

theorem present_pageEntry (phys flags : ℕ) : present (pageEntry phys flags) = true := by
  refine decide_eq_true ?_
  rw [Nat.mod_two_eq_one_iff_testBit_zero, pageEntry, Nat.testBit_or]
  exact Bool.or_true _

theorem pageEntry_div_or (phys flags : ℕ) :
    pageEntry phys flags / 4096 = phys / 4096 ||| flags / 4096 := by
  have high : phys / 4096 * 4096 / 4096 = phys / 4096 := Nat.mul_div_cancel _ (by decide)
  show pageEntry phys flags / 2 ^ 12 = _
  rw [pageEntry, ← Nat.shiftRight_eq_div_pow, Nat.shiftRight_or_distrib,
    Nat.shiftRight_or_distrib]
  simp only [Nat.shiftRight_eq_div_pow]
  show phys / 4096 * 4096 / 4096 ||| flags / 4096 ||| 0 = _
  rw [high, Nat.or_zero]

theorem pageEntry_div {flags : ℕ} (phys : ℕ) (plain : flags < 4096) :
    pageEntry phys flags / 4096 = phys / 4096 := by
  rw [pageEntry_div_or, Nat.div_eq_of_lt plain, Nat.or_zero]

theorem decode_pageEntry {flags : ℕ} (page : ℕ) (plain : flags < 4096) :
    decode (pageEntry (page * 4096) flags) = some page := by
  rw [decode, if_pos (present_pageEntry _ _), pageEntry_div _ plain,
    Nat.mul_div_cancel _ (by decide)]

theorem exists_walk (up : present (entryOf p4 s.mem v) = true) :
    ∃ t, Radix.walk 512 decode s.mem (pathOf v) p4 = some t := by
  cases ends : Radix.walk 512 decode s.mem (pathOf v) p4 with
  | none =>
    rw [entryOf_of_none ends] at up
    cases up
  | some t => exact ⟨t, rfl⟩

theorem vmmMap_spec (phys flags : ℕ) (tables : Tables p4 role s) (uncovered : ¬ Covered v)
    (pool : Pool (missing s.mem (pathOf v) p4) s.pmm) :
    ∃ done s' role', vmmMap p4 v phys flags s = some (done, s') ∧
      Extends p4 (SameSlot · v) role s role' s' ∧
      (done = true → entryOf p4 s'.mem v = pageEntry phys flags) := by
  obtain ⟨answer, s', role', pte, ext, found⟩ :=
    getPte_create (SameSlot · v) tables uncovered (r := 0) pool
  rw [vmmMap, pte, Option.bind_some]
  cases answer with
  | none => exact ⟨false, s', role', rfl, ext, nofun⟩
  | some address =>
    obtain ⟨-, t, rfl, ends⟩ := found address rfl
    obtain ⟨s'', stored, ext', -, entry, -⟩ :=
      store_entry ext.tables uncovered ends (pageEntry phys flags)
    exact ⟨true, s'', role', congrArg (Option.map _) stored, ext.trans ext', fun _ => entry⟩

theorem vmmUnmap_spec (tables : Tables p4 role s) (uncovered : ¬ Covered v) :
    ∃ s', vmmUnmap p4 v s = some s' ∧ Extends p4 (SameSlot · v) role s role s' := by
  rw [vmmUnmap, getPte_read tables uncovered, Option.bind_some]
  cases ends : Radix.walk 512 decode s.mem (pathOf v) p4 with
  | none => exact ⟨s, rfl, .refl tables⟩
  | some t =>
    obtain ⟨s', stored, ext, -⟩ := store_entry tables uncovered ends 0
    exact ⟨s', stored, ext⟩

/-! ## Ranges of pages -/

/-- The addresses of the pages that `vmm_alloc` hands out. -/
def pageAt (j : ℕ) : ℕ := virtBase + j * 4096

section PageAt

variable {j : ℕ} (inside : j < 2 ^ 18)

include inside

theorem index_pageAt :
    index 3 (pageAt j) = 511 ∧ index 2 (pageAt j) = 511 ∧ index 1 (pageAt j) = j / 512 ∧
      index 0 (pageAt j) = j % 512 := by
  have base : virtBase = 2 ^ 64 - 2 ^ 30 := by decide
  unfold index pageAt
  omega

theorem uncovered_pageAt : ¬ Covered (pageAt j) := by
  obtain ⟨-, second, -⟩ := index_pageAt inside
  intro covered
  have := covered.2
  omega

theorem keyOf_pageAt : keyOf (pageAt j) = [0, 511, j / 512] := by
  obtain ⟨third, second, first, -⟩ := index_pageAt inside
  rw [keyOf, pathOf, third, second, first]
  rfl

theorem sameSlot_pageAt {i : ℕ} (inside' : i < 2 ^ 18) (same : SameSlot (pageAt i) (pageAt j)) :
    i = j := by
  obtain ⟨key, last⟩ := same
  rw [keyOf_pageAt inside, keyOf_pageAt inside'] at key
  rw [(index_pageAt inside).2.2.2, (index_pageAt inside').2.2.2] at last
  have first : i / 512 = j / 512 := by simpa using key
  omega

theorem pageAt_mod : pageAt j % 2 ^ 64 = pageAt j := by
  have base : virtBase = 2 ^ 64 - 2 ^ 30 := by decide
  unfold pageAt
  omega

end PageAt

theorem missing_pageAt_succ {mem : ℕ → ℕ} {t j : ℕ} (inside : j + 1 < 2 ^ 18)
    (ends : Radix.walk 512 decode mem (pathOf (pageAt j)) p4 = some t) :
    missing mem (pathOf (pageAt (j + 1))) p4 + j / 512 ≤ (j + 1) / 512 := by
  obtain ⟨third, second, first, -⟩ := index_pageAt (Nat.lt_of_succ_lt inside)
  obtain ⟨third', second', first', -⟩ := index_pageAt inside
  rw [pathOf, third, second, first, Radix.walk] at ends
  obtain ⟨u₂, entry₃, ends⟩ := Option.bind_eq_some_iff.mp ends
  rw [Radix.walk] at ends
  obtain ⟨u₁, entry₂, ends⟩ := Option.bind_eq_some_iff.mp ends
  rw [Radix.walk] at ends
  obtain ⟨u₀, entry₁, -⟩ := Option.bind_eq_some_iff.mp ends
  rw [pathOf, third', second', first', missing, entry₃, Option.elim_some, missing, entry₂,
    Option.elim_some]
  rcases (by omega : (j + 1) / 512 = j / 512 ∨ (j + 1) / 512 = j / 512 + 1) with same | later
  · rw [same, missing, entry₁]
    exact (Nat.zero_add _).le
  · have := missing_le_length mem [(j + 1) / 512] u₁
    rw [List.length_singleton] at this
    omega

theorem pageAt_add (h j : ℕ) : pageAt h + j * 4096 = pageAt (h + j) := by
  unfold pageAt
  omega

theorem mapRange_spec (phys flags : ℕ) {n i h : ℕ} (tables : Tables p4 role s)
    (next : s.nextVirtAddr = pageAt h) (room : h + i + n ≤ 2 ^ 18)
    (pool : 0 < n → Pool (missing s.mem (pathOf (pageAt (h + i))) p4 +
      ((h + i + n - 1) / 512 - (h + i) / 512)) s.pmm) :
    ∃ done s' role', mapRange p4 phys flags n i s = some (done, s') ∧
      Extends p4 (fun w => ∃ j < n, SameSlot w (pageAt (h + i + j))) role s role' s' ∧
      (done = true → ∀ j < n,
        entryOf p4 s'.mem (pageAt (h + i + j)) = pageEntry (phys + (i + j) * 4096) flags) := by
  induction n generalizing i s role with
  | zero => exact ⟨true, s, role, rfl, .refl tables, fun _ j hj => absurd hj (Nat.not_lt_zero j)⟩
  | succ n ih =>
    have inside : h + i < 2 ^ 18 := by omega
    have uncovered := uncovered_pageAt inside
    obtain ⟨answer, s₁, role₁, pte, ext₁, found⟩ :=
      getPte_create (SameSlot · (pageAt (h + i))) tables uncovered (pool n.succ_pos)
    have here : ∀ w, SameSlot w (pageAt (h + i)) → ∃ j < n + 1, SameSlot w (pageAt (h + i + j)) :=
      fun w same => ⟨0, by omega, same⟩
    rw [mapRange, next, pageAt_add, pageAt_mod inside, pte, Option.bind_some]
    cases answer with
    | none => exact ⟨false, s₁, role₁, rfl, ext₁.mono here, nofun⟩
    | some address =>
      obtain ⟨left, t, rfl, ends⟩ := found address rfl
      obtain ⟨s₂, stored, ext₂, same, entry, -⟩ :=
        store_entry ext₁.tables uncovered ends (pageEntry (phys + i * 4096) flags)
      have more : 0 < n → Pool (missing s₂.mem (pathOf (pageAt (h + (i + 1)))) p4 +
          ((h + (i + 1) + n - 1) / 512 - (h + (i + 1)) / 512)) s₂.pmm := by
        intro pos
        have ends₂ := ext₂.walk ext₁.tables ext₁.tables.root (descends_pathOf uncovered) ends
        have := missing_pageAt_succ (by omega : h + i + 1 < 2 ^ 18) ends₂
        rw [same]
        exact left.mono (by rw [← Nat.add_assoc]; omega)
      obtain ⟨done, s₃, role₃, rest, ext₃, entries⟩ := @ih role₁ s₂ (i + 1) ext₂.tables
        (by rw [ext₂.next, ext₁.next]; exact next) (by omega) more
      have later : ∀ w, (∃ j < n, SameSlot w (pageAt (h + (i + 1) + j))) →
          ∃ j < n + 1, SameSlot w (pageAt (h + i + j)) := by
        rintro w ⟨j, hj, same⟩
        exact ⟨j + 1, by omega, by rwa [show h + i + (j + 1) = h + (i + 1) + j by omega]⟩
      refine ⟨done, s₃, role₃, ?_, ((ext₁.trans ext₂).mono here).trans (ext₃.mono later), ?_⟩
      · show (s₁.store p4 _ _).bind _ = _
        rw [stored, Option.bind_some]
        exact rest
      · intro finished j hj
        cases j with
        | zero =>
          have untouched : ¬ ∃ j < n, SameSlot (pageAt (h + i)) (pageAt (h + (i + 1) + j)) := by
            rintro ⟨j, hj, same⟩
            have := sameSlot_pageAt (by omega) inside same
            omega
          exact (ext₃.entries _ uncovered untouched).trans entry
        | succ j =>
          have := entries finished j (by omega)
          rwa [show h + (i + 1) + j = h + i + (j + 1) by omega,
            show i + 1 + j = i + (j + 1) by omega] at this

theorem Tables.takeRange (tables : Tables p4 role s) (page n : ℕ) :
    Tables p4 role { s with pmm := s.pmm.takeRange page n } :=
  tables.of_agree (fun _ _ _ _ _ _ => rfl) fun t k place => by
    rw [Pmm.takeRange_test, tables.used t k place, Bool.or_true]

section Data

variable {page n : ℕ} {touched : ℕ → Prop} {role' : ℕ → Option (List ℕ)} {s' : Vmm}
  (ext : Extends p4 touched role { s with pmm := s.pmm.takeRange page n } role' s')

include ext

theorem Extends.data (tables : Tables p4 role s)
    (free : ∀ q, Pmm.InRange page n q → s.pmm.bitmapTest q = false) :
    ∀ q, Pmm.InRange page n q → role' q = none := by
  intro q hq
  cases place : role' q with
  | none => rfl
  | some k =>
    have := ext.fresh q k (tables.role_of_free (free q hq)) place
    rw [Pmm.takeRange_test, decide_eq_true hq, Bool.true_or] at this
    cases this

theorem Extends.fresh_of_taken : ∀ t k, role t = none → role' t = some k →
    s.pmm.bitmapTest t = false := by
  intro t k none place
  have := ext.fresh t k none place
  rw [Pmm.takeRange_test, Bool.or_eq_false_iff] at this
  exact this.2

theorem Extends.used_of_taken : ∀ q, s.pmm.bitmapTest q = true → s'.pmm.bitmapTest q = true := by
  intro q hq
  refine (ext.used q).mpr (.inl ?_)
  rw [Pmm.takeRange_test, hq, Bool.or_true]

theorem Extends.used_data : ∀ q, Pmm.InRange page n q → s'.pmm.bitmapTest q = true := by
  intro q hq
  refine (ext.used q).mpr (.inl ?_)
  rw [Pmm.takeRange_test, decide_eq_true hq, Bool.true_or]

end Data

theorem Tables.freePages {page n : ℕ} (tables : Tables p4 role s) (inside : page + n ≤ 2 ^ 20)
    (data : ∀ q, Pmm.InRange page n q → role q = none) :
    Tables p4 role { s with pmm := s.pmm.freePages (page * pageSize) n } := by
  refine tables.of_agree (fun _ _ _ _ _ _ => rfl) fun t k place => ?_
  refine (Pmm.freePages_test_of_not_mem inside fun range => ?_).trans (tables.used t k place)
  rw [data t range] at place
  cases place

/-- What `vmm_alloc` does: new tables, and with an answer `n` new pages, mapped and used. -/
structure Allocates (p4 n flags h : ℕ) (role : ℕ → Option (List ℕ)) (s : Vmm) (answer : Option ℕ)
    (role' : ℕ → Option (List ℕ)) (s' : Vmm) : Prop where
  tables : Tables p4 role' s'
  roles : ∀ t k, role t = some k → role' t = some k
  total : s'.pmm.totalPages = s.pmm.totalPages
  used : ∀ q, s.pmm.bitmapTest q = true → s'.pmm.bitmapTest q = true
  fresh : ∀ t k, role t = none → role' t = some k → s.pmm.bitmapTest t = false
  entries : ∀ w, ¬ Covered w → (∀ j < n, ¬ SameSlot w (pageAt (h + j))) →
    entryOf p4 s'.mem w = entryOf p4 s.mem w
  failed : answer = none → s'.nextVirtAddr = s.nextVirtAddr
  refused : (s.pmm.allocPages n).1 = none → answer = none ∧ role' = role ∧ s' = s
  mapped : ∀ v, answer = some v → v = pageAt h ∧ 0 < n ∧ h + n ≤ 2 ^ 18 ∧
    s'.nextVirtAddr = pageAt (h + n) % 2 ^ 64 ∧
    ∃ page, ∀ j < n, page + j < s.pmm.totalPages ∧ s.pmm.bitmapTest (page + j) = false ∧
      s'.pmm.bitmapTest (page + j) = true ∧ role' (page + j) = none ∧
      entryOf p4 s'.mem (pageAt (h + j)) = pageEntry ((page + j) * 4096) flags

/-- The most tables that `n` pages from `next_virt_addr` on can need: those that are missing for the
first page, and one for every two megabytes that begin behind it. -/
def tablesFor (p4 n : ℕ) (s : Vmm) : ℕ :=
  missing s.mem (pathOf s.nextVirtAddr) p4 +
    ((s.nextVirtAddr + n * 4096 - 1) / 2 ^ 21 - s.nextVirtAddr / 2 ^ 21)

theorem tablesFor_eq {n h : ℕ} (pos : 0 < n) (next : s.nextVirtAddr = pageAt h) :
    tablesFor p4 n s =
      missing s.mem (pathOf (pageAt h)) p4 + ((h + n - 1) / 512 - h / 512) := by
  have base : virtBase = 2 ^ 64 - 2 ^ 30 := by decide
  rw [tablesFor, next]
  congr 1
  unfold pageAt
  omega

theorem vmmAlloc_spec (flags : ℕ) {n h : ℕ} (tables : Tables p4 role s)
    (total : s.pmm.totalPages ≤ 2 ^ 20) (pool : Pool (tablesFor p4 n s) (s.pmm.allocPages n).2)
    (next : s.nextVirtAddr = pageAt h) (room : h + n ≤ 2 ^ 18 ∨ (s.pmm.allocPages n).1 = none) :
    ∃ answer s' role', vmmAlloc p4 n flags s = some (answer, s') ∧
      Allocates p4 n flags h role s answer role' s' := by
  rw [vmmAlloc]
  match alloc : s.pmm.allocPages n with
  | (none, pmm) =>
    obtain rfl := Pmm.allocPages_eq_none alloc
    exact ⟨none, s, role, rfl, tables, fun _ _ h => h, rfl, fun _ h => h,
      (Extends.refl tables : Extends p4 (fun _ => True) role s role s).fresh, fun _ _ _ => rfl,
      fun _ => rfl, fun _ => ⟨rfl, rfl, rfl⟩, nofun⟩
  | (some phys, pmm) =>
    have granted : (s.pmm.allocPages n).1 ≠ none := by
      rw [alloc]
      exact Option.some_ne_none _
    have room : h + n ≤ 2 ^ 18 := room.resolve_right granted
    obtain ⟨page, pos, inside, free, rfl, rfl⟩ := Pmm.allocPages_eq_some alloc
    rw [alloc, tablesFor_eq pos next] at pool
    obtain ⟨done, s₂, role', mapped, ext, entries⟩ :=
      @mapRange_spec p4 role _ (page * pageSize) flags n 0 h (tables.takeRange page n) next room
        fun _ => pool
    simp only [Nat.add_zero, Nat.zero_add] at ext entries
    have sameTotal : s₂.pmm.totalPages = s.pmm.totalPages :=
      ext.total.trans (Pmm.takeRange_totalPages s.pmm page n)
    have used := ext.used_of_taken
    have data := ext.data tables free
    have fresh := ext.fresh_of_taken
    have others : ∀ w, ¬ Covered w → (∀ j < n, ¬ SameSlot w (pageAt (h + j))) →
        entryOf p4 s₂.mem w = entryOf p4 s.mem w := by
      intro w hw apart
      refine ext.entries w hw ?_
      rintro ⟨j, hj, same⟩
      exact apart j hj same
    dsimp only
    rw [mapped, Option.map_some]
    cases done with
    | false =>
      have unused : ∀ q, s.pmm.bitmapTest q = true → ¬ Pmm.InRange page n q := by
        intro q hq range
        rw [free q range] at hq
        cases hq
      refine ⟨none, _, role', rfl, ?_, ext.roles, ?_, ?_, fresh, others, fun _ => ext.next,
        fun none => absurd none granted, nofun⟩
      · exact ext.tables.freePages (by omega) data
      · exact (Pmm.freePagesFrom_totalPages ..).trans sameTotal
      · exact fun q hq =>
          (Pmm.freePages_test_of_not_mem (by omega) (unused q hq)).trans (used q hq)
    | true =>
      refine ⟨some s₂.nextVirtAddr, _, role', rfl, ?_, ext.roles, sameTotal, used, fresh, others,
        nofun, fun none => absurd none granted, ?_⟩
      · exact ext.tables.of_agree (fun _ _ _ _ _ _ => rfl) ext.tables.used
      · rintro v ⟨⟩
        have start : s₂.nextVirtAddr = pageAt h := ext.next.trans next
        refine ⟨start, pos, room, ?_, page, fun j hj => ?_⟩
        · show (s₂.nextVirtAddr + n * 4096) % 2 ^ 64 = _
          rw [start, pageAt_add]
        have range : Pmm.InRange page n (page + j) := ⟨by omega, by omega⟩
        refine ⟨by omega, free _ range, ext.used_data _ range, data _ range, ?_⟩
        rw [Nat.add_mul]
        exact entries rfl j hj

def freedAt (virt j : ℕ) : ℕ := (virt + j * 4096) % 2 ^ 64

/-- What `vmm_free` does to `n` pages from the `i`-th on: their entries go, and so do the pages they
map. -/
structure Frees (p4 virt n i : ℕ) (role : ℕ → Option (List ℕ)) (s s' : Vmm) : Prop where
  tables : Tables p4 role s'
  total : s'.pmm.totalPages = s.pmm.totalPages
  next : s'.nextVirtAddr = s.nextVirtAddr
  entries : ∀ w, ¬ Covered w → (∀ j, i ≤ j → j < i + n → ¬ SameSlot w (freedAt virt j)) →
    entryOf p4 s'.mem w = entryOf p4 s.mem w
  kept : ∀ q, (∀ j, i ≤ j → j < i + n → decode (entryOf p4 s.mem (freedAt virt j)) ≠ some q) →
    s'.pmm.bitmapTest q = s.pmm.bitmapTest q

/-- What is left of the range: no entry, and no page in use that one of its entries mapped. -/
structure Clears (p4 virt n i : ℕ) (role : ℕ → Option (List ℕ)) (s s' : Vmm) : Prop
    extends Frees p4 virt n i role s s' where
  upper : ∀ u k, role u = some k → k.length < 3 → ∀ c < 512,
    s'.mem (Radix.slot 512 u c) = s.mem (Radix.slot 512 u c)
  fewer : ∀ w, ¬ Covered w → entryOf p4 s'.mem w = 0 ∨ entryOf p4 s'.mem w = entryOf p4 s.mem w
  gone : ∀ j, i ≤ j → j < i + n → present (entryOf p4 s'.mem (freedAt virt j)) = false
  used : ∀ q, s'.pmm.bitmapTest q = true → s.pmm.bitmapTest q = true
  freed : ∀ j, i ≤ j → j < i + n → ∀ q, decode (entryOf p4 s.mem (freedAt virt j)) = some q →
    0 < q → q < s.pmm.totalPages → s'.pmm.bitmapTest q = false

namespace Clears

variable {virt n i : ℕ}

theorem skip (tables : Tables p4 role s)
    (absent : decode (entryOf p4 s.mem (freedAt virt i)) = none) : Clears p4 virt 1 i role s s where
  tables := tables
  total := rfl
  next := rfl
  entries _ _ _ := rfl
  kept _ _ := rfl
  upper _ _ _ _ _ _ := rfl
  fewer _ _ := .inr rfl
  gone j low high := by
    obtain rfl : j = i := by omega
    exact decode_eq_none.mp absent
  used _ up := up
  freed j low high q points := by
    obtain rfl : j = i := by omega
    rw [absent] at points
    cases points

theorem append {s₁ s' : Vmm} (uncovered : ∀ j, i ≤ j → j < i + (n + 1) → ¬ Covered (freedAt virt j))
    (tables : Tables p4 role s) (first : Clears p4 virt 1 i role s s₁)
    (rest : Clears p4 virt n (i + 1) role s₁ s') : Clears p4 virt (n + 1) i role s s' where
  tables := rest.tables
  total := rest.total.trans first.total
  next := rest.next.trans first.next
  entries w hw apart := by
    refine (rest.entries w hw fun j low high => apart j (by omega) (by omega)).trans ?_
    exact first.entries w hw fun j low high => apart j (by omega) (by omega)
  kept q apart := by
    refine (rest.kept q fun j low high found => ?_).trans
      (first.kept q fun j low high => apart j (by omega) (by omega))
    obtain gone | same := first.fewer _ (uncovered j (by omega) (by omega))
    · rw [gone] at found
      cases found
    · exact apart j (by omega) (by omega) (same ▸ found)
  upper u k place short c hc :=
    (rest.upper u k place short c hc).trans (first.upper u k place short c hc)
  fewer w hw := by
    obtain gone | same := rest.fewer w hw
    · exact .inl gone
    · rw [same]
      exact first.fewer w hw
  gone j low high := by
    by_cases here : j = i
    · subst here
      obtain gone | same := rest.fewer _ (uncovered j low (by omega))
      · rw [gone]
        rfl
      · rw [same]
        exact first.gone j le_rfl (by omega)
    · exact rest.gone j (by omega) (by omega)
  used q up := first.used q (rest.used q up)
  freed j low high q points pos inside := by
    have mapped_here : decode (entryOf p4 s.mem (freedAt virt i)) = some q →
        s'.pmm.bitmapTest q = false := by
      intro points
      have free := first.freed i le_rfl (by omega) q points pos inside
      exact Bool.eq_false_of_not_eq_true fun up => by
        rw [rest.used q up] at free
        cases free
    by_cases same : SameSlot (freedAt virt j) (freedAt virt i)
    · rw [entryOf_of_sameSlot tables (uncovered i le_rfl (by omega)) same] at points
      exact mapped_here points
    · have other : j ≠ i := by
        rintro rfl
        exact same ⟨rfl, rfl⟩
      refine rest.freed j (by omega) (by omega) q ?_ pos (by rw [first.total]; exact inside)
      rw [first.entries _ (uncovered j low high) fun j' low' high' => ?_]
      · exact points
      · obtain rfl : j' = i := by omega
        exact same

end Clears

variable {virt i n : ℕ}

theorem freeRange_round (n : ℕ) (tables : Tables p4 role s) (uncovered : ¬ Covered (freedAt virt i))
    (noTable : ∀ u, decode (entryOf p4 s.mem (freedAt virt i)) = some u → role u = none) :
    ∃ s₁, freeRange p4 virt (n + 1) i s = freeRange p4 virt n (i + 1) s₁ ∧
      Clears p4 virt 1 i role s s₁ := by
  have only : ∀ {j : ℕ}, i ≤ j → j < i + 1 → j = i := fun low high => by omega
  rw [freeRange, ← freedAt, getPte_read tables uncovered, Option.bind_some]
  cases ends : Radix.walk 512 decode s.mem (pathOf (freedAt virt i)) p4 with
  | none => exact ⟨s, rfl, .skip tables (by rw [entryOf_of_none ends]; rfl)⟩
  | some t =>
    have low := tables.low _ _ (tables.walk_key uncovered ends)
    have entry := entryOf_of_walk ends
    dsimp only [Option.map_some]
    rw [tables.boot.load_table low (index_lt 0 _), Option.bind_some, ← entry]
    cases up : present (entryOf p4 s.mem (freedAt virt i)) with
    | false => exact ⟨s, rfl, .skip tables (decode_eq_none.mpr up)⟩
    | true =>
      have points : decode (entryOf p4 s.mem (freedAt virt i)) =
          some (entryOf p4 s.mem (freedAt virt i) / 4096) := if_pos up
      have other := noTable _ points
      generalize entryOf p4 s.mem (freedAt virt i) / 4096 = u at points other ⊢
      have address : u * 4096 / pageSize = u := by
        unfold pageSize
        omega
      have test := fun q => Pmm.free_test s.pmm (u * 4096) q
      rw [address] at test
      have freed : ∀ q, q ≠ u → (s.pmm.free (u * 4096)).bitmapTest q = s.pmm.bitmapTest q :=
        fun q ne => (test q).trans (if_neg fun h => ne h.2.2)
      have tables₀ : Tables p4 role { s with pmm := s.pmm.free (u * 4096) } :=
        tables.of_agree (fun _ _ _ _ _ _ => rfl) fun v k place =>
          (freed v (Tables.ne_of_fresh place other)).trans (tables.used v k place)
      obtain ⟨s₁, stored, ext, pmm, empty, entries, upper⟩ := store_entry tables₀ uncovered ends 0
      rw [if_pos rfl, stored, Option.bind_some]
      refine ⟨s₁, rfl, ⟨⟨ext.tables, ext.total.trans (Pmm.free_totalPages _ _), ext.next, ?_, ?_⟩,
        upper, entries, ?_, ?_, ?_⟩⟩
      · exact fun w hw apart => ext.entries w hw (apart i le_rfl (by omega))
      · intro q apart
        rw [pmm]
        refine freed q ?_
        rintro rfl
        exact apart i le_rfl (by omega) points
      · intro j low high
        rw [only low high, empty]
        rfl
      · intro q used
        rw [pmm, test] at used
        split_ifs at used
        exact used
      · intro j low high q points' pos inside
        rw [only low high, points] at points'
        cases points'
        rw [pmm, test]
        exact if_pos ⟨by omega, inside, rfl⟩

theorem freeRange_clears {virt n i : ℕ} (tables : Tables p4 role s)
    (uncovered : ∀ j, i ≤ j → j < i + n → ¬ Covered (freedAt virt j))
    (noTable : ∀ j, i ≤ j → j < i + n → ∀ u, decode (entryOf p4 s.mem (freedAt virt j)) = some u →
      role u = none) :
    ∃ s', freeRange p4 virt n i s = some s' ∧ Clears p4 virt n i role s s' := by
  induction n generalizing i s with
  | zero =>
    refine ⟨s, rfl, ⟨⟨tables, rfl, rfl, fun _ _ _ => rfl, fun _ _ => rfl⟩, fun _ _ _ _ _ _ => rfl,
      fun _ _ => .inr rfl, ?_, fun _ up => up, ?_⟩⟩
    · intro j low high
      omega
    · intro j low high
      omega
  | succ n ih =>
    obtain ⟨s₁, round, first⟩ := freeRange_round n tables (uncovered i le_rfl (by omega))
      (noTable i le_rfl (by omega))
    -- the later entries are the old ones or gone
    have later : ∀ j, i + 1 ≤ j → j < i + 1 + n → ∀ u,
        decode (entryOf p4 s₁.mem (freedAt virt j)) = some u → role u = none := by
      intro j low high u points
      obtain gone | same := first.fewer _ (uncovered j (by omega) (by omega))
      · rw [gone] at points
        cases points
      · exact noTable j (by omega) (by omega) u (same ▸ points)
    obtain ⟨s', rest, cleared⟩ :=
      ih first.tables (fun j low high => uncovered j (by omega) (by omega)) later
    exact ⟨s', round.trans rest, first.append uncovered tables cleared⟩

theorem freeRange_spec (tables : Tables p4 role s)
    (uncovered : ∀ j, i ≤ j → j < i + n → ¬ Covered (freedAt virt j))
    (noTable : ∀ j, i ≤ j → j < i + n → ∀ u, decode (entryOf p4 s.mem (freedAt virt j)) = some u →
      role u = none) : ∃ s', freeRange p4 virt n i s = some s' ∧ Frees p4 virt n i role s s' := by
  obtain ⟨s', call, cleared⟩ := freeRange_clears tables uncovered noTable
  exact ⟨s', call, cleared.toFrees⟩

theorem vmmFree_spec (tables : Tables p4 role s) (uncovered : ∀ j < n, ¬ Covered (freedAt virt j))
    (noTable : ∀ j < n, ∀ u, decode (entryOf p4 s.mem (freedAt virt j)) = some u → role u = none) :
    ∃ s', vmmFree p4 virt n s = some s' ∧ Frees p4 virt n 0 role s s' :=
  freeRange_spec tables (fun j _ hj => uncovered j (by omega)) fun j _ hj => noTable j (by omega)

end Thuban.Mm

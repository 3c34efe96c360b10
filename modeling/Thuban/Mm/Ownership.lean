import Thuban.Mm.Pmm
import Thuban.Lib.Run

/-!
# Physical pages have one owner

The clients of the physical memory manager hold the pages that were handed out and not freed since.
In every run in which only held pages are freed, the bitmap, the counter and the holdings agree
(`pages_have_one_owner`).
-/

namespace Thuban.Mm

open Lib Pmm

inductive PmmCall
  | alloc
  | allocPages (count : ℕ)
  | free (addr : ℕ)
  | freePages (addr count : ℕ)

/-- The pages that a call hands out: a range of `count` pages from an address on, or nothing. -/
def grant (answer : Option ℕ) (count : ℕ) : List (List ℕ) :=
  match answer with
  | none => []
  | some addr => [List.range' (addr / pageSize) count]

/-- Take `n` pages from `page` on away from all ranges. -/
def drop (page n : ℕ) (out : List (List ℕ)) : List (List ℕ) :=
  out.map (List.filter fun p => ¬ InRange page n p)

/-- One call, with the pages held by the clients: for every range handed out, the pages of it that
have not been freed.  Only held pages are freed. -/
inductive Owner : Pmm × List (List ℕ) → PmmCall → Pmm × List (List ℕ) → Prop
  | alloc {s : Pmm} {out : List (List ℕ)} :
      Owner (s, out) .alloc (s.alloc.2, grant s.alloc.1 1 ++ out)
  | allocPages {s : Pmm} {out : List (List ℕ)} {count : ℕ} :
      Owner (s, out) (.allocPages count)
        ((s.allocPages count).2, grant (s.allocPages count).1 count ++ out)
  | free {s : Pmm} {out : List (List ℕ)} {addr : ℕ} (held : addr / pageSize ∈ out.flatten) :
      Owner (s, out) (.free addr) (s.free addr, drop (addr / pageSize) 1 out)
  | freePages {s : Pmm} {out : List (List ℕ)} {addr count : ℕ}
      (held : ∀ p, InRange (addr / pageSize) count p → p ∈ out.flatten) :
      Owner (s, out) (.freePages addr count)
        (s.freePages addr count, drop (addr / pageSize) count out)

/-- The bitmap, the counter and the holdings agree. -/
structure OneOwner (reserved : ℕ) (s : Pmm) (out : List (List ℕ)) : Prop where
  used : s.usedPages = ((Finset.range s.totalPages).filter (s.bitmapTest ·)).card
  used_le : s.usedPages ≤ s.totalPages
  disjoint : out.Pairwise List.Disjoint
  inside : ∀ range ∈ out, ∀ p ∈ range, reserved ≤ p ∧ p < s.totalPages
  bits : ∀ p < s.totalPages, reserved ≤ p →
    (s.bitmapTest p = true ↔ ∃ range ∈ out, p ∈ range)

/-- What every state of a run satisfies. -/
structure Owners (reserved : ℕ) (s : Pmm) (out : List (List ℕ)) : Prop where
  low : 0 < reserved
  reserved_le : reserved ≤ s.totalPages
  total_le : s.totalPages ≤ 2 ^ 20
  bits : ∀ p < s.totalPages, (s.bitmapTest p = true ↔ p < reserved ∨ p ∈ out.flatten)
  nodup : out.flatten.Nodup
  inside : ∀ p ∈ out.flatten, reserved ≤ p ∧ p < s.totalPages
  used : s.usedPages = reserved + out.flatten.length

namespace Owners

variable {reserved : ℕ} {s : Pmm} {out : List (List ℕ)} (owners : Owners reserved s out)

include owners

theorem card_eq :
    s.usedPages = ((Finset.range s.totalPages).filter (s.bitmapTest ·)).card := by
  have split : (Finset.range s.totalPages).filter (s.bitmapTest ·) =
      Finset.range reserved ∪ out.flatten.toFinset := by
    ext p
    simp only [Finset.mem_filter, Finset.mem_range, Finset.mem_union, List.mem_toFinset]
    constructor
    · rintro ⟨inside, used⟩
      exact (owners.bits p inside).mp used
    · intro member
      have inside : p < s.totalPages := by
        rcases member with low | held
        · exact lt_of_lt_of_le low owners.reserved_le
        · exact (owners.inside p held).2
      exact ⟨inside, (owners.bits p inside).mpr member⟩
  have apart : Disjoint (Finset.range reserved) out.flatten.toFinset := by
    rw [Finset.disjoint_left]
    intro p low held
    have := (owners.inside p (List.mem_toFinset.mp held)).1
    have := Finset.mem_range.mp low
    omega
  rw [split, Finset.card_union_of_disjoint apart, Finset.card_range,
    List.toFinset_card_of_nodup owners.nodup]
  exact owners.used

theorem used_le : s.usedPages ≤ s.totalPages := by
  rw [owners.card_eq]
  exact (Finset.card_filter_le _ _).trans_eq (Finset.card_range _)

theorem oneOwner : OneOwner reserved s out where
  used := owners.card_eq
  used_le := owners.used_le
  disjoint := (List.nodup_flatten.mp owners.nodup).2
  inside := fun range hr p hp => owners.inside p (List.mem_flatten.mpr ⟨range, hr, hp⟩)
  bits := by
    intro p inside above
    rw [owners.bits p inside, List.mem_flatten]
    exact or_iff_right (by omega)

theorem free_page {p : ℕ} (inside : p < s.totalPages) (free : s.bitmapTest p = false) :
    reserved ≤ p ∧ p ∉ out.flatten := by
  have unused : ¬ (p < reserved ∨ p ∈ out.flatten) := by
    rw [← owners.bits p inside, free]
    simp
  exact ⟨by omega, fun held => unused (.inr held)⟩

theorem takeRange {page n : ℕ} (inside : page + n ≤ s.totalPages)
    (free : ∀ p, InRange page n p → s.bitmapTest p = false) :
    Owners reserved (s.takeRange page n) (List.range' page n :: out) := by
  have total := owners.total_le
  have below := owners.used_le
  obtain ⟨bits, same, used⟩ := takeRange_spec s page n (by omega)
  have fresh : ∀ p, InRange page n p → reserved ≤ p ∧ p < s.totalPages ∧ p ∉ out.flatten := by
    intro p hp
    have high : p < s.totalPages := lt_of_lt_of_le hp.2 inside
    exact ⟨(owners.free_page high (free p hp)).1, high, (owners.free_page high (free p hp)).2⟩
  have range : ∀ p, p ∈ List.range' page n ↔ InRange page n p := fun p => List.mem_range'_1
  refine ⟨owners.low, ?_, ?_, ?_, ?_, ?_, ?_⟩
  · rw [same]
    exact owners.reserved_le
  · rw [same]
    exact total
  · intro p hp
    rw [same] at hp
    rw [bits, Bool.or_eq_true, decide_eq_true_iff, owners.bits p hp, List.flatten_cons,
      List.mem_append, range]
    tauto
  · rw [List.flatten_cons, List.nodup_append']
    exact ⟨List.nodup_range', owners.nodup, fun p hp held => (fresh p ((range p).mp hp)).2.2 held⟩
  · intro p hp
    rw [same]
    rcases List.mem_append.mp (List.flatten_cons ▸ hp) with new | old
    · exact ⟨(fresh p ((range p).mp new)).1, (fresh p ((range p).mp new)).2.1⟩
    · exact owners.inside p old
  · rw [used, owners.used, List.flatten_cons, List.length_append, List.length_range']
    omega

theorem drop {s' : Pmm} {page n : ℕ} (held : ∀ p, InRange page n p → p ∈ out.flatten)
    (bits : ∀ p, s'.bitmapTest p = (decide (¬ InRange page n p) && s.bitmapTest p))
    (same : s'.totalPages = s.totalPages) (used : s'.usedPages = s.usedPages - n) :
    Owners reserved s' (Mm.drop page n out) := by
  have rest : (Mm.drop page n out).flatten = out.flatten.filter fun p => ¬ InRange page n p :=
    (List.filter_flatten).symm
  have gone : (out.flatten.filter fun p => InRange page n p).length = n := by
    have perm : (out.flatten.filter fun p => InRange page n p).Perm (List.range' page n) := by
      rw [List.perm_ext_iff_of_nodup (owners.nodup.filter _) List.nodup_range']
      intro p
      rw [List.mem_filter, decide_eq_true_iff, List.mem_range'_1]
      exact ⟨fun h => h.2, fun h => ⟨held p h, h⟩⟩
    rw [perm.length_eq, List.length_range']
  refine ⟨owners.low, ?_, ?_, ?_, ?_, ?_, ?_⟩
  · rw [same]
    exact owners.reserved_le
  · rw [same]
    exact owners.total_le
  · intro p hp
    rw [same] at hp
    rw [bits, Bool.and_eq_true, decide_eq_true_iff, owners.bits p hp, rest, List.mem_filter,
      decide_eq_true_iff]
    constructor
    · rintro ⟨outside, low | member⟩
      · exact .inl low
      · exact .inr ⟨member, outside⟩
    · rintro (low | ⟨member, outside⟩)
      · refine ⟨fun inside => ?_, .inl low⟩
        have := (owners.inside p (held p inside)).1
        omega
      · exact ⟨outside, .inr member⟩
  · rw [rest]
    exact owners.nodup.filter _
  · intro p hp
    rw [rest] at hp
    rw [same]
    exact owners.inside p (List.mem_filter.mp hp).1
  · have count := List.length_eq_length_filter_add (l := out.flatten) fun p => InRange page n p
    have same' : (fun p => !decide (InRange page n p)) = fun p => decide (¬ InRange page n p) := by
      funext p
      rw [decide_not]
    rw [gone, same', ← rest] at count
    have total := owners.used
    rw [used, total]
    omega

theorem freePagesFrom {addr n : ℕ} (held : ∀ p, InRange (addr / pageSize) n p → p ∈ out.flatten) :
    Owners reserved (s.freePages addr n) (Mm.drop (addr / pageSize) n out) := by
  have below := owners.used_le
  have total := owners.total_le
  by_cases none : n = 0
  · subst none
    refine owners.drop held (fun p => ?_) rfl rfl
    have outside : ¬ InRange (addr / pageSize) 0 p := by unfold InRange; omega
    simp [Pmm.freePages, Pmm.freePagesFrom, outside]
  have first := owners.inside _ (held (addr / pageSize) ⟨le_rfl, by omega⟩)
  have low := owners.low
  have enough : n ≤ s.usedPages := by
    have sub : List.range' (addr / pageSize) n ⊆ out.flatten :=
      fun p hp => held p (List.mem_range'_1.mp hp)
    have := (List.subperm_of_subset List.nodup_range' sub).length_le
    rw [List.length_range'] at this
    have := owners.used
    omega
  obtain ⟨bits, same, used⟩ := @freePagesFrom_spec s n addr 0
    (by simp only [pageSize] at first ⊢; omega) total (by
      intro p hp
      have member := held p hp
      exact ⟨(owners.inside p member).2, (owners.bits p (owners.inside p member).2).mpr (.inr member)⟩)
    enough (by omega)
  exact owners.drop held bits same used

end Owners

variable {reserved : ℕ} {s s' : Pmm} {out : List (List ℕ)}

theorem allocPages_owners (owners : Owners reserved s out) (count : ℕ) :
    Owners reserved (s.allocPages count).2 (grant (s.allocPages count).1 count ++ out) := by
  match done : s.allocPages count with
  | (none, s') =>
    obtain rfl := allocPages_eq_none done
    exact owners
  | (some addr, s') =>
    obtain ⟨page, -, inside, free, rfl, rfl⟩ := allocPages_eq_some done
    show Owners reserved (s.takeRange page count)
      ([List.range' (page * pageSize / pageSize) count] ++ out)
    rw [Nat.mul_div_cancel _ (by decide)]
    exact owners.takeRange inside free

theorem owner_step {t t' : Pmm × List (List ℕ)} {c : PmmCall} (owners : Owners reserved t.1 t.2)
    (step : Owner t c t') : Owners reserved t'.1 t'.2 := by
  cases step with
  | alloc => exact allocPages_owners owners 1
  | allocPages => exact allocPages_owners owners _
  | @free s out addr held =>
    change Owners reserved s out at owners
    have inside := owners.inside _ held
    have bit := (owners.bits _ inside.2).mpr (.inr held)
    have low := owners.low
    have below := owners.used_le
    have total := owners.total_le
    have used := owners.used
    obtain ⟨bits, same, rest⟩ := free_spec (s := s) rfl (by omega) inside.2 bit (by omega) (by omega)
    refine owners.drop (n := 1) ?_ (fun p => ?_) same rest
    · intro p hp
      obtain rfl : p = addr / pageSize := by unfold InRange at hp; omega
      exact held
    · rw [bits]
      congr 2
      simp only [InRange, eq_iff_iff]
      omega
  | freePages held => exact owners.freePagesFrom held

theorem init_owners {memSize kernelEnd : ℕ}
    (covers : kernelPages kernelEnd ≤ (init memSize kernelEnd).totalPages) :
    Owners (kernelPages kernelEnd) (init memSize kernelEnd) [] := by
  have bound : kernelPages kernelEnd < 2 ^ 64 := by
    unfold kernelPages
    dsimp only
    have := Nat.mod_lt (((kernelEnd + (2 ^ 64 - kernelVirtBase)) % 2 ^ 64 + pageSize - 1))
      (by decide : 0 < 2 ^ 64)
    have := Nat.div_le_self
      (((kernelEnd + (2 ^ 64 - kernelVirtBase)) % 2 ^ 64 + pageSize - 1) % 2 ^ 64) pageSize
    omega
  obtain ⟨bits, total, used⟩ := takeRange_spec
    { bitmap := fun _ => 0, totalPages := min (memSize / pageSize) (bitmapSize * 32), usedPages := 0 }
    0 (kernelPages kernelEnd) (by simpa using bound)
  refine ⟨?_, covers, ?_, ?_, List.nodup_nil, by simp, ?_⟩
  · exact lt_of_lt_of_le (by decide) (le_max_left 256 _)
  · exact total.trans_le (min_le_right _ _)
  · intro p _
    have empty : Bitmap.test (fun _ => (0 : BitVec 32)) p = false := by simp [Bitmap.test]
    show (takeRange _ 0 (kernelPages kernelEnd)).bitmapTest p = true ↔ _
    rw [bits, bitmapTest, empty]
    simp [InRange]
  · exact used.trans (by simp)

/-- Freeing what has just been handed out restores the state. -/
theorem free_takeRange (owners : Owners reserved s out) {page n : ℕ} (inside : page + n ≤ s.totalPages)
    (some : 0 < n) (free : ∀ p, InRange page n p → s.bitmapTest p = false) :
    (s.takeRange page n).freePages (page * pageSize) n = s := by
  have low := owners.low
  have total := owners.total_le
  have below := owners.used_le
  have above := (owners.free_page (p := page) (by omega) (free page ⟨le_rfl, by omega⟩)).1
  have start : page * pageSize / pageSize = page := Nat.mul_div_cancel _ (by decide)
  obtain ⟨bits, same, used⟩ := takeRange_spec s page n (by omega)
  obtain ⟨bits', same', used'⟩ := @freePagesFrom_spec (s.takeRange page n) n
    (page * pageSize) 0 (by simp only [pageSize]; omega) (by omega) (by
      intro p hp
      rw [start, Nat.add_zero] at hp
      have := hp.2
      rw [same, bits]
      exact ⟨by omega, by simp [hp]⟩) (by omega) (by omega)
  have bitmap : ((s.takeRange page n).freePages (page * pageSize) n).bitmap = s.bitmap := by
    refine Bitmap.ext_test (by decide) fun p => ?_
    have after := bits' p
    rw [start, bits] at after
    refine after.trans ?_
    show (decide (¬ InRange page n p) && (decide (InRange page n p) || s.bitmapTest p)) =
      s.bitmapTest p
    by_cases member : InRange page n p
    · simp [member, free p member]
    · simp [member]
  have count : ((s.takeRange page n).freePages (page * pageSize) n).usedPages = s.usedPages := by
    refine used'.trans ?_
    omega
  have pages : ((s.takeRange page n).freePages (page * pageSize) n).totalPages = s.totalPages :=
    same'.trans same
  generalize (s.takeRange page n).freePages (page * pageSize) n = t at bitmap count pages
  obtain ⟨_, _, _⟩ := t
  obtain ⟨_, _, _⟩ := s
  simp_all

theorem free_allocPages (owners : Owners reserved s out) {addr count : ℕ}
    (done : s.allocPages count = (some addr, s')) : s'.freePages addr count = s := by
  obtain ⟨page, pos, inside, free, rfl, rfl⟩ := allocPages_eq_some done
  exact free_takeRange owners inside pos free

/-- Along every run in which only held pages are freed, in whole ranges or page by page and in any
order, the counter is the number of used pages, the ranges held are disjoint, lie behind the reserved
pages and are exactly what the bitmap marks there; and freeing a range that has just been handed out
restores the state. -/
theorem pages_have_one_owner {memSize kernelEnd : ℕ}
    (covers : kernelPages kernelEnd ≤ (init memSize kernelEnd).totalPages) {calls : List PmmCall}
    (run : Run Owner (init memSize kernelEnd, []) calls (s, out)) :
    OneOwner (kernelPages kernelEnd) s out ∧
      (∀ addr s', s.alloc = (some addr, s') → s'.free addr = s) ∧
      ∀ count addr s', s.allocPages count = (some addr, s') → s'.freePages addr count = s := by
  have owners : Owners (kernelPages kernelEnd) s out :=
    run.invariant (P := fun t => Owners (kernelPages kernelEnd) t.1 t.2)
      (fun _ _ _ owners step => owner_step owners step) (init_owners covers)
  refine ⟨owners.oneOwner, ?_, fun count addr s' done => free_allocPages owners done⟩
  intro addr s' done
  have restored : s'.free ((addr + 0 * pageSize) % 2 ^ 64) = s :=
    free_allocPages owners (show s.allocPages 1 = _ from done)
  obtain ⟨page, inside, -, rfl, -⟩ := alloc_eq_some done
  have total := owners.total_le
  have address : (page * pageSize + 0 * pageSize) % 2 ^ 64 = page * pageSize := by
    simp only [pageSize]
    omega
  rwa [address] at restored

/-- The rule applied to a machine of 2 MB: a range of two pages is handed out, and its first page is
freed again. -/
theorem pages_have_one_owner_small :
    ∃ s, Run Owner (init 0x200000 kernelVirtBase, []) [.allocPages 2, .free 0x100000] (s, [[257]]) ∧
      OneOwner 256 s [[257]] := by
  have run : Run Owner (init 0x200000 kernelVirtBase, []) [.allocPages 2, .free 0x100000]
      (((init 0x200000 kernelVirtBase).allocPages 2).2.free 0x100000, [[257]]) := by
    have first : grant ((init 0x200000 kernelVirtBase).allocPages 2).1 2 ++ [] = [[256, 257]] := by
      decide +kernel
    refine .cons .allocPages ?_
    rw [first]
    exact .cons (.free (by decide)) (.nil _)
  exact ⟨_, run, (pages_have_one_owner (by decide +kernel) run).1⟩

end Thuban.Mm

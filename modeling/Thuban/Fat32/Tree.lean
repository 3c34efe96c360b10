import Thuban.Fat32.Directory

/-!
# Owners of clusters and consistent volumes

Clusters belong to the root directory or to a directory entry.  The entries are reached from the root
through the slots of directories; a volume is consistent when every owner reached has a chain and the
chains of different owners share no cluster.

A slot counts as in use whether or not an end mark stands before it: `fat32_create` hands out the
slots in order, so that what lies behind the mark can come into sight later.  The entries that the
driver finds stand before the mark (`Seen`); where only end marks stand behind an end mark, these are
all entries.

A `Layout` gives every owner of a set its chain.  The set may be larger than that of the owners
reached; that a layout exists is what the operations are shown to keep.
-/

namespace Thuban.Fat32

open Lib

/-- The root directory, or the entry in a slot. -/
abbrev Owner := Option Slot

def Volume.first (v : Volume) (fs : Fs) : Owner → ℕ
  | none => fs.rootCluster
  | some s => entryFirstCluster (v.data s.1) s.2

def Volume.isDir (v : Volume) : Owner → Bool
  | none => true
  | some s => isDirEntry (v.data s.1) s.2

/-- An entry that is neither deleted nor part of a long name nor a volume label. -/
def Volume.live (v : Volume) (s : Slot) : Bool := !v.ended s && visible (v.data s.1) s.2

/-- The clusters of an owner.  An entry may have none; the root directory has a chain. -/
def Owns (fs : Fs) (v : Volume) (o : Owner) (l : List ℕ) : Prop :=
  Owned fs v (v.first fs o) l ∧ (o = none → l ≠ [])

inductive Reach (fs : Fs) (v : Volume) : Owner → Prop
  | root : Reach fs v none
  | entry {o : Owner} {l : List ℕ} {s : Slot} (above : Reach fs v o) (dir : v.isDir o = true)
      (owns : Owns fs v o l) (mem : s ∈ slotsOf fs l) (live : v.live s = true) :
      Reach fs v (some s)

/-- Every owner reached has a chain, and different ones share no cluster. -/
structure Consistent (fs : Fs) (v : Volume) : Prop where
  owns : ∀ o, Reach fs v o → ∃ l, Owns fs v o l
  apart : ∀ o o' l l', Reach fs v o → Reach fs v o' → o ≠ o' → Owns fs v o l → Owns fs v o' l' →
    l.Disjoint l'

/-- No volume label stands in a directory that is reached. -/
def NoLabels (fs : Fs) (v : Volume) : Prop :=
  ∀ o l, Reach fs v o → v.isDir o = true → Owns fs v o l → ∀ s ∈ slotsOf fs l,
    v.labelled s = false

/-- A set of owners with their chains that contains every owner reached. -/
structure Layout (fs : Fs) (v : Volume) (R : Set Owner) (chain : Owner → List ℕ) : Prop where
  root : none ∈ R
  owns : ∀ o ∈ R, Owns fs v o (chain o)
  apart : ∀ o ∈ R, ∀ o' ∈ R, o ≠ o' → (chain o).Disjoint (chain o')
  closed : ∀ o ∈ R, v.isDir o = true → ∀ s ∈ slotsOf fs (chain o), v.live s = true → some s ∈ R

variable {fs : Fs} {v v' : Volume} {R R' : Set Owner} {chain chain' : Owner → List ℕ} {o o' : Owner}
  {l l' : List ℕ}

theorem Owns.unique (g : Geometry fs) (h : Owns fs v o l) (h' : Owns fs v o l') : l = l' :=
  h.1.unique g h'.1

theorem Reach.placed {s : Slot} (h : Reach fs v (some s)) :
    ∃ o l, Reach fs v o ∧ v.isDir o = true ∧ Owns fs v o l ∧ s ∈ slotsOf fs l ∧
      v.live s = true := by
  cases h with
  | entry above dir owns mem live => exact ⟨_, _, above, dir, owns, mem, live⟩

theorem Layout.reach_mem (g : Geometry fs) (layout : Layout fs v R chain) (h : Reach fs v o) :
    o ∈ R := by
  induction h with
  | root => exact layout.root
  | entry _ dir owns mem live ih =>
    rw [owns.unique g (layout.owns _ ih)] at mem
    exact layout.closed _ ih dir _ mem live

theorem Layout.consistent (g : Geometry fs) (layout : Layout fs v R chain) : Consistent fs v where
  owns o h := ⟨chain o, layout.owns o (layout.reach_mem g h)⟩
  apart o o' l l' h h' different owns owns' := by
    have mem := layout.reach_mem g h
    have mem' := layout.reach_mem g h'
    rw [owns.unique g (layout.owns o mem), owns'.unique g (layout.owns o' mem')]
    exact layout.apart o mem o' mem' different

theorem Consistent.exists_layout (h : Consistent fs v) :
    ∃ chain, Layout fs v {o | Reach fs v o} chain := by
  have each : ∀ o, ∃ l, Reach fs v o → Owns fs v o l := fun o => by
    by_cases reached : Reach fs v o
    · obtain ⟨l, owns⟩ := h.owns o reached
      exact ⟨l, fun _ => owns⟩
    · exact ⟨[], fun reached' => absurd reached' reached⟩
  choose chain owns using each
  exact ⟨chain, .root, owns,
    fun o ho o' ho' different => h.apart o o' _ _ ho ho' different (owns o ho) (owns o' ho'),
    fun o ho dir s mem live => .entry ho dir (owns o ho) mem live⟩

/-! ## Entries in sight -/

/-- The slots before the end mark. -/
def inSight (v : Volume) (slots : List Slot) : List Slot := slots.takeWhile fun s => !v.ended s

/-- The owners that are reached through entries before the end mark of their directory. -/
inductive Seen (fs : Fs) (v : Volume) : Owner → Prop
  | root : Seen fs v none
  | entry {o : Owner} {l : List ℕ} {s : Slot} (above : Seen fs v o) (dir : v.isDir o = true)
      (owns : Owns fs v o l) (mem : s ∈ inSight v (slotsOf fs l)) (live : v.live s = true) :
      Seen fs v (some s)

/-- Every owner in sight has a chain, and different ones share no cluster. -/
structure SeenConsistent (fs : Fs) (v : Volume) : Prop where
  owns : ∀ o, Seen fs v o → ∃ l, Owns fs v o l
  apart : ∀ o o' l l', Seen fs v o → Seen fs v o' → o ≠ o' → Owns fs v o l → Owns fs v o' l' →
    l.Disjoint l'

/-- No volume label is in sight. -/
def NoLabelSeen (fs : Fs) (v : Volume) : Prop :=
  ∀ o l, Seen fs v o → v.isDir o = true → Owns fs v o l → ∀ s ∈ inSight v (slotsOf fs l),
    v.labelled s = false

/-- Behind an end mark there are only end marks. -/
def Tidy (v : Volume) (slots : List Slot) : Prop :=
  slots.Pairwise fun r r' => v.ended r = true → v.ended r' = true

/-- The rule for end marks, in every directory in sight. -/
def EndMarked (fs : Fs) (v : Volume) : Prop :=
  ∀ o l, Seen fs v o → v.isDir o = true → Owns fs v o l → Tidy v (slotsOf fs l)

theorem Tidy.mem_inSight {slots : List Slot} {s : Slot} (tidy : Tidy v slots) (mem : s ∈ slots)
    (used : v.ended s = false) : s ∈ inSight v slots := by
  induction slots with
  | nil => exact absurd mem (by simp)
  | cons t slots ih =>
    obtain ⟨behind, tidy⟩ := List.pairwise_cons.mp tidy
    rw [inSight, List.takeWhile_cons]
    rcases List.mem_cons.mp mem with rfl | mem
    · simp [used]
    · have before : v.ended t = false := by
        rw [← Bool.not_eq_true]
        intro ended
        rw [behind s mem ended] at used
        cases used
      rw [before]
      exact List.mem_cons_of_mem _ (ih tidy mem)

theorem Seen.reach (seen : Seen fs v o) : Reach fs v o := by
  induction seen with
  | root => exact .root
  | entry _ dir owns mem live ih => exact .entry ih dir owns (List.takeWhile_subset _ mem) live

namespace EndMarked

variable (marked : EndMarked fs v)

include marked

theorem seen (reach : Reach fs v o) : Seen fs v o := by
  induction reach with
  | root => exact .root
  | entry _ dir owns mem live ih =>
    have used := (Bool.and_eq_true_iff.mp live).1
    exact .entry ih dir owns ((marked _ _ ih dir owns).mem_inSight mem (by simpa using used)) live

theorem consistent (consistent : SeenConsistent fs v) : Consistent fs v where
  owns o reach := consistent.owns o (marked.seen reach)
  apart o o' l l' reach reach' := consistent.apart o o' l l' (marked.seen reach) (marked.seen reach')

theorem noLabels (noLabels : NoLabelSeen fs v) : NoLabels fs v := by
  intro o l reach dir owns s mem
  have seen := marked.seen reach
  cases used : v.ended s with
  | true => simp [Volume.labelled, used]
  | false => exact noLabels o l seen dir owns s ((marked o l seen dir owns).mem_inSight mem used)

end EndMarked

/-! ## Entries that stay what they are -/

/-- Slot `s` holds the same entry in `v'` as in `v`, the size apart. -/
structure SameEntry (v v' : Volume) (s : Slot) : Prop where
  mark : entryMark (v'.data s.1) s.2 = entryMark (v.data s.1) s.2
  name : entryName (v'.data s.1) s.2 = entryName (v.data s.1) s.2
  attr : entryAttr (v'.data s.1) s.2 = entryAttr (v.data s.1) s.2
  first : entryFirstCluster (v'.data s.1) s.2 = entryFirstCluster (v.data s.1) s.2

namespace SameEntry

variable {s : Slot}

theorem of_sameSlot (h : SameSlot (v'.data s.1) (v.data s.1) s.2) : SameEntry v v' s :=
  ⟨h.mark, h.name, h.attr, h.firstCluster⟩

theorem of_data (h : v'.data s.1 = v.data s.1) : SameEntry v v' s :=
  of_sameSlot fun k _ => by rw [h]

section

variable (h : SameEntry v v' s)

include h

theorem ended : v'.ended s = v.ended s := by
  simp only [Volume.ended, h.mark]

theorem visible : visible (v'.data s.1) s.2 = Fat32.visible (v.data s.1) s.2 := by
  simp only [Fat32.visible, isDeleted, isLfn, isVolumeId, h.mark, h.attr]

theorem live : v'.live s = v.live s := by
  simp only [Volume.live, h.ended, h.visible]

theorem labelled : v'.labelled s = v.labelled s := by
  simp only [Volume.labelled, h.ended, isDeleted, isLfn, isVolumeId, h.mark, h.attr]

theorem isDir : v'.isDir (some s) = v.isDir (some s) := by
  simp only [Volume.isDir, isDirEntry, h.attr]

theorem lookupMatch (name : CString) :
    lookupMatch name (v'.data s.1) s.2 = Fat32.lookupMatch name (v.data s.1) s.2 := by
  simp only [Fat32.lookupMatch, h.visible, h.name]

end

end SameEntry

theorem find_lookupMatch_congr (name : CString) (same : ∀ s ∈ slotsOf fs l, SameEntry v v' s) :
    find fs v' (lookupMatch name) l = find fs v (lookupMatch name) l :=
  firstHit_congr fun s hs => ⟨(same s hs).ended, fun _ => (same s hs).lookupMatch name⟩

/-- How an operation may change a consistent volume: the owners reached stay reached and keep their
entries, sizes apart, except those in `gone`. -/
structure Evolves (fs : Fs) (v v' : Volume) (gone : Set Owner) : Prop where
  consistent : Consistent fs v'
  noLabels : NoLabels fs v → NoLabels fs v'
  kept : ∀ o, Reach fs v o → o ∉ gone → Reach fs v' o
  same : ∀ s, Reach fs v (some s) → some s ∉ gone → SameEntry v v' s

theorem Evolves.refl (consistent : Consistent fs v) : Evolves fs v v ∅ :=
  ⟨consistent, id, fun _ h _ => h, fun _ _ _ => .of_data rfl⟩

theorem SameEntry.trans {v'' : Volume} {s : Slot} (h : SameEntry v v' s) (h' : SameEntry v' v'' s) :
    SameEntry v v'' s :=
  ⟨h'.mark.trans h.mark, h'.name.trans h.name, h'.attr.trans h.attr, h'.first.trans h.first⟩

theorem Evolves.trans {v'' : Volume} (h : Evolves fs v v' ∅) (h' : Evolves fs v' v'' ∅) :
    Evolves fs v v'' ∅ where
  consistent := h'.consistent
  noLabels none := h'.noLabels (h.noLabels none)
  kept o reached stays := h'.kept o (h.kept o reached stays) stays
  same s reached stays := (h.same s reached stays).trans (h'.same s (h.kept _ reached stays) stays)

/-- The bytes of the size in the entry of slot `t`. -/
def InSize (t : Slot) (c k : ℕ) : Prop :=
  c = t.1 ∧ entrySize * t.2 + 28 ≤ k ∧ k < entrySize * t.2 + 32

/-- All owners but `t` keep their clusters with their contents, the size of `t` apart, which stands in
the clusters of a directory. -/
def Untouched (fs : Fs) (v v' : Volume) (t : Slot) : Prop :=
  ∀ o l, Reach fs v o → o ≠ some t → Owns fs v o l →
    Owns fs v' o l ∧ ∀ c ∈ l, ∀ k, ¬ InSize t c k → v'.data c k = v.data c k

theorem Untouched.refl (fs : Fs) (v : Volume) (t : Slot) : Untouched fs v v t :=
  fun _ _ _ _ owns => ⟨owns, fun _ _ _ _ => rfl⟩

/-! ## Layouts of changed volumes -/

theorem Layout.transfer (layout : Layout fs v R chain) (sub : R' ⊆ R) (root : none ∈ R')
    (same : ∀ s, some s ∈ R' → SameEntry v v' s)
    (fat : ∀ o ∈ R', ∀ c ∈ chain o, v'.fat c = v.fat c)
    (closed : ∀ o ∈ R', v.isDir o = true → ∀ s ∈ slotsOf fs (chain o), v'.live s = true →
      some s ∈ R') : Layout fs v' R' chain := by
  have first : ∀ o ∈ R', v'.first fs o = v.first fs o := fun o ho => by
    cases o with
    | none => rfl
    | some s => exact (same s ho).first
  have kind : ∀ o ∈ R', v'.isDir o = v.isDir o := fun o ho => by
    cases o with
    | none => rfl
    | some s => exact (same s ho).isDir
  refine ⟨root, fun o ho => ⟨?_, (layout.owns o (sub ho)).2⟩,
    fun o ho o' ho' different => layout.apart o (sub ho) o' (sub ho') different,
    fun o ho dir s mem live => closed o ho (kind o ho ▸ dir) s mem live⟩
  rw [first o ho]
  exact (layout.owns o (sub ho)).1.congr (fat o ho)

theorem Layout.evolves (g : Geometry fs) (layout : Layout fs v {o | Reach fs v o} chain)
    (layout' : Layout fs v' R' chain') {gone : Set Owner}
    (leaf : ∀ o ∈ gone, v.isDir o = false)
    (sub : ∀ o, Reach fs v o → o ∉ gone → o ∈ R' ∧ chain o ⊆ chain' o)
    (same : ∀ s, Reach fs v (some s) → some s ∉ gone → SameEntry v v' s)
    (noLabels : NoLabels fs v → NoLabels fs v') : Evolves fs v v' gone := by
  refine ⟨layout'.consistent g, noLabels, fun o h stays => ?_, same⟩
  induction h with
  | root => exact .root
  | @entry d l s above dir owns mem live ih =>
    have dirStays : d ∉ gone := fun goes => by simp [leaf d goes] at dir
    have dir' : v'.isDir d = true := by
      cases d with
      | none => rfl
      | some r => exact (same r above dirStays).isDir.trans dir
    obtain ⟨memR, larger⟩ := sub d above dirStays
    rw [owns.unique g (layout.owns d above), mem_slotsOf] at mem
    refine .entry (ih dirStays) dir' (layout'.owns d memR)
      (mem_slotsOf.mpr ⟨larger mem.1, mem.2⟩) ?_
    rw [(same s (.entry above dir owns (owns.unique g (layout.owns d above) ▸ mem_slotsOf.mpr mem)
      live) stays).live]
    exact live

end Thuban.Fat32

import Thuban.Fat32.Transitions
import Thuban.Lib.Run

/-!
# Nodes and the operations on them

A node that `fat32_lookup` returns stands for an owner of the volume.  Each operation of the driver,
called on a node of a consistent volume, ends and leaves a consistent volume.
-/

namespace Thuban.Fat32

open Lib

/-- The size stored for an owner; the root directory has none. -/
def Volume.size (v : Volume) : Owner → ℕ
  | none => 0
  | some s => entryFileSize (v.data s.1) s.2

/-- The node stands for the owner `o`.  Its size is a copy that may be out of date. -/
structure Denotes (fs : Fs) (v : Volume) (node : VfsNode) (o : Owner) : Prop where
  reach : Reach fs v o
  kind : node.isDirectory = v.isDir o
  first : node.fsData.firstCluster = v.first fs o
  place : ∀ s, o = some s → (node.fsData.dirCluster, node.fsData.dirOffset) = s

variable {fs : Fs} {w₀ w : World} {v v' : Volume} {dir node : VfsNode} {o d : Owner} {l : List ℕ}
  {s t : Slot}

theorem Denotes.evolve {gone : Set Owner} (h : Denotes fs v node o) (evolves : Evolves fs v v' gone)
    (stays : o ∉ gone) : Denotes fs v' node o := by
  have reach := evolves.kept o h.reach stays
  cases o with
  | none => exact ⟨reach, h.kind, h.first, h.place⟩
  | some s =>
    have same := evolves.same s h.reach stays
    exact ⟨reach, h.kind.trans same.isDir.symm, h.first.trans same.first.symm, h.place⟩

theorem rootNode_isDirectory (fs : Fs) (addr fsDataAddr sb : ℕ) :
    (rootNode fs addr fsDataAddr sb).isDirectory = true := by
  exact decide_eq_true (by decide : (sIfdir ||| 0o755) &&& sIfmt = sIfdir)

theorem denotes_root (fs : Fs) (v : Volume) (addr fsDataAddr sb : ℕ) :
    Denotes fs v (rootNode fs addr fsDataAddr sb) none :=
  ⟨.root, rootNode_isDirectory _ _ _ _, rfl, fun s h => by simp at h⟩

theorem Denotes.owned (h : Denotes fs v node o) (owns : Owns fs v o l) :
    Owned fs v node.fsData.firstCluster l :=
  h.first ▸ owns.1

theorem reach_of_find (reach : Reach fs v d) (isDir : v.isDir d = true) (owns : Owns fs v d l)
    {name : CString} (found : find fs v (lookupMatch name) l = some s) : Reach fs v (some s) := by
  have mem := mem_slotsOf.mpr (find_mem found)
  obtain ⟨_, _, -, going, hit, -⟩ := exists_of_firstHit_eq_some found
  simp only [lookupMatch, Bool.and_eq_true] at hit
  refine .entry reach isDir owns mem ?_
  simp [Volume.live, going, hit.1]

theorem lookup_found (now : Becomes fs w₀ w v) (h : Denotes fs v dir d) (isDir : v.isDir d = true)
    (owns : Owns fs v d l) {name : CString} (found : find fs v (lookupMatch name) l = some s) :
    ∃ addr fsDataAddr w', Converges (lookup fs dir name · w)
        (some (nodeOf dir s.1 s.2 (v.data s.1) addr fsDataAddr), w') ∧ Becomes fs w₀ w' v := by
  obtain ⟨result, w', looked, after, -, made⟩ :=
    lookup_spec now (h.kind ▸ isDir) (h.owned owns) name
  rw [Looked, found] at made
  obtain ⟨addr, fsDataAddr, rfl, -⟩ := made
  exact ⟨addr, fsDataAddr, w', looked, after⟩

theorem denotes_nodeOf (reach : Reach fs v (some s)) (dir : VfsNode) (addr fsDataAddr : ℕ) :
    Denotes fs v (nodeOf dir s.1 s.2 (v.data s.1) addr fsDataAddr) (some s) :=
  ⟨reach, nodeOf_isDirectory _ _ _ _ _ _, rfl, fun _ h => Option.some.inj h⟩

theorem Reach.valid_slot (consistent : Consistent fs v) (g : Geometry fs)
    (reach : Reach fs v (some s)) : fs.Valid s.1 ∧ s.2 < fs.slots := by
  obtain ⟨chain, layout⟩ := consistent.exists_layout
  obtain ⟨d, reached, -, mem, -⟩ := layout.placed g reach
  obtain ⟨inside, slot⟩ := mem_slotsOf.mp mem
  exact ⟨(layout.owns d reached).1.valid inside, slot⟩

theorem Denotes.valid_slot (consistent : Consistent fs v) (g : Geometry fs)
    (h : Denotes fs v node (some s)) :
    fs.Valid node.fsData.dirCluster ∧ node.fsData.dirOffset < fs.slots := by
  have valid := h.reach.valid_slot consistent g
  rwa [← h.place s rfl] at valid

/-! ## The operations -/

section Operations

variable (now : Becomes fs w₀ w v) (consistent : Consistent fs v)

include now consistent

theorem Denotes.lookup (h : Denotes fs v dir d) (name : CString) :
    ∃ result w', Converges (lookup fs dir name · w) (result, w') ∧
      Becomes fs w₀ w' v ∧ w.heap.next ≤ w'.heap.next ∧
      ∀ node, result = some node → ∃ s addr fsDataAddr, Reach fs v (some s) ∧
        node = nodeOf dir s.1 s.2 (v.data s.1) addr fsDataAddr ∧
        w.heap.next ≤ addr ∧ addr < w'.heap.next ∧ v.isDir d = true ∧
        ∀ l, Owns fs v d l → find fs v (lookupMatch name) l = some s := by
  cases isDir : dir.isDirectory with
  | false =>
    refine ⟨none, w, .const fun fuel => ?_, now, le_rfl, fun node h => by simp at h⟩
    simp [Fat32.lookup, isDir]
  | true =>
    obtain ⟨l, owns⟩ := consistent.owns d h.reach
    obtain ⟨result, w', looked, after, grown, found⟩ :=
      lookup_spec now isDir (h.owned owns) name
    refine ⟨result, w', looked, after, grown, fun node same => ?_⟩
    rw [Looked] at found
    cases hit : find fs v (lookupMatch name) l with
    | none =>
      rw [hit] at found
      simp [found] at same
    | some s =>
      rw [hit] at found
      obtain ⟨addr, fsDataAddr, made, low, between, high⟩ := found
      have isDir' : v.isDir d = true := h.kind ▸ isDir
      refine ⟨s, addr, fsDataAddr, reach_of_find h.reach isDir' owns hit, ?_, low, by omega, isDir',
        fun l' owns' => ?_⟩
      · exact Option.some.inj (same.symm.trans made)
      · rwa [owns'.unique now.ready.geometry owns]

theorem Denotes.create (h : Denotes fs v dir d) (name : CString) (mode : ℕ) :
    ∃ r w' v', Converges (create fs dir name mode · w) (r, w') ∧
      Becomes fs w₀ w' v' ∧ Evolves fs v v' ∅ := by
  have g := now.ready.geometry
  cases isDir : dir.isDirectory with
  | false =>
    refine ⟨-1, w, v, .const fun fuel => ?_, now, .refl consistent⟩
    simp [Fat32.create, isDir]
  | true =>
    obtain ⟨chain, layout⟩ := consistent.exists_layout
    obtain ⟨r, w', ends, result⟩ :=
      create_spec now isDir (h.owned (layout.owns d h.reach)) name mode
    split at result
    · rcases result with ⟨-, v', new, ext, s, created, after⟩ | ⟨-, after | ⟨c, -, free, after⟩⟩
      · exact ⟨r, w', v', ends, after, create_evolves layout h.reach created g⟩
      · exact ⟨r, w', v, ends, after, .refl consistent⟩
      · exact ⟨r, w', _, ends, after, zero_evolves layout g free⟩
    · exact ⟨r, w', v, ends, result.2, .refl consistent⟩

/-- `fat32_unlink` removes at most a regular file of the directory, the one it finds by name. -/
theorem Denotes.unlink (noLabels : NoLabels fs v) (h : Denotes fs v dir d) (name : CString) :
    ∃ r w' v', Converges (unlink fs dir name · w) (r, w') ∧ Becomes fs w₀ w' v' ∧
      (Evolves fs v v' ∅ ∨ ∃ s, Reach fs v (some s) ∧ v.isDir (some s) = false ∧
        lookupMatch name (v.data s.1) s.2 = true ∧ Evolves fs v v' {some s}) := by
  have g := now.ready.geometry
  cases isDir : dir.isDirectory with
  | false =>
    refine ⟨-1, w, v, .const fun fuel => ?_, now, .inl (.refl consistent)⟩
    simp [Fat32.unlink, isDir]
  | true =>
    obtain ⟨chain, layout⟩ := consistent.exists_layout
    have dirD : v.isDir d = true := h.kind ▸ isDir
    -- Without labels, what is looked for is visible, so that it is reached.
    have target : ∀ s, find fs v (unlinkMatch name) (chain d) = some s →
        Reach fs v (some s) ∧ v.isDir (some s) = false ∧
          lookupMatch name (v.data s.1) s.2 = true := by
      intro s found
      have mem := mem_slotsOf.mpr (find_mem found)
      obtain ⟨_, _, -, going, hit, -⟩ := exists_of_firstHit_eq_some found
      have plain := noLabels d (chain d) h.reach dirD (layout.owns d h.reach) s mem
      obtain ⟨regular, named⟩ := lookupMatch_of_unlinkMatch going plain hit
      refine ⟨.entry h.reach dirD (layout.owns d h.reach) mem ?_, regular, named⟩
      simp only [lookupMatch, Bool.and_eq_true] at named
      simp [Volume.live, going, named.1]
    obtain ⟨r, w', ends, result⟩ := unlink_spec now isDir (h.owned (layout.owns d h.reach)) name
      fun s found => ⟨chain (some s), (layout.owns _ (target s found).1).1.freed⟩
    cases found : find fs v (unlinkMatch name) (chain d) with
    | none =>
      rw [found] at result
      exact ⟨r, w', v, ends, result.2, .inl (.refl consistent)⟩
    | some s =>
      rw [found] at result
      obtain ⟨-, l, freed, after⟩ := result
      obtain ⟨reach, regular, named⟩ := target s found
      obtain rfl := (layout.owns _ reach).1.eq_of_freed g freed
      exact ⟨r, w', _, ends, after,
        .inr ⟨s, reach, regular, named, remove_evolves layout g (.inl ⟨reach, rfl⟩) regular⟩⟩

theorem Denotes.rmdir (noLabels : NoLabels fs v) (h : Denotes fs v dir d) (name : CString) :
    ∃ r w' v', Converges (rmdir fs dir name · w) (r, w') ∧ Becomes fs w₀ w' v' ∧
      ∃ gone, Evolves fs v v' gone := by
  have g := now.ready.geometry
  cases isDir : dir.isDirectory with
  | false =>
    refine ⟨-1, w, v, .const fun fuel => ?_, now, ∅, .refl consistent⟩
    simp [Fat32.rmdir, isDir]
  | true =>
    obtain ⟨chain, layout⟩ := consistent.exists_layout
    have dirD : v.isDir d = true := h.kind ▸ isDir
    have owns := layout.owns d h.reach
    have reached : ∀ s, find fs v (lookupMatch name) (chain d) = some s → Reach fs v (some s) :=
      fun s found => reach_of_find h.reach dirD owns found
    have apart : ∀ s, find fs v (lookupMatch name) (chain d) = some s →
        (chain d).Disjoint (chain (some s)) := fun s found => by
      refine layout.apart d h.reach (some s) (reached s found) fun same => ?_
      exact layout.not_self g h.reach s same (same ▸ mem_slotsOf.mpr (find_mem found))
    obtain ⟨r, w', ends, ⟨-, after⟩ | ⟨-, s, l, found, -, owned, -, after⟩⟩ :=
      rmdir_spec now isDir (h.owned owns) name (noLabels d (chain d) h.reach dirD owns)
        fun s found => ⟨chain (some s), (layout.owns _ (reached s found)).1, apart s found⟩
    · exact ⟨r, w', v, ends, after, ∅, .refl consistent⟩
    · obtain rfl := owned.unique g (layout.owns _ (reached s found)).1
      exact ⟨r, w', _, ends, after, _, removeDir_evolves layout g (reached s found)⟩

theorem Denotes.write (h : Denotes fs v node (some t)) (regular : node.isDirectory = false)
    (src : Bytes) (count offset : ℕ) :
    ∃ r node' w' v',
      Converges (write fs node src count offset · w) (r, node', w') ∧
      Becomes fs w₀ w' v' ∧ Evolves fs v v' ∅ ∧ Denotes fs v' node' (some t) ∧
      Untouched fs v v' t := by
  have g := now.ready.geometry
  obtain ⟨chain, layout⟩ := consistent.exists_layout
  have regular' : v.isDir (some t) = false := h.kind ▸ regular
  have place := h.place t rfl
  obtain ⟨valid, slot⟩ := h.valid_slot consistent g
  rcases h.owned (layout.owns _ h.reach) with owned | ⟨none, -⟩
  · obtain ⟨r, node', w', v₁, ext, n, ends, wrote, -, -, result⟩ :=
      write_spec now owned src count offset valid slot
    rw [h.first] at wrote
    have evolves := wrote_evolves layout h.reach regular' wrote g
    have untouched := wrote_untouched layout h.reach regular' wrote g
    rcases result with ⟨-, rfl, after⟩ | ⟨-, -, rfl, -, after⟩
    · rw [place, h.first, ← wrote_first layout h.reach regular' wrote g h.reach] at after
      have both := evolves.trans
        (setEntry_evolves g evolves.consistent t (newSize node.size offset n))
      have denotes := h.evolve both (Set.notMem_empty _)
      exact ⟨r, _, w', _, ends, after, both,
        ⟨denotes.reach, denotes.kind, denotes.first, denotes.place⟩, untouched.setEntry _⟩
    · exact ⟨r, node', w', v₁, ends, after, evolves, h.evolve evolves (Set.notMem_empty _),
        untouched⟩
  · obtain ⟨r, node', w', ends, result⟩ :=
      write_empty_spec now none src count offset valid slot
    rcases result with ⟨-, -, rfl, after⟩ | ⟨-, -, rfl, after⟩
    · rw [place, h.first] at after
      have evolves := setEntry_evolves g consistent t (newSize node.size offset 0)
      have denotes := h.evolve evolves (Set.notMem_empty _)
      exact ⟨r, _, w', _, ends, after, evolves,
        ⟨denotes.reach, denotes.kind, denotes.first, denotes.place⟩,
        (Untouched.refl fs v t).setEntry _⟩
    · exact ⟨r, node', w', v, ends, after, .refl consistent, h, .refl fs v t⟩

end Operations

end Thuban.Fat32

import Thuban.Fat32.Directory

/-!
# Removing entries

What `fat32_unlink` and `fat32_rmdir` change on a ready volume: they release a chain and mark a slot
deleted.
-/

namespace Thuban.Fat32

open Lib

def Volume.erase (v : Volume) (s : Slot) : Volume :=
  { v with data := Function.update v.data s.1 ((v.data s.1).put (entrySize * s.2) 0xE5) }

/-- The clusters `fat32_free_chain` releases when it is called with `first`. -/
def Freed (fs : Fs) (v : Volume) (first : ℕ) (l : List ℕ) : Prop :=
  ChainOf fs v first l ∨ (first < 2 ∧ l = [])

variable {fs : Fs} {w₀ w : World} {v : Volume} {c i first : ℕ} {l l' : List ℕ}

theorem Owned.freed (h : Owned fs v first l) : Freed fs v first l := by
  rcases h with chain | ⟨rfl, empty⟩
  · exact .inl chain
  · exact .inr ⟨by decide, empty⟩

theorem Owned.eq_of_freed (g : Geometry fs) (h : Owned fs v first l) (freed : Freed fs v first l') :
    l' = l := by
  rcases freed with chain | ⟨small, rfl⟩
  · exact Owned.unique g (.inl chain) h
  · rcases h with chain | ⟨-, rfl⟩
    · exact absurd (Chain.node_head chain).1 (by omega)
    · rfl

theorem freed_spec (now : Becomes fs w₀ w v) (freed : Freed fs v first l) :
    ∃ w', Converges (freeChain fs · first w) w' ∧
      Becomes fs w₀ w' (v.release l) := by
  rcases freed with chain | ⟨small, rfl⟩
  · exact freeChain_spec now chain
  · refine ⟨w, freeChain_end fun h => absurd h.1 (by omega), ?_⟩
    rwa [Volume.release_nil]

variable {buf : Bytes} {dir : VfsNode} {name : CString}

theorem store_erase (now : Becomes fs w₀ w v) (holds : Holds fs v c buf) (hi : i < fs.slots) :
    v.store fs c (buf.put (entrySize * i) 0xE5) = v.erase (c, i) := by
  have inside : entrySize * i < fs.clusterSize := slot_lt hi (by decide : 0 < entrySize)
  ext1
  · rfl
  · refine congrArg (Function.update _ c) (funext fun k => ?_)
    by_cases hk : k < fs.clusterSize
    · simp [hk, Bytes.put, holds k hk]
    · simp only [hk, if_false, Bytes.put]
      rw [if_neg (by omega), now.data_outside (by omega)]

/-! ## Unlink -/

theorem unlinkHit_spec (now : Becomes fs w₀ w v) (valid : fs.Valid c) (hi : i < fs.slots)
    (holds : Holds fs v c buf) (tmp : ℕ) (freed : Freed fs v (entryFirstCluster (v.data c) i) l) :
    ∃ w', Converges (unlinkHit fs tmp c i buf · w) (0, w') ∧
      Becomes fs w₀ w' ((v.release l).erase (c, i)) := by
  obtain ⟨w₁, released, after₁⟩ := freed_spec now freed
  obtain ⟨w₂, stored, after₂⟩ := after₁.writeCluster valid (buf.put (entrySize * i) 0xE5)
  have holds₁ : Holds fs (v.release l) c buf := holds
  rw [store_erase after₁ holds₁ hi] at after₂
  have first : entryFirstCluster buf i = entryFirstCluster (v.data c) i :=
    (holds.sameSlot hi).firstCluster
  have guarded : Converges (fun fuel =>
      if 2 ≤ entryFirstCluster buf i then freeChain fs fuel (entryFirstCluster buf i) w else some w)
      w₁ := by
    rw [first]
    split
    · exact released
    · rename_i small
      have same := released.unique (freeChain_end fun h => small h.1)
      exact .const fun _ => congrArg some same.symm
  refine ⟨w₂.free tmp, guarded.imp fun fuel h => ?_, after₂.free tmp⟩
  simp [unlinkHit, h, stored]

theorem unlink_spec (now : Becomes fs w₀ w v) (isDir : dir.isDirectory = true)
    (owned : Owned fs v dir.fsData.firstCluster l) (name : CString)
    (target : ∀ s, find fs v (unlinkMatch name) l = some s →
      ∃ l', Freed fs v (entryFirstCluster (v.data s.1) s.2) l') :
    ∃ r w', Converges (unlink fs dir name · w) (r, w') ∧
      match find fs v (unlinkMatch name) l with
      | none => r = -1 ∧ Becomes fs w₀ w' v
      | some s => r = 0 ∧ ∃ l', Freed fs v (entryFirstCluster (v.data s.1) s.2) l' ∧
          Becomes fs w₀ w' ((v.release l').erase s) := by
  obtain ⟨w₁, after₁, -, ⟨s, buf, hit, holds, same⟩ | ⟨none, same⟩⟩ :=
    searching_spec now (unlinkMatch_local name) owned (unlink_eq isDir)
  · obtain ⟨hc, hi⟩ := find_mem hit
    obtain ⟨l', freed⟩ := target s hit
    obtain ⟨w₂, erased, after₂⟩ :=
      unlinkHit_spec after₁ (owned.valid hc) hi holds w.heap.next freed
    rw [hit]
    exact ⟨0, w₂, (same _).mpr erased, rfl, l', freed, after₂⟩
  · rw [none]
    exact ⟨-1, _, (same _).mpr (.const fun _ => rfl), rfl, after₁.free w.heap.next⟩

theorem lookupMatch_of_unlinkMatch {s : Slot} (going : v.ended s = false)
    (plain : v.labelled s = false) (hit : unlinkMatch name (v.data s.1) s.2 = true) :
    isDirEntry (v.data s.1) s.2 = false ∧ lookupMatch name (v.data s.1) s.2 = true := by
  simp only [unlinkMatch, Bool.and_eq_true, Bool.not_eq_true'] at hit
  obtain ⟨⟨⟨deleted, lfn⟩, dir⟩, name⟩ := hit
  simp only [Volume.labelled, going, deleted, lfn, Bool.not_false, Bool.true_and] at plain
  exact ⟨dir, by simp [lookupMatch, visible, deleted, lfn, plain, name]⟩

/-! ## Removing a directory -/

theorem rmdirMatch_of_lookupMatch (hit : lookupMatch name buf i = true) :
    rmdirMatch name buf i = true := by
  simp only [lookupMatch, visible, rmdirMatch, Bool.and_eq_true] at hit ⊢
  exact ⟨hit.1.1, hit.2⟩

theorem find_rmdirMatch (name : CString)
    (unlabelled : ∀ s ∈ slotsOf fs l, v.labelled s = false) :
    find fs v (rmdirMatch name) l = find fs v (lookupMatch name) l := by
  refine firstHit_congr fun s hs => ⟨rfl, fun goesOn => ?_⟩
  have := unlabelled s hs
  simp only [Volume.labelled, goesOn, Bool.not_false, Bool.true_and] at this
  simp only [rmdirMatch, lookupMatch, visible]
  cases deleted : isDeleted (v.data s.1) s.2 <;> cases lfn : isLfn (v.data s.1) s.2 <;>
    simp_all

section

variable (now : Becomes fs w₀ w v)

include now

theorem rmdirEntry_spec (owned : Owned fs v dir.fsData.firstCluster l) (name : CString) :
    ∃ r w', Converges (rmdirEntry fs dir name · w) (r, w') ∧
      match find fs v (rmdirMatch name) l with
      | none => r = -1 ∧ Becomes fs w₀ w' v
      | some s => r = 0 ∧ Becomes fs w₀ w' (v.erase s) := by
  obtain ⟨w₁, after₁, -, ⟨s, buf, hit, holds, same⟩ | ⟨none, same⟩⟩ :=
    searching_spec now (rmdirMatch_local name) owned rmdirEntry_eq
  · obtain ⟨hc, hi⟩ := find_mem hit
    obtain ⟨w₂, stored, after₂⟩ :=
      after₁.writeCluster (owned.valid hc) (buf.put (entrySize * s.2) 0xE5)
    rw [store_erase after₁ holds hi] at after₂
    rw [hit]
    exact ⟨0, _, (same _).mpr (.const fun _ => by rw [stored]), rfl, after₂.free w.heap.next⟩
  · rw [none]
    exact ⟨-1, _, (same _).mpr (.const fun _ => rfl), rfl, after₁.free w.heap.next⟩

theorem rmdirTarget_spec {target : VfsNode} (owned : Owned fs v target.fsData.firstCluster l')
    (kept : Owned fs (v.release l') dir.fsData.firstCluster l) (name : CString) :
    ∃ r w', Converges (rmdirTarget fs dir target name · w) (r, w') ∧
      match find fs v visible l' with
      | some _ => r = -1 ∧ Becomes fs w₀ w' v
      | none =>
          match find fs v (rmdirMatch name) l with
          | none => r = -1 ∧ Becomes fs w₀ w' (v.release l')
          | some s => r = 0 ∧ Becomes fs w₀ w' ((v.release l').erase s) := by
  obtain ⟨w₁, after₁, -, ⟨s, buf, hit, -, same⟩ | ⟨empty, same⟩⟩ :=
    searching_spec now visible_local owned (rmdirTarget_eq fs dir target name)
  · rw [hit]
    exact ⟨-1, _, (same _).mpr (.const fun _ => rfl), rfl,
      (after₁.free w.heap.next).freeNode target⟩
  · obtain ⟨w₂, released, after₂⟩ := freed_spec (after₁.free w.heap.next) owned.freed
    obtain ⟨r, w₃, removed, result⟩ := rmdirEntry_spec (after₂.freeNode target) kept name
    rw [empty]
    exact ⟨r, w₃, (same _).mpr (released.bind removed), result⟩

/-- `fat32_rmdir` either changes nothing on the volume, or it frees the clusters of the entry that
`fat32_lookup` finds, a directory without visible entries, and erases the entry that its own scan
finds. -/
theorem rmdir_found (isDir : dir.isDirectory = true) (owned : Owned fs v dir.fsData.firstCluster l)
    (name : CString)
    (target : ∀ s, find fs v (lookupMatch name) l = some s →
      ∃ l', Owned fs v (entryFirstCluster (v.data s.1) s.2) l' ∧ l.Disjoint l') :
    ∃ r w', Converges (rmdir fs dir name · w) (r, w') ∧
      ((r = -1 ∧ Becomes fs w₀ w' v) ∨
        r = 0 ∧ ∃ s t l', find fs v (lookupMatch name) l = some s ∧
          isDirEntry (v.data s.1) s.2 = true ∧
          Owned fs v (entryFirstCluster (v.data s.1) s.2) l' ∧ find fs v visible l' = none ∧
          find fs v (rmdirMatch name) l = some t ∧
          Becomes fs w₀ w' ((v.release l').erase t)) := by
  obtain ⟨result, w₁, looked, after₁, -, found⟩ := lookup_spec now isDir owned name
  rw [Looked] at found
  cases hit : find fs v (lookupMatch name) l with
  | none =>
    rw [hit] at found
    obtain rfl : result = none := found
    refine ⟨-1, w₁, looked.imp fun fuel h => ?_, .inl ⟨rfl, after₁⟩⟩
    simp [rmdir, isDir, h]
  | some s =>
    rw [hit] at found
    obtain ⟨addr, fsDataAddr, rfl, -⟩ := found
    generalize made : nodeOf dir s.1 s.2 (v.data s.1) addr fsDataAddr = node at looked
    have kind : node.isDirectory = isDirEntry (v.data s.1) s.2 := by
      rw [← made, nodeOf_isDirectory]
    have first : node.fsData.firstCluster = entryFirstCluster (v.data s.1) s.2 := by
      rw [← made]
      rfl
    cases isDirS : isDirEntry (v.data s.1) s.2 with
    | false =>
      refine ⟨-1, freeNode node w₁, looked.imp fun fuel h => ?_, .inl ⟨rfl, after₁.freeNode node⟩⟩
      simp [rmdir, isDir, h, kind, isDirS]
    | true =>
      obtain ⟨l', owned', apart⟩ := target s hit
      have kept : Owned fs (v.release l') dir.fsData.firstCluster l :=
        owned.congr fun c hc => if_neg (apart hc)
      obtain ⟨r, w₂, removed, result⟩ := rmdirTarget_spec after₁ (first ▸ owned') kept name
      refine ⟨r, w₂, looked.seq removed fun fuel h => ?_, ?_⟩
      · simp [rmdir, isDir, h, kind, isDirS]
      · obtain ⟨t, again⟩ : ∃ t, find fs v (rmdirMatch name) l = some t :=
          exists_firstHit_of_imp (fun _ => rmdirMatch_of_lookupMatch) hit
        rw [again] at result
        cases empty : find fs v visible l' with
        | some _ =>
          rw [empty] at result
          exact .inl result
        | none =>
          rw [empty] at result
          exact .inr ⟨result.1, s, t, l', rfl, isDirS, owned', empty, again, result.2⟩

theorem rmdir_spec (isDir : dir.isDirectory = true) (owned : Owned fs v dir.fsData.firstCluster l)
    (name : CString) (unlabelled : ∀ s ∈ slotsOf fs l, v.labelled s = false)
    (target : ∀ s, find fs v (lookupMatch name) l = some s →
      ∃ l', Owned fs v (entryFirstCluster (v.data s.1) s.2) l' ∧ l.Disjoint l') :
    ∃ r w', Converges (rmdir fs dir name · w) (r, w') ∧
      ((r = -1 ∧ Becomes fs w₀ w' v) ∨
        r = 0 ∧ ∃ s l', find fs v (lookupMatch name) l = some s ∧
          isDirEntry (v.data s.1) s.2 = true ∧
          Owned fs v (entryFirstCluster (v.data s.1) s.2) l' ∧ find fs v visible l' = none ∧
          Becomes fs w₀ w' ((v.release l').erase s)) := by
  obtain ⟨r, w', ends, unchanged | ⟨zero, s, t, l', hit, isDirS, owned', empty, again, after⟩⟩ :=
    rmdir_found now isDir owned name target
  · exact ⟨r, w', ends, .inl unchanged⟩
  · rw [find_rmdirMatch name unlabelled, hit] at again
    cases again
    exact ⟨r, w', ends, .inr ⟨zero, s, l', hit, isDirS, owned', empty, after⟩⟩

end

end Thuban.Fat32

import Thuban.Fat32.Release
import Thuban.Fat32.Stability

/-!
# Which entry is removed

`fat32_rmdir` looks its target up, frees its clusters, and then searches the directory once more for
the entry to erase; `fat32_unlink` makes one search of its own.  Neither of these searches skips
volume labels as `fat32_lookup` does.  So a label with the same name in an earlier slot is erased
instead of the entry that a lookup finds.
-/

namespace Thuban.Fat32

open Lib

/-- From `v` to `v'` exactly slot `k` is marked deleted and exactly its chain is freed. -/
def Removed (fs : Fs) (v v' : Volume) (k : Slot) : Prop :=
  ∃ l, Owned fs v (entryFirstCluster (v.data k.1) k.2) l ∧ v' = (v.release l).erase k

/-- A volume label that `wanted` accepts stands before slot `k` in a directory with clusters `l`. -/
def Volume.Masked (v : Volume) (fs : Fs) (wanted : Bytes → ℕ → Bool) (l : List ℕ) (k : Slot) :
    Prop :=
  ∃ s ∈ (slotsOf fs l).takeWhile (· ≠ k), v.labelled s = true ∧ wanted (v.data s.1) s.2 = true

variable {fs : Fs} {w₀ w w' : World} {v v' : Volume} {c i : ℕ} {l : List ℕ} {k s : Slot}
  {name : CString}

/-! ## The searches -/

theorem find_eq_iff {wanted : Bytes → ℕ → Bool}
    (looser : ∀ buf i, wanted buf i = true → rmdirMatch name buf i = true)
    (found : find fs v (lookupMatch name) l = some k)
    (accepts : wanted (v.data k.1) k.2 = true) :
    find fs v wanted l = some k ↔ ¬ v.Masked fs wanted l k := by
  obtain ⟨-, -, -, -, passed⟩ := takeWhile_of_firstHit found
  unfold find
  rw [firstHit_eq_some_iff found accepts]
  constructor
  · rintro missed ⟨s, before, -, hit⟩
    rw [missed s before] at hit
    exact absurd hit (by decide)
  · intro unmasked s before
    by_contra hit
    rw [Bool.not_eq_false] at hit
    refine unmasked ⟨s, before, ?_, hit⟩
    obtain ⟨going, missed⟩ := passed s before
    have matched := looser _ _ hit
    simp only [rmdirMatch, Bool.and_eq_true] at matched
    obtain ⟨plain, named⟩ := matched
    simp only [lookupMatch, visible, plain, named, Bool.and_true, Bool.true_and] at missed
    simp only [Volume.labelled, going, plain, Bool.not_false, Bool.true_and]
    simpa using missed

theorem rmdirMatch_of_unlinkMatch (buf : Bytes) (i : ℕ) (hit : unlinkMatch name buf i = true) :
    rmdirMatch name buf i = true := by
  simp only [unlinkMatch, rmdirMatch, Bool.and_eq_true] at hit ⊢
  exact ⟨hit.1.1, hit.2⟩

theorem not_deleted_of_find (found : find fs v (lookupMatch name) l = some k) :
    entryMark (v.data k.1) k.2 ≠ 0xE5 := by
  obtain ⟨-, -, -, -, hit, -⟩ := exists_of_firstHit_eq_some found
  simp only [lookupMatch, visible, Bool.and_eq_true] at hit
  have kept := hit.1.1.1
  simpa [isDeleted] using kept

theorem mark_erase (v : Volume) (s : Slot) : entryMark ((v.erase s).data s.1) s.2 = 0xE5 := by
  simp [entryMark, Volume.erase, Bytes.put]

theorem mark_erase_other (v : Volume) (other : s ≠ k) :
    entryMark ((v.erase s).data k.1) k.2 = entryMark (v.data k.1) k.2 := by
  simp only [entryMark, Volume.erase, Function.update_apply]
  split_ifs with cluster
  · have different : k.2 ≠ s.2 := fun same => other (Prod.ext cluster.symm same.symm)
    rw [Bytes.put, if_neg, cluster]
    unfold entrySize
    omega
  · rfl

theorem removed_iff (found : find fs v (lookupMatch name) l = some k) {u : Volume}
    (data : u.data = v.data) (result : v' = u.erase s)
    (exactly : s = k → Removed fs v v' k) : Removed fs v v' k ↔ s = k := by
  refine ⟨fun removed => ?_, exactly⟩
  by_contra other
  obtain ⟨l', -, erased⟩ := removed
  have marked := mark_erase (v.release l') k
  rw [← erased, result, mark_erase_other u other, data] at marked
  exact not_deleted_of_find found marked

/-! ## The calls -/

theorem unlinkHit_any (now : Becomes fs w₀ w v) (valid : fs.Valid c) (hi : i < fs.slots)
    {buf : Bytes} (holds : Holds fs v c buf) (tmp : ℕ) :
    ∃ p w', Converges (unlinkHit fs tmp c i buf · w) (0, w') ∧
      Becomes fs w₀ w' ((v.releaseAll p).erase (c, i)) := by
  obtain ⟨p, w₁, guarded, after₁⟩ : ∃ p w₁, Converges (fun fuel =>
      if 2 ≤ entryFirstCluster buf i then freeChain fs fuel (entryFirstCluster buf i) w else some w)
      w₁ ∧ Becomes fs w₀ w₁ (v.releaseAll p) := by
    by_cases chain : 2 ≤ entryFirstCluster buf i
    · obtain rfl := now.volume
      obtain ⟨w₁, ends, after, -⟩ := now.ready.attached.freeChain (entryFirstCluster buf i)
      simp only [if_pos chain]
      exact ⟨_, w₁, ends, now.turns after⟩
    · simp only [if_neg chain]
      exact ⟨fun _ => False, w, .const fun _ => rfl, by simpa [Volume.releaseAll] using now⟩
  obtain ⟨w₂, stored, after₂⟩ := after₁.writeCluster valid (buf.put (entrySize * i) 0xE5)
  have holds₁ : Holds fs (v.releaseAll p) c buf := holds
  rw [store_erase after₁ holds₁ hi] at after₂
  refine ⟨p, w₂.free tmp, guarded.imp fun fuel h => ?_, after₂.free tmp⟩
  simp [unlinkHit, h, stored]

section Calls

variable {dir node : VfsNode} {d : Owner} {w₁ w₂ : World}

section

variable (attached : Attached fs w) (consistent : Consistent fs (volume fs w))
  (denotes : Denotes fs (volume fs w) dir d)

include attached consistent denotes

theorem lookup_finds (owns : Owns fs (volume fs w) d l)
    (looked : Converges (lookup fs dir name · w) (some node, w₁)) :
    Reach fs (volume fs w) (some (node.fsData.dirCluster, node.fsData.dirOffset)) ∧
      find fs (volume fs w) (lookupMatch name) l =
        some (node.fsData.dirCluster, node.fsData.dirOffset) ∧
      node.isDirectory = isDirEntry ((volume fs w).data node.fsData.dirCluster)
        node.fsData.dirOffset ∧
      (volume fs w).isDir d = true := by
  have calm : Converges (lookup fs dir name · (w.withOom []))
      (some node, w₁.withOom []) := looked.imp fun fuel done => lookup_withOom done
  obtain ⟨result, w₂, looked', -, -, found⟩ :=
    denotes.lookup (.refl attached.ready) consistent name
  obtain rfl : some node = result := congrArg Prod.fst (calm.unique looked')
  obtain ⟨s, addr, fsDataAddr, reach, rfl, -, -, isDir, place⟩ := found node rfl
  refine ⟨reach, place l owns, ?_, isDir⟩
  exact nodeOf_isDirectory ..

theorem rmdir_success (isDir : (volume fs w).isDir d = true) (owns : Owns fs (volume fs w) d l)
    (found : find fs (volume fs w) (lookupMatch name) l = some k)
    (removed : Converges (rmdir fs dir name · w) (0, w')) :
    ∃ t l', find fs (volume fs w) (rmdirMatch name) l = some t ∧
      Owned fs (volume fs w) (entryFirstCluster ((volume fs w).data k.1) k.2) l' ∧
      volume fs w' = ((volume fs w).release l').erase t := by
  have calm : Converges (rmdir fs dir name · (w.withOom []))
      (0, w'.withOom []) := removed.imp fun fuel done => rmdir_withOom done
  have g := attached.geometry
  obtain ⟨chain, layout⟩ := consistent.exists_layout
  obtain rfl := owns.unique g (layout.owns d denotes.reach)
  have reach : Reach fs (volume fs w) (some k) := reach_of_find denotes.reach isDir owns found
  have apart : (chain d).Disjoint (chain (some k)) := by
    refine layout.apart d denotes.reach (some k) reach fun same => ?_
    exact layout.not_self g denotes.reach k same (same ▸ mem_slotsOf.mpr (find_mem found))
  obtain ⟨r, w₂, ends, outcome⟩ := rmdir_found (.refl attached.ready) (denotes.kind.trans isDir)
    (denotes.owned owns) name fun s hit => by
      obtain rfl : k = s := Option.some.inj (found.symm.trans hit)
      exact ⟨chain (some k), (layout.owns _ reach).1, apart⟩
  obtain ⟨rfl, rfl⟩ := Prod.mk.inj (calm.unique ends)
  rcases outcome with ⟨no, -⟩ | ⟨-, s, t, l', hit, -, owned, -, again, after⟩
  · exact absurd no (by decide)
  · obtain rfl : k = s := Option.some.inj (found.symm.trans hit)
    exact ⟨t, l', again, owned, after.volume⟩

/-- A successful `fat32_unlink` erases what its own scan finds, and if that is the entry `k` that a
lookup finds, it frees the clusters of `k`. -/
theorem unlink_success (isDir : (volume fs w).isDir d = true) (owns : Owns fs (volume fs w) d l)
    (found : find fs (volume fs w) (lookupMatch name) l = some k)
    (removed : Converges (unlink fs dir name · w) (0, w')) :
    ∃ (t : Slot) (u : Volume),
      find fs (volume fs w) (unlinkMatch name) l = some t ∧ u.data = (volume fs w).data ∧
      volume fs w' = u.erase t ∧ (t = k → Removed fs (volume fs w) (volume fs w') k) := by
  have calm : Converges (unlink fs dir name · (w.withOom []))
      (0, w'.withOom []) := removed.imp fun fuel done => unlink_withOom done
  have owned := denotes.owned owns
  have isDirectory : dir.isDirectory = true := denotes.kind.trans isDir
  obtain ⟨l', owns'⟩ := consistent.owns _ (reach_of_find denotes.reach isDir owns found)
  obtain ⟨w₁, after₁, -, ⟨⟨c, i⟩, buf, hit, holds, same⟩ | ⟨-, same⟩⟩ :=
    searching_spec (.refl attached.ready) (unlinkMatch_local name) owned (unlink_eq isDirectory)
  · obtain ⟨hc, hi⟩ := find_mem hit
    obtain ⟨p, w₂, erased, after₂⟩ := unlinkHit_any after₁ (owned.valid hc) hi holds _
    have ended := (same _).mp calm
    obtain ⟨-, rfl⟩ := Prod.mk.inj (ended.unique erased)
    refine ⟨(c, i), (volume fs w).releaseAll p, hit, rfl, after₂.volume, ?_⟩
    rintro rfl
    obtain ⟨w₃, erased', after₃⟩ :=
      unlinkHit_spec after₁ (owned.valid hc) hi holds _ owns'.1.freed
    obtain ⟨-, rfl⟩ := Prod.mk.inj (ended.unique erased')
    exact ⟨l', owns'.1, after₃.volume⟩
  · obtain ⟨no, -⟩ := Prod.mk.inj (((same _).mp calm).unique (.const fun _ => rfl))
    exact absurd no (by decide)

end

/-- The slot a node was made from. -/
def slotOf (node : VfsNode) : Slot := (node.fsData.dirCluster, node.fsData.dirOffset)

/-- A directory that `fat32_lookup` finds is what a successful `fat32_rmdir` erases, and a regular file
what a successful `fat32_unlink` erases, exactly when no volume label that the scan of the call accepts
stands in an earlier slot. -/
theorem removal_erases_found_iff (attached : Attached fs w)
    (consistent : Consistent fs (volume fs w)) (denotes : Denotes fs (volume fs w) dir d)
    (owns : Owns fs (volume fs w) d l)
    (looked : Converges (fun fuel => lookup fs dir name fuel w) (some node, w₁))
    (devs : w₂.devs = w.devs) :
    (node.isDirectory = true →
      Converges (fun fuel => rmdir fs dir name fuel w₂) (0, w') →
        (Removed fs (volume fs w) (volume fs w') (slotOf node) ↔
          ¬ (volume fs w).Masked fs (rmdirMatch name) l (slotOf node))) ∧
    (node.isDirectory = false →
      Converges (fun fuel => unlink fs dir name fuel w₂) (0, w') →
        (Removed fs (volume fs w) (volume fs w') (slotOf node) ↔
          ¬ (volume fs w).Masked fs (unlinkMatch name) l (slotOf node))) := by
  obtain ⟨-, found, kind, isDir⟩ := lookup_finds attached consistent denotes owns looked
  rw [← slotOf] at found
  have matched : lookupMatch name ((volume fs w).data (slotOf node).1) (slotOf node).2 = true := by
    obtain ⟨-, -, -, -, hit, -⟩ := exists_of_firstHit_eq_some found
    exact hit
  have attached₂ := attached.of_devs devs
  rw [← volume_congr devs] at consistent denotes owns found isDir kind matched ⊢
  constructor
  · intro _ removed
    obtain ⟨t, l', hit, owned, result⟩ :=
      rmdir_success attached₂ consistent denotes isDir owns found removed
    rw [← find_eq_iff (fun _ _ => id) found (rmdirMatch_of_lookupMatch matched), hit,
      Option.some.injEq]
    have data : ((volume fs w₂).release l').data = (volume fs w₂).data := rfl
    refine removed_iff found data result ?_
    rintro rfl
    exact ⟨l', owned, result⟩
  · intro regular removed
    have accepts : unlinkMatch name ((volume fs w₂).data (slotOf node).1) (slotOf node).2 = true := by
      rw [kind] at regular
      have again := rmdirMatch_of_lookupMatch matched
      simp only [rmdirMatch, Bool.and_eq_true] at again
      simp only [unlinkMatch, slotOf, regular, Bool.and_eq_true, Bool.not_false]
      exact ⟨⟨again.1, trivial⟩, again.2⟩
    obtain ⟨t, u, hit, data, result, exactly⟩ :=
      unlink_success attached₂ consistent denotes isDir owns found removed
    rw [← find_eq_iff rmdirMatch_of_unlinkMatch found accepts, hit, Option.some.injEq]
    exact removed_iff found data result exactly

end Calls

/-! ## A label with the name of a directory -/

/-- The bytes with an entry `A` at `pos`. -/
def withEntry (bytes : Bytes) (pos : ℕ) (attr : UInt8) (first : ℕ) : Bytes :=
  (((bytes.fill pos 11 0x20).put pos 0x41).put (pos + 11) attr).put16 (pos + 26) first

/-- A root directory with a volume label `A` in one slot and a directory `A` in another; cluster 3,
which is empty, belongs to the directory. -/
def labelWorld (label entry : ℕ) : World :=
  smallWorld (withEntry (withEntry ((Bytes.put32 (fun _ => 0) 520 eocMax).put32 524 eocMax)
    (1024 + 32 * label) 0x08 0) (1024 + 32 * entry) 0x10 3)

/-- A root directory of one cluster whose only entry owns cluster 3, which holds no entries. -/
theorem layout_pair {bytes : Bytes} {entry : ℕ}
    (root : (volume smallFs (smallWorld bytes)).fat 2 = eocMax)
    (own : (volume smallFs (smallWorld bytes)).fat 3 = eocMax)
    (first : entryFirstCluster ((volume smallFs (smallWorld bytes)).data 2) entry = 3)
    (only : ∀ i < smallFs.slots, (volume smallFs (smallWorld bytes)).live (2, i) = true → i = entry)
    (empty : ∀ i < smallFs.slots, (volume smallFs (smallWorld bytes)).live (3, i) = false) :
    Layout smallFs (volume smallFs (smallWorld bytes)) {none, some (2, entry)}
      (fun o => if o = none then [2] else [3]) := by
  refine ⟨.inl rfl, ?_, ?_, ?_⟩
  · rintro o (rfl | rfl)
    · refine ⟨.inl (.last (by decide : smallFs.Valid 2) ?_), fun _ => by simp⟩
      show eocMin ≤ (volume smallFs (smallWorld bytes)).fat 2
      rw [root]
      decide
    · refine ⟨?_, fun no => by simp at no⟩
      show Owned smallFs _ (entryFirstCluster
        ((volume smallFs (smallWorld bytes)).data 2) entry) [3]
      rw [first]
      refine .inl (.last (by decide) ?_)
      rw [own]
      decide
  · rintro o (rfl | rfl) o' (rfl | rfl) different
    · exact absurd rfl different
    · simp
    · simp
    · exact absurd rfl different
  · rintro o (rfl | rfl) - ⟨c, i⟩ mem live
    · obtain ⟨cluster, inside⟩ := mem_slotsOf.mp mem
      obtain rfl : c = 2 := by simpa using cluster
      exact .inr (by rw [only i inside live]; rfl)
    · obtain ⟨cluster, inside⟩ := mem_slotsOf.mp mem
      obtain rfl : c = 3 := by simpa using cluster
      rw [empty i inside] at live
      exact absurd live (by decide)

theorem layout_label {label entry : ℕ}
    (placed : (label, entry) = (0, 1) ∨ (label, entry) = (1, 0)) :
    Layout smallFs (volume smallFs (labelWorld label entry)) {none, some (2, entry)}
      (fun o => if o = none then [2] else [3]) := by
  rcases placed with placed | placed
  all_goals
    cases placed
    exact layout_pair (by decide +kernel) (by decide +kernel) (by decide +kernel)
      (by decide +kernel) (by decide +kernel)

/-- With the label behind the directory, the directory is what is removed. -/
theorem removal_erases_found_behind :
    ∃ node w₁ w', Attached smallFs (labelWorld 1 0) ∧
      Consistent smallFs (volume smallFs (labelWorld 1 0)) ∧
      Converges (fun fuel => lookup smallFs (rootNode smallFs 0 0 0) [0x61] fuel (labelWorld 1 0))
        (some node, w₁) ∧
      Converges (fun fuel => rmdir smallFs (rootNode smallFs 0 0 0) [0x61] fuel (labelWorld 1 0))
        (0, w') ∧
      Removed smallFs (volume smallFs (labelWorld 1 0)) (volume smallFs w') (2, 0) := by
  have attached := (ready_small _ : Ready smallFs (labelWorld 1 0)).attached
  have layout := layout_label (.inr rfl : (1, 0) = (0, 1) ∨ (1, 0) = (1, 0))
  have consistent := layout.consistent attached.geometry
  have looked : (lookup smallFs (rootNode smallFs 0 0 0) [0x61] 5 (labelWorld 1 0)).map
      (fun found => found.1.map fun node => (slotOf node, node.isDirectory)) =
        some (some ((2, 0), true)) := by
    decide +kernel
  have removed : (rmdir smallFs (rootNode smallFs 0 0 0) [0x61] 5 (labelWorld 1 0)).map
      Prod.fst = some 0 := by
    decide +kernel
  obtain ⟨⟨_ | node, w₁⟩, found, shape⟩ := Option.map_eq_some_iff.mp looked
  · simp at shape
  obtain ⟨⟨r, w'⟩, erased, rfl⟩ := Option.map_eq_some_iff.mp removed
  simp only [Option.map_some, Option.some.injEq, Prod.mk.injEq] at shape
  have ends := (stable_lookup smallFs _ _ _).converges found
  have gone := (stable_rmdir smallFs _ _ _).converges erased
  refine ⟨node, w₁, w', attached, consistent, ends, gone, ?_⟩
  have exactly := (removal_erases_found_iff attached consistent (denotes_root smallFs _ 0 0 0)
    (layout.owns none (.inl rfl)) ends rfl).1 shape.2 gone
  rw [shape.1] at exactly
  refine exactly.mpr ?_
  rintro ⟨s, before, -⟩
  have none : (slotsOf smallFs [2]).takeWhile (· ≠ (2, 0)) = [] := by decide
  rw [if_pos rfl, none] at before
  exact absurd before List.not_mem_nil

/-- With the label first, the lookup finds the directory in slot 1, but the label in slot 0 is erased:
the directory stays, and its cluster is free. -/
theorem rmdir_erases_label :
    Attached smallFs (labelWorld 0 1) ∧
    Consistent smallFs (volume smallFs (labelWorld 0 1)) ∧
    (lookup smallFs (rootNode smallFs 0 0 0) [0x61] 5 (labelWorld 0 1)).map
        (fun found => found.1.map fun node => (slotOf node, node.isDirectory)) =
      some (some ((2, 1), true)) ∧
    (rmdir smallFs (rootNode smallFs 0 0 0) [0x61] 5 (labelWorld 0 1)).map
        (fun done => (done.1, entryMark ((volume smallFs done.2).data 2) 0,
          entryMark ((volume smallFs done.2).data 2) 1, (volume smallFs done.2).fat 3)) =
      some (0, 0xE5, 0x41, freeMark) :=
  ⟨(ready_small _).attached, (layout_label (.inl rfl)).consistent ready_blank.geometry,
    by decide +kernel, by decide +kernel⟩

end Thuban.Fat32

import Thuban.Fat32.Failures

/-!
# `fat32_rmdir` and directories that are not empty

The check for entries reads the target cluster by cluster.  It leaves its loop at an entry, at an end
mark, at the end of the chain, and at a read that fails; only the first makes `fat32_rmdir` give up.
-/

namespace Thuban

open Lib

namespace Fat32

variable {fs : Fs} {w w' w₁ : World} {l : List ℕ} {dir target : VfsNode} {name : CString}
  {outcomes : List Bool} {k : Slot}

/-- If the calls of the check succeed as far as the first entry of the target, `fat32_rmdir` gives up.
The volume may be anything. -/
theorem rmdir_refuses (attached : Attached fs w)
    (looked : Converges (lookup fs dir name · (w.withFaults fs.dev outcomes))
      (some target, w₁))
    (follows : (volume fs w).Follows fs target.fsData.firstCluster l)
    (entry : find fs (volume fs w) visible l = some k)
    (silent : Silent (w₁.devs fs.dev).faults (searchCalls fs (volume fs w) visible l)) (w' : World) :
    ¬ Converges (rmdir fs dir name · (w.withFaults fs.dev outcomes)) (0, w') := by
  intro removed
  have refused : ∃ w'', Converges
      (rmdir fs dir name · (w.withFaults fs.dev outcomes)) (-1, w'') := by
    have isDir : dir.isDirectory = true := by
      obtain ⟨bound, done⟩ := looked
      have ended : lookup fs dir name bound (w.withFaults fs.dev outcomes) =
          some (some target, w₁) := done bound le_rfl
      by_contra file
      rw [lookup, if_pos (by simpa using file)] at ended
      exact absurd (congrArg Prod.fst (Option.some.inj ended)) (by simp)
    cases kind : target.isDirectory with
    | false =>
      refine ⟨freeNode target w₁, looked.imp fun fuel ended => ?_⟩
      simp [rmdir, isDir, ended, kind]
    | true =>
      have same : ∀ fuel, lookup fs dir name fuel (w.withFaults fs.dev outcomes) =
          some (some target, w₁) → rmdir fs dir name fuel (w.withFaults fs.dev outcomes) =
            rmdirTarget fs dir target name fuel w₁ := by
        intro fuel ended
        simp [rmdir, isDir, ended, kind]
      have got := w₁.malloc_devs fs.clusterSize
      rcases allocated : w₁.malloc fs.clusterSize with ⟨_ | tmp, w₂⟩
      · refine ⟨freeNode target w₂, looked.imp fun fuel ended => ?_⟩
        simp only [same fuel ended, rmdirTarget, allocated]
      · rw [allocated] at got
        -- The world of the check is `w` with other outcomes, as far as the devices go.
        have base : (w₂.withFaults fs.dev []).devs = w.devs := by
          obtain ⟨bound, done⟩ := looked
          obtain ⟨n, devs⟩ := lookup_polled (done bound le_rfl)
          rw [World.withFaults_withFaults] at devs
          have reliable := attached.device.reliable
          simp only [World.withFaults, World.setDev] at devs ⊢
          rw [show w₂.devs = w₁.devs from got, devs]
          simp [← reliable]
        have attached₂ : Attached fs (w₂.withFaults fs.dev []) := attached.of_devs base
        have faults : (w₂.devs fs.dev).faults = (w₁.devs fs.dev).faults := by
          rw [show w₂.devs = w₁.devs from got]
        rw [← volume_congr base] at follows entry silent
        rw [← faults] at silent
        obtain ⟨out, walked, found⟩ := attached₂.walk_silent visible_local follows
          (.inl (by rw [entry]; simp)) silent w₂.heap.junk
        rw [World.withFaults_withFaults, World.withFaults_withFaults, World.withFaults_self]
          at walked
        cases out with
        | ended => exact absurd (found.symm.trans entry) (by simp)
        | failed => exact found.elim
        | hit c i buf =>
          generalize w₂.withFaults fs.dev (List.drop _ _) = w₃ at walked
          refine ⟨freeNode target (w₃.free tmp), looked.seq (walked.imp fun fuel ended => ?_) same⟩
          simp [rmdirTarget, allocated, ended]
  obtain ⟨w'', refused⟩ := refused
  obtain ⟨no, -⟩ := Prod.mk.inj (removed.unique refused)
  exact absurd no (by decide)

/-- On a consistent volume `fat32_rmdir` succeeds only on an empty directory, whatever fails, exactly
when the directory it finds is empty anyway. -/
theorem rmdir_empty_of_found {d : Owner} (ready : Ready fs w)
    (consistent : Consistent fs (volume fs w)) (denotes : Denotes fs (volume fs w) dir d)
    (isDir : (volume fs w).isDir d = true) (owns : Owns fs (volume fs w) d l) (name : CString) :
    (∀ outcomes w',
      Converges (rmdir fs dir name · (w.withFaults fs.dev outcomes)) (0, w') →
        ∀ k l', find fs (volume fs w) (lookupMatch name) l = some k →
          Owns fs (volume fs w) (some k) l' → find fs (volume fs w) visible l' = none) ↔
    ∀ k l', find fs (volume fs w) (lookupMatch name) l = some k →
      isDirEntry ((volume fs w).data k.1) k.2 = true → Owns fs (volume fs w) (some k) l' →
        find fs (volume fs w) visible l' = none := by
  have owned := denotes.owned owns
  have isDirectory := denotes.kind.trans isDir
  constructor
  · intro always k l' found directory owns'
    rcases owns'.1 with chain | ⟨-, rfl⟩
    · have kept := owned_release_of_found ready consistent denotes isDir owns found owns'
      obtain ⟨target, w₁, first, after, same⟩ :=
        rmdir_silent (.refl ready) isDirectory owned found directory
      have valid := chain.node_head
      rw [← first] at kept valid
      -- The lookup succeeds, the first read of the check fails, and nothing fails any more.
      obtain ⟨w₂, after₂, unread⟩ := rmdirTarget_unread after valid dir name
      obtain ⟨m, removes⟩ := rmdirUnchecked_silent after₂ kept (rmdirMatch_found found)
      obtain ⟨w', erased⟩ := removes [] (silent_nil m)
      have removed := same
        (List.replicate (searchCalls fs (volume fs w) (lookupMatch name) l) false ++ [true])
        (silent_replicate _ _)
      rw [List.drop_left' (List.length_replicate ..)] at removed
      exact always _ _ ((removed _).mpr (unread [] _ erased)) k l' found owns'
    · rfl
  · intro empty outcomes w' removed k l' found owns'
    rcases rmdir_faulty (.refl ready) isDirectory owned name outcomes with
      ⟨-, t, hit, directory⟩ | ⟨later, w₁, -, -, ends⟩
    · obtain rfl : k = t := Option.some.inj (found.symm.trans hit)
      exact empty k l' found directory owns'
    · obtain ⟨no, -⟩ := Prod.mk.inj (removed.unique ends)
      exact absurd no (by decide)

/-- On every volume `fat32_rmdir` does not succeed on a directory with an entry if the calls of its check
succeed as far as that entry.  On a consistent volume it succeeds on empty directories only, whatever
fails, exactly when the directory it finds is empty anyway. -/
theorem rmdir_empty_iff (attached : Attached fs w) (dir : VfsNode) (name : CString) :
    (∀ outcomes target w₁ l k w',
      Converges (fun fuel => lookup fs dir name fuel (w.withFaults fs.dev outcomes))
        (some target, w₁) →
      (volume fs w).Follows fs target.fsData.firstCluster l →
      find fs (volume fs w) visible l = some k →
      Silent (w₁.devs fs.dev).faults (searchCalls fs (volume fs w) visible l) →
      ¬ Converges (fun fuel => rmdir fs dir name fuel (w.withFaults fs.dev outcomes)) (0, w')) ∧
    (w.heap.oom = [] → Consistent fs (volume fs w) → ∀ d l,
      Denotes fs (volume fs w) dir d → (volume fs w).isDir d = true → Owns fs (volume fs w) d l →
      ((∀ outcomes w',
        Converges (fun fuel => rmdir fs dir name fuel (w.withFaults fs.dev outcomes)) (0, w') →
          ∀ k l', find fs (volume fs w) (lookupMatch name) l = some k →
            Owns fs (volume fs w) (some k) l' → find fs (volume fs w) visible l' = none) ↔
      ∀ k l', find fs (volume fs w) (lookupMatch name) l = some k →
        isDirEntry ((volume fs w).data k.1) k.2 = true → Owns fs (volume fs w) (some k) l' →
          find fs (volume fs w) visible l' = none)) := by
  constructor
  · intro outcomes target w₁ l k w' looked follows entry silent
    exact rmdir_refuses attached looked follows entry silent w'
  · intro allocator consistent d l denotes isDir owns
    have ready : Ready fs w := ⟨attached.geometry, attached.device, allocator⟩
    exact rmdir_empty_of_found ready consistent denotes isDir owns name

/-- A directory `A` with a file `A` in it. -/
def nestedWorld : World :=
  smallWorld (withEntry (withEntry ((Bytes.put32 (fun _ => 0) 520 eocMax).put32 524 eocMax)
    1024 0x10 3) 1536 0x20 0)

/-- The directory `A` with a file is not removed if the third read fails, and the empty directory `A`
is empty, whatever fails. -/
theorem rmdir_empty_label :
    (∀ w', ¬ Converges (fun fuel => rmdir smallFs (rootNode smallFs 0 0 0) [0x61] fuel
      (nestedWorld.withFaults smallFs.dev [false, false, true])) (0, w')) ∧
    Attached smallFs (labelWorld 1 0) ∧
      ∀ outcomes w', Converges (fun fuel => rmdir smallFs (rootNode smallFs 0 0 0) [0x61] fuel
          ((labelWorld 1 0).withFaults smallFs.dev outcomes)) (0, w') →
        ∀ k l', find smallFs (volume smallFs (labelWorld 1 0)) (lookupMatch [0x61]) [2] = some k →
          Owns smallFs (volume smallFs (labelWorld 1 0)) (some k) l' →
            find smallFs (volume smallFs (labelWorld 1 0)) visible l' = none := by
  have nested : Ready smallFs nestedWorld := ready_small _
  have chain : ∀ c, smallFs.Valid c → (volume smallFs nestedWorld).fat c = eocMax →
      ChainOf smallFs (volume smallFs nestedWorld) c [c] := fun c valid ends =>
    .last valid (by show eocMin ≤ _; rw [ends]; decide)
  have root := chain 2 (by decide) (by decide +kernel)
  have inner := chain 3 (by decide) (by decide +kernel)
  have found : find smallFs (volume smallFs nestedWorld) (lookupMatch [0x61]) [2] = some (2, 0) := by
    decide +kernel
  have reads : searchCalls smallFs (volume smallFs nestedWorld) (lookupMatch [0x61]) [2] = 1 ∧
      searchCalls smallFs (volume smallFs nestedWorld) visible [3] = 1 := by
    decide +kernel
  have first : (volume smallFs nestedWorld).first smallFs (some (2, 0)) = 3 := by decide +kernel
  have directory : (rootNode smallFs 0 0 0).isDirectory = true := rfl
  obtain ⟨addr, fsDataAddr, w₁, -, looks⟩ :=
    lookup_silent (.refl nested) directory (.inl root) found
  have looked := looks [false, false, true] (by rw [reads.1]; decide)
  rw [reads.1] at looked
  have ready : Ready smallFs (labelWorld 1 0) := ready_small _
  have layout := layout_label (.inr rfl : (1, 0) = (0, 1) ∨ (1, 0) = (1, 0))
  have exactly := (rmdir_empty_iff ready.attached (rootNode smallFs 0 0 0) [0x61]).2 rfl
    (layout.consistent ready.geometry) none [2] (denotes_root smallFs _ 0 0 0) rfl
    (layout.owns none (.inl rfl))
  refine ⟨fun w' => ?_, ready.attached, exactly.mpr fun k l' found _ owns' => ?_⟩
  · refine (rmdir_empty_iff nested.attached (rootNode smallFs 0 0 0) [0x61]).1 _ _ _ [3] (3, 0) w'
      looked ?_ (by decide +kernel) ?_
    · show (volume smallFs nestedWorld).Follows smallFs
        ((volume smallFs nestedWorld).first smallFs (some (2, 0))) [3]
      rw [first]
      exact inner.follows.1
    · rw [reads.2, World.withFaults_devs]
      show Silent [false, true] 1
      decide
  have entry : find smallFs (volume smallFs (labelWorld 1 0)) (lookupMatch [0x61]) [2] =
      some (2, 0) := by
    decide +kernel
  obtain rfl : (2, 0) = k := Option.some.inj (entry.symm.trans found)
  have own := layout.owns (some (2, 0)) (.inr rfl)
  obtain rfl := owns'.unique ready.geometry own
  decide +kernel

/-- The second read, the first one of the check, fails: the directory is removed with the file in
it. -/
theorem rmdir_removes_nonempty :
    Attached smallFs nestedWorld ∧
    find smallFs (volume smallFs nestedWorld) (lookupMatch [0x61]) [2] = some (2, 0) ∧
    (volume smallFs nestedWorld).first smallFs (some (2, 0)) = 3 ∧
    (volume smallFs nestedWorld).live (3, 0) = true ∧
    (rmdir smallFs (rootNode smallFs 0 0 0) [0x61] 5
        (nestedWorld.withFaults smallFs.dev [false, true])).map
      (fun done => (done.1, entryMark ((volume smallFs done.2).data 2) 0,
        (volume smallFs done.2).fat 3)) =
      some (0, 0xE5, freeMark) :=
  ⟨(ready_small _).attached, by decide +kernel, by decide +kernel, by decide +kernel,
    by decide +kernel⟩

end Fat32

end Thuban

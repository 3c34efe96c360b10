import Thuban.Fat32.Driver
import Thuban.Lib.Fuel

/-!
# Answers do not depend on the fuel

The loops over a directory, and with them the directory operations, give the same answer with more fuel.
So one evaluation that ends settles how a call ends.
-/

namespace Thuban.Fat32

open Lib

variable (fs : Fs)

/-! ## Loops -/

theorem stable_walk (wanted : Bytes → ℕ → Bool) (cluster : ℕ) (buf : Bytes) (w : World) :
    Stable fun fuel => walk fs wanted fuel cluster buf w := by
  refine Stable.loop (f := fun fuel (s : ℕ × Bytes × World) => walk fs wanted fuel s.1 s.2.1 s.2.2)
    (fun _ => rfl) ?_ (cluster, buf, w)
  rintro ⟨cluster, buf, w⟩
  simp only [walk]
  by_cases inside : InChain cluster
  · simp only [inside, if_true]
    rcases readCluster fs cluster buf w with ⟨_ | buf, w⟩
    · exact .inl ⟨_, fun _ => rfl⟩
    · dsimp only
      rcases scanSlots wanted buf (fs.clusterSize / entrySize) 0 with i | _ | _
      · exact .inl ⟨_, fun _ => rfl⟩
      · exact .inl ⟨_, fun _ => rfl⟩
      · rcases getNextCluster fs cluster w with ⟨next, w⟩
        exact .inr ⟨(next, buf, w), fun _ => rfl⟩
  · simp only [inside, if_false]
    exact .inl ⟨_, fun _ => rfl⟩

theorem stable_freeChain (cluster : ℕ) (w : World) :
    Stable fun fuel => freeChain fs fuel cluster w := by
  refine Stable.loop (f := fun fuel (s : ℕ × World) => freeChain fs fuel s.1 s.2) (fun _ => rfl) ?_
    (cluster, w)
  rintro ⟨cluster, w⟩
  simp only [freeChain]
  by_cases inside : InChain cluster
  · simp only [inside, if_true]
    rcases getNextCluster fs cluster w with ⟨next, w⟩
    exact .inr ⟨(next, freeCluster fs cluster w), fun _ => rfl⟩
  · simp only [inside, if_false]
    exact .inl ⟨_, fun _ => rfl⟩

theorem stable_createLoop (name : CString) (mode new tmp cluster : ℕ) (buf : Bytes) (w : World) :
    Stable fun fuel => createLoop fs name mode new tmp fuel cluster buf w := by
  refine Stable.loop (f := fun fuel (s : ℕ × Bytes × World) =>
    createLoop fs name mode new tmp fuel s.1 s.2.1 s.2.2) (fun _ => rfl) ?_ (cluster, buf, w)
  rintro ⟨cluster, buf, w⟩
  simp only [createLoop]
  by_cases inside : InChain cluster
  · simp only [inside, if_true]
    rcases readCluster fs cluster buf w with ⟨_ | buf, w⟩
    · exact .inl ⟨_, fun _ => rfl⟩
    · dsimp only
      rcases freeSlot buf (fs.clusterSize / entrySize) 0 with _ | i
      · rcases getNextCluster fs cluster w with ⟨next, w⟩
        by_cases ends : eocMin ≤ next
        · simp only [ends, if_true]
          rcases allocCluster fs w with ⟨newDir, w⟩
          by_cases full : newDir = 0
          · simp only [full, if_true]
            exact .inl ⟨_, fun _ => rfl⟩
          · simp only [full, if_false]
            exact .inr ⟨(newDir, buf.fill 0 fs.clusterSize 0, _), fun _ => rfl⟩
        · simp only [ends, if_false]
          exact .inr ⟨(next, buf, w), fun _ => rfl⟩
      · dsimp only
        rcases writeCluster fs cluster (fillEntry buf i name mode new) w with ⟨_ | _, w⟩
        · exact .inl ⟨_, fun _ => rfl⟩
        · exact .inl ⟨_, fun _ => rfl⟩
  · simp only [inside, if_false]
    exact .inl ⟨_, fun _ => rfl⟩

/-! ## Operations -/

theorem stable_lookup (dir : VfsNode) (name : CString) (w : World) :
    Stable fun fuel => lookup fs dir name fuel w := by
  unfold lookup
  split
  · exact .const _
  · rcases w.malloc fs.clusterSize with ⟨_ | tmp, w⟩
    · exact .const _
    · exact (stable_walk fs _ _ _ _).map _

theorem stable_create (dir : VfsNode) (name : CString) (mode : ℕ) (w : World) :
    Stable fun fuel => create fs dir name mode fuel w := by
  unfold create
  split
  · exact .const _
  · split
    · exact .const _
    · refine (stable_lookup fs dir name w).bind fun found => ?_
      rcases found with ⟨_ | existing, w⟩
      · unfold createNew
        dsimp only
        split
        · exact .const _
        · rcases World.malloc _ _ with ⟨_ | zeroBuf, w⟩
          · exact .const _
          · dsimp only
            rcases World.malloc _ _ with ⟨_ | tmp, w⟩
            · exact .const _
            · exact stable_createLoop fs _ _ _ _ _ _ _
      · exact .const _

theorem stable_rmdirTarget (dir target : VfsNode) (name : CString) (w : World) :
    Stable fun fuel => rmdirTarget fs dir target name fuel w := by
  have erases : ∀ w : World, Stable fun fuel =>
      (freeChain fs fuel target.fsData.firstCluster w).bind fun w =>
        rmdirEntry fs dir name fuel (freeNode target w) := by
    refine fun w => (stable_freeChain fs _ _).bind fun w => ?_
    unfold rmdirEntry
    rcases World.malloc _ _ with ⟨_ | tmp, w⟩
    · exact .const _
    · exact (stable_walk fs _ _ _ _).map _
  unfold rmdirTarget
  rcases w.malloc fs.clusterSize with ⟨_ | checkBuf, w⟩
  · exact .const _
  · refine (stable_walk fs _ _ _ _).bind fun found => ?_
    rcases found with ⟨⟨cluster, i, buf⟩ | _ | _, w⟩
    · exact .const _
    · exact erases _
    · exact erases _

theorem stable_rmdir (dir : VfsNode) (name : CString) (w : World) :
    Stable fun fuel => rmdir fs dir name fuel w := by
  unfold rmdir
  split
  · exact .const _
  · refine (stable_lookup fs dir name w).bind fun found => ?_
    rcases found with ⟨_ | target, w⟩
    · exact .const _
    · dsimp only
      split
      · exact .const _
      · exact stable_rmdirTarget fs dir target name w

end Thuban.Fat32

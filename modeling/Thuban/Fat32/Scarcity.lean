import Thuban.Fat32.Allocations
import Thuban.Fat32.Directory

/-!
# Failing allocations

The calls of the driver that allocate no memory do not see which calls of `malloc` fail: with other
outcomes they do the same.  So what is known of them on a ready volume holds on every volume whose
device does not fail, whatever the allocator does.
-/

namespace Thuban

open Lib

/-- The world with other outcomes of the coming calls of `malloc`. -/
def World.withOom (w : World) (oom : List Bool) : World :=
  { w with heap := { w.heap with oom := oom } }

namespace World

variable (w : World) (oom : List Bool)

@[simp] theorem withOom_junk : (w.withOom oom).heap.junk = w.heap.junk := rfl

theorem free_withOom (p : ℕ) : (w.withOom oom).free p = (w.free p).withOom oom := by
  by_cases mem : p ∈ w.heap.live
  · rw [free, free, if_pos (show p ∈ (w.withOom oom).heap.live from mem), if_pos mem]
    rfl
  · rw [free, free, if_neg (show p ∉ (w.withOom oom).heap.live from mem), if_neg mem]
    rfl

variable {α : Type*} {size p : ℕ}

theorem Blind.withOom {f : World → α × World} (blind : Blind f) :
    f (w.withOom oom) = ((f w).1, (f w).2.withOom oom) :=
  blind (fun h => { h with oom := oom }) (fun _ => rfl) w

theorem BlindLoop.withOom {f : World → Option (α × World)} (loop : BlindLoop f) :
    f (w.withOom oom) = (f w).map fun r => (r.1, r.2.withOom oom) :=
  loop (fun h => { h with oom := oom }) (fun _ => rfl) w

/-- Of the coming calls of `malloc`, number `n` succeeds. -/
def Grants (n : ℕ) : Prop := w.heap.oom[n]? ≠ some true

instance (n : ℕ) : Decidable (w.Grants n) := inferInstanceAs (Decidable (_ ≠ _))

/-- The world `w'` is `w` after some calls of `malloc` and calls of `free`. -/
structure Spends (w w' : World) (calls : ℕ) : Prop where
  devs : w'.devs = w.devs
  oom : w'.heap.oom = w.heap.oom.drop calls

variable {w} {w₁ w₂ : World} {m n : ℕ}

theorem Spends.free (spent : Spends w w₁ n) (p : ℕ) : Spends w (w₁.free p) n :=
  ⟨(free_devs _ _).trans spent.devs, (free_oom _ _).trans spent.oom⟩

theorem Spends.trans (first : Spends w w₁ m) (second : Spends w₁ w₂ n) : Spends w w₂ (m + n) where
  devs := second.devs.trans first.devs
  oom := by rw [second.oom, first.oom, List.drop_drop]

theorem Spends.grants (spent : Spends w w₁ m) (n : ℕ) : w₁.Grants n ↔ w.Grants (m + n) := by
  rw [Grants, Grants, spent.oom, List.getElem?_drop]

theorem malloc_none (pos : 0 < size) (got : w.malloc size = (none, w₁)) :
    ¬ w.Grants 0 ∧ Spends w w₁ 1 := by
  unfold malloc at got
  rw [if_neg (by omega)] at got
  split at got
  · next later denied =>
    obtain rfl := (Prod.mk.inj got).2
    exact ⟨by simp [Grants, denied], rfl, by simp [denied]⟩
  · simp at got

theorem malloc_some (got : w.malloc size = (some p, w₁)) : w.Grants 0 ∧ Spends w w₁ 1 := by
  unfold malloc at got
  split_ifs at got
  · simp at got
  · split at got
    · simp at got
    · next granted =>
      obtain rfl := (Prod.mk.inj got).2
      refine ⟨fun denied => ?_, rfl, List.drop_one.symm⟩
      obtain ⟨later, list⟩ : ∃ later, w.heap.oom = true :: later := by
        rcases outcomes : w.heap.oom with _ | ⟨first, later⟩
        · simp [outcomes] at denied
        · simp only [outcomes, List.getElem?_cons_zero, Option.some.injEq] at denied
          exact ⟨later, by rw [denied]⟩
      exact granted later list

theorem malloc_withOom (got : w.malloc size = (some p, w₁)) :
    (w.withOom []).malloc size = (some p, w₁.withOom []) := by
  unfold malloc at got ⊢
  split_ifs at got ⊢
  · simp at got
  · split at got
    · simp at got
    · obtain ⟨address, rfl⟩ := Prod.mk.inj got
      rw [← address]
      rfl

end World

namespace Fat32

theorem Attached.ready {fs : Fs} {w : World} (attached : Attached fs w) :
    Ready fs (w.withOom []) :=
  ⟨attached.geometry, attached.device, rfl⟩

section Loops

variable (fs : Fs) (oom : List Bool)

theorem freeChain_withOom (fuel c : ℕ) (w : World) :
    freeChain fs fuel c (w.withOom oom) = (freeChain fs fuel c w).map (·.withOom oom) :=
  @freeChain_mapHeap fs (fun h => { h with oom := oom }) (fun _ => rfl) fuel c w

theorem unlinkHit_withOom (tmp c i : ℕ) (buf : Bytes) (fuel : ℕ) (w : World) :
    unlinkHit fs tmp c i buf fuel (w.withOom oom) =
      (unlinkHit fs tmp c i buf fuel w).map fun found => (found.1, found.2.withOom oom) := by
  unfold unlinkHit
  dsimp only
  split
  case' isTrue =>
    rw [freeChain_withOom, Option.map_map, Option.map_map]
    congr 1
    funext w
  case' isFalse => apply congrArg some
  all_goals
    dsimp only [Function.comp]
    rw [(writeCluster_blind fs c _).withOom]
    rcases writeCluster fs c (buf.put (entrySize * i) 0xE5) w with ⟨_ | _, w⟩ <;>
      simp only [World.free_withOom]

theorem freeNode_withOom (node : VfsNode) (w : World) :
    freeNode node (w.withOom oom) = (freeNode node w).withOom oom := by
  rw [freeNode, freeNode, World.free_withOom, World.free_withOom]

end Loops

/-! ## Calls that succeed

A call that succeeds has been granted its memory, so it does the same where every allocation succeeds. -/

section Successes

variable {fs : Fs} {dir node : VfsNode} {name : CString} {fuel : ℕ} {w w' : World}

theorem lookup_withOom (done : lookup fs dir name fuel w = some (some node, w')) :
    lookup fs dir name fuel (w.withOom []) = some (some node, w'.withOom []) := by
  unfold lookup at done ⊢
  split_ifs at done ⊢ with other
  · simp at done
  rcases buffer : w.malloc fs.clusterSize with ⟨_ | tmp, w₁⟩
  · simp [buffer] at done
  rw [World.malloc_withOom buffer]
  simp only [buffer] at done
  obtain ⟨⟨out, w₂⟩, walked, answer⟩ := Option.map_eq_some_iff.mp done
  have again := (walk_blind fs (lookupMatch name) fuel dir.fsData.firstCluster w₁.heap.junk).withOom w₁ []
  rw [walked] at again
  simp only [World.withOom_junk, again, Option.map_some, Option.some.injEq]
  cases out with
  | ended => simp at answer
  | failed => simp at answer
  | hit c i buf =>
    dsimp only at answer ⊢
    unfold lookupHit at answer ⊢
    rcases first : w₂.malloc vfsNodeSize with ⟨_ | addr, w₃⟩
    · simp [first] at answer
    rw [World.malloc_withOom first]
    simp only [first] at answer ⊢
    rcases second : w₃.malloc inodeSize with ⟨_ | fsDataAddr, w₄⟩
    · simp [second] at answer
    rw [World.malloc_withOom second]
    simp only [second, Prod.mk.injEq] at answer ⊢
    rw [World.free_withOom, answer.2]
    exact ⟨answer.1, rfl⟩

theorem unlink_withOom (done : unlink fs dir name fuel w = some (0, w')) :
    unlink fs dir name fuel (w.withOom []) = some (0, w'.withOom []) := by
  unfold unlink at done ⊢
  split_ifs at done ⊢ with other
  · simp at done
  rcases buffer : w.malloc fs.clusterSize with ⟨_ | tmp, w₁⟩
  · simp [buffer] at done
  rw [World.malloc_withOom buffer]
  simp only [buffer] at done
  obtain ⟨⟨out, w₂⟩, walked, answer⟩ := Option.bind_eq_some_iff.mp done
  have again := (walk_blind fs (unlinkMatch name) fuel dir.fsData.firstCluster w₁.heap.junk).withOom w₁ []
  rw [walked] at again
  simp only [World.withOom_junk, again, Option.map_some, Option.bind_some]
  cases out with
  | ended => simp at answer
  | failed => simp at answer
  | hit c i buf =>
    dsimp only at answer ⊢
    rw [unlinkHit_withOom, answer]
    rfl

theorem rmdirEntry_withOom (done : rmdirEntry fs dir name fuel w = some (0, w')) :
    rmdirEntry fs dir name fuel (w.withOom []) = some (0, w'.withOom []) := by
  unfold rmdirEntry at done ⊢
  rcases buffer : w.malloc fs.clusterSize with ⟨_ | tmp, w₁⟩
  · simp [buffer] at done
  rw [World.malloc_withOom buffer]
  simp only [buffer] at done
  obtain ⟨⟨out, w₂⟩, walked, answer⟩ := Option.map_eq_some_iff.mp done
  have again := (walk_blind fs (rmdirMatch name) fuel dir.fsData.firstCluster w₁.heap.junk).withOom w₁ []
  rw [walked] at again
  simp only [World.withOom_junk, again, Option.map_some, Option.some.injEq]
  cases out with
  | ended => simp at answer
  | failed => simp at answer
  | hit c i buf =>
    dsimp only at answer ⊢
    rw [(writeCluster_blind fs c _).withOom, World.free_withOom, ← (Prod.mk.inj answer).2]

theorem rmdir_withOom (done : rmdir fs dir name fuel w = some (0, w')) :
    rmdir fs dir name fuel (w.withOom []) = some (0, w'.withOom []) := by
  unfold rmdir at done ⊢
  split_ifs at done ⊢ with other
  · simp at done
  obtain ⟨⟨_ | target, w₁⟩, looked, answer⟩ := Option.bind_eq_some_iff.mp done
  · simp at answer
  rw [lookup_withOom looked, Option.bind_some]
  dsimp only at answer ⊢
  split_ifs at answer ⊢ with file
  · simp at answer
  unfold rmdirTarget at answer ⊢
  rcases buffer : w₁.malloc fs.clusterSize with ⟨_ | checkBuf, w₂⟩
  · simp [buffer] at answer
  rw [World.malloc_withOom buffer]
  simp only [buffer] at answer
  obtain ⟨⟨out, w₃⟩, walked, rest⟩ := Option.bind_eq_some_iff.mp answer
  have again := (walk_blind fs visible fuel target.fsData.firstCluster w₂.heap.junk).withOom w₂ []
  rw [walked] at again
  simp only [World.withOom_junk, again, Option.map_some, Option.bind_some]
  have erased : ∀ w₃ : World, (freeChain fs fuel target.fsData.firstCluster (w₃.free checkBuf)).bind
      (fun w => rmdirEntry fs dir name fuel (freeNode target w)) = some (0, w') →
      (freeChain fs fuel target.fsData.firstCluster ((w₃.withOom []).free checkBuf)).bind
        (fun w => rmdirEntry fs dir name fuel (freeNode target w)) = some (0, w'.withOom []) := by
    intro w₃ rest
    obtain ⟨w₄, freed, removed⟩ := Option.bind_eq_some_iff.mp rest
    rw [World.free_withOom, freeChain_withOom, freed, Option.map_some, Option.bind_some,
      freeNode_withOom]
    exact rmdirEntry_withOom removed
  cases out with
  | hit c i buf => simp at rest
  | ended => exact erased w₃ rest
  | failed => exact erased w₃ rest

end Successes

/-! ## What a lookup leaves alone -/

section Lookup

variable {fs : Fs} {dir : VfsNode} {name : CString} {w w' : World}

theorem lookupHit_outcome {tmp c i : ℕ} {buf : Bytes} {r : Option VfsNode}
    (done : lookupHit dir tmp c i buf w = (r, w')) :
    (r.isSome = true ∧ w.Grants 0 ∧ w.Grants 1 ∧ World.Spends w w' 2) ∨
      (r = none ∧ ¬ w.Grants 0 ∧ World.Spends w w' 1) ∨
      (r = none ∧ w.Grants 0 ∧ ¬ w.Grants 1 ∧ World.Spends w w' 2) := by
  unfold lookupHit at done
  rcases node : w.malloc vfsNodeSize with ⟨_ | addr, w₁⟩
  · obtain ⟨denied, spent⟩ := World.malloc_none (by decide) node
    simp only [node] at done
    cases done
    exact .inr (.inl ⟨rfl, denied, spent.free tmp⟩)
  · obtain ⟨granted, spent⟩ := World.malloc_some node
    simp only [node] at done
    rcases data : w₁.malloc inodeSize with ⟨_ | fsDataAddr, w₂⟩
    · obtain ⟨denied, spent'⟩ := World.malloc_none (by decide) data
      simp only [data] at done
      cases done
      rw [spent.grants] at denied
      exact .inr (.inr ⟨rfl, granted, denied, ((spent.trans spent').free addr).free tmp⟩)
    · obtain ⟨granted', spent'⟩ := World.malloc_some data
      simp only [data] at done
      cases done
      rw [spent.grants] at granted'
      exact .inl ⟨rfl, granted, granted', (spent.trans spent').free tmp⟩

theorem lookup_polled {fuel : ℕ} {r : Option VfsNode}
    (done : lookup fs dir name fuel w = some (r, w')) :
    ∃ n, w'.devs = (w.withFaults fs.dev ((w.devs fs.dev).faults.drop n)).devs := by
  have same : w.devs = (w.withFaults fs.dev ((w.devs fs.dev).faults.drop 0)).devs := by
    rw [List.drop_zero, World.withFaults_self]
  unfold lookup at done
  split_ifs at done
  · obtain ⟨-, rfl⟩ := Prod.mk.inj (Option.some.inj done)
    exact ⟨0, same⟩
  · have got := w.malloc_devs fs.clusterSize
    rcases allocated : w.malloc fs.clusterSize with ⟨_ | tmp, w₁⟩
    · rw [allocated] at done got
      obtain ⟨-, rfl⟩ := Prod.mk.inj (Option.some.inj done)
      exact ⟨0, got.trans same⟩
    · rw [allocated] at done got
      obtain ⟨⟨out, w₂⟩, walked, done⟩ := Option.map_eq_some_iff.mp done
      obtain ⟨n, rfl⟩ := walk_polled walked
      refine ⟨n, ?_⟩
      rw [World.withFaults, World.setDev, ← show w₁.devs = w.devs from got]
      cases out with
      | hit c i buf =>
        rcases lookupHit_outcome done with ⟨-, -, -, spent⟩ | ⟨-, -, spent⟩ | ⟨-, -, -, spent⟩
        · exact spent.devs
        · exact spent.devs
        · exact spent.devs
      | ended =>
        obtain ⟨-, rfl⟩ := Prod.mk.inj done
        exact World.free_devs ..
      | failed =>
        obtain ⟨-, rfl⟩ := Prod.mk.inj done
        exact World.free_devs ..

end Lookup

end Fat32

end Thuban

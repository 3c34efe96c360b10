import Thuban.Fat32.Faults
import Thuban.Fat32.Selection

/-!
# Removing entries on a device that fails

`fat32_unlink` and `fat32_rmdir` free the clusters of an entry before they erase it, so a call that
fails in between leaves an entry whose clusters are free.  And `fat32_rmdir` takes a directory that it
cannot read for an empty one.
-/

namespace Thuban.Fat32

open Lib

variable {fs : Fs} {w₀ w w' : World} {v v' : Volume} {l l' : List ℕ} {first : ℕ}
  {dir target : VfsNode} {name : CString} {outcomes later : List Bool} {s k : Slot}

/-! ## The searches -/

theorem lookupHit_withFaults (dir : VfsNode) (tmp c i : ℕ) (buf : Bytes) (dev : ℕ) (w : World) :
    lookupHit dir tmp c i buf (w.withFaults dev outcomes) =
      ((lookupHit dir tmp c i buf w).1, (lookupHit dir tmp c i buf w).2.withFaults dev outcomes) := by
  unfold lookupHit
  rw [World.malloc_withFaults]
  rcases w.malloc vfsNodeSize with ⟨_ | addr, w₁⟩
  · simp only [World.free_withFaults]
  · simp only [World.malloc_withFaults]
    rcases w₁.malloc inodeSize with ⟨_ | fsDataAddr, w₂⟩
    · simp only [World.free_withFaults]
    · simp only [World.free_withFaults]

theorem lookupHit_congr {c i : ℕ} {buf buf' : Bytes} (same : SameSlot buf buf' i) (dir : VfsNode)
    (tmp : ℕ) (w : World) : lookupHit dir tmp c i buf w = lookupHit dir tmp c i buf' w := by
  unfold lookupHit
  simp only [nodeOf_congr same]

section

variable (now : Becomes fs w₀ w v) (isDir : dir.isDirectory = true)
  (owned : Owned fs v dir.fsData.firstCluster l)

include now isDir owned

theorem lookup_silent (found : find fs v (lookupMatch name) l = some s) :
    ∃ addr fsDataAddr w', Becomes fs w₀ w' v ∧ ∀ outcomes,
      Silent outcomes (searchCalls fs v (lookupMatch name) l) →
        Converges (lookup fs dir name · (w.withFaults fs.dev outcomes))
          (some (nodeOf dir s.1 s.2 (v.data s.1) addr fsDataAddr),
            w'.withFaults fs.dev (outcomes.drop (searchCalls fs v (lookupMatch name) l))) := by
  obtain ⟨w₁, after, -, search⟩ :=
    searching_faults now (lookupMatch_local name) owned (lookup_eq isDir)
  have same : SameSlot (v.data s.1) (v.data s.1) s.2 := fun _ _ => rfl
  obtain ⟨addr, fsDataAddr, w₂, made, after₂, -⟩ := lookupHit_spec after dir w.heap.next same
  refine ⟨addr, fsDataAddr, w₂, after₂, fun outcomes silent => ?_⟩
  rcases search outcomes with ⟨-, t, buf, hit, holds, ends⟩ | ⟨_, unfound, -⟩
  · obtain rfl : s = t := Option.some.inj (found.symm.trans hit)
    have slot := holds.sameSlot (find_mem found).2
    refine (ends _).mpr (.const fun _ => ?_)
    rw [lookupHit_withFaults, lookupHit_congr slot, made]
  · rw [(unfound silent).1] at found
    exact absurd found (by simp)

theorem lookup_faulty (name : CString) (outcomes : List Bool) :
    (Silent outcomes (searchCalls fs v (lookupMatch name) l) ∧
      ∃ s, find fs v (lookupMatch name) l = some s) ∨
    ∃ later w', Becomes fs w₀ w' v ∧
      (Silent outcomes (searchCalls fs v (lookupMatch name) l) →
        later = outcomes.drop (searchCalls fs v (lookupMatch name) l)) ∧
      Converges (lookup fs dir name · (w.withFaults fs.dev outcomes))
        (none, w'.withFaults fs.dev later) := by
  obtain ⟨w₁, after, -, search⟩ :=
    searching_faults now (lookupMatch_local name) owned (lookup_eq isDir)
  rcases search outcomes with ⟨silent, s, -, found, -⟩ | ⟨later, unfound, ends⟩
  · exact .inl ⟨silent, s, found⟩
  · refine .inr ⟨later, w₁.free w.heap.next, after.free _, fun silent => (unfound silent).2,
      (ends _).mpr (.const fun _ => ?_)⟩
    rw [World.free_withFaults]

end

/-! ## Freeing and erasing -/

theorem Attached.freeChain_converges (attached : Attached fs w) (first : ℕ) :
    ∃ n w', Turns fs w w' ((volume fs w).releaseAll ((volume fs w).Leads fs first)) ∧
      ∀ outcomes, Silent outcomes n →
        Converges (Fat32.freeChain fs · first (w.withFaults fs.dev outcomes))
          (w'.withFaults fs.dev (outcomes.drop n)) := by
  obtain ⟨w', ⟨bound, ends⟩, after, -⟩ := attached.freeChain first
  obtain ⟨n, quiet⟩ := attached.freeChain_silent (ends bound le_rfl)
  exact ⟨n, w', after, fun outcomes silent =>
    (stable_freeChain fs first _).converges (quiet outcomes silent)⟩

section Erasing

variable {c i : ℕ} {buf : Bytes} (attached : Attached fs w) (valid : fs.Valid c)
  (hi : i < fs.slots) (holds : Holds fs (volume fs w) c buf) (tmp : ℕ)

include attached valid hi holds

/-- Whatever fails, `fat32_unlink` frees nothing but clusters that the slot leads to, and erases
nothing but the slot. -/
theorem unlinkHit_faults {r : ℤ}
    (done : Converges (unlinkHit fs tmp c i buf · (w.withFaults fs.dev outcomes))
      (r, w')) :
    ∃ p, (∀ d, p d → (volume fs w).Leads fs (entryFirstCluster buf i) d) ∧
      (volume fs w' = (volume fs w).releaseAll p ∨
        volume fs w' = ((volume fs w).releaseAll p).erase (c, i)) := by
  obtain ⟨bound, done⟩ := done
  have ended := done bound le_rfl
  simp only [unlinkHit, Option.map_eq_some_iff] at ended
  obtain ⟨freed, guarded, ended⟩ := ended
  obtain ⟨p, later, w₁, rfl, after, only⟩ : ∃ p later w₁, freed = w₁.withFaults fs.dev later ∧
      Turns fs w w₁ ((volume fs w).releaseAll p) ∧
      ∀ d, p d → (volume fs w).Leads fs (entryFirstCluster buf i) d := by
    split_ifs at guarded with chain
    · exact attached.freeChain_faults guarded
    · refine ⟨fun _ => False, outcomes, w, (Option.some.inj guarded).symm, ?_, fun _ no => no.elim⟩
      exact ⟨attached, by simp [Volume.releaseAll], rfl⟩
  have holds₁ : Holds fs (volume fs w₁) c buf := by
    rw [after.volume]
    exact holds
  obtain ⟨done, rest, w₂, answered, written, stored⟩ :=
    after.attached.writeErased_faults valid hi holds₁ later
  have result : volume fs w' = volume fs w₂ := by
    rw [written] at ended
    by_cases all : done = fs.boot.sectorsPerCluster
    · simp only [all, decide_true, Prod.mk.injEq] at ended
      rw [← ended.2, World.free_withFaults, volume_withFaults, volume_congr (World.free_devs ..)]
    · simp only [decide_eq_false all, Prod.mk.injEq] at ended
      rw [← ended.2, World.free_withFaults, volume_withFaults, volume_congr (World.free_devs ..)]
  refine ⟨p, only, ?_⟩
  rw [result, stored.volume, after.volume]
  split_ifs
  · exact .inr rfl
  · exact .inl rfl

end Erasing

variable {c : ℕ} {p : ℕ → Prop}

theorem unlinkHit_silent {i : ℕ} (attached : Attached fs w) (valid : fs.Valid c)
    (hi : i < fs.slots) (tmp : ℕ) :
    ∃ m, ∀ buf, Holds fs (volume fs w) c buf → ∀ outcomes, Silent outcomes m →
      ∃ w' : World, Converges (unlinkHit fs tmp c i buf · (w.withFaults fs.dev outcomes))
        (0, w'.withFaults fs.dev (outcomes.drop m)) := by
  obtain ⟨n, w₁, attached₁, data, guarded⟩ : ∃ n w₁, Attached fs w₁ ∧
      (volume fs w₁).data = (volume fs w).data ∧ ∀ outcomes, Silent outcomes n →
        Converges (fun fuel => if 2 ≤ entryFirstCluster ((volume fs w).data c) i then
            Fat32.freeChain fs fuel (entryFirstCluster ((volume fs w).data c) i)
              (w.withFaults fs.dev outcomes)
          else some (w.withFaults fs.dev outcomes)) (w₁.withFaults fs.dev (outcomes.drop n)) := by
    by_cases chain : 2 ≤ entryFirstCluster ((volume fs w).data c) i
    · obtain ⟨n, w₁, after, ends⟩ := attached.freeChain_converges _
      simp only [if_pos chain]
      exact ⟨n, w₁, after.attached, by rw [after.volume]; rfl, ends⟩
    · simp only [if_neg chain]
      exact ⟨0, w, attached, rfl, fun outcomes _ => .const fun _ => rfl⟩
  refine ⟨n + fs.boot.sectorsPerCluster, fun buf holds outcomes silent => ?_⟩
  obtain ⟨early, late⟩ := silent_add.mp silent
  have same := (holds.sameSlot hi).firstCluster
  have holds₁ : Holds fs (volume fs w₁) c buf := by
    unfold Holds
    rw [data]
    exact holds
  obtain ⟨done, rest, w₂, answered, written, -⟩ :=
    attached₁.writeErased_faults valid hi holds₁ (outcomes.drop n)
  obtain ⟨rfl, rfl⟩ := answered.all late
  refine ⟨w₂.free tmp, (guarded outcomes early).imp fun fuel freed => ?_⟩
  simp [unlinkHit, same, freed, written, World.free_withFaults, List.drop_drop]

theorem unlinkHit_failing {i : ℕ} (attached : Attached fs w) (valid : fs.Valid c)
    (hi : i < fs.slots) (tmp : ℕ) (chain : 2 ≤ entryFirstCluster ((volume fs w).data c) i) :
    ∃ n, ∀ buf, Holds fs (volume fs w) c buf →
      ∃ w', Converges (unlinkHit fs tmp c i buf ·
          (w.withFaults fs.dev (List.replicate n false ++ [true]))) (-1, w') ∧
        volume fs w' = (volume fs w).releaseAll
          ((volume fs w).Leads fs (entryFirstCluster ((volume fs w).data c) i)) := by
  obtain ⟨n, w₁, after, ends⟩ :=
    attached.freeChain_converges (entryFirstCluster ((volume fs w).data c) i)
  have freed := ends _ (silent_replicate n [true])
  rw [List.drop_left' (List.length_replicate ..)] at freed
  refine ⟨n, fun buf holds => ?_⟩
  have same := (holds.sameSlot hi).firstCluster
  have holds₁ : Holds fs (volume fs w₁) c buf := by
    rw [after.volume]
    exact holds
  obtain ⟨m, count⟩ : ∃ m, fs.boot.sectorsPerCluster = m + 1 :=
    ⟨fs.boot.sectorsPerCluster - 1, by have := attached.geometry.sectorsPerCluster; omega⟩
  obtain ⟨done, rest, w₂, answered, written, stored⟩ :=
    after.attached.writeErased_faults valid hi holds₁ [true]
  rw [count] at answered written
  obtain ⟨rfl, rfl⟩ := answered.none
  rw [Nat.zero_mul, if_neg (Nat.not_lt_zero _)] at stored
  rw [decide_eq_false (Nat.succ_ne_zero m).symm] at written
  refine ⟨(w₂.withFaults fs.dev []).free tmp, freed.imp fun fuel ended => ?_, ?_⟩
  · simp [unlinkHit, same, if_pos chain, ended, written]
  · rw [volume_congr (World.free_devs ..), volume_withFaults, stored.volume, after.volume]

/-! ## Dangling entries -/

/-- No entry that was reached in `v` and is live in `v'` leads to a cluster that is free there. -/
def NoDangling (fs : Fs) (v v' : Volume) : Prop :=
  ∀ s, Reach fs v (some s) → v'.live s = true → ∀ c, v'.Leads fs (v'.first fs (some s)) c →
    v'.fat c ≠ freeMark

theorem Owned.mem_of_leads (g : Geometry fs) (owned : Owned fs v first l)
    (leads : v.Leads fs first c) : c ∈ l := by
  rcases owned with chain | ⟨rfl, rfl⟩
  · induction leads with
    | start =>
      obtain ⟨t, rfl⟩ := chain.exists_cons
      exact List.mem_cons_self
    | @next c before valid ih =>
      obtain ⟨i, place⟩ := List.mem_iff_getElem?.mp ih
      rcases chain.getElem?_succ place with following | ⟨-, ends⟩
      · exact List.mem_of_getElem? following
      · exact absurd ends (g.not_eoc _ valid)
  · exact absurd (Links.Reached.valid_first leads).1 (by decide)

theorem noDangling_of_apart (g : Geometry fs) (consistent : Consistent fs v)
    (apart : ∀ s, Reach fs v (some s) → ∀ c, p c → ¬ v.Leads fs (v.first fs (some s)) c)
    (fat : v'.fat = (v.releaseAll p).fat) (same : ∀ s, v'.first fs (some s) = v.first fs (some s)) :
    NoDangling fs v v' := by
  intro s reach _ c leads
  rw [same] at leads
  have kept : ∀ c, v.Leads fs (v.first fs (some s)) c → v'.fat c = v.fat c := by
    intro c before
    rw [fat]
    exact if_neg fun gone => apart s reach c gone before
  have before : v.Leads fs (v.first fs (some s)) c := by
    induction leads with
    | start valid => exact .start valid
    | @next c _ valid ih =>
      rw [kept c ih] at valid ⊢
      exact .next ih valid
  obtain ⟨l, owns⟩ := consistent.owns _ reach
  rw [kept c before]
  exact owns.1.fat_ne_zero (owns.1.mem_of_leads g before)

theorem dangling_of_shared (leads : v.Leads fs first c) (gone : p c) :
    ∃ d, (v.releaseAll p).Leads fs first d ∧ (v.releaseAll p).fat d = freeMark := by
  have free : ∀ d, p d → (v.releaseAll p).fat d = freeMark := fun d gone => if_pos gone
  have either : (∃ d, (v.releaseAll p).Leads fs first d ∧ p d) ∨
      (v.releaseAll p).Leads fs first c := by
    clear gone
    induction leads with
    | start valid => exact .inr (.start valid)
    | @next d _ valid ih =>
      rcases ih with found | still
      · exact .inl found
      · by_cases gone : p d
        · exact .inl ⟨d, still, gone⟩
        · have kept : (v.releaseAll p).fat d = v.fat d := if_neg gone
          rw [← kept] at valid ⊢
          exact .inr (.next still valid)
  rcases either with ⟨d, still, gone⟩ | still
  · exact ⟨d, still, free d gone⟩
  · exact ⟨c, still, free c gone⟩

theorem first_erase (v : Volume) (k s : Slot) :
    (v.erase k).first fs (some s) = v.first fs (some s) := by
  have other : ∀ j, 0 < j → j < entrySize →
      (v.erase k).data s.1 (entrySize * s.2 + j) = v.data s.1 (entrySize * s.2 + j) := by
    intro j low high
    simp only [Volume.erase, Function.update_apply]
    split_ifs with cluster
    · rw [Bytes.put, if_neg, cluster]
      unfold entrySize at high ⊢
      omega
    · rfl
  simp only [Volume.first, entryFirstCluster, Bytes.le16, Nat.add_assoc]
  rw [other 20 (by decide) (by decide), other 26 (by decide) (by decide),
    other (20 + 1) (by decide) (by decide), other (26 + 1) (by decide) (by decide)]

/-! ## The parts of `fat32_rmdir` -/

theorem rmdirEntry_faults (now : Becomes fs w₀ w v)
    (owned : Owned fs v dir.fsData.firstCluster l) (name : CString) (outcomes : List Bool) :
    (Silent outcomes (searchCalls fs v (rmdirMatch name) l) ∧
      ∃ w', Converges (rmdirEntry fs dir name · (w.withFaults fs.dev outcomes))
        (0, w')) ∨
    ((Silent outcomes (searchCalls fs v (rmdirMatch name) l) →
        find fs v (rmdirMatch name) l = none) ∧
      ∃ later w', Becomes fs w₀ w' v ∧
        Converges (rmdirEntry fs dir name · (w.withFaults fs.dev outcomes))
          (-1, w'.withFaults fs.dev later)) := by
  obtain ⟨w₁, after, -, search⟩ := searching_faults now (rmdirMatch_local name) owned rmdirEntry_eq
  rcases search outcomes with ⟨silent, s, buf, -, -, ends⟩ | ⟨later, unfound, ends⟩
  · exact .inl ⟨silent, _, (ends _).mpr (.const fun _ => rfl)⟩
  · refine .inr ⟨fun all => (unfound all).1, later, w₁.free w.heap.next, after.free _,
      (ends _).mpr (.const fun _ => ?_)⟩
    rw [World.free_withFaults]

theorem rmdirEntry_silent (now : Becomes fs w₀ w v)
    (owned : Owned fs v dir.fsData.firstCluster l) (hit : find fs v (rmdirMatch name) l ≠ none) :
    ∃ m, ∀ outcomes, Silent outcomes m →
      ∃ w' : World, Converges (rmdirEntry fs dir name · (w.withFaults fs.dev outcomes))
        (0, w'.withFaults fs.dev (outcomes.drop m)) := by
  obtain ⟨w₁, after, -, search⟩ := searching_faults now (rmdirMatch_local name) owned rmdirEntry_eq
  refine ⟨searchCalls fs v (rmdirMatch name) l + fs.boot.sectorsPerCluster,
    fun outcomes silent => ?_⟩
  obtain ⟨early, late⟩ := silent_add.mp silent
  rcases search outcomes with ⟨-, s, buf, found, holds, ends⟩ | ⟨later, unfound, -⟩
  · obtain ⟨hc, hi⟩ := find_mem found
    rw [← after.volume] at holds
    obtain ⟨done, rest, w₂, answered, written, -⟩ :=
      after.ready.attached.writeErased_faults (owned.valid hc) hi holds
        (outcomes.drop (searchCalls fs v (rmdirMatch name) l))
    obtain ⟨rfl, rfl⟩ := answered.all late
    refine ⟨w₂.free w.heap.next, (ends _).mpr (.const fun _ => ?_)⟩
    rw [written, World.free_withFaults, List.drop_drop]
  · exact absurd (unfound early).1 hit

theorem freeNode_withFaults (node : VfsNode) (dev : ℕ) (w : World) :
    freeNode node (w.withFaults dev outcomes) = (freeNode node w).withFaults dev outcomes := by
  simp only [freeNode, World.free_withFaults]

section

variable (now : Becomes fs w₀ w v)

include now

/-- The check for entries finds one, or `fat32_rmdir` goes on. -/
theorem rmdirTarget_faults (owned : Owned fs v target.fsData.firstCluster l') (dir : VfsNode)
    (name : CString) (outcomes : List Bool) :
    (∃ later w', Becomes fs w₀ w' v ∧
      Converges (rmdirTarget fs dir target name · (w.withFaults fs.dev outcomes))
        (-1, w'.withFaults fs.dev later)) ∨
    ∃ later w₁, Becomes fs w₀ w₁ v ∧ ∀ done,
      Converges (rmdirTarget fs dir target name · (w.withFaults fs.dev outcomes))
          done ↔
        Converges (fun fuel =>
          rmdirUnchecked fs dir target name fuel (w₁.withFaults fs.dev later)) done := by
  obtain ⟨w₁, after, -, search⟩ :=
    searching_faults now visible_local owned (rmdirTarget_eq fs dir target name)
  rcases search outcomes with ⟨-, s, buf, -, -, ends⟩ | ⟨later, -, ends⟩
  · refine .inl ⟨outcomes.drop (searchCalls fs v visible l'), freeNode target (w₁.free w.heap.next),
      (after.free _).freeNode target, (ends _).mpr (.const fun _ => ?_)⟩
    rw [World.free_withFaults, freeNode_withFaults]
  · refine .inr ⟨later, w₁.free w.heap.next, after.free _, fun done => ?_⟩
    rw [ends, World.free_withFaults]

theorem rmdirTarget_unread (valid : fs.Valid target.fsData.firstCluster) (dir : VfsNode)
    (name : CString) :
    ∃ w₁, Becomes fs w₀ w₁ v ∧ ∀ later done,
      Converges (fun fuel =>
          rmdirUnchecked fs dir target name fuel (w₁.withFaults fs.dev later)) done →
        Converges (fun fuel =>
          rmdirTarget fs dir target name fuel (w.withFaults fs.dev (true :: later))) done := by
  obtain ⟨w₁, got, after, -⟩ := now.malloc now.ready.geometry.clusterSize_pos
  refine ⟨w₁.free w.heap.next, after.free _, fun later done ends => ?_⟩
  have walked : Converges (fun fuel => walk fs visible fuel target.fsData.firstCluster
      w₁.heap.junk (w₁.withFaults fs.dev (true :: later))) (.failed, w₁.withFaults fs.dev later) :=
    after.ready.attached.walk_failing valid w₁.heap.junk later
  refine walked.seq ends fun fuel ended => ?_
  simp only [rmdirTarget, World.malloc_withFaults, got, World.withFaults_heap, ended,
    Option.bind_some, World.free_withFaults]
  rfl

theorem rmdir_silent (isDir : dir.isDirectory = true) (owned : Owned fs v dir.fsData.firstCluster l)
    (found : find fs v (lookupMatch name) l = some s)
    (directory : isDirEntry (v.data s.1) s.2 = true) :
    ∃ target w₁, target.fsData.firstCluster = v.first fs (some s) ∧ Becomes fs w₀ w₁ v ∧
      ∀ outcomes, Silent outcomes (searchCalls fs v (lookupMatch name) l) → ∀ done,
        Converges (rmdir fs dir name · (w.withFaults fs.dev outcomes)) done ↔
          Converges (rmdirTarget fs dir target name · (w₁.withFaults fs.dev
            (outcomes.drop (searchCalls fs v (lookupMatch name) l)))) done := by
  obtain ⟨addr, fsDataAddr, w₁, after, looks⟩ := lookup_silent now isDir owned found
  have kind : (nodeOf dir s.1 s.2 (v.data s.1) addr fsDataAddr).isDirectory = true :=
    (nodeOf_isDirectory ..).trans directory
  have first : (nodeOf dir s.1 s.2 (v.data s.1) addr fsDataAddr).fsData.firstCluster =
    v.first fs (some s) := rfl
  generalize nodeOf dir s.1 s.2 (v.data s.1) addr fsDataAddr = target at looks kind first
  refine ⟨target, w₁, first, after, fun outcomes silent done => ?_⟩
  refine (looks outcomes silent).seq_iff fun fuel ended => ?_
  simp [rmdir, isDir, ended, kind]

theorem rmdir_faulty (isDir : dir.isDirectory = true) (owned : Owned fs v dir.fsData.firstCluster l)
    (name : CString) (outcomes : List Bool) :
    (Silent outcomes (searchCalls fs v (lookupMatch name) l) ∧
      ∃ s, find fs v (lookupMatch name) l = some s ∧ isDirEntry (v.data s.1) s.2 = true) ∨
    ∃ later w', Becomes fs w₀ w' v ∧
      (Silent outcomes (searchCalls fs v (lookupMatch name) l) →
        later = outcomes.drop (searchCalls fs v (lookupMatch name) l)) ∧
      Converges (rmdir fs dir name · (w.withFaults fs.dev outcomes))
        (-1, w'.withFaults fs.dev later) := by
  rcases lookup_faulty now isDir owned name outcomes with
    ⟨silent, s, found⟩ | ⟨later, w₁, after, rest, looked⟩
  · cases directory : isDirEntry (v.data s.1) s.2 with
    | true => exact .inl ⟨silent, s, found, directory⟩
    | false =>
      obtain ⟨addr, fsDataAddr, w₁, after, looks⟩ := lookup_silent now isDir owned found
      have kind : (nodeOf dir s.1 s.2 (v.data s.1) addr fsDataAddr).isDirectory = false :=
        (nodeOf_isDirectory ..).trans directory
      generalize nodeOf dir s.1 s.2 (v.data s.1) addr fsDataAddr = target at looks kind
      refine .inr ⟨outcomes.drop (searchCalls fs v (lookupMatch name) l), freeNode target w₁,
        after.freeNode target, fun _ => rfl, (looks outcomes silent).imp fun fuel ended => ?_⟩
      simp [rmdir, isDir, ended, kind, freeNode_withFaults]
  · refine .inr ⟨later, w₁, after, rest, looked.imp fun fuel ended => ?_⟩
    simp [rmdir, isDir, ended]

end

/-! ## Freeing and erasing a directory -/

theorem rmdirMatch_found (found : find fs v (lookupMatch name) l = some s) :
    find fs v (rmdirMatch name) l ≠ none := by
  obtain ⟨t, again⟩ := exists_firstHit_of_imp (fun _ => rmdirMatch_of_lookupMatch) found
  rw [find, again]
  simp

theorem searchCalls_pos (g : Geometry fs) (v : Volume) (wanted : Bytes → ℕ → Bool)
    (some : l ≠ []) : 0 < searchCalls fs v wanted l := by
  have := g.sectorsPerCluster
  cases l with
  | nil => exact absurd rfl some
  | cons c l =>
    rw [searchCalls]
    split_ifs
    · omega
    · omega

section Unchecked

variable (now : Becomes fs w₀ w v)
  (kept : Owned fs (v.releaseAll (v.Leads fs target.fsData.firstCluster)) dir.fsData.firstCluster l)

include now

theorem rmdirUnchecked_freed (dir target : VfsNode) (name : CString) :
    ∃ n w₁, Becomes fs w₀ w₁ (v.releaseAll (v.Leads fs target.fsData.firstCluster)) ∧
      ∀ outcomes, Silent outcomes n → ∀ done,
        Converges (rmdirEntry fs dir name ·
            (w₁.withFaults fs.dev (outcomes.drop n))) done →
          Converges (rmdirUnchecked fs dir target name ·
            (w.withFaults fs.dev outcomes)) done := by
  obtain rfl := now.volume
  obtain ⟨n, w₁, after, frees⟩ :=
    now.ready.attached.freeChain_converges target.fsData.firstCluster
  refine ⟨n, freeNode target w₁, (now.turns after).freeNode target, fun outcomes silent done ends =>
    (frees outcomes silent).seq ends fun fuel ended => ?_⟩
  simp [rmdirUnchecked, ended, freeNode_withFaults]

include kept

theorem rmdirUnchecked_silent (hit : find fs v (rmdirMatch name) l ≠ none) :
    ∃ m, ∀ outcomes, Silent outcomes m →
      ∃ w' : World, Converges (rmdirUnchecked fs dir target name · (w.withFaults fs.dev outcomes))
        (0, w'.withFaults fs.dev (outcomes.drop m)) := by
  obtain ⟨n, w₁, after, goesOn⟩ := rmdirUnchecked_freed now dir target name
  obtain ⟨m, erases⟩ := rmdirEntry_silent after kept hit
  refine ⟨n + m, fun outcomes silent => ?_⟩
  obtain ⟨early, late⟩ := silent_add.mp silent
  obtain ⟨w', ends⟩ := erases _ late
  rw [List.drop_drop] at ends
  exact ⟨w', goesOn outcomes early _ ends⟩

/-- If no call fails, `fat32_rmdir` finds an entry in the target and leaves the volume, or it removes
the target. -/
theorem rmdirTarget_silent (owned : Owned fs v target.fsData.firstCluster l')
    (hit : find fs v (rmdirMatch name) l ≠ none) :
    ∃ m, ∀ outcomes, Silent outcomes m →
      ∃ (r : ℤ) (w' : World),
        Converges (rmdirTarget fs dir target name · (w.withFaults fs.dev outcomes))
          (r, w'.withFaults fs.dev (outcomes.drop m)) ∧ (r = -1 → volume fs w' = v) := by
  obtain ⟨w₁, after, -, search⟩ :=
    searching_faults now visible_local owned (rmdirTarget_eq fs dir target name)
  cases entry : find fs v visible l' with
  | some k =>
    refine ⟨searchCalls fs v visible l', fun outcomes silent => ?_⟩
    rcases search outcomes with ⟨-, s, buf, -, -, ends⟩ | ⟨later, unfound, -⟩
    · refine ⟨-1, freeNode target (w₁.free w.heap.next), (ends _).mpr (.const fun _ => ?_),
        fun _ => ((after.free _).freeNode target).volume⟩
      rw [World.free_withFaults, freeNode_withFaults]
    · rw [(unfound silent).1] at entry
      cases entry
  | none =>
    obtain ⟨m, erases⟩ := rmdirUnchecked_silent (after.free w.heap.next) kept hit
    refine ⟨searchCalls fs v visible l' + m, fun outcomes silent => ?_⟩
    obtain ⟨early, late⟩ := silent_add.mp silent
    rcases search outcomes with ⟨-, s, buf, found, -⟩ | ⟨later, unfound, ends⟩
    · rw [entry] at found
      cases found
    · obtain ⟨-, rfl⟩ := unfound early
      obtain ⟨w', done⟩ := erases _ late
      rw [List.drop_drop] at done
      refine ⟨0, w', (ends _).mpr ?_, fun no => absurd no (by decide)⟩
      simp only [World.free_withFaults]
      exact done

theorem rmdirUnchecked_failing (name : CString) (some : l ≠ []) :
    ∃ n w', Converges (rmdirUnchecked fs dir target name ·
        (w.withFaults fs.dev (List.replicate n false ++ [true]))) (-1, w') ∧
      volume fs w' = v.releaseAll (v.Leads fs target.fsData.firstCluster) := by
  obtain ⟨n, w₁, after, goesOn⟩ := rmdirUnchecked_freed now dir target name
  have silent := silent_replicate n [true]
  have rest := goesOn _ silent
  rw [List.drop_left' (List.length_replicate ..)] at rest
  rcases rmdirEntry_faults after kept name [true] with ⟨no, -⟩ | ⟨-, later, w', after', ends⟩
  · obtain ⟨m, count⟩ := Nat.exists_eq_succ_of_ne_zero
      (searchCalls_pos now.ready.geometry _ (rmdirMatch name) some).ne'
    rw [count] at no
    exact absurd no (not_silent_failing [] m)
  · refine ⟨n, w'.withFaults fs.dev later, rest _ ends, ?_⟩
    rw [volume_withFaults, after'.volume]

end Unchecked

theorem rmdirUnchecked_bare (bare : target.fsData.firstCluster < 2) (done : ℤ × World) :
    Converges (rmdirUnchecked fs dir target name · w) done ↔
      Converges (rmdirEntry fs dir name · (freeNode target w)) done := by
  have stops : ¬ InChain target.fsData.firstCluster := fun inChain => by
    have := inChain.1
    omega
  have freed : Converges (freeChain fs · target.fsData.firstCluster w) w :=
    freeChain_end stops
  exact freed.bind_iff

/-! ## When a failed removal leaves a dangling entry -/

/-- The function makes `calls` driver calls, if none of them fails. -/
def Makes (fs : Fs) (f : ℕ → World → Option (ℤ × World)) (w : World) (calls : ℕ) : Prop :=
  ∀ outcomes, Silent outcomes calls →
    ∃ (r : ℤ) (w' : World), Converges (f · (w.withFaults fs.dev outcomes))
      (r, w'.withFaults fs.dev (outcomes.drop calls))

theorem silent_of_late {m n : ℕ} (late : true ∉ (outcomes.take (n + m)).drop n) :
    Silent (outcomes.drop n) m := by
  rwa [List.drop_take, Nat.add_sub_cancel_left] at late

section Dangling

variable {d : Owner} (ready : Ready fs w) (consistent : Consistent fs (volume fs w))
  (denotes : Denotes fs (volume fs w) dir d) (isDir : (volume fs w).isDir d = true)
  (owns : Owns fs (volume fs w) d l)

include ready consistent in
theorem noDangling_same (after : volume fs w' = volume fs w) :
    NoDangling fs (volume fs w) (volume fs w') := by
  rw [after]
  refine noDangling_of_apart ready.geometry consistent (p := fun _ => False)
    (fun _ _ _ no => no.elim) ?_ fun _ => rfl
  simp [Volume.releaseAll]

include ready consistent in
theorem noDangling_of_ends {α : Type*} {f : ℕ → Option (α × World)} {r r' : α} {w₁ : World}
    (after : Becomes fs w₀ w₁ (volume fs w)) (ends : Converges f (r', w₁.withFaults fs.dev later))
    (failed : Converges f (r, w')) : NoDangling fs (volume fs w) (volume fs w') := by
  obtain ⟨-, rfl⟩ := Prod.mk.inj (failed.unique ends)
  refine noDangling_same ready consistent ?_
  rw [volume_withFaults, after.volume]

include ready consistent in
theorem noDangling_of_missed {w₁ : World} {tmp : ℕ} (after : Becomes fs w₀ w₁ (volume fs w))
    (failed : Converges (fun _ => some ((-1 : ℤ), (w₁.withFaults fs.dev later).free tmp)) (-1, w')) :
    NoDangling fs (volume fs w) (volume fs w') := by
  rw [World.free_withFaults] at failed
  exact noDangling_of_ends ready consistent (after.free tmp) (.const fun _ => rfl) failed

include ready consistent denotes isDir owns

/-- A call of `fat32_unlink` that fails leaves nothing dangling if none of its driver calls fails after
the search. -/
theorem unlink_noDangling_of_late (name : CString) :
    ∃ calls, Makes fs (unlink fs dir name) w calls ∧ ∀ outcomes w',
      true ∉ (outcomes.take calls).drop (searchCalls fs (volume fs w) (unlinkMatch name) l) →
      Converges (unlink fs dir name · (w.withFaults fs.dev outcomes)) (-1, w') →
        NoDangling fs (volume fs w) (volume fs w') := by
  have owned := denotes.owned owns
  obtain ⟨w₁, after, -, search⟩ := searching_faults (.refl ready) (unlinkMatch_local name) owned
    (unlink_eq (denotes.kind.trans isDir))
  have unhit : ∀ outcomes w', ¬ (Silent outcomes (searchCalls fs (volume fs w) (unlinkMatch name) l) ∧
      find fs (volume fs w) (unlinkMatch name) l ≠ none) →
      Converges (unlink fs dir name · (w.withFaults fs.dev outcomes)) (-1, w') →
        NoDangling fs (volume fs w) (volume fs w') := by
    intro outcomes w' no failed
    rcases search outcomes with ⟨silent, s, -, found, -⟩ | ⟨later, -, same⟩
    · exact absurd ⟨silent, by rw [found]; simp⟩ no
    · exact noDangling_of_missed ready consistent after ((same _).mp failed)
  cases found : find fs (volume fs w) (unlinkMatch name) l with
  | none =>
    refine ⟨searchCalls fs (volume fs w) (unlinkMatch name) l, fun outcomes silent => ?_,
      fun outcomes w' _ failed => unhit outcomes w' (fun hit => hit.2 found) failed⟩
    rcases search outcomes with ⟨-, s, -, hit, -⟩ | ⟨later, unfound, same⟩
    · rw [found] at hit
      cases hit
    · obtain ⟨-, rfl⟩ := unfound silent
      refine ⟨-1, w₁.free w.heap.next, (same _).mpr (.const fun _ => ?_)⟩
      rw [World.free_withFaults]
  | some k =>
    obtain ⟨hc, hi⟩ := find_mem found
    obtain ⟨m, erases⟩ :=
      unlinkHit_silent after.ready.attached (owned.valid hc) hi w.heap.next
    rw [after.volume] at erases
    have removes : ∀ outcomes,
        Silent outcomes (searchCalls fs (volume fs w) (unlinkMatch name) l + m) →
        ∃ w' : World, Converges (unlink fs dir name · (w.withFaults fs.dev outcomes))
          (0, w'.withFaults fs.dev
            (outcomes.drop (searchCalls fs (volume fs w) (unlinkMatch name) l + m))) := by
      intro outcomes silent
      obtain ⟨early, late⟩ := silent_add.mp silent
      rcases search outcomes with ⟨-, t, buf, hit, holds, same⟩ | ⟨later, unfound, -⟩
      · obtain rfl : k = t := Option.some.inj (found.symm.trans hit)
        obtain ⟨w', erased⟩ := erases buf holds _ late
        rw [List.drop_drop] at erased
        exact ⟨w', (same _).mpr erased⟩
      · rw [(unfound early).1] at found
        cases found
    refine ⟨_, fun outcomes silent => ⟨0, removes outcomes silent⟩, fun outcomes w' late failed => ?_⟩
    by_cases early : Silent outcomes (searchCalls fs (volume fs w) (unlinkMatch name) l)
    · obtain ⟨w₂, erased⟩ := removes outcomes (silent_add.mpr ⟨early, silent_of_late late⟩)
      obtain ⟨no, -⟩ := Prod.mk.inj (failed.unique erased)
      exact absurd no (by decide)
    · exact unhit outcomes w' (fun hit => early hit.1) failed

/-- Whatever fails, `fat32_unlink` leaves nothing dangling exactly when the slot it finds leads to no
cluster of an entry. -/
theorem unlink_noDangling_iff (name : CString) :
    (∀ outcomes w',
      Converges (unlink fs dir name · (w.withFaults fs.dev outcomes)) (-1, w') →
        NoDangling fs (volume fs w) (volume fs w')) ↔
    ∀ k, find fs (volume fs w) (unlinkMatch name) l = some k →
      ∀ s, Reach fs (volume fs w) (some s) →
        ∀ c, (volume fs w).Leads fs ((volume fs w).first fs (some k)) c →
          ¬ (volume fs w).Leads fs ((volume fs w).first fs (some s)) c := by
  have owned := denotes.owned owns
  obtain ⟨w₁, after, -, search⟩ := searching_faults (.refl ready) (unlinkMatch_local name) owned
    (unlink_eq (denotes.kind.trans isDir))
  constructor
  · rintro always ⟨c, i⟩ found s reach shared leads₁ leads₂
    obtain ⟨hc, hi⟩ := find_mem found
    have valid := owned.valid hc
    have first : 2 ≤ entryFirstCluster ((volume fs w₁).data c) i := by
      rw [after.volume]
      exact (Links.Reached.valid_first leads₁).1
    -- The calls of the search and of the release succeed, the next one fails.
    obtain ⟨n, strikes⟩ := unlinkHit_failing after.ready.attached valid hi w.heap.next first
    have silent := silent_replicate (searchCalls fs (volume fs w) (unlinkMatch name) l)
      (List.replicate n false ++ [true])
    rcases search _ with ⟨-, t, buf, hit, holds, same⟩ | ⟨_, unfound, -⟩
    · obtain rfl : (c, i) = t := Option.some.inj (found.symm.trans hit)
      rw [List.drop_left' (List.length_replicate ..)] at same
      rw [after.volume] at strikes
      obtain ⟨w', failed, released⟩ := strikes buf holds
      have clean := always _ w' ((same _).mpr failed)
      rw [released] at clean
      obtain ⟨-, -, -, -, -, -, live⟩ := reach.placed
      obtain ⟨d, still, free⟩ := dangling_of_shared leads₂ leads₁
      exact clean s reach live d still free
    · rw [(unfound silent).1] at found
      exact absurd found (by simp)
  · intro apart outcomes w' failed
    rcases search outcomes with ⟨-, k, buf, found, holds, same⟩ | ⟨later, -, same⟩
    · obtain ⟨hc, hi⟩ := find_mem found
      have first := (holds.sameSlot hi).firstCluster
      rw [← after.volume] at holds
      obtain ⟨p, only, result⟩ := unlinkHit_faults after.ready.attached (owned.valid hc) hi holds _
        ((same _).mp failed)
      rw [after.volume, first] at only
      rw [after.volume] at result
      refine noDangling_of_apart ready.geometry consistent
        (fun s reach c gone => apart k found s reach c (only c gone)) ?_ fun s => ?_
      · rcases result with result | result
        · rw [result]
        · rw [result]
          rfl
      · rcases result with result | result
        · rw [result]
          rfl
        · rw [result, first_erase]
          rfl
    · exact noDangling_of_missed ready consistent after ((same _).mp failed)

theorem owned_release_of_found {k : Slot} {l' : List ℕ}
    (found : find fs (volume fs w) (lookupMatch name) l = some k)
    (owns' : Owns fs (volume fs w) (some k) l') :
    Owned fs ((volume fs w).releaseAll ((volume fs w).Leads fs
      ((volume fs w).first fs (some k)))) dir.fsData.firstCluster l := by
  obtain ⟨chain, layout⟩ := consistent.exists_layout
  have g := ready.geometry
  have reach := reach_of_find denotes.reach isDir owns found
  obtain rfl := owns.unique g (layout.owns d denotes.reach)
  obtain rfl := owns'.unique g (layout.owns _ reach)
  have apart : (chain d).Disjoint (chain (some k)) := by
    refine layout.apart d denotes.reach (some k) reach fun same => ?_
    exact layout.not_self g denotes.reach k same (same ▸ mem_slotsOf.mpr (find_mem found))
  refine (denotes.owned owns).congr fun c mem => if_neg fun leads => ?_
  exact apart mem (owns'.1.mem_of_leads g leads)

/-- A call of `fat32_rmdir` that fails leaves nothing dangling if none of its driver calls fails after
the lookup. -/
theorem rmdir_noDangling_of_late (name : CString) :
    ∃ calls, Makes fs (rmdir fs dir name) w calls ∧ ∀ outcomes w',
      true ∉ (outcomes.take calls).drop (searchCalls fs (volume fs w) (lookupMatch name) l) →
      Converges (rmdir fs dir name · (w.withFaults fs.dev outcomes)) (-1, w') →
        NoDangling fs (volume fs w) (volume fs w') := by
  have owned := denotes.owned owns
  have faulty := rmdir_faulty (.refl ready) (denotes.kind.trans isDir) owned name
  by_cases hit : ∃ k, find fs (volume fs w) (lookupMatch name) l = some k ∧
      isDirEntry ((volume fs w).data k.1) k.2 = true
  · obtain ⟨k, found, directory⟩ := hit
    obtain ⟨l', owns'⟩ := consistent.owns _ (reach_of_find denotes.reach isDir owns found)
    have kept := owned_release_of_found ready consistent denotes isDir owns found owns'
    obtain ⟨target, w₁, first, after, same⟩ :=
      rmdir_silent (.refl ready) (denotes.kind.trans isDir) owned found directory
    have owned' : Owned fs (volume fs w) target.fsData.firstCluster l' := by
      rw [first]
      exact owns'.1
    rw [← first] at kept
    obtain ⟨m, removes⟩ := rmdirTarget_silent after kept owned' (rmdirMatch_found found)
    refine ⟨searchCalls fs (volume fs w) (lookupMatch name) l + m, fun outcomes silent => ?_,
      fun outcomes w' late failed => ?_⟩
    · obtain ⟨early, rest⟩ := silent_add.mp silent
      obtain ⟨r, w', ends, -⟩ := removes _ rest
      rw [List.drop_drop] at ends
      exact ⟨r, w', (same outcomes early _).mpr ends⟩
    · rcases faulty outcomes with ⟨early, -⟩ | ⟨later, w₁, after, -, ends⟩
      · obtain ⟨r, w'', ends, unchanged⟩ := removes _ (silent_of_late late)
        obtain ⟨rfl, rfl⟩ := Prod.mk.inj (((same outcomes early _).mp failed).unique ends)
        refine noDangling_same ready consistent ?_
        rw [volume_withFaults]
        exact unchanged rfl
      · exact noDangling_of_ends ready consistent after ends failed
  · refine ⟨searchCalls fs (volume fs w) (lookupMatch name) l, fun outcomes silent => ?_,
      fun outcomes w' _ failed => ?_⟩
    · rcases faulty outcomes with ⟨-, found⟩ | ⟨later, w₁, -, rest, ends⟩
      · exact absurd found hit
      · exact ⟨-1, w₁, rest silent ▸ ends⟩
    · rcases faulty outcomes with ⟨-, found⟩ | ⟨later, w₁, after, -, ends⟩
      · exact absurd found hit
      · exact noDangling_of_ends ready consistent after ends failed

/-- Whatever fails, `fat32_rmdir` leaves nothing dangling exactly when the directory it finds has no
clusters. -/
theorem rmdir_noDangling_iff (name : CString) :
    (∀ outcomes w',
      Converges (rmdir fs dir name · (w.withFaults fs.dev outcomes)) (-1, w') →
        NoDangling fs (volume fs w) (volume fs w')) ↔
    ∀ k, find fs (volume fs w) (lookupMatch name) l = some k →
      isDirEntry ((volume fs w).data k.1) k.2 = true → (volume fs w).first fs (some k) < 2 := by
  have owned := denotes.owned owns
  have isDirectory := denotes.kind.trans isDir
  constructor
  · intro always k found directory
    by_contra clusters
    have reach := reach_of_find denotes.reach isDir owns found
    obtain ⟨l', owns'⟩ := consistent.owns _ reach
    have kept := owned_release_of_found ready consistent denotes isDir owns found owns'
    obtain ⟨target, w₁, first, after, same⟩ :=
      rmdir_silent (.refl ready) isDirectory owned found directory
    have valid : fs.Valid ((volume fs w).first fs (some k)) := by
      rcases owns'.1 with chain | ⟨zero, -⟩
      · exact chain.node_head
      · omega
    rw [← first] at kept valid
    have nonempty : l ≠ [] := by
      rintro rfl
      exact absurd found (by simp [find, slotsOf, firstHit])
    -- The check for entries fails at its first read, and the search for the entry does so too.
    obtain ⟨w₂, after₂, unread⟩ := rmdirTarget_unread after valid dir name
    obtain ⟨n, w', ends, released⟩ := rmdirUnchecked_failing after₂ kept name nonempty
    have failed := same (List.replicate (searchCalls fs (volume fs w) (lookupMatch name) l) false ++
      true :: (List.replicate n false ++ [true])) (silent_replicate _ _) (-1, w')
    rw [List.drop_left' (List.length_replicate ..)] at failed
    have clean := always _ w' (failed.mpr (unread _ _ ends))
    rw [released, first] at clean
    rw [first] at valid
    have leads : (volume fs w).Leads fs ((volume fs w).first fs (some k)) _ := .start valid
    obtain ⟨d, still, free⟩ := dangling_of_shared leads leads
    obtain ⟨-, -, -, -, -, -, live⟩ := reach.placed
    exact clean k reach live d still free
  · intro bare outcomes w' failed
    rcases rmdir_faulty (.refl ready) isDirectory owned name outcomes with
      ⟨silent, k, found, directory⟩ | ⟨later, w₁, after, -, ends⟩
    · obtain ⟨l', owns'⟩ := consistent.owns _ (reach_of_find denotes.reach isDir owns found)
      obtain ⟨target, w₁, first, after, same⟩ :=
        rmdir_silent (.refl ready) isDirectory owned found directory
      have owned' : Owned fs (volume fs w) target.fsData.firstCluster l' := by
        rw [first]
        exact owns'.1
      have none := bare k found directory
      rw [← first] at none
      have target' := (same outcomes silent _).mp failed
      rcases rmdirTarget_faults after owned' dir name _ with
        ⟨later, w₂, after₂, ends⟩ | ⟨later, w₂, after₂, goesOn⟩
      · exact noDangling_of_ends ready consistent after₂ ends target'
      · have entry := (rmdirUnchecked_bare none _).mp ((goesOn _).mp target')
        simp only [freeNode_withFaults] at entry
        rcases rmdirEntry_faults (after₂.freeNode target) owned name later with
          ⟨-, w₃, erased⟩ | ⟨-, later', w₃, after₃, ends⟩
        · obtain ⟨no, -⟩ := Prod.mk.inj (entry.unique erased)
          exact absurd no (by decide)
        · exact noDangling_of_ends ready consistent after₃ ends entry
    · exact noDangling_of_ends ready consistent after ends failed

/-- On a consistent volume, a call of `fat32_unlink` or `fat32_rmdir` that returns -1 leaves no entry
dangling if none of the driver calls that it makes after the search for the entry fails.  It does so
whatever fails exactly when the entry found has no clusters that are an entry's: for `fat32_rmdir`, when
it is no directory or has no clusters at all. -/
theorem removal_noDangling_iff (name : CString) :
    ((∃ calls, Makes fs (unlink fs dir name) w calls ∧ ∀ outcomes w',
        true ∉ (outcomes.take calls).drop (searchCalls fs (volume fs w) (unlinkMatch name) l) →
        Converges (fun fuel => unlink fs dir name fuel (w.withFaults fs.dev outcomes)) (-1, w') →
          NoDangling fs (volume fs w) (volume fs w')) ∧
      ((∀ outcomes w',
          Converges (fun fuel => unlink fs dir name fuel (w.withFaults fs.dev outcomes)) (-1, w') →
            NoDangling fs (volume fs w) (volume fs w')) ↔
        ∀ k, find fs (volume fs w) (unlinkMatch name) l = some k →
          ∀ s, Reach fs (volume fs w) (some s) →
            ∀ c, (volume fs w).Leads fs ((volume fs w).first fs (some k)) c →
              ¬ (volume fs w).Leads fs ((volume fs w).first fs (some s)) c)) ∧
    (∃ calls, Makes fs (rmdir fs dir name) w calls ∧ ∀ outcomes w',
        true ∉ (outcomes.take calls).drop (searchCalls fs (volume fs w) (lookupMatch name) l) →
        Converges (fun fuel => rmdir fs dir name fuel (w.withFaults fs.dev outcomes)) (-1, w') →
          NoDangling fs (volume fs w) (volume fs w')) ∧
      ((∀ outcomes w',
          Converges (fun fuel => rmdir fs dir name fuel (w.withFaults fs.dev outcomes)) (-1, w') →
            NoDangling fs (volume fs w) (volume fs w')) ↔
        ∀ k, find fs (volume fs w) (lookupMatch name) l = some k →
          isDirEntry ((volume fs w).data k.1) k.2 = true →
            (volume fs w).first fs (some k) < 2) :=
  ⟨⟨unlink_noDangling_of_late ready consistent denotes isDir owns name,
      unlink_noDangling_iff ready consistent denotes isDir owns name⟩,
    rmdir_noDangling_of_late ready consistent denotes isDir owns name,
    rmdir_noDangling_iff ready consistent denotes isDir owns name⟩

end Dangling

/-- A root directory with a file `A` that owns cluster 3. -/
def fileWorld : World :=
  smallWorld (withEntry ((Bytes.put32 (fun _ => 0) 520 eocMax).put32 524 eocMax) 1024 0x20 3)

theorem layout_file : Layout smallFs (volume smallFs fileWorld) {none, some (2, 0)}
    (fun o => if o = none then [2] else [3]) :=
  layout_pair (by decide +kernel) (by decide +kernel) (by decide +kernel) (by decide +kernel)
    (by decide +kernel)

/-- Where the read of the search fails, `fat32_unlink` leaves nothing dangling.  The volume label `A`
behind the directory `A` has no clusters: `fat32_unlink`, which takes it for the file to remove, leaves
nothing dangling there, whatever fails. -/
theorem removal_noDangling_label :
    Consistent smallFs (volume smallFs fileWorld) ∧
    (unlink smallFs (rootNode smallFs 0 0 0) [0x61] 5
      (fileWorld.withFaults smallFs.dev [true])).map Prod.fst = some (-1) ∧
    (∀ w', Converges (fun fuel => unlink smallFs (rootNode smallFs 0 0 0) [0x61] fuel
        (fileWorld.withFaults smallFs.dev [true])) (-1, w') →
      NoDangling smallFs (volume smallFs fileWorld) (volume smallFs w')) ∧
    Consistent smallFs (volume smallFs (labelWorld 1 0)) ∧
      ∀ outcomes w', Converges (fun fuel => unlink smallFs (rootNode smallFs 0 0 0) [0x61] fuel
          ((labelWorld 1 0).withFaults smallFs.dev outcomes)) (-1, w') →
        NoDangling smallFs (volume smallFs (labelWorld 1 0)) (volume smallFs w') := by
  have file := layout_file.consistent ready_blank.geometry
  have start : Ready smallFs fileWorld := ready_small _
  obtain ⟨calls, -, quiet⟩ := (removal_noDangling_iff start file (denotes_root smallFs _ 0 0 0) rfl
    (layout_file.owns none (.inl rfl)) [0x61]).1.1
  have one : searchCalls smallFs (volume smallFs fileWorld) (unlinkMatch [0x61]) [2] = 1 := by
    decide +kernel
  have late : ([true].take calls).drop
      (searchCalls smallFs (volume smallFs fileWorld) (unlinkMatch [0x61]) [2]) = [] := by
    rw [one]
    exact List.drop_eq_nil_of_le (List.length_take_le' calls [true])
  have ready : Ready smallFs (labelWorld 1 0) := ready_small _
  have layout := layout_label (.inr rfl : (1, 0) = (0, 1) ∨ (1, 0) = (1, 0))
  have consistent := layout.consistent ready.geometry
  have exactly := (removal_noDangling_iff ready consistent (denotes_root smallFs _ 0 0 0) rfl
    (layout.owns none (.inl rfl)) [0x61]).1.2
  refine ⟨file, by decide +kernel, fun w' => quiet [true] w' ?_, consistent,
    exactly.mpr fun k found s _ c leads => ?_⟩
  · exact fun mem => absurd (late ▸ mem) List.not_mem_nil
  have label : find smallFs (volume smallFs (labelWorld 1 0)) (unlinkMatch [0x61]) [2] =
      some (2, 1) := by
    decide +kernel
  obtain rfl : (2, 1) = k := Option.some.inj (label.symm.trans found)
  have bare : (volume smallFs (labelWorld 1 0)).first smallFs (some (2, 1)) = 0 := by
    decide +kernel
  rw [bare] at leads
  have valid : smallFs.Valid 0 := Links.Reached.valid_first leads
  exact absurd valid (by decide)

/-- The write of the directory fails after the cluster of the file has been freed: `fat32_unlink`
returns -1, the file is still there, and its cluster is free.  The same happens to a directory when
`fat32_rmdir` cannot read the parent once more. -/
theorem failed_removal_dangles :
    Consistent smallFs (volume smallFs fileWorld) ∧
    (unlink smallFs (rootNode smallFs 0 0 0) [0x61] 5
        (fileWorld.withFaults smallFs.dev [false, false, false, false, true])).map
      (fun done => (done.1, (volume smallFs done.2).live (2, 0),
        (volume smallFs done.2).first smallFs (some (2, 0)), (volume smallFs done.2).fat 3)) =
      some (-1, true, 3, freeMark) ∧
    Consistent smallFs (volume smallFs (labelWorld 1 0)) ∧
    (rmdir smallFs (rootNode smallFs 0 0 0) [0x61] 5
        ((labelWorld 1 0).withFaults smallFs.dev [false, false, false, false, false, true])).map
      (fun done => (done.1, (volume smallFs done.2).live (2, 0),
        (volume smallFs done.2).first smallFs (some (2, 0)), (volume smallFs done.2).fat 3)) =
      some (-1, true, 3, freeMark) := by
  refine ⟨layout_file.consistent ready_blank.geometry, by decide +kernel,
    (layout_label (.inr rfl)).consistent ready_blank.geometry, by decide +kernel⟩

end Thuban.Fat32

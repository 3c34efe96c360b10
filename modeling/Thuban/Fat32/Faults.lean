import Thuban.Fat32.Scarcity
import Thuban.Fat32.Termination

/-!
# Driver calls that fail

As long as the outcomes of the driver calls are successes, a function of the driver does what it does
on a device that does not fail, and leaves the rest of the list to the next one.
-/

namespace Thuban

open Lib

namespace Fat32

variable {fs : Fs} {w w' : World} {v : Volume} {c : ℕ} {outcomes later : List Bool}

variable {first : ℕ} {l : List ℕ} {wanted : Bytes → ℕ → Bool}

namespace Attached

/-! ## Searching a directory -/

theorem readCluster_failing (attached : Attached fs w) (valid : fs.Valid c) (buf : Bytes)
    (later : List Bool) :
    Fat32.readCluster fs c buf (w.withFaults fs.dev (true :: later)) =
      (none, w.withFaults fs.dev later) := by
  have positive := attached.geometry.sectorsPerCluster
  obtain ⟨n, count⟩ : ∃ n, fs.boot.sectorsPerCluster = n + 1 :=
    ⟨fs.boot.sectorsPerCluster - 1, by omega⟩
  obtain ⟨done, rest, answered, read⟩ := attached.readCluster_faults valid buf (true :: later)
  rw [count] at answered read
  obtain ⟨rfl, rfl⟩ := answered.none
  rw [read, if_neg (Nat.succ_ne_zero n).symm]

theorem walk_failing (attached : Attached fs w) (valid : fs.Valid c) (buf : Bytes)
    (later : List Bool) :
    Converges (fun fuel => walk fs wanted fuel c buf (w.withFaults fs.dev (true :: later)))
      (.failed, w.withFaults fs.dev later) := by
  refine .step (fun fuel => ?_) (.const fun _ => rfl)
  rw [walk, if_pos (attached.geometry.inChain_of_valid valid),
    attached.readCluster_failing valid buf later]

end Attached

/-! ## Writing -/

namespace Attached

theorem logged (attached : Attached fs w) (log : List ℕ) :
    Turns fs w (w.setDev fs.dev { w.devs fs.dev with log := log }) (volume fs w) where
  attached := attached.medium (w.devs fs.dev).bytes log
  volume := by simp only [volume, World.setDev_devs]
  heap := rfl

/-- The write that marks a slot deleted: only one byte of the cluster changes, so a write that fails has
marked the slot or has changed nothing. -/
theorem writeErased_faults (attached : Attached fs w) (valid : fs.Valid c) {i : ℕ}
    (hi : i < fs.slots) {buf : Bytes} (holds : Holds fs (volume fs w) c buf)
    (outcomes : List Bool) :
    ∃ done later w', Answered outcomes fs.boot.sectorsPerCluster done later ∧
      Fat32.writeCluster fs c (buf.put (entrySize * i) 0xE5) (w.withFaults fs.dev outcomes) =
        (decide (done = fs.boot.sectorsPerCluster), w'.withFaults fs.dev later) ∧
      Turns fs w w' (if entrySize * i < done * sectorSize then (volume fs w).erase (c, i)
        else volume fs w) := by
  obtain ⟨done, later, w', answered, written, after⟩ :=
    attached.writeCluster_faults valid (buf.put (entrySize * i) 0xE5) outcomes
  refine ⟨done, later, w', answered, written, ?_⟩
  have stored : (volume fs w).store fs c (fun k => if k < done * sectorSize then
      buf.put (entrySize * i) 0xE5 k else (volume fs w).data c k) =
      if entrySize * i < done * sectorSize then (volume fs w).erase (c, i) else volume fs w := by
    split_ifs with marked
    · have base : Becomes fs (w.withOom []) (w.withOom []) (volume fs w) := .refl attached.ready
      rw [← store_erase base holds hi]
      refine congrArg (fun data => ({ volume fs w with data := data } : Volume))
        (congrArg (Function.update _ c) (funext fun k => ?_))
      by_cases hk : k < fs.clusterSize
      · simp only [hk, if_true]
        split_ifs with low
        · rfl
        · rw [Bytes.put, if_neg (by omega), holds k hk]
      · simp [hk]
    · refine congrArg (fun data => ({ volume fs w with data := data } : Volume)) ?_
      refine (congrArg (Function.update _ c) (funext fun k => ?_)).trans
        (Function.update_eq_self c (volume fs w).data)
      by_cases hk : k < fs.clusterSize
      · simp only [hk, if_true]
        split_ifs with low
        · rw [Bytes.put, if_neg (by omega), holds k hk]
        · rfl
      · simp only [hk, if_false]
        exact (volume_data_outside (not_lt.mp hk)).symm
  rwa [stored] at after

end Attached

/-! ## Releasing clusters -/

/-- The driver calls for one entry of the table. -/
def Fs.entryCalls (fs : Fs) : ℕ := if 1 < fs.boot.numFats then 1 + (1 + 1) else 1 + 1

theorem Geometry.second_sector_inside (g : Geometry fs) (valid : fs.Valid c)
    (two : 1 < fs.boot.numFats) :
    (fatSector fs c + fs.boot.fatSize32) % 2 ^ 32 < fs.boot.totalSectors32 := by
  have second := g.second_table_le two
  have sectors := g.sectors
  have data := g.dataFits
  obtain ⟨below, above⟩ := fatSector_lt g valid
  rw [Nat.mod_eq_of_lt (by omega)]
  omega

namespace Attached

theorem setFatEntry_silent (attached : Attached fs w) (valid : fs.Valid c) (value : ℕ)
    (silent : Silent outcomes fs.entryCalls) :
    Fat32.setFatEntry fs c value (w.withFaults fs.dev outcomes) =
      ((Fat32.setFatEntry fs c value w).1,
        (Fat32.setFatEntry fs c value w).2.withFaults fs.dev (outcomes.drop fs.entryCalls)) := by
  have g := attached.geometry
  have known := g.known valid
  have here := fatSector_inside g valid
  unfold Fs.entryCalls at silent ⊢
  simp only [Fat32.setFatEntry, if_neg known, World.blkdevRead_working attached.device here,
    World.blkdevWrite_working attached.device here]
  by_cases two : 1 < fs.boot.numFats
  · have there := g.second_sector_inside valid two
    rw [if_pos two] at silent ⊢
    obtain ⟨first, rest⟩ := silent_add.mp silent
    obtain ⟨second, third⟩ := silent_add.mp rest
    rw [World.blkdevRead_silent attached.device here _ _ first]
    simp only [World.withFaults_heap]
    rw [World.blkdevWrite_silent attached.device here _ _ second]
    simp only [if_pos two]
    rw [World.blkdevWrite_silent (attached.medium _ _).device there _ _ third,
      World.blkdevWrite_working (attached.medium _ _).device there]
    simp only [List.drop_drop, Nat.add_assoc]
  · rw [if_neg two] at silent ⊢
    obtain ⟨first, second⟩ := silent_add.mp silent
    rw [World.blkdevRead_silent attached.device here _ _ first]
    simp only [World.withFaults_heap]
    rw [World.blkdevWrite_silent attached.device here _ _ second]
    simp [if_neg two]

variable {value fuel : ℕ}

section

variable (attached : Attached fs w)

include attached

/-- An entry of the table is set when its sector is read and written, and stays as it is otherwise.  The
second table may be left behind. -/
theorem setFatEntry_stores (valid : fs.Valid c) (fits : value < 2 ^ 28) (outcomes : List Bool) :
    ∃ ok later w', Fat32.setFatEntry fs c value (w.withFaults fs.dev outcomes) =
        (ok, w'.withFaults fs.dev later) ∧
      Turns fs w w' (if Silent outcomes 2 then (volume fs w).link c value else volume fs w) := by
  by_cases silent : Silent outcomes fs.entryCalls
  · obtain ⟨w', set, after⟩ := attached.setFatEntry valid fits
    have stored : Silent outcomes 2 := by
      rw [Fs.entryCalls] at silent
      split at silent
      · exact Silent.of_add (m := 2) (n := 1) silent
      · exact silent
    rw [attached.setFatEntry_silent valid value silent, set, if_pos stored]
    exact ⟨true, _, w', rfl, after⟩
  have g := attached.geometry
  have known := g.known valid
  have here := fatSector_inside g valid
  simp only [Fat32.setFatEntry, if_neg known]
  rcases silent_or_failing outcomes with first | ⟨later, rfl⟩
  · rw [World.blkdevRead_silent attached.device here _ _ first]
    simp only [World.withFaults_heap]
    rcases silent_or_failing (outcomes.drop 1) with second | ⟨later, stop⟩
    · -- The entry is set; what fails is the copy.
      have two : 1 < fs.boot.numFats := by
        by_contra single
        rw [Fs.entryCalls, if_neg single] at silent
        exact silent (silent_add.mpr ⟨first, second⟩)
      have third : ¬ Silent ((outcomes.drop 1).drop 1) 1 := by
        intro third
        rw [Fs.entryCalls, if_pos two] at silent
        exact silent (silent_add.mpr ⟨first, silent_add.mpr ⟨second, third⟩⟩)
      obtain ⟨later, stop⟩ := (silent_or_failing ((outcomes.drop 1).drop 1)).resolve_left third
      have there := g.second_sector_inside valid two
      have stored : Silent outcomes 2 := silent_add.mpr ⟨first, second⟩
      rw [World.blkdevWrite_silent attached.device here _ _ second]
      simp only [if_pos two, if_pos stored, stop]
      rw [World.blkdevWrite_failing (attached.medium _ _).device there]
      simp only [blit_fatSector g valid, le32_fatSector g valid, World.setDev_setDev,
        World.setDev_devs]
      refine ⟨true, later, _, rfl, attached.medium _ _, ?_, rfl⟩
      rw [volume_put32 g valid _ _ _ fun _ _ => rfl]
      congr 1
      omega
    · have lost : ¬ Silent outcomes 2 := by
        intro stored
        have second := (silent_add.mp (show Silent outcomes (1 + 1) from stored)).2
        rw [stop] at second
        exact not_silent_failing later 0 second
      rw [stop, World.blkdevWrite_failing attached.device here, if_neg lost]
      exact ⟨false, later, _, rfl, attached.logged _⟩
  · rw [World.blkdevRead_failing attached.device here, if_neg (not_silent_failing later 1)]
    exact ⟨false, later, w, rfl, attached, rfl, rfl⟩

theorem setFatEntry_faults (valid : fs.Valid c) (fits : value < 2 ^ 28) (outcomes : List Bool) :
    ∃ ok later w', Fat32.setFatEntry fs c value (w.withFaults fs.dev outcomes) =
        (ok, w'.withFaults fs.dev later) ∧
      (Turns fs w w' (volume fs w) ∨ Turns fs w w' ((volume fs w).link c value)) := by
  obtain ⟨ok, later, w', set, after⟩ := attached.setFatEntry_stores valid fits outcomes
  refine ⟨ok, later, w', set, ?_⟩
  split at after
  · exact .inr after
  · exact .inl after

theorem freeCluster_outside (outside : ¬ fs.Valid c) (w' : World) :
    Fat32.freeCluster fs c w' = w' := by
  have unknown := attached.geometry.unknown outside
  rw [Fat32.freeCluster, if_pos unknown]

theorem freeCluster_known (valid : fs.Valid c) (w' : World) :
    Fat32.freeCluster fs c w' = (Fat32.setFatEntry fs c freeMark w').2 := by
  have known := attached.geometry.known valid
  rw [Fat32.freeCluster, if_neg known]

/-- As long as its calls succeed, a chain is released as on a device that does not fail. -/
theorem freeChain_silent (freed : Fat32.freeChain fs fuel first w = some w') :
    ∃ n, ∀ outcomes, Silent outcomes n →
      Fat32.freeChain fs fuel first (w.withFaults fs.dev outcomes) =
        some (w'.withFaults fs.dev (outcomes.drop n)) := by
  induction fuel generalizing w first with
  | zero => simp [Fat32.freeChain] at freed
  | succ fuel ih =>
    rw [Fat32.freeChain] at freed
    by_cases inChain : InChain first
    · rw [if_pos inChain] at freed
      simp only [attached.getNextCluster] at freed
      by_cases valid : fs.Valid first
      · have after := attached.freeCluster valid
        obtain ⟨n, rest⟩ := ih after.attached freed
        refine ⟨1 + (fs.entryCalls + n), fun outcomes silent => ?_⟩
        obtain ⟨link, more⟩ := silent_add.mp silent
        obtain ⟨entry, later⟩ := silent_add.mp more
        rw [Fat32.freeChain, if_pos inChain, attached.getNextCluster_faults valid, if_pos link]
        simp only [attached.freeCluster_known valid,
          attached.setFatEntry_silent valid freeMark entry]
        rw [attached.freeCluster_known valid] at rest
        rw [rest _ later, List.drop_drop, List.drop_drop]
      · rw [attached.freeCluster_outside valid] at freed
        obtain ⟨n, rest⟩ := ih attached freed
        refine ⟨n, fun outcomes silent => ?_⟩
        rw [Fat32.freeChain, if_pos inChain, attached.getNextCluster_outside valid]
        simp only [attached.freeCluster_outside valid]
        rw [fat_outside valid] at rest
        exact rest outcomes silent
    · rw [if_neg inChain] at freed
      cases freed
      refine ⟨0, fun outcomes _ => ?_⟩
      rw [Fat32.freeChain, if_neg inChain, List.drop_zero]

/-- Whatever fails, only clusters that the table leads to are released. -/
theorem freeChain_faults {w₁ : World}
    (freed : Fat32.freeChain fs fuel first (w.withFaults fs.dev outcomes) = some w₁) :
    ∃ p later w', w₁ = w'.withFaults fs.dev later ∧ Turns fs w w' ((volume fs w).releaseAll p) ∧
      ∀ d, p d → (volume fs w).Leads fs first d := by
  have none : Turns fs w w ((volume fs w).releaseAll fun _ => False) :=
    ⟨attached, by simp [Volume.releaseAll], rfl⟩
  induction fuel generalizing w first outcomes with
  | zero => simp [Fat32.freeChain] at freed
  | succ fuel ih =>
    rw [Fat32.freeChain] at freed
    by_cases inChain : InChain first
    · rw [if_pos inChain] at freed
      by_cases valid : fs.Valid first
      · rw [attached.getNextCluster_faults valid] at freed
        obtain ⟨ok, later, w₂, set, after⟩ :=
          attached.setFatEntry_faults valid (by decide : freeMark < 2 ^ 28) (outcomes.drop 1)
        simp only [attached.freeCluster_known valid, set] at freed
        have attached₂ : Attached fs w₂ := after.elim (·.attached) (·.attached)
        obtain ⟨p, rest, w', result, released, only⟩ := ih attached₂ freed
          ⟨attached₂, by simp [Volume.releaseAll], rfl⟩
        have behind : ∀ d, p d → (volume fs w₂).Leads fs ((volume fs w).fat first) d := by
          intro d gone
          have leads := only d gone
          split_ifs at leads
          · exact leads
          · have marked := attached.geometry.lt_eocMin (Links.Reached.valid_first leads)
            exact absurd marked (by decide)
        rcases after with after | after
        · rw [after.volume] at behind released
          refine ⟨p, rest, w', result, after.trans released, fun d gone => ?_⟩
          have leads := behind d gone
          exact Links.Reached.trans (.next (.start valid) (Links.Reached.valid_first leads)) leads
        · rw [after.volume] at behind released
          have split : ∀ d, (d = first ∨ p d) ↔ d = first ∨ p d := fun _ => Iff.rfl
          rw [Volume.releaseAll_link _ first split] at released
          refine ⟨_, rest, w', result, after.trans released, fun d gone => ?_⟩
          exact (Volume.leads_iff valid d).mpr (gone.imp_right (behind d))
      · rw [attached.getNextCluster_outside valid] at freed
        simp only [attached.freeCluster_outside valid] at freed
        obtain ⟨p, rest, w', result, released, only⟩ := ih attached freed none
        refine ⟨p, rest, w', result, released, fun d gone => ?_⟩
        have marked := attached.geometry.lt_eocMin (Links.Reached.valid_first (only d gone))
        exact absurd marked (by decide)
    · rw [if_neg inChain, Option.some.injEq] at freed
      exact ⟨fun _ => False, outcomes, w, freed.symm, none, fun _ no => no.elim⟩

end

end Attached

end Fat32

end Thuban

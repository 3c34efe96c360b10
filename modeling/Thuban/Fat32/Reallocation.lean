import Thuban.Fat32.Emptiness

/-!
# Clusters that are allocated twice

The allocator remembers a cluster only by its entry in the table, and `fat32_alloc_cluster` returns the
cluster even when `fat32_set_fat_entry` could not store that entry.
-/

namespace Thuban.Fat32

open Lib

variable {fs : Fs} {w w' : World} {v : Volume} {c : ℕ} {outcomes : List Bool}

/-! ## One allocation -/

/-- With these outcomes of its driver calls, `fat32_alloc_cluster` returns `c`: of the clusters that are
free it is the first one whose entry can be read.  The entry of cluster `c` is read by call `c - 2`. -/
structure Chosen (fs : Fs) (v : Volume) (outcomes : List Bool) (c : ℕ) : Prop where
  valid : fs.Valid c
  free : v.fat c = freeMark
  read : Silent (outcomes.drop (c - 2)) 1
  earlier : ∀ d, fs.Valid d → d < c → v.fat d = freeMark → ¬ Silent (outcomes.drop (d - 2)) 1

/-- The two calls behind it, with which `fat32_set_fat_entry` reads and writes the sector of the entry,
succeed. -/
def Stored (outcomes : List Bool) (c : ℕ) : Prop := Silent (outcomes.drop (c - 1)) 2

theorem Chosen.unique {d : ℕ} (h : Chosen fs v outcomes c) (h' : Chosen fs v outcomes d) : c = d := by
  rcases Nat.lt_trichotomy c d with lt | same | lt
  · exact absurd h.read (h'.earlier c h.valid lt h.free)
  · exact same
  · exact absurd h'.read (h.earlier d h'.valid lt h'.free)

/-- The scan stops at the first entry that is read and is free. -/
theorem Attached.allocScan_faults (attached : Attached fs w) {n : ℕ}
    (range : ∀ d, c ≤ d → d < c + n → fs.Valid d) (outcomes : List Bool) :
    (∃ d, c ≤ d ∧ d < c + n ∧ (volume fs w).fat d = freeMark ∧
        Silent (outcomes.drop (d - c)) 1 ∧
        (∀ e, c ≤ e → e < d → (volume fs w).fat e = freeMark →
          ¬ Silent (outcomes.drop (e - c)) 1) ∧
        allocScan fs n c (w.withFaults fs.dev outcomes) =
          (d, (Fat32.setFatEntry fs d eocMax
            (w.withFaults fs.dev (outcomes.drop (d - c + 1)))).2)) ∨
      (∀ d, c ≤ d → d < c + n → (volume fs w).fat d = freeMark →
          ¬ Silent (outcomes.drop (d - c)) 1) ∧
        allocScan fs n c (w.withFaults fs.dev outcomes) =
          (0, w.withFaults fs.dev (outcomes.drop n)) := by
  induction n generalizing c outcomes with
  | zero => exact .inr ⟨fun d low high => by omega, rfl⟩
  | succ n ih =>
    have valid := range c le_rfl (by omega)
    rw [allocScan, attached.getNextCluster_faults valid]
    by_cases hit : (volume fs w).fat c = freeMark ∧ Silent outcomes 1
    · refine .inl ⟨c, le_rfl, by omega, hit.1, ?_, fun e low high => by omega, ?_⟩
      · rw [Nat.sub_self]
        exact hit.2
      · simp [if_pos hit.2, hit.1]
    · have other : (if Silent outcomes 1 then (volume fs w).fat c else eocMax) ≠ freeMark := by
        split
        · rename_i read
          exact fun free => hit ⟨free, read⟩
        · decide
      -- The calls of the rest of the scan are numbered from the second one on.
      have shift : ∀ e, c + 1 ≤ e → (outcomes.drop 1).drop (e - (c + 1)) = outcomes.drop (e - c) := by
        intro e low
        rw [List.drop_drop]
        congr 1
        omega
      have here : (volume fs w).fat c = freeMark → ¬ Silent (outcomes.drop (c - c)) 1 := by
        rw [Nat.sub_self]
        exact fun free read => hit ⟨free, read⟩
      have passed : ∀ e, c ≤ e → (volume fs w).fat e = freeMark →
          (c + 1 ≤ e → ¬ Silent ((outcomes.drop 1).drop (e - (c + 1))) 1) →
          ¬ Silent (outcomes.drop (e - c)) 1 := by
        intro e low free later
        rcases Nat.eq_or_lt_of_le low with rfl | low
        · exact here free
        · rw [← shift e low]
          exact later low
      simp only [if_neg other]
      rcases @ih (c + 1) (fun d low high => range d (by omega) (by omega)) (outcomes.drop 1) with
        ⟨d, low, high, free, read, earlier, scan⟩ | ⟨none, scan⟩
      · refine .inl ⟨d, by omega, by omega, free, ?_, fun e le lt free => ?_, ?_⟩
        · rw [← shift d low]
          exact read
        · exact passed e le free fun low => earlier e low lt free
        · rw [scan, List.drop_drop, show 1 + (d - (c + 1) + 1) = d - c + 1 by omega]
      · refine .inr ⟨fun d le lt free => ?_, ?_⟩
        · exact passed d le free fun low => none d low (by omega) free
        · rw [scan, List.drop_drop, Nat.add_comm]

theorem Attached.allocCluster_faults (attached : Attached fs w) (outcomes : List Bool) :
    ∃ later w', (Turns fs w w' (volume fs w) ∧ (∀ c, ¬ Chosen fs (volume fs w) outcomes c) ∧
        Fat32.allocCluster fs (w.withFaults fs.dev outcomes) = (0, w'.withFaults fs.dev later)) ∨
      ∃ c, Chosen fs (volume fs w) outcomes c ∧
        Fat32.allocCluster fs (w.withFaults fs.dev outcomes) = (c, w'.withFaults fs.dev later) ∧
        (Stored outcomes c → Turns fs w w' ((volume fs w).link c eocMax)) ∧
        (¬ Stored outcomes c → Turns fs w w' (volume fs w)) := by
  have limit := attached.geometry.limit
  have range : ∀ d, 2 ≤ d → d < 2 + (fs.limit - 2) → fs.Valid d := fun d low high =>
    ⟨low, by omega⟩
  rw [Fat32.allocCluster]
  rcases attached.allocScan_faults range outcomes with
    ⟨c, low, high, free, read, earlier, scan⟩ | ⟨none, scan⟩
  · have chosen : Chosen fs (volume fs w) outcomes c :=
      ⟨range c low high, free, read, fun d valid lt => earlier d valid.1 lt⟩
    obtain ⟨ok, later, w', set, after⟩ := attached.setFatEntry_stores chosen.valid
      (show eocMax < 2 ^ 28 by decide) (outcomes.drop (c - 2 + 1))
    rw [set] at scan
    rw [show c - 2 + 1 = c - 1 by omega] at after
    refine ⟨later, w', .inr ⟨c, chosen, scan, fun stored => ?_, fun lost => ?_⟩⟩
    · rwa [if_pos (show Silent _ 2 from stored)] at after
    · rwa [if_neg (show ¬ Silent _ 2 from lost)] at after
  · refine ⟨_, w, .inl ⟨⟨attached, rfl, rfl⟩, fun c chosen => ?_, scan⟩⟩
    have high := chosen.valid.2
    exact none c chosen.valid.1 (by omega) chosen.free chosen.read

/-! ## What happens between two allocations -/

/-- A call of the driver between two allocations, or of the allocator of memory. -/
inductive TableCall
  | next (c : ℕ)
  | read (c : ℕ) (buf : Bytes)
  | write (c : ℕ) (buf : Bytes)
  | set (c value : ℕ)
  | alloc
  | memory

/-- The call leads from `w` to `w'`.  What is written goes to clusters of the volume, and no entry is set
to 0. -/
def TableStep (fs : Fs) (w : World) : TableCall → World → Prop
  | .next c, w' => w' = (getNextCluster fs c w).2
  | .read c buf, w' => w' = (readCluster fs c buf w).2
  | .write c buf, w' => fs.Valid c ∧ w' = (writeCluster fs c buf w).2
  | .set c value, w' => value % 2 ^ 28 ≠ freeMark ∧ w' = (setFatEntry fs c value w).2
  | .alloc, w' => w' = (allocCluster fs w).2
  | .memory, w' => w'.devs = w.devs

/-- The volume is attached, whatever its driver calls will answer, and `c` is in use. -/
def InUse (fs : Fs) (c : ℕ) (w : World) : Prop :=
  ∃ w₀ outcomes, w = w₀.withFaults fs.dev outcomes ∧ Attached fs w₀ ∧
    (volume fs w₀).fat c ≠ freeMark

theorem setFatEntry_mod (fs : Fs) (c value : ℕ) (w : World) :
    setFatEntry fs c (value % 2 ^ 28) w = setFatEntry fs c value w := by
  unfold setFatEntry
  rw [Nat.mod_mod]

namespace InUse

theorem answered {later : List Bool} (used : InUse fs c w) (after : w' = w.withFaults fs.dev later) :
    InUse fs c w' := by
  obtain ⟨w₀, outcomes, rfl, attached, taken⟩ := used
  rw [World.withFaults_withFaults] at after
  exact ⟨w₀, later, after, attached, taken⟩

theorem devs (used : InUse fs c w) (same : w'.devs = w.devs) : InUse fs c w' := by
  obtain ⟨w₀, outcomes, rfl, attached, taken⟩ := used
  have device : (w'.withFaults fs.dev []).devs fs.dev = w₀.devs fs.dev := by
    rw [World.withFaults_devs, same, World.withFaults_devs]
    exact congrArg (fun faults => { w₀.devs fs.dev with faults }) attached.device.reliable.symm
  refine ⟨w'.withFaults fs.dev [], outcomes, ?_, ⟨attached.geometry, ?_⟩, ?_⟩
  · have faults : (w'.devs fs.dev).faults = outcomes := by
      rw [same, World.withFaults_devs]
    rw [World.withFaults_withFaults, ← faults, World.withFaults_self]
  · rw [device]
    exact attached.device
  · rw [volume_withFaults, volume_congr same, volume_withFaults]
    exact taken

theorem link {w₀ : World} {d value : ℕ} (taken : (volume fs w₀).fat c ≠ freeMark)
    (mark : value ≠ freeMark)
    (after : Turns fs w₀ w' (volume fs w₀) ∨ Turns fs w₀ w' ((volume fs w₀).link d value))
    (outcomes : List Bool) : InUse fs c (w'.withFaults fs.dev outcomes) := by
  rcases after with after | after
  · exact ⟨w', outcomes, rfl, after.attached, by rwa [after.volume]⟩
  · refine ⟨w', outcomes, rfl, after.attached, ?_⟩
    rw [after.volume]
    show Function.update (volume fs w₀).fat d value c ≠ freeMark
    rw [Function.update_apply]
    split
    · exact mark
    · exact taken

theorem step {call : TableCall} (used : InUse fs c w) (step : TableStep fs w call w') :
    InUse fs c w' := by
  cases call with
  | next d =>
    have polled : World.Polled w (getNextCluster fs d w).2 fs.dev := getNextCluster_polled rfl
    obtain ⟨n, read⟩ := polled
    exact used.answered (step.trans read)
  | read d buf =>
    have polled : World.Polled w (readCluster fs d buf w).2 fs.dev := readCluster_polled rfl
    obtain ⟨n, read⟩ := polled
    exact used.answered (step.trans read)
  | write d buf =>
    obtain ⟨valid, rfl⟩ := step
    obtain ⟨w₀, outcomes, rfl, attached, taken⟩ := used
    obtain ⟨done, later, w₁, -, wrote, after⟩ := attached.writeCluster_faults valid buf outcomes
    rw [wrote]
    exact ⟨w₁, later, rfl, after.attached, by rwa [after.volume]⟩
  | set d value =>
    obtain ⟨mark, rfl⟩ := step
    obtain ⟨w₀, outcomes, rfl, attached, taken⟩ := used
    rw [← setFatEntry_mod]
    by_cases valid : fs.Valid d
    · obtain ⟨ok, later, w₁, set, after⟩ :=
        attached.setFatEntry_faults valid (Nat.mod_lt value (by decide)) outcomes
      rw [set]
      exact link taken mark after later
    · have unknown := attached.geometry.unknown valid
      rw [setFatEntry, if_pos unknown]
      exact ⟨w₀, outcomes, rfl, attached, taken⟩
  | alloc =>
    obtain ⟨w₀, outcomes, rfl, attached, taken⟩ := used
    obtain ⟨later, w₁, ⟨after, -, alloc⟩ | ⟨d, -, alloc, stored, lost⟩⟩ :=
      attached.allocCluster_faults outcomes
    · rw [step, alloc]
      exact ⟨w₁, later, rfl, after.attached, by rwa [after.volume]⟩
    · rw [step, alloc]
      have after : Turns fs w₀ w₁ (volume fs w₀) ∨
          Turns fs w₀ w₁ ((volume fs w₀).link d eocMax) := by
        by_cases kept : Stored outcomes d
        · exact .inr (stored kept)
        · exact .inl (lost kept)
      exact link taken (show eocMax ≠ freeMark by decide) after later
  | memory => exact used.devs step

end InUse

/-- Two allocations with any calls in between that free no cluster: whatever fails later, they return
different clusters, if the entry of the first one can be stored and only then. -/
theorem alloc_distinct_iff (attached : Attached fs w) (outcomes : List Bool) :
    (∀ a w₁ later calls w₂ b w₃, allocCluster fs (w.withFaults fs.dev outcomes) = (a, w₁) → a ≠ 0 →
        Run (TableStep fs) (w₁.withFaults fs.dev later) calls w₂ →
        allocCluster fs w₂ = (b, w₃) → b ≠ 0 → a ≠ b) ↔
      ∀ c, Chosen fs (volume fs w) outcomes c → Stored outcomes c := by
  obtain ⟨later, w₁, ⟨-, none, alloc⟩ | ⟨a, chosen, alloc, stored, lost⟩⟩ :=
    attached.allocCluster_faults outcomes
  · refine iff_of_true (fun a w₁ later calls w₂ b w₃ first some => ?_) fun c chosen =>
      absurd chosen (none c)
    rw [alloc] at first
    exact absurd (congrArg Prod.fst first).symm some
  have two := chosen.valid.1
  constructor
  · intro distinct c chosen'
    obtain rfl := chosen.unique chosen'
    by_contra failed
    -- The table is as before, and the same outcomes once more lead to the same cluster.
    have after := lost failed
    obtain ⟨later', w₂, ⟨-, none, -⟩ | ⟨b, again, second, -⟩⟩ :=
      after.attached.allocCluster_faults outcomes
    · rw [after.volume] at none
      exact none a chosen
    · rw [after.volume] at again
      obtain rfl := chosen.unique again
      have same : (w₁.withFaults fs.dev later).withFaults fs.dev outcomes =
          w₁.withFaults fs.dev outcomes := World.withFaults_withFaults outcomes
      rw [← same] at second
      exact distinct a _ outcomes [] _ a _ alloc (by omega) (.nil _) second (by omega) rfl
  · intro kept a' w₁' later' calls w₂ b w₃ first _ run second some same
    rw [alloc] at first
    obtain ⟨rfl, rfl⟩ := Prod.mk.inj first
    have after := stored (kept a chosen)
    have used : InUse fs a ((w₁.withFaults fs.dev later).withFaults fs.dev later') := by
      refine ⟨w₁, later', World.withFaults_withFaults _, after.attached, ?_⟩
      rw [after.volume]
      show Function.update (volume fs w).fat a eocMax a ≠ freeMark
      rw [Function.update_self]
      decide
    obtain ⟨w₀, outcomes', rfl, attached', taken⟩ :=
      run.invariant (P := InUse fs a) (fun _ _ _ used step => used.step step) used
    obtain ⟨_, _, ⟨-, -, again⟩ | ⟨d, chosen', again, -⟩⟩ :=
      attached'.allocCluster_faults outcomes'
    · rw [again] at second
      exact some (congrArg Prod.fst second).symm
    · rw [again] at second
      obtain rfl : d = a := (congrArg Prod.fst second).trans same.symm
      exact taken chosen'.free

/-- Two allocations on the blank volume. -/
theorem alloc_distinct_iff_blank : ∃ w₁ w₂,
    allocCluster smallFs (blankWorld.withFaults 0 []) = (3, w₁) ∧
      allocCluster smallFs (w₁.withFaults 0 []) = (4, w₂) ∧ 3 ≠ 4 := by
  have first : (allocCluster smallFs (blankWorld.withFaults 0 [])).1 = 3 := by decide +kernel
  have second : (allocCluster smallFs
      ((allocCluster smallFs (blankWorld.withFaults 0 [])).2.withFaults 0 [])).1 = 4 := by
    decide +kernel
  refine ⟨_, _, Prod.ext first rfl, Prod.ext second rfl, ?_⟩
  exact (alloc_distinct_iff ready_blank.attached []).mpr (fun c _ => by simp [Stored, Silent]) 3 _ [] []
    _ 4 _ (Prod.ext first rfl) (by decide) (.nil _) (Prod.ext second rfl) (by decide)

/-- The blank volume, and a device that fails at its fourth call. -/
def faultyBlank : World := blankWorld.withFaults 0 [false, false, false, true]

/-- The sector with the entry of cluster 3 is read, but the write of it fails: cluster 3 is returned
twice. -/
theorem cluster_allocated_twice : (allocCluster smallFs faultyBlank).1 = 3 ∧
    (allocCluster smallFs (allocCluster smallFs faultyBlank).2).1 = 3 := by
  decide +kernel

end Thuban.Fat32

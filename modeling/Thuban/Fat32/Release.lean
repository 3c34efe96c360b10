import Thuban.Fat32.Invariant
import Thuban.Fat32.Scarcity
import Thuban.Fat32.Writes
import Thuban.Lib.Links

/-!
# Releasing whatever the table says

`fat32_free_chain` on a table of any contents: links may form cycles, run into each other or lead out
of the volume.  It reads a link, erases it and goes on where the link led, so it meets exactly the
clusters the table leads to from the start, and an erased link ends it.
-/

namespace Thuban.Fat32

open Lib

/-- The cluster `c` is met from `first` by following the links of the table. -/
def Volume.Leads (v : Volume) (fs : Fs) (first c : ℕ) : Prop :=
  Links.Reached v.fat fs.Valid first c

open Classical in
/-- The volume with the clusters of `p` marked free. -/
noncomputable def Volume.releaseAll (v : Volume) (p : ℕ → Prop) : Volume :=
  { v with fat := fun c => if p c then freeMark else v.fat c }

def Fs.entries (fs : Fs) : ℕ := fs.boot.fatSize32 * sectorSize / 4

/-- The first two tables agree, if there are two. -/
def Mirrored (fs : Fs) (bytes : Bytes) : Prop :=
  1 < fs.boot.numFats → ∀ k < fs.boot.fatSize32 * sectorSize,
    bytes ((fs.fatOffset + fs.boot.fatSize32) * sectorSize + k) =
      bytes (fs.fatOffset * sectorSize + k)

/-- In the table as stored, the value of the entries of `p` becomes 0 (their top four bits stay) and
every other entry keeps all its bits. -/
structure Clears (fs : Fs) (before after : Bytes) (p : ℕ → Prop) : Prop where
  cleared : ∀ i < fs.entries, p i →
    after.le32 (fatByte fs i) = before.le32 (fatByte fs i) / 2 ^ 28 * 2 ^ 28
  kept : ∀ i < fs.entries, ¬ p i → after.le32 (fatByte fs i) = before.le32 (fatByte fs i)
  mirrored : Mirrored fs before → Mirrored fs after

variable {fs : Fs} {w₀ w w' : World} {v : Volume} {c first : ℕ} {before between after : Bytes}

theorem Volume.leads_iff (valid : fs.Valid c) (d : ℕ) :
    v.Leads fs c d ↔ d = c ∨ (v.link c freeMark).Leads fs (v.fat c) d := by
  by_cases same : d = c
  · simp only [same, true_or, iff_true]
    exact .start valid
  · simp only [same, false_or]
    exact Links.Reached.erase_iff valid (fun marked => absurd marked.1 (by decide)) same

theorem Volume.releaseAll_link (v : Volume) (c : ℕ) {p q : ℕ → Prop}
    (split : ∀ d, p d ↔ d = c ∨ q d) : (v.link c freeMark).releaseAll q = v.releaseAll p := by
  ext1
  · funext d
    simp only [releaseAll, link, Function.update_apply]
    by_cases mem : p d
    · rw [if_pos mem]
      rcases (split d).mp mem with same | more
      · rw [if_pos same, ite_self]
      · rw [if_pos more]
    · have none := not_or.mp (mt (split d).mpr mem)
      rw [if_neg mem, if_neg none.1, if_neg none.2]
  · rfl

/-! ## The medium -/

theorem fatByte_inside {i : ℕ} (inside : i < fs.entries) :
    fatByte fs i + 4 ≤ (fs.fatOffset + fs.boot.fatSize32) * sectorSize := by
  unfold Fs.entries at inside
  unfold fatByte
  rw [Nat.add_mul]
  omega

namespace SetsEntry

section

variable (set : SetsEntry fs before after c first)

include set

theorem le32_other {i : ℕ} (inside : i < fs.entries) (other : i ≠ c) :
    after.le32 (fatByte fs i) = before.le32 (fatByte fs i) := by
  have bound := fatByte_inside inside
  refine Bytes.le32_congr fun j hj => ?_
  rw [set.entry _ (.inl (by omega))]
  exact Bytes.put32_outside _ _ _ _ (by unfold fatByte; omega)

theorem le32_self (inside : c < fs.entries) :
    after.le32 (fatByte fs c) =
      before.le32 (fatByte fs c) / 2 ^ 28 * 2 ^ 28 + first % 2 ^ 28 := by
  have bound := fatByte_inside inside
  rw [Bytes.le32_congr fun j hj => set.entry _ (.inl (by omega)), Bytes.le32_put32]
  have := Bytes.le32_lt before (fatByte fs c)
  omega

theorem mirrored (same : Mirrored fs before) : Mirrored fs after := by
  intro two k hk
  rcases set.copied two k hk with copy | ⟨second, first⟩
  · exact copy
  · rw [second, first]
    exact same two k hk

end

end SetsEntry

/-- On a volume with two tables that agree, `fat32_set_fat_entry` changes the low 28 bits of one entry, in
both tables, and nothing else on any device. -/
theorem setFatEntry_local (attached : Attached fs w) (two : fs.boot.numFats = 2)
    (same : Mirrored fs (w.devs fs.dev).bytes) (valid : fs.Valid c) (value : ℕ) :
    ∃ w', setFatEntry fs c value w = (true, w') ∧
      (getNextCluster fs c w').1 = value % 2 ^ 28 ∧
      (w'.devs fs.dev).bytes.le32 (fatByte fs c) / 2 ^ 28 =
        (w.devs fs.dev).bytes.le32 (fatByte fs c) / 2 ^ 28 ∧
      (∀ d, fs.Valid d → d ≠ c → (getNextCluster fs d w').1 = (getNextCluster fs d w).1) ∧
      Mirrored fs (w'.devs fs.dev).bytes ∧
      (∀ k, k < fs.fatOffset * sectorSize ∨
          (fs.fatOffset + 2 * fs.boot.fatSize32) * sectorSize ≤ k →
        (w'.devs fs.dev).bytes k = (w.devs fs.dev).bytes k) ∧
      ∀ dev ≠ fs.dev, w'.devs dev = w.devs dev := by
  have g := attached.geometry
  obtain ⟨bytes, log, set, sets⟩ := attached.setFatEntry_medium valid value
  have after := attached.medium bytes log
  have linked := volume_put32 g valid bytes log _ sets.entry
  generalize changed : w.setDev fs.dev { w.devs fs.dev with bytes := bytes, log := log } = w'
    at set after linked
  have medium : (w'.devs fs.dev).bytes = bytes := by rw [← changed, World.setDev_devs]
  have inside : c < fs.entries := by
    have fits := g.tableFits
    have high := valid.2
    unfold Fs.entries
    omega
  refine ⟨w', set, ?_, ?_, fun d _ other => ?_, ?_, fun k outside => ?_, fun dev other => ?_⟩
  · rw [after.getNextCluster, linked]
    simp only [Volume.link, Function.update_self]
    omega
  · rw [medium, sets.le32_self inside]
    omega
  · rw [after.getNextCluster, attached.getNextCluster, linked]
    exact Function.update_of_ne other ..
  · rw [medium]
    exact sets.mirrored same
  · have tables := g.tables
    have first := fatByte_lt g valid
    rw [two] at tables
    rw [← tables] at outside
    rw [Nat.add_mul] at first
    rw [medium, sets.entry k (outside.imp_left fun low => by rw [Nat.add_mul]; omega)]
    refine Bytes.put32_outside _ _ _ _ ?_
    rw [tables, Nat.add_mul, Nat.mul_assoc] at outside
    unfold fatByte at first ⊢
    omega
  · rw [← changed]
    exact Function.update_of_ne other ..

theorem setFatEntry_local_wide : Attached wideFs zeroWorld ∧
    ∃ w', setFatEntry wideFs 3 (2 ^ 32 - 1) zeroWorld = (true, w') ∧
      (getNextCluster wideFs 3 w').1 = eocMax := by
  have attached : Attached wideFs zeroWorld := ⟨geometry_wide, rfl, rfl, by decide, rfl⟩
  obtain ⟨w', set, next, -⟩ :=
    setFatEntry_local attached rfl (fun _ _ _ => rfl) (by decide : wideFs.Valid 3) (2 ^ 32 - 1)
  exact ⟨attached, w', set, next⟩

theorem Clears.none : Clears fs before before fun _ => False :=
  ⟨fun _ _ no => no.elim, fun _ _ _ => rfl, id⟩

theorem Clears.cons {p q : ℕ → Prop} (set : SetsEntry fs before between c freeMark)
    (rest : Clears fs between after q) (split : ∀ d, p d ↔ d = c ∨ q d) :
    Clears fs before after p := by
  constructor
  · intro i inside mem
    by_cases more : q i
    · rw [rest.cleared i inside more]
      by_cases same : i = c
      · rw [same] at inside ⊢
        rw [set.le32_self inside, freeMark]
        omega
      · rw [set.le32_other inside same]
    · obtain rfl : i = c := ((split i).mp mem).resolve_right more
      rw [rest.kept i inside more, set.le32_self inside, freeMark, Nat.zero_mod, Nat.add_zero]
  · intro i inside none
    rw [split i] at none
    push Not at none
    rw [rest.kept i inside none.2, set.le32_other inside none.1]
  · intro same
    exact rest.mirrored (set.mirrored same)

namespace Attached

theorem freeCluster_medium (attached : Attached fs w) (valid : fs.Valid c) :
    SetsEntry fs (w.devs fs.dev).bytes ((Fat32.freeCluster fs c w).devs fs.dev).bytes c freeMark := by
  have inside := attached.geometry.known valid
  obtain ⟨bytes, log, set, sets⟩ := attached.setFatEntry_medium valid freeMark
  rw [Fat32.freeCluster, if_neg inside, set, World.setDev_devs]
  exact sets

/-! ## The loop -/

theorem freeChain_outside (attached : Attached fs w) (outside : ¬ fs.Valid c) :
    Converges (freeChain fs · c w) w := by
  by_cases inChain : InChain c
  · have noLink : (volume fs w).fat c = eocMax := if_neg outside
    have noEntry := attached.geometry.unknown outside
    have stops : ¬ InChain eocMax := by decide
    have ends : Converges (freeChain fs · eocMax w) w := freeChain_end stops
    have nothing : Fat32.freeCluster fs c w = w := if_pos noEntry
    refine .step (fun fuel => ?_) ends
    rw [freeChain, if_pos inChain, attached.getNextCluster]
    simp only [noLink, nothing]
  · exact freeChain_end inChain

theorem freeChain (attached : Attached fs w) (first : ℕ) :
    ∃ w', Converges (freeChain fs · first w) w' ∧
      Turns fs w w' ((volume fs w).releaseAll ((volume fs w).Leads fs first)) ∧
      Clears fs (w.devs fs.dev).bytes (w'.devs fs.dev).bytes ((volume fs w).Leads fs first) := by
  have unmarked : ¬ fs.Valid freeMark := fun marked => absurd marked.1 (by decide)
  have finite : ∀ c, fs.Valid c → c < fs.totalClusters + 2 := fun c valid => valid.2
  -- The table changes along the loop, so it is part of what the induction is about.
  generalize table : (volume fs w).fat = f
  induction f, first using Links.erase_induct finite unmarked generalizing w with
  | stop f c outside =>
    have nowhere : (volume fs w).Leads fs c = fun _ => False := by
      funext d
      exact eq_false fun leads => outside (Links.Reached.valid_first leads)
    refine ⟨w, attached.freeChain_outside outside, ?_, ?_⟩
    · rw [nowhere]
      exact ⟨attached, by simp [Volume.releaseAll], rfl⟩
    · rw [nowhere]
      exact .none
  | go f c valid ih =>
    have after := attached.freeCluster valid
    have links : (volume fs (Fat32.freeCluster fs c w)).fat = Function.update f c freeMark := by
      rw [after.volume, ← table]
      rfl
    obtain ⟨w', ends, released, cleared⟩ := ih after.attached links
    rw [after.volume, ← table] at released cleared
    rw [← table] at ends
    refine ⟨w', attached.freeChain_link valid ends, ?_, ?_⟩
    · rw [← Volume.releaseAll_link _ c (Volume.leads_iff valid)]
      exact after.trans released
    · exact .cons (attached.freeCluster_medium valid) cleared (Volume.leads_iff valid)

end Attached

/-- On every volume of valid geometry, whatever its table holds and wherever it starts,
`fat32_free_chain` terminates; the clusters the table led to are then free, every other entry of the
table and every cluster's contents are as before, and the second table still agrees with the first. -/
theorem freeChain_exact (attached : Attached fs w) (start : ℕ) :
    ∃ w', Converges (fun fuel => freeChain fs fuel start w) w' ∧
      (∀ c, (volume fs w).Leads fs start c → (volume fs w').fat c = freeMark) ∧
      Clears fs (w.devs fs.dev).bytes (w'.devs fs.dev).bytes ((volume fs w).Leads fs start) ∧
      (volume fs w').data = (volume fs w).data := by
  obtain ⟨w', ends, released, cleared⟩ := attached.freeChain start
  refine ⟨w', ends, ?_, cleared, ?_⟩
  · intro c leads
    rw [released.volume]
    exact if_pos leads
  · rw [released.volume]
    rfl

/-- The volume `smallFs` on a medium with the given bytes. -/
def smallWorld (bytes : Bytes) : World where
  devs := fun _ =>
    { totalSectors := 16, present := true, readonly := false, bytes := bytes, faults := [],
      log := [] }
  heap := { next := 1, live := [], misfreed := [], oom := [], junk := fun _ => 0 }

theorem ready_small (bytes : Bytes) : Ready smallFs (smallWorld bytes) where
  geometry := ready_blank.geometry
  device := ⟨rfl, rfl, le_rfl, rfl⟩
  allocator := rfl

/-- A table in which the clusters 2 and 3 lead to each other. -/
def crossLinked : World := smallWorld ((Bytes.put32 (fun _ => 0) 520 3).put32 524 2)

/-- Released from cluster 2 on, the cycle is gone. -/
theorem freeChain_exact_cycle :
    Attached smallFs crossLinked ∧
      ∃ w', Converges (fun fuel => freeChain smallFs fuel 2 crossLinked) w' ∧
        (volume smallFs w').fat 2 = freeMark ∧ (volume smallFs w').fat 3 = freeMark := by
  have attached := (ready_small _ : Ready smallFs crossLinked).attached
  obtain ⟨w', ends, free, -⟩ := freeChain_exact attached 2
  have leads : (volume smallFs crossLinked).Leads smallFs 2 2 := .start (by decide)
  have link : (volume smallFs crossLinked).fat 2 = 3 := by decide
  exact ⟨attached, w', ends, free 2 leads, free 3 (link ▸ .next leads (by decide))⟩

end Thuban.Fat32

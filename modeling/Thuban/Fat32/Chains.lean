import Thuban.Fat32.Volume
import Thuban.Lib.Chain
import Thuban.Lib.Fuel

/-!
# Cluster chains

What allocation and release do to the table of a ready volume, and the chains of clusters the table
holds.  An owner of clusters stores the first one; the value 0 stands for no cluster at all.
-/

namespace Thuban.Fat32

open Lib

/-- The chain of clusters that starts at `first`. -/
def ChainOf (fs : Fs) (v : Volume) (first : ℕ) (l : List ℕ) : Prop :=
  Chain v.fat fs.Valid (eocMin ≤ ·) first l

/-- The clusters owned through the number `first` of a directory entry. -/
def Owned (fs : Fs) (v : Volume) (first : ℕ) (l : List ℕ) : Prop :=
  ChainOf fs v first l ∨ (first = 0 ∧ l = [])

/-- The volume with the clusters of `l` marked free. -/
def Volume.release (v : Volume) (l : List ℕ) : Volume :=
  { v with fat := fun c => if c ∈ l then freeMark else v.fat c }

variable {fs : Fs} {w₀ w : World} {v v' : Volume} {first c : ℕ} {l l' : List ℕ}

theorem Geometry.not_eoc (g : Geometry fs) (c : ℕ) (valid : fs.Valid c) : ¬ eocMin ≤ c :=
  not_le.mpr (g.lt_eocMin valid)

theorem ChainOf.nodup (g : Geometry fs) (h : ChainOf fs v first l) : l.Nodup :=
  Chain.nodup g.not_eoc h

theorem ChainOf.fat_ne_zero (h : ChainOf fs v first l) (hc : c ∈ l) : v.fat c ≠ freeMark := by
  obtain ⟨i, hi⟩ := List.mem_iff_getElem?.mp hc
  rcases Chain.getElem?_succ h hi with next | ⟨-, ends⟩
  · have := (Chain.node_of_mem h (List.mem_of_getElem? next)).1
    unfold freeMark
    omega
  · have : eocMin ≤ v.fat c := ends
    unfold eocMin at this
    unfold freeMark
    omega

namespace Owned

theorem nodup (g : Geometry fs) (h : Owned fs v first l) : l.Nodup := by
  rcases h with h | ⟨-, rfl⟩
  · exact h.nodup g
  · exact List.nodup_nil

theorem valid (h : Owned fs v first l) (hc : c ∈ l) : fs.Valid c := by
  rcases h with h | ⟨-, rfl⟩
  · exact Chain.node_of_mem h hc
  · exact absurd hc List.not_mem_nil

theorem ends (h : Owned fs v first l) : ∀ c ∈ l.getLast?, eocMin ≤ v.fat c := by
  rcases h with h | ⟨-, rfl⟩
  · exact Chain.stop_getLast h
  · simp

theorem unique (g : Geometry fs) (h : Owned fs v first l) (h' : Owned fs v first l') : l = l' := by
  rcases h with h | ⟨rfl, rfl⟩
  · rcases h' with h' | ⟨rfl, -⟩
    · exact Chain.unique g.not_eoc h h'
    · exact absurd (Chain.node_head h).1 (by decide)
  · rcases h' with h' | ⟨-, rfl⟩
    · exact absurd (Chain.node_head h').1 (by decide)
    · rfl

theorem fat_ne_zero (h : Owned fs v first l) (hc : c ∈ l) : v.fat c ≠ freeMark := by
  rcases h with h | ⟨-, rfl⟩
  · exact h.fat_ne_zero hc
  · exact absurd hc List.not_mem_nil

theorem congr (h : Owned fs v first l) (agree : ∀ c ∈ l, v'.fat c = v.fat c) :
    Owned fs v' first l := by
  rcases h with h | empty
  · exact .inl (Chain.congr h agree)
  · exact .inr empty

end Owned

/-! ## Allocation -/

namespace Attached

theorem allocScan_cases (attached : Attached fs w) {n : ℕ} (low : 2 ≤ c) (range : c + n = fs.limit) :
    (allocScan fs n c w = (0, w) ∧ ∀ d, c ≤ d → fs.Valid d → (volume fs w).fat d ≠ freeMark) ∨
      ∃ d w', fs.Valid d ∧ (volume fs w).fat d = freeMark ∧ allocScan fs n c w = (d, w') ∧
        Turns fs w w' ((volume fs w).link d eocMax) := by
  have limit := attached.geometry.limit
  induction n generalizing c with
  | zero =>
    refine .inl ⟨rfl, fun d hd valid => ?_⟩
    have := valid.2
    omega
  | succ n ih =>
    have valid : fs.Valid c := ⟨low, by omega⟩
    rw [allocScan, attached.getNextCluster]
    by_cases free : (volume fs w).fat c = freeMark
    · obtain ⟨w', set, after⟩ := attached.setFatEntry valid (show eocMax < 2 ^ 28 by decide)
      exact .inr ⟨c, w', valid, free, by simp only [free, if_true, set], after⟩
    · simp only [free, if_false]
      rcases ih (c := c + 1) (by omega) (by omega) with ⟨none, used⟩ | found
      · refine .inl ⟨none, fun d hd validD => ?_⟩
        rcases Nat.eq_or_lt_of_le hd with rfl | hd
        · exact free
        · exact used d hd validD
      · exact .inr found

theorem allocCluster (attached : Attached fs w) :
    (allocCluster fs w = (0, w) ∧ ∀ d, fs.Valid d → (volume fs w).fat d ≠ freeMark) ∨
      ∃ d w', fs.Valid d ∧ (volume fs w).fat d = freeMark ∧ allocCluster fs w = (d, w') ∧
        Turns fs w w' ((volume fs w).link d eocMax) := by
  have limit := attached.geometry.limit
  rcases attached.allocScan_cases (c := 2) (n := fs.limit - 2) le_rfl (by omega) with
    ⟨none, used⟩ | found
  · exact .inl ⟨none, fun d valid => used d valid.1 valid⟩
  · exact .inr found

theorem freeCluster (attached : Attached fs w) (valid : fs.Valid c) :
    Turns fs w (freeCluster fs c w) ((volume fs w).link c freeMark) := by
  have inside := attached.geometry.known valid
  obtain ⟨w', set, after⟩ := attached.setFatEntry valid (show freeMark < 2 ^ 28 by decide)
  rw [Fat32.freeCluster, if_neg inside, set]
  exact after

end Attached

theorem allocCluster_spec (now : Becomes fs w₀ w v) :
    (allocCluster fs w = (0, w) ∧ ∀ d, fs.Valid d → v.fat d ≠ freeMark) ∨
      ∃ d w', fs.Valid d ∧ v.fat d = freeMark ∧ allocCluster fs w = (d, w') ∧
        Becomes fs w₀ w' (v.link d eocMax) := by
  obtain rfl := now.volume
  rcases now.ready.attached.allocCluster with full | ⟨d, w', valid, free, took, after⟩
  · exact .inl full
  · exact .inr ⟨d, w', valid, free, took, now.turns after⟩

/-! ## Release -/

theorem freeCluster_spec (now : Becomes fs w₀ w v) (valid : fs.Valid c) :
    Becomes fs w₀ (freeCluster fs c w) (v.link c freeMark) := by
  obtain rfl := now.volume
  exact now.turns (now.ready.attached.freeCluster valid)

theorem Volume.release_cons (v : Volume) (c : ℕ) (l : List ℕ) :
    (v.link c freeMark).release l = v.release (c :: l) := by
  ext1
  · funext d
    simp only [Volume.release, Volume.link, List.mem_cons, Function.update_apply]
    by_cases same : d = c <;> by_cases mem : d ∈ l <;> simp [same, mem]
  · rfl

theorem Volume.release_nil (v : Volume) : v.release [] = v := by
  simp [Volume.release]

theorem freeChain_end (stops : ¬ InChain c) :
    Converges (freeChain fs · c w) w := by
  refine .step (fun fuel => ?_) (.const fun _ => rfl)
  rw [freeChain, if_neg stops]

theorem Attached.freeChain_link (attached : Attached fs w) (valid : fs.Valid c) {w' : World}
    (rest : Converges (freeChain fs · ((volume fs w).fat c) (Fat32.freeCluster fs c w))
      w') : Converges (freeChain fs · c w) w' := by
  refine .step (fun fuel => ?_) rest
  rw [freeChain, if_pos (attached.geometry.inChain_of_valid valid), attached.getNextCluster]

theorem freeChain_spec (now : Becomes fs w₀ w v) (chain : ChainOf fs v first l) :
    ∃ w', Converges (freeChain fs · first w) w' ∧
      Becomes fs w₀ w' (v.release l) := by
  have g := now.ready.geometry
  induction l generalizing w v first with
  | nil => exact absurd (Chain.length_pos chain) (by decide)
  | cons c l ih =>
    have nodup := List.nodup_cons.mp (chain.nodup g)
    have valid : fs.Valid c := Chain.node_of_mem chain List.mem_cons_self
    have after := freeCluster_spec now valid
    obtain rfl := now.volume
    rw [← Volume.release_cons]
    cases chain with
    | last _ ends =>
      have stops : ¬ InChain ((volume fs w).fat c) := fun h => absurd h.2 (not_lt.mpr ends)
      refine ⟨_, now.ready.attached.freeChain_link valid (freeChain_end stops), ?_⟩
      rw [Volume.release_nil]
      exact after
    | link _ rest =>
      have rest' : ChainOf fs ((volume fs w).link c freeMark) ((volume fs w).fat c) l := by
        refine Chain.congr rest fun d hd => Function.update_of_ne ?_ _ _
        rintro rfl
        exact nodup.1 hd
      obtain ⟨w', ends, released⟩ := ih after rest'
      exact ⟨w', now.ready.attached.freeChain_link valid ends, released⟩

end Thuban.Fat32

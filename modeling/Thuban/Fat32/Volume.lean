import Thuban.Fat32.Driver
import Thuban.Kernel.Faults

/-!
# Volumes

The disk as the driver uses it: an allocation table `fat` and the bytes `data` of each cluster.
On a volume of valid geometry whose device and allocator do not fail (`Ready`), the transfers of
`Thuban.Fat32.Clusters` are reads and single updates of this pair; `Becomes` says how the world after
a call relates to the one before.  Nothing above this module mentions sectors.
-/

namespace Thuban.Fat32

open Lib

/-- The allocation table and the contents of the clusters. -/
@[ext]
structure Volume where
  fat : ℕ → ℕ
  data : ℕ → Bytes

/-- The clusters of the volume. -/
def Fs.Valid (fs : Fs) (cluster : ℕ) : Prop := 2 ≤ cluster ∧ cluster < fs.totalClusters + 2

instance (fs : Fs) (cluster : ℕ) : Decidable (fs.Valid cluster) :=
  inferInstanceAs (Decidable (_ ∧ _))

def clusterByte (fs : Fs) (cluster : ℕ) : ℕ :=
  (fs.dataOffset + (cluster - 2) * fs.boot.sectorsPerCluster) * sectorSize

/-- The byte address of a cluster's entry in the first allocation table. -/
def fatByte (fs : Fs) (cluster : ℕ) : ℕ := fs.fatOffset * sectorSize + 4 * cluster

/-- What the device holds, read as a volume. -/
def volume (fs : Fs) (w : World) : Volume where
  fat := fun c =>
    if fs.Valid c then (w.devs fs.dev).bytes.le32 (fatByte fs c) % 2 ^ 28 else eocMax
  data := fun c k =>
    if fs.Valid c ∧ k < fs.clusterSize then (w.devs fs.dev).bytes (clusterByte fs c + k) else 0

/-- A valid geometry: the tables hold an entry for every cluster, tables and clusters lie behind each
other below `total_sectors_32`, and no cluster number looks like a mark. -/
structure Geometry (fs : Fs) : Prop where
  bytesPerSector : fs.boot.bytesPerSector = sectorSize
  clusterSize : fs.clusterSize = sectorSize * fs.boot.sectorsPerCluster
  sectorsPerCluster : 0 < fs.boot.sectorsPerCluster
  sectorsPerCluster_lt : fs.boot.sectorsPerCluster < 2 ^ 8
  reserved : 0 < fs.fatOffset
  tables : fs.dataOffset = fs.fatOffset + fs.boot.numFats * fs.boot.fatSize32
  numFats : 0 < fs.boot.numFats
  tableFits : (fs.totalClusters + 2) * 4 ≤ fs.boot.fatSize32 * sectorSize
  dataFits : fs.dataOffset + fs.totalClusters * fs.boot.sectorsPerCluster ≤ fs.boot.totalSectors32
  sectors : fs.boot.totalSectors32 < 2 ^ 32
  clusters : fs.totalClusters + 2 ≤ 0x0FFFFFF7

/-- A volume of valid geometry on a device and with an allocator that never fail. -/
structure Ready (fs : Fs) (w : World) : Prop where
  geometry : Geometry fs
  device : World.Working (w.devs fs.dev) fs.boot.totalSectors32
  allocator : w.heap.oom = []

/-- A volume of valid geometry on a device that never fails. -/
structure Attached (fs : Fs) (w : World) : Prop where
  geometry : Geometry fs
  device : World.Working (w.devs fs.dev) fs.boot.totalSectors32

theorem Ready.attached {fs : Fs} {w : World} (ready : Ready fs w) : Attached fs w :=
  ⟨ready.geometry, ready.device⟩

theorem Attached.of_devs {fs : Fs} {w w' : World} (attached : Attached fs w)
    (devs : w'.devs = w.devs) : Attached fs w' :=
  ⟨attached.geometry, by rw [devs]; exact attached.device⟩

namespace Geometry

variable {fs : Fs} (g : Geometry fs)

include g

theorem limit : fs.limit = fs.totalClusters + 2 := by
  have := g.clusters
  exact Nat.mod_eq_of_lt (by omega)

variable {c d : ℕ}

theorem unknown (outside : ¬ fs.Valid c) : c < 2 ∨ fs.limit ≤ c := by
  rw [g.limit]
  unfold Fs.Valid at outside
  omega

theorem known (valid : fs.Valid c) : ¬ (c < 2 ∨ fs.limit ≤ c) := by
  rw [g.limit]
  unfold Fs.Valid at valid
  omega

theorem clusterSize_pos : 0 < fs.clusterSize := by
  rw [g.clusterSize]
  exact Nat.mul_pos (by decide) g.sectorsPerCluster

theorem clusterSize_lt : fs.clusterSize < 2 ^ 32 := by
  have := g.sectorsPerCluster_lt
  rw [g.clusterSize, sectorSize]
  omega

theorem inChain_of_valid (valid : fs.Valid c) : InChain c := by
  have := g.clusters
  exact ⟨valid.1, lt_of_lt_of_le valid.2 (this.trans (by decide))⟩

theorem lt_eocMin (valid : fs.Valid c) : c < eocMin := (g.inChain_of_valid valid).2

theorem cluster_sectors (valid : fs.Valid c) :
    fs.dataOffset + (c - 2) * fs.boot.sectorsPerCluster + fs.boot.sectorsPerCluster ≤
      fs.boot.totalSectors32 := by
  have fits := g.dataFits
  have : (c - 2 + 1) * fs.boot.sectorsPerCluster ≤
      fs.totalClusters * fs.boot.sectorsPerCluster :=
    Nat.mul_le_mul_right _ (by have := valid.1; have := valid.2; omega)
  rw [Nat.add_mul, Nat.one_mul] at this
  omega

theorem clusterByte_lt (valid : fs.Valid c) (lt : c < d) :
    clusterByte fs c + fs.clusterSize ≤ clusterByte fs d := by
  have : (c - 2 + 1) * fs.boot.sectorsPerCluster ≤ (d - 2) * fs.boot.sectorsPerCluster :=
    Nat.mul_le_mul_right _ (by have := valid.1; omega)
  rw [Nat.add_mul, Nat.one_mul] at this
  unfold clusterByte
  rw [g.clusterSize, sectorSize]
  omega

theorem clusterByte_ne {k j : ℕ} (hc : fs.Valid c) (hd : fs.Valid d) (different : c ≠ d)
    (hk : k < fs.clusterSize) (hj : j < fs.clusterSize) :
    clusterByte fs c + k ≠ clusterByte fs d + j := by
  rcases Nat.lt_or_gt_of_ne different with lt | lt
  · have := g.clusterByte_lt hc lt
    omega
  · have := g.clusterByte_lt hd lt
    omega

omit g in
theorem dataOffset_le_clusterByte (fs : Fs) (c : ℕ) : fs.dataOffset * sectorSize ≤ clusterByte fs c :=
  Nat.mul_le_mul_right _ (Nat.le_add_right _ _)

theorem table_le : fs.fatOffset + fs.boot.fatSize32 ≤ fs.dataOffset := by
  have tables := g.tables
  have : 1 * fs.boot.fatSize32 ≤ fs.boot.numFats * fs.boot.fatSize32 :=
    Nat.mul_le_mul_right _ g.numFats
  omega

theorem second_table_le (two : 1 < fs.boot.numFats) :
    fs.fatOffset + 2 * fs.boot.fatSize32 ≤ fs.dataOffset := by
  have tables := g.tables
  have : 2 * fs.boot.fatSize32 ≤ fs.boot.numFats * fs.boot.fatSize32 :=
    Nat.mul_le_mul_right _ two
  omega

end Geometry

/-! ## Reading clusters -/

section Read

variable {fs : Fs} {w : World} {c : ℕ} {outcomes : List Bool}

theorem clusterToSector_eq (g : Geometry fs) {c : ℕ} (valid : fs.Valid c) :
    clusterToSector fs c = fs.dataOffset + (c - 2) * fs.boot.sectorsPerCluster := by
  have := g.cluster_sectors valid
  have := g.sectors
  rw [clusterToSector, if_neg (by have := valid.1; omega), Nat.mod_eq_of_lt (by omega)]

theorem clusterToSector_ne_zero (g : Geometry fs) {c : ℕ} (valid : fs.Valid c) :
    clusterToSector fs c ≠ 0 := by
  have := g.reserved
  have := g.table_le
  rw [clusterToSector_eq g valid]
  omega

theorem volume_data {c k : ℕ} (valid : fs.Valid c) (hk : k < fs.clusterSize) :
    (volume fs w).data c k = (w.devs fs.dev).bytes (clusterByte fs c + k) :=
  if_pos ⟨valid, hk⟩

theorem volume_data_outside {c k : ℕ} (hk : fs.clusterSize ≤ k) : (volume fs w).data c k = 0 :=
  if_neg fun h => by omega

theorem volume_congr {w' : World} (devs : w'.devs = w.devs) : volume fs w' = volume fs w := by
  unfold volume
  rw [devs]

@[simp] theorem volume_withFaults : volume fs (w.withFaults fs.dev outcomes) = volume fs w := by
  simp [volume]

namespace Attached

theorem readSectors_faults (attached : Attached fs w) {sector n i : ℕ} (buf : Bytes)
    (inside : sector + i + n ≤ fs.boot.totalSectors32) (outcomes : List Bool) :
    ∃ done later, Answered outcomes n done later ∧
      readSectors fs sector n i buf (w.withFaults fs.dev outcomes) =
        (if done = n then some (buf.blit (i * sectorSize) (w.devs fs.dev).bytes
            ((sector + i) * sectorSize) (n * sectorSize)) else none,
          w.withFaults fs.dev later) := by
  have sectors := attached.geometry.sectors
  induction n generalizing i buf outcomes with
  | zero =>
    refine ⟨0, outcomes, .zero _, ?_⟩
    rw [readSectors, if_pos rfl, Nat.zero_mul]
    congr 2
    funext k
    rw [Bytes.blit_outside _ _ _ _ _ _ (by omega)]
  | succ n ih =>
    have small : (sector + i) % 2 ^ 32 = sector + i := Nat.mod_eq_of_lt (by omega)
    have here : sector + i < fs.boot.totalSectors32 := by omega
    simp only [readSectors, small, attached.geometry.bytesPerSector]
    rcases silent_or_failing outcomes with silent | ⟨later, rfl⟩
    · rw [World.blkdevRead_silent attached.device here _ _ silent]
      obtain ⟨done, later, answered, rest⟩ := ih (i := i + 1)
        (buf.blit (i * sectorSize) (w.devs fs.dev).bytes ((sector + i) * sectorSize) sectorSize)
        (by omega) (outcomes.drop 1)
      refine ⟨done + 1, later, answered.succ silent, ?_⟩
      have joined := Bytes.blit_blit_adjacent buf (i * sectorSize) (w.devs fs.dev).bytes
        ((sector + i) * sectorSize) sectorSize (n * sectorSize)
      rw [← Nat.add_one_mul, ← Nat.add_one_mul, Nat.add_comm sectorSize, ← Nat.add_one_mul] at joined
      simp only [rest, Nat.add_right_cancel_iff]
      rw [← joined, Nat.add_assoc]
    · refine ⟨0, later, .failed later n, ?_⟩
      rw [World.blkdevRead_failing attached.device here, if_neg (Nat.succ_ne_zero n).symm]

theorem readCluster_faults (attached : Attached fs w) (valid : fs.Valid c) (buf : Bytes)
    (outcomes : List Bool) :
    ∃ done later, Answered outcomes fs.boot.sectorsPerCluster done later ∧
      Fat32.readCluster fs c buf (w.withFaults fs.dev outcomes) =
        (if done = fs.boot.sectorsPerCluster then
            some (buf.blit 0 ((volume fs w).data c) 0 fs.clusterSize) else none,
          w.withFaults fs.dev later) := by
  have g := attached.geometry
  have inside := g.cluster_sectors valid
  have sector := clusterToSector_eq g valid
  obtain ⟨done, later, answered, read⟩ := attached.readSectors_faults buf
    (show clusterToSector fs c + 0 + fs.boot.sectorsPerCluster ≤ fs.boot.totalSectors32 by omega)
    outcomes
  have stored : buf.blit 0 (w.devs fs.dev).bytes (clusterByte fs c) fs.clusterSize =
      buf.blit 0 ((volume fs w).data c) 0 fs.clusterSize := by
    funext k
    by_cases hk : k < fs.clusterSize
    · rw [Bytes.blit_inside _ _ _ _ _ _ (Nat.zero_le k) (by omega),
        Bytes.blit_inside _ _ _ _ _ _ (Nat.zero_le k) (by omega), Nat.sub_zero, Nat.zero_add,
        volume_data valid hk]
    · rw [Bytes.blit_outside _ _ _ _ _ _ (by omega), Bytes.blit_outside _ _ _ _ _ _ (by omega)]
  refine ⟨done, later, answered, ?_⟩
  rw [Nat.zero_mul, Nat.add_zero, Nat.mul_comm fs.boot.sectorsPerCluster, ← g.clusterSize, sector,
    ← clusterByte, stored] at read
  simp only [Fat32.readCluster, clusterToSector_ne_zero g valid, if_false]
  rw [← read, sector]

theorem readCluster_silent (attached : Attached fs w) (valid : fs.Valid c) (buf : Bytes)
    (silent : Silent outcomes fs.boot.sectorsPerCluster) :
    Fat32.readCluster fs c buf (w.withFaults fs.dev outcomes) =
      (some (buf.blit 0 ((volume fs w).data c) 0 fs.clusterSize),
        w.withFaults fs.dev (outcomes.drop fs.boot.sectorsPerCluster)) := by
  obtain ⟨done, later, answered, read⟩ := attached.readCluster_faults valid buf outcomes
  obtain ⟨rfl, rfl⟩ := answered.all silent
  rw [read, if_pos rfl]

theorem readCluster (attached : Attached fs w) (valid : fs.Valid c) (buf : Bytes) :
    readCluster fs c buf w =
      (some (buf.blit 0 ((volume fs w).data c) 0 fs.clusterSize), w) := by
  have read := attached.readCluster_silent valid buf (silent_nil _)
  rwa [List.drop_nil, World.withFaults_nil attached.device.reliable] at read

end Attached

end Read

/-! ## What reading leaves alone -/

section Polled

variable {fs : Fs} {w w' : World} {c : ℕ} {buf : Bytes} {answer : Option Bytes}

open World (Polled)

theorem readSectors_polled {sector n i : ℕ}
    (done : readSectors fs sector n i buf w = (answer, w')) : Polled w w' fs.dev := by
  induction n generalizing i buf w with
  | zero =>
    obtain rfl := (Prod.mk.inj done).2
    exact .refl w fs.dev
  | succ n ih =>
    rw [readSectors] at done
    rcases read : w.blkdevRead fs.dev ((sector + i) % 2 ^ 32) 1 buf (i * fs.boot.bytesPerSector)
      with ⟨_ | buf₁, w₁⟩
    · simp only [read] at done
      rw [← (Prod.mk.inj done).2]
      exact World.blkdevRead_polled read
    · simp only [read] at done
      exact (World.blkdevRead_polled read).trans (ih done)

theorem readCluster_polled (done : readCluster fs c buf w = (answer, w')) : Polled w w' fs.dev := by
  unfold readCluster at done
  dsimp only at done
  split_ifs at done
  · obtain rfl := (Prod.mk.inj done).2
    exact .refl w fs.dev
  · exact readSectors_polled done

theorem getNextCluster_polled {next : ℕ} (done : getNextCluster fs c w = (next, w')) :
    Polled w w' fs.dev := by
  unfold getNextCluster at done
  split_ifs at done
  · obtain rfl := (Prod.mk.inj done).2
    exact .refl w fs.dev
  · rcases read : w.blkdevRead fs.dev (fatSector fs c) 1 w.heap.junk 0 with ⟨_ | buf, w₁⟩
    all_goals
      simp only [read] at done
      rw [← (Prod.mk.inj done).2]
      exact World.blkdevRead_polled read

end Polled

/-! ## Updates -/

/-- The volume after storing a buffer in a cluster. -/
def Volume.store (v : Volume) (fs : Fs) (c : ℕ) (buf : Bytes) : Volume :=
  { v with data := Function.update v.data c fun k => if k < fs.clusterSize then buf k else 0 }

/-- The volume after setting an entry of the allocation table. -/
def Volume.link (v : Volume) (c value : ℕ) : Volume :=
  { v with fat := Function.update v.fat c value }

/-- The world `w'` is ready, holds the volume `v'`, and has reused no address of `w`. -/
structure Becomes (fs : Fs) (w w' : World) (v' : Volume) : Prop where
  ready : Ready fs w'
  volume : volume fs w' = v'
  next : w.heap.next ≤ w'.heap.next

/-- The world `w'` is attached, holds the volume `v'`, and has the heap of `w`. -/
structure Turns (fs : Fs) (w w' : World) (v' : Volume) : Prop where
  attached : Attached fs w'
  volume : volume fs w' = v'
  heap : w'.heap = w.heap

theorem Turns.trans {fs : Fs} {w w' w'' : World} {v v' : Volume} (first : Turns fs w w' v)
    (second : Turns fs w' w'' v') : Turns fs w w'' v' :=
  ⟨second.attached, second.volume, second.heap.trans first.heap⟩

namespace Becomes

variable {fs : Fs} {w w₁ w₂ : World} {v₁ : Volume}

theorem refl (ready : Ready fs w) : Becomes fs w w (Fat32.volume fs w) := ⟨ready, rfl, le_rfl⟩

theorem of_devs (h : Becomes fs w w₁ v₁) (devs : w₂.devs = w₁.devs)
    (oom : w₂.heap.oom = []) (next : w₁.heap.next ≤ w₂.heap.next) : Becomes fs w w₂ v₁ := by
  refine ⟨⟨h.ready.geometry, ?_, oom⟩, ?_, h.next.trans next⟩
  · rw [devs]
    exact h.ready.device
  · rw [← h.volume, Fat32.volume, Fat32.volume, devs]

theorem turns (now : Becomes fs w w₁ v₁) (after : Turns fs w₁ w₂ v₂) : Becomes fs w w₂ v₂ where
  ready :=
    { geometry := after.attached.geometry
      device := after.attached.device
      allocator := by
        rw [after.heap]
        exact now.ready.allocator }
  volume := after.volume
  next := by
    rw [after.heap]
    exact now.next

theorem free (h : Becomes fs w w₁ v₁) (p : ℕ) : Becomes fs w (w₁.free p) v₁ :=
  h.of_devs (World.free_devs _ _) (by rw [World.free_oom]; exact h.ready.allocator)
    (World.free_next _ _).ge

theorem freeNode (h : Becomes fs w w₁ v₁) (node : VfsNode) :
    Becomes fs w (freeNode node w₁) v₁ :=
  (h.free _).free _

end Becomes

section Update

variable {fs : Fs} {w : World} {c : ℕ}

theorem Attached.medium (attached : Attached fs w) (bytes : Bytes) (log : List ℕ) :
    Attached fs (w.setDev fs.dev { w.devs fs.dev with bytes := bytes, log := log }) := by
  have device := attached.device
  refine ⟨attached.geometry, ?_⟩
  rw [World.setDev_devs]
  exact ⟨device.present, device.writable, device.large, device.reliable⟩

theorem fatByte_lt (g : Geometry fs) {c : ℕ} (valid : fs.Valid c) :
    fatByte fs c + 4 ≤ (fs.fatOffset + fs.boot.fatSize32) * sectorSize := by
  have := g.tableFits
  have := valid.2
  unfold fatByte
  rw [Nat.add_mul]
  omega

theorem fatByte_lt_clusterByte (g : Geometry fs) {c : ℕ} (valid : fs.Valid c) (d : ℕ) :
    fatByte fs c + 4 ≤ clusterByte fs d :=
  (fatByte_lt g valid).trans
    ((Nat.mul_le_mul_right _ g.table_le).trans (Geometry.dataOffset_le_clusterByte fs d))

/-- Bytes stored in a cluster, seen in the volume: the tables and the other clusters stay. -/
theorem volume_blit (g : Geometry fs) {c : ℕ} (valid : fs.Valid c) (buf : Bytes) (log : List ℕ) :
    volume fs (w.setDev fs.dev
        { w.devs fs.dev with
          bytes := (w.devs fs.dev).bytes.blit (clusterByte fs c) buf 0 fs.clusterSize
          log := log }) =
      (volume fs w).store fs c buf := by
  ext1
  · funext d
    simp only [volume, Volume.store, World.setDev_devs]
    split
    · rename_i hd
      have := fatByte_lt_clusterByte g hd c
      congr 1
      exact Bytes.le32_congr fun j hj => Bytes.blit_outside _ _ _ _ _ _ (by omega)
    · rfl
  · funext d k
    simp only [volume, Volume.store, World.setDev_devs, Function.update_apply]
    by_cases hk : k < fs.clusterSize
    · by_cases same : d = c
      · subst same
        rw [if_pos ⟨valid, hk⟩, if_pos rfl, if_pos hk,
          Bytes.blit_inside _ _ _ _ _ _ (by omega) (by omega)]
        congr 1
        omega
      · rw [if_neg same]
        split
        · rename_i hd
          refine Bytes.blit_outside _ _ _ _ _ _ fun overlap => ?_
          refine g.clusterByte_ne (j := clusterByte fs d + k - clusterByte fs c) hd.1 valid same hk
            (by omega) (by omega)
        · rfl
    · rw [if_neg fun h => hk h.2]
      split
      · exact (if_neg hk).symm
      · exact (if_neg fun h => hk h.2).symm

namespace Attached

theorem writeSectors_faults (attached : Attached fs w) {sector n i : ℕ} (buf : Bytes)
    (inside : sector + i + n ≤ fs.boot.totalSectors32) (outcomes : List Bool) :
    ∃ done later log, Answered outcomes n done later ∧
      writeSectors fs sector buf n i (w.withFaults fs.dev outcomes) =
        (decide (done = n), (w.setDev fs.dev
          { w.devs fs.dev with
            bytes := (w.devs fs.dev).bytes.blit ((sector + i) * sectorSize) buf (i * sectorSize)
              (done * sectorSize)
            log := log }).withFaults fs.dev later) := by
  have sectors := attached.geometry.sectors
  have nothing : ∀ (w : World) (i : ℕ), (w.devs fs.dev).bytes.blit ((sector + i) * sectorSize) buf
      (i * sectorSize) (0 * sectorSize) = (w.devs fs.dev).bytes := by
    intro w i
    funext k
    rw [Bytes.blit_outside _ _ _ _ _ _ (by omega)]
  induction n generalizing i w outcomes with
  | zero =>
    refine ⟨0, outcomes, (w.devs fs.dev).log, .zero _, ?_⟩
    rw [nothing, World.setDev_self]
    rfl
  | succ n ih =>
    have small : (sector + i) % 2 ^ 32 = sector + i := Nat.mod_eq_of_lt (by omega)
    have here : sector + i < fs.boot.totalSectors32 := by omega
    simp only [writeSectors, small, attached.geometry.bytesPerSector]
    rcases silent_or_failing outcomes with silent | ⟨later, rfl⟩
    · rw [World.blkdevWrite_silent attached.device here _ _ silent]
      obtain ⟨done, later, log, answered, rest⟩ := ih
        (attached.medium ((w.devs fs.dev).bytes.blit ((sector + i) * sectorSize) buf
          (i * sectorSize) sectorSize) ((sector + i) :: (w.devs fs.dev).log))
        (i := i + 1) (by omega) (outcomes.drop 1)
      refine ⟨done + 1, later, log, answered.succ silent, ?_⟩
      have joined := Bytes.blit_blit_adjacent (w.devs fs.dev).bytes ((sector + i) * sectorSize) buf
        (i * sectorSize) sectorSize (done * sectorSize)
      rw [← Nat.add_one_mul, ← Nat.add_one_mul, Nat.add_comm sectorSize, ← Nat.add_one_mul]
        at joined
      simp only [rest, World.setDev_setDev, World.setDev_devs, Nat.add_right_cancel_iff]
      rw [← joined, Nat.add_assoc]
    · refine ⟨0, later, (sector + i) :: (w.devs fs.dev).log, .failed later n, ?_⟩
      rw [World.blkdevWrite_failing attached.device here, nothing,
        decide_eq_false (Nat.succ_ne_zero n).symm]

/-- A cluster is written from its beginning up to the first sector that fails. -/
theorem writeCluster_faults (attached : Attached fs w) (valid : fs.Valid c) (buf : Bytes)
    (outcomes : List Bool) :
    ∃ done later w', Answered outcomes fs.boot.sectorsPerCluster done later ∧
      Fat32.writeCluster fs c buf (w.withFaults fs.dev outcomes) =
        (decide (done = fs.boot.sectorsPerCluster), w'.withFaults fs.dev later) ∧
      Turns fs w w' ((volume fs w).store fs c fun k =>
        if k < done * sectorSize then buf k else (volume fs w).data c k) := by
  have g := attached.geometry
  have inside := g.cluster_sectors valid
  have sector := clusterToSector_eq g valid
  obtain ⟨done, later, log, answered, written⟩ := attached.writeSectors_faults buf
    (show clusterToSector fs c + 0 + fs.boot.sectorsPerCluster ≤ fs.boot.totalSectors32 by omega)
    outcomes
  rw [Nat.add_zero, Nat.zero_mul, sector, ← clusterByte] at written
  have part : done ≤ fs.boot.sectorsPerCluster := by
    rcases answered with ⟨rfl, -⟩ | ⟨fewer, -⟩
    · exact le_rfl
    · exact fewer.le
  have size : done * sectorSize ≤ fs.clusterSize := by
    rw [g.clusterSize, Nat.mul_comm]
    exact Nat.mul_le_mul_left _ part
  -- Writing a part of the buffer is writing a buffer whose other part is the old contents.
  have whole : (w.devs fs.dev).bytes.blit (clusterByte fs c) buf 0 (done * sectorSize) =
      (w.devs fs.dev).bytes.blit (clusterByte fs c)
        (fun k => if k < done * sectorSize then buf k else (volume fs w).data c k) 0
        fs.clusterSize := by
    funext k
    simp only [Bytes.blit, Nat.zero_add]
    by_cases low : clusterByte fs c ≤ k ∧ k < clusterByte fs c + done * sectorSize
    · rw [if_pos low, if_pos ⟨low.1, by omega⟩, if_pos (by omega)]
    · rw [if_neg low]
      by_cases high : clusterByte fs c ≤ k ∧ k < clusterByte fs c + fs.clusterSize
      · rw [if_pos high, if_neg (by omega), volume_data valid (by omega)]
        congr 1
        omega
      · rw [if_neg high]
  rw [whole] at written
  refine ⟨done, later, _, answered, ?_, attached.medium _ _, volume_blit g valid _ log, rfl⟩
  simp only [Fat32.writeCluster, clusterToSector_ne_zero g valid, if_false]
  rw [← written, sector]

theorem writeCluster (attached : Attached fs w) (valid : fs.Valid c) (buf : Bytes) :
    ∃ w', writeCluster fs c buf w = (true, w') ∧
      Turns fs w w' ((volume fs w).store fs c buf) := by
  have size := attached.geometry.clusterSize
  obtain ⟨done, later, w', answered, written, after⟩ := attached.writeCluster_faults valid buf []
  obtain ⟨rfl, rfl⟩ := answered.all (silent_nil _)
  rw [List.drop_nil, World.withFaults_nil attached.device.reliable,
    World.withFaults_nil after.attached.device.reliable, decide_eq_true rfl] at written
  refine ⟨w', written, ?_⟩
  have whole : (volume fs w).store fs c (fun k => if k < fs.boot.sectorsPerCluster * sectorSize then
      buf k else (volume fs w).data c k) = (volume fs w).store fs c buf := by
    unfold Volume.store
    refine congrArg _ (congrArg _ (funext fun k => ?_))
    rw [Nat.mul_comm, ← size]
    split_ifs with inside
    · exact if_pos inside
    · rfl
  rwa [whole] at after

end Attached

/-! ## The allocation table -/

variable {c : ℕ}

section

variable (g : Geometry fs) (valid : fs.Valid c)

include g valid

theorem fatSector_eq :
    fatSector fs c = fs.fatOffset + 4 * c / sectorSize ∧ entOffset fs c = 4 * c % sectorSize ∧
      fs.fatOffset + 4 * c / sectorSize < fs.fatOffset + fs.boot.fatSize32 := by
  have small := g.clusters
  have fits := g.tableFits
  have hc := valid.2
  have table := g.table_le
  have data := g.dataFits
  have sectors := g.sectors
  have word : c * 4 % 2 ^ 32 = 4 * c := by omega
  have below : 4 * c / sectorSize < fs.boot.fatSize32 := by
    unfold sectorSize at *
    omega
  refine ⟨?_, ?_, Nat.add_lt_add_left below _⟩
  · rw [fatSector, word, g.bytesPerSector, Nat.mod_eq_of_lt]
    exact lt_of_lt_of_le (Nat.add_lt_add_left below _) (by omega)
  · rw [entOffset, word, g.bytesPerSector]

theorem sector_add_entOffset :
    fatSector fs c * sectorSize + entOffset fs c = fatByte fs c ∧
      entOffset fs c + 4 ≤ sectorSize := by
  obtain ⟨sector, offset, -⟩ := fatSector_eq g valid
  rw [sector, offset, fatByte]
  unfold sectorSize
  omega

theorem fatSector_lt :
    fatSector fs c < fs.fatOffset + fs.boot.fatSize32 ∧ fs.fatOffset ≤ fatSector fs c := by
  obtain ⟨sector, -, below⟩ := fatSector_eq g valid
  rw [sector]
  exact ⟨below, Nat.le_add_right _ _⟩

theorem fatSector_inside : fatSector fs c < fs.boot.totalSectors32 := by
  have := (fatSector_lt g valid).1
  have := g.table_le
  have := g.dataFits
  omega

end

theorem volume_fat (valid : fs.Valid c) :
    (volume fs w).fat c = (w.devs fs.dev).bytes.le32 (fatByte fs c) % 2 ^ 28 :=
  if_pos valid

theorem le32_fatSector (g : Geometry fs) (valid : fs.Valid c) (bytes junk : Bytes) :
    Bytes.le32 (junk.blit 0 bytes (fatSector fs c * sectorSize) sectorSize) (entOffset fs c) =
      bytes.le32 (fatByte fs c) := by
  obtain ⟨split, fits⟩ := sector_add_entOffset g valid
  refine Bytes.le32_congr fun j hj => ?_
  rw [Bytes.blit_inside _ _ _ _ _ _ (by omega) (by omega)]
  exact congrArg _ (by omega)

theorem Attached.getNextCluster (attached : Attached fs w) (c : ℕ) :
    getNextCluster fs c w = ((volume fs w).fat c, w) := by
  have g := attached.geometry
  rw [Fat32.getNextCluster]
  by_cases valid : fs.Valid c
  · rw [if_neg (g.known valid), World.blkdevRead_working attached.device (fatSector_inside g valid)]
    simp only [le32_fatSector g valid, volume_fat valid]
  · rw [if_pos (g.unknown valid), volume]
    simp only [if_neg valid]

theorem Attached.getNextCluster_faults (attached : Attached fs w) (valid : fs.Valid c)
    (outcomes : List Bool) :
    Fat32.getNextCluster fs c (w.withFaults fs.dev outcomes) =
      (if Silent outcomes 1 then (volume fs w).fat c else eocMax,
        w.withFaults fs.dev (outcomes.drop 1)) := by
  have base := attached.getNextCluster c
  have here := fatSector_inside attached.geometry valid
  have known := attached.geometry.known valid
  simp only [Fat32.getNextCluster, if_neg known] at base ⊢
  rw [World.blkdevRead_working attached.device here] at base
  rcases silent_or_failing outcomes with silent | ⟨later, rfl⟩
  · rw [World.blkdevRead_silent attached.device here _ _ silent, if_pos silent]
    simpa using base
  · rw [World.blkdevRead_failing attached.device here, if_neg (not_silent_failing later 0)]
    rfl

theorem Attached.getNextCluster_outside (attached : Attached fs w) (outside : ¬ fs.Valid c)
    (outcomes : List Bool) :
    Fat32.getNextCluster fs c (w.withFaults fs.dev outcomes) =
      (eocMax, w.withFaults fs.dev outcomes) := by
  have unknown := attached.geometry.unknown outside
  rw [Fat32.getNextCluster, if_pos unknown]

theorem put32_fatSector (g : Geometry fs) (valid : fs.Valid c) (bytes junk : Bytes) (value : ℕ)
    {k : ℕ} (hk : k < sectorSize) :
    Bytes.put32 (junk.blit 0 bytes (fatSector fs c * sectorSize) sectorSize) (entOffset fs c) value k =
      bytes.put32 (fatByte fs c) value (fatSector fs c * sectorSize + k) := by
  obtain ⟨split, fits⟩ := sector_add_entOffset g valid
  refine Bytes.put32_congr _ (by omega) ?_
  rw [Bytes.blit_inside _ _ _ _ _ _ (by omega) (by omega)]
  exact congrArg _ (by omega)

theorem blit_fatSector (g : Geometry fs) (valid : fs.Valid c) (bytes junk : Bytes) (value : ℕ) :
    bytes.blit (fatSector fs c * sectorSize)
        (Bytes.put32 (junk.blit 0 bytes (fatSector fs c * sectorSize) sectorSize) (entOffset fs c)
          value) 0 sectorSize =
      bytes.put32 (fatByte fs c) value := by
  obtain ⟨split, fits⟩ := sector_add_entOffset g valid
  funext k
  by_cases inside : fatSector fs c * sectorSize ≤ k ∧ k < fatSector fs c * sectorSize + sectorSize
  · rw [Bytes.blit_inside _ _ _ _ _ _ inside.1 inside.2, put32_fatSector g valid _ _ _ (by omega)]
    exact congrArg _ (by omega)
  · rw [Bytes.blit_outside _ _ _ _ _ _ inside, Bytes.put32_outside _ _ _ _ (by omega)]

/-- The change of an entry, seen in the volume; what lies between the first table and the data does
not matter. -/
theorem volume_put32 (g : Geometry fs) (valid : fs.Valid c) (bytes : Bytes) (log : List ℕ)
    (value : ℕ)
    (entry : ∀ k, k < (fs.fatOffset + fs.boot.fatSize32) * sectorSize ∨
      fs.dataOffset * sectorSize ≤ k →
      bytes k = (w.devs fs.dev).bytes.put32 (fatByte fs c) value k) :
    volume fs (w.setDev fs.dev { w.devs fs.dev with bytes := bytes, log := log }) =
      (volume fs w).link c (value % 2 ^ 28) := by
  have table : ∀ d, fs.Valid d → bytes.le32 (fatByte fs d) =
      ((w.devs fs.dev).bytes.put32 (fatByte fs c) value).le32 (fatByte fs d) := by
    intro d hd
    have := fatByte_lt g hd
    exact Bytes.le32_congr fun j hj => entry _ (.inl (by omega))
  ext1
  · funext d
    simp only [volume, Volume.link, World.setDev_devs, Function.update_apply]
    by_cases hd : fs.Valid d
    · rw [if_pos hd, if_pos hd, table d hd]
      by_cases same : d = c
      · subst same
        rw [if_pos rfl, Bytes.le32_put32]
        omega
      · rw [if_neg same]
        congr 1
        refine Bytes.le32_congr fun j hj => Bytes.put32_outside _ _ _ _ ?_
        unfold fatByte
        omega
    · have different : d ≠ c := fun same => hd (same ▸ valid)
      rw [if_neg hd, if_neg hd, if_neg different]
  · funext d k
    simp only [volume, Volume.link, World.setDev_devs]
    split
    · have beyond := Geometry.dataOffset_le_clusterByte fs d
      have apart := fatByte_lt_clusterByte g valid d
      rw [entry _ (.inr (by omega)), Bytes.put32_outside _ _ _ _ (by omega)]
    · rfl

/-- What `fat32_set_fat_entry` does to the medium: the entry changes in the first table, and its
sector is copied to the second one. -/
structure SetsEntry (fs : Fs) (before after : Bytes) (c value : ℕ) : Prop where
  entry : ∀ k, k < (fs.fatOffset + fs.boot.fatSize32) * sectorSize ∨
      fs.dataOffset * sectorSize ≤ k →
    after k = before.put32 (fatByte fs c)
      (before.le32 (fatByte fs c) / 2 ^ 28 * 2 ^ 28 + value % 2 ^ 28) k
  copied : 1 < fs.boot.numFats → ∀ k < fs.boot.fatSize32 * sectorSize,
    after ((fs.fatOffset + fs.boot.fatSize32) * sectorSize + k) =
        after (fs.fatOffset * sectorSize + k) ∨
      after ((fs.fatOffset + fs.boot.fatSize32) * sectorSize + k) =
          before ((fs.fatOffset + fs.boot.fatSize32) * sectorSize + k) ∧
        after (fs.fatOffset * sectorSize + k) = before (fs.fatOffset * sectorSize + k)
  further : ∀ k, (fs.fatOffset + 2 * fs.boot.fatSize32) * sectorSize ≤ k →
    k < fs.dataOffset * sectorSize → after k = before k

theorem SetsEntry.of_put32 (g : Geometry fs) (valid : fs.Valid c) (bytes : Bytes) (value : ℕ)
    (single : ¬ 1 < fs.boot.numFats) :
    SetsEntry fs bytes (bytes.put32 (fatByte fs c)
      (bytes.le32 (fatByte fs c) / 2 ^ 28 * 2 ^ 28 + value % 2 ^ 28)) c value := by
  refine ⟨fun k _ => rfl, fun two => absurd two single, fun k low _ => ?_⟩
  have := fatByte_lt g valid
  exact Bytes.put32_outside _ _ _ _ (by unfold sectorSize at *; omega)

theorem SetsEntry.of_copy (g : Geometry fs) (valid : fs.Valid c) (bytes junk : Bytes) (value : ℕ)
    (two : 1 < fs.boot.numFats) {new : ℕ}
    (entry : bytes.le32 (fatByte fs c) / 2 ^ 28 * 2 ^ 28 + value % 2 ^ 28 = new) :
    SetsEntry fs bytes ((bytes.put32 (fatByte fs c) new).blit
      ((fatSector fs c + fs.boot.fatSize32) * sectorSize)
      (Bytes.put32 (junk.blit 0 bytes (fatSector fs c * sectorSize) sectorSize) (entOffset fs c) new)
      0 sectorSize) c value := by
  obtain ⟨below, above⟩ := fatSector_lt g valid
  obtain ⟨split, fits⟩ := sector_add_entOffset g valid
  have second := g.second_table_le two
  have last := fatByte_lt g valid
  have buffer : ∀ k < sectorSize, Bytes.put32 (junk.blit 0 bytes (fatSector fs c * sectorSize)
      sectorSize) (entOffset fs c) new k =
        bytes.put32 (fatByte fs c) new (fatSector fs c * sectorSize + k) :=
    fun k hk => put32_fatSector g valid bytes junk new hk
  have sectorEnd : (fatSector fs c + 1) * sectorSize ≤
      (fs.fatOffset + fs.boot.fatSize32) * sectorSize := Nat.mul_le_mul_right _ below
  have sectorStart : fs.fatOffset * sectorSize ≤ fatSector fs c * sectorSize :=
    Nat.mul_le_mul_right _ above
  have atData : (fs.fatOffset + fs.boot.fatSize32 + fs.boot.fatSize32) * sectorSize ≤
      fs.dataOffset * sectorSize := Nat.mul_le_mul_right _ (by omega)
  generalize Bytes.put32 (junk.blit _ _ _ _) _ _ = buf at buffer ⊢
  generalize afterBytes : (bytes.put32 (fatByte fs c) new).blit _ buf 0 sectorSize = after
  have outside : ∀ k, ¬ ((fatSector fs c + fs.boot.fatSize32) * sectorSize ≤ k ∧
      k < (fatSector fs c + fs.boot.fatSize32) * sectorSize + sectorSize) →
      after k = bytes.put32 (fatByte fs c) new k := by
    intro k apart
    rw [← afterBytes]
    exact Bytes.blit_outside _ _ _ _ _ _ apart
  have within : ∀ j < sectorSize,
      after ((fatSector fs c + fs.boot.fatSize32) * sectorSize + j) = buf j := by
    intro j hj
    rw [← afterBytes, Bytes.blit_inside _ _ _ _ _ _ (Nat.le_add_right _ _)
      (Nat.add_lt_add_left hj _), Nat.add_sub_cancel_left, Nat.zero_add]
  simp only [Nat.add_mul, Nat.one_mul] at last within outside sectorEnd atData
  constructor
  · intro k hk
    rw [entry]
    rw [Nat.add_mul] at hk
    exact outside k (by omega)
  · intro _ k hk
    rw [Nat.add_mul]
    by_cases inside : fatSector fs c * sectorSize ≤ fs.fatOffset * sectorSize + k ∧
        fs.fatOffset * sectorSize + k < fatSector fs c * sectorSize + sectorSize
    · left
      obtain ⟨j, place⟩ := Nat.exists_eq_add_of_le inside.1
      have copy : fs.fatOffset * sectorSize + fs.boot.fatSize32 * sectorSize + k =
          fatSector fs c * sectorSize + fs.boot.fatSize32 * sectorSize + j := by omega
      have here : j < sectorSize := by omega
      rw [place, outside (fatSector fs c * sectorSize + j) (by omega), ← buffer j here, copy,
        within j here]
    · right
      rw [outside (fs.fatOffset * sectorSize + fs.boot.fatSize32 * sectorSize + k) (by omega),
        outside (fs.fatOffset * sectorSize + k) (by omega)]
      exact ⟨Bytes.put32_outside _ _ _ _ (by omega), Bytes.put32_outside _ _ _ _ (by omega)⟩
  · intro k low high
    rw [Nat.two_mul, ← Nat.add_assoc, Nat.add_mul, Nat.add_mul] at low
    rw [outside k (by omega)]
    exact Bytes.put32_outside _ _ _ _ (by omega)

theorem Attached.setFatEntry_medium (attached : Attached fs w) (valid : fs.Valid c) (value : ℕ) :
    ∃ bytes log, setFatEntry fs c value w =
        (true, w.setDev fs.dev { w.devs fs.dev with bytes := bytes, log := log }) ∧
      SetsEntry fs (w.devs fs.dev).bytes bytes c value := by
  have g := attached.geometry
  have inside := g.known valid
  have here := fatSector_inside g valid
  obtain ⟨below, above⟩ := fatSector_lt g valid
  rw [setFatEntry, if_neg inside]
  simp only [World.blkdevRead_working attached.device here,
    World.blkdevWrite_working attached.device here, blit_fatSector g valid, le32_fatSector g valid]
  generalize newEntry : Bytes.le32 _ (fatByte fs c) / 2 ^ 28 * 2 ^ 28 + value % 2 ^ 28 = new
  generalize logged : fatSector fs c :: (w.devs fs.dev).log = log
  by_cases two : 1 < fs.boot.numFats
  · -- The second table lies behind the first and before the data.
    have first := attached.medium ((w.devs fs.dev).bytes.put32 (fatByte fs c) new) log
    have second := g.second_table_le two
    have sectors := g.sectors
    have data := g.dataFits
    have small : (fatSector fs c + fs.boot.fatSize32) % 2 ^ 32 =
        fatSector fs c + fs.boot.fatSize32 := Nat.mod_eq_of_lt (by omega)
    have there : fatSector fs c + fs.boot.fatSize32 < fs.boot.totalSectors32 := by omega
    rw [if_pos two, small, World.blkdevWrite_working first.device there, World.setDev_setDev]
    simp only [World.setDev_devs]
    exact ⟨_, _, rfl, .of_copy g valid _ _ _ two newEntry⟩
  · rw [if_neg two]
    refine ⟨_, _, rfl, ?_⟩
    rw [← newEntry]
    exact .of_put32 g valid _ _ two

theorem Attached.setFatEntry (attached : Attached fs w) (valid : fs.Valid c) {value : ℕ}
    (small : value < 2 ^ 28) :
    ∃ w', setFatEntry fs c value w = (true, w') ∧ Turns fs w w' ((volume fs w).link c value) := by
  obtain ⟨bytes, log, set, sets⟩ := attached.setFatEntry_medium valid value
  refine ⟨_, set, attached.medium bytes log, ?_, rfl⟩
  rw [volume_put32 attached.geometry valid bytes log _ sets.entry]
  congr 1
  omega

end Update

/-! ## The calls, from the world they are made in -/

namespace Becomes

variable {fs : Fs} {w₀ w : World} {v : Volume}

section

variable (now : Becomes fs w₀ w v)

include now

theorem data_outside {c k : ℕ} (hk : fs.clusterSize ≤ k) : v.data c k = 0 := by
  rw [← now.volume]
  exact volume_data_outside hk

theorem malloc {size : ℕ} (pos : 0 < size) :
    ∃ w', w.malloc size = (some w.heap.next, w') ∧ Becomes fs w₀ w' v ∧
      w.heap.next < w'.heap.next := by
  refine ⟨_, World.malloc_of_reliable now.ready.allocator pos, ?_, Nat.lt_succ_self _⟩
  exact now.of_devs rfl now.ready.allocator (Nat.le_succ _)

theorem readCluster {c : ℕ} (valid : fs.Valid c) (buf : Bytes) :
    readCluster fs c buf w = (some (buf.blit 0 (v.data c) 0 fs.clusterSize), w) := by
  rw [← now.volume]
  exact now.ready.attached.readCluster valid buf

theorem writeCluster {c : ℕ} (valid : fs.Valid c) (buf : Bytes) :
    ∃ w', writeCluster fs c buf w = (true, w') ∧ Becomes fs w₀ w' (v.store fs c buf) := by
  obtain rfl := now.volume
  obtain ⟨w', written, after⟩ := now.ready.attached.writeCluster valid buf
  exact ⟨w', written, now.turns after⟩

theorem getNextCluster (c : ℕ) : getNextCluster fs c w = (v.fat c, w) := by
  rw [← now.volume]
  exact now.ready.attached.getNextCluster c

theorem setFatEntry {c value : ℕ} (valid : fs.Valid c) (small : value < 2 ^ 28) :
    ∃ w', setFatEntry fs c value w = (true, w') ∧ Becomes fs w₀ w' (v.link c value) := by
  obtain rfl := now.volume
  obtain ⟨w', set, after⟩ := now.ready.attached.setFatEntry valid small
  exact ⟨w', set, now.turns after⟩

end

end Becomes

end Thuban.Fat32

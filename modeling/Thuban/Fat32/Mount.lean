import Thuban.Fat32.Driver
import Thuban.Fat32.Volume

/-!
# Mounting a FAT32 volume

`fat32_mount` reads the boot sector and derives the geometry on which every later access rests.  It
checks the sector size and two fields that belong to older formats, and nothing else: whether the
derived numbers describe a volume depends on the boot sector alone (`mounted_geometry_iff`).
-/

namespace Thuban.Fat32

open Lib (Bytes)

/-! ## The driver -/

/-- The fields of the boot sector that later calls read. -/
def bootSector (buf : Bytes) : BootSector where
  bytesPerSector := buf.le16 11
  sectorsPerCluster := (buf 13).toNat
  reservedSectors := buf.le16 14
  numFats := (buf 16).toNat
  fatSize32 := buf.le32 36
  totalSectors32 := buf.le32 32
  rootCluster := buf.le32 44

/-- `root_entry_count`, 0 on FAT32. -/
def rootEntryCount (buf : Bytes) : ℕ := buf.le16 17

/-- `fat_size_16`, 0 on FAT32. -/
def fatSize16 (buf : Bytes) : ℕ := buf.le16 22

/-- The part of `fat32_mount` that derives the geometry. -/
def deriveFs (dev : ℕ) (boot : BootSector) : Fs :=
  let dataOffset := (boot.reservedSectors + boot.numFats * boot.fatSize32 % 2 ^ 32) % 2 ^ 32
  let dataSectors := (boot.totalSectors32 + (2 ^ 32 - dataOffset)) % 2 ^ 32
  { dev := dev
    boot := boot
    fatOffset := boot.reservedSectors
    dataOffset := dataOffset
    rootCluster := boot.rootCluster
    totalClusters := dataSectors / boot.sectorsPerCluster
    clusterSize := boot.bytesPerSector * boot.sectorsPerCluster }

/-- `sizeof(fat32_fs_t)`. -/
def fsSize : ℕ := 136

/-- `sizeof(vfs_superblock_t)`. -/
def superblockSize : ℕ := 80

/-- `vfs_superblock_t` as `fat32_mount` fills it in, with its own address and that of its
`fs_data`. -/
structure Superblock where
  addr : ℕ
  fsDataAddr : ℕ
  fs : Fs
  blocksize : ℕ
  totalBlocks : ℕ
  root : VfsNode

/-- How `fat32_mount` ends: it returns NULL, divides by zero, or returns a superblock. -/
inductive MountEnd
  | refused
  | divideError
  | mounted (sb : Superblock)

def MountEnd.isMounted : MountEnd → Bool
  | mounted _ => true
  | _ => false

/-- The last part of `fat32_mount`: the superblock and the root node. -/
def mountRoot (fs : Fs) (fsDataAddr : ℕ) (w : World) : MountEnd × World :=
  match w.malloc superblockSize with
  | (none, w) => (.refused, w.free fsDataAddr)
  | (some sb, w) =>
      match w.malloc vfsNodeSize with
      | (none, w) => (.refused, (w.free fsDataAddr).free sb)
      | (some root, w) =>
          match w.malloc inodeSize with
          | (none, w) => (.refused, ((w.free root).free fsDataAddr).free sb)
          | (some inode, w) =>
              (.mounted
                { addr := sb, fsDataAddr := fsDataAddr, fs := fs, blocksize := fs.clusterSize,
                  totalBlocks := fs.totalClusters, root := rootNode fs root inode sb }, w)

/-- `fat32_mount`; `dev` is what `blkdev_find` returns for the name of the device. -/
def mount (dev : Option ℕ) (w : World) : MountEnd × World :=
  match dev with
  | none => (.refused, w)
  | some dev =>
      match w.malloc fsSize with
      | (none, w) => (.refused, w)
      | (some fsData, w) =>
          match w.blkdevRead dev 0 1 w.heap.junk 0 with
          | (none, w) => (.refused, w.free fsData)
          | (some buf, w) =>
              if (bootSector buf).bytesPerSector ≠ 512 then (.refused, w.free fsData)
              else if fatSize16 buf ≠ 0 ∨ rootEntryCount buf ≠ 0 then (.refused, w.free fsData)
              else if (bootSector buf).sectorsPerCluster = 0 then (.divideError, w)
              else mountRoot (deriveFs dev (bootSector buf)) fsData w

/-! ## Geometry -/

/-- The `i`-th sector of a cluster, as `fat32_read_cluster` and `fat32_write_cluster` address it. -/
def clusterSector (fs : Fs) (cluster i : ℕ) : ℕ := (clusterToSector fs cluster + i) % 2 ^ 32

/-- What all accesses rest on: the tables and the data area lie one behind the other inside the
volume, the table has an entry for every cluster, and different clusters have different sectors. -/
structure SoundGeometry (fs : Fs) : Prop where
  /-- No product, sum or difference wraps. -/
  dataOffset : fs.dataOffset = fs.fatOffset + fs.boot.numFats * fs.boot.fatSize32
  dataOffset_le : fs.dataOffset ≤ fs.boot.totalSectors32
  /-- The entry that the driver accesses is the one of the cluster, and lies in the first table. -/
  entry : ∀ c, 2 ≤ c → c < fs.totalClusters + 2 →
    fatSector fs c * 512 + entOffset fs c = fs.fatOffset * 512 + 4 * c ∧
      fs.fatOffset ≤ fatSector fs c ∧ fatSector fs c < fs.fatOffset + fs.boot.fatSize32
  inside : ∀ c i, 2 ≤ c → c < fs.totalClusters + 2 → i < fs.boot.sectorsPerCluster →
    fs.dataOffset ≤ clusterSector fs c i ∧ clusterSector fs c i < fs.boot.totalSectors32
  disjoint : ∀ c i c' i', 2 ≤ c → c < fs.totalClusters + 2 → i < fs.boot.sectorsPerCluster →
    2 ≤ c' → c' < fs.totalClusters + 2 → i' < fs.boot.sectorsPerCluster →
    clusterSector fs c i = clusterSector fs c' i' → c = c' ∧ i = i'

def BootSector.clusters (boot : BootSector) : ℕ :=
  (boot.totalSectors32 - (boot.reservedSectors + boot.numFats * boot.fatSize32)) /
    boot.sectorsPerCluster

/-- The tables fit on the volume, and one table has room for an entry of 4 bytes for each cluster,
at an offset below `2 ^ 32`. -/
def BootSector.Fits (boot : BootSector) : Prop :=
  boot.reservedSectors + boot.numFats * boot.fatSize32 ≤ boot.totalSectors32 ∧
    (boot.clusters = 0 ∨
      (boot.clusters + 2) * 4 ≤ boot.fatSize32 * 512 ∧ (boot.clusters + 2) * 4 ≤ 2 ^ 32)

/-- The fields have the widths of the boot sector. -/
structure BootSector.Bounded (boot : BootSector) : Prop where
  bytesPerSector : boot.bytesPerSector = 512
  sectorsPerCluster : 0 < boot.sectorsPerCluster ∧ boot.sectorsPerCluster < 2 ^ 8
  reservedSectors : boot.reservedSectors < 2 ^ 16
  totalSectors32 : boot.totalSectors32 < 2 ^ 32

variable {boot : BootSector} {dev : ℕ} {w w' : World} {sb : Superblock}

theorem deriveFs_of_le (bounded : boot.Bounded)
    (fits : boot.reservedSectors + boot.numFats * boot.fatSize32 ≤ boot.totalSectors32) :
    (deriveFs dev boot).dataOffset = boot.reservedSectors + boot.numFats * boot.fatSize32 ∧
      (deriveFs dev boot).totalClusters = boot.clusters := by
  have := bounded.totalSectors32
  have offset : (deriveFs dev boot).dataOffset =
      boot.reservedSectors + boot.numFats * boot.fatSize32 := by
    simp only [deriveFs]
    omega
  refine ⟨offset, ?_⟩
  show (boot.totalSectors32 + (2 ^ 32 - (deriveFs dev boot).dataOffset)) % 2 ^ 32 /
    boot.sectorsPerCluster = boot.clusters
  rw [offset, BootSector.clusters]
  congr 1
  omega

theorem clusterSector_eq (bounded : boot.Bounded) (fits : boot.Fits) {c i : ℕ} (low : 2 ≤ c)
    (high : c < boot.clusters + 2) (inside : i < boot.sectorsPerCluster) :
    clusterSector (deriveFs dev boot) c i =
        boot.reservedSectors + boot.numFats * boot.fatSize32 + (c - 2) * boot.sectorsPerCluster + i ∧
      boot.reservedSectors + boot.numFats * boot.fatSize32 + (c - 2) * boot.sectorsPerCluster + i <
        boot.totalSectors32 := by
  obtain ⟨offset, -⟩ := @deriveFs_of_le boot dev bounded fits.1
  have total := bounded.totalSectors32
  have area : boot.clusters * boot.sectorsPerCluster ≤
      boot.totalSectors32 - (boot.reservedSectors + boot.numFats * boot.fatSize32) :=
    Nat.div_mul_le_self _ _
  have row : (c - 2 + 1) * boot.sectorsPerCluster ≤ boot.clusters * boot.sectorsPerCluster :=
    Nat.mul_le_mul_right _ (by omega)
  rw [Nat.succ_mul] at row
  have below : boot.reservedSectors + boot.numFats * boot.fatSize32 +
      (c - 2) * boot.sectorsPerCluster + i < boot.totalSectors32 := by omega
  refine ⟨?_, below⟩
  rw [clusterSector, clusterToSector, if_neg (by omega), offset]
  show ((boot.reservedSectors + boot.numFats * boot.fatSize32 +
    (c - 2) * boot.sectorsPerCluster) % 2 ^ 32 + i) % 2 ^ 32 = _
  omega

theorem soundGeometry_of_fits (bounded : boot.Bounded) (fits : boot.Fits) :
    SoundGeometry (deriveFs dev boot) := by
  obtain ⟨offset, clusters⟩ := @deriveFs_of_le boot dev bounded fits.1
  refine ⟨offset, offset ▸ fits.1, ?_, ?_, ?_⟩
  · intro c low high
    rw [clusters] at high
    have reserved := bounded.reservedSectors
    obtain none | ⟨table, addressed⟩ := fits.2
    · omega
    · have sector : fatSector (deriveFs dev boot) c = boot.reservedSectors + c * 4 / 512 := by
        simp only [fatSector, deriveFs, bounded.bytesPerSector]
        omega
      have place : entOffset (deriveFs dev boot) c = c * 4 % 512 := by
        simp only [entOffset, deriveFs, bounded.bytesPerSector]
        omega
      rw [sector, place]
      simp only [deriveFs]
      omega
  · intro c i low high inside
    rw [clusters] at high
    obtain ⟨sector, below⟩ := @clusterSector_eq boot dev bounded fits c i low high inside
    rw [sector, offset]
    exact ⟨by omega, below⟩
  · intro c i c' i' low high inside low' high' inside' same
    rw [clusters] at high high'
    change i < boot.sectorsPerCluster at inside
    change i' < boot.sectorsPerCluster at inside'
    rw [(clusterSector_eq bounded fits low high inside).1,
      (clusterSector_eq bounded fits low' high' inside').1] at same
    have equal : i + boot.sectorsPerCluster * (c - 2) = i' + boot.sectorsPerCluster * (c' - 2) := by
      rw [Nat.mul_comm _ (c - 2), Nat.mul_comm _ (c' - 2)]
      omega
    have rows := congrArg (· / boot.sectorsPerCluster) equal
    have columns := congrArg (· % boot.sectorsPerCluster) equal
    simp only [Nat.add_mul_div_left _ _ bounded.sectorsPerCluster.1, Nat.div_eq_of_lt inside,
      Nat.div_eq_of_lt inside', Nat.add_mul_mod_self_left, Nat.mod_eq_of_lt inside,
      Nat.mod_eq_of_lt inside'] at rows columns
    omega

theorem fits_of_soundGeometry (bounded : boot.Bounded)
    (sound : SoundGeometry (deriveFs dev boot)) : boot.Fits := by
  have room : boot.reservedSectors + boot.numFats * boot.fatSize32 ≤ boot.totalSectors32 := by
    have offset := sound.dataOffset
    have below := sound.dataOffset_le
    rw [offset] at below
    exact below
  obtain ⟨-, clusters⟩ := @deriveFs_of_le boot dev bounded room
  refine ⟨room, or_iff_not_imp_left.mpr fun some => ?_⟩
  -- The last cluster has the last entry of the table.
  obtain ⟨place, -, inside⟩ := sound.entry (boot.clusters + 1) (by omega) (by omega)
  have sector : fatSector (deriveFs dev boot) (boot.clusters + 1) ≤
      boot.reservedSectors + (boot.clusters + 1) * 4 % 2 ^ 32 / 512 := by
    simp only [fatSector, deriveFs, bounded.bytesPerSector]
    exact Nat.mod_le _ _
  have within : entOffset (deriveFs dev boot) (boot.clusters + 1) =
      (boot.clusters + 1) * 4 % 2 ^ 32 % 512 := by
    simp only [entOffset, deriveFs, bounded.bytesPerSector]
  rw [within] at place
  have start : (deriveFs dev boot).fatOffset = boot.reservedSectors := rfl
  have size : (deriveFs dev boot).boot.fatSize32 = boot.fatSize32 := rfl
  rw [start] at place inside
  rw [size] at inside
  omega

theorem bootSector_blit (buf bytes : Bytes) :
    bootSector (buf.blit 0 bytes (0 * sectorSize) sectorSize) = bootSector bytes := by
  have same : ∀ k < 48, buf.blit 0 bytes (0 * sectorSize) sectorSize k = bytes k := by
    intro k hk
    rw [Bytes.blit_inside _ _ _ _ _ _ (Nat.zero_le k) (by simp only [sectorSize]; omega)]
    congr 1
    omega
  generalize buf.blit 0 bytes (0 * sectorSize) sectorSize = read at same
  simp [bootSector, Bytes.le16, Bytes.le32, same]

theorem mountRoot_fs {fs : Fs} {fsDataAddr : ℕ} (done : mountRoot fs fsDataAddr w = (.mounted sb, w')) :
    sb.fs = fs := by
  unfold mountRoot at done
  split at done
  · simp at done
  split at done
  · simp at done
  split at done
  · simp at done
  · simp only [Prod.mk.injEq, MountEnd.mounted.injEq] at done
    rw [← done.1]

theorem mount_spec (accepted : mount (some dev) w = (.mounted sb, w')) :
    sb.fs = deriveFs dev (bootSector (w.devs dev).bytes) ∧
      (bootSector (w.devs dev).bytes).Bounded := by
  have bytes := w.malloc_devs fsSize
  unfold mount at accepted
  generalize w.malloc fsSize = answer at accepted bytes
  obtain ⟨none | fsData, w₁⟩ := answer
  · simp at accepted
  dsimp only at accepted bytes
  cases read : w₁.blkdevRead dev 0 1 w₁.heap.junk 0 with
  | mk buf w₂ =>
    cases buf with
    | none => simp [read] at accepted
    | some buf =>
      obtain rfl := World.blkdevRead_eq_some read
      simp only [read, bootSector_blit, bytes] at accepted
      split_ifs at accepted with size old zero
      all_goals first | simp at accepted | skip
      refine ⟨mountRoot_fs accepted, not_not.mp size, ⟨by omega, ?_⟩, ?_, ?_⟩
      · exact UInt8.toNat_lt _
      · exact Bytes.le16_lt _ _
      · exact Bytes.le32_lt _ _

/-- The geometry that `fat32_mount` derives is sound for exactly those boot sectors whose tables fit
on the volume and whose table has room for every cluster. -/
theorem mounted_geometry_iff (accepted : mount (some dev) w = (.mounted sb, w')) :
    SoundGeometry sb.fs ↔ (bootSector (w.devs dev).bytes).Fits := by
  obtain ⟨derived, bounded⟩ := mount_spec accepted
  rw [derived]
  exact ⟨fits_of_soundGeometry bounded, soundGeometry_of_fits bounded⟩

/-- With reserved sectors, a table and no more clusters than cluster numbers, such a volume has the
geometry that the rest of the driver relies on. -/
theorem geometry_of_mounted (accepted : mount (some dev) w = (.mounted sb, w'))
    (boots : bootSector (w.devs dev).bytes = boot) (fits : boot.Fits)
    (reserved : 0 < boot.reservedSectors) (tables : 0 < boot.numFats) (some : boot.clusters ≠ 0)
    (few : boot.clusters + 2 ≤ 0x0FFFFFF7) : Geometry sb.fs := by
  obtain ⟨derived, bounded⟩ := mount_spec accepted
  rw [boots] at derived bounded
  obtain ⟨offset, clusters⟩ := @deriveFs_of_le boot dev bounded fits.1
  have room := fits.1
  have area : boot.clusters * boot.sectorsPerCluster ≤
      boot.totalSectors32 - (boot.reservedSectors + boot.numFats * boot.fatSize32) :=
    Nat.div_mul_le_self _ _
  rw [derived]
  constructor
  · exact bounded.bytesPerSector
  · show boot.bytesPerSector * boot.sectorsPerCluster = sectorSize * boot.sectorsPerCluster
    rw [bounded.bytesPerSector, sectorSize]
  · exact bounded.sectorsPerCluster.1
  · exact bounded.sectorsPerCluster.2
  · exact reserved
  · exact offset
  · exact tables
  · rw [clusters]
    exact (fits.2.resolve_left some).1
  · rw [offset, clusters]
    show boot.reservedSectors + boot.numFats * boot.fatSize32 +
      boot.clusters * boot.sectorsPerCluster ≤ boot.totalSectors32
    omega
  · exact bounded.totalSectors32
  · rw [clusters]
    exact few

/-- A device of 16 sectors with clusters of one sector, one table of one sector and the root directory
in cluster 2; the boot sector gives the reserved sectors and the size of the volume. -/
def bootWorld (reserved sectors : ℕ) : World where
  devs := fun _ =>
    { totalSectors := 16, present := true, readonly := false,
      bytes := ((((((Bytes.put16 (fun _ => 0) 11 512).put 13 1).put16 14 reserved).put 16 1).put32 32
        sectors).put32 36 1).put32 44 2
      faults := [], log := [] }
  heap := { next := 1, live := [], misfreed := [], oom := [], junk := fun _ => 0 }

theorem exists_mounted {m : MountEnd × World} (ends : m.1.isMounted = true) :
    ∃ sb w', m = (.mounted sb, w') := by
  obtain ⟨_ | _ | sb, w'⟩ := m
  · cases ends
  · cases ends
  · exact ⟨sb, w', rfl⟩

/-- The rule applied to a volume of 16 sectors. -/
theorem mounted_geometry_small : ∃ sb w', mount (some 0) (bootWorld 1 16) = (.mounted sb, w') ∧
    SoundGeometry sb.fs := by
  obtain ⟨sb, w', accepted⟩ := exists_mounted (m := mount (some 0) (bootWorld 1 16)) (by decide +kernel)
  refine ⟨sb, w', accepted, (mounted_geometry_iff accepted).mpr ?_⟩
  exact ⟨by decide +kernel, .inr ⟨by decide +kernel, by decide +kernel⟩⟩

theorem mount_reliable {sectors : ℕ} (device : World.Working (w.devs dev) sectors) (pos : 0 < sectors)
    (allocator : w.heap.oom = []) (accepted : mount (some dev) w = (.mounted sb, w')) :
    w'.devs = w.devs ∧ w'.heap.oom = [] ∧
      ∃ addr inode, sb.root = rootNode sb.fs addr inode sb.addr := by
  have read (heap) := @World.blkdevRead_working ⟨w.devs, heap⟩ dev 0 sectors device pos
  simp only [mount, World.malloc_of_reliable, allocator, fsSize, Nat.ofNat_pos, read] at accepted
  split_ifs at accepted
  · cases accepted
  · cases accepted
  · cases accepted
  simp only [mountRoot, World.malloc_of_reliable, superblockSize, vfsNodeSize, inodeSize,
    Nat.ofNat_pos] at accepted
  cases accepted
  exact ⟨rfl, rfl, _, _, rfl⟩

/-- On a device and with an allocator that never fail, mounting such a volume leads to what the results
on all other operations start from, and leaves the volume as it is. -/
theorem mounted_ready (accepted : mount (some dev) w = (.mounted sb, w'))
    (boots : bootSector (w.devs dev).bytes = boot) (fits : boot.Fits)
    (reserved : 0 < boot.reservedSectors) (tables : 0 < boot.numFats) (some : boot.clusters ≠ 0)
    (few : boot.clusters + 2 ≤ 0x0FFFFFF7)
    (device : World.Working (w.devs dev) boot.totalSectors32) (allocator : w.heap.oom = []) :
    Ready sb.fs w' ∧ volume sb.fs w' = volume sb.fs w ∧
      ∃ addr inode, sb.root = rootNode sb.fs addr inode sb.addr := by
  have room := fits.1
  obtain ⟨devs, reliable, root⟩ := mount_reliable device (by omega) allocator accepted
  refine ⟨⟨geometry_of_mounted accepted boots fits reserved tables some few, ?_, reliable⟩,
    volume_congr devs, root⟩
  rw [(mount_spec accepted).1, boots, devs]
  exact device

theorem mounted_ready_small : ∃ sb w', mount (some 0) (bootWorld 1 16) = (.mounted sb, w') ∧
    Ready sb.fs w' := by
  obtain ⟨sb, w', accepted⟩ := exists_mounted (m := mount (some 0) (bootWorld 1 16)) (by decide +kernel)
  have fits : (bootSector ((bootWorld 1 16).devs 0).bytes).Fits :=
    ⟨by decide +kernel, .inr ⟨by decide +kernel, by decide +kernel⟩⟩
  exact ⟨sb, w', accepted, (mounted_ready accepted rfl fits (by decide +kernel) (by decide +kernel)
    (by decide +kernel) (by decide +kernel) (by constructor <;> decide +kernel) rfl).1⟩

/-- A boot sector with more reserved sectors than the volume has is accepted: the data area starts
behind the end of the volume, and the number of its sectors wraps. -/
theorem mount_beyond_end : ∃ sb w', mount (some 0) (bootWorld 32 16) = (.mounted sb, w') ∧
    sb.fs.dataOffset = 33 ∧ sb.fs.totalClusters = 2 ^ 32 - 17 ∧ ¬ SoundGeometry sb.fs := by
  obtain ⟨sb, w', accepted⟩ := exists_mounted (m := mount (some 0) (bootWorld 32 16)) (by decide +kernel)
  refine ⟨sb, w', accepted, ?_⟩
  rw [(mount_spec accepted).1]
  refine ⟨by decide +kernel, by decide +kernel, fun sound => ?_⟩
  exact absurd sound.dataOffset_le (by decide +kernel)

/-! ## Divisions -/

/-- No division by zero: not in `fat32_mount`, and, if it returns a volume, none by the sector size or the
cluster size later. -/
def Divides (ends : MountEnd) : Prop :=
  ends ≠ .divideError ∧
    ∀ sb, ends = .mounted sb → sb.fs.boot.bytesPerSector ≠ 0 ∧ sb.fs.clusterSize ≠ 0

theorem divides_mountRoot {fs : Fs} (sectors : fs.boot.bytesPerSector ≠ 0)
    (clusters : fs.clusterSize ≠ 0) (fsDataAddr : ℕ) (w : World) :
    Divides (mountRoot fs fsDataAddr w).1 := by
  constructor
  · unfold mountRoot
    split
    · nofun
    split
    · nofun
    split <;> nofun
  · intro sb ends
    have same := @mountRoot_fs w (mountRoot fs fsDataAddr w).2 sb fs fsDataAddr (Prod.ext ends rfl)
    rw [same]
    exact ⟨sectors, clusters⟩

/-- Mounting and all later calls divide by numbers other than zero if and only if the boot sector is not
read, is refused by one of the checks, or has clusters of at least one sector. -/
theorem mount_divides_iff (dev : ℕ) (w : World) :
    Divides (mount (some dev) w).1 ↔
      ∀ fsData w₁ buf w₂, w.malloc fsSize = (some fsData, w₁) →
        w₁.blkdevRead dev 0 1 w₁.heap.junk 0 = (some buf, w₂) →
        (bootSector buf).bytesPerSector ≠ 512 ∨ fatSize16 buf ≠ 0 ∨ rootEntryCount buf ≠ 0 ∨
          (bootSector buf).sectorsPerCluster ≠ 0 := by
  have refused : Divides .refused := ⟨nofun, nofun⟩
  rw [mount]
  rcases allocated : w.malloc fsSize with ⟨_ | fsData, w₁⟩
  · exact iff_of_true refused nofun
  dsimp only
  rcases read : w₁.blkdevRead dev 0 1 w₁.heap.junk 0 with ⟨_ | buf, w₂⟩
  · refine iff_of_true refused fun _ _ _ _ same again => ?_
    cases same
    rw [read] at again
    cases again
  have only : (∀ fsData' w₁' buf' w₂', (some fsData, w₁) = (some fsData', w₁') →
      w₁'.blkdevRead dev 0 1 w₁'.heap.junk 0 = (some buf', w₂') →
      (bootSector buf').bytesPerSector ≠ 512 ∨ fatSize16 buf' ≠ 0 ∨ rootEntryCount buf' ≠ 0 ∨
        (bootSector buf').sectorsPerCluster ≠ 0) ↔
      (bootSector buf).bytesPerSector ≠ 512 ∨ fatSize16 buf ≠ 0 ∨ rootEntryCount buf ≠ 0 ∨
        (bootSector buf).sectorsPerCluster ≠ 0 := by
    refine ⟨fun all => all fsData w₁ buf w₂ rfl read, fun here _ _ _ _ same again => ?_⟩
    cases same
    rw [read] at again
    cases again
    exact here
  rw [only]
  dsimp only
  split_ifs with size old zero
  · exact iff_of_true refused (.inl size)
  · exact iff_of_true refused (.inr (or_assoc.mp (.inl old)))
  · refine iff_of_false (fun divides => divides.1 rfl) ?_
    rw [not_or] at old
    rintro (bad | bad | bad | bad)
    · exact size bad
    · exact old.1 bad
    · exact old.2 bad
    · exact bad zero
  · have sectors : (bootSector buf).bytesPerSector = 512 := not_not.mp size
    refine iff_of_true (divides_mountRoot ?_ ?_ _ _) (.inr (.inr (.inr zero)))
    · show (bootSector buf).bytesPerSector ≠ 0
      omega
    · exact Nat.mul_ne_zero (by omega) zero

/-- A boot sector with clusters of no sectors. -/
def noSectors : World :=
  { bootWorld 1 16 with
    devs := fun _ => { (bootWorld 1 16).devs 0 with bytes := ((bootWorld 1 16).devs 0).bytes.put 13 0 } }

/-- It passes the checks, and the number of clusters is a quotient by zero. -/
theorem mount_divides_by_zero : (mount (some 0) noSectors).1 = .divideError := by
  rfl

end Thuban.Fat32

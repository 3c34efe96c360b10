import Thuban.Kernel.World

/-!
# Clusters and the file allocation table

The lower half of `fs/fat32/fat32.c`: transfers of whole clusters, entries of the allocation table,
allocation and release.  All numbers are the 32-bit numbers of the source and wrap where they do.

`fat32_mount` sets `fat_cache` to NULL and nothing else assigns it, so the cache is left out.
-/

namespace Thuban.Fat32

open Lib (Bytes)

/-- The fields of `fat32_boot_sector_t` that the driver reads. -/
structure BootSector where
  bytesPerSector : ℕ
  sectorsPerCluster : ℕ
  reservedSectors : ℕ
  numFats : ℕ
  fatSize32 : ℕ
  totalSectors32 : ℕ
  rootCluster : ℕ

/-- `fat32_fs_t`. -/
structure Fs where
  dev : ℕ
  boot : BootSector
  fatOffset : ℕ
  dataOffset : ℕ
  rootCluster : ℕ
  totalClusters : ℕ
  clusterSize : ℕ

/-- `FAT32_EOC_MIN`. -/
def eocMin : ℕ := 0x0FFFFFF8

/-- `FAT32_EOC_MAX`. -/
def eocMax : ℕ := 0x0FFFFFFF

/-- `FAT32_FREE_CLUSTER`. -/
def freeMark : ℕ := 0

/-- `fat32_cluster_to_sector`. -/
def clusterToSector (fs : Fs) (cluster : ℕ) : ℕ :=
  if cluster < 2 then 0
  else (fs.dataOffset + (cluster - 2) * fs.boot.sectorsPerCluster) % 2 ^ 32

/-- The loop of `fat32_read_cluster` with `n` sectors to go. -/
def readSectors (fs : Fs) (sector : ℕ) : (n i : ℕ) → Bytes → World → Option Bytes × World
  | 0, _, buf, w => (some buf, w)
  | n + 1, i, buf, w =>
      match w.blkdevRead fs.dev ((sector + i) % 2 ^ 32) 1 buf (i * fs.boot.bytesPerSector) with
      | (none, w) => (none, w)
      | (some buf, w) => readSectors fs sector n (i + 1) buf w

/-- `fat32_read_cluster`: the buffer after a successful read. -/
def readCluster (fs : Fs) (cluster : ℕ) (buf : Bytes) (w : World) : Option Bytes × World :=
  let sector := clusterToSector fs cluster
  if sector = 0 then (none, w) else readSectors fs sector fs.boot.sectorsPerCluster 0 buf w

/-- The loop of `fat32_write_cluster` with `n` sectors to go. -/
def writeSectors (fs : Fs) (sector : ℕ) (buf : Bytes) : (n i : ℕ) → World → Bool × World
  | 0, _, w => (true, w)
  | n + 1, i, w =>
      match w.blkdevWrite fs.dev ((sector + i) % 2 ^ 32) 1 buf (i * fs.boot.bytesPerSector) with
      | (false, w) => (false, w)
      | (true, w) => writeSectors fs sector buf n (i + 1) w

/-- `fat32_write_cluster`. -/
def writeCluster (fs : Fs) (cluster : ℕ) (buf : Bytes) (w : World) : Bool × World :=
  let sector := clusterToSector fs cluster
  if sector = 0 then (false, w) else writeSectors fs sector buf fs.boot.sectorsPerCluster 0 w

/-- The bound `fs->total_clusters + 2` of all range checks. -/
def Fs.limit (fs : Fs) : ℕ := (fs.totalClusters + 2) % 2 ^ 32

/-- The sector of the first allocation table that holds the entry of a cluster. -/
def fatSector (fs : Fs) (cluster : ℕ) : ℕ :=
  (fs.fatOffset + cluster * 4 % 2 ^ 32 / fs.boot.bytesPerSector) % 2 ^ 32

def entOffset (fs : Fs) (cluster : ℕ) : ℕ := cluster * 4 % 2 ^ 32 % fs.boot.bytesPerSector

/-- `fat32_get_next_cluster`.  A failed read looks like the end of the chain. -/
def getNextCluster (fs : Fs) (cluster : ℕ) (w : World) : ℕ × World :=
  if cluster < 2 ∨ fs.limit ≤ cluster then (eocMax, w)
  else
    match w.blkdevRead fs.dev (fatSector fs cluster) 1 w.heap.junk 0 with
    | (none, w) => (eocMax, w)
    | (some buf, w) => (buf.le32 (entOffset fs cluster) % 2 ^ 28, w)

/-- `fat32_set_fat_entry`: the top four bits of the entry stay; the outcome of the write to the
second table is ignored. -/
def setFatEntry (fs : Fs) (cluster value : ℕ) (w : World) : Bool × World :=
  if cluster < 2 ∨ fs.limit ≤ cluster then (false, w)
  else
    let sector := fatSector fs cluster
    match w.blkdevRead fs.dev sector 1 w.heap.junk 0 with
    | (none, w) => (false, w)
    | (some buf, w) =>
        let old := buf.le32 (entOffset fs cluster)
        let buf := buf.put32 (entOffset fs cluster) (old / 2 ^ 28 * 2 ^ 28 + value % 2 ^ 28)
        match w.blkdevWrite fs.dev sector 1 buf 0 with
        | (false, w) => (false, w)
        | (true, w) =>
            if 1 < fs.boot.numFats then
              (true, (w.blkdevWrite fs.dev ((sector + fs.boot.fatSize32) % 2 ^ 32) 1 buf 0).2)
            else (true, w)

/-- The loop of `fat32_alloc_cluster` with `n` clusters to go. -/
def allocScan (fs : Fs) : (n cluster : ℕ) → World → ℕ × World
  | 0, _, w => (0, w)
  | n + 1, cluster, w =>
      match getNextCluster fs cluster w with
      | (entry, w) =>
          if entry = freeMark then (cluster, (setFatEntry fs cluster eocMax w).2)
          else allocScan fs n (cluster + 1) w

/-- `fat32_alloc_cluster`: the first free cluster, now an end of chain, or 0. -/
def allocCluster (fs : Fs) (w : World) : ℕ × World := allocScan fs (fs.limit - 2) 2 w

/-- `fat32_free_cluster`. -/
def freeCluster (fs : Fs) (cluster : ℕ) (w : World) : World :=
  if cluster < 2 ∨ fs.limit ≤ cluster then w else (setFatEntry fs cluster freeMark w).2

/-- The condition of every loop along a chain. -/
def InChain (cluster : ℕ) : Prop := 2 ≤ cluster ∧ cluster < eocMin

instance (cluster : ℕ) : Decidable (InChain cluster) := inferInstanceAs (Decidable (_ ∧ _))

/-- `fat32_free_chain`. -/
def freeChain (fs : Fs) : (fuel cluster : ℕ) → World → Option World
  | 0, _, _ => none
  | fuel + 1, cluster, w =>
      if InChain cluster then
        match getNextCluster fs cluster w with
        | (next, w) => freeChain fs fuel next (freeCluster fs cluster w)
      else some w

end Thuban.Fat32

import Thuban.Fat32.Preservation
import Thuban.Fat32.Volume

/-!
# Where the driver writes

On a volume of valid geometry whose allocation table and directories hold anything at all, on a device
and with an allocator that may fail at any time.  `DiskWrite` lists the writes that are meant to occur:
an entry of the first table, a copy of its sector in the second, and sectors of the data area.
`fat32_write_cluster` has no upper bound on the cluster, so that it depends on the numbers found on the
volume whether there are others.
-/

namespace Thuban.Fat32

open Lib

def Fs.dataEnd (fs : Fs) : ℕ := fs.dataOffset + fs.totalClusters * fs.boot.sectorsPerCluster

/-- The bytes of the device and the sectors passed to `blkdev_write`. -/
def medium (fs : Fs) (w : World) : Bytes × List ℕ := ((w.devs fs.dev).bytes, (w.devs fs.dev).log)

/-- One call of `blkdev_write`, which may fail and leave the bytes as they are. -/
inductive DiskWrite (fs : Fs) : Bytes × List ℕ → Bytes × List ℕ → Prop
  /-- The low 28 bits of an entry of the first table. -/
  | entry {bytes bytes' : Bytes} {log : List ℕ} {c value : ℕ} (valid : fs.Valid c)
      (top : value / 2 ^ 28 = bytes.le32 (fatByte fs c) / 2 ^ 28)
      (stored : bytes' = bytes ∨ bytes' = bytes.put32 (fatByte fs c) value) :
      DiskWrite fs (bytes, log) (bytes', fatSector fs c :: log)
  /-- A sector of the second table, as it is in the first. -/
  | mirror {bytes bytes' : Bytes} {log : List ℕ} {c : ℕ} (valid : fs.Valid c)
      (two : 1 < fs.boot.numFats)
      (stored : bytes' = bytes ∨ bytes' = bytes.blit ((fatSector fs c + fs.boot.fatSize32) * sectorSize)
        bytes (fatSector fs c * sectorSize) sectorSize) :
      DiskWrite fs (bytes, log) (bytes', (fatSector fs c + fs.boot.fatSize32) :: log)
  /-- A sector of the data area. -/
  | data {bytes bytes' buf : Bytes} {log : List ℕ} {sector pos : ℕ} (low : fs.dataOffset ≤ sector)
      (high : sector < fs.dataEnd)
      (stored : bytes' = bytes ∨ bytes' = bytes.blit (sector * sectorSize) buf pos sectorSize) :
      DiskWrite fs (bytes, log) (bytes', sector :: log)

/-- Every call of `blkdev_write` between the two worlds is of one of these kinds. -/
def Confined (fs : Fs) (w w' : World) : Prop :=
  Relation.ReflTransGen (DiskWrite fs) (medium fs w) (medium fs w')

/-- The sectors that `fat32_write_cluster` writes for a cluster, if any, belong to the data area. -/
def Lands (fs : Fs) (c : ℕ) : Prop :=
  clusterToSector fs c = 0 ∨ ∀ i < fs.boot.sectorsPerCluster,
    fs.dataOffset ≤ (clusterToSector fs c + i) % 2 ^ 32 ∧
      (clusterToSector fs c + i) % 2 ^ 32 < fs.dataEnd

/-- A number that a sound volume holds, or one of the others that occur on this one. -/
def Known (fs : Fs) (Occurs : ℕ → Prop) (c : ℕ) : Prop :=
  Occurs c ∨ c < 2 ∨ fs.Valid c ∨ eocMin ≤ c

/-- The links of the first table are known. -/
def LinksKnown (fs : Fs) (Occurs : ℕ → Prop) (bytes : Bytes) : Prop :=
  ∀ c, fs.Valid c → Known fs Occurs (bytes.le32 (fatByte fs c) % 2 ^ 28)

theorem lands_of_valid {fs : Fs} (g : Geometry fs) {c : ℕ} (valid : fs.Valid c) : Lands fs c := by
  refine .inr fun i hi => ?_
  have sectors := g.sectors
  have fits := g.dataFits
  have : (c - 2 + 1) * fs.boot.sectorsPerCluster ≤ fs.totalClusters * fs.boot.sectorsPerCluster :=
    Nat.mul_le_mul_right _ (by have := valid.1; have := valid.2; omega)
  rw [Nat.add_mul, Nat.one_mul] at this
  rw [clusterToSector_eq g valid, Nat.mod_eq_of_lt (by omega)]
  unfold Fs.dataEnd
  omega

/-! ## Single calls of the block layer -/

section Block

variable {fs : Fs} {w w' : World}

theorem respond_medium (d : BlockDevice) :
    (d.respond.2.bytes, d.respond.2.log) = (d.bytes, d.log) := by
  unfold BlockDevice.respond
  split <;> rfl

theorem medium_polled (polled : World.Polled w w' fs.dev) : medium fs w' = medium fs w := by
  obtain ⟨n, rfl⟩ := polled
  rw [medium, medium, World.withFaults_devs]

/-- A write is logged, and it stores its bytes if it succeeds. -/
theorem blkdevWrite_spec {sector pos : ℕ} {buf : Bytes} {ok : Bool}
    (done : w.blkdevWrite fs.dev sector 1 buf pos = (ok, w')) :
    medium fs w' = (if ok then (medium fs w).1.blit (sector * sectorSize) buf pos sectorSize
      else (medium fs w).1, sector :: (medium fs w).2) := by
  simp only [World.blkdevWrite, one_ne_zero, if_false] at done
  have failed : ∀ d : BlockDevice, (d.bytes, d.log) = ((w.devs fs.dev).bytes, sector :: (w.devs fs.dev).log) →
      (false, w.setDev fs.dev d) = (ok, w') → medium fs w' =
        (if ok then (medium fs w).1.blit (sector * sectorSize) buf pos sectorSize
          else (medium fs w).1, sector :: (medium fs w).2) := by
    intro d logged ends
    cases ends
    rw [medium, World.setDev_devs]
    exact logged
  by_cases absent : (!(w.devs fs.dev).present) = true
  · rw [if_pos absent] at done
    exact failed _ rfl done
  rw [if_neg absent] at done
  by_cases readonly : (w.devs fs.dev).readonly = true
  · rw [if_pos readonly] at done
    exact failed _ rfl done
  rw [if_neg readonly] at done
  by_cases beyond : (w.devs fs.dev).totalSectors ≤ sector
  · rw [if_pos beyond] at done
    exact failed _ rfl done
  rw [if_neg beyond, if_neg (by omega), Nat.one_mul] at done
  have same := respond_medium { w.devs fs.dev with log := sector :: (w.devs fs.dev).log }
  generalize BlockDevice.respond _ = response at done same
  obtain ⟨responds, d⟩ := response
  cases responds with
  | false => exact failed _ same done
  | true =>
    cases done
    obtain ⟨bytes, log⟩ := Prod.mk.inj same
    rw [medium, World.setDev_devs, bytes, log]
    rfl

end Block

/-! ## The calls, from the world they are made in -/

/-- Only confined writes lie between the two worlds, and the links are still known. -/
structure Reached (fs : Fs) (Occurs : ℕ → Prop) (w₀ w : World) : Prop where
  confined : Confined fs w₀ w
  links : LinksKnown fs Occurs (medium fs w).1

namespace Reached

variable {fs : Fs} {Occurs : ℕ → Prop} {w₀ w w' : World}

theorem start (links : LinksKnown fs Occurs (medium fs w).1) : Reached fs Occurs w w :=
  ⟨.refl, links⟩

theorem quiet (here : Reached fs Occurs w₀ w) (same : medium fs w' = medium fs w) :
    Reached fs Occurs w₀ w' := by
  obtain ⟨confined, links⟩ := here
  unfold Confined at confined
  rw [← same] at confined links
  exact ⟨confined, links⟩

theorem devs (here : Reached fs Occurs w₀ w) (same : w'.devs = w.devs) :
    Reached fs Occurs w₀ w' := by
  apply here.quiet
  rw [medium, medium, same]

theorem malloc (here : Reached fs Occurs w₀ w) {size : ℕ} {p : Option ℕ}
    (done : w.malloc size = (p, w')) : Reached fs Occurs w₀ w' := by
  apply here.devs
  rw [← World.malloc_devs w size, done]

theorem free (here : Reached fs Occurs w₀ w) (p : ℕ) : Reached fs Occurs w₀ (w.free p) :=
  here.devs (World.free_devs w p)

theorem beyond (here : Reached fs Occurs w₀ w) (g : Geometry fs)
    (write : DiskWrite fs (medium fs w) (medium fs w'))
    (same : ∀ k < (fs.fatOffset + fs.boot.fatSize32) * sectorSize,
      (medium fs w').1 k = (medium fs w).1 k) : Reached fs Occurs w₀ w' := by
  refine ⟨here.confined.tail write, fun c valid => ?_⟩
  have inside := fatByte_lt g valid
  have entry : (medium fs w').1.le32 (fatByte fs c) = (medium fs w).1.le32 (fatByte fs c) :=
    Bytes.le32_congr fun j hj => same _ (by omega)
  rw [entry]
  exact here.links c valid

variable {c value sector n new : ℕ} {ok : Bool} {buf : Bytes}

theorem getNextCluster (here : Reached fs Occurs w₀ w) (g : Geometry fs) {next : ℕ}
    (done : getNextCluster fs c w = (next, w')) :
    Reached fs Occurs w₀ w' ∧ Known fs Occurs next := by
  have marked : Known fs Occurs eocMax := .inr (.inr (.inr (by decide)))
  unfold Fat32.getNextCluster at done
  by_cases valid : fs.Valid c
  swap
  · rw [if_pos (g.unknown valid)] at done
    cases done
    exact ⟨here, marked⟩
  rw [if_neg (g.known valid)] at done
  rcases read : w.blkdevRead fs.dev (fatSector fs c) 1 w.heap.junk 0 with ⟨_ | buf, w₁⟩
  all_goals
    have here₁ := here.quiet (medium_polled (World.blkdevRead_polled read))
    simp only [read] at done
    cases done
  · exact ⟨here₁, marked⟩
  · refine ⟨here₁, ?_⟩
    rw [World.blkdevRead_eq_some read, le32_fatSector g valid]
    exact here.links c valid

theorem storeEntry (here : Reached fs Occurs w₀ w) (g : Geometry fs) (valid : fs.Valid c)
    (known : Known fs Occurs (value % 2 ^ 28))
    (top : value / 2 ^ 28 = (medium fs w).1.le32 (fatByte fs c) / 2 ^ 28) {junk : Bytes}
    (done : w.blkdevWrite fs.dev (fatSector fs c) 1 (Bytes.put32 (junk.blit 0 (medium fs w).1
      (fatSector fs c * sectorSize) sectorSize) (entOffset fs c) value) 0 = (ok, w')) :
    Reached fs Occurs w₀ w' ∧ (ok = true → (medium fs w').1 =
      (medium fs w).1.put32 (fatByte fs c) value) := by
  have written := blkdevWrite_spec done
  rw [blit_fatSector g valid] at written
  refine ⟨⟨here.confined.tail ?_, fun d hd => ?_⟩, ?_⟩
  · rw [written]
    exact .entry valid top (ite_eq_or_eq _ _ _).symm
  · rw [written]
    cases ok with
    | false => exact here.links d hd
    | true =>
      by_cases same : d = c
      · rw [if_pos rfl, same, Bytes.le32_put32, Nat.mod_mod_of_dvd _ (by decide)]
        exact known
      · have apart : Bytes.le32 ((medium fs w).1.put32 (fatByte fs c) value) (fatByte fs d) =
            (medium fs w).1.le32 (fatByte fs d) := by
          refine Bytes.le32_congr fun j hj => Bytes.put32_outside _ _ _ _ ?_
          unfold fatByte
          omega
        rw [if_pos rfl, apart]
        exact here.links d hd
  · rintro rfl
    rw [written, if_pos rfl]

omit w₀ w w' in
theorem blit_changedSector (g : Geometry fs) (valid : fs.Valid c) (bytes junk : Bytes)
    (value pos : ℕ) :
    (bytes.put32 (fatByte fs c) value).blit pos (Bytes.put32 (junk.blit 0 bytes
      (fatSector fs c * sectorSize) sectorSize) (entOffset fs c) value) 0 sectorSize =
    (bytes.put32 (fatByte fs c) value).blit pos (bytes.put32 (fatByte fs c) value)
      (fatSector fs c * sectorSize) sectorSize := by
  funext k
  by_cases inside : pos ≤ k ∧ k < pos + sectorSize
  · rw [Bytes.blit_inside _ _ _ _ _ _ inside.1 inside.2,
      Bytes.blit_inside _ _ _ _ _ _ inside.1 inside.2, Nat.zero_add]
    exact put32_fatSector g valid _ _ _ (by omega)
  · rw [Bytes.blit_outside _ _ _ _ _ _ inside, Bytes.blit_outside _ _ _ _ _ _ inside]

section

variable (here : Reached fs Occurs w₀ w)

include here

theorem storeMirror (g : Geometry fs) (valid : fs.Valid c) (two : 1 < fs.boot.numFats)
    (content : (medium fs w).1.blit ((fatSector fs c + fs.boot.fatSize32) * sectorSize) buf 0 sectorSize =
      (medium fs w).1.blit ((fatSector fs c + fs.boot.fatSize32) * sectorSize) (medium fs w).1
        (fatSector fs c * sectorSize) sectorSize)
    (done : w.blkdevWrite fs.dev (fatSector fs c + fs.boot.fatSize32) 1 buf 0 = (ok, w')) :
    Reached fs Occurs w₀ w' := by
  have written := blkdevWrite_spec done
  obtain ⟨-, above⟩ := fatSector_lt g valid
  rw [content] at written
  apply here.beyond g
  · rw [written]
    exact .mirror valid two (ite_eq_or_eq _ _ _).symm
  · intro k low
    rw [written]
    split
    · refine Bytes.blit_outside _ _ _ _ _ _ ?_
      unfold sectorSize at *
      omega
    · rfl

theorem setFatEntry (g : Geometry fs) (known : Known fs Occurs (value % 2 ^ 28))
    (done : setFatEntry fs c value w = (ok, w')) : Reached fs Occurs w₀ w' := by
  unfold Fat32.setFatEntry at done
  by_cases valid : fs.Valid c
  swap
  · rw [if_pos (g.unknown valid)] at done
    cases done
    exact here
  rw [if_neg (g.known valid)] at done
  rcases read : w.blkdevRead fs.dev (fatSector fs c) 1 w.heap.junk 0 with ⟨_ | buf, w₁⟩
  all_goals
    have same := medium_polled (World.blkdevRead_polled read)
    have here₁ := here.quiet same
  · simp only [read] at done
    cases done
    exact here₁
  have content : buf = w.heap.junk.blit 0 (medium fs w).1 (fatSector fs c * sectorSize) sectorSize :=
    World.blkdevRead_eq_some read
  rw [← same] at content
  simp only [read, content, le32_fatSector g valid] at done
  generalize entry : _ / 2 ^ 28 * 2 ^ 28 + value % 2 ^ 28 = new at done
  have low : new % 2 ^ 28 = value % 2 ^ 28 := by omega
  rcases first : w₁.blkdevWrite fs.dev (fatSector fs c) 1 (Bytes.put32 (w.heap.junk.blit 0
    (medium fs w₁).1 (fatSector fs c * sectorSize) sectorSize) (entOffset fs c) new) 0 with ⟨ok₁, w₂⟩
  obtain ⟨here₂, stored⟩ := here₁.storeEntry g valid (low ▸ known) (by omega) first
  simp only [first] at done
  cases ok₁ with
  | false =>
    cases done
    exact here₂
  | true =>
    by_cases two : 1 < fs.boot.numFats
    · simp only [if_pos two] at done
      obtain ⟨below, -⟩ := fatSector_lt g valid
      have second := g.second_table_le two
      have data := g.dataFits
      have sectors := g.sectors
      have small : (fatSector fs c + fs.boot.fatSize32) % 2 ^ 32 =
          fatSector fs c + fs.boot.fatSize32 := Nat.mod_eq_of_lt (by omega)
      rw [small] at done
      obtain ⟨-, rfl⟩ := Prod.mk.inj done
      refine here₂.storeMirror g valid two ?_ rfl
      rw [stored rfl]
      exact blit_changedSector g valid _ _ new _
    · simp only [if_neg two] at done
      cases done
      exact here₂

theorem setFatEntry_snd (g : Geometry fs) (c : ℕ) (known : Known fs Occurs (value % 2 ^ 28)) :
    Reached fs Occurs w₀ (Fat32.setFatEntry fs c value w).2 :=
  here.setFatEntry g known (Prod.mk.eta (p := Fat32.setFatEntry fs c value w)).symm

theorem readCluster {answer : Option Bytes} (done : readCluster fs c buf w = (answer, w')) :
    Reached fs Occurs w₀ w' :=
  here.quiet (medium_polled (readCluster_polled done))

theorem storeData (g : Geometry fs) {pos : ℕ} (low : fs.dataOffset ≤ sector)
    (high : sector < fs.dataEnd) (done : w.blkdevWrite fs.dev sector 1 buf pos = (ok, w')) :
    Reached fs Occurs w₀ w' := by
  have written := blkdevWrite_spec done
  have table := g.table_le
  apply here.beyond g
  · rw [written]
    exact .data low high (ite_eq_or_eq _ _ _).symm
  · intro k below
    rw [written]
    split
    · refine Bytes.blit_outside _ _ _ _ _ _ ?_
      unfold sectorSize at *
      omega
    · rfl

theorem writeSectors (g : Geometry fs) {i : ℕ}
    (inside : ∀ j, i ≤ j → j < i + n →
      fs.dataOffset ≤ (sector + j) % 2 ^ 32 ∧ (sector + j) % 2 ^ 32 < fs.dataEnd)
    (done : writeSectors fs sector buf n i w = (ok, w')) : Reached fs Occurs w₀ w' := by
  induction n generalizing i w with
  | zero =>
    cases done
    exact here
  | succ n ih =>
    unfold Fat32.writeSectors at done
    obtain ⟨low, high⟩ := inside i le_rfl (by omega)
    rcases first : w.blkdevWrite fs.dev ((sector + i) % 2 ^ 32) 1 buf (i * fs.boot.bytesPerSector)
      with ⟨ok₁, w₁⟩
    have here₁ := here.storeData g low high first
    simp only [first] at done
    cases ok₁ with
    | false =>
      cases done
      exact here₁
    | true => exact ih here₁ (fun j le lt => inside j (by omega) (by omega)) done

theorem writeCluster (g : Geometry fs) (lands : Lands fs c)
    (done : writeCluster fs c buf w = (ok, w')) : Reached fs Occurs w₀ w' := by
  unfold Fat32.writeCluster at done
  dsimp only at done
  rcases lands with none | inside
  · rw [if_pos none] at done
    cases done
    exact here
  · split_ifs at done
    · cases done
      exact here
    · exact here.writeSectors g (fun j _ lt => inside j (by omega)) done

theorem allocScan (g : Geometry fs) (two : 2 ≤ c) (fits : c + n ≤ fs.totalClusters + 2)
    (done : allocScan fs n c w = (new, w')) :
    Reached fs Occurs w₀ w' ∧ (new ≠ 0 → fs.Valid new) := by
  induction n generalizing c w with
  | zero =>
    cases done
    exact ⟨here, fun zero => absurd rfl zero⟩
  | succ n ih =>
    unfold Fat32.allocScan at done
    rcases next : Fat32.getNextCluster fs c w with ⟨entry, w₁⟩
    obtain ⟨here₁, -⟩ := here.getNextCluster g next
    simp only [next] at done
    by_cases free : entry = freeMark
    · rw [if_pos free] at done
      cases done
      refine ⟨here₁.setFatEntry_snd g _ ?_, fun _ => ⟨two, by omega⟩⟩
      exact .inr (.inr (.inr (by decide)))
    · rw [if_neg free] at done
      exact ih here₁ (by omega) (by omega) done

theorem allocCluster (g : Geometry fs) (done : allocCluster fs w = (new, w')) :
    Reached fs Occurs w₀ w' ∧ (new ≠ 0 → fs.Valid new) := by
  unfold Fat32.allocCluster at done
  rw [g.limit] at done
  exact here.allocScan g le_rfl (by omega) done

end

end Reached

/-! ## The operations -/

section Operations

variable {fs : Fs} {Occurs : ℕ → Prop}

theorem lands_of_known (g : Geometry fs) (harmless : ∀ u, Occurs u → InChain u → Lands fs u) {c : ℕ}
    (known : Known fs Occurs c) (small : c < eocMin) : Lands fs c := by
  by_cases low : c < 2
  · exact .inl (if_pos low)
  rcases known with occurs | small' | valid | mark
  · exact harmless c occurs ⟨not_lt.mp low, small⟩
  · exact absurd small' low
  · exact lands_of_valid g valid
  · exact absurd small (not_lt.mpr mark)

theorem known_of_valid {c : ℕ} (valid : fs.Valid c) : Known fs Occurs c := .inr (.inr (.inl valid))

theorem known_low (g : Geometry fs) {c : ℕ} (valid : fs.Valid c) : Known fs Occurs (c % 2 ^ 28) := by
  have small := g.lt_eocMin valid
  rw [Nat.mod_eq_of_lt (lt_trans small (by decide))]
  exact known_of_valid valid

/-- The same, whatever objects are held. -/
def Reached.Holding (fs : Fs) (Occurs : ℕ → Prop) (w₀ : World) (_ : List ℕ) (w : World) : Prop :=
  Reached fs Occurs w₀ w

theorem reached_kept (g : Geometry fs) (harmless : ∀ u, Occurs u → InChain u → Lands fs u)
    (w₀ : World) :
    Kept fs (Known fs Occurs) fs.Valid (Lands fs) (Reached.Holding fs Occurs w₀) where
  failed_malloc here failed := here.malloc failed
  malloc here done := here.malloc done
  free here := here.free _
  perm here _ := here
  readCluster c buf here := here.readCluster rfl
  writeCluster buf lands here := here.writeCluster g lands rfl
  getNextCluster c here := here.getNextCluster g rfl
  setFatEntry c value stored here := by
    refine here.setFatEntry g ?_ rfl
    rcases stored with rfl | valid
    · exact .inr (.inl (by decide))
    · exact known_low g valid
  allocCluster here := here.allocCluster g rfl
  known := known_of_valid
  writable_new := lands_of_valid g
  writable := lands_of_known g harmless

end Operations

inductive DiskCall
  | create (dir : VfsNode) (name : CString) (mode : ℕ)
  | write (node : VfsNode) (src : Bytes) (count : ℕ) (offset : ℤ)
  | unlink (dir : VfsNode) (name : CString)
  | rmdir (dir : VfsNode) (name : CString)

namespace DiskCall

def run (fs : Fs) (fuel : ℕ) (w : World) : DiskCall → Option World
  | create dir name mode => (Fat32.create fs dir name mode fuel w).map Prod.snd
  | write node src count offset => (Fat32.write fs node src count offset fuel w).map fun r => r.2.2
  | unlink dir name => (Fat32.unlink fs dir name fuel w).map Prod.snd
  | rmdir dir name => (Fat32.rmdir fs dir name fuel w).map Prod.snd

/-- The numbers that `fat32_lookup` has taken from the volume for the node of the call. -/
def inode : DiskCall → Inode
  | create dir _ _ => dir.fsData
  | write node _ _ _ => node.fsData
  | unlink dir _ => dir.fsData
  | rmdir dir _ => dir.fsData

/-- The node was made on this volume. -/
structure Known (fs : Fs) (Occurs : ℕ → Prop) (call : DiskCall) : Prop where
  first : Fat32.Known fs Occurs call.inode.firstCluster
  dir : Fat32.Known fs Occurs call.inode.dirCluster
  small : call.inode.dirCluster < eocMin

end DiskCall

variable {fs : Fs} {Occurs : ℕ → Prop} {w w' : World}

theorem confined_of_harmless (g : Geometry fs) (harmless : ∀ u, Occurs u → InChain u → Lands fs u)
    {call : DiskCall} {fuel : ℕ} (links : LinksKnown fs Occurs (medium fs w).1)
    (known : call.Known fs Occurs) (done : call.run fs fuel w = some w') : Confined fs w w' := by
  have here : Reached.Holding fs Occurs w [] w := Reached.start links
  have kept := reached_kept g harmless w
  cases call with
  | create dir name mode =>
    obtain ⟨⟨r, _⟩, called, rfl⟩ := Option.map_eq_some_iff.mp done
    exact (create_kept kept here known.first called).confined
  | write node src count offset =>
    obtain ⟨⟨r, node', _⟩, called, rfl⟩ := Option.map_eq_some_iff.mp done
    have lands := kept.writable known.dir known.small
    rcases (write_kept kept here known.first lands called).2 with
      ⟨-, tmp, w₁, w₂, -, there, rfl⟩ | ⟨-, there⟩
    · exact (there.free tmp).confined
    · exact there.confined
  | unlink dir name =>
    obtain ⟨⟨r, _⟩, called, rfl⟩ := Option.map_eq_some_iff.mp done
    exact (unlink_kept kept here known.first called).confined
  | rmdir dir name =>
    obtain ⟨⟨r, _⟩, called, rfl⟩ := Option.map_eq_some_iff.mp done
    exact (rmdir_kept kept here known.first called).confined

/-! ## A cluster that does not land on the data area -/

/-- No entry of the tables uses its top four bits, and nothing else lies outside the data area. -/
def Clean (fs : Fs) (bytes : Bytes) : Prop :=
  ∀ p, p % 4 = 3 → (p < fs.dataOffset * sectorSize ∨ fs.dataEnd * sectorSize ≤ p) →
    (bytes p).toNat < 16

theorem clean_diskWrite (g : Geometry fs) {m m' : Bytes × List ℕ} (clean : Clean fs m.1)
    (write : DiskWrite fs m m') : Clean fs m'.1 := by
  cases write with
  | @entry bytes bytes' log c value valid top stored =>
    rcases stored with rfl | rfl
    · exact clean
    intro p odd outside
    by_cases here : p = fatByte fs c + 3
    · have last : (bytes.put32 (fatByte fs c) value) p = UInt8.ofNat (value / 65536 / 256) := by
        rw [here]
        exact Bytes.put_self _ _ _
      have old := clean (fatByte fs c + 3) (here ▸ odd) (here ▸ outside)
      have word : bytes.le32 (fatByte fs c) < 2 ^ 28 := by
        have low := (bytes (fatByte fs c + 2)).toNat_lt
        have half := bytes.le16_lt (fatByte fs c)
        have top : (bytes (fatByte fs c + 2 + 1)).toNat < 16 := old
        simp only [Bytes.le32, Bytes.le16] at half ⊢
        omega
      dsimp only
      rw [last, UInt8.toNat_ofNat']
      omega
    · have aligned : fatByte fs c % 4 = 0 := by
        unfold fatByte sectorSize
        omega
      have apart := Bytes.put32_outside bytes (fatByte fs c) value p (by omega)
      dsimp only
      rw [apart]
      exact clean p odd outside
  | @mirror bytes bytes' log c valid two stored =>
    rcases stored with rfl | rfl
    · exact clean
    intro p odd outside
    obtain ⟨below, above⟩ := fatSector_lt g valid
    have table := g.table_le
    by_cases inside : (fatSector fs c + fs.boot.fatSize32) * sectorSize ≤ p ∧
        p < (fatSector fs c + fs.boot.fatSize32) * sectorSize + sectorSize
    all_goals dsimp only
    · rw [Bytes.blit_inside _ _ _ _ _ _ inside.1 inside.2]
      refine clean _ ?_ (.inl ?_)
      all_goals
        unfold sectorSize at *
        omega
    · rw [Bytes.blit_outside _ _ _ _ _ _ inside]
      exact clean p odd outside
  | @data bytes bytes' buf log sector pos low high stored =>
    rcases stored with rfl | rfl
    · exact clean
    intro p odd outside
    dsimp only
    rw [Bytes.blit_outside _ _ _ _ _ _ (by unfold sectorSize at *; omega)]
    exact clean p odd outside

theorem Confined.clean (g : Geometry fs) (confined : Confined fs w w')
    (clean : Clean fs (medium fs w).1) : Clean fs (medium fs w').1 := by
  unfold Confined at confined
  generalize medium fs w' = m' at confined ⊢
  induction confined with
  | refl => exact clean
  | tail _ write ih => exact clean_diskWrite g ih write

/-- On a device that never fails and has every sector, all sectors of the loop are stored. -/
theorem writeSectors_everywhere (g : Geometry fs) (working : World.Working (w.devs fs.dev) (2 ^ 32))
    (sector : ℕ) {n i : ℕ} (buf : Bytes) (few : i + n ≤ 2 ^ 32) :
    ∃ w', writeSectors fs sector buf n i w = (true, w') ∧
      (∀ j, i ≤ j → j < i + n → ∀ k < sectorSize,
        (medium fs w').1 ((sector + j) % 2 ^ 32 * sectorSize + k) = buf (j * sectorSize + k)) ∧
      ∀ p, (∀ j, i ≤ j → j < i + n → p / sectorSize ≠ (sector + j) % 2 ^ 32) →
        (medium fs w').1 p = (medium fs w).1 p := by
  induction n generalizing i w with
  | zero => exact ⟨w, rfl, fun j _ _ => by omega, fun _ _ => rfl⟩
  | succ n ih =>
    have here : (sector + i) % 2 ^ 32 < 2 ^ 32 := Nat.mod_lt _ (by decide)
    have step := World.blkdevWrite_working working here buf (i * sectorSize)
    generalize first : World.setDev w fs.dev _ = w₁ at step
    have bytes : (medium fs w₁).1 =
        (medium fs w).1.blit ((sector + i) % 2 ^ 32 * sectorSize) buf (i * sectorSize) sectorSize := by
      rw [← first, medium, World.setDev_devs]
      rfl
    have working₁ : World.Working (w₁.devs fs.dev) (2 ^ 32) := by
      rw [← first, World.setDev_devs]
      exact ⟨working.present, working.writable, working.large, working.reliable⟩
    obtain ⟨w', rest, stored, others⟩ := ih working₁ (i := i + 1) (by omega)
    refine ⟨w', ?_, fun j le lt k hk => ?_, fun p apart => ?_⟩
    · unfold writeSectors
      rw [g.bytesPerSector, step]
      exact rest
    · by_cases same : j = i
      · subst same
        rw [others, bytes, Bytes.blit_inside _ _ _ _ _ _ (by omega) (by omega)]
        · exact congrArg buf (by omega)
        · intro l le lt equal
          rw [Nat.mul_comm, Nat.mul_add_div (by decide), Nat.div_eq_of_lt hk] at equal
          omega
      · exact stored j (by omega) (by omega) k hk
    · rw [others p fun j le lt => apart j (by omega) (by omega), bytes]
      have away := apart i le_rfl (by omega)
      refine Bytes.blit_outside _ _ _ _ _ _ fun inside => away ?_
      unfold sectorSize at *
      omega

/-- A device that never fails, has every sector and holds zeros. -/
def zeroWorld : World where
  devs := fun _ =>
    { totalSectors := 2 ^ 32, present := true, readonly := false, bytes := fun _ => 0, faults := []
      log := [] }
  heap := { next := 1, live := [], misfreed := [], oom := [], junk := fun _ => 0 }

theorem linksKnown_zero : LinksKnown fs Occurs (medium fs zeroWorld).1 := by
  intro c _
  refine .inr (.inl ?_)
  simp [medium, zeroWorld, Bytes.le32, Bytes.le16]

/-- A file whose entry has the first cluster `u`. -/
def fileAt (u : ℕ) : VfsNode where
  addr := 0
  fsDataAddr := 0
  name := []
  inode := u
  mode := sIfreg ||| 0o644
  size := 0
  sb := 0
  parent := none
  fsData := { firstCluster := u, dirCluster := 0, dirOffset := 0 }

def overwrite (fs : Fs) (u : ℕ) : DiskCall := .write (fileAt u) (fun _ => 0xFF) fs.clusterSize 0

theorem overwrite_run (g : Geometry fs) {u : ℕ} (inChain : InChain u) (stray : ¬fs.Valid u)
    (nonzero : clusterToSector fs u ≠ 0) :
    ∃ w', (overwrite fs u).run fs 2 zeroWorld = some w' ∧
      ∀ i < fs.boot.sectorsPerCluster, ∀ k < sectorSize,
        (medium fs w').1 ((clusterToSector fs u + i) % 2 ^ 32 * sectorSize + k) = 0xFF := by
  have pos := g.clusterSize_pos
  have spc := g.sectorsPerCluster_lt
  have size := g.clusterSize
  have noSkip : clusterOffset fs 0 = 0 := by simp [clusterOffset, u32]
  have atStart : byteOffset fs 0 = 0 := by simp [byteOffset, u32]
  have whole : chunk fs 0 (fs.clusterSize - 0) = fs.clusterSize := by
    have small := g.clusterSize_lt
    have size : u32 ((fs.clusterSize : ℤ) - (0 : ℕ)) = fs.clusterSize := by
      unfold u32
      omega
    simp only [chunk, size, Nat.sub_zero, lt_irrefl, if_false]
  have outside := g.unknown stray
  obtain ⟨w₁, allocated⟩ : ∃ w₁, zeroWorld.malloc fs.clusterSize = (some 1, w₁) :=
    ⟨_, World.malloc_of_reliable rfl pos⟩
  have working : World.Working (w₁.devs fs.dev) (2 ^ 32) := by
    have devs := World.malloc_devs zeroWorld fs.clusterSize
    rw [allocated] at devs
    rw [devs]
    exact ⟨rfl, rfl, le_rfl, rfl⟩
  obtain ⟨w₂, written, stored, -⟩ := writeSectors_everywhere g working (clusterToSector fs u)
    (n := fs.boot.sectorsPerCluster) (i := 0) (w₁.heap.junk.blit 0 (fun _ => 0xFF) 0 fs.clusterSize)
    (by omega)
  refine ⟨(w₂.free 1), ?_, fun i hi k hk => ?_⟩
  · have cluster : writeCluster fs u (w₁.heap.junk.blit 0 (fun _ => 0xFF) 0 fs.clusterSize) w₁ =
        (true, w₂) := by
      unfold writeCluster
      simp only [nonzero, if_false]
      exact written
    have next : getNextCluster fs u w₂ = (eocMax, w₂) := by
      unfold getNextCluster
      rw [if_pos outside]
    have grown : growAtEnd fs ⟨u, 0, (fileAt u).fsData⟩ w₁ = (true, ⟨u, 0, (fileAt u).fsData⟩, w₁) := by
      exact if_neg (Nat.not_le.mpr inChain.2)
    have loaded : loadRound fs u 0 (fs.clusterSize - 0) w₁.heap.junk w₁ = (w₁.heap.junk, w₁) := by
      unfold loadRound
      rw [if_neg (by omega)]
    have looped : writeLoop fs 1 (fun _ => 0xFF) fs.clusterSize 2 0 0 ⟨u, 0, (fileAt u).fsData⟩
        w₁.heap.junk w₁ = some (.finished fs.clusterSize (fileAt u).fsData, w₂) := by
      unfold writeLoop
      rw [if_pos pos, grown]
      simp only [loaded, whole, cluster, next, Nat.zero_add]
      unfold writeLoop
      rw [if_neg (lt_irrefl _)]
    simp only [overwrite, DiskCall.run, write, allocated, noSkip, writeSkip, atStart]
    have file : (fileAt u).fsData.firstCluster = u := rfl
    rw [file, looped]
    rfl
  · have index : i * sectorSize + k < fs.clusterSize := by
      rw [size]
      unfold sectorSize at *
      omega
    have free : medium fs (w₂.free 1) = medium fs w₂ := by
      rw [medium, medium, World.free_devs]
    rw [free, stored i (Nat.zero_le i) (by omega) k hk, Bytes.blit_inside _ _ _ _ _ _ (Nat.zero_le _)
      (by omega)]

/-- On a volume of valid geometry, all writes of all calls are confined if and only if each number that
occurs among its links and first clusters and looks like a cluster lands on the data area. -/
theorem writes_confined_iff {fs : Fs} (g : Geometry fs) (Occurs : ℕ → Prop) :
    (∀ (w w' : World) (call : DiskCall) (fuel : ℕ), LinksKnown fs Occurs (medium fs w).1 →
      call.Known fs Occurs → call.run fs fuel w = some w' → Confined fs w w') ↔
    ∀ u, Occurs u → InChain u → Lands fs u := by
  constructor
  · intro confined u occurs inChain
    by_contra strays
    have stray : ¬fs.Valid u := fun valid => strays (lands_of_valid g valid)
    obtain ⟨nonzero, outside⟩ := not_or.mp strays
    obtain ⟨w', done, stored⟩ := overwrite_run g inChain stray nonzero
    have noSlot : (overwrite fs u).inode.dirCluster = 0 := rfl
    have known : (overwrite fs u).Known fs Occurs :=
      ⟨.inl occurs, .inr (.inl (by omega)), by rw [noSlot]; decide⟩
    have zeros : Clean fs (medium fs zeroWorld).1 := fun p _ _ => by simp [medium, zeroWorld]
    have clean := (confined zeroWorld w' _ 2 linksKnown_zero known done).clean g zeros
    -- A sector outside the data area is full of the byte 0xFF now.
    obtain ⟨i, escapes⟩ := not_forall.mp outside
    obtain ⟨hi, escapes⟩ := Classical.not_imp.mp escapes
    have small := clean ((clusterToSector fs u + i) % 2 ^ 32 * sectorSize + 3)
      (by unfold sectorSize; omega) (by unfold sectorSize; omega)
    rw [stored i hi 3 (by decide)] at small
    exact absurd small (by decide)
  · intro harmless w w' call fuel links known done
    exact confined_of_harmless g harmless links known done

/-- A volume whose clusters have 64 sectors: 33 reserved sectors, two tables of 16 sectors and four
clusters. -/
def wideFs : Fs where
  dev := 0
  boot :=
    { bytesPerSector := 512, sectorsPerCluster := 64, reservedSectors := 33, numFats := 2,
      fatSize32 := 16, totalSectors32 := 321, rootCluster := 2 }
  fatOffset := 33
  dataOffset := 65
  rootCluster := 2
  totalClusters := 4
  clusterSize := 32768

theorem geometry_wide : Geometry wideFs := by constructor <;> decide

/-- A file in cluster 3 on a volume that is sound. -/
theorem writes_confined_iff_three : ∃ w', (overwrite wideFs 3).run wideFs 2 zeroWorld = some w' ∧
    Confined wideFs zeroWorld w' := by
  have evaluated : ((overwrite wideFs 3).run wideFs 2 zeroWorld).isSome = true := by decide +kernel
  obtain ⟨w', done⟩ := Option.isSome_iff_exists.mp evaluated
  have known : (overwrite wideFs 3).Known wideFs fun _ => False :=
    ⟨.inr (.inr (.inl (by decide))), .inr (.inl (by decide)), by decide⟩
  exact ⟨w', done, (writes_confined_iff geometry_wide fun _ => False).mpr (fun _ none => none.elim)
    zeroWorld w' _ 2 linksKnown_zero known done⟩

/-- The first cluster 67108865 wraps around to sector 1: a write to the file overwrites the reserved
sectors from 1 on and both tables. -/
theorem reserved_sectors_overwritten : Geometry wideFs ∧ InChain 67108865 ∧
    clusterToSector wideFs 67108865 = 1 ∧
    ((overwrite wideFs 67108865).run wideFs 2 zeroWorld).map (fun w => (w.devs 0).log) =
      some ((List.range 64).map fun i => 64 - i) :=
  ⟨geometry_wide, by decide, by decide, by decide +kernel⟩

end Thuban.Fat32

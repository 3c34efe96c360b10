import Thuban.Fat32.ReadBounds

/-!
# What `fat32_write` stores

On a device that does not fail, the result of a write follows from the clusters that the file has, those
that are free, the count and the offset.
-/

namespace Thuban.Fat32

open Lib

/-- The number of clusters that the file with the chain `l` can have. -/
def supply (fs : Fs) (v : Volume) (l : List ℕ) : ℕ := l.length + (freeClusters fs v).length

/-- The bytes that a write of `count` bytes at `offset` stores: those that land in the clusters which the
file can have. -/
def storedCount (fs : Fs) (v : Volume) (l : List ℕ) (count offset : ℕ) : ℕ :=
  min count (supply fs v l * fs.clusterSize - landing fs offset)

/-- The volume runs full before the cluster of the offset is reached. -/
def Unreached (fs : Fs) (v : Volume) (l : List ℕ) (offset : ℕ) : Prop :=
  supply fs v l < offset / fs.clusterSize % 2 ^ 32

variable {fs : Fs} {w₀ w : World} {v v' : Volume} {node : VfsNode} {t : Slot} {l l' ext : List ℕ}
  {first offset : ℕ}

theorem Grown.supply_eq (g : Geometry fs) (grown : Grown fs v v' first l ext)
    (chain : ChainOf fs v first l) : Fat32.supply fs v' (l ++ ext) = Fat32.supply fs v l :=
  le_antisymm (grown.supply_le g) (grown.supply fun _ => chain.fat_ne_zero)

theorem supply_eq_length (full : ∀ d, fs.Valid d → v.fat d ≠ freeMark) :
    supply fs v l = l.length := by
  have none : freeClusters fs v = [] := by
    rw [freeClusters, List.filter_eq_nil_iff]
    intro d _ free
    rw [decide_eq_true_eq] at free
    exact full d free.1 free.2
  rw [supply, none, List.length_nil, Nat.add_zero]

variable {src : Bytes}

theorem Wrote.eq_storedCount {n count : ℕ} (g : Geometry fs)
    (wrote : Wrote fs v v' first l ext src (landing fs offset) n) (chain : ChainOf fs v first l)
    (le : n ≤ count)
    (reached : n = count ∨ (l ++ ext).length * fs.clusterSize ≤ landing fs offset + n ∧
      ∀ d, fs.Valid d → v'.fat d ≠ freeMark) : n = storedCount fs v l count offset := by
  have amount := wrote.grown.supply_eq g chain
  have inside : (l ++ ext).length ≤ supply fs v l := (Nat.le_add_right _ _).trans amount.le
  have bytes := Nat.mul_le_mul_right fs.clusterSize inside
  have covered := wrote.covered
  rw [storedCount]
  rcases reached with rfl | ⟨short, full⟩
  · omega
  · rw [← amount, supply_eq_length full]
    omega

theorem write_exact (now : Becomes fs w₀ w v) (consistent : Consistent fs v)
    (h : Denotes fs v node (some t)) (regular : node.isDirectory = false)
    (chain : ChainOf fs v node.fsData.firstCluster l) (src : Bytes) (count offset : ℕ) :
    ∃ w' v' l', Becomes fs w₀ w' v' ∧ supply fs v' l' = supply fs v l ∧
      ((Unreached fs v l offset ∧
          Converges (write fs node src count offset · w) (-1, node, w') ∧
          Written fs v v' t l l' src (landing fs offset) 0 (v.size (some t))) ∨
        ¬ Unreached fs v l offset ∧
          Converges (write fs node src count offset · w)
            ((storedCount fs v l count offset : ℤ),
              { node with size := newSize node.size offset (storedCount fs v l count offset) }, w') ∧
          Written fs v v' t l l' src (landing fs offset) (storedCount fs v l count offset)
            (newSize node.size offset (storedCount fs v l count offset) % 2 ^ 32)) := by
  have g := now.ready.geometry
  obtain ⟨valid, slot⟩ := h.valid_slot consistent g
  obtain ⟨r, node', w', v₁, ext, n, ends, wrote, le, result⟩ :=
    write_outcome now chain src count offset valid slot
  have amount := wrote.grown.supply_eq g chain
  obtain ⟨chain', layout⟩ := consistent.exists_layout
  rw [h.first] at wrote chain
  obtain rfl := Owned.unique g (.inl chain) (layout.owns _ h.reach).1
  have regular' : v.isDir (some t) = false := h.kind ▸ regular
  rcases result with ⟨rfl, rfl, arrived, reached, after⟩ | ⟨rfl, rfl, rfl, short, full, after⟩
  · have inside : (chain' (some t) ++ ext).length ≤ supply fs v (chain' (some t)) :=
      (Nat.le_add_right _ _).trans amount.le
    obtain rfl := wrote.eq_storedCount g chain le reached
    rw [h.place t rfl, h.first, ← wrote_first layout h.reach regular' wrote g h.reach] at after
    exact ⟨w', _, _, after, amount, .inr ⟨not_lt.mpr (arrived.trans inside), ends,
      written_mod g layout h.reach regular' wrote _⟩⟩
  · rw [← supply_eq_length full, amount] at short
    exact ⟨w', _, _, after, amount, .inl ⟨short, ends,
      wrote_written g layout h.reach regular' wrote⟩⟩

theorem supply_bytes_lt (g : Geometry fs) (chain : ChainOf fs v first l) :
    supply fs v l * fs.clusterSize < 2 ^ 41 := by
  have sub : l ++ freeClusters fs v ⊆ List.range' 2 fs.totalClusters := fun c hc => by
    have valid : fs.Valid c := by
      rcases List.mem_append.mp hc with mem | free
      · exact Chain.node_of_mem chain mem
      · simp only [freeClusters, List.mem_filter, decide_eq_true_eq] at free
        exact free.2.1
    have low := valid.1
    have high := valid.2
    exact List.mem_range'_1.mpr ⟨low, by omega⟩
  have nodup : (l ++ freeClusters fs v).Nodup := by
    refine (chain.nodup g).append (List.nodup_range.filter _) fun c hc free =>
      chain.fat_ne_zero hc ?_
    simp only [freeClusters, List.mem_filter, decide_eq_true_eq] at free
    exact free.2.2
  have fewer := (List.subperm_of_subset nodup sub).length_le
  rw [List.length_append, List.length_range'] at fewer
  have fits := g.dataFits
  have sectors := g.sectors
  calc supply fs v l * fs.clusterSize
      ≤ fs.totalClusters * fs.clusterSize := Nat.mul_le_mul_right _ fewer
    _ = fs.totalClusters * fs.boot.sectorsPerCluster * sectorSize := by
        rw [g.clusterSize, Nat.mul_comm sectorSize, Nat.mul_assoc]
    _ < 2 ^ 41 := by
        rw [sectorSize]
        omega

theorem exists_offset_eq (g : Geometry fs) (offset : ℕ) :
    ∃ k, offset = k * 2 ^ 41 + landing fs offset := by
  refine ⟨offset / fs.clusterSize / 2 ^ 32 * fs.boot.sectorsPerCluster, ?_⟩
  have index := Nat.div_add_mod (offset / fs.clusterSize) (2 ^ 32)
  have size : 2 ^ 32 * fs.clusterSize = fs.boot.sectorsPerCluster * 2 ^ 41 := by
    rw [g.clusterSize, sectorSize]
    omega
  calc offset
      = offset / fs.clusterSize * fs.clusterSize + offset % fs.clusterSize := by
        rw [Nat.mul_comm]
        exact (Nat.div_add_mod _ _).symm
    _ = (2 ^ 32 * (offset / fs.clusterSize / 2 ^ 32) + offset / fs.clusterSize % 2 ^ 32) *
          fs.clusterSize + offset % fs.clusterSize := by rw [index]
    _ = offset / fs.clusterSize / 2 ^ 32 * (2 ^ 32 * fs.clusterSize) + landing fs offset := by
        rw [landing]
        ring
    _ = _ := by rw [size, Nat.mul_assoc]

theorem storedCount_end_lt (g : Geometry fs) (chain : ChainOf fs v first l)
    (signed : offset < 2 ^ 63) (count : ℕ) :
    offset + storedCount fs v l count offset < 2 ^ 63 := by
  have bytes := supply_bytes_lt g chain
  obtain ⟨k, place⟩ := exists_offset_eq g offset
  rw [storedCount]
  omega

theorem newSize_storedCount (g : Geometry fs) (chain : ChainOf fs v first l)
    (signed : offset < 2 ^ 63) (size count : ℕ) :
    newSize size offset (storedCount fs v l count offset) =
      max size (offset + storedCount fs v l count offset) := by
  have bound := storedCount_end_lt g chain signed count
  exact newSize_eq (by omega)

/-- The file with the clusters `l` now has the clusters `l'`, `n` bytes have gone to `base`, and its other
bytes are what they were. -/
structure Overwritten (fs : Fs) (v v' : Volume) (first : ℕ) (l l' : List ℕ) (src : Bytes)
    (base n : ℕ) : Prop where
  chain : ChainOf fs v' first l'
  longer : l.length ≤ l'.length
  covered : n = 0 ∨ base + n ≤ l'.length * fs.clusterSize
  stored : ∀ p, base ≤ p → p < base + n → contents fs v' l' p = src (p - base)
  kept : ∀ p, p < l.length * fs.clusterSize → ¬ (base ≤ p ∧ p < base + n) →
    contents fs v' l' p = contents fs v l p

theorem Written.overwritten {base n size : ℕ} (written : Written fs v v' t l l' src base n size) :
    Overwritten fs v v' (v'.first fs (some t)) l l' src base n :=
  ⟨written.chain, written.longer, written.covered, written.stored, written.kept⟩

theorem Overwritten.readBack {m n : ℕ} (g : Geometry fs)
    (written : Overwritten fs v v' node.fsData.firstCluster l l' src (landing fs offset) n)
    (now : Becomes fs w₀ w v') (pos : 0 < m) (le : m ≤ n) (covers : offset + m ≤ node.size)
    (signed : node.size < 2 ^ 63) (dst : Bytes) :
    ∃ dst' w', Converges (read fs node dst m offset · w) ((m : ℤ), dst', w') ∧
      ∀ j < m, dst' j = src j := by
  obtain ⟨asked, dst', w', reads, -, fetched, amount⟩ :=
    read_exact now written.chain signed dst m (show offset < node.size by omega)
  have whole : readCount node.size m offset = m := by
    rw [readCount, if_neg (by omega)]
  have covered := written.covered
  obtain rfl : asked = m := by omega
  refine ⟨dst', w', reads, fun j hj => ?_⟩
  rw [fetched.contents g hj (by omega), written.stored _ (Nat.le_add_right _ _) (by omega),
    Nat.add_sub_cancel_left]

/-! ## Large offsets -/

/-- No byte of the file has changed below the offset, and its entry `t` holds the size of the node. -/
def LandsAbove (fs : Fs) (v v' : Volume) (l l' : List ℕ) (offset : ℕ) (t : Slot) (node' : VfsNode) :
    Prop :=
  (∀ p < offset, p < l.length * fs.clusterSize → contents fs v' l' p = contents fs v l p) ∧
    v'.size (some t) = node'.size

/-- The write fails, since the file has no cluster or the volume runs full before the offset is reached;
or the old size and the end of what is stored are 32-bit numbers. -/
def FitsEntry (fs : Fs) (v : Volume) (l : List ℕ) (node : VfsNode) (count offset : ℕ) : Prop :=
  (node.fsData.firstCluster = 0 ∧ 0 < count) ∨
    (node.fsData.firstCluster ≠ 0 ∧ Unreached fs v l offset) ∨
    node.size < 2 ^ 32 ∧ offset + storedCount fs v l count offset < 2 ^ 32

theorem ChainOf.first_ne_zero (chain : ChainOf fs v first l) : first ≠ 0 := by
  have valid : fs.Valid first :=
    Chain.node_of_mem chain (List.mem_of_getElem? (Chain.getElem?_zero chain))
  have := valid.1
  omega

/-- `fat32_write` to a regular file, with any count and any offset that is not negative: it fails or
writes above the offset and stores its size, if `FitsEntry` holds and only then. -/
theorem write_lands_iff (ready : Ready fs w) (consistent : Consistent fs (volume fs w))
    (h : Denotes fs (volume fs w) node (some t)) (regular : node.isDirectory = false)
    (owned : Owned fs (volume fs w) node.fsData.firstCluster l) (signed : offset < 2 ^ 63)
    (src : Bytes) (count : ℕ) :
    ∃ r node' w' l', Converges (fun fuel => write fs node src count offset fuel w) (r, node', w') ∧
      Owned fs (volume fs w') node'.fsData.firstCluster l' ∧
      ((r = -1 ∨ LandsAbove fs (volume fs w) (volume fs w') l l' offset t node') ↔
        FitsEntry fs (volume fs w) l node count offset) := by
  have g := ready.geometry
  rcases owned with chain | ⟨none, rfl⟩
  · obtain ⟨w', v', l', after, -, ⟨unreached, ends, written⟩ | ⟨arrived, ends, written⟩⟩ :=
      write_exact (.refl ready) consistent h regular chain src count offset
    · obtain rfl := after.volume
      refine ⟨-1, node, w', l', ends, ?_, iff_of_true (.inl rfl) (.inr (.inl ⟨?_, unreached⟩))⟩
      · rw [(h.evolve written.evolves nofun).first]
        exact .inl written.chain
      · exact chain.first_ne_zero
    · have size := newSize_storedCount g chain signed node.size count
      generalize amount : storedCount fs (volume fs w) l count offset = n at ends written size
      obtain rfl := after.volume
      rw [size] at ends written
      refine ⟨n, _, w', l', ends, ?_, ?_⟩
      · show Owned fs _ node.fsData.firstCluster l'
        rw [(h.evolve written.evolves nofun).first]
        exact .inl written.chain
      constructor
      · rintro (failed | ⟨-, same⟩)
        · omega
        · rw [written.size] at same
          have low : max node.size (offset + n) % 2 ^ 32 = max node.size (offset + n) := same
          exact .inr (.inr ⟨by omega, by omega⟩)
      · rintro (⟨none, -⟩ | ⟨-, unreached⟩ | ⟨small, low⟩)
        · exact absurd none chain.first_ne_zero
        · exact absurd unreached arrived
        · rw [amount] at low
          rw [landing_eq (by omega)] at written
          refine .inr ⟨fun p below inside => written.kept p inside (by omega), ?_⟩
          rw [written.size]
          show max node.size (offset + n) % 2 ^ 32 = max node.size (offset + n)
          omega
  · obtain ⟨valid, slot⟩ := h.valid_slot consistent g
    obtain ⟨r, node', w', ends, result⟩ :=
      write_empty_spec (.refl ready) none src count offset valid slot
    rcases result with ⟨rfl, rfl, rfl, after⟩ | ⟨some, rfl, rfl, -⟩
    · rw [newSize_eq (by omega), Nat.add_zero, h.place t rfl, h.first] at after
      rw [newSize_eq (by omega), Nat.add_zero] at ends
      refine ⟨0, _, w', [], ends, .inr ⟨none, rfl⟩, ?_⟩
      have stored : (volume fs w').size (some t) = max node.size offset % 2 ^ 32 := by
        rw [after.volume]
        simp only [Volume.size, Volume.setEntry, Function.update_self]
        exact entryFileSize_setEntry ..
      have nothing : storedCount fs (volume fs w) [] 0 offset = 0 := Nat.zero_min _
      constructor
      · rintro (failed | ⟨-, same⟩)
        · omega
        · rw [stored] at same
          have low : max node.size offset % 2 ^ 32 = max node.size offset := same
          exact .inr (.inr ⟨by omega, by omega⟩)
      · rintro (⟨-, some⟩ | ⟨clusters, -⟩ | ⟨small, low⟩)
        · omega
        · exact absurd none clusters
        · refine .inr ⟨fun p _ inside => by simp at inside, ?_⟩
          rw [stored]
          show max node.size offset % 2 ^ 32 = max node.size offset
          omega
    · exact ⟨-1, node', w', [], ends, .inr ⟨none, rfl⟩, iff_of_true (.inl rfl) (.inl ⟨none, some⟩)⟩

/-- The node of the file `a`. -/
def fileNode : VfsNode :=
  nodeOf (rootNode smallFs 0 0 0) 2 0 ((volume smallFs oneFile).data 2) 1 2

theorem denotes_fileNode : Denotes smallFs (volume smallFs oneFile) fileNode (some (2, 0)) := by
  have owns : Owns smallFs (volume smallFs oneFile) none [2] := by
    refine ⟨.inl (.last (by decide) ?_), fun _ => by simp⟩
    show eocMin ≤ (volume smallFs oneFile).fat 2
    decide +kernel
  have found : find smallFs (volume smallFs oneFile) (lookupMatch [0x61]) [2] = some (2, 0) := by
    decide +kernel
  exact denotes_nodeOf (reach_of_find .root rfl owns found) _ 1 2

theorem regular_fileNode : fileNode.isDirectory = false := by decide +kernel

theorem chain_fileNode :
    ChainOf smallFs (volume smallFs oneFile) fileNode.fsData.firstCluster [3] := by
  have first : fileNode.fsData.firstCluster = 3 := by decide +kernel
  rw [first]
  exact .last (by decide) (show eocMin ≤ (volume smallFs oneFile).fat 3 by decide +kernel)

/-- Two clusters are written behind a gap in the file `a`. -/
theorem write_lands_iff_oneFile : ∃ r node' w' l',
    Converges (fun fuel => write smallFs fileNode (fun _ => 7) 600 100 fuel oneFile) (r, node', w') ∧
      (r = -1 ∨ LandsAbove smallFs (volume smallFs oneFile) (volume smallFs w') [3] l' 100 (2, 0)
        node') := by
  obtain ⟨r, node', w', l', ends, -, lands⟩ :=
    @write_lands_iff smallFs oneFile fileNode (2, 0) [3] 100 sound_oneFile.ready
      sound_oneFile.consistent denotes_fileNode regular_fileNode (.inl chain_fileNode) (by decide)
      (fun _ => 7) 600
  have small : fileNode.size < 2 ^ 32 := by decide +kernel
  have few : storedCount smallFs (volume smallFs oneFile) [3] 600 100 ≤ 600 := Nat.min_le_left _ _
  exact ⟨r, node', w', l', ends, lands.mpr (.inr (.inr ⟨small, by omega⟩))⟩

/-- Three bytes are written at offset `2 ^ 41` into a file of five: they go to its beginning, and the
entry gets size 3. -/
theorem write_lands_below : (fiveBytes.bind fun p =>
    (write smallFs p.1 (fun _ => 9) 3 (2 ^ 41) 5 p.2).map fun q =>
      (q.1, q.2.1.size, (volume smallFs q.2.2).size (some (2, 0)),
        (volume smallFs p.2).data 3 0, (volume smallFs q.2.2).data 3 0)) =
    some (3, 2 ^ 41 + 3, 3, 7, 9) := by
  decide +kernel

/-! ## Files that can grow -/

/-- `count` bytes are written to the beginning of the file, and a node that is looked up afresh reads them
back. -/
def ReadBack (fs : Fs) (dir : VfsNode) (name : CString) (node : VfsNode) (src : Bytes) (count : ℕ)
    (w : World) : Prop :=
  ∃ node₁ w₁ fresh w₂ dst w₃,
    Converges (fun fuel => write fs node src count (0 : ℕ) fuel w) (count, node₁, w₁) ∧
    Converges (fun fuel => lookup fs dir name fuel w₁) (some fresh, w₂) ∧
    Converges (fun fuel => read fs fresh (fun _ => 0) count (0 : ℕ) fuel w₂) (count, dst, w₃) ∧
    ∀ j < count, dst j = src j

/-- A file that `fat32_lookup` has returned, and bytes for which the volume has clusters enough: they can
be written and read back when the file has a cluster and their number is a 32-bit number, and only
then. -/
theorem write_grows_iff {d : Owner} {dir : VfsNode} {name : CString} {w₁ : World} (ready : Ready fs w)
    (consistent : Consistent fs (volume fs w)) (isDir : Denotes fs (volume fs w) dir d)
    (looked : Converges (fun fuel => lookup fs dir name fuel w) (some node, w₁))
    (regular : node.isDirectory = false)
    (owned : Owned fs (volume fs w) node.fsData.firstCluster l) (src : Bytes) {count : ℕ}
    (pos : 0 < count) (space : count ≤ supply fs (volume fs w) l * fs.clusterSize) :
    ReadBack fs dir name node src count w₁ ↔ node.fsData.firstCluster ≠ 0 ∧ count < 2 ^ 32 := by
  have g := ready.geometry
  obtain ⟨result, w₁', looked', after₁, -, made⟩ := isDir.lookup (.refl ready) consistent name
  cases looked'.unique looked
  obtain ⟨s, addr, fsDataAddr, reach, rfl, -, -, dirD, found⟩ := made node rfl
  have h := denotes_nodeOf reach dir addr fsDataAddr
  obtain ⟨ld, ownsD⟩ := consistent.owns d isDir.reach
  rcases owned with chain | ⟨none, rfl⟩
  · have size := newSize_storedCount g chain (show 0 < 2 ^ 63 by decide)
      (entryFileSize ((volume fs w).data s.1) s.2) count
    have all : storedCount fs (volume fs w) l count 0 = count := by
      rw [storedCount, landing_eq (by decide)]
      omega
    obtain ⟨w₂, v', l', after₂, -, ⟨unreached, -⟩ | ⟨-, ends, written⟩⟩ :=
      write_exact after₁ consistent h regular chain src count 0
    · rw [Unreached, Nat.zero_div] at unreached
      omega
    · obtain rfl := after₂.volume
      rw [all, Nat.zero_add] at size
      have stored : (nodeOf dir s.1 s.2 ((volume fs w).data s.1) addr fsDataAddr).size =
          entryFileSize ((volume fs w).data s.1) s.2 := rfl
      rw [all, stored, size] at written
      rw [all] at ends
      obtain ⟨addr', fsDataAddr', w₃, looked₃, after₃⟩ :=
        written.lookup (h.kind.symm.trans regular) isDir dirD ownsD (found ld ownsD) after₂
      have word : entryFileSize ((volume fs w).data s.1) s.2 < 2 ^ 32 := Bytes.le32_lt _ _
      have cut : (nodeOf dir s.1 s.2 ((volume fs w₂).data s.1) addr' fsDataAddr').size =
          max (entryFileSize ((volume fs w).data s.1) s.2) count % 2 ^ 32 := written.size
      have first : (nodeOf dir s.1 s.2 ((volume fs w₂).data s.1) addr' fsDataAddr').fsData.firstCluster =
          (volume fs w₂).first fs (some s) := rfl
      generalize nodeOf dir s.1 s.2 ((volume fs w₂).data s.1) addr' fsDataAddr' = fresh
        at looked₃ cut first
      have bytes := supply_bytes_lt g chain
      constructor
      · rintro ⟨node₁, w₂', fresh', w₃', dst, w₄, wrote, again, ⟨fuel, reads⟩, -⟩
        cases wrote.unique ends
        cases again.unique looked₃
        have clamps : Clamps fresh.size count 0 := .inr (.inl (by omega))
        have stops := stopsAtEnd_of_clamps (by omega) clamps (reads fuel le_rfl)
        have bound := stops.1
        exact ⟨chain.first_ne_zero, by omega⟩
      · rintro ⟨-, small⟩
        have stored := written.overwritten
        rw [← first] at stored
        obtain ⟨dst, w₄, reads, data⟩ := stored.readBack g after₃ pos le_rfl
          (show 0 + count ≤ fresh.size by omega) (by omega) fun _ => 0
        exact ⟨_, w₂, fresh, w₃, dst, w₄, ends, looked₃, reads, data⟩
  · obtain ⟨valid, slot⟩ := h.valid_slot consistent g
    obtain ⟨r, node', w', ends, ⟨rfl, -⟩ | ⟨-, rfl, -⟩⟩ :=
      write_empty_spec after₁ none src count 0 valid slot
    · exact absurd pos (lt_irrefl 0)
    · refine iff_of_false ?_ fun ⟨clusters, _⟩ => clusters none
      rintro ⟨node₁, w₂', fresh, w₃, dst, w₄, wrote, -⟩
      have := congrArg Prod.fst (wrote.unique ends)
      omega

/-- The file `a` takes 600 bytes. -/
theorem write_grows_iff_oneFile : ∃ node w₁,
    Converges (fun fuel => lookup smallFs (rootNode smallFs 0 0 0) [0x61] fuel oneFile)
      (some node, w₁) ∧
    ReadBack smallFs (rootNode smallFs 0 0 0) [0x61] node (fun _ => 7) 600 w₁ := by
  have evaluated : (lookup smallFs (rootNode smallFs 0 0 0) [0x61] 5 oneFile).map (fun r =>
      r.1.map fun node => (node.isDirectory, node.fsData.firstCluster)) =
      some (some (false, 3)) := by
    decide +kernel
  obtain ⟨⟨result, w₁⟩, looked, facts⟩ := Option.map_eq_some_iff.mp evaluated
  obtain ⟨node, rfl, facts⟩ := Option.map_eq_some_iff.mp facts
  obtain ⟨regular, first⟩ : node.isDirectory = false ∧ node.fsData.firstCluster = 3 := by
    simpa using facts
  have looked := (stable_lookup smallFs _ _ _).converges looked
  have chain : ChainOf smallFs (volume smallFs oneFile) node.fsData.firstCluster [3] := by
    rw [first]
    exact .last (by decide) (show eocMin ≤ (volume smallFs oneFile).fat 3 by decide +kernel)
  have space : supply smallFs (volume smallFs oneFile) [3] = 13 := by decide +kernel
  refine ⟨node, w₁, looked, (write_grows_iff sound_oneFile.ready sound_oneFile.consistent
    (denotes_root smallFs _ 0 0 0) looked regular (.inl chain) (fun _ => 7)
    (show 0 < 600 by decide) ?_).mpr ⟨?_, by decide⟩⟩
  · rw [space]
    decide
  · rw [first]
    decide

/-- The blank volume with an entry for an empty file `a` that has no first cluster. -/
def emptyEntry : World :=
  blankWorld.setDev 0
    { blankWorld.devs 0 with
      bytes := (((blankWorld.devs 0).bytes.fill 1024 11 0x20).put 1024 0x41) }

/-- Thirteen clusters are free, and one byte cannot be written to the file. -/
theorem empty_file_stays_empty :
    ((lookup smallFs (rootNode smallFs 0 0 0) [0x61] 5 emptyEntry).bind fun r =>
      r.1.bind fun node => (write smallFs node (fun _ => 7) 1 0 5 r.2).map fun q =>
        (node.isDirectory, node.fsData.firstCluster,
          (freeClusters smallFs (volume smallFs emptyEntry)).length, q.1)) =
      some (false, 0, 13, -1) := by
  decide +kernel

end Thuban.Fat32

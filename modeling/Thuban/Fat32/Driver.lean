import Thuban.Fat32.Clusters
import Thuban.Fat32.Names

/-!
# The FAT32 driver

Directories and files of `fs/fat32/fat32.c`.  A loop whose length depends on the disk takes fuel and
answers `none` when it runs out; everything else is total.  Every function takes the state of the
world and returns the one it leaves; an integer result is the source's.

A directory is scanned by one loop in `fat32_lookup`, `fat32_rmdir` (twice) and `fat32_unlink`; the
four differ in which slots they look for.  Of a node, the fields that are the same for every node
(`uid`, `gid`, `nlink`, `dev`, `flags`, `refcount`) and the time stamps are left out.
-/

namespace Thuban

open Lib (Bytes)

/-- `fat32_inode_t`. -/
structure Fat32.Inode where
  firstCluster : ℕ
  dirCluster : ℕ
  dirOffset : ℕ
  deriving DecidableEq, Repr

/-- `vfs_node_t`, with its own address and that of its `fs_data`.  Nodes are made by `fat32_lookup`
and `fat32_mount` only, which set `fops`, `iops` and `fs_data`, so these are never NULL; `sb` is the
superblock it belongs to. -/
structure VfsNode where
  addr : ℕ
  fsDataAddr : ℕ
  name : CString
  inode : ℕ
  mode : ℕ
  size : ℕ
  sb : ℕ
  parent : Option ℕ
  fsData : Fat32.Inode
  deriving DecidableEq, Repr

def sIfmt : ℕ := 0xF000

def sIfdir : ℕ := 0x4000

def sIfreg : ℕ := 0x8000

/-- `vfs_is_directory`. -/
def VfsNode.isDirectory (node : VfsNode) : Bool := node.mode &&& sIfmt = sIfdir

namespace Fat32

/-! ## Directory entries -/

/-- `sizeof(fat32_dir_entry_t)`. -/
def entrySize : ℕ := 32

def entryMark (buf : Bytes) (i : ℕ) : UInt8 := buf (entrySize * i)

def entryName (buf : Bytes) (i : ℕ) : List UInt8 :=
  (List.range 11).map fun k => buf (entrySize * i + k)

def entryAttr (buf : Bytes) (i : ℕ) : UInt8 := buf (entrySize * i + 11)

/-- The two halves of the first cluster. -/
def entryFirstCluster (buf : Bytes) (i : ℕ) : ℕ :=
  buf.le16 (entrySize * i + 20) * 65536 + buf.le16 (entrySize * i + 26)

def entryFileSize (buf : Bytes) (i : ℕ) : ℕ := buf.le32 (entrySize * i + 28)

def isDeleted (buf : Bytes) (i : ℕ) : Bool := entryMark buf i = 0xE5

def isLfn (buf : Bytes) (i : ℕ) : Bool := entryAttr buf i = 0x0F

def isVolumeId (buf : Bytes) (i : ℕ) : Bool := entryAttr buf i &&& 0x08 ≠ 0

def isDirEntry (buf : Bytes) (i : ℕ) : Bool := entryAttr buf i &&& 0x10 ≠ 0

/-- `fat32_encode_time` of a time that is not negative. -/
def encodeTime (t : ℕ) : ℕ :=
  (t % 60 / 2 ||| (t / 60 % 60) <<< 5 ||| (t / 3600 % 24) <<< 11) % 2 ^ 16

/-- `fat32_encode_date` of a time that is not negative. -/
def encodeDate (t : ℕ) : ℕ :=
  (t / 86400 % 32 ||| (t / 86400 / 31 % 12 + 1) <<< 5 ||| (t / 86400 / 365 + 1980) <<< 9) % 2 ^ 16

/-! ## Scanning a directory -/

/-- How the pass over the slots of one cluster ends: at a slot looked for, at the end mark, or behind
the last slot. -/
inductive Scan
  | hit (i : ℕ)
  | ended
  | onward
  deriving DecidableEq, Repr

/-- The `for` loop over the slots with `n` slots to go. -/
def scanSlots (wanted : Bytes → ℕ → Bool) (buf : Bytes) : (n i : ℕ) → Scan
  | 0, _ => .onward
  | n + 1, i =>
      if entryMark buf i = 0 then .ended
      else if wanted buf i then .hit i
      else scanSlots wanted buf n (i + 1)

/-- How the walk over the clusters of a directory ends: at a slot looked for, with the buffer that
holds its cluster; at the end of the directory; or with a failed read. -/
inductive Walk
  | hit (cluster i : ℕ) (buf : Bytes)
  | ended
  | failed

/-- The `while` loop over the clusters of a directory. -/
def walk (fs : Fs) (wanted : Bytes → ℕ → Bool) :
    (fuel cluster : ℕ) → Bytes → World → Option (Walk × World)
  | 0, _, _, _ => none
  | fuel + 1, cluster, buf, w =>
      if InChain cluster then
        match readCluster fs cluster buf w with
        | (none, w) => some (.failed, w)
        | (some buf, w) =>
            match scanSlots wanted buf (fs.clusterSize / entrySize) 0 with
            | .hit i => some (.hit cluster i buf, w)
            | .ended => some (.ended, w)
            | .onward =>
                match getNextCluster fs cluster w with
                | (next, w) => walk fs wanted fuel next buf w
      else some (.ended, w)

/-- The entries `fat32_lookup` and the emptiness check of `fat32_rmdir` see. -/
def visible (buf : Bytes) (i : ℕ) : Bool := !isDeleted buf i && !isLfn buf i && !isVolumeId buf i

def lookupMatch (name : CString) (buf : Bytes) (i : ℕ) : Bool :=
  visible buf i && name83ToName (entryName buf i) = name

/-- What `fat32_rmdir` erases: it does not skip volume labels, nor files. -/
def rmdirMatch (name : CString) (buf : Bytes) (i : ℕ) : Bool :=
  !isDeleted buf i && !isLfn buf i && name83ToName (entryName buf i) = name

/-- What `fat32_unlink` erases: it does not skip volume labels. -/
def unlinkMatch (name : CString) (buf : Bytes) (i : ℕ) : Bool :=
  !isDeleted buf i && !isLfn buf i && !isDirEntry buf i && name83ToName (entryName buf i) = name

/-- `sizeof(vfs_node_t)`. -/
def vfsNodeSize : ℕ := 368

/-- `sizeof(fat32_inode_t)`. -/
def inodeSize : ℕ := 12

/-- The node `fat32_lookup` builds for slot `i` of `cluster`. -/
def nodeOf (dir : VfsNode) (cluster i : ℕ) (buf : Bytes) (addr fsDataAddr : ℕ) : VfsNode where
  addr := addr
  fsDataAddr := fsDataAddr
  name := (name83ToName (entryName buf i)).take 255
  inode := entryFirstCluster buf i
  mode := if isDirEntry buf i then sIfdir ||| 0o755 else sIfreg ||| 0o644
  size := entryFileSize buf i
  sb := dir.sb
  parent := some dir.addr
  fsData := { firstCluster := entryFirstCluster buf i, dirCluster := cluster, dirOffset := i }

/-- The part of `fat32_lookup` behind a match; `tmp` is the cluster buffer. -/
def lookupHit (dir : VfsNode) (tmp cluster i : ℕ) (buf : Bytes) (w : World) :
    Option VfsNode × World :=
  match w.malloc vfsNodeSize with
  | (none, w) => (none, w.free tmp)
  | (some addr, w) =>
      match w.malloc inodeSize with
      | (none, w) => (none, (w.free addr).free tmp)
      | (some fsDataAddr, w) => (some (nodeOf dir cluster i buf addr fsDataAddr), w.free tmp)

/-- `fat32_lookup`. -/
def lookup (fs : Fs) (dir : VfsNode) (name : CString) (fuel : ℕ) (w : World) :
    Option (Option VfsNode × World) :=
  if !dir.isDirectory then some (none, w)
  else
    match w.malloc fs.clusterSize with
    | (none, w) => some (none, w)
    | (some tmp, w) =>
        (walk fs (lookupMatch name) fuel dir.fsData.firstCluster w.heap.junk w).map fun
          | (.hit cluster i buf, w) => lookupHit dir tmp cluster i buf w
          | (_, w) => (none, w.free tmp)

/-- The node of the root directory that `fat32_mount` makes. -/
def rootNode (fs : Fs) (addr fsDataAddr sb : ℕ) : VfsNode where
  addr := addr
  fsDataAddr := fsDataAddr
  name := [0x2F]
  inode := fs.rootCluster
  mode := sIfdir ||| 0o755
  size := 0
  sb := sb
  parent := none
  fsData := { firstCluster := fs.rootCluster, dirCluster := 0, dirOffset := 0 }

/-- Free a node together with its `fs_data`. -/
def freeNode (node : VfsNode) (w : World) : World := (w.free node.fsDataAddr).free node.addr

/-! ## Creating -/

/-- The first slot that is deleted or behind the end, with `n` slots to go. -/
def freeSlot (buf : Bytes) : (n i : ℕ) → Option ℕ
  | 0, _ => none
  | n + 1, i =>
      if entryMark buf i = 0 ∨ isDeleted buf i then some i else freeSlot buf n (i + 1)

/-- The entry `fat32_create` stores in slot `i`; its time is 0. -/
def fillEntry (buf : Bytes) (i : ℕ) (name : CString) (mode cluster : ℕ) : Bytes :=
  let e := entrySize * i
  let buf := buf.fill e entrySize 0
  let buf := buf.blit e (fun k => (nameTo83 name).getD k 0) 0 11
  let buf := buf.put (e + 11) (if mode &&& sIfdir ≠ 0 then 0x10 else 0)
  let buf := buf.put16 (e + 20) (cluster / 65536)
  let buf := buf.put16 (e + 26) cluster
  let buf := buf.put32 (e + 28) 0
  let buf := buf.put16 (e + 14) (encodeTime 0)
  let buf := buf.put16 (e + 16) (encodeDate 0)
  let buf := buf.put16 (e + 18) (encodeDate 0)
  let buf := buf.put16 (e + 22) (encodeTime 0)
  buf.put16 (e + 24) (encodeDate 0)

/-- The `while` loop of `fat32_create`; `new` is the cluster of the new entry, `tmp` the cluster
buffer.  A full directory grows by a zeroed cluster. -/
def createLoop (fs : Fs) (name : CString) (mode new tmp : ℕ) :
    (fuel cluster : ℕ) → Bytes → World → Option (ℤ × World)
  | 0, _, _, _ => none
  | fuel + 1, cluster, buf, w =>
      if InChain cluster then
        match readCluster fs cluster buf w with
        | (none, w) => some (-1, freeCluster fs new (w.free tmp))
        | (some buf, w) =>
            match freeSlot buf (fs.clusterSize / entrySize) 0 with
            | some i =>
                match writeCluster fs cluster (fillEntry buf i name mode new) w with
                | (false, w) => some (-1, freeCluster fs new (w.free tmp))
                | (true, w) => some (0, w.free tmp)
            | none =>
                match getNextCluster fs cluster w with
                | (next, w) =>
                    if eocMin ≤ next then
                      match allocCluster fs w with
                      | (newDir, w) =>
                          if newDir = 0 then some (-1, freeCluster fs new (w.free tmp))
                          else
                            let w := (setFatEntry fs cluster newDir w).2
                            let buf := buf.fill 0 fs.clusterSize 0
                            let w := (writeCluster fs newDir buf w).2
                            createLoop fs name mode new tmp fuel newDir buf w
                    else createLoop fs name mode new tmp fuel next buf w
      else some (-1, freeCluster fs new (w.free tmp))

/-- The part of `fat32_create` behind the search for an existing entry. -/
def createNew (fs : Fs) (dir : VfsNode) (name : CString) (mode : ℕ) (fuel : ℕ) (w : World) :
    Option (ℤ × World) :=
  match allocCluster fs w with
  | (new, w) =>
      if new = 0 then some (-1, w)
      else
        match w.malloc fs.clusterSize with
        | (none, w) => some (-1, freeCluster fs new w)
        | (some zeroBuf, w) =>
            let w := (writeCluster fs new (w.heap.junk.fill 0 fs.clusterSize 0) w).2
            let w := w.free zeroBuf
            match w.malloc fs.clusterSize with
            | (none, w) => some (-1, freeCluster fs new w)
            | (some tmp, w) =>
                createLoop fs name mode new tmp fuel dir.fsData.firstCluster w.heap.junk w

/-- `fat32_create`. -/
def create (fs : Fs) (dir : VfsNode) (name : CString) (mode : ℕ) (fuel : ℕ) (w : World) :
    Option (ℤ × World) :=
  if !dir.isDirectory then some (-1, w)
  else if !isValidName name then some (-1, w)
  else
    (lookup fs dir name fuel w).bind fun
      | (some existing, w) => some (-1, freeNode existing w)
      | (none, w) => createNew fs dir name mode fuel w

/-- `fat32_mkdir`. -/
def mkdir (fs : Fs) (dir : VfsNode) (name : CString) (mode : ℕ) (fuel : ℕ) (w : World) :
    Option (ℤ × World) :=
  create fs dir name (mode ||| sIfdir) fuel w

/-! ## Removing -/

/-- The last part of `fat32_rmdir`: mark the entry deleted. -/
def rmdirEntry (fs : Fs) (dir : VfsNode) (name : CString) (fuel : ℕ) (w : World) :
    Option (ℤ × World) :=
  match w.malloc fs.clusterSize with
  | (none, w) => some (-1, w)
  | (some tmp, w) =>
      (walk fs (rmdirMatch name) fuel dir.fsData.firstCluster w.heap.junk w).map fun
        | (.hit cluster i buf, w) =>
            (0, (writeCluster fs cluster (buf.put (entrySize * i) 0xE5) w).2.free tmp)
        | (_, w) => (-1, w.free tmp)

/-- The part of `fat32_rmdir` behind the lookup.  A failed read ends the check for entries as if the
directory were empty. -/
def rmdirTarget (fs : Fs) (dir target : VfsNode) (name : CString) (fuel : ℕ) (w : World) :
    Option (ℤ × World) :=
  match w.malloc fs.clusterSize with
  | (none, w) => some (-1, freeNode target w)
  | (some checkBuf, w) =>
      (walk fs visible fuel target.fsData.firstCluster w.heap.junk w).bind fun
        | (.hit _ _ _, w) => some (-1, freeNode target (w.free checkBuf))
        | (_, w) =>
            (freeChain fs fuel target.fsData.firstCluster (w.free checkBuf)).bind fun w =>
              rmdirEntry fs dir name fuel (freeNode target w)

/-- `fat32_rmdir`. -/
def rmdir (fs : Fs) (dir : VfsNode) (name : CString) (fuel : ℕ) (w : World) :
    Option (ℤ × World) :=
  if !dir.isDirectory then some (-1, w)
  else
    (lookup fs dir name fuel w).bind fun
      | (none, w) => some (-1, w)
      | (some target, w) =>
          if !target.isDirectory then some (-1, freeNode target w)
          else rmdirTarget fs dir target name fuel w

/-- The part of `fat32_unlink` behind a match. -/
def unlinkHit (fs : Fs) (tmp cluster i : ℕ) (buf : Bytes) (fuel : ℕ) (w : World) :
    Option (ℤ × World) :=
  let first := entryFirstCluster buf i
  (if 2 ≤ first then freeChain fs fuel first w else some w).map fun w =>
    match writeCluster fs cluster (buf.put (entrySize * i) 0xE5) w with
    | (false, w) => (-1, w.free tmp)
    | (true, w) => (0, w.free tmp)

/-- `fat32_unlink`. -/
def unlink (fs : Fs) (dir : VfsNode) (name : CString) (fuel : ℕ) (w : World) :
    Option (ℤ × World) :=
  if !dir.isDirectory then some (-1, w)
  else
    match w.malloc fs.clusterSize with
    | (none, w) => some (-1, w)
    | (some tmp, w) =>
        (walk fs (unlinkMatch name) fuel dir.fsData.firstCluster w.heap.junk w).bind fun
          | (.hit cluster i buf, w) => unlinkHit fs tmp cluster i buf fuel w
          | (_, w) => some (-1, w.free tmp)

/-! ## Searching

`fat32_lookup`, `fat32_unlink` and two parts of `fat32_rmdir` search a directory in the same way. -/

/-- A walk over a directory with a buffer of its own, and what follows if there is no memory for it, at
the slot looked for, and without such a slot. -/
def searching {α : Type*} (fs : Fs) (wanted : Bytes → ℕ → Bool) (first : ℕ)
    (denied : World → α × World)
    (hit : (tmp cluster i : ℕ) → Bytes → (fuel : ℕ) → World → Option (α × World))
    (missed : (tmp fuel : ℕ) → World → Option (α × World)) (fuel : ℕ) (w : World) :
    Option (α × World) :=
  match w.malloc fs.clusterSize with
  | (none, w) => some (denied w)
  | (some tmp, w) =>
      (walk fs wanted fuel first w.heap.junk w).bind fun
        | (.hit cluster i buf, w) => hit tmp cluster i buf fuel w
        | (_, w) => missed tmp fuel w

section Searching

variable {fs : Fs} {dir target : VfsNode} {name : CString}

theorem lookup_eq (isDir : dir.isDirectory = true) :
    lookup fs dir name = searching fs (lookupMatch name) dir.fsData.firstCluster (fun w => (none, w))
      (fun tmp cluster i buf _ w => some (lookupHit dir tmp cluster i buf w))
      fun tmp _ w => some (none, w.free tmp) := by
  funext fuel w
  rw [lookup, searching, isDir, if_neg (by decide)]
  rcases w.malloc fs.clusterSize with ⟨_ | tmp, w⟩
  · rfl
  · refine Option.map_eq_bind.trans (congrArg _ (funext fun found => ?_))
    rcases found with ⟨_ | _ | _, w⟩ <;> rfl

theorem unlink_eq (isDir : dir.isDirectory = true) :
    unlink fs dir name = searching fs (unlinkMatch name) dir.fsData.firstCluster (fun w => (-1, w))
      (unlinkHit fs) fun tmp _ w => some (-1, w.free tmp) := by
  funext fuel w
  rw [unlink, isDir, if_neg (by decide)]
  rfl

theorem rmdirEntry_eq :
    rmdirEntry fs dir name = searching fs (rmdirMatch name) dir.fsData.firstCluster (fun w => (-1, w))
      (fun tmp cluster i buf _ w =>
        some (0, (writeCluster fs cluster (buf.put (entrySize * i) 0xE5) w).2.free tmp))
      fun tmp _ w => some (-1, w.free tmp) := by
  funext fuel w
  rw [rmdirEntry, searching]
  rcases w.malloc fs.clusterSize with ⟨_ | tmp, w⟩
  · rfl
  · refine Option.map_eq_bind.trans (congrArg _ (funext fun found => ?_))
    rcases found with ⟨_ | _ | _, w⟩ <;> rfl

/-- The part of `fat32_rmdir` behind the check for entries. -/
def rmdirUnchecked (fs : Fs) (dir target : VfsNode) (name : CString) (fuel : ℕ) (w : World) :
    Option (ℤ × World) :=
  (freeChain fs fuel target.fsData.firstCluster w).bind fun w =>
    rmdirEntry fs dir name fuel (freeNode target w)

theorem rmdirTarget_eq (fs : Fs) (dir target : VfsNode) (name : CString) :
    rmdirTarget fs dir target name = searching fs visible target.fsData.firstCluster
      (fun w => (-1, freeNode target w))
      (fun tmp _ _ _ _ w => some (-1, freeNode target (w.free tmp)))
      fun tmp fuel w => rmdirUnchecked fs dir target name fuel (w.free tmp) := rfl

end Searching

/-! ## Files

Offsets are 64-bit signed, sizes and counts 64-bit unsigned, cluster numbers and offsets inside a
cluster 32-bit unsigned. -/

def u32 (x : ℤ) : ℕ := (x % 2 ^ 32).toNat

def u64 (x : ℤ) : ℕ := (x % 2 ^ 64).toNat

/-- The conversion of a 64-bit number to `off_t`. -/
def toOff (n : ℕ) : ℤ := (n : ℤ).bmod (2 ^ 64)

/-- `offset / fs->cluster_size` as a 32-bit number. -/
def clusterOffset (fs : Fs) (offset : ℤ) : ℕ := u32 (offset.tdiv fs.clusterSize)

/-- `offset % fs->cluster_size` as a 32-bit number. -/
def byteOffset (fs : Fs) (offset : ℤ) : ℕ := u32 (offset.tmod fs.clusterSize)

/-- The bytes a loop of `fat32_read` or `fat32_write` moves in one round. -/
def chunk (fs : Fs) (start left : ℕ) : ℕ :=
  let n := u32 (fs.clusterSize - start)
  if left < n then left else n

/-- The first loop of `fat32_read`: go `n` clusters down the chain. -/
def readSkip (fs : Fs) : (n cluster : ℕ) → World → ℕ × World
  | 0, cluster, w => (cluster, w)
  | n + 1, cluster, w =>
      if InChain cluster then
        match getNextCluster fs cluster w with
        | (next, w) => readSkip fs n next w
      else (cluster, w)

/-- The second loop of `fat32_read`: `got` bytes are read, `start` is the offset in the cluster. -/
def readLoop (fs : Fs) (count : ℕ) :
    (fuel got start cluster : ℕ) → (buf dst : Bytes) → World → Option (ℤ × Bytes × World)
  | 0, _, _, _, _, _, _ => none
  | fuel + 1, got, start, cluster, buf, dst, w =>
      if got < count ∧ InChain cluster then
        match readCluster fs cluster buf w with
        | (none, w) => some (if 0 < got then got else -1, dst, w)
        | (some buf, w) =>
            let n := chunk fs start (count - got)
            let dst := dst.blit got buf start n
            match getNextCluster fs cluster w with
            | (next, w) => readLoop fs count fuel (got + n) 0 next buf dst w
      else some (got, dst, w)

/-- `fat32_read` into `dst`: the result, the caller's buffer and the world. -/
def read (fs : Fs) (node : VfsNode) (dst : Bytes) (count : ℕ) (offset : ℤ) (fuel : ℕ)
    (w : World) : Option (ℤ × Bytes × World) :=
  if toOff node.size ≤ offset then some (0, dst, w)
  else
    let count := if node.size < u64 (offset + count) then u64 (node.size - offset) else count
    match w.malloc fs.clusterSize with
    | (none, w) => some (-1, dst, w)
    | (some tmp, w) =>
        match readSkip fs (clusterOffset fs offset) node.fsData.firstCluster w with
        | (cluster, w) =>
            (readLoop fs count fuel 0 (byteOffset fs offset) cluster w.heap.junk dst w).map fun
              | (n, dst, w) => (n, dst, w.free tmp)

/-- `fat32_update_dir_entry`. -/
def updateDirEntry (fs : Fs) (node : VfsNode) (w : World) : Bool × World :=
  let inode := node.fsData
  if inode.dirCluster < 2 then (false, w)
  else
    match w.malloc fs.clusterSize with
    | (none, w) => (false, w)
    | (some tmp, w) =>
        match readCluster fs inode.dirCluster w.heap.junk w with
        | (none, w) => (false, w.free tmp)
        | (some buf, w) =>
            let e := entrySize * inode.dirOffset
            let buf := buf.put32 (e + 28) node.size
            let buf := buf.put16 (e + 20) (inode.firstCluster / 65536)
            let buf := buf.put16 (e + 26) inode.firstCluster
            match writeCluster fs inode.dirCluster buf w with
            | (ok, w) => (ok, w.free tmp)

/-- The position of `fat32_write` in the chain: `prev` is 0 at its head. -/
structure Cursor where
  cluster : ℕ
  prev : ℕ
  inode : Inode

/-- The head of both loops of `fat32_write`: behind the end of the chain a cluster is allocated and
linked.  `false` when the volume is full. -/
def growAtEnd (fs : Fs) (cur : Cursor) (w : World) : Bool × Cursor × World :=
  if eocMin ≤ cur.cluster then
    match allocCluster fs w with
    | (new, w) =>
        if new = 0 then (false, cur, w)
        else if cur.prev ≠ 0 then
          (true, { cur with cluster := new }, (setFatEntry fs cur.prev new w).2)
        else
          (true, { cur with cluster := new, inode := { cur.inode with firstCluster := new } }, w)
  else (true, cur, w)

/-- The first loop of `fat32_write` with `n` clusters to go; `false` when the volume is full. -/
def writeSkip (fs : Fs) : (n : ℕ) → Cursor → World → Bool × Cursor × World
  | 0, cur, w => (true, cur, w)
  | n + 1, cur, w =>
      match growAtEnd fs cur w with
      | (false, cur, w) => (false, cur, w)
      | (true, cur, w) =>
          if InChain cur.cluster then
            match getNextCluster fs cur.cluster w with
            | (next, w) => writeSkip fs n { cur with cluster := next, prev := cur.cluster } w
          else writeSkip fs n { cur with prev := cur.cluster } w

/-- How the second loop of `fat32_write` ends: with all bytes written or the volume full, or with a
failed write of a cluster. -/
inductive WriteEnd
  | finished (written : ℕ) (inode : Inode)
  | aborted (written : ℕ) (inode : Inode)

/-- The buffer of one round of the second loop of `fat32_write`: a cluster that is overwritten as a
whole is not read, and one that cannot be read counts as zeroed. -/
def loadRound (fs : Fs) (cluster start left : ℕ) (buf : Bytes) (w : World) : Bytes × World :=
  if start ≠ 0 ∨ left < fs.clusterSize then
    match readCluster fs cluster buf w with
    | (none, w) => (buf.fill 0 fs.clusterSize 0, w)
    | (some buf, w) => (buf, w)
  else (buf, w)

/-- The second loop of `fat32_write`: `written` bytes are written, `start` is the offset in the
cluster.  On a full volume the buffer `tmp` is freed here, and once more by the caller. -/
def writeLoop (fs : Fs) (tmp : ℕ) (src : Bytes) (count : ℕ) :
    (fuel written start : ℕ) → Cursor → Bytes → World → Option (WriteEnd × World)
  | 0, _, _, _, _, _ => none
  | fuel + 1, written, start, cur, buf, w =>
      if written < count then
        match growAtEnd fs cur w with
        | (false, cur, w) => some (.finished written cur.inode, w.free tmp)
        | (true, cur, w) =>
            match loadRound fs cur.cluster start (count - written) buf w with
            | (buf, w) =>
                let n := chunk fs start (count - written)
                let buf := buf.blit start src written n
                match writeCluster fs cur.cluster buf w with
                | (false, w) => some (.aborted written cur.inode, w)
                | (true, w) =>
                    match getNextCluster fs cur.cluster w with
                    | (next, w) =>
                        writeLoop fs tmp src count fuel (written + n) 0
                          { cur with cluster := next, prev := cur.cluster } buf w
      else some (.finished written cur.inode, w)

/-- The end of `fat32_write`: the size grows and goes to the directory entry. -/
def finishWrite (fs : Fs) (node : VfsNode) (inode : Inode) (written : ℕ) (offset : ℤ) (tmp : ℕ)
    (w : World) : ℤ × VfsNode × World :=
  let reached := u64 (offset + written)
  let node := { node with
    fsData := inode
    size := if node.size < reached then reached else node.size }
  (written, node, (updateDirEntry fs node w).2.free tmp)

/-- `fat32_write` from `src`: the result, the node and the world. -/
def write (fs : Fs) (node : VfsNode) (src : Bytes) (count : ℕ) (offset : ℤ) (fuel : ℕ)
    (w : World) : Option (ℤ × VfsNode × World) :=
  match w.malloc fs.clusterSize with
  | (none, w) => some (-1, node, w)
  | (some tmp, w) =>
      let cur := { cluster := node.fsData.firstCluster, prev := 0, inode := node.fsData }
      match writeSkip fs (clusterOffset fs offset) cur w with
      | (false, cur, w) => some (-1, { node with fsData := cur.inode }, w.free tmp)
      | (true, cur, w) =>
          (writeLoop fs tmp src count fuel 0 (byteOffset fs offset) cur w.heap.junk w).map fun
            | (.aborted written inode, w) =>
                (if 0 < written then written else -1, { node with fsData := inode }, w.free tmp)
            | (.finished written inode, w) => finishWrite fs node inode written offset tmp w

end Fat32

end Thuban

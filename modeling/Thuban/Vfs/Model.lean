import Thuban.Fat32.Driver

/-!
# The virtual file system

Paths, descriptors and permissions of `fs/vfs.c` over the FAT32 driver, the only file system that is
registered.  The source goes on reading nodes through `parent` after they were freed: what it sees is
arbitrary then, since other objects may have been placed in their memory (`peek`).  Functions that call
the driver take fuel.

A path argument is never NULL here, `fops` and `iops` are the driver's, and `fat32_open` and
`fat32_close` do nothing.  The offset behind a transfer is not wrapped.  Locks are left out, and so
are `vfs_mount` and `vfs_unmount`: the mounts are part of the state.
-/

namespace Thuban

open Lib (Bytes)
open Fat32 (Fs)

/-- `vfs_file_t`, with its own address. -/
structure VfsFile where
  addr : ℕ
  node : ℕ
  offset : ℤ
  flags : ℕ
  mode : ℕ
  refcount : ℕ
  deriving DecidableEq, Repr

/-- `vfs_mount_t`: the mount point and the address of the root node. -/
structure Mount where
  mountpoint : CString
  root : ℕ
  deriving DecidableEq, Repr

/-- The state of the kernel that `fs/vfs.c` sees.  `nodes` holds what was last stored in each node and
`ruins` what its memory shows after it was freed, depending on all that has happened; `supers` gives the
`fs_data` of a superblock.  `stale` is not part of the kernel: it lists the nodes whose fields a path
resolution has read after they were freed. -/
structure Vfs where
  world : World
  nodes : ℕ → VfsNode
  ruins : World → ℕ → VfsNode
  supers : ℕ → Fs
  mounts : List Mount
  fdTable : ℕ → Option VfsFile
  cwd : Option ℕ
  initComplete : Bool
  stale : List ℕ

namespace Vfs

def vfsMaxPath : ℕ := 4096

def vfsMaxOpenFiles : ℕ := 256

def oWronly : ℕ := 0x1

def oRdwr : ℕ := 0x2

def oAccmode : ℕ := 0x3

def oCreat : ℕ := 0x40

def oTrunc : ℕ := 0x200

def oAppend : ℕ := 0x400

def oDirectory : ℕ := 0x10000

def sIrusr : ℕ := 0o400

def sIwusr : ℕ := 0o200

def ePerm : ℤ := 1

def eNoent : ℤ := 2

def eAcces : ℤ := 13

def eExist : ℤ := 17

def eNotdir : ℤ := 20

def eIsdir : ℤ := 21

def slash : UInt8 := 0x2F

/-- The string `"."`. -/
def here : CString := [0x2E]

/-- The string `".."`. -/
def above : CString := [0x2E, 0x2E]

/-- The string `"/"`. -/
def rootPath : CString := [0x2F]

/-- The string `"user"`. -/
def user : CString := [0x75, 0x73, 0x65, 0x72]

/-- The string `"home"`. -/
def home : CString := [0x68, 0x6F, 0x6D, 0x65]

/-- `sizeof(vfs_file_t)`. -/
def vfsFileSize : ℕ := 32

def setNode (st : Vfs) (addr : ℕ) (node : VfsNode) : Vfs :=
  { st with nodes := Function.update st.nodes addr node }

def setWorld (st : Vfs) (w : World) : Vfs := { st with world := w }

def setFd (st : Vfs) (fd : ℕ) (file : Option VfsFile) : Vfs :=
  { st with fdTable := Function.update st.fdTable fd file }

def fsOf (st : Vfs) (node : VfsNode) : Fs := st.supers node.sb

/-- The node that a pointer shows. -/
def peek (st : Vfs) (addr : ℕ) : VfsNode :=
  if addr ∈ st.world.heap.live then st.nodes addr else { st.ruins st.world addr with addr }

/-- Free a node with its `fs_data`. -/
def freeNode (st : Vfs) (addr : ℕ) : Vfs :=
  st.setWorld (Fat32.freeNode (st.peek addr) st.world)

/-- Read a field of a node. -/
def touch (st : Vfs) (addr : ℕ) : Vfs :=
  if addr ∈ st.world.heap.live then st else { st with stale := addr :: st.stale }

/-! ## Paths -/

/-- `vfs_find_mount`: the longest mount point that is a prefix of the path. -/
def findMount (mounts : List Mount) (path : CString) : Option Mount :=
  mounts.foldl (fun best mount =>
    if mount.mountpoint.isPrefixOf path then
      match best with
      | none => if 0 < mount.mountpoint.length then some mount else none
      | some old => if old.mountpoint.length < mount.mountpoint.length then some mount else best
    else best) none

def components (path : CString) : List CString := (path.splitOn slash).filter fun c => !c.isEmpty

/-- The components of a path that fits into the buffer of `vfs_resolve_path_from`. -/
def tokens (path : CString) : List CString := components (path.take (vfsMaxPath - 1))

/-- Leave the node at `cur`, which is freed if it was looked up on the way. -/
def leave (owned : Bool) (cur : ℕ) (st : Vfs) : Vfs := if owned then st.freeNode cur else st

/-- The loop of `vfs_resolve_path_from`.  Nodes that were looked up on the way are freed when they
are left (`owned`).  Behind the `free` of a node, `..` reads its `parent` once more, which is still
there since nothing has been allocated in between. -/
def resolveLoop (fuel : ℕ) : List CString → (cur : ℕ) → (owned : Bool) → Vfs → Option (Option ℕ × Vfs)
  | [], cur, _, st => some (some cur, st)
  | token :: rest, cur, owned, st =>
      if token = here then resolveLoop fuel rest cur owned st
      else if token = above then
        match (st.peek cur).parent with
        | none => resolveLoop fuel rest cur owned (st.touch cur)
        | some parent =>
            resolveLoop fuel rest parent false ((leave owned cur (st.touch cur)).touch cur)
      else if !(st.peek cur).isDirectory then some (none, leave owned cur (st.touch cur))
      else
        (Fat32.lookup (st.fsOf (st.peek cur)) (st.peek cur) token fuel st.world).bind fun
          | (none, w) => some (none, leave owned cur ((st.touch cur).setWorld w))
          | (some child, w) =>
              resolveLoop fuel rest child.addr true
                (leave owned cur (((st.touch cur).setWorld w).setNode child.addr child))

/-- `vfs_resolve_path_from`. -/
def resolvePathFrom (start : ℕ) (path : CString) (fuel : ℕ) (st : Vfs) :
    Option (Option ℕ × Vfs) :=
  resolveLoop fuel (tokens path) start false st

/-- What `vfs_resolve_path` leaves of a path behind the mount point. -/
def relPath (mountpoint path : CString) : CString :=
  match path.drop mountpoint.length with
  | [] => []
  | c :: rel => if c = slash then rel else c :: rel

/-- `vfs_resolve_path`. -/
def resolvePath (path : CString) (fuel : ℕ) (st : Vfs) : Option (Option ℕ × Vfs) :=
  match st.cwd with
  | none => some (none, st)
  | some cwd =>
      if path.head? = some slash then
        match findMount st.mounts path with
        | none => some (none, st)
        | some mount => resolvePathFrom mount.root (relPath mount.mountpoint path) fuel st
      else resolvePathFrom cwd path fuel st

/-- The directory part and the last component of a path, as `vfs_open` and `vfs_mkdir` split it. -/
def splitPath (path : CString) : CString × CString :=
  match strrchr path slash with
  | none => (here, path)
  | some 0 => (rootPath, path.drop 1)
  | some i => (path.take i, path.drop (i + 1))

/-! ## Permissions -/

/-- The loop of `is_path_writable` from the node at `cur` on. -/
def writableWalk (nodes : ℕ → VfsNode) : (fuel : ℕ) → (cur : Option ℕ) → (foundUser : Bool) →
    Option Bool
  | 0, _, _ => none
  | _ + 1, none, _ => some false
  | fuel + 1, some cur, foundUser =>
      if !foundUser && (nodes cur).name = user then
        writableWalk nodes fuel (nodes cur).parent true
      else if foundUser && (nodes cur).name = home then some true
      else writableWalk nodes fuel (nodes cur).parent foundUser

/-- `is_path_writable` of a node that is not NULL. -/
def isPathWritable (addr : ℕ) (fuel : ℕ) (st : Vfs) : Option Bool :=
  if !st.initComplete then some true else writableWalk st.peek fuel (some addr) false

/-- `vfs_check_permission` of a node that is not NULL. -/
def checkPermission (addr : ℕ) (flags : ℕ) (fuel : ℕ) (st : Vfs) : Option ℤ :=
  let mode := (st.peek addr).mode
  let reading : ℤ := if flags &&& oRdwr ≠ 0 ∧ mode &&& sIrusr = 0 then -eAcces else 0
  if flags &&& (oWronly ||| oRdwr ||| oCreat ||| oTrunc ||| oAppend) ≠ 0 then
    (isPathWritable addr fuel st).map fun writable =>
      if !writable then -eAcces
      else if mode &&& sIwusr = 0 then -eAcces
      else reading
  else some reading

/-! ## Descriptors -/

/-- The first descriptor from `fd` on that is not in use, with `n` to go. -/
def freeFd (fdTable : ℕ → Option VfsFile) : (n fd : ℕ) → Option ℕ
  | 0, _ => none
  | n + 1, fd => if (fdTable fd).isNone then some fd else freeFd fdTable n (fd + 1)

/-- `vfs_alloc_fd`. -/
def allocFd (file : VfsFile) (st : Vfs) : ℤ × Vfs :=
  match freeFd st.fdTable vfsMaxOpenFiles 0 with
  | none => (-1, st)
  | some fd => (fd, st.setFd fd (some { file with refcount := file.refcount + 1 }))

/-- `vfs_get_file`. -/
def getFile (fd : ℤ) (st : Vfs) : Option VfsFile :=
  if fd < 0 ∨ vfsMaxOpenFiles ≤ fd then none else st.fdTable fd.toNat

/-- `vfs_free_fd` of a descriptor in range. -/
def freeFdEntry (fd : ℕ) (st : Vfs) : Vfs :=
  match st.fdTable fd with
  | none => st
  | some file =>
      let st := st.setFd fd none
      if file.refcount - 1 = 0 then st.setWorld (st.world.free file.addr) else st

/-- The last part of `vfs_open`, for the node at `addr`. -/
def openNode (addr flags mode : ℕ) (fuel : ℕ) (st : Vfs) : Option (ℤ × Vfs) :=
  -- `O_RDONLY` is 0, so that the test for it never succeeds.
  if (st.peek addr).isDirectory ∧ flags &&& oDirectory = 0 then some (-1, st)
  else
    (st.checkPermission addr flags fuel).map fun (verdict : ℤ) =>
      if verdict ≠ 0 then (-eAcces, st)
      else
        match st.world.malloc vfsFileSize with
        | (none, w) => (-1, st.setWorld w)
        | (some file, w) =>
            let st := st.setWorld w
            let st :=
              if flags &&& oTrunc ≠ 0 then st.setNode addr { st.nodes addr with size := 0 }
              else st
            match st.allocFd { addr := file, node := addr, offset := 0, flags, mode, refcount := 0 } with
            | (fd, st) => if fd < 0 then (-1, st.setWorld (st.world.free file)) else (fd, st)

/-- The test that `vfs_open` and `vfs_mkdir` make of the directory before they hand it to the
driver; `missing` is their answer when it is not a directory. -/
def inDirectory (missing : ℤ) (act : Fs → VfsNode → ℕ → World → Option (ℤ × World)) (dir : ℕ)
    (fuel : ℕ) (st : Vfs) : Option (ℤ × Vfs) :=
  if !(st.peek dir).isDirectory then some (missing, st)
  else
    (st.checkPermission dir oWronly fuel).bind fun (verdict : ℤ) =>
      if verdict ≠ 0 then some (-eAcces, st)
      else
        (act (st.fsOf (st.peek dir)) (st.peek dir) fuel st.world).map fun
          | (r, w) => (r, st.setWorld w)

/-- The part of `vfs_open` that creates a file: the node of the new file, or an error. -/
def openCreate (path : CString) (mode : ℕ) (fuel : ℕ) (st : Vfs) : Option (Except ℤ ℕ × Vfs) :=
  (st.resolvePath (splitPath path).1 fuel).bind fun
    | (none, st) => some (.error (-1), st)
    | (some dir, st) =>
        (st.inDirectory (-1) (fun fs node => Fat32.create fs node (splitPath path).2 mode) dir
          fuel).bind fun
          | (r, st) =>
              if r = -eAcces then some (.error (-eAcces), st)
              else if r ≠ 0 then some (.error (-1), st)
              else
                (st.resolvePath path fuel).map fun
                  | (none, st) => (.error (-1), st)
                  | (some node, st) => (.ok node, st)

/-- `vfs_open`. -/
def vfsOpen (path : CString) (flags mode : ℕ) (fuel : ℕ) (st : Vfs) : Option (ℤ × Vfs) :=
  (st.resolvePath path fuel).bind fun
    | (some node, st) => st.openNode node flags mode fuel
    | (none, st) =>
        if flags &&& oCreat ≠ 0 then
          (st.openCreate path mode fuel).bind fun
            | (.error e, st) => some (e, st)
            | (.ok node, st) => st.openNode node flags mode fuel
        else some (-eNoent, st)

/-- `vfs_close`. -/
def vfsClose (fd : ℤ) (st : Vfs) : ℤ × Vfs :=
  match st.getFile fd with
  | none => (-1, st)
  | some _ => (0, st.freeFdEntry fd.toNat)

/-- `vfs_read` into a buffer that is not NULL: the result, the buffer and the state. -/
def vfsRead (fd : ℤ) (dst : Bytes) (count : ℕ) (fuel : ℕ) (st : Vfs) : Option (ℤ × Bytes × Vfs) :=
  match st.getFile fd with
  | none => some (-1, dst, st)
  | some file =>
      let node := st.peek file.node
      (Fat32.read (st.fsOf node) node dst count file.offset fuel st.world).map fun
        | (n, dst, w) =>
            let file := if 0 < n then { file with offset := file.offset + n } else file
            (n, dst, (st.setWorld w).setFd fd.toNat (some file))

/-- The offset at which `vfs_write` writes. -/
def writeOffset (st : Vfs) (file : VfsFile) : ℤ :=
  if file.flags &&& oAppend ≠ 0 then Fat32.toOff (st.peek file.node).size else file.offset

/-- `vfs_write` from a buffer that is not NULL. -/
def vfsWrite (fd : ℤ) (src : Bytes) (count : ℕ) (fuel : ℕ) (st : Vfs) : Option (ℤ × Vfs) :=
  match st.getFile fd with
  | none => some (-1, st)
  | some file =>
      if file.flags &&& oAccmode = 0 then some (-1, st)
      else
        let node := st.peek file.node
        let file := { file with offset := st.writeOffset file }
        (Fat32.write (st.fsOf node) node src count file.offset fuel st.world).map fun
          | (n, node', w) =>
              let file := if 0 < n then { file with offset := file.offset + n } else file
              -- the driver changes nothing else in the node
              (n, ((st.setWorld w).setNode file.node
                { st.nodes file.node with size := node'.size, fsData := node'.fsData }).setFd
                  fd.toNat (some file))

/-- `vfs_lseek`; `whence` is 0 for `SEEK_SET`, 1 for `SEEK_CUR` and 2 for `SEEK_END`. -/
def vfsLseek (fd offset : ℤ) (whence : ℕ) (st : Vfs) : ℤ × Vfs :=
  match st.getFile fd with
  | none => (-1, st)
  | some file =>
      let target : Option ℤ :=
        match whence with
        | 0 => some offset
        | 1 => some ((file.offset + offset).bmod (2 ^ 64))
        | 2 => some ((((st.peek file.node).size : ℤ) + offset).bmod (2 ^ 64))
        | _ => none
      match target with
      | none => (-1, st)
      | some target =>
          if target < 0 then (-1, st)
          else (target, st.setFd fd.toNat (some { file with offset := target }))

/-- The fields of `struct stat` that depend on the node. -/
structure Stat where
  ino : ℕ
  mode : ℕ
  size : ℕ
  blksize : ℕ
  blocks : ℕ
  deriving DecidableEq, Repr

/-- `vfs_stat` into a buffer that is not NULL. -/
def vfsStat (path : CString) (fuel : ℕ) (st : Vfs) : Option (ℤ × Option Stat × Vfs) :=
  (st.resolvePath path fuel).map fun
    | (none, st) => (-1, none, st)
    | (some addr, st) =>
        let node := st.peek addr
        let stat : Stat :=
          { ino := node.inode, mode := node.mode, size := node.size
            blksize := (st.fsOf node).clusterSize, blocks := (node.size + 511) % 2 ^ 64 / 512 }
        (0, some stat, if some addr ≠ st.cwd then st.freeNode addr else st)

/-! ## Directories -/

/-- `vfs_set_cwd` of a node that is not NULL. -/
def vfsSetCwd (addr : ℕ) (st : Vfs) : ℤ × Vfs :=
  if !(st.peek addr).isDirectory then (-1, st) else (0, { st with cwd := some addr })

/-- `cmd_cd` of the shell, without its messages. -/
def cmdCd (target : CString) (fuel : ℕ) (st : Vfs) : Option Vfs :=
  (st.resolvePath target fuel).map fun
    | (none, st) => st
    | (some node, st) =>
        if !(st.peek node).isDirectory then st.freeNode node else (st.vfsSetCwd node).2

/-- `vfs_mkdir`. -/
def vfsMkdir (path : CString) (mode : ℕ) (fuel : ℕ) (st : Vfs) : Option (ℤ × Vfs) :=
  (st.resolvePath path fuel).bind fun
    | (some existing, st) => some (-eExist, st.freeNode existing)
    | (none, st) =>
        (st.resolvePath (splitPath path).1 fuel).bind fun
          | (none, st) => some (-eNotdir, st)
          | (some parent, st) =>
              st.inDirectory (-eNotdir)
                (fun fs node => Fat32.mkdir fs node (splitPath path).2 (mode ||| sIfdir)) parent fuel

/-- What `vfs_rmdir` and `vfs_unlink` do behind their tests of the node: the operation of the
driver on its parent. -/
def removeNode (remove : Fs → VfsNode → CString → ℕ → World → Option (ℤ × World)) (addr : ℕ)
    (fuel : ℕ) (st : Vfs) : Option (ℤ × Vfs) :=
  match (st.peek addr).parent with
  | none => some (-ePerm, st)
  | some parent =>
      (st.checkPermission parent oWronly fuel).bind fun verdict =>
        if verdict ≠ 0 then some (-eAcces, st)
        else
          (remove (st.fsOf (st.peek parent)) (st.peek parent) (st.peek addr).name fuel
            st.world).map fun
            | (r, w) => (r, st.setWorld w)

/-- `vfs_rmdir`. -/
def vfsRmdir (path : CString) (fuel : ℕ) (st : Vfs) : Option (ℤ × Vfs) :=
  (st.resolvePath path fuel).bind fun
    | (none, st) => some (-eNoent, st)
    | (some node, st) =>
        if !(st.peek node).isDirectory then some (-eNotdir, st)
        else st.removeNode Fat32.rmdir node fuel

/-- `vfs_unlink`. -/
def vfsUnlink (path : CString) (fuel : ℕ) (st : Vfs) : Option (ℤ × Vfs) :=
  (st.resolvePath path fuel).bind fun
    | (none, st) => some (-eNoent, st)
    | (some node, st) =>
        if (st.peek node).isDirectory then some (-eIsdir, st)
        else st.removeNode Fat32.unlink node fuel

end Vfs

end Thuban

import Thuban.Vfs.Sharing
import Thuban.Vfs.Descriptors

/-!
# Directories that are opened for writing

`vfs_open` refuses a directory unless `O_DIRECTORY` is given: its other test, for `O_RDONLY`, never
succeeds. A directory that is opened with `O_DIRECTORY` and an access mode for writing is handed to
`fat32_write` like a file.
-/

namespace Thuban.Vfs

open Lib (Bytes Run)

variable {st st' : Vfs} {fuel : ℕ}

/-- The node that `vfs_write` of the descriptor hands to `fat32_write`. -/
def passed (st : Vfs) (fd : ℤ) : Option VfsNode :=
  (st.getFile fd).bind fun file =>
    if file.flags &&& oAccmode = 0 then none else some (st.peek file.node)

/-- No descriptor hands a directory to `fat32_write`. -/
def FilesOnly (st : Vfs) : Prop :=
  ∀ fd node, st.passed fd = some node → node.isDirectory = false

/-- A directory is not opened for writing with `O_DIRECTORY`, unless its permissions forbid it. -/
def Modest (path : CString) (flags mode : ℕ) (fuel : ℕ) (st : Vfs) : Prop :=
  flags &&& oAccmode = 0 ∨ flags &&& oDirectory = 0 ∨
    ∀ a st₁, st.openTarget path flags mode fuel = some (.ok a, st₁) →
      (st₁.peek a).isDirectory = false ∨ st₁.checkPermission a flags fuel ≠ some 0

theorem passed_eq_some {fd : ℤ} {node : VfsNode} :
    st.passed fd = some node ↔ ¬ (fd < 0 ∨ vfsMaxOpenFiles ≤ fd) ∧
      ∃ file, st.fdTable fd.toNat = some file ∧ file.flags &&& oAccmode ≠ 0 ∧
        st.peek file.node = node := by
  unfold passed getFile
  by_cases range : fd < 0 ∨ vfsMaxOpenFiles ≤ fd
  · rw [if_pos range]
    exact ⟨nofun, fun absurd => (absurd.1 range).elim⟩
  rw [if_neg range, Option.bind_eq_some_iff]
  constructor
  · rintro ⟨file, here, taken⟩
    split_ifs at taken with readOnly
    exact ⟨range, file, here, readOnly, Option.some.inj taken⟩
  · rintro ⟨-, file, here, writable, node⟩
    exact ⟨file, here, by rw [if_neg writable, node]⟩

/-- The nodes of the descriptors for writing are allocated, and none of them is a directory. -/
def WritesFiles (st : Vfs) : Prop :=
  ∀ fd file, st.fdTable fd = some file → file.flags &&& oAccmode ≠ 0 →
    st.Allocated file.node ∧ (st.nodes file.node).isDirectory = false

theorem WritesFiles.filesOnly (files : st.WritesFiles) : FilesOnly st := by
  intro fd node here
  obtain ⟨-, file, there, writable, rfl⟩ := passed_eq_some.mp here
  obtain ⟨alloc, regular⟩ := files _ file there writable
  rwa [peek_live alloc.1]

/-! ## Opening -/

variable {path : CString} {flags mode : ℕ} {r : ℤ}

theorem openNode_granted {addr : ℕ} (done : st.openNode addr flags mode fuel = some (r, st'))
    (opened : 0 ≤ r) :
    ((st.peek addr).isDirectory = true → flags &&& oDirectory ≠ 0) ∧
      st.checkPermission addr flags fuel = some 0 := by
  cases openNode_ends done with
  | refused error => omega
  | noMemory => exact absurd opened (by decide)
  | full => exact absurd opened (by decide)
  | opened file permitted =>
    exact ⟨fun directory unset => file ⟨directory, unset⟩, permitted⟩

/-- What an open descriptor is open for. -/
structure Granted (path : CString) (flags mode : ℕ) (fuel : ℕ) (st st' : Vfs) (file : VfsFile) :
    Prop where
  alloc : st'.Allocated file.node
  target : ∃ st₁, st.openTarget path flags mode fuel = some (.ok file.node, st₁) ∧
    (st₁.peek file.node).isDirectory = (st'.nodes file.node).isDirectory ∧
    st₁.checkPermission file.node flags fuel = some 0
  directory : (st'.nodes file.node).isDirectory = true → flags &&& oDirectory ≠ 0
  flags : file.flags = flags

theorem vfsOpen_granted (formed : WellFormed st) (live : st.SharedLive)
    (safe : (PathCall.openFile path flags mode).Safe st)
    (done : st.vfsOpen path flags mode fuel = some (r, st')) :
    r < 0 ∧ st'.fdTable = st.fdTable ∨ ∃ (fd : ℕ) (file : VfsFile), r = fd ∧
      Granted path flags mode fuel st st' file ∧ Takes st.fdTable st'.fdTable fd file := by
  rw [vfsOpen_eq] at done
  obtain ⟨⟨target, st₁⟩, reached, rest⟩ := Option.bind_eq_some_iff.mp done
  obtain ⟨tables, fails⟩ := openTarget_tables reached
  obtain ⟨carries, found⟩ := openTarget_carries formed live safe.1 safe.2 reached
  cases target with
  | error e =>
    cases rest
    exact .inl ⟨fails r rfl, tables.fdTable⟩
  | ok addr =>
    obtain ⟨node, alloc⟩ := found addr rfl
    have carries₂ := openNode_carries carries.formed node rest
    have alloc₂ := carries₂.allocated carries.formed node alloc
    have same := (carries₂.nodes addr node).fields.2.2.2
    rw [← peek_live alloc.1] at same
    rcases openNode_takes rest with ⟨negative, kept⟩ | ⟨fd, file, here, rfl, given, -, takes⟩
    · exact .inl ⟨negative, kept.trans tables.fdTable⟩
    · obtain ⟨directory, permitted⟩ := openNode_granted rest (by omega)
      rw [tables.fdTable] at takes
      refine .inr ⟨fd, file, here, ⟨alloc₂, ⟨st₁, reached, same.symm, permitted⟩, ?_, given⟩, takes⟩
      rw [same]
      exact directory

theorem Granted.modest_iff {file : VfsFile} (granted : Granted path flags mode fuel st st' file)
    (writable : flags &&& oAccmode ≠ 0) :
    Modest path flags mode fuel st ↔ (st'.nodes file.node).isDirectory = false := by
  obtain ⟨-, ⟨st₁, reached, same, permitted⟩, directory, -⟩ := granted
  constructor
  · rintro (readOnly | unset | clear)
    · exact absurd readOnly writable
    · rw [Bool.eq_false_iff]
      exact fun isDir => directory isDir unset
    · rw [← same]
      exact (clear _ _ reached).resolve_right (not_not.mpr permitted)
  · intro isFile
    refine .inr (.inr fun a st₂ there => ?_)
    rw [reached] at there
    cases there
    exact .inl (same.trans isFile)

/-! ## Calls -/

/-- The descriptors that a call leaves open have the nodes and the flags that they had. -/
def KeepsFiles (before after : ℕ → Option VfsFile) : Prop :=
  ∀ fd file', after fd = some file' →
    ∃ file, before fd = some file ∧ file'.node = file.node ∧ file'.flags = file.flags

namespace KeepsFiles

variable {before after : ℕ → Option VfsFile}

theorem refl (before : ℕ → Option VfsFile) : KeepsFiles before before :=
  fun _ file here => ⟨file, here, rfl, rfl⟩

theorem of_eq (same : after = before) : KeepsFiles before after := same ▸ refl before

theorem drop (before : ℕ → Option VfsFile) (fd : ℕ) :
    KeepsFiles before (Function.update before fd none) := by
  intro fd' file' here
  by_cases self : fd' = fd
  · rw [self, Function.update_self] at here
    cases here
  · rw [Function.update_of_ne self] at here
    exact ⟨file', here, rfl, rfl⟩

theorem seek {fd : ℤ} {file file' : VfsFile} (here : st.getFile fd = some file)
    (node : file'.node = file.node) (flags : file'.flags = file.flags) :
    KeepsFiles st.fdTable (Function.update st.fdTable fd.toNat (some file')) := by
  intro fd' new there
  by_cases self : fd' = fd.toNat
  · rw [self, Function.update_self] at there
    cases there
    unfold getFile at here
    split_ifs at here
    exact ⟨file, self ▸ here, node, flags⟩
  · rw [Function.update_of_ne self] at there
    exact ⟨new, there, rfl, rfl⟩

end KeepsFiles

/-- The nodes that are not directories stay allocated, and stay what they are. -/
def Steady (st st' : Vfs) : Prop :=
  ∀ a, st.IsNode a → st.Allocated a → (st.nodes a).isDirectory = false →
    st'.Allocated a ∧ (st'.nodes a).isDirectory = false

theorem Steady.writesFiles (steady : Steady st st') (formed : WellFormed st) (files : st.WritesFiles)
    (keeps : KeepsFiles st.fdTable st'.fdTable) : st'.WritesFiles := by
  intro fd file' there writable
  obtain ⟨file, old, sameNode, sameFlags⟩ := keeps fd file' there
  obtain ⟨alloc, regular⟩ := files fd file old (sameFlags ▸ writable)
  rw [sameNode]
  exact steady _ (formed.files fd file old).1 alloc regular

theorem Carries.steady (carries : Carries st st') (formed : WellFormed st) : Steady st st' := by
  intro a node alloc regular
  refine ⟨carries.allocated formed node alloc, ?_⟩
  rw [(carries.nodes a node).fields.2.2.2]
  exact regular

/-- What `vfs_stat`, `vfs_mkdir` and `cd` free is a directory, or it was looked up on the way. -/
theorem freeNode_steady {more : List CString} {addr : ℕ} (formed : WellFormed st)
    (live : st.SharedLive) (safe : st.Safe path more)
    (resolved : st.resolvePath path fuel = some (some addr, st')) :
    Steady st (st'.freeNode addr) := by
  intro a node alloc regular
  obtain ⟨carries, place, w, -, result, found⟩ := resolvePath_carries formed live safe resolved
  obtain ⟨p, same, rfl⟩ := Option.map_eq_some_iff.mp result.symm
  obtain ⟨owned, walks⟩ := found p same
  have other : a ≠ p.addr := by
    rintro rfl
    by_cases bottom : p.trail = []
    · have directory := walks.footing.directory
      obtain ⟨base, trail⟩ := p
      obtain rfl : trail = [] := bottom
      exact Bool.false_ne_true (regular.symm.trans directory)
    · have new := (walks.tracks.new_of_trail bottom).1
      rw [walks.tracks.node_addr] at new
      exact absurd (formed.bound _ node).1 (not_lt.mpr new)
  obtain ⟨alloc', regular'⟩ := carries.steady formed a node alloc regular
  exact ⟨alloc'.freeNode carries.formed (carries.isNode node) walks.isNode walks.stands.live other,
    regular'⟩

theorem close_steady (formed : WellFormed st) (fd : ℤ) : Steady st (st.vfsClose fd).2 := by
  intro a node alloc regular
  rcases vfsClose_cases fd st with same | ⟨file, here, same | same⟩
  · rw [same]
    exact ⟨alloc, regular⟩
  · rw [same]
    exact ⟨alloc, regular⟩
  · obtain ⟨notNode, notData⟩ := (getFile_fits formed here).2.2 a node
    rw [same]
    exact ⟨⟨(World.mem_free_of_ne _ notNode.symm).mpr alloc.1,
      (World.mem_free_of_ne _ notData.symm).mpr alloc.2⟩, regular⟩

variable {r fd : ℤ} {path : CString} {mode count : ℕ} {call : Call}

theorem removeNode_tables {remove : Fat32.Fs → VfsNode → CString → ℕ → World → Option (ℤ × World)}
    {addr : ℕ} (done : st.removeNode remove addr fuel = some (r, st')) : SameTables st st' := by
  unfold removeNode at done
  split at done
  · cases done
    exact .refl _
  obtain ⟨verdict, -, rest⟩ := Option.bind_eq_some_iff.mp done
  split_ifs at rest
  · cases rest
    exact .refl _
  · obtain ⟨⟨r', w⟩, -, same⟩ := Option.map_eq_some_iff.mp rest
    cases same
    exact setWorld_tables _ w

theorem vfsRmdir_tables (done : st.vfsRmdir path fuel = some (r, st')) : SameTables st st' := by
  obtain ⟨⟨found, st₁⟩, resolved, rest⟩ := Option.bind_eq_some_iff.mp done
  apply (resolvePath_tables resolved).trans
  cases found with
  | none =>
    cases rest
    exact .refl _
  | some addr =>
    dsimp only at rest
    split_ifs at rest
    · cases rest
      exact .refl _
    · exact removeNode_tables rest

theorem vfsUnlink_tables (done : st.vfsUnlink path fuel = some (r, st')) : SameTables st st' := by
  obtain ⟨⟨found, st₁⟩, resolved, rest⟩ := Option.bind_eq_some_iff.mp done
  apply (resolvePath_tables resolved).trans
  cases found with
  | none =>
    cases rest
    exact .refl _
  | some addr =>
    dsimp only at rest
    split_ifs at rest
    · cases rest
      exact .refl _
    · exact removeNode_tables rest

theorem vfsMkdir_tables (done : st.vfsMkdir path mode fuel = some (r, st')) :
    SameTables st st' := by
  obtain ⟨⟨found, st₁⟩, resolved, rest⟩ := Option.bind_eq_some_iff.mp done
  apply (resolvePath_tables resolved).trans
  cases found with
  | some addr =>
    cases rest
    exact ⟨rfl, rfl, rfl, rfl, rfl⟩
  | none =>
    obtain ⟨⟨above, st₂⟩, resolved', rest⟩ := Option.bind_eq_some_iff.mp rest
    apply (resolvePath_tables resolved').trans
    cases above with
    | none =>
      cases rest
      exact .refl _
    | some parent => exact inDirectory_tables rest

theorem vfsRead_keepsFiles {dst dst' : Bytes}
    (done : st.vfsRead fd dst count fuel = some (r, dst', st')) :
    KeepsFiles st.fdTable st'.fdTable := by
  unfold vfsRead at done
  cases here : st.getFile fd with
  | none =>
    rw [here] at done
    cases done
    exact .refl _
  | some file =>
    rw [here] at done
    obtain ⟨⟨n, buffer, w⟩, -, ends⟩ := Option.map_eq_some_iff.mp done
    cases ends
    apply KeepsFiles.seek here
    · split_ifs <;> rfl
    · split_ifs <;> rfl

theorem vfsWrite_keepsFiles {src : Bytes} (done : st.vfsWrite fd src count fuel = some (r, st')) :
    KeepsFiles st.fdTable st'.fdTable := by
  unfold vfsWrite at done
  cases here : st.getFile fd with
  | none =>
    rw [here] at done
    cases done
    exact .refl _
  | some file =>
    rw [here] at done
    by_cases readOnly : file.flags &&& oAccmode = 0
    · simp only [if_pos readOnly] at done
      cases done
      exact .refl _
    · simp only [if_neg readOnly] at done
      obtain ⟨⟨n, node', w⟩, -, ends⟩ := Option.map_eq_some_iff.mp done
      cases ends
      apply KeepsFiles.seek here
      · split_ifs <;> rfl
      · split_ifs <;> rfl

theorem vfsLseek_keepsFiles (fd offset : ℤ) (whence : ℕ) :
    KeepsFiles st.fdTable (st.vfsLseek fd offset whence).2.fdTable := by
  unfold vfsLseek
  cases here : st.getFile fd with
  | none => exact .refl _
  | some file =>
    dsimp only
    split
    · exact .refl _
    · split_ifs
      · exact .refl _
      · apply KeepsFiles.seek here
        · rfl
        · rfl

theorem vfsClose_keepsFiles (fd : ℤ) : KeepsFiles st.fdTable (st.vfsClose fd).2.fdTable := by
  rcases vfsClose_cases fd st with same | ⟨file, -, same | same⟩
  · exact .of_eq (congrArg fdTable same)
  · rw [same]
    exact .drop _ _
  · rw [same]
    exact .drop _ _

/-- Every safe step leaves the nodes of regular files alone. -/
theorem Call.run_steady (formed : WellFormed st) (live : st.SharedLive) (safe : call.Safe st)
    (done : call.run fuel st = some st') : Steady st st' := by
  cases call with
  | path call =>
    cases call with
    | stat path =>
      obtain ⟨r, called, rfl⟩ := Option.map_eq_some_iff.mp done
      obtain ⟨⟨found, st₁⟩, resolved, ends⟩ := Option.map_eq_some_iff.mp called
      have steady := (resolvePath_carries formed live safe resolved).1.steady formed
      cases found with
      | none =>
        cases ends
        exact steady
      | some addr =>
        cases ends
        dsimp only
        split_ifs
        · exact freeNode_steady formed live safe resolved
        · exact steady
    | mkdir path mode =>
      obtain ⟨⟨r, st''⟩, called, rfl⟩ := Option.map_eq_some_iff.mp done
      obtain ⟨⟨found, st₁⟩, resolved, ends⟩ := Option.bind_eq_some_iff.mp called
      cases found with
      | none => exact (mkdirNew_carries formed live safe.1 safe.2 resolved called).steady formed
      | some addr =>
        cases ends
        exact freeNode_steady formed live safe.1 resolved
    | openFile path flags mode =>
      obtain ⟨⟨r, st''⟩, called, rfl⟩ := Option.map_eq_some_iff.mp done
      exact (vfsOpen_carries formed live safe.1 safe.2 called).steady formed
    | rmdir path =>
      obtain ⟨⟨r, st''⟩, called, rfl⟩ := Option.map_eq_some_iff.mp done
      exact (vfsRmdir_carries formed live safe called).steady formed
    | unlink path =>
      obtain ⟨⟨r, st''⟩, called, rfl⟩ := Option.map_eq_some_iff.mp done
      exact (vfsUnlink_carries formed live safe called).steady formed
  | cd target =>
    rcases cmdCd_cases done with resolved | ⟨addr, st₁, resolved, ⟨-, rfl⟩ | ⟨-, rfl⟩⟩
    · exact (resolvePath_carries formed live safe resolved).1.steady formed
    · exact freeNode_steady formed live safe resolved
    · exact (resolvePath_carries formed live safe resolved).1.steady formed
  | close fd =>
    cases done
    exact close_steady formed fd
  | read fd dst count =>
    obtain ⟨⟨r, dst', st''⟩, called, rfl⟩ := Option.map_eq_some_iff.mp done
    exact (vfsRead_carries formed called).steady formed
  | write fd src count =>
    obtain ⟨⟨r, st''⟩, called, rfl⟩ := Option.map_eq_some_iff.mp done
    exact (vfsWrite_carries formed called).steady formed
  | lseek fd offset whence =>
    cases done
    exact (vfsLseek_carries formed).steady formed

/-- Every step but a `vfs_open` leaves the descriptors their nodes and flags. -/
theorem Call.run_keepsFiles (done : call.run fuel st = some st')
    (other : ∀ path flags mode, call ≠ .path (.openFile path flags mode)) :
    KeepsFiles st.fdTable st'.fdTable := by
  cases call with
  | path call =>
    cases call with
    | stat path =>
      obtain ⟨r, called, rfl⟩ := Option.map_eq_some_iff.mp done
      obtain ⟨⟨found, st₁⟩, resolved, ends⟩ := Option.map_eq_some_iff.mp called
      have tables := (resolvePath_tables resolved).fdTable
      cases found with
      | none =>
        cases ends
        exact .of_eq tables
      | some addr =>
        cases ends
        dsimp only
        split_ifs
        · exact .of_eq tables
        · exact .of_eq tables
    | mkdir path mode =>
      obtain ⟨⟨r, st''⟩, called, rfl⟩ := Option.map_eq_some_iff.mp done
      exact .of_eq (vfsMkdir_tables called).fdTable
    | openFile path flags mode => exact absurd rfl (other path flags mode)
    | rmdir path =>
      obtain ⟨⟨r, st''⟩, called, rfl⟩ := Option.map_eq_some_iff.mp done
      exact .of_eq (vfsRmdir_tables called).fdTable
    | unlink path =>
      obtain ⟨⟨r, st''⟩, called, rfl⟩ := Option.map_eq_some_iff.mp done
      exact .of_eq (vfsUnlink_tables called).fdTable
  | cd target =>
    rcases cmdCd_cases done with resolved | ⟨addr, st₁, resolved, ⟨-, rfl⟩ | ⟨-, rfl⟩⟩
    · exact .of_eq (resolvePath_tables resolved).fdTable
    · exact .of_eq (resolvePath_tables resolved).fdTable
    · exact .of_eq (resolvePath_tables resolved).fdTable
  | close fd =>
    cases done
    exact vfsClose_keepsFiles fd
  | read fd dst count =>
    obtain ⟨⟨r, dst', st''⟩, called, rfl⟩ := Option.map_eq_some_iff.mp done
    exact vfsRead_keepsFiles called
  | write fd src count =>
    obtain ⟨⟨r, st''⟩, called, rfl⟩ := Option.map_eq_some_iff.mp done
    exact vfsWrite_keepsFiles called
  | lseek fd offset whence =>
    cases done
    exact vfsLseek_keepsFiles fd offset whence

/-! ## Runs -/

/-- A directory is not opened for writing. -/
def Call.Modest (fuel : ℕ) (st : Vfs) : Call → Prop
  | .path (.openFile target flags mode) => Vfs.Modest target flags mode fuel st
  | _ => True

theorem vfsOpen_writesFiles {flags : ℕ} (formed : WellFormed st) (live : st.SharedLive)
    (files : st.WritesFiles) (safe : (PathCall.openFile path flags mode).Safe st)
    (modest : Modest path flags mode fuel st)
    (done : st.vfsOpen path flags mode fuel = some (r, st')) : st'.WritesFiles := by
  have steady := (vfsOpen_carries formed live safe.1 safe.2 done).steady formed
  rcases vfsOpen_granted formed live safe done with ⟨-, same⟩ | ⟨new, file, -, granted, takes⟩
  · exact steady.writesFiles formed files (.of_eq same)
  intro fd file' there writable
  by_cases self : fd = new
  · rw [takes.table, self, Function.update_self] at there
    cases there
    exact ⟨granted.alloc, (granted.modest_iff (granted.flags ▸ writable)).mp modest⟩
  · rw [takes.table, Function.update_of_ne self] at there
    obtain ⟨alloc, regular⟩ := files fd file' there writable
    exact steady _ (formed.files _ _ there).1 alloc regular

theorem Call.run_writesFiles (formed : WellFormed st) (live : st.SharedLive) (files : st.WritesFiles)
    (safe : call.Safe st) (modest : call.Modest fuel st) (done : call.run fuel st = some st') :
    st'.WritesFiles := by
  by_cases opening : ∃ path flags mode, call = .path (.openFile path flags mode)
  · obtain ⟨path, flags, mode, rfl⟩ := opening
    obtain ⟨⟨r, st''⟩, called, rfl⟩ := Option.map_eq_some_iff.mp done
    exact vfsOpen_writesFiles formed live files safe modest called
  · apply (Call.run_steady formed live safe done).writesFiles formed files
    exact Call.run_keepsFiles done fun path flags mode same => opening ⟨path, flags, mode, same⟩

/-- In every run of safe calls that spare the shared nodes and open no directory for writing, no
descriptor hands a directory to `fat32_write`; and the descriptor of any further safe `vfs_open` hands on
a directory if and only if that call opens one for writing. -/
theorem no_directory_passed {calls : List (Call × ℕ)} (formed : WellFormed st) (live : st.SharedLive)
    (files : st.WritesFiles)
    (run : Run (fun st c st' => (c.1.Safe st ∧ c.1.Spares c.2 st ∧ c.1.Modest c.2 st) ∧
      c.1.run c.2 st = some st') st calls st') :
    FilesOnly st' ∧ ∀ (path : CString) (flags mode fuel : ℕ) (fd : ℤ) (st'' : Vfs),
      (PathCall.openFile path flags mode).Safe st' →
      st'.vfsOpen path flags mode fuel = some (fd, st'') → 0 ≤ fd →
        ((∃ node, st''.passed fd = some node ∧ node.isDirectory = true) ↔
          ¬ Modest path flags mode fuel st') := by
  obtain ⟨⟨formed', live'⟩, files'⟩ := run.invariant
    (P := fun st => (WellFormed st ∧ st.SharedLive) ∧ st.WritesFiles)
    (fun _ _ _ tidy step => ⟨Call.run_tidy tidy.1.1 tidy.1.2 step.1.1 step.1.2.1 step.2,
      Call.run_writesFiles tidy.1.1 tidy.1.2 tidy.2 step.1.1 step.1.2.2 step.2⟩)
    ⟨⟨formed, live⟩, files⟩
  refine ⟨files'.filesOnly, fun path flags mode fuel fd st'' safe done opened => ?_⟩
  rcases vfsOpen_granted formed' live' safe done with
    ⟨negative, -⟩ | ⟨new, file, rfl, granted, takes⟩
  · omega
  constructor
  · rintro ⟨node, here, directory⟩ modest
    have files'' := vfsOpen_writesFiles formed' live' files' safe modest done
    rw [files''.filesOnly _ node here] at directory
    cases directory
  · intro immodest
    have writable : flags &&& oAccmode ≠ 0 := fun readOnly => immodest (.inl readOnly)
    rw [granted.modest_iff writable, Bool.not_eq_false, ← peek_live granted.alloc.1] at immodest
    refine ⟨_, passed_eq_some.mpr ⟨?_, file, ?_, granted.flags.symm ▸ writable, rfl⟩, immodest⟩
    · have := takes.bound
      omega
    · rw [takes.table]
      exact Function.update_self ..

theorem writesFiles_mounted : mounted.WritesFiles := fun _ _ there => by cases there

/-- A file is made and opened for writing, and then `/` is opened for reading. -/
theorem no_directory_passed_mounted :
    ∃ st', (mounted.vfsOpen pathA (oCreat ||| oWronly) 0o644 9).map Prod.snd = some st' ∧
      FilesOnly st' ∧ ∃ st'', st'.vfsOpen rootPath oDirectory 0 9 = some (1, st'') ∧
        ¬ ∃ node, st''.passed 1 = some node ∧ node.isDirectory = true := by
  have evaluated : ((mounted.vfsOpen pathA (oCreat ||| oWronly) 0o644 9).map Prod.snd).bind
      (fun st' => (st'.vfsOpen rootPath oDirectory 0 9).map fun r => (r.1, st'.origin rootPath)) =
      some (1, some (1, [])) := by decide +kernel
  obtain ⟨st', made, evaluated⟩ := Option.bind_eq_some_iff.mp evaluated
  obtain ⟨⟨fd, st''⟩, opened, facts⟩ := Option.map_eq_some_iff.mp evaluated
  obtain ⟨rfl, root⟩ := Prod.mk.inj facts
  have modest : (Call.path (.openFile pathA (oCreat ||| oWronly) 0o644)).Modest 9 mounted :=
    .inr (.inl (by decide))
  have safe : (Call.path (.openFile pathA (oCreat ||| oWronly) 0o644)).Safe mounted := by
    have begins : mounted.origin pathA = some (1, [0x61]) := by decide +kernel
    have beginsDir : mounted.origin (splitPath pathA).1 = some (1, []) := by decide +kernel
    exact ⟨safe_of_origin begins (by decide +kernel), fun _ =>
      safe_of_origin beginsDir (by decide +kernel)⟩
  have run : Run (fun st (c : Call × ℕ) st' => (c.1.Safe st ∧ c.1.Spares c.2 st ∧
      c.1.Modest c.2 st) ∧ c.1.run c.2 st = some st') mounted
      [(.path (.openFile pathA (oCreat ||| oWronly) 0o644), 9)] st' :=
    .cons ⟨⟨safe, trivial, modest⟩, made⟩ (.nil _)
  obtain ⟨only, further⟩ :=
    no_directory_passed formed_mounted live_mounted writesFiles_mounted run
  have safe' : (PathCall.openFile rootPath oDirectory 0).Safe st' :=
    ⟨safe_of_origin root (by decide +kernel), fun creat => absurd creat (by decide)⟩
  refine ⟨st', made, only, st'', opened, ?_⟩
  rw [further _ _ _ _ _ _ safe' opened (by decide), not_not]
  exact .inl (by decide)

/-- The directory `/` is opened with `O_DIRECTORY | O_WRONLY`; one byte that is written through the
descriptor removes the directory `/a`. -/
theorem directory_written : ∃ fd st node, WellFormed mounted ∧ mounted.WritesFiles ∧
    (PathCall.mkdir pathA 0o755).run 9 mounted = some oneDirectory ∧
    (oneDirectory.resolvePath pathA 9).map (fun r => r.1.isSome) = some true ∧
    oneDirectory.vfsOpen rootPath (oDirectory ||| oWronly) 0 9 = some (fd, st) ∧
    st.passed fd = some node ∧ node.isDirectory = true ∧
    ∃ st', st.vfsWrite fd (fun _ => 0) 1 9 = some (1, st') ∧
      (st'.resolvePath pathA 9).map Prod.fst = some none := by
  have evaluated : (oneDirectory.vfsOpen rootPath (oDirectory ||| oWronly) 0 9).map (fun r =>
      ((r.2.passed r.1).map VfsNode.isDirectory, (r.2.vfsWrite r.1 (fun _ => 0) 1 9).map fun r' =>
        (r'.1, (r'.2.resolvePath pathA 9).map Prod.fst))) =
      some (some true, some (1, some none)) := by
    decide +kernel
  obtain ⟨⟨fd, st⟩, opened, facts⟩ := Option.map_eq_some_iff.mp evaluated
  obtain ⟨handed, facts⟩ := Prod.mk.inj facts
  obtain ⟨node, here, directory⟩ := Option.map_eq_some_iff.mp handed
  obtain ⟨⟨r, st'⟩, written, facts⟩ := Option.map_eq_some_iff.mp facts
  obtain ⟨rfl, gone⟩ := Prod.mk.inj facts
  exact ⟨fd, st, node, formed_mounted, writesFiles_mounted, mkdir_oneDirectory, by decide +kernel, opened,
    here, directory, st', written, gone⟩

end Thuban.Vfs

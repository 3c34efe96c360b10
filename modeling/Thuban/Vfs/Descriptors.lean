import Thuban.Vfs.Paths

/-!
# The descriptor table

What the calls of `fs/vfs.c` do to the table of descriptors: `vfs_open` takes the first entry that is
free, `vfs_close` gives an entry back, and reading and writing change the offset of their own entry.
-/

namespace Thuban.Vfs

open Lib (Bytes)

variable {st st' : Vfs} {fuel : ℕ}

variable {fd a flags mode : ℕ} {r : ℤ} {path : CString} {target : Except ℤ ℕ}

theorem freeFd_spec {fdTable : ℕ → Option VfsFile} {n first : ℕ}
    (found : freeFd fdTable n first = some fd) :
    first ≤ fd ∧ fd < first + n ∧ fdTable fd = none ∧
      ∀ i, first ≤ i → i < fd → (fdTable i).isSome := by
  induction n generalizing first with
  | zero => cases found
  | succ n ih =>
    unfold freeFd at found
    by_cases free : (fdTable first).isNone
    · rw [if_pos free] at found
      cases found
      exact ⟨le_rfl, by omega, Option.isNone_iff_eq_none.mp free, fun i _ _ => by omega⟩
    · rw [if_neg free] at found
      obtain ⟨after, bound, none, taken⟩ := ih found
      refine ⟨by omega, by omega, none, fun i le lt => ?_⟩
      rcases Nat.eq_or_lt_of_le le with rfl | later
      · exact Option.isSome_iff_ne_none.mpr fun none => free (none ▸ rfl)
      · exact taken i later lt

/-- The entry that a call has taken in the table: it was free, and the entries before it were not. -/
structure Takes (before after : ℕ → Option VfsFile) (fd : ℕ) (file : VfsFile) : Prop where
  bound : fd < vfsMaxOpenFiles
  free : before fd = none
  taken : ∀ i < fd, (before i).isSome
  table : after = Function.update before fd (some file)

theorem freeFd_takes (free : freeFd st.fdTable vfsMaxOpenFiles 0 = some fd) (file : VfsFile) :
    Takes st.fdTable (Function.update st.fdTable fd (some file)) fd file := by
  obtain ⟨-, bound, none, taken⟩ := freeFd_spec free
  exact ⟨by omega, none, fun i lt => taken i (Nat.zero_le i) lt, rfl⟩

/-- The state behind the test for `O_TRUNC`. -/
def truncate (st : Vfs) (a flags : ℕ) : Vfs :=
  if flags &&& oTrunc ≠ 0 then st.setNode a { st.nodes a with size := 0 } else st

theorem truncate_tables (st : Vfs) (a flags : ℕ) : SameTables st (st.truncate a flags) := by
  unfold truncate
  split_ifs
  · exact setNode_tables ..
  · exact .refl st

theorem truncate_world (st : Vfs) (a flags : ℕ) : (st.truncate a flags).world = st.world := by
  unfold truncate
  split_ifs <;> rfl

/-- The state in which `vfs_open` returns the descriptor `fd` for the node at `a`. -/
def openState (st : Vfs) (a flags mode p fd : ℕ) (w : World) : Vfs :=
  ((st.setWorld w).truncate a flags).setFd fd (some ⟨p, a, 0, flags, mode, 1⟩)

/-- The ends of `vfs_open` behind the resolution of its path. -/
inductive OpenEnd (st : Vfs) (a flags mode fuel : ℕ) : ℤ → Vfs → Prop
  | refused {r : ℤ} (error : r < 0) : OpenEnd st a flags mode fuel r st
  | noMemory {w : World} (failed : st.world.malloc vfsFileSize = (none, w)) :
      OpenEnd st a flags mode fuel (-1) (st.setWorld w)
  | full {p : ℕ} {w : World} (allocated : st.world.malloc vfsFileSize = (some p, w)) :
      OpenEnd st a flags mode fuel (-1)
        (((st.setWorld w).truncate a flags).setWorld (w.free p))
  | opened {p fd : ℕ} {w : World}
      (file : ¬((st.peek a).isDirectory = true ∧ flags &&& oDirectory = 0))
      (permitted : st.checkPermission a flags fuel = some 0)
      (allocated : st.world.malloc vfsFileSize = (some p, w))
      (free : freeFd st.fdTable vfsMaxOpenFiles 0 = some fd) :
      OpenEnd st a flags mode fuel (fd : ℤ) (st.openState a flags mode p fd w)

theorem openNode_allocated {p : ℕ} {w : World}
    (file : ¬((st.peek a).isDirectory = true ∧ flags &&& oDirectory = 0))
    (permitted : st.checkPermission a flags fuel = some 0)
    (allocated : st.world.malloc vfsFileSize = (some p, w)) :
    st.openNode a flags mode fuel = some
      (match freeFd st.fdTable vfsMaxOpenFiles 0 with
        | none => (-1, ((st.setWorld w).truncate a flags).setWorld (w.free p))
        | some fd => ((fd : ℤ), st.openState a flags mode p fd w)) := by
  have table : ((st.setWorld w).truncate a flags).fdTable = st.fdTable :=
    (truncate_tables _ a flags).fdTable
  rw [openNode, if_neg file, permitted, Option.map_some, allocated]
  dsimp only
  rw [if_neg (by decide), ← truncate, allocFd, table]
  cases freeFd st.fdTable vfsMaxOpenFiles 0 with
  | none =>
    dsimp only
    rw [if_pos (by decide), truncate_world]
    rfl
  | some fd =>
    dsimp only
    rw [if_neg (by omega)]
    rfl

theorem openNode_ends (done : st.openNode a flags mode fuel = some (r, st')) :
    OpenEnd st a flags mode fuel r st' := by
  have whole := done
  by_cases isDir : (st.peek a).isDirectory ∧ flags &&& oDirectory = 0
  · rw [openNode, if_pos isDir] at done
    cases done
    exact .refused (by decide)
  rw [openNode, if_neg isDir] at done
  obtain ⟨verdict, tested, ends⟩ := Option.map_eq_some_iff.mp done
  by_cases denied : verdict ≠ 0
  · rw [if_pos denied] at ends
    cases ends
    exact .refused (by decide)
  rw [not_not.mp denied] at tested
  rw [if_neg denied] at ends
  rcases allocated : st.world.malloc vfsFileSize with ⟨_ | p, w⟩
  · rw [allocated] at ends
    cases ends
    exact .noMemory allocated
  rw [openNode_allocated isDir tested allocated] at whole
  cases free : freeFd st.fdTable vfsMaxOpenFiles 0 with
  | none =>
    rw [free] at whole
    cases whole
    exact .full allocated
  | some fd =>
    rw [free] at whole
    cases whole
    exact .opened isDir tested allocated free

theorem openNode_takes {addr : ℕ} (done : st.openNode addr flags mode fuel = some (r, st')) :
    r < 0 ∧ st'.fdTable = st.fdTable ∨ ∃ (fd : ℕ) (file : VfsFile), r = fd ∧ file.node = addr ∧
      file.flags = flags ∧ file.offset = 0 ∧ Takes st.fdTable st'.fdTable fd file := by
  cases openNode_ends done with
  | refused error => exact .inl ⟨error, rfl⟩
  | noMemory => exact .inl ⟨by decide, rfl⟩
  | full => exact .inl ⟨by decide, (truncate_tables _ addr flags).fdTable⟩
  | @opened p fd w _ _ _ free =>
    refine .inr ⟨fd, ⟨p, addr, 0, flags, mode, 1⟩, rfl, rfl, rfl, rfl, ?_⟩
    rw [openState, setFd, (truncate_tables _ addr flags).fdTable]
    exact freeFd_takes free _

/-- What `vfs_open` opens: the node that the path leads to, which is made first if it is missing and
`O_CREAT` is given; or an error. -/
def openTarget (path : CString) (flags mode : ℕ) (fuel : ℕ) (st : Vfs) :
    Option (Except ℤ ℕ × Vfs) :=
  (st.resolvePath path fuel).bind fun
    | (some node, st) => some (.ok node, st)
    | (none, st) =>
        if flags &&& oCreat ≠ 0 then st.openCreate path mode fuel else some (.error (-eNoent), st)

theorem vfsOpen_eq (path : CString) (flags mode : ℕ) :
    st.vfsOpen path flags mode fuel =
      (st.openTarget path flags mode fuel).bind fun
        | (.error e, st) => some (e, st)
        | (.ok node, st) => st.openNode node flags mode fuel := by
  unfold vfsOpen openTarget
  rw [Option.bind_assoc]
  congr 1
  funext ⟨found, st₁⟩
  cases found with
  | some node => rfl
  | none =>
    split_ifs <;> rfl

theorem inDirectory_tables {missing : ℤ} {dir : ℕ}
    {act : Fat32.Fs → VfsNode → ℕ → World → Option (ℤ × World)}
    (done : st.inDirectory missing act dir fuel = some (r, st')) : SameTables st st' := by
  unfold inDirectory at done
  split_ifs at done
  · cases done
    exact .refl _
  · obtain ⟨verdict, -, ends⟩ := Option.bind_eq_some_iff.mp done
    by_cases refused : verdict ≠ 0
    · rw [if_pos refused] at ends
      cases ends
      exact .refl _
    · rw [if_neg refused] at ends
      obtain ⟨⟨_, w⟩, -, same⟩ := Option.map_eq_some_iff.mp ends
      cases same
      exact setWorld_tables _ w

/-- Errors are negative. -/
def Fails (target : Except ℤ ℕ) : Prop := ∀ e, target = .error e → e < 0

theorem fails_error {e : ℤ} (negative : e < 0) : Fails (.error e) := by
  intro e' same
  cases same
  exact negative

theorem fails_ok (a : ℕ) : Fails (.ok a) := by
  intro e same
  cases same

theorem openCreate_tables (done : st.openCreate path mode fuel = some (target, st')) :
    SameTables st st' ∧ Fails target := by
  obtain ⟨⟨found, st₁⟩, resolved, rest⟩ := Option.bind_eq_some_iff.mp done
  have tables₁ := resolvePath_tables resolved
  cases found with
  | none =>
    cases rest
    exact ⟨tables₁, fails_error (by decide)⟩
  | some dir =>
    obtain ⟨⟨r, st₂⟩, made, rest⟩ := Option.bind_eq_some_iff.mp rest
    have tables₂ := tables₁.trans (inDirectory_tables made)
    by_cases denied : r = -eAcces
    · simp only [if_pos denied] at rest
      cases rest
      exact ⟨tables₂, fails_error (by decide)⟩
    simp only [if_neg denied] at rest
    by_cases failed : r ≠ 0
    · simp only [if_pos failed] at rest
      cases rest
      exact ⟨tables₂, fails_error (by decide)⟩
    simp only [if_neg failed] at rest
    obtain ⟨⟨found, st₃⟩, again, same⟩ := Option.map_eq_some_iff.mp rest
    have tables₃ := tables₂.trans (resolvePath_tables again)
    cases found with
    | none =>
      cases same
      exact ⟨tables₃, fails_error (by decide)⟩
    | some node =>
      cases same
      exact ⟨tables₃, fails_ok node⟩

theorem openTarget_tables (done : st.openTarget path flags mode fuel = some (target, st')) :
    SameTables st st' ∧ Fails target := by
  obtain ⟨⟨found, st₁⟩, resolved, rest⟩ := Option.bind_eq_some_iff.mp done
  have tables := resolvePath_tables resolved
  cases found with
  | some node =>
    cases rest
    exact ⟨tables, fails_ok node⟩
  | none =>
    by_cases creat : flags &&& oCreat ≠ 0
    · simp only [if_pos creat] at rest
      obtain ⟨tables', fails⟩ := openCreate_tables rest
      exact ⟨tables.trans tables', fails⟩
    · simp only [if_neg creat] at rest
      cases rest
      exact ⟨tables, fails_error (by decide)⟩

theorem vfsOpen_takes (done : st.vfsOpen path flags mode fuel = some (r, st')) :
    r < 0 ∧ st'.fdTable = st.fdTable ∨ ∃ (fd : ℕ) (file : VfsFile) (st₁ : Vfs), r = fd ∧
      st.openTarget path flags mode fuel = some (.ok file.node, st₁) ∧
      file.flags = flags ∧ file.offset = 0 ∧ Takes st.fdTable st'.fdTable fd file := by
  rw [vfsOpen_eq] at done
  obtain ⟨⟨target, st₁⟩, reached, rest⟩ := Option.bind_eq_some_iff.mp done
  obtain ⟨tables, fails⟩ := openTarget_tables reached
  cases target with
  | error e =>
    cases rest
    exact .inl ⟨fails r rfl, tables.fdTable⟩
  | ok node =>
    rcases openNode_takes rest with ⟨negative, same⟩ | ⟨fd, file, here, rfl, flags, offset, takes⟩
    · exact .inl ⟨negative, same.trans tables.fdTable⟩
    · rw [tables.fdTable] at takes
      exact .inr ⟨fd, file, st₁, here, reached, flags, offset, takes⟩

/-! ## The entries in use -/

/-- The entry `fd` is the one of an open file with the node at `a`. -/
def Entry (fdTable : ℕ → Option VfsFile) (fd a : ℕ) : Prop :=
  fd < vfsMaxOpenFiles ∧ ∃ file, fdTable fd = some file ∧ file.node = a

namespace Entry

variable {fd a : ℕ}

theorem getFile (entry : Entry st.fdTable fd a) :
    ∃ file, st.getFile fd = some file ∧ file.node = a := by
  obtain ⟨bound, file, here, node⟩ := entry
  refine ⟨file, ?_, node⟩
  unfold Vfs.getFile
  rw [if_neg (by omega)]
  exact here

theorem takes {before after : ℕ → Option VfsFile} {new : ℕ} {file : VfsFile}
    (entry : Entry before fd a) (takes : Takes before after new file) : Entry after fd a := by
  obtain ⟨bound, old, here, node⟩ := entry
  refine ⟨bound, old, ?_, node⟩
  have other : fd ≠ new := by
    rintro rfl
    rw [takes.free] at here
    cases here
  rw [takes.table, Function.update_of_ne other, here]

variable {fd' r : ℤ} {count : ℕ}

section

variable (entry : Entry st.fdTable fd a)

include entry

theorem seek {file file' : VfsFile} (here : st.getFile fd' = some file)
    (node : file'.node = file.node) :
    Entry (Function.update st.fdTable fd'.toNat (some file')) fd a := by
  obtain ⟨bound, old, there, same⟩ := entry
  by_cases self : fd = fd'.toNat
  · refine ⟨bound, file', by rw [self, Function.update_self], ?_⟩
    unfold Vfs.getFile at here
    split_ifs at here
    rw [self, here] at there
    rw [node, Option.some.inj there, same]
  · exact ⟨bound, old, by rw [Function.update_of_ne self, there], same⟩

theorem vfsRead {dst dst' : Bytes} (done : st.vfsRead fd' dst count fuel = some (r, dst', st')) :
    Entry st'.fdTable fd a := by
  unfold Vfs.vfsRead at done
  cases here : st.getFile fd' with
  | none =>
    rw [here] at done
    cases done
    exact entry
  | some file =>
    rw [here] at done
    obtain ⟨⟨n, _, w⟩, -, ends⟩ := Option.map_eq_some_iff.mp done
    cases ends
    apply entry.seek here
    split_ifs <;> rfl

theorem vfsWrite {src : Bytes} (done : st.vfsWrite fd' src count fuel = some (r, st')) :
    Entry st'.fdTable fd a := by
  unfold Vfs.vfsWrite at done
  cases here : st.getFile fd' with
  | none =>
    rw [here] at done
    cases done
    exact entry
  | some file =>
    rw [here] at done
    by_cases readOnly : file.flags &&& oAccmode = 0
    · simp only [if_pos readOnly] at done
      cases done
      exact entry
    · simp only [if_neg readOnly] at done
      obtain ⟨⟨n, node', w⟩, -, ends⟩ := Option.map_eq_some_iff.mp done
      cases ends
      apply entry.seek here
      split_ifs <;> rfl

theorem vfsClose (other : (fd : ℤ) ≠ fd') : Entry (st.vfsClose fd').2.fdTable fd a := by
  obtain ⟨bound, old, there, node⟩ := entry
  refine ⟨bound, old, ?_, node⟩
  unfold Vfs.vfsClose Vfs.getFile
  by_cases range : fd' < 0 ∨ vfsMaxOpenFiles ≤ fd'
  · rw [if_pos range]
    exact there
  rw [if_neg range]
  have apart : fd ≠ fd'.toNat := by omega
  cases here : st.fdTable fd'.toNat with
  | none => exact there
  | some file =>
    simp only [freeFdEntry, here]
    split_ifs
    · exact (Function.update_of_ne apart _ _).trans there
    · exact (Function.update_of_ne apart _ _).trans there

end

end Entry

end Thuban.Vfs

import Thuban.Vfs.Ancestors

/-!
# Write confinement

Once the system is up, `is_path_writable` is meant to accept `/home/user` and what lies below it.  It
walks from a node up to the root and accepts when it meets a name `user` and later a name `home`,
wherever they stand in the path.
-/

namespace Thuban.Vfs

open Lib

/-- The names from the node at an address up to the root, whose own name is left out. -/
inductive Lineage (nodes : ℕ → VfsNode) : ℕ → List CString → Prop
  | root {a : ℕ} (top : (nodes a).parent = none) (name : (nodes a).name = rootPath) :
      Lineage nodes a []
  | child {a p : ℕ} {names : List CString} (up : (nodes a).parent = some p)
      (rest : Lineage nodes p names) : Lineage nodes a ((nodes a).name :: names)

/-- The path of these names is `/home/user` or lies below it. -/
def Below (names : List CString) : Prop := [user, home] <:+ names

instance (names : List CString) : Decidable (Below names) :=
  inferInstanceAs (Decidable ([user, home] <:+ names))

/-- There is a component `home` above a component `user`. -/
def HomeAboveUser (names : List CString) : Prop := [user, home].Sublist names

instance (names : List CString) : Decidable (HomeAboveUser names) :=
  inferInstanceAs (Decidable ([user, home].Sublist names))

/-- Some flag asks for a change of the file. -/
def Writing (flags : ℕ) : Prop := flags &&& (oWronly ||| oRdwr ||| oCreat ||| oTrunc ||| oAppend) ≠ 0

instance (flags : ℕ) : Decidable (Writing flags) := inferInstanceAs (Decidable (_ ≠ 0))

/-- The call ends with an error in the state `st`. -/
def Refused (call : ℕ → Option (ℤ × Vfs)) (st : Vfs) : Prop := ∃ r < 0, Converges call (r, st)

/-- Confinement at the node that the names lead to: `is_path_writable` accepts it exactly when it is
`/home/user` or lies below, nothing is created in it when it does not, and it is not changed or removed
when its directory does not.  A call that is refused does nothing but resolve its path, which ends in
the state `st`. -/
structure Confined (st : Vfs) (a : ℕ) (names : List CString) : Prop where
  writable : Converges (fun fuel => st.isPathWritable a fuel) (decide (Below names))
  mkdir : ¬Below names → ∀ {st₀ st₁ : Vfs} {path : CString} (mode : ℕ),
    Converges (fun fuel => st₀.resolvePath path fuel) (none, st₁) →
    Converges (fun fuel => st₁.resolvePath (splitPath path).1 fuel) (some a, st) →
    Refused (fun fuel => st₀.vfsMkdir path mode fuel) st
  create : ¬Below names → ∀ {st₀ st₁ : Vfs} {path : CString} (flags mode : ℕ),
    flags &&& oCreat ≠ 0 → Converges (fun fuel => st₀.resolvePath path fuel) (none, st₁) →
    Converges (fun fuel => st₁.resolvePath (splitPath path).1 fuel) (some a, st) →
    Refused (fun fuel => st₀.vfsOpen path flags mode fuel) st
  modify : ¬Below names.tail → ∀ {st₀ : Vfs} {path : CString} (flags mode : ℕ), Writing flags →
    Converges (fun fuel => st₀.resolvePath path fuel) (some a, st) →
    Refused (fun fuel => st₀.vfsOpen path flags mode fuel) st
  rmdir : ¬Below names.tail → ∀ {st₀ : Vfs} {path : CString},
    Converges (fun fuel => st₀.resolvePath path fuel) (some a, st) →
    Refused (fun fuel => st₀.vfsRmdir path fuel) st
  unlink : ¬Below names.tail → ∀ {st₀ : Vfs} {path : CString},
    Converges (fun fuel => st₀.resolvePath path fuel) (some a, st) →
    Refused (fun fuel => st₀.vfsUnlink path fuel) st

section Walk

variable {nodes : ℕ → VfsNode} {a : ℕ} {names : List CString}

theorem homeAboveUser_cons {name : CString} :
    HomeAboveUser (name :: names) ↔ HomeAboveUser names ∨ name = user ∧ home ∈ names := by
  unfold HomeAboveUser
  rw [List.cons_sublist_cons', List.singleton_sublist, eq_comm]

theorem writableWalk_none (nodes : ℕ → VfsNode) (foundUser : Bool) :
    Converges (writableWalk nodes · none foundUser) false :=
  .step (g := fun _ => some false) (fun _ => rfl) (.const fun _ => rfl)

theorem writableWalk_cycle {a b : ℕ} (up : (nodes a).parent = some b) (back : (nodes b).parent = some a)
    (names : (nodes a).name ≠ home ∧ (nodes b).name ≠ home) (fuel : ℕ) (foundUser : Bool) :
    writableWalk nodes fuel (some a) foundUser = none ∧
      writableWalk nodes fuel (some b) foundUser = none := by
  induction fuel generalizing foundUser with
  | zero => exact ⟨rfl, rfl⟩
  | succ fuel ih =>
    simp only [writableWalk, up, back, names.1, names.2, decide_false, Bool.and_false,
      Bool.false_eq_true, if_false]
    constructor
    · split_ifs
      · exact (ih _).2
      · exact (ih _).2
    · split_ifs
      · exact (ih _).1
      · exact (ih _).1

theorem writableWalk_user (h : Lineage nodes a names) :
    Converges (writableWalk nodes · (some a) true) (decide (home ∈ names)) := by
  induction h with
  | root top name =>
    refine .step (fun fuel => ?_) (writableWalk_none nodes true)
    simp only [writableWalk, name, top]
    rfl
  | @child a p names up rest ih =>
    by_cases isHome : (nodes a).name = home
    · refine .step (fun fuel => ?_) (.const fun _ => rfl)
      simp [writableWalk, isHome]
    · have same : decide (home ∈ (nodes a).name :: names) = decide (home ∈ names) := by
        simp [Ne.symm isHome]
      rw [same]
      refine .step (fun fuel => ?_) ih
      simp [writableWalk, isHome, up]

theorem writableWalk_lineage (h : Lineage nodes a names) :
    Converges (writableWalk nodes · (some a) false)
      (decide (HomeAboveUser names)) := by
  induction h with
  | root top name =>
    refine .step (fun fuel => ?_) (writableWalk_none nodes false)
    simp only [writableWalk, name, top]
    rfl
  | @child a p names up rest ih =>
    by_cases isUser : (nodes a).name = user
    · -- The first `user` from below is the one that counts: `home` has to be above it.
      have same : decide (HomeAboveUser ((nodes a).name :: names)) = decide (home ∈ names) := by
        rw [decide_eq_decide, homeAboveUser_cons]
        constructor
        · rintro (above | ⟨-, home⟩)
          · exact above.subset (by simp)
          · exact home
        · intro home
          exact .inr ⟨isUser, home⟩
      rw [same]
      refine .step (fun fuel => ?_) (writableWalk_user rest)
      simp [writableWalk, isUser, up]
    · have same : decide (HomeAboveUser ((nodes a).name :: names)) = decide (HomeAboveUser names) := by
        rw [decide_eq_decide, homeAboveUser_cons]
        simp [isUser]
      rw [same]
      refine .step (fun fuel => ?_) ih
      simp [writableWalk, isUser, up]

theorem Below.homeAboveUser (h : Below names) : HomeAboveUser names := h.sublist

theorem Below.of_tail (h : Below names.tail) : Below names := h.trans names.tail_suffix

theorem HomeAboveUser.of_tail (h : HomeAboveUser names.tail) : HomeAboveUser names :=
  List.Sublist.trans h names.tail_sublist

end Walk

section Refusal

variable {st st₀ st₁ : Vfs} {a : ℕ} {names : List CString} {path : CString}

section

variable (up : st.initComplete = true) (tree : Lineage st.peek a names)

include up tree

theorem isPathWritable_lineage :
    Converges (st.isPathWritable a ·) (decide (HomeAboveUser names)) := by
  refine (writableWalk_lineage tree).imp fun fuel ends => ?_
  simp only [isPathWritable, up, Bool.not_true]
  exact ends

theorem checkPermission_refused (outside : ¬HomeAboveUser names) {flags : ℕ}
    (writing : Writing flags) : Converges (st.checkPermission a flags ·) (-eAcces) := by
  refine (isPathWritable_lineage up tree).imp fun fuel ends => ?_
  unfold checkPermission
  simp only [ends, Option.map_some]
  exact (if_pos writing).trans (by simp [outside])

theorem inDirectory_refused (outside : ¬HomeAboveUser names) {missing : ℤ} (error : missing < 0)
    (act : Fat32.Fs → VfsNode → ℕ → World → Option (ℤ × World)) :
    Refused (st.inDirectory missing act a ·) st := by
  by_cases isDir : (st.peek a).isDirectory
  · refine ⟨-eAcces, by decide, ?_⟩
    have writing : Writing oWronly := by decide
    refine (checkPermission_refused up tree outside writing).imp fun fuel verdict => ?_
    simp only [inDirectory, isDir, Bool.not_true, verdict, Option.bind_some]
    rfl
  · refine ⟨missing, error, .const fun fuel => ?_⟩
    simp [inDirectory, isDir]

theorem removeNode_refused (outside : ¬HomeAboveUser names.tail)
    (remove : Fat32.Fs → VfsNode → CString → ℕ → World → Option (ℤ × World)) :
    Refused (st.removeNode remove a ·) st := by
  cases tree with
  | root top _ =>
    refine ⟨-ePerm, by decide, .const fun fuel => ?_⟩
    simp only [removeNode, top]
  | @child _ p names parent rest =>
    refine ⟨-eAcces, by decide, ?_⟩
    have writing : Writing oWronly := by decide
    refine (checkPermission_refused up rest outside writing).imp fun fuel verdict => ?_
    simp only [removeNode, parent, verdict, Option.bind_some]
    rfl

theorem openNode_refused (outside : ¬HomeAboveUser names) {flags : ℕ} (writing : Writing flags)
    (mode : ℕ) : Refused (st.openNode a flags mode ·) st := by
  by_cases isDir : (st.peek a).isDirectory ∧ flags &&& oDirectory = 0
  · refine ⟨-1, by decide, .const fun fuel => ?_⟩
    simp only [openNode, if_pos isDir]
  · refine ⟨-eAcces, by decide, ?_⟩
    refine (checkPermission_refused up tree outside writing).imp fun fuel verdict => ?_
    simp only [openNode, if_neg isDir, verdict, Option.map_some]
    rfl

end

theorem Refused.resolved {found : Option ℕ} {call next : ℕ → Option (ℤ × Vfs)}
    (resolves : Converges (st₀.resolvePath path ·) (found, st₁))
    (refused : Refused next st)
    (goes : ∀ fuel, st₀.resolvePath path fuel = some (found, st₁) → call fuel = next fuel) :
    Refused call st := by
  obtain ⟨r, error, ends⟩ := refused
  exact ⟨r, error, resolves.seq ends goes⟩

/-- A directory that the walk does not accept is confined. -/
theorem confined_of_outside (up : st.initComplete = true) (tree : Lineage st.peek a names)
    (outside : ¬HomeAboveUser names) : Confined st a names where
  writable := by
    have notBelow : ¬Below names := fun below => outside below.homeAboveUser
    have ends := isPathWritable_lineage up tree
    rw [decide_eq_false outside] at ends
    rw [decide_eq_false notBelow]
    exact ends
  mkdir _ {st₀ st₁ path} mode resolves parent := by
    have refused := inDirectory_refused up tree outside (by decide : -eNotdir < 0) fun fs node =>
      Fat32.mkdir fs node (splitPath path).2 (mode ||| sIfdir)
    obtain ⟨r, error, ends⟩ := refused
    refine ⟨r, error, ?_⟩
    exact resolves.bind (parent.bind ends)
  create _ {st₀ st₁ path} flags mode creat resolves parent := by
    have refused := inDirectory_refused up tree outside (by decide : (-1 : ℤ) < 0) fun fs node =>
      Fat32.create fs node (splitPath path).2 mode
    obtain ⟨r, error, ends⟩ := refused
    have creates : Converges (st₁.openCreate path mode ·)
        (.error (if r = -eAcces then -eAcces else -1), st) := by
      refine parent.bind (ends.bind (.const fun fuel => ?_))
      by_cases denied : r = -eAcces
      · simp only [if_pos denied]
      · simp only [if_neg denied, if_pos error.ne]
    refine ⟨if r = -eAcces then -eAcces else -1, by split_ifs <;> decide, ?_⟩
    refine resolves.bind ?_
    simp only [if_pos creat]
    exact creates.bind (.const fun _ => rfl)
  modify _ {st₀ path} flags mode writing resolves := by
    refine (openNode_refused up tree outside writing mode).resolved resolves fun fuel found => ?_
    simp [vfsOpen, found]
  rmdir _ {st₀ path} resolves := by
    have outsideTail : ¬HomeAboveUser names.tail := fun inside => outside inside.of_tail
    by_cases isDir : (st.peek a).isDirectory
    · refine (removeNode_refused up tree outsideTail Fat32.rmdir).resolved resolves
        fun fuel found => ?_
      simp [vfsRmdir, found, isDir]
    · refine ⟨-eNotdir, by decide, resolves.imp fun fuel found => ?_⟩
      simp [vfsRmdir, found, isDir]
  unlink _ {st₀ path} resolves := by
    have outsideTail : ¬HomeAboveUser names.tail := fun inside => outside inside.of_tail
    by_cases isDir : (st.peek a).isDirectory
    · refine ⟨-eIsdir, by decide, resolves.imp fun fuel found => ?_⟩
      simp [vfsUnlink, found, isDir]
    · refine (removeNode_refused up tree outsideTail Fat32.unlink).resolved resolves
        fun fuel found => ?_
      simp [vfsUnlink, found, isDir]

end Refusal

section Acceptance

variable {st : Vfs} {a : ℕ} {names : List CString}

theorem checkPermission_accepted (up : st.initComplete = true) (tree : Lineage st.peek a names)
    (inside : HomeAboveUser names) (mode : (st.peek a).mode &&& sIwusr ≠ 0) :
    Converges (st.checkPermission a (oWronly ||| oDirectory) ·) 0 := by
  refine (isPathWritable_lineage up tree).imp fun fuel ends => ?_
  unfold checkPermission
  simp only [ends, Option.map_some]
  have writing : (oWronly ||| oDirectory) &&& (oWronly ||| oRdwr ||| oCreat ||| oTrunc ||| oAppend)
      ≠ 0 := by decide
  have notReading : ¬((oWronly ||| oDirectory) &&& oRdwr ≠ 0 ∧ (st.peek a).mode &&& sIrusr = 0) := by
    intro reading
    exact reading.1 (by decide)
  rw [if_pos writing, if_neg notReading, if_neg mode]
  simp [inside]

theorem oom_ne_of_failed {w w' : World} {size : ℕ} (pos : size ≠ 0)
    (failed : w.malloc size = (none, w')) : w'.heap.oom ≠ w.heap.oom := by
  unfold World.malloc at failed
  rw [if_neg pos] at failed
  split at failed
  · rename_i later outcomes
    cases failed
    rw [outcomes]
    exact (List.cons_ne_self true later).symm
  · cases failed

theorem allocFd_world (file : VfsFile) (st : Vfs) : (st.allocFd file).2.world = st.world := by
  unfold allocFd
  split <;> rfl

theorem openNode_accepted (up : st.initComplete = true) (tree : Lineage st.peek a names)
    (inside : HomeAboveUser names) (writable : (st.peek a).mode &&& sIwusr ≠ 0) (mode : ℕ) :
    ¬Refused (st.openNode a (oWronly ||| oDirectory) mode ·) st := by
  rintro ⟨r, -, ends⟩
  obtain ⟨enough, permitted⟩ := checkPermission_accepted up tree inside writable
  obtain ⟨bound, answer⟩ := ends
  have verdict := permitted (max enough bound) (le_max_left _ _)
  have done := answer (max enough bound) (le_max_right _ _)
  have directory : ¬((st.peek a).isDirectory ∧ (oWronly ||| oDirectory) &&& oDirectory = 0) :=
    fun wrong => absurd wrong.2 (by decide)
  have keepsSize : ¬(oWronly ||| oDirectory) &&& oTrunc ≠ 0 := by decide
  simp only [openNode, if_neg directory, verdict, Option.map_some, if_neg keepsSize] at done
  rcases first : st.world.malloc vfsFileSize with ⟨_ | file, w⟩
  · simp only [first] at done
    have world : w = st.world := congrArg (·.2.world) (Option.some.inj done)
    exact oom_ne_of_failed (by decide) first (by rw [world])
  · obtain ⟨-, here, next, -⟩ := (World.Keeps.refl st.world).malloc first
    simp only [first, ne_eq, not_true_eq_false, if_false] at done
    have same := congrArg (·.2.world.heap.next) (Option.some.inj done)
    -- Neither `vfs_alloc_fd` nor the `free` behind its failure takes the address back.
    have grown : st.world.heap.next = file + 1 := by
      rw [← next, ← same]
      split_ifs <;> simp [setWorld, allocFd_world]
    omega

end Acceptance

section Reached

variable {st st₀ : Vfs} {path : CString} {a : ℕ} {names : List CString}

theorem Lineage.peek (tree : Lineage st.nodes a names)
    (live : ∀ b, Above st.nodes a b → b ∈ st.world.heap.live) : Lineage st.peek a names := by
  induction tree with
  | @root a top name =>
    rw [← peek_live (live a .refl)] at top name
    exact .root top name
  | @child a p names up rest ih =>
    have here := peek_live (live a .refl)
    have above := ih fun b further => live b (.head up further)
    rw [← here] at up ⊢
    exact .child up above

/-- The nodes above the node that is found are allocated. -/
theorem allocated_above (ok : st₀.world.heap.Ok)
    (standing : ∀ start rel, st₀.origin path = some (start, rel) → st₀.Standing start)
    (within : ∀ fuel, ¬ st₀.Overreaches path fuel)
    (reached : Converges (fun fuel => st₀.resolvePath path fuel) (some a, st)) :
    st.initComplete = st₀.initComplete ∧ ∀ b, Above st.nodes a b → b ∈ st.world.heap.live := by
  obtain ⟨fuel, done⟩ := reached
  have done : st₀.resolvePath path fuel = some (some a, st) := done fuel le_rfl
  refine ⟨(resolvePath_tables done).initComplete, ?_⟩
  cases begins : st₀.origin path with
  | none =>
    rw [resolvePath_eq, begins] at done
    cases done
  | some begin =>
    obtain ⟨start, rel⟩ := begin
    have intact := (resolvePath_intact ok begins (standing start rel begins) done).mpr fun strays =>
      within fuel ⟨start, rel, begins, strays⟩
    exact intact.1 a rfl

end Reached

/-- Confinement holds at the node that a path leads to if and only if its directory is `/home/user` or
lies below, or no `home` stands above a `user` in its path.  The path does not overreach, so that the
nodes above are allocated. -/
theorem confined_iff {st st₀ : Vfs} {path : CString} {a : ℕ} {names : List CString}
    (ok : st₀.world.heap.Ok)
    (standing : ∀ start rel, st₀.origin path = some (start, rel) → st₀.Standing start)
    (within : ∀ fuel, ¬ st₀.Overreaches path fuel)
    (reached : Converges (fun fuel => st₀.resolvePath path fuel) (some a, st))
    (up : st₀.initComplete = true) (tree : Lineage st.nodes a names)
    (writable : (st.nodes a).mode &&& sIwusr ≠ 0) :
    Confined st a names ↔ Below names.tail ∨ ¬HomeAboveUser names := by
  obtain ⟨same, live⟩ := allocated_above ok standing within reached
  have up := same.trans up
  have tree := tree.peek live
  rw [← peek_live (live a .refl)] at writable
  constructor
  · intro confined
    by_contra neither
    obtain ⟨outside, inside⟩ := not_or.mp neither
    rw [not_not] at inside
    -- The walk accepts the node, `/home/user` itself among others: it can be opened for writing.
    apply openNode_accepted up tree inside writable 0
    obtain ⟨r, error, ends⟩ := confined.modify outside (oWronly ||| oDirectory) 0 (by decide) reached
    refine ⟨r, error, reached.seq ends fun fuel found => ?_⟩
    simp [vfsOpen, found]
  · rintro (below | outside)
    · have inside := below.of_tail
      have ends := isPathWritable_lineage up tree
      rw [decide_eq_true inside.homeAboveUser] at ends
      refine ⟨?_, absurd inside, absurd inside, absurd below, absurd below, absurd below⟩
      rw [decide_eq_true inside]
      exact ends
    · exact confined_of_outside up tree outside

/-- The nodes of `/`, `/home`, `/home/user` and `/home/user/a`, which is the current directory. -/
def inHome : Vfs :=
  let root := Fat32.rootNode Fat32.smallFs 1 2 0
  { mounted with
    world :=
      { mounted.world with
        heap := { mounted.world.heap with next := 9, live := [8, 7, 6, 5, 4, 3, 2, 1] } }
    nodes := fun
      | 3 => { root with addr := 3, fsDataAddr := 4, name := home, parent := some 1 }
      | 5 => { root with addr := 5, fsDataAddr := 6, name := user, parent := some 3 }
      | 7 => { root with addr := 7, fsDataAddr := 8, name := [0x61], parent := some 5 }
      | _ => root
    cwd := some 7
    initComplete := true }

theorem standing_inHome : inHome.Standing 7 := by
  intro b up
  have all : ∀ a ∈ [7, 5, 3, 1], a ∈ inHome.world.heap.live ∧ (inHome.nodes a).addr = a := by decide
  exact all b (up.mem_of_closed (by decide) (by decide))

theorem confined_iff_inHome : Confined inHome 7 [[0x61], user, home] := by
  have reached : Converges (fun fuel => inHome.resolvePath here fuel) (some 7, inHome) :=
    .const fun _ => by rfl
  have tree : Lineage inHome.nodes 7 [[0x61], user, home] :=
    .child rfl (.child rfl (.child rfl (.root rfl rfl)))
  have begins : inHome.origin here = some (7, here) := rfl
  have parts : tokens here = [here] := by decide +kernel
  refine (confined_iff ⟨by decide, by decide⟩ ?_ ?_ reached rfl tree (by decide)).mpr
    (.inl (by decide))
  · intro start rel begins'
    obtain ⟨rfl, -⟩ := Prod.mk.inj (Option.some.inj (begins.symm.trans begins'))
    exact standing_inHome
  · rintro fuel ⟨start, rel, begins', strays⟩
    obtain ⟨rfl, rfl⟩ := Prod.mk.inj (Option.some.inj (begins.symm.trans begins'))
    have leads : ∀ ts, follow inHome.nodes inHome.supers fuel (here :: ts) ⟨7, []⟩ inHome.world =
        follow inHome.nodes inHome.supers fuel ts ⟨7, []⟩ inHome.world := follow_here rfl
    rw [parts, strays_cons (by decide) leads, strays_nil] at strays
    exact absurd strays (by decide)

/-- The path `/home/a/user`. -/
def pathHomeAUser : CString := rootPath ++ home ++ pathA ++ rootPath ++ user

/-- The directories `/home`, `/home/a` and `/home/a/user` have been made before the system is up; the
current directory was changed to `/home` and on to `a`. -/
def strayUser : Vfs :=
  (((((mounted.vfsMkdir (rootPath ++ home) 0o755 9).bind fun r =>
    r.2.vfsMkdir (rootPath ++ home ++ pathA) 0o755 9).bind fun r =>
    r.2.vfsMkdir pathHomeAUser 0o755 9).bind fun r =>
    (r.2.cmdCd (rootPath ++ home) 9).bind fun st => st.cmdCd [0x61] 9).map fun st =>
      { st with initComplete := true }).getD mounted

/-- The path `/home/user/a`. -/
def pathHomeUserA : CString := rootPath ++ home ++ rootPath ++ user ++ pathA

/-- The directories `/home`, `/home/user` and `/home/user/a` have been made before the system is up.  The
memory of a freed node shows the node of `/home/user`, whose parent has given way to the node of
`/home/user/a`. -/
def deepUser : Vfs :=
  ((((mounted.vfsMkdir (rootPath ++ home) 0o755 9).bind fun r =>
    r.2.vfsMkdir (rootPath ++ home ++ rootPath ++ user) 0o755 9).bind fun r =>
    r.2.vfsMkdir pathHomeUserA 0o755 9).map fun r =>
      { r.2 with
        ruins := fun _ _ =>
          { Fat32.rootNode Fat32.smallFs 1 2 0 with name := user, parent := some 40 }
        initComplete := true }).getD mounted

/-- From the directory `/home/a`, `user` is accepted, and a directory is made in it.  The node of
`/home/user/a` has a parent that was freed, and the walk up from it need not end. -/
theorem written_outside : strayUser.initComplete = true ∧
    (∃ a st, strayUser.resolvePath user 9 = some (some a, st) ∧
      Lineage st.nodes a [user, [0x61], home] ∧ ¬Below [user, [0x61], home] ∧
      (∀ b, Above st.nodes a b → b ∈ st.world.heap.live) ∧ st.isPathWritable a 9 = some true) ∧
    (strayUser.vfsMkdir (user ++ pathA) 0o755 9).map Prod.fst = some 0 ∧
    ∃ a st, deepUser.resolvePath pathHomeUserA 9 = some (some a, st) ∧
      ∀ fuel, st.isPathWritable a fuel = none := by
  refine ⟨by decide +kernel, ?_, by decide +kernel, ?_⟩
  · have evaluated : (strayUser.resolvePath user 9).map (fun r =>
        (r.1, [40, 37, 34, 1].map fun a => ((r.2.nodes a).name, (r.2.nodes a).parent),
          r.2.isPathWritable 40 9)) =
        some (some 40, [(user, some 37), ([0x61], some 34), (home, some 1), (rootPath, none)],
          some true) := by decide +kernel
    have allocated : ((strayUser.resolvePath user 9).all fun r =>
        [40, 37, 34, 1].all fun a => decide (a ∈ r.2.world.heap.live)) = true := by decide +kernel
    obtain ⟨⟨r, st⟩, done, facts⟩ := Option.map_eq_some_iff.mp evaluated
    simp only [List.map_cons, List.map_nil, Prod.mk.injEq, List.cons.injEq] at facts
    obtain ⟨rfl, ⟨⟨userName, up₁⟩, ⟨aName, up₂⟩, ⟨homeName, up₃⟩, ⟨rootName, top⟩, -⟩, accepted⟩ :=
      facts
    refine ⟨40, st, done, ?_, by decide, fun b up => ?_, accepted⟩
    · rw [← userName, ← aName, ← homeName]
      exact .child up₁ (.child up₂ (.child up₃ (.root top rootName)))
    · rw [done] at allocated
      have mem := up.mem_of_closed (l := [40, 37, 34, 1]) (by simp [up₁, up₂, up₃, top]) (by decide)
      exact of_decide_eq_true (List.all_eq_true.mp allocated b mem)
  · have evaluated : (deepUser.resolvePath pathHomeUserA 9).map (fun r =>
        (r.1, [40, 37].map fun a => ((r.2.peek a).name, (r.2.peek a).parent), r.2.initComplete)) =
        some (some 40, [([0x61], some 37), (user, some 40)], true) := by decide +kernel
    obtain ⟨⟨r, st⟩, done, facts⟩ := Option.map_eq_some_iff.mp evaluated
    simp only [List.map_cons, List.map_nil, Prod.mk.injEq, List.cons.injEq] at facts
    obtain ⟨rfl, ⟨⟨aName, up⟩, ⟨userName, back⟩, -⟩, complete⟩ := facts
    refine ⟨40, st, done, fun fuel => ?_⟩
    rw [isPathWritable, complete]
    exact (writableWalk_cycle up back ⟨by rw [aName]; decide, by rw [userName]; decide⟩ fuel false).1

end Thuban.Vfs

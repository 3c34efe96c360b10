import Thuban.Vfs.Ancestors
import Thuban.Vfs.Store

/-!
# Nodes that the kernel refers to

The roots of the mounts and the current directory are shared: a path may lead to one of them, and then
`vfs_stat` and `vfs_mkdir` free it as if they had looked it up.
-/

namespace Thuban.Vfs

open Lib (Bytes Run)
open World (Keeps)

/-- The path leads to the shared node at `a` itself. -/
def Reaches (path : CString) (fuel : ℕ) (st : Vfs) (a : ℕ) : Prop :=
  ∃ p w', st.leads path fuel = some (some p, w') ∧ p.trail = [] ∧ p.base = a

inductive PathCall
  | stat (path : CString)
  | mkdir (path : CString) (mode : ℕ)
  | openFile (path : CString) (flags mode : ℕ)
  | rmdir (path : CString)
  | unlink (path : CString)
  deriving DecidableEq, Repr

namespace PathCall

def run (fuel : ℕ) : PathCall → Vfs → Option Vfs
  | stat path, st => (st.vfsStat path fuel).map fun r => r.2.2
  | mkdir path mode, st => (st.vfsMkdir path mode fuel).map Prod.snd
  | openFile path flags mode, st => (st.vfsOpen path flags mode fuel).map Prod.snd
  | rmdir path, st => (st.vfsRmdir path fuel).map Prod.snd
  | unlink path, st => (st.vfsUnlink path fuel).map Prod.snd

/-- `vfs_mkdir` gets no path to a shared node, and `vfs_stat` none to the root of a mount other than
the current directory. -/
def Spares (fuel : ℕ) (st : Vfs) : PathCall → Prop
  | stat path => ∀ a, st.Shared a → some a ≠ st.cwd → ¬ st.Reaches path fuel a
  | mkdir path _ => ∀ a, st.Shared a → ¬ st.Reaches path fuel a
  | _ => True

/-- The resolutions of the call read no freed node; `vfs_rmdir` and `vfs_unlink` go on to the directory
above the node that they find. -/
def Safe (st : Vfs) : PathCall → Prop
  | stat path => st.Safe path []
  | mkdir path _ => st.Safe path [] ∧ st.Safe (splitPath path).1 []
  | openFile path flags _ =>
      st.Safe path [] ∧ (flags &&& oCreat ≠ 0 → st.Safe (splitPath path).1 [])
  | rmdir path => st.Safe path [above]
  | unlink path => st.Safe path [above]

end PathCall

theorem sharedLive_freeNode {st : Vfs} (live : st.SharedLive) (formed : WellFormed st) {a : ℕ}
    (node : st.IsNode a) (alloc : st.Allocated a) :
    (st.freeNode a).SharedLive ↔ ¬ st.Shared a := by
  constructor
  · intro kept shared
    exact leave_dead formed.ok node (kept a shared).1
  · intro other b shared
    refine (live b shared).freeNode formed (formed.shared b shared).1 node alloc.1 fun same => other ?_
    exact same ▸ shared

section Reached

variable {path : CString} {more : List CString} {fuel addr : ℕ} {st st₁ : Vfs}
  (formed : WellFormed st) (live : st.SharedLive) (safe : st.Safe path more)

include formed live safe

section

variable (resolved : st.resolvePath path fuel = some (some addr, st₁))

include resolved

theorem shared_resolved : st.Shared addr ↔ ∃ a, st.Shared a ∧ st.Reaches path fuel a ∧ a = addr := by
  obtain ⟨-, place, w, leads, result, found⟩ := resolvePath_carries formed live safe resolved
  obtain ⟨p, same, rfl⟩ := Option.map_eq_some_iff.mp result.symm
  obtain ⟨owned, walks⟩ := found p same
  rw [same] at leads
  constructor
  · intro shared
    have bottom : p.trail = [] := by
      by_contra below
      have := (formed.bound _ (formed.shared _ shared).1).1
      have := walks.tracks.new_of_trail below
      rw [walks.tracks.node_addr] at this
      omega
    refine ⟨p.addr, shared, ⟨p, w, leads, bottom, ?_⟩, rfl⟩
    obtain ⟨start, trail⟩ := p
    obtain rfl : trail = [] := bottom
    rfl
  · rintro ⟨a, shared, -, rfl⟩
    exact shared

theorem reaches_resolved {a : ℕ} (reaches : st.Reaches path fuel a) : a = addr := by
  obtain ⟨-, place, w, leads, result, -⟩ := resolvePath_carries formed live safe resolved
  obtain ⟨p, w', leads', bottom, rfl⟩ := reaches
  rw [leads] at leads'
  obtain ⟨rfl, -⟩ := Prod.mk.inj (Option.some.inj leads')
  obtain ⟨start, trail⟩ := p
  obtain rfl : trail = [] := bottom
  exact (Option.some.inj result).symm

end

theorem not_reaches_of_none (resolved : st.resolvePath path fuel = some (none, st₁)) (a : ℕ) :
    ¬ st.Reaches path fuel a := by
  obtain ⟨-, place, w, leads, result, -⟩ := resolvePath_carries formed live safe resolved
  rintro ⟨p, w', leads', -⟩
  rw [leads] at leads'
  obtain ⟨rfl, -⟩ := Prod.mk.inj (Option.some.inj leads')
  cases result

end Reached

/-! ## One call -/

/-- A safe call keeps the shared nodes if and only if it spares them. -/
theorem PathCall.run_spec {call : PathCall} {fuel : ℕ} {st st' : Vfs} (formed : WellFormed st)
    (live : st.SharedLive) (safe : call.Safe st) (done : call.run fuel st = some st') :
    WellFormed st' ∧ (st'.SharedLive ↔ call.Spares fuel st) := by
  have harmless : Carries st st' → WellFormed st' ∧ (st'.SharedLive ↔ True) := fun carries =>
    ⟨carries.formed, iff_true_intro (live.carries formed carries)⟩
  cases call with
  | stat path =>
    obtain ⟨r, called, rfl⟩ := Option.map_eq_some_iff.mp done
    obtain ⟨⟨found, st₁⟩, resolved, ends⟩ := Option.map_eq_some_iff.mp called
    cases found with
    | none =>
      cases ends
      have carries := (resolvePath_carries formed live safe resolved).1
      exact ⟨carries.formed, iff_of_true (live.carries formed carries) fun a _ _ =>
        not_reaches_of_none formed live safe resolved a⟩
    | some addr =>
      cases ends
      obtain ⟨carries, node, alloc⟩ := resolvePath_found formed live safe resolved
      have live₁ := live.carries formed carries
      dsimp only
      rw [carries.cwd]
      split_ifs with other
      · refine ⟨carries.formed.freeNode addr, ?_⟩
        rw [sharedLive_freeNode live₁ carries.formed node alloc, carries.shared_iff]
        constructor
        · intro unshared a shared _ reaches
          exact unshared (reaches_resolved formed live safe resolved reaches ▸ shared)
        · intro spares shared
          obtain ⟨a, shared', reaches, rfl⟩ :=
            (shared_resolved formed live safe resolved).mp shared
          exact spares a shared' other reaches
      · refine ⟨carries.formed, iff_of_true live₁ fun a _ notCwd reaches => notCwd ?_⟩
        rw [reaches_resolved formed live safe resolved reaches]
        exact not_not.mp other
  | mkdir path mode =>
    obtain ⟨⟨r, st''⟩, called, rfl⟩ := Option.map_eq_some_iff.mp done
    obtain ⟨⟨found, st₁⟩, resolved, ends⟩ := Option.bind_eq_some_iff.mp called
    obtain ⟨safe, safeDir⟩ := safe
    cases found with
    | none =>
      have carries := mkdirNew_carries formed live safe safeDir resolved called
      exact ⟨carries.formed, iff_of_true (live.carries formed carries) fun a _ =>
        not_reaches_of_none formed live safe resolved a⟩
    | some addr =>
      cases ends
      obtain ⟨carries, node, alloc⟩ := resolvePath_found formed live safe resolved
      refine ⟨carries.formed.freeNode addr, ?_⟩
      rw [sharedLive_freeNode (live.carries formed carries) carries.formed node alloc,
        carries.shared_iff]
      constructor
      · intro unshared a shared reaches
        exact unshared (reaches_resolved formed live safe resolved reaches ▸ shared)
      · intro spares shared
        obtain ⟨a, shared', reaches, rfl⟩ := (shared_resolved formed live safe resolved).mp shared
        exact spares a shared' reaches
  | openFile path flags mode =>
    obtain ⟨⟨r, st''⟩, called, rfl⟩ := Option.map_eq_some_iff.mp done
    exact harmless (vfsOpen_carries formed live safe.1 safe.2 called)
  | rmdir path =>
    obtain ⟨⟨r, st''⟩, called, rfl⟩ := Option.map_eq_some_iff.mp done
    exact harmless (vfsRmdir_carries formed live safe called)
  | unlink path =>
    obtain ⟨⟨r, st''⟩, called, rfl⟩ := Option.map_eq_some_iff.mp done
    exact harmless (vfsUnlink_carries formed live safe called)

/-! ## Runs -/

/-- The node of the descriptor is allocated. -/
def Held (st : Vfs) (fd : ℤ) : Prop := ∀ file, st.getFile fd = some file → st.Allocated file.node

/-- The calls that lead from one state of the virtual file system to another. -/
inductive Call
  | path (call : PathCall)
  | cd (target : CString)
  | close (fd : ℤ)
  | read (fd : ℤ) (dst : Bytes) (count : ℕ)
  | write (fd : ℤ) (src : Bytes) (count : ℕ)
  | lseek (fd offset : ℤ) (whence : ℕ)

namespace Call

def run (fuel : ℕ) : Call → Vfs → Option Vfs
  | path call, st => call.run fuel st
  | cd target, st => st.cmdCd target fuel
  | close fd, st => some (st.vfsClose fd).2
  | read fd dst count, st => (st.vfsRead fd dst count fuel).map fun r => r.2.2
  | write fd src count, st => (st.vfsWrite fd src count fuel).map Prod.snd
  | lseek fd offset whence, st => some (st.vfsLseek fd offset whence).2

def Spares (fuel : ℕ) (st : Vfs) : Call → Prop
  | path call => call.Spares fuel st
  | _ => True

/-- The call reads no freed node on its way; the node of its descriptor is allocated. -/
def Safe (st : Vfs) : Call → Prop
  | path call => call.Safe st
  | cd target => st.Safe target []
  | close fd => st.Held fd
  | read fd _ _ => st.Held fd
  | write fd _ _ => st.Held fd
  | lseek fd _ _ => st.Held fd

end Call

variable {st st' : Vfs} {a fuel : ℕ} {target : CString} {fd : ℤ}

theorem shared_cd {b : ℕ} (shared : ({ st with cwd := some a } : Vfs).Shared b) :
    b = a ∨ st.Shared b := by
  rcases shared with here | mounted
  · exact .inl (Option.some.inj here).symm
  · exact .inr (.inr mounted)

theorem WellFormed.cd (formed : WellFormed st) (node : st.IsNode a)
    (directory : (st.nodes a).isDirectory = true) : WellFormed { st with cwd := some a } := by
  refine ⟨formed.ok, formed.bound, formed.parent, formed.apart, formed.injective, fun b shared => ?_,
    formed.files⟩
  rcases shared_cd shared with rfl | shared
  · exact ⟨node, directory⟩
  · exact formed.shared b shared

theorem cmdCd_cases (done : st.cmdCd target fuel = some st') :
    st.resolvePath target fuel = some (none, st') ∨
      ∃ addr st₁, st.resolvePath target fuel = some (some addr, st₁) ∧
        ((st₁.peek addr).isDirectory = false ∧ st' = st₁.freeNode addr ∨
          (st₁.peek addr).isDirectory = true ∧ st' = { st₁ with cwd := some addr }) := by
  obtain ⟨⟨found, st₁⟩, resolved, ends⟩ := Option.map_eq_some_iff.mp done
  cases found with
  | none =>
    cases ends
    exact .inl resolved
  | some addr =>
    refine .inr ⟨addr, st₁, resolved, ?_⟩
    cases directory : (st₁.peek addr).isDirectory with
    | false =>
      simp only [directory, Bool.not_false, if_true] at ends
      exact .inl ⟨rfl, ends.symm⟩
    | true =>
      simp only [directory, vfsSetCwd, Bool.not_true, Bool.false_eq_true, if_false] at ends
      exact .inr ⟨rfl, ends.symm⟩

theorem cd_tidy (formed : WellFormed st) (live : st.SharedLive) (safe : st.Safe target [])
    (done : st.cmdCd target fuel = some st') : WellFormed st' ∧ st'.SharedLive := by
  rcases cmdCd_cases done with resolved | ⟨addr, st₁, resolved, kind⟩
  · have carries := (resolvePath_carries formed live safe resolved).1
    exact ⟨carries.formed, live.carries formed carries⟩
  obtain ⟨carries, node, alloc⟩ := resolvePath_found formed live safe resolved
  have live₁ := live.carries formed carries
  rw [peek_live alloc.1] at kind
  rcases kind with ⟨file, rfl⟩ | ⟨directory, rfl⟩
  · refine ⟨carries.formed.freeNode _, (sharedLive_freeNode live₁ carries.formed node alloc).mpr ?_⟩
    intro shared
    rw [(carries.formed.shared _ shared).2] at file
    cases file
  · refine ⟨carries.formed.cd node directory, fun b shared => ?_⟩
    rcases shared_cd shared with rfl | shared
    · exact alloc
    · exact live₁ b shared

theorem vfsClose_cases (fd : ℤ) (st : Vfs) :
    (st.vfsClose fd).2 = st ∨ ∃ file, st.getFile fd = some file ∧
      ((st.vfsClose fd).2 = st.setFd fd.toNat none ∨
        (st.vfsClose fd).2 = (st.setFd fd.toNat none).setWorld (st.world.free file.addr)) := by
  unfold vfsClose
  cases here : st.getFile fd with
  | none => exact .inl rfl
  | some file =>
    have entry : st.fdTable fd.toNat = some file := by
      unfold getFile at here
      split_ifs at here
      exact here
    refine .inr ⟨file, rfl, ?_⟩
    simp only [freeFdEntry, entry]
    split_ifs
    · exact .inr rfl
    · exact .inl rfl

theorem close_formed (formed : WellFormed st) : WellFormed (st.vfsClose fd).2 := by
  have closed : WellFormed (st.setFd fd.toNat none) := formed.setFd fd.toNat nofun
  rcases vfsClose_cases fd st with same | ⟨file, -, same | same⟩
  · rw [same]
    exact formed
  · exact same ▸ closed
  · exact same ▸ closed.setWorld (World.free_ok formed.ok _) (World.free_next _ _).ge

theorem close_tidy (formed : WellFormed st) (live : st.SharedLive) :
    WellFormed (st.vfsClose fd).2 ∧ (st.vfsClose fd).2.SharedLive := by
  refine ⟨close_formed formed, ?_⟩
  rcases vfsClose_cases fd st with same | ⟨file, here, same | same⟩
  · rw [same]
    exact live
  · exact same ▸ live
  · rw [same]
    intro a shared
    obtain ⟨notNode, notData⟩ := (getFile_fits formed here).2.2 a (formed.shared a shared).1
    obtain ⟨alloc, data⟩ := live a shared
    exact ⟨(World.mem_free_of_ne _ notNode.symm).mpr alloc,
      (World.mem_free_of_ne _ notData.symm).mpr data⟩

theorem Call.run_tidy {call : Call} (formed : WellFormed st) (live : st.SharedLive)
    (safe : call.Safe st) (spares : call.Spares fuel st) (done : call.run fuel st = some st') :
    WellFormed st' ∧ st'.SharedLive := by
  have carried : Carries st st' → WellFormed st' ∧ st'.SharedLive := fun carries =>
    ⟨carries.formed, live.carries formed carries⟩
  cases call with
  | path call =>
    obtain ⟨formed', kept⟩ := call.run_spec formed live safe done
    exact ⟨formed', kept.mpr spares⟩
  | cd target => exact cd_tidy formed live safe done
  | close fd =>
    cases done
    exact close_tidy formed live
  | read fd dst count =>
    obtain ⟨⟨r, dst', st''⟩, called, rfl⟩ := Option.map_eq_some_iff.mp done
    exact carried (vfsRead_carries formed called)
  | write fd src count =>
    obtain ⟨⟨r, st''⟩, called, rfl⟩ := Option.map_eq_some_iff.mp done
    exact carried (vfsWrite_carries formed called)
  | lseek fd offset whence =>
    cases done
    exact carried (vfsLseek_carries formed)

/-- In every run of safe calls that spare the shared nodes these stay allocated, and any further safe
call with a path keeps them allocated if and only if it spares them. -/
theorem shared_nodes_kept {st st' : Vfs} {calls : List (Call × ℕ)} (formed : WellFormed st)
    (live : st.SharedLive)
    (run : Run (fun st c st' => (c.1.Safe st ∧ c.1.Spares c.2 st) ∧ c.1.run c.2 st = some st') st
      calls st') :
    st'.SharedLive ∧ ∀ (call : PathCall) (fuel : ℕ) (st'' : Vfs), call.Safe st' →
      call.run fuel st' = some st'' → (st''.SharedLive ↔ call.Spares fuel st') := by
  obtain ⟨formed', live'⟩ := run.invariant (P := fun st => WellFormed st ∧ st.SharedLive)
    (fun _ _ _ tidy step => Call.run_tidy tidy.1 tidy.2 step.1.1 step.1.2 step.2) ⟨formed, live⟩
  exact ⟨live', fun call fuel st'' safe done => (call.run_spec formed' live' safe done).2⟩

theorem shared_mounted (shared : mounted.Shared a) : a = 1 := by
  rcases shared with here | ⟨mount, mem, root⟩
  · exact (Option.some.inj here).symm
  · obtain rfl := List.mem_singleton.mp mem
    exact root.symm

theorem formed_mounted : WellFormed mounted := by
  have only : ∀ a, mounted.IsNode a → a = 1 := fun a node => node.symm
  refine ⟨⟨by decide, by decide⟩, fun a node => ?_, nofun, fun a b ha hb => ?_, fun a b ha hb _ => ?_,
    fun a shared => ?_, nofun⟩
  · rw [only a node]
    exact ⟨by decide, by decide⟩
  · rw [only b hb]
    exact (by decide : (2 : ℕ) ≠ 1)
  · rw [only a ha, only b hb]
  · rw [shared_mounted shared]
    exact ⟨rfl, by decide⟩

theorem live_mounted : mounted.SharedLive := fun a shared => by
  rw [shared_mounted shared]
  exact ⟨by decide, by decide⟩

/-- The directory `/a` has been made. -/
def oneDirectory : Vfs := ((mounted.vfsMkdir pathA 0o755 9).map Prod.snd).getD mounted

theorem mkdir_oneDirectory : (PathCall.mkdir pathA 0o755).run 9 mounted = some oneDirectory := by
  have evaluated : ((mounted.vfsMkdir pathA 0o755 9).map Prod.snd).isSome = true := by decide +kernel
  obtain ⟨st, here⟩ := Option.isSome_iff_exists.mp evaluated
  rw [PathCall.run, oneDirectory, here]
  rfl

theorem not_reaches_of_depth {path : CString}
    (depth : ((st.leads path fuel).map fun r => r.1.all fun p => !p.trail.isEmpty) = some true)
    (a : ℕ) : ¬ st.Reaches path fuel a := by
  rintro ⟨p, w', leads, bottom, -⟩
  rw [leads] at depth
  have entered : (!p.trail.isEmpty) = true := Option.some.inj depth
  rw [bottom] at entered
  cases entered

theorem safe_of_origin {path rel : CString} {start : ℕ} (begins : st.origin path = some (start, rel))
    (names : above ∉ tokens rel) : st.Safe path [] := by
  intro start' rel' begins'
  obtain ⟨-, rfl⟩ := Prod.mk.inj (Option.some.inj (begins.symm.trans begins'))
  rw [List.append_nil]
  exact climbs_of_notMem names

/-- The directory `/a` is made and looked at. -/
theorem shared_nodes_kept_oneDirectory :
    ∃ st', (PathCall.stat pathA).run 9 oneDirectory = some st' ∧ st'.SharedLive := by
  have looked : ((PathCall.stat pathA).run 9 oneDirectory).isSome = true := by decide +kernel
  obtain ⟨st', done⟩ := Option.isSome_iff_exists.mp looked
  have spares : (Call.path (.mkdir pathA 0o755)).Spares 9 mounted := fun a _ =>
    not_reaches_of_depth (by decide +kernel) a
  have safe : (Call.path (.mkdir pathA 0o755)).Safe mounted := by
    have begins : mounted.origin pathA = some (1, [0x61]) := by decide +kernel
    have beginsDir : mounted.origin (splitPath pathA).1 = some (1, []) := by decide +kernel
    exact ⟨safe_of_origin begins (by decide +kernel), safe_of_origin beginsDir (by decide +kernel)⟩
  have run : Run (fun st (c : Call × ℕ) st' =>
      (c.1.Safe st ∧ c.1.Spares c.2 st) ∧ c.1.run c.2 st = some st') mounted
      [(.path (.mkdir pathA 0o755), 9)] oneDirectory :=
    .cons ⟨⟨safe, spares⟩, mkdir_oneDirectory⟩ (.nil _)
  obtain ⟨-, further⟩ := shared_nodes_kept formed_mounted live_mounted run
  have begins : oneDirectory.origin pathA = some (1, [0x61]) := by decide +kernel
  have safe' : (PathCall.stat pathA).Safe oneDirectory := safe_of_origin begins (by decide +kernel)
  refine ⟨st', done, (further _ _ _ safe' done).mpr fun a _ _ => ?_⟩
  exact not_reaches_of_depth (by decide +kernel) a

/-- The addresses of the shared nodes. -/
def sharedNodes (st : Vfs) : List ℕ := st.cwd.toList ++ st.mounts.map Mount.root

theorem mem_sharedNodes : a ∈ st.sharedNodes ↔ st.Shared a := by
  rw [sharedNodes, List.mem_append, Option.mem_toList, List.mem_map]
  rfl

/-- `vfs_mkdir` of `/` frees the root of the mount, and so does `vfs_stat` of `/` from the directory
`/a`. -/
theorem shared_root_freed : (WellFormed mounted ∧ mounted.SharedLive) ∧
    (∃ st', (PathCall.mkdir rootPath 0o755).run 9 mounted = some st' ∧ st'.Shared 1 ∧
      1 ∉ st'.world.heap.live) ∧
    ∃ st st', oneDirectory.cmdCd pathA 9 = some st ∧ st.SharedLive ∧
      (PathCall.stat rootPath).run 9 st = some st' ∧ st'.Shared 1 ∧ 1 ∉ st'.world.heap.live := by
  refine ⟨⟨formed_mounted, live_mounted⟩, ?_, ?_⟩
  · have evaluated : ((PathCall.mkdir rootPath 0o755).run 9 mounted).map (fun st' =>
        (decide (1 ∈ st'.sharedNodes), decide (1 ∈ st'.world.heap.live))) = some (true, false) := by
      decide +kernel
    obtain ⟨st', done, facts⟩ := Option.map_eq_some_iff.mp evaluated
    simp only [Prod.mk.injEq, decide_eq_true_eq, decide_eq_false_iff_not, mem_sharedNodes] at facts
    exact ⟨st', done, facts⟩
  · have evaluated : (oneDirectory.cmdCd pathA 9).map (fun st =>
        (st.sharedNodes.all (fun a => decide (a ∈ st.world.heap.live) &&
            decide ((st.nodes a).fsDataAddr ∈ st.world.heap.live)),
          ((PathCall.stat rootPath).run 9 st).map fun st' =>
            (decide (1 ∈ st'.sharedNodes), decide (1 ∈ st'.world.heap.live)))) =
          some (true, some (true, false)) := by
      decide +kernel
    obtain ⟨st, moved, facts⟩ := Option.map_eq_some_iff.mp evaluated
    obtain ⟨kept, facts⟩ := Prod.mk.inj facts
    obtain ⟨st', done, facts⟩ := Option.map_eq_some_iff.mp facts
    simp only [Prod.mk.injEq, decide_eq_true_eq, decide_eq_false_iff_not, mem_sharedNodes] at facts
    refine ⟨st, st', moved, fun a shared => ?_, done, facts⟩
    simpa [Allocated] using List.all_eq_true.mp kept a (mem_sharedNodes.mpr shared)

end Thuban.Vfs

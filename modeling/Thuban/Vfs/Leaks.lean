import Thuban.Vfs.Descriptors
import Thuban.Vfs.Transfers

/-!
# Nodes that are not given back

A resolution frees the nodes that it has looked up on its way, but for the one that it returns.  `vfs_open`
hands this node to the descriptor or drops it where it fails, and `vfs_close` frees the file object only: a
node that was looked up stays allocated for good.
-/

namespace Thuban.Vfs

open Fat32 (objects)
open World (Lends)

variable {st st' : Vfs} {fuel : ℕ} {path : CString}

/-! ## What a resolution keeps -/

/-- Whether the loop of `vfs_resolve_path_from` owns the node it ends at: the last token other than `.` is a
name. -/
def endsOwned : (owned : Bool) → List CString → Bool
  | owned, [] => owned
  | owned, token :: rest =>
      if token = here then endsOwned owned rest else endsOwned (token ≠ above) rest

/-- The node that a path leads to, if there is one, is looked up on the way. -/
def looksUp (st : Vfs) (path : CString) : Bool :=
  (st.origin path).any fun start => endsOwned false (tokens start.2)

/-- The objects of the node at `a`, if they have been looked up. -/
def ownedObjects (st : Vfs) (owned : Bool) (a : ℕ) : List ℕ :=
  if owned then objects (st.nodes a) else []

variable {w₀ : World} {held : List ℕ}

variable {owned : Bool} {cur a flags mode : ℕ} {r : Option ℕ} {target : Except ℤ ℕ}

theorem peek_owned {st : Vfs} (lends : Lends w₀ st.world (st.ownedObjects true cur ++ held))
    (self : (st.nodes cur).addr = cur) : st.peek cur = st.nodes cur := by
  apply peek_live
  have mem : cur ∈ st.ownedObjects true cur ++ held := by simp [ownedObjects, objects, self]
  exact lends.borrows.live.mem_iff.mpr (List.mem_append_left _ mem)

theorem leave_lends {st : Vfs} (lends : Lends w₀ st.world (st.ownedObjects owned cur ++ held))
    (mine : owned = true → (st.nodes cur).addr = cur) : Lends w₀ (leave owned cur st).world held := by
  cases owned with
  | false => exact lends
  | true =>
    show Lends w₀ (Fat32.freeNode (st.peek cur) st.world) held
    rw [peek_owned lends (mine rfl)]
    exact lends.free.free

/-- A loop that owns its node or not, with other objects held, keeps the node that it returns if it owns it
at its end. -/
theorem resolveLoop_lends {ts : List CString} {st st' : Vfs}
    (lends : Lends w₀ st.world (st.ownedObjects owned cur ++ held))
    (mine : owned = true → (st.nodes cur).addr = cur ∧ (st.nodes cur).parent ≠ none)
    (done : resolveLoop fuel ts cur owned st = some (r, st')) :
    Lends w₀ st'.world (r.elim [] (st'.ownedObjects (endsOwned owned ts)) ++ held) := by
  induction ts generalizing cur owned st with
  | nil =>
    cases done
    exact lends
  | cons token ts ih =>
    rw [resolveLoop] at done
    by_cases isHere : token = here
    · rw [if_pos isHere] at done
      rw [endsOwned, if_pos isHere]
      exact ih lends mine done
    rw [if_neg isHere] at done
    have touched : Lends w₀ (st.touch cur).world ((st.touch cur).ownedObjects owned cur ++ held) := by
      rw [touch_world, ownedObjects, touch_nodes]
      exact lends
    have self : owned = true → ((st.touch cur).nodes cur).addr = cur := fun own => by
      rw [touch_nodes]
      exact (mine own).1
    by_cases isAbove : token = above
    · rw [if_pos isAbove] at done
      rw [endsOwned, if_neg isHere, decide_eq_false (not_not.mpr isAbove)]
      cases up : (st.peek cur).parent with
      | none =>
        have free : owned = false := by
          cases owned with
          | false => rfl
          | true =>
            rw [peek_owned lends (mine rfl).1] at up
            exact absurd up (mine rfl).2
        subst free
        rw [up] at done
        exact ih touched (absurd · Bool.false_ne_true) done
      | some parent =>
        rw [up] at done
        refine ih ?_ (absurd · Bool.false_ne_true) done
        rw [touch_world]
        exact leave_lends touched self
    rw [if_neg isAbove] at done
    split_ifs at done
    · cases done
      exact leave_lends touched self
    obtain ⟨⟨found, w⟩, looked, rest⟩ := Option.bind_eq_some_iff.mp done
    obtain ⟨lends₁, made⟩ := Fat32.lookup_kept (Fat32.lends_kept _ _) lends looked
    rw [endsOwned, if_neg isHere, decide_eq_true isAbove]
    cases found with
    | none =>
      cases rest
      refine leave_lends ?_ fun own => self own
      show Lends w₀ w ((st.touch cur).ownedObjects owned cur ++ held)
      rw [ownedObjects, touch_nodes]
      exact lends₁
    | some child =>
      dsimp only at rest
      generalize entered : ((st.touch cur).setWorld w).setNode child.addr child = st₂ at rest
      have nodes : st₂.nodes = Function.update st.nodes child.addr child := by
        rw [← entered, setNode, setWorld, touch_nodes]
      have other : owned = true → st₂.nodes cur = st.nodes cur := by
        rintro rfl
        have apart : cur ≠ child.addr := by
          intro twice
          have here : child.addr ∈ st.ownedObjects true cur ++ held := by
            simp [ownedObjects, objects, (mine rfl).1, twice.symm]
          exact List.disjoint_of_nodup_append lends₁.nodup (by simp [objects]) here
        rw [nodes, Function.update_of_ne apart]
      have same : st₂.ownedObjects owned cur = st.ownedObjects owned cur := by
        cases owned with
        | false => rfl
        | true => rw [ownedObjects, ownedObjects, other rfl]
      have world : st₂.world = w := by rw [← entered]; rfl
      refine ih ?_ (fun _ => ?_) rest
      · rw [ownedObjects, if_pos rfl, leave_nodes, nodes, Function.update_self]
        refine leave_lends ?_ fun own => (congrArg VfsNode.addr (other own)).trans (mine own).1
        rw [same, world]
        exact lends₁.perm (List.perm_append_comm_assoc ..)
      · rw [leave_nodes, nodes, Function.update_self, (made child rfl).1]
        exact ⟨rfl, Option.some_ne_none _⟩

theorem resolvePath_lends (lends : Lends w₀ st.world held)
    (done : st.resolvePath path fuel = some (r, st')) :
    Lends w₀ st'.world (r.elim [] (st'.ownedObjects (st.looksUp path)) ++ held) := by
  rw [resolvePath_eq] at done
  cases start : st.origin path with
  | none =>
    rw [start] at done
    cases done
    exact lends
  | some here =>
    rw [start] at done
    have looks : st.looksUp path = endsOwned false (tokens here.2) := by
      rw [looksUp, start, Option.any_some]
    rw [looks]
    exact resolveLoop_lends lends nofun done

theorem SameTables.looksUp_eq (same : SameTables st st') (path : CString) :
    st'.looksUp path = st.looksUp path := by
  unfold looksUp origin
  rw [same.cwd, same.mounts]

/-! ## Opening and closing -/

/-- The state behind `vfs_open` and, if it has succeeded, `vfs_close` of its descriptor. -/
def closed (r : ℤ) (st : Vfs) : Vfs := if 0 ≤ r then (st.vfsClose r).2 else st

theorem openNode_lends {r : ℤ} (lends : Lends w₀ st.world held)
    (done : st.openNode a flags mode fuel = some (r, st')) :
    Lends w₀ (closed r st').world held := by
  cases openNode_ends done with
  | refused error =>
    rw [closed, if_neg (by omega)]
    exact lends
  | noMemory failed =>
    rw [closed, if_neg (by decide)]
    exact lends.failed_malloc failed
  | full allocated =>
    rw [closed, if_neg (by decide)]
    exact (lends.malloc allocated).free
  | @opened p fd w _ _ allocated free =>
    obtain ⟨-, bound, -, -⟩ := freeFd_spec free
    have here : (st.openState a flags mode p fd w).fdTable fd = some ⟨p, a, 0, flags, mode, 1⟩ :=
      Function.update_self ..
    have found : (st.openState a flags mode p fd w).getFile fd = some ⟨p, a, 0, flags, mode, 1⟩ := by
      rw [getFile, if_neg (by omega), Int.toNat_natCast, here]
    have world : (st.openState a flags mode p fd w).world = w := truncate_world ..
    rw [closed, if_pos (Int.natCast_nonneg fd), vfsClose, found]
    rw [freeFdEntry, Int.toNat_natCast, here]
    dsimp only
    rw [if_pos (by decide)]
    show Lends w₀ ((st.openState a flags mode p fd w).world.free p) held
    rw [world]
    exact (lends.malloc allocated).free

theorem inDirectory_lends {missing : ℤ} {dir : ℕ} {name : CString} {r : ℤ}
    (lends : Lends w₀ st.world held)
    (done : st.inDirectory missing (fun fs node => Fat32.create fs node name mode) dir fuel =
      some (r, st')) : Lends w₀ st'.world held := by
  unfold inDirectory at done
  split_ifs at done
  · cases done
    exact lends
  obtain ⟨verdict, -, ends⟩ := Option.bind_eq_some_iff.mp done
  split_ifs at ends
  · cases ends
    exact lends
  · obtain ⟨⟨r', w'⟩, acted, same⟩ := Option.map_eq_some_iff.mp ends
    cases same
    exact Fat32.create_kept (Fat32.lends_kept _ _) lends trivial acted

/-- The call drops a node that it has looked up: the one that is opened, or the directory of a new file. -/
def Drops (path : CString) (flags mode fuel : ℕ) (st : Vfs) : Prop :=
  ∃ r st₁, st.resolvePath path fuel = some (r, st₁) ∧
    (r ≠ none ∧ st.looksUp path ∨
      r = none ∧ flags &&& oCreat ≠ 0 ∧ ∃ dir st₂,
        st₁.resolvePath (splitPath path).1 fuel = some (some dir, st₂) ∧
          (st.looksUp (splitPath path).1 ∨
            st.looksUp path ∧ ∃ node st₃, st₁.openCreate path mode fuel = some (.ok node, st₃)))

theorem ownedObjects_ne_nil : st.ownedObjects owned a ≠ [] ↔ owned = true := by
  cases owned <;> simp [ownedObjects, objects]

theorem openCreate_lends (lends : Lends w₀ st.world [])
    (done : st.openCreate path mode fuel = some (target, st')) :
    ∃ dropped, Lends w₀ st'.world dropped ∧
      (dropped ≠ [] ↔ ∃ dir st₂, st.resolvePath (splitPath path).1 fuel = some (some dir, st₂) ∧
        (st.looksUp (splitPath path).1 ∨ st.looksUp path ∧ ∃ node, target = .ok node)) := by
  obtain ⟨⟨found, st₂⟩, resolved, rest⟩ := Option.bind_eq_some_iff.mp done
  have lends₂ := resolvePath_lends lends resolved
  cases found with
  | none =>
    cases rest
    refine ⟨[], lends₂, iff_of_false (not_not.mpr rfl) ?_⟩
    rintro ⟨dir, st₂, again, -⟩
    rw [resolved] at again
    cases again
  | some dir =>
    rw [Option.elim_some, List.append_nil] at lends₂
    have single : (∃ dir' st₂', st.resolvePath (splitPath path).1 fuel = some (some dir', st₂') ∧
        (st.looksUp (splitPath path).1 ∨ st.looksUp path ∧ ∃ node, target = .ok node)) ↔
        st.looksUp (splitPath path).1 ∨ st.looksUp path ∧ ∃ node, target = .ok node :=
      ⟨fun ⟨_, _, _, looks⟩ => looks, fun looks => ⟨dir, st₂, resolved, looks⟩⟩
    rw [single]
    obtain ⟨⟨r, st₃⟩, created, ends⟩ := Option.bind_eq_some_iff.mp rest
    have lends₃ := inDirectory_lends lends₂ created
    -- the directory alone is dropped where no node is found behind it
    have failed : ∀ {st₄ : Vfs}, Lends w₀ st₄.world (st₂.ownedObjects (st.looksUp (splitPath path).1) dir) →
        (∀ node, target ≠ .ok node) → ∃ dropped, Lends w₀ st₄.world dropped ∧
          (dropped ≠ [] ↔ st.looksUp (splitPath path).1 ∨
            st.looksUp path ∧ ∃ node, target = .ok node) := fun lends₄ error =>
      ⟨_, lends₄, ownedObjects_ne_nil.trans
        (or_iff_left fun ⟨_, node, ok⟩ => error node ok).symm⟩
    dsimp only at ends
    split_ifs at ends
    · cases ends
      exact failed lends₃ nofun
    · cases ends
      exact failed lends₃ nofun
    obtain ⟨⟨found, st₄⟩, again, same⟩ := Option.map_eq_some_iff.mp ends
    have lends₄ := resolvePath_lends lends₃ again
    cases found with
    | none =>
      cases same
      exact failed lends₄ nofun
    | some node =>
      cases same
      have tables := (resolvePath_tables resolved).trans (inDirectory_tables created)
      rw [Option.elim_some, tables.looksUp_eq] at lends₄
      refine ⟨_, lends₄, ?_⟩
      rw [ne_eq, List.append_eq_nil_iff, not_and_or, ← ne_eq, ← ne_eq, ownedObjects_ne_nil,
        ownedObjects_ne_nil, or_comm]
      exact or_congr_right (and_iff_left ⟨node, rfl⟩).symm

theorem openTarget_lends (done : st.openTarget path flags mode fuel = some (target, st')) :
    ∃ dropped, Lends st.world st'.world dropped ∧ (dropped ≠ [] ↔ Drops path flags mode fuel st) := by
  obtain ⟨⟨found, st₁⟩, resolved, rest⟩ := Option.bind_eq_some_iff.mp done
  have lends₁ := resolvePath_lends (.refl st.world) resolved
  have single : Drops path flags mode fuel st ↔ (found ≠ none ∧ st.looksUp path ∨
      found = none ∧ flags &&& oCreat ≠ 0 ∧ ∃ dir st₂,
        st₁.resolvePath (splitPath path).1 fuel = some (some dir, st₂) ∧
          (st.looksUp (splitPath path).1 ∨
            st.looksUp path ∧ ∃ node st₃, st₁.openCreate path mode fuel = some (.ok node, st₃))) := by
    refine ⟨?_, fun drops => ⟨found, st₁, resolved, drops⟩⟩
    rintro ⟨r, st₁', again, drops⟩
    rw [resolved] at again
    cases again
    exact drops
  rw [single]
  cases found with
  | some node =>
    cases rest
    rw [Option.elim_some, List.append_nil] at lends₁
    refine ⟨_, lends₁, ownedObjects_ne_nil.trans ?_⟩
    simp
  | none =>
    rw [Option.elim_none, List.append_nil] at lends₁
    dsimp only at rest
    split_ifs at rest with creates
    · obtain ⟨dropped, lends₂, drops⟩ := openCreate_lends lends₁ rest
      refine ⟨dropped, lends₂, drops.trans ?_⟩
      have tables := resolvePath_tables resolved
      rw [tables.looksUp_eq, tables.looksUp_eq]
      have again : (∃ node, target = .ok node) ↔
          ∃ node st₃, st₁.openCreate path mode fuel = some (.ok node, st₃) := by
        rw [rest]
        constructor
        · rintro ⟨node, rfl⟩
          exact ⟨node, st', rfl⟩
        · rintro ⟨node, st₃, same⟩
          cases same
          exact ⟨node, rfl⟩
      rw [again]
      simp [creates]
    · cases rest
      refine ⟨[], lends₁, iff_of_false (not_not.mpr rfl) ?_⟩
      rintro (⟨found, -⟩ | ⟨-, creates', -⟩)
      · exact found rfl
      · exact creates creates'

/-- In any state, whatever the device and the allocator do: behind `vfs_open`, and `vfs_close` if it succeeds,
the live objects are those from before if and only if no node that was looked up is dropped. -/
theorem open_close_live_iff {flags mode : ℕ} {r : ℤ} (ok : st.world.heap.Ok)
    (done : st.vfsOpen path flags mode fuel = some (r, st')) :
    (∀ p, p ∈ (closed r st').world.heap.live ↔ p ∈ st.world.heap.live) ↔
      ¬ Drops path flags mode fuel st := by
  rw [vfsOpen_eq] at done
  obtain ⟨⟨target, st₁⟩, reached, rest⟩ := Option.bind_eq_some_iff.mp done
  obtain ⟨dropped, lends, drops⟩ := openTarget_lends reached
  have after : Lends st.world (closed r st').world dropped := by
    cases target with
    | error e =>
      cases rest
      rw [closed, if_neg (by have := (openTarget_tables reached).2 r rfl; omega)]
      exact lends
    | ok node => exact openNode_lends lends rest
  rw [← drops, ne_eq, not_not]
  constructor
  · intro same
    by_contra some
    obtain ⟨p, mem⟩ := List.exists_mem_of_ne_nil dropped some
    have live := (same p).mp (after.borrows.live.mem_iff.mpr (List.mem_append_left _ mem))
    exact absurd (ok.below p live) (not_lt.mpr (after.mine p mem).1)
  · rintro rfl p
    exact after.borrows.live.mem_iff

/-- The current directory is opened and closed. -/
theorem open_close_live_here : ∃ r st', fileMounted.vfsOpen here oDirectory 0 9 = some (r, st') ∧
    ∀ p, p ∈ (closed r st').world.heap.live ↔ p ∈ fileMounted.world.heap.live := by
  have evaluated : (fileMounted.vfsOpen here oDirectory 0 9).isSome = true := by decide +kernel
  obtain ⟨⟨r, st'⟩, done⟩ := Option.isSome_iff_exists.mp evaluated
  refine ⟨r, st', done,
    (open_close_live_iff ⟨by decide +kernel, by decide +kernel⟩ done).mpr ?_⟩
  rintro ⟨r, st₁, resolved, ⟨-, looks⟩ | ⟨rfl, -⟩⟩
  · exact absurd looks (by decide +kernel)
  · have found : ((fileMounted.resolvePath here 9).any (·.1.isSome)) = true := by decide +kernel
    rw [resolved] at found
    cases found

/-- The file `a` is opened and closed: its node and the driver's data of it stay allocated. -/
theorem open_close_leaks :
    ((fileMounted.vfsOpen [0x61] 0 0 9).map fun (r, st') =>
      (r, (closed r st').world.heap.live, fileMounted.world.heap.live)) = some (0, [5, 4, 1, 2], [1, 2]) := by
  decide +kernel

end Thuban.Vfs

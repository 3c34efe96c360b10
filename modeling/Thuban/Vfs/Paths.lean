import Thuban.Fat32.Allocations
import Thuban.Vfs.Model

/-!
# What a path leads to

`follow` is the meaning of a path: a name leads from a directory to the entry that `fat32_lookup` finds
in it, `..` leads back.  It frees nothing.  The loop of `vfs_resolve_path_from` is at the same node as
long as this node is allocated (`Tracks.step`); of the objects that were there before, it frees none.
-/

namespace Thuban.Vfs

open Fat32 (Fs)
open World (Keeps Alike)

/-- A place in the tree: the nodes that were looked up below the node at `base`, the latest first. -/
structure Place where
  base : ℕ
  trail : List VfsNode

def Place.addr : Place → ℕ
  | ⟨base, []⟩ => base
  | ⟨_, node :: _⟩ => node.addr

def Place.node (nodes : ℕ → VfsNode) : Place → VfsNode
  | ⟨base, []⟩ => nodes base
  | ⟨_, node :: _⟩ => node

/-- The place above; there is none above the root. -/
def Place.up (nodes : ℕ → VfsNode) : Place → Place
  | ⟨base, []⟩ => ⟨(nodes base).parent.getD base, []⟩
  | ⟨base, _ :: trail⟩ => ⟨base, trail⟩

/-- The place that the components of a path lead to, or `none` if there is none; the outer `none` is
for a lookup that does not end. -/
def follow (nodes : ℕ → VfsNode) (supers : ℕ → Fs) (fuel : ℕ) :
    List CString → Place → World → Option (Option Place × World)
  | [], p, w => some (some p, w)
  | token :: rest, p, w =>
      if token = here then follow nodes supers fuel rest p w
      else if token = above then follow nodes supers fuel rest (p.up nodes) w
      else if !(p.node nodes).isDirectory then some (none, w)
      else
        (Fat32.lookup (supers (p.node nodes).sb) (p.node nodes) token fuel w).bind fun
          | (none, w) => some (none, w)
          | (some child, w) => follow nodes supers fuel rest ⟨p.base, child :: p.trail⟩ w

section Follow

variable {nodes : ℕ → VfsNode} {supers : ℕ → Fs} {fuel : ℕ} {token : CString} {p : Place} {w : World}

theorem follow_here (isHere : token = here) (ts : List CString) :
    follow nodes supers fuel (token :: ts) p w = follow nodes supers fuel ts p w := by
  rw [follow, if_pos isHere]

theorem follow_above (isHere : token ≠ here) (isAbove : token = above) (ts : List CString) :
    follow nodes supers fuel (token :: ts) p w =
      follow nodes supers fuel ts (p.up nodes) w := by
  rw [follow, if_neg isHere, if_pos isAbove]

theorem follow_file (isHere : token ≠ here) (isAbove : token ≠ above)
    (isDir : (p.node nodes).isDirectory = false) (ts : List CString) :
    follow nodes supers fuel (token :: ts) p w = some (none, w) := by
  rw [follow, if_neg isHere, if_neg isAbove, isDir]
  rfl

theorem follow_name {found : Option VfsNode} {w' : World} (isHere : token ≠ here)
    (isAbove : token ≠ above) (isDir : (p.node nodes).isDirectory = true)
    (looked : Fat32.lookup (supers (p.node nodes).sb) (p.node nodes) token fuel w =
      some (found, w')) (ts : List CString) :
    follow nodes supers fuel (token :: ts) p w =
      found.elim (some (none, w'))
        fun child => follow nodes supers fuel ts ⟨p.base, child :: p.trail⟩ w' := by
  rw [follow, if_neg isHere, if_neg isAbove, isDir, looked]
  cases found <;> rfl

end Follow

/-- Where the resolution of a path starts, and what is left of the path there. -/
def origin (path : CString) (st : Vfs) : Option (ℕ × CString) :=
  st.cwd.bind fun cwd =>
    if path.head? = some slash then
      (findMount st.mounts path).map fun mount => (mount.root, relPath mount.mountpoint path)
    else some (cwd, path)

def leads (path : CString) (fuel : ℕ) (st : Vfs) : Option (Option Place × World) :=
  match st.origin path with
  | none => some (none, st.world)
  | some (start, rel) => follow st.nodes st.supers fuel (tokens rel) ⟨start, []⟩ st.world

/-- The nodes that the table of mounts and the current directory refer to. -/
def Shared (st : Vfs) (a : ℕ) : Prop := st.cwd = some a ∨ ∃ mount ∈ st.mounts, mount.root = a

theorem findMount_mem {mounts : List Mount} {path : CString} {mount : Mount}
    (found : findMount mounts path = some mount) : mount ∈ mounts := by
  suffices ∀ best, mounts.foldl _ best = some mount → mount ∈ mounts ∨ best = some mount from
    (this none found).resolve_right nofun
  clear found
  induction mounts with
  | nil => exact fun best same => .inr same
  | cons first rest ih =>
    intro best found
    rcases ih _ found with mem | same
    · exact .inl (List.mem_cons_of_mem _ mem)
    · cases best with
      | none =>
        dsimp only at same
        split_ifs at same
        exact .inl (Option.some.inj same ▸ List.mem_cons_self ..)
      | some old =>
        dsimp only at same
        split_ifs at same
        · exact .inl (Option.some.inj same ▸ List.mem_cons_self ..)
        · exact .inr same
        · exact .inr same

theorem origin_shared {path rel : CString} {st : Vfs} {start : ℕ}
    (begins : st.origin path = some (start, rel)) : st.Shared start := by
  obtain ⟨cwd, here, begins⟩ := Option.bind_eq_some_iff.mp begins
  split_ifs at begins
  · obtain ⟨mount, found, begins⟩ := Option.map_eq_some_iff.mp begins
    exact .inr ⟨mount, findMount_mem found, (Prod.mk.inj begins).1⟩
  · exact .inl (here.trans (congrArg some (Prod.mk.inj (Option.some.inj begins)).1))

theorem resolvePath_eq (path : CString) (fuel : ℕ) (st : Vfs) :
    st.resolvePath path fuel =
      match st.origin path with
      | none => some (none, st)
      | some (start, rel) => resolveLoop fuel (tokens rel) start false st := by
  unfold resolvePath origin
  cases st.cwd with
  | none => rfl
  | some cwd =>
    dsimp only [Option.bind_some]
    split_ifs
    · cases findMount st.mounts path <;> rfl
    · rfl

/-! ## Parts of the state that a resolution leaves alone -/

structure SameTables (st st' : Vfs) : Prop where
  supers : st'.supers = st.supers
  mounts : st'.mounts = st.mounts
  fdTable : st'.fdTable = st.fdTable
  cwd : st'.cwd = st.cwd
  initComplete : st'.initComplete = st.initComplete

theorem SameTables.refl (st : Vfs) : SameTables st st := ⟨rfl, rfl, rfl, rfl, rfl⟩

theorem SameTables.trans {st st' st'' : Vfs} (h : SameTables st st') (h' : SameTables st' st'') :
    SameTables st st'' :=
  ⟨h'.supers.trans h.supers, h'.mounts.trans h.mounts, h'.fdTable.trans h.fdTable,
    h'.cwd.trans h.cwd, h'.initComplete.trans h.initComplete⟩

theorem setWorld_tables (st : Vfs) (w : World) : SameTables st (st.setWorld w) :=
  ⟨rfl, rfl, rfl, rfl, rfl⟩

theorem setNode_tables (st : Vfs) (a : ℕ) (node : VfsNode) : SameTables st (st.setNode a node) :=
  ⟨rfl, rfl, rfl, rfl, rfl⟩

theorem peek_live {st : Vfs} {a : ℕ} (live : a ∈ st.world.heap.live) : st.peek a = st.nodes a :=
  if_pos live

section Touch

variable (st : Vfs) (a : ℕ)

@[simp] theorem touch_world : (st.touch a).world = st.world := by unfold touch; split_ifs <;> rfl

@[simp] theorem touch_nodes : (st.touch a).nodes = st.nodes := by unfold touch; split_ifs <;> rfl

theorem touch_tables : SameTables st (st.touch a) := by
  unfold touch
  split_ifs <;> exact ⟨rfl, rfl, rfl, rfl, rfl⟩

end Touch

@[simp] theorem leave_nodes (owned : Bool) (cur : ℕ) (st : Vfs) :
    (leave owned cur st).nodes = st.nodes := by
  cases owned <;> rfl

theorem leave_tables (owned : Bool) (cur : ℕ) (st : Vfs) : SameTables st (leave owned cur st) := by
  cases owned <;> exact ⟨rfl, rfl, rfl, rfl, rfl⟩

variable {fuel : ℕ} {st st' : Vfs} {r : Option ℕ}

theorem resolveLoop_tables {ts : List CString} {cur : ℕ} {owned : Bool}
    (done : resolveLoop fuel ts cur owned st = some (r, st')) : SameTables st st' := by
  induction ts generalizing cur owned st with
  | nil =>
    cases done
    exact .refl _
  | cons token rest ih =>
    unfold resolveLoop at done
    by_cases isHere : token = here
    · rw [if_pos isHere] at done
      exact ih done
    rw [if_neg isHere] at done
    by_cases isAbove : token = above
    · rw [if_pos isAbove] at done
      cases up : (st.peek cur).parent with
      | none =>
        rw [up] at done
        exact (touch_tables st cur).trans (ih done)
      | some parent =>
        rw [up] at done
        exact (touch_tables st cur).trans ((leave_tables owned cur _).trans
          ((touch_tables _ cur).trans (ih done)))
    rw [if_neg isAbove] at done
    by_cases isDir : (st.peek cur).isDirectory
    · simp only [isDir, Bool.not_true] at done
      obtain ⟨⟨found, w⟩, -, ends⟩ := Option.bind_eq_some_iff.mp done
      have moved := (touch_tables st cur).trans (setWorld_tables _ w)
      cases found with
      | none =>
        cases ends
        exact moved.trans (leave_tables owned cur _)
      | some child =>
        exact moved.trans ((setNode_tables _ child.addr child).trans
          ((leave_tables owned cur _).trans (ih ends)))
    · simp only [isDir] at done
      cases done
      exact (touch_tables st cur).trans (leave_tables owned cur _)

theorem resolvePath_tables {path : CString} (done : st.resolvePath path fuel = some (r, st')) :
    SameTables st st' := by
  unfold resolvePath at done
  split at done
  · cases done
    exact .refl _
  · split_ifs at done
    · split at done
      · cases done
        exact .refl _
      · exact resolveLoop_tables done
    · exact resolveLoop_tables done

/-! ## The loop along a place -/

/-- Each node that was looked up has the one before it as its parent. -/
def Linked (base : ℕ) : List VfsNode → Prop
  | [] => True
  | node :: trail => node.parent = some (Place.addr ⟨base, trail⟩) ∧ Linked base trail

/-- A node that was made since `w₀`. -/
structure Stored (w₀ : World) (st : Vfs) (node : VfsNode) : Prop where
  here : st.nodes node.addr = node
  new : w₀.heap.next ≤ node.addr ∧ w₀.heap.next ≤ node.fsDataAddr
  old : node.addr < st.world.heap.next ∧ node.fsDataAddr < st.world.heap.next

/-- The loop, started in a state with the world `w₀` and the nodes `nodes₀`, has come to the place `p`,
where `follow` has come to in the world `w`. -/
structure Tracks (w₀ : World) (nodes₀ : ℕ → VfsNode) (p : Place) (w : World) (st : Vfs) : Prop where
  ok : w₀.heap.Ok
  alike : Alike st.world w
  keeps : Keeps w₀ st.world
  nodes : ∀ a < w₀.heap.next, st.nodes a = nodes₀ a
  base : p.base ∈ w₀.heap.live ∧ (nodes₀ p.base).addr = p.base
  linked : Linked p.base p.trail
  stored : ∀ node ∈ p.trail, Stored w₀ st node

/-- The node at the place is allocated, with its `fs_data` if it was looked up. -/
structure Stands (nodes₀ : ℕ → VfsNode) (p : Place) (owned : Bool) (st : Vfs) : Prop where
  owned : owned = true ↔ p.trail ≠ []
  live : p.addr ∈ st.world.heap.live
  data : p.trail ≠ [] → (p.node nodes₀).fsDataAddr ∈ st.world.heap.live

theorem Tracks.start {a : ℕ} (ok : st.world.heap.Ok) (live : a ∈ st.world.heap.live)
    (self : (st.nodes a).addr = a) : Tracks st.world st.nodes ⟨a, []⟩ st.world st :=
  ⟨ok, .refl _, .refl _, fun _ _ => rfl, ⟨live, self⟩, trivial, List.forall_mem_nil _⟩

theorem Stands.start {nodes₀ : ℕ → VfsNode} {a : ℕ} (live : a ∈ st.world.heap.live) :
    Stands nodes₀ ⟨a, []⟩ false st :=
  ⟨by simp, live, absurd rfl⟩

namespace Tracks

variable {w₀ w : World} {nodes₀ : ℕ → VfsNode} {p : Place} {owned : Bool} {st : Vfs}
  (tracks : Tracks w₀ nodes₀ p w st)

include tracks

theorem base_lt : p.base < w₀.heap.next := tracks.ok.below _ tracks.base.1

theorem node_eq : st.nodes p.addr = p.node nodes₀ := by
  obtain ⟨base, _ | ⟨node, trail⟩⟩ := p
  · exact tracks.nodes _ tracks.base_lt
  · exact (tracks.stored node (List.mem_cons_self ..)).here

theorem node_addr : (p.node nodes₀).addr = p.addr := by
  obtain ⟨base, _ | ⟨node, trail⟩⟩ := p
  · exact tracks.base.2
  · rfl

theorem addr_lt : p.addr < st.world.heap.next := by
  obtain ⟨base, _ | ⟨node, trail⟩⟩ := p
  · exact lt_of_lt_of_le tracks.base_lt tracks.keeps.next
  · exact (tracks.stored node (List.mem_cons_self ..)).old.1

theorem new_of_trail (looked : p.trail ≠ []) : w₀.heap.next ≤ (p.node nodes₀).addr ∧
    w₀.heap.next ≤ (p.node nodes₀).fsDataAddr := by
  obtain ⟨base, _ | ⟨node, trail⟩⟩ := p
  · exact absurd rfl looked
  · exact (tracks.stored node (List.mem_cons_self ..)).new

theorem touch (a : ℕ) : Tracks w₀ nodes₀ p w (st.touch a) := by
  obtain ⟨ok, alike, keeps, nodes, base, linked, stored⟩ := tracks
  rw [← touch_world st a] at alike keeps
  rw [← touch_nodes st a] at nodes
  refine ⟨ok, alike, keeps, nodes, base, linked, fun node mem => ?_⟩
  obtain ⟨here, new, old⟩ := stored node mem
  exact ⟨by rw [touch_nodes, here], new, by rw [touch_world]; exact old⟩

variable {w₁ w₁' : World} {child : VfsNode}

theorem setWorld (keeps : Keeps st.world w₁) (alike : Alike w₁ w₁') :
    Tracks w₀ nodes₀ p w₁' (st.setWorld w₁) := by
  refine ⟨tracks.ok, alike, tracks.keeps.trans keeps, tracks.nodes, tracks.base, tracks.linked,
    fun node mem => ?_⟩
  obtain ⟨here, new, old⟩ := tracks.stored node mem
  exact ⟨here, new, lt_of_lt_of_le old.1 keeps.next, lt_of_lt_of_le old.2 keeps.next⟩

/-- The loop leaves a node that it has looked up, or a shared one. -/
theorem leave {a : ℕ} (new : owned = true → w₀.heap.next ≤ (st.peek a).addr ∧
    w₀.heap.next ≤ (st.peek a).fsDataAddr) : Tracks w₀ nodes₀ p w (leave owned a st) := by
  cases owned with
  | false => exact tracks
  | true =>
    have alike : Alike st.world (Fat32.freeNode (st.peek a) st.world) :=
      (Alike.of_free _ _).trans (Alike.of_free _ _)
    refine ⟨tracks.ok, alike.symm.trans tracks.alike, Fat32.freeNode_keeps tracks.keeps (new rfl),
      tracks.nodes, tracks.base, tracks.linked, fun node mem => ?_⟩
    obtain ⟨here, new, old⟩ := tracks.stored node mem
    refine ⟨here, new, ?_⟩
    show node.addr < (Fat32.freeNode (st.peek a) st.world).heap.next ∧
      node.fsDataAddr < (Fat32.freeNode (st.peek a) st.world).heap.next
    rw [alike.next]
    exact old

theorem push (keeps : Keeps st.world w₁) (alike : Alike w₁ w₁')
    (fresh : Fat32.Fresh st.world w₁ (p.node nodes₀) child) :
    Tracks w₀ nodes₀ ⟨p.base, child :: p.trail⟩ w₁' ((st.setWorld w₁).setNode child.addr child) := by
  have next := tracks.keeps.next
  have more := keeps.next
  have new := fresh.new
  refine ⟨tracks.ok, alike, tracks.keeps.trans keeps, fun a ha => ?_, tracks.base,
    ⟨?_, tracks.linked⟩, ?_⟩
  · refine (Function.update_of_ne ?_ ..).trans (tracks.nodes a ha)
    omega
  · rw [fresh.parent, tracks.node_addr]
  · intro node mem
    rcases List.mem_cons.mp mem with rfl | mem
    · exact ⟨Function.update_self .., ⟨by omega, by omega⟩, fresh.old⟩
    · obtain ⟨here, new', old⟩ := tracks.stored node mem
      refine ⟨(Function.update_of_ne ?_ ..).trans here, new', ?_⟩
      · omega
      · show node.addr < w₁.heap.next ∧ node.fsDataAddr < w₁.heap.next
        omega

variable (stands : Stands nodes₀ p owned st)

include stands

theorem peek_eq : st.peek p.addr = p.node nodes₀ := (peek_live stands.live).trans tracks.node_eq

theorem new_of_owned (looked : owned = true) : w₀.heap.next ≤ (st.peek p.addr).addr ∧
    w₀.heap.next ≤ (st.peek p.addr).fsDataAddr := by
  rw [tracks.peek_eq stands]
  exact tracks.new_of_trail (stands.owned.mp looked)

theorem parent_eq : (st.peek p.addr).parent.getD p.addr = (p.up nodes₀).addr ∧
    ((st.peek p.addr).parent = none → p.trail = []) := by
  have linked := tracks.linked
  rw [tracks.peek_eq stands]
  obtain ⟨base, _ | ⟨node, trail⟩⟩ := p
  · exact ⟨rfl, fun _ => rfl⟩
  · have up : node.parent = some _ := linked.1
    show node.parent.getD node.addr = _ ∧ (node.parent = none → _)
    rw [up]
    exact ⟨rfl, fun none => absurd none (by simp)⟩

/-- What a round of the loop does at an allocated node. -/
theorem step {fuel : ℕ} {token : CString} {rest : List CString} {r : Option ℕ} {st' : Vfs}
    (done : resolveLoop fuel (token :: rest) p.addr owned st = some (r, st')) :
    (token = here ∧ resolveLoop fuel rest p.addr owned st = some (r, st') ∧
      ∀ ts, follow nodes₀ st.supers fuel (token :: ts) p w = follow nodes₀ st.supers fuel ts p w) ∨
    (token = above ∧ p.trail = [] ∧ (nodes₀ p.base).parent = none ∧
      resolveLoop fuel rest p.addr owned st = some (r, st') ∧
      ∀ ts, follow nodes₀ st.supers fuel (token :: ts) p w = follow nodes₀ st.supers fuel ts p w) ∨
    (token = above ∧ (p.trail = [] → (nodes₀ p.base).parent = some (p.up nodes₀).addr) ∧
      resolveLoop fuel rest (p.up nodes₀).addr false ((Vfs.leave owned p.addr st).touch p.addr) =
        some (r, st') ∧
      ∀ ts, follow nodes₀ st.supers fuel (token :: ts) p w =
        follow nodes₀ st.supers fuel ts (p.up nodes₀) w) ∨
    (token ≠ above ∧ ∃ w₁ w₁', r = none ∧ Keeps st.world w₁ ∧ Alike w₁ w₁' ∧
      st' = Vfs.leave owned p.addr (st.setWorld w₁) ∧
      ∀ ts, follow nodes₀ st.supers fuel (token :: ts) p w = some (none, w₁')) ∨
    (token ≠ here ∧ token ≠ above ∧ (p.node nodes₀).isDirectory = true ∧ ∃ child w₁ w₁',
      Keeps st.world w₁ ∧ Alike w₁ w₁' ∧ Fat32.Fresh st.world w₁ (p.node nodes₀) child ∧
      resolveLoop fuel rest child.addr true
        (Vfs.leave owned p.addr ((st.setWorld w₁).setNode child.addr child)) = some (r, st') ∧
      ∀ ts, follow nodes₀ st.supers fuel (token :: ts) p w =
        follow nodes₀ st.supers fuel ts ⟨p.base, child :: p.trail⟩ w₁') := by
  have same : st.touch p.addr = st := if_pos stands.live
  rw [resolveLoop, same] at done
  by_cases isHere : token = here
  · rw [if_pos isHere] at done
    exact .inl ⟨isHere, done, follow_here isHere⟩
  rw [if_neg isHere] at done
  by_cases isAbove : token = above
  · obtain ⟨parent, none⟩ := tracks.parent_eq stands
    have leads := @follow_above nodes₀ st.supers fuel token p w isHere isAbove
    rw [if_pos isAbove] at done
    cases up : (st.peek p.addr).parent with
    | none =>
      rw [up] at done
      have bottom := none up
      obtain ⟨base, trail⟩ := p
      obtain rfl : trail = [] := bottom
      rw [tracks.peek_eq stands] at up
      have root : (nodes₀ base).parent = Option.none := up
      refine .inr (.inl ⟨isAbove, rfl, root, done, fun ts => ?_⟩)
      rw [leads, Place.up, root]
      rfl
    | some above =>
      rw [up] at done parent
      rw [← parent]
      refine .inr (.inr (.inl ⟨isAbove, fun bottom => ?_, done, leads⟩))
      obtain ⟨base, trail⟩ := p
      obtain rfl : trail = [] := bottom
      rw [tracks.peek_eq stands] at up
      exact up
  rw [if_neg isAbove, tracks.peek_eq stands] at done
  cases isDir : (p.node nodes₀).isDirectory with
  | true =>
    simp only [isDir, Bool.not_true, Bool.false_eq_true, if_false] at done
    obtain ⟨⟨found, w₁⟩, looked, ends⟩ := Option.bind_eq_some_iff.mp done
    obtain ⟨keeps, fresh⟩ := Fat32.lookup_keeps looked
    obtain ⟨w₁', looked', alike⟩ := Fat32.lookup_alike tracks.alike looked
    have leads := follow_name isHere isAbove isDir looked'
    cases found with
    | none =>
      cases ends
      exact .inr (.inr (.inr (.inl ⟨isAbove, w₁, w₁', rfl, keeps, alike, rfl, leads⟩)))
    | some child =>
      exact .inr (.inr (.inr (.inr ⟨isHere, isAbove, rfl, child, w₁, w₁', keeps, alike,
        fresh child rfl, ends, leads⟩)))
  | false =>
    simp only [isDir, Bool.not_false, if_true] at done
    cases done
    exact .inr (.inr (.inr (.inl ⟨isAbove, st.world, w, rfl, .refl _, tracks.alike, rfl,
      follow_file isHere isAbove isDir⟩)))

/-- Up to the base, or from there to an allocated node. -/
theorem up (shallow : p.trail.length ≤ 1)
    (above : p.trail = [] → ∀ q, (nodes₀ p.base).parent = some q →
      q ∈ w₀.heap.live ∧ (nodes₀ q).addr = q) :
    Tracks w₀ nodes₀ (p.up nodes₀) w ((Vfs.leave owned p.addr st).touch p.addr) ∧
      Stands nodes₀ (p.up nodes₀) false ((Vfs.leave owned p.addr st).touch p.addr) := by
  have left := (tracks.leave (tracks.new_of_owned stands)).touch p.addr
  have stays : ∀ a ∈ w₀.heap.live,
      a ∈ ((Vfs.leave owned p.addr st).touch p.addr).world.heap.live := fun a live =>
    (left.keeps.live a (tracks.ok.below a live)).mpr live
  obtain ⟨base, _ | ⟨node, _ | ⟨next, trail⟩⟩⟩ := p
  · have standing : Place.up nodes₀ ⟨base, []⟩ = ⟨(nodes₀ base).parent.getD base, []⟩ := rfl
    have live : (nodes₀ base).parent.getD base ∈ w₀.heap.live ∧
        (nodes₀ ((nodes₀ base).parent.getD base)).addr = (nodes₀ base).parent.getD base := by
      cases parent : (nodes₀ base).parent with
      | none => exact tracks.base
      | some q => exact above rfl q parent
    rw [standing]
    exact ⟨⟨left.ok, left.alike, left.keeps, left.nodes, live, trivial, List.forall_mem_nil _⟩,
      .start (stays _ live.1)⟩
  · exact ⟨⟨left.ok, left.alike, left.keeps, left.nodes, left.base, trivial, List.forall_mem_nil _⟩,
      .start (stays _ tracks.base.1)⟩
  · exact absurd shallow (by simp)

theorem down (keeps : Keeps st.world w₁) (alike : Alike w₁ w₁')
    (fresh : Fat32.Fresh st.world w₁ (p.node nodes₀) child) :
    Tracks w₀ nodes₀ ⟨p.base, child :: p.trail⟩ w₁'
        (Vfs.leave owned p.addr ((st.setWorld w₁).setNode child.addr child)) ∧
      Stands nodes₀ ⟨p.base, child :: p.trail⟩ true
        (Vfs.leave owned p.addr ((st.setWorld w₁).setNode child.addr child)) := by
  have other : p.addr < child.addr := lt_of_lt_of_le tracks.addr_lt fresh.new.1
  have peek : ((st.setWorld w₁).setNode child.addr child).peek p.addr = p.node nodes₀ := by
    rw [peek_live ((keeps.live _ tracks.addr_lt).mpr stands.live)]
    exact (Function.update_of_ne other.ne ..).trans tracks.node_eq
  -- What is freed is older than the node that was looked up.
  have stays : ∀ q ∈ w₁.heap.live, st.world.heap.next ≤ q →
      q ∈ (Vfs.leave owned p.addr ((st.setWorld w₁).setNode child.addr child)).world.heap.live := by
    intro q live new
    cases owned with
    | false => exact live
    | true =>
      have addr := tracks.addr_lt
      have data : (p.node nodes₀).fsDataAddr < st.world.heap.next := by
        obtain ⟨base, _ | ⟨node, trail⟩⟩ := p
        · exact absurd rfl (stands.owned.mp rfl)
        · exact (tracks.stored node (List.mem_cons_self ..)).old.2
      show q ∈ (Fat32.freeNode (((st.setWorld w₁).setNode child.addr child).peek p.addr)
        w₁).heap.live
      rw [peek, Fat32.freeNode, tracks.node_addr, World.mem_free_of_ne _ (by omega),
        World.mem_free_of_ne _ (by omega)]
      exact live
  refine ⟨(tracks.push keeps alike fresh).leave fun looked => ?_, by simp,
    stays _ fresh.live.1 fresh.new.1, fun _ => stays _ fresh.live.2 fresh.new.2⟩
  rw [peek]
  exact tracks.new_of_trail (stands.owned.mp looked)

end Tracks

end Thuban.Vfs

import Thuban.Vfs.Descriptors

/-!
# The store of nodes

An invariant of all nodes that were ever made, freed ones included: their addresses and those of their
`fs_data` were handed out by different calls of `malloc`.  The calls of `fs/vfs.c` keep it as long as
they step on allocated nodes only (`Safe`), and of the objects that were allocated before they free none,
apart from the node that `vfs_stat`, `vfs_mkdir` and `cd` free at their end and the file that `vfs_close`
frees.
-/

namespace Thuban.Vfs

open Lib (Bytes)
open Fat32 (Fs)
open World (Keeps Alike)

section Updates

variable (st : Vfs)

@[simp] theorem setNode_self (a : ℕ) (node : VfsNode) : (st.setNode a node).nodes a = node :=
  Function.update_self ..

theorem setNode_ne {a b : ℕ} (other : b ≠ a) (node : VfsNode) :
    (st.setNode a node).nodes b = st.nodes b :=
  Function.update_of_ne other ..

@[simp] theorem setFd_self (fd : ℕ) (file : Option VfsFile) : (st.setFd fd file).fdTable fd = file :=
  Function.update_self ..

theorem setFd_ne {fd fd' : ℕ} (other : fd' ≠ fd) (file : Option VfsFile) :
    (st.setFd fd file).fdTable fd' = st.fdTable fd' :=
  Function.update_of_ne other ..

end Updates

def IsNode (st : Vfs) (a : ℕ) : Prop := (st.nodes a).addr = a

structure WellFormed (st : Vfs) : Prop where
  ok : st.world.heap.Ok
  bound : ∀ a, st.IsNode a → a < st.world.heap.next ∧ (st.nodes a).fsDataAddr < st.world.heap.next
  parent : ∀ a b, st.IsNode a → (st.nodes a).parent = some b →
    st.IsNode b ∧ (st.nodes b).isDirectory = true
  apart : ∀ a b, st.IsNode a → st.IsNode b → (st.nodes a).fsDataAddr ≠ b
  injective : ∀ a b, st.IsNode a → st.IsNode b →
    (st.nodes a).fsDataAddr = (st.nodes b).fsDataAddr → a = b
  shared : ∀ a, st.Shared a → st.IsNode a ∧ (st.nodes a).isDirectory = true
  files : ∀ fd file, st.fdTable fd = some file → st.IsNode file.node ∧
    file.addr < st.world.heap.next ∧
    ∀ a, st.IsNode a → file.addr ≠ a ∧ file.addr ≠ (st.nodes a).fsDataAddr

/-- The node that `vfs_write` and `O_TRUNC` leave: its size and its first cluster may be new. -/
def SameNode (node node' : VfsNode) : Prop :=
  ∃ size fsData, node' = { node with size := size, fsData := fsData }

theorem SameNode.refl (node : VfsNode) : SameNode node node := ⟨node.size, node.fsData, rfl⟩

theorem SameNode.trans {node node' node'' : VfsNode} :
    SameNode node node' → SameNode node' node'' → SameNode node node''
  | ⟨_, _, first⟩, ⟨size, fsData, second⟩ => ⟨size, fsData, by rw [second, first]⟩

theorem SameNode.fields {node node' : VfsNode} (same : SameNode node node') :
    node'.addr = node.addr ∧ node'.fsDataAddr = node.fsDataAddr ∧ node'.parent = node.parent ∧
      node'.isDirectory = node.isDirectory := by
  obtain ⟨size, fsData, rfl⟩ := same
  exact ⟨rfl, rfl, rfl, rfl⟩

namespace WellFormed

variable {st : Vfs} (formed : WellFormed st)

include formed

variable {a : ℕ} {w : World}

theorem touch (a : ℕ) : WellFormed (st.touch a) := by
  unfold Vfs.touch
  split_ifs
  · exact formed
  · exact ⟨formed.ok, formed.bound, formed.parent, formed.apart, formed.injective, formed.shared,
      formed.files⟩

theorem setWorld (ok : w.heap.Ok) (next : st.world.heap.next ≤ w.heap.next) :
    WellFormed (st.setWorld w) := by
  refine ⟨ok, fun a node => ?_, formed.parent, formed.apart, formed.injective, formed.shared,
    fun fd file here => ?_⟩
  · obtain ⟨lt, data⟩ := formed.bound a node
    exact ⟨lt_of_lt_of_le lt next, lt_of_lt_of_le data next⟩
  · obtain ⟨node, lt, other⟩ := formed.files fd file here
    exact ⟨node, lt_of_lt_of_le lt next, other⟩

theorem driver (keeps : Keeps st.world w) : WellFormed (st.setWorld w) :=
  formed.setWorld (keeps.ok formed.ok) keeps.next

theorem freeNode (a : ℕ) : WellFormed (st.freeNode a) := by
  apply formed.setWorld
  · exact World.free_ok (World.free_ok formed.ok _) _
  · rw [Fat32.freeNode, World.free_next, World.free_next]

theorem leave (owned : Bool) (a : ℕ) : WellFormed (leave owned a st) := by
  cases owned with
  | false => exact formed
  | true => exact formed.freeNode a

/-- A node keeps its place when its size and its first cluster change. -/
theorem update {node : VfsNode} (same : SameNode (st.nodes a) node) :
    WellFormed (st.setNode a node) := by
  have shape : ∀ b, SameNode (st.nodes b) ((st.setNode a node).nodes b) := by
    intro b
    by_cases here : b = a
    · rw [here, setNode_self]
      exact same
    · rw [setNode_ne st here]
      exact .refl _
  have addr := fun b => (shape b).fields.1
  have data := fun b => (shape b).fields.2.1
  have parent := fun b => (shape b).fields.2.2.1
  have directory := fun b => (shape b).fields.2.2.2
  have isNode : ∀ b, (st.setNode a node).IsNode b ↔ st.IsNode b := fun b => by
    rw [IsNode, addr, IsNode]
  constructor
  · exact formed.ok
  · intro b hb
    rw [data]
    exact formed.bound b ((isNode b).mp hb)
  · intro b c hb up
    rw [parent] at up
    rw [isNode, directory]
    exact formed.parent b c ((isNode b).mp hb) up
  · intro b c hb hc
    rw [data]
    exact formed.apart b c ((isNode b).mp hb) ((isNode c).mp hc)
  · intro b c hb hc
    rw [data, data]
    exact formed.injective b c ((isNode b).mp hb) ((isNode c).mp hc)
  · intro b shared
    rw [isNode, directory]
    exact formed.shared b shared
  · intro fd file here
    obtain ⟨hn, lt, other⟩ := formed.files fd file here
    refine ⟨(isNode _).mpr hn, lt, fun b hb => ?_⟩
    rw [data]
    exact other b ((isNode b).mp hb)

/-- A node that was looked up comes into the store. -/
theorem insert {cur : ℕ} {child : VfsNode} (node : st.IsNode cur)
    (directory : (st.nodes cur).isDirectory = true) (keeps : Keeps st.world w)
    (fresh : Fat32.Fresh st.world w (st.nodes cur) child) :
    WellFormed ((st.setWorld w).setNode child.addr child) := by
  set st' := (st.setWorld w).setNode child.addr child with hst'
  have self : st'.nodes child.addr = child := Function.update_self ..
  have other : ∀ a, a ≠ child.addr → st'.nodes a = st.nodes a := fun a ne =>
    Function.update_of_ne ne ..
  have next := keeps.next
  obtain ⟨newAddr, newData⟩ := fresh.new
  obtain ⟨addrLt, dataLt⟩ := fresh.old
  have old : ∀ a, st.IsNode a → st'.nodes a = st.nodes a := fun a here =>
    other a (by have := (formed.bound a here).1; omega)
  have stays : ∀ a, st.IsNode a → st'.IsNode a := fun a here => by
    rw [IsNode, old a here]
    exact here
  have either : ∀ a, st'.IsNode a → a = child.addr ∨ st.IsNode a := fun a here => by
    by_cases same : a = child.addr
    · exact .inl same
    · rw [IsNode, other a same] at here
      exact .inr here
  constructor
  · exact keeps.ok formed.ok
  · intro a here
    rcases either a here with rfl | here
    · rw [self]
      exact ⟨addrLt, dataLt⟩
    · obtain ⟨lt, data⟩ := formed.bound a here
      rw [old a here]
      exact ⟨lt_of_lt_of_le lt next, lt_of_lt_of_le data next⟩
  · intro a b here up
    rcases either a here with rfl | here
    · rw [self, fresh.parent, node] at up
      obtain rfl := Option.some.inj up
      exact ⟨stays cur node, old cur node ▸ directory⟩
    · rw [old a here] at up
      obtain ⟨here, directory⟩ := formed.parent a b here up
      exact ⟨stays b here, old b here ▸ directory⟩
  · intro a b ha hb
    rcases either a ha with rfl | ha
    · rw [self]
      rcases either b hb with rfl | hb
      · exact fresh.distinct.symm
      · have := (formed.bound b hb).1
        omega
    · rw [old a ha]
      rcases either b hb with rfl | hb
      · have := (formed.bound a ha).2
        omega
      · exact formed.apart a b ha hb
  · intro a b ha hb
    rcases either a ha with rfl | ha
    · rcases either b hb with rfl | hb
      · exact fun _ => rfl
      · have := (formed.bound b hb).2
        rw [self, old b hb]
        omega
    · rcases either b hb with rfl | hb
      · have := (formed.bound a ha).2
        rw [self, old a ha]
        omega
      · rw [old a ha, old b hb]
        exact formed.injective a b ha hb
  · intro a shared
    obtain ⟨here, directory⟩ := formed.shared a shared
    exact ⟨stays a here, old a here ▸ directory⟩
  · intro fd file here
    obtain ⟨hn, lt, apart⟩ := formed.files fd file here
    refine ⟨stays _ hn, lt_of_lt_of_le lt next, fun a ha => ?_⟩
    rcases either a ha with rfl | ha
    · rw [self]
      exact ⟨by omega, by omega⟩
    · rw [old a ha]
      exact apart a ha

end WellFormed

/-- The node is allocated together with its `fs_data`. -/
def Allocated (st : Vfs) (a : ℕ) : Prop :=
  a ∈ st.world.heap.live ∧ (st.nodes a).fsDataAddr ∈ st.world.heap.live

variable {st : Vfs} {a b : ℕ}

section

variable (alloc : st.Allocated a) (formed : WellFormed st) (ha : st.IsNode a) (hb : st.IsNode b)
  (live : b ∈ st.world.heap.live) (other : a ≠ b)

include alloc formed ha hb live other

theorem Allocated.freeNode : (st.freeNode b).Allocated a := by
  show a ∈ (Fat32.freeNode (st.peek b) st.world).heap.live ∧
    (st.nodes a).fsDataAddr ∈ (Fat32.freeNode (st.peek b) st.world).heap.live
  rw [peek_live live, Fat32.freeNode, show (st.nodes b).addr = b from hb]
  constructor
  · rw [World.mem_free_of_ne _ other, World.mem_free_of_ne _ (formed.apart b a hb ha).symm]
    exact alloc.1
  · rw [World.mem_free_of_ne _ (formed.apart a b ha hb),
      World.mem_free_of_ne _ fun same => other (formed.injective a b ha hb same)]
    exact alloc.2

end

/-- The state after a call: the tables of mounts and the current directory are as before, and so are
the nodes and the objects that were there. -/
structure Carries (st st' : Vfs) : Prop where
  cwd : st'.cwd = st.cwd
  mounts : st'.mounts = st.mounts
  keeps : Keeps st.world st'.world
  nodes : ∀ a, st.IsNode a → SameNode (st.nodes a) (st'.nodes a)
  formed : WellFormed st'

namespace Carries

theorem refl {st : Vfs} (formed : WellFormed st) : Carries st st :=
  ⟨rfl, rfl, .refl _, fun _ _ => .refl _, formed⟩

variable {st st' st'' : Vfs}

theorem isNode (carries : Carries st st') {a : ℕ} (node : st.IsNode a) : st'.IsNode a := by
  obtain ⟨size, fsData, eq⟩ := carries.nodes a node
  rw [IsNode, eq]
  exact node

theorem trans (first : Carries st st') (second : Carries st' st'') : Carries st st'' where
  cwd := second.cwd.trans first.cwd
  mounts := second.mounts.trans first.mounts
  keeps := first.keeps.trans second.keeps
  nodes := fun a node => (first.nodes a node).trans (second.nodes a (first.isNode node))
  formed := second.formed

theorem driver (carries : Carries st st') {w : World} (keeps : Keeps st'.world w) :
    Carries st (st'.setWorld w) :=
  carries.trans ⟨rfl, rfl, keeps, fun _ _ => .refl _, carries.formed.driver keeps⟩

theorem free (carries : Carries st st') {p : ℕ} (new : st.world.heap.next ≤ p) :
    Carries st (st'.setWorld (st'.world.free p)) := by
  refine ⟨carries.cwd, carries.mounts, carries.keeps.free new, carries.nodes, ?_⟩
  apply carries.formed.setWorld
  · exact World.free_ok carries.formed.ok p
  · exact (World.free_next _ p).ge

theorem shared_iff (carries : Carries st st') (a : ℕ) : st'.Shared a ↔ st.Shared a := by
  rw [Shared, Shared, carries.cwd, carries.mounts]

theorem allocated (carries : Carries st st') (formed : WellFormed st) {a : ℕ} (node : st.IsNode a)
    (alloc : st.Allocated a) : st'.Allocated a := by
  obtain ⟨lt, data⟩ := formed.bound a node
  obtain ⟨size, fsData, eq⟩ := carries.nodes a node
  refine ⟨(carries.keeps.live a lt).mpr alloc.1, ?_⟩
  rw [eq]
  exact (carries.keeps.live _ data).mpr alloc.2

end Carries

theorem Carries.of_tracks {st st' : Vfs} {p : Place} {w : World} (formed : WellFormed st)
    (tables : SameTables st st') (tracks : Tracks st.world st.nodes p w st')
    (formed' : WellFormed st') : Carries st st' where
  cwd := tables.cwd
  mounts := tables.mounts
  keeps := tracks.keeps
  nodes := fun a node => by
    rw [tracks.nodes a (formed.bound a node).1]
    exact .refl _
  formed := formed'

/-! ## Path resolution -/

/-- An allocated directory, as the shared nodes are and the nodes that `..` leads to from them. -/
structure Footing (st : Vfs) (a : ℕ) : Prop where
  isNode : st.IsNode a
  directory : (st.nodes a).isDirectory = true
  alloc : st.Allocated a

/-- The components, from a node `depth` levels below the one at `base` on, lead up only at `base` and one
level below it, and from `base` to allocated nodes: the nodes between have been freed. -/
def Climbs (st : Vfs) : List CString → (base depth : ℕ) → Prop
  | [], _, _ => True
  | token :: rest, base, depth =>
      if token = here then st.Climbs rest base depth
      else if token = above then
        depth ≤ 1 ∧ (depth = 0 → ∀ parent ∈ (st.nodes base).parent, st.Allocated parent) ∧
          st.Climbs rest (if depth = 0 then (st.nodes base).parent.getD base else base) 0
      else st.Climbs rest base (depth + 1)

/-- The resolution of the path, with further components behind it, reads no freed node but the one that
`..` has just left. -/
def Safe (st : Vfs) (path : CString) (more : List CString) : Prop :=
  ∀ start rel, st.origin path = some (start, rel) → st.Climbs (tokens rel ++ more) start 0

section Climbs

variable {st : Vfs} {token : CString} {ts more : List CString} {base depth : ℕ}

theorem Climbs.above {p : Place} (climbs : st.Climbs (Vfs.above :: ts) p.base p.trail.length) :
    p.trail.length ≤ 1 ∧
      (p.trail = [] → ∀ parent, (st.nodes p.base).parent = some parent → st.Allocated parent) ∧
      st.Climbs ts (p.up st.nodes).base (p.up st.nodes).trail.length := by
  rw [Climbs, if_neg (by decide), if_pos rfl] at climbs
  obtain ⟨shallow, above, climbs⟩ := climbs
  obtain ⟨base, _ | ⟨node, _ | ⟨next, trail⟩⟩⟩ := p
  · exact ⟨shallow, fun _ => above rfl, climbs⟩
  · exact ⟨shallow, fun bottom => absurd bottom (by simp), climbs⟩
  · exact absurd shallow (by simp)

theorem Climbs.name (isHere : token ≠ here) (isAbove : token ≠ Vfs.above)
    (climbs : st.Climbs (token :: ts) base depth) : st.Climbs ts base (depth + 1) := by
  rwa [Climbs, if_neg isHere, if_neg isAbove] at climbs

theorem climbs_of_notMem (names : Vfs.above ∉ ts) : st.Climbs ts base depth := by
  induction ts generalizing depth with
  | nil => trivial
  | cons token ts ih =>
    obtain ⟨first, rest⟩ := not_or.mp (mt List.mem_cons.mpr names)
    rw [Climbs, if_neg (Ne.symm first)]
    split_ifs
    · exact ih rest
    · exact ih rest

theorem Climbs.of_append (climbs : st.Climbs (ts ++ more) base depth) : st.Climbs ts base depth := by
  induction ts generalizing base depth with
  | nil => trivial
  | cons token ts ih =>
    rw [List.cons_append, Climbs] at climbs
    rw [Climbs]
    split_ifs at climbs ⊢
    · exact ih climbs
    · exact ⟨climbs.1, climbs.2.1, ih climbs.2.2⟩
    · exact ⟨climbs.1, climbs.2.1, ih climbs.2.2⟩
    · exact ih climbs

theorem Carries.climbs {st' : Vfs} (carries : Carries st st') (formed : WellFormed st)
    (node : st.IsNode base) (climbs : st.Climbs ts base depth) : st'.Climbs ts base depth := by
  induction ts generalizing base depth with
  | nil => trivial
  | cons token ts ih =>
    rw [Climbs] at climbs ⊢
    rw [(carries.nodes base node).fields.2.2.1]
    split_ifs at climbs ⊢
    · exact ih node climbs
    · obtain ⟨shallow, above, climbs⟩ := climbs
      refine ⟨shallow, fun bottom parent up => ?_, ih ?_ climbs⟩
      · exact carries.allocated formed (formed.parent base parent node up).1 (above bottom parent up)
      · cases up : (st.nodes base).parent with
        | none => exact node
        | some parent => exact (formed.parent base parent node up).1
    · obtain ⟨shallow, above, climbs⟩ := climbs
      refine ⟨shallow, fun bottom => ?_, ih node climbs⟩
      contradiction
    · exact ih node climbs

theorem Carries.safe {st' : Vfs} {path : CString} (carries : Carries st st') (formed : WellFormed st)
    (safe : st.Safe path more) : st'.Safe path more := by
  intro start rel begins
  have begins : st.origin path = some (start, rel) := by
    rwa [origin, carries.cwd, carries.mounts] at begins
  exact carries.climbs formed (formed.shared start (origin_shared begins)).1 (safe start rel begins)

end Climbs

/-- The loop of `vfs_resolve_path_from`, started in `st₀`, has come to the place `p`. -/
structure Walks (st₀ : Vfs) (p : Place) (w : World) (owned : Bool) (st : Vfs) : Prop where
  formed : WellFormed st
  tables : SameTables st₀ st
  tracks : Tracks st₀.world st₀.nodes p w st
  stands : Stands st₀.nodes p owned st
  footing : st₀.Footing p.base

namespace Walks

theorem start {st : Vfs} {a : ℕ} (formed : WellFormed st) (footing : st.Footing a) :
    Walks st ⟨a, []⟩ st.world false st where
  formed := formed
  tables := .refl st
  tracks := .start formed.ok footing.alloc.1 footing.isNode
  stands := .start footing.alloc.1
  footing := footing

variable {st₀ st st' : Vfs} {p : Place} {w : World} {owned : Bool} {fuel : ℕ} {r : Option ℕ}
  (walks : Walks st₀ p w owned st)

include walks

theorem isNode : st.IsNode p.addr := by
  rw [IsNode, walks.tracks.node_eq, walks.tracks.node_addr]

theorem allocated : st.Allocated p.addr := by
  refine ⟨walks.stands.live, ?_⟩
  rw [walks.tracks.node_eq]
  by_cases bottom : p.trail = []
  · have data := walks.footing.alloc.2
    obtain ⟨base, trail⟩ := p
    obtain rfl : trail = [] := bottom
    exact (walks.tracks.keeps.live _ (walks.tracks.ok.below _ data)).mpr data
  · exact walks.stands.data bottom

theorem up (formed₀ : WellFormed st₀) (shallow : p.trail.length ≤ 1)
    (above : p.trail = [] → ∀ parent, (st₀.nodes p.base).parent = some parent →
      st₀.Allocated parent) :
    Walks st₀ (p.up st₀.nodes) w false ((leave owned p.addr st).touch p.addr) := by
  have next : ∀ parent, (st₀.nodes p.base).parent = some parent →
      st₀.IsNode parent ∧ (st₀.nodes parent).isDirectory = true :=
    fun parent => formed₀.parent p.base parent walks.footing.isNode
  obtain ⟨tracks, stands⟩ := walks.tracks.up walks.stands shallow fun bottom parent same =>
    ⟨(above bottom parent same).1, (next parent same).1⟩
  refine ⟨(walks.formed.leave owned p.addr).touch p.addr,
    walks.tables.trans ((leave_tables ..).trans (touch_tables ..)), tracks, stands, ?_⟩
  have here := walks.footing
  obtain ⟨base, _ | ⟨node, trail⟩⟩ := p
  · rw [Place.up]
    cases parent : (st₀.nodes base).parent with
    | none => exact here
    | some q => exact ⟨(next q parent).1, (next q parent).2, above rfl q parent⟩
  · exact here

theorem down {w₁ w₁' : World} {child : VfsNode} (directory : (p.node st₀.nodes).isDirectory = true)
    (keeps : Keeps st.world w₁) (alike : Alike w₁ w₁')
    (fresh : Fat32.Fresh st.world w₁ (p.node st₀.nodes) child) :
    Walks st₀ ⟨p.base, child :: p.trail⟩ w₁' true
      (leave owned p.addr ((st.setWorld w₁).setNode child.addr child)) := by
  obtain ⟨tracks, stands⟩ := walks.tracks.down walks.stands keeps alike fresh
  rw [← walks.tracks.node_eq] at directory fresh
  have tables := (setWorld_tables st w₁).trans (setNode_tables _ child.addr child)
  exact ⟨(walks.formed.insert walks.isNode directory keeps fresh).leave owned p.addr,
    walks.tables.trans (tables.trans (leave_tables ..)), tracks, stands, walks.footing⟩

/-- The loop finds what the components lead to. -/
theorem resolveLoop {ts : List CString} (formed₀ : WellFormed st₀)
    (climbs : st₀.Climbs ts p.base p.trail.length)
    (done : resolveLoop fuel ts p.addr owned st = some (r, st')) :
    Carries st₀ st' ∧ ∃ place w', follow st₀.nodes st₀.supers fuel ts p w = some (place, w') ∧
      r = place.map Place.addr ∧ ∀ q, place = some q → ∃ owned', Walks st₀ q w' owned' st' := by
  induction ts generalizing p owned w st with
  | nil =>
    cases done
    refine ⟨.of_tracks formed₀ walks.tables walks.tracks walks.formed, some p, w, rfl, rfl, ?_⟩
    rintro q same
    exact ⟨owned, Option.some.inj same ▸ walks⟩
  | cons token rest ih =>
    have step := walks.tracks.step walks.stands done
    rw [walks.tables.supers] at step
    rcases step with ⟨isHere, loop, leads⟩ | ⟨rfl, bottom, root, loop, leads⟩ |
      ⟨rfl, -, loop, leads⟩ | ⟨-, w₁, w₁', rfl, keeps, alike, rfl, fails⟩ |
      ⟨isHere, isAbove, directory, child, w₁, w₁', keeps, alike, fresh, loop, leads⟩
    · rw [leads]
      rw [Climbs, if_pos isHere] at climbs
      exact ih walks climbs loop
    · rw [leads]
      obtain ⟨-, -, climbs⟩ := climbs.above
      have same : p.up st₀.nodes = p := by
        obtain ⟨base, trail⟩ := p
        obtain rfl : trail = [] := bottom
        rw [Place.up, root, Option.getD_none]
      rw [same] at climbs
      exact ih walks climbs loop
    · rw [leads]
      obtain ⟨shallow, above, climbs⟩ := climbs.above
      exact ih (walks.up formed₀ shallow above) climbs loop
    · have tracks := walks.tracks.setWorld keeps alike
      have stands : Stands st₀.nodes p owned (st.setWorld w₁) :=
        ⟨walks.stands.owned, (keeps.live _ walks.tracks.addr_lt).mpr walks.stands.live, fun looked =>
          (keeps.live _ ((walks.tracks.keeps.ok formed₀.ok).below _
            (walks.stands.data looked))).mpr (walks.stands.data looked)⟩
      refine ⟨.of_tracks formed₀ ?_ (tracks.leave (tracks.new_of_owned stands))
        ((walks.formed.driver keeps).leave owned p.addr), none, w₁', fails rest, rfl,
        fun _ found => absurd found (by simp)⟩
      exact walks.tables.trans ((setWorld_tables st w₁).trans (leave_tables ..))
    · rw [leads]
      exact ih (walks.down directory keeps alike fresh) (climbs.name isHere isAbove) loop

end Walks

/-- The roots of the mounts and the current directory are allocated, together with their `fs_data`. -/
def SharedLive (st : Vfs) : Prop := ∀ a, st.Shared a → st.Allocated a

theorem SharedLive.carries {st st' : Vfs} (live : st.SharedLive) (formed : WellFormed st)
    (carries : Carries st st') : st'.SharedLive := fun a shared =>
  have shared := (carries.shared_iff a).mp shared
  carries.allocated formed (formed.shared a shared).1 (live a shared)

/-- `vfs_resolve_path` of a safe path finds the node that the path leads to, which is allocated. -/
theorem resolvePath_carries {path : CString} {more : List CString} {fuel : ℕ} {st st' : Vfs}
    {r : Option ℕ} (formed : WellFormed st) (live : st.SharedLive) (safe : st.Safe path more)
    (done : st.resolvePath path fuel = some (r, st')) :
    Carries st st' ∧ ∃ place w', st.leads path fuel = some (place, w') ∧
      r = place.map Place.addr ∧ ∀ p, place = some p → ∃ owned, Walks st p w' owned st' := by
  rw [resolvePath_eq] at done
  rw [leads]
  cases begins : st.origin path with
  | none =>
    rw [begins] at done
    cases done
    exact ⟨.refl formed, none, _, rfl, rfl, fun _ found => absurd found (by simp)⟩
  | some begin =>
    obtain ⟨start, rel⟩ := begin
    rw [begins] at done
    have shared := origin_shared begins
    obtain ⟨isNode, directory⟩ := formed.shared start shared
    have walks : Walks st ⟨start, []⟩ st.world false st :=
      .start formed ⟨isNode, directory, live start shared⟩
    exact walks.resolveLoop formed (safe start rel begins).of_append done

/-! ## Calls -/

theorem WellFormed.setFd {st : Vfs} (formed : WellFormed st) (fd : ℕ) {file : Option VfsFile}
    (fits : ∀ f, file = some f → st.IsNode f.node ∧ f.addr < st.world.heap.next ∧
      ∀ a, st.IsNode a → f.addr ≠ a ∧ f.addr ≠ (st.nodes a).fsDataAddr) :
    WellFormed (st.setFd fd file) := by
  refine ⟨formed.ok, formed.bound, formed.parent, formed.apart, formed.injective, formed.shared, ?_⟩
  intro fd' f here
  by_cases same : fd' = fd
  · rw [same, setFd_self] at here
    exact fits f here
  · rw [setFd_ne st same] at here
    exact formed.files fd' f here

namespace Carries

variable {st st' : Vfs}

theorem setFd (carries : Carries st st') (fd : ℕ) {file : Option VfsFile}
    (fits : ∀ f, file = some f → st'.IsNode f.node ∧ f.addr < st'.world.heap.next ∧
      ∀ a, st'.IsNode a → f.addr ≠ a ∧ f.addr ≠ (st'.nodes a).fsDataAddr) :
    Carries st (st'.setFd fd file) :=
  carries.trans ⟨rfl, rfl, .refl _, fun _ _ => .refl _, carries.formed.setFd fd fits⟩

theorem update (carries : Carries st st') {a : ℕ} {node : VfsNode}
    (same : SameNode (st'.nodes a) node) : Carries st (st'.setNode a node) := by
  refine carries.trans ⟨rfl, rfl, .refl _, fun b _ => ?_, carries.formed.update same⟩
  by_cases here : b = a
  · rw [here, setNode_self]
    exact same
  · rw [setNode_ne st' here]
    exact .refl _

end Carries

variable {st st' : Vfs} {addr flags mode fuel count : ℕ} {r fd : ℤ} {path : CString}
  {file : VfsFile}

theorem truncate_carries (formed : WellFormed st) (a flags : ℕ) :
    Carries st (st.truncate a flags) ∧ ∀ b, SameNode (st.nodes b) ((st.truncate a flags).nodes b) := by
  have start := Carries.refl formed
  unfold truncate
  split_ifs
  · have same : SameNode (st.nodes a) { st.nodes a with size := 0 } :=
      ⟨0, (st.nodes a).fsData, rfl⟩
    refine ⟨start.update same, fun b => ?_⟩
    by_cases here : b = a
    · rw [here, setNode_self]
      exact same
    · rw [setNode_ne _ here]
      exact .refl _
  · exact ⟨start, fun _ => .refl _⟩

theorem openNode_carries (formed : WellFormed st) (node : st.IsNode addr)
    (done : st.openNode addr flags mode fuel = some (r, st')) : Carries st st' := by
  have start := Carries.refl formed
  cases openNode_ends done with
  | refused => exact start
  | noMemory failed => exact start.driver ((Keeps.refl _).failed_malloc failed)
  | full allocated =>
    obtain ⟨keeps, here, -, -⟩ := (Keeps.refl st.world).malloc allocated
    have carries := start.driver keeps
    have freed := (carries.trans (truncate_carries carries.formed addr flags).1).free here.ge
    rwa [truncate_world] at freed
  | @opened file fd w _ _ allocated _ =>
    obtain ⟨keeps, here, next, -⟩ := (Keeps.refl st.world).malloc allocated
    have carries := start.driver keeps
    obtain ⟨truncated, shape⟩ := truncate_carries carries.formed addr flags
    have carries₂ := carries.trans truncated
    refine carries₂.setFd _ fun f same => ?_
    cases same
    refine ⟨carries₂.isNode node, ?_, fun a ha => ?_⟩
    · rw [truncate_world]
      show file < w.heap.next
      omega
    · -- the file has a new address, whether the node is truncated or not
      obtain ⟨same, data, -⟩ := (shape a).fields
      have bound := formed.bound a (same.symm.trans ha)
      rw [data]
      show file ≠ a ∧ file ≠ (st.nodes a).fsDataAddr
      omega

theorem inDirectory_carries {missing : ℤ} {act : Fs → VfsNode → ℕ → World → Option (ℤ × World)}
    (safe : ∀ fs node fuel w r w', act fs node fuel w = some (r, w') → Keeps w w') {dir : ℕ}
    (formed : WellFormed st) (done : st.inDirectory missing act dir fuel = some (r, st')) :
    Carries st st' := by
  have start := Carries.refl formed
  unfold inDirectory at done
  split_ifs at done
  · cases done
    exact start
  obtain ⟨verdict, -, ends⟩ := Option.bind_eq_some_iff.mp done
  split_ifs at ends
  · cases ends
    exact start
  · obtain ⟨⟨r', w'⟩, acted, same⟩ := Option.map_eq_some_iff.mp ends
    cases same
    exact start.driver (safe _ _ _ _ _ _ acted)

theorem removeNode_carries {remove : Fs → VfsNode → CString → ℕ → World → Option (ℤ × World)}
    (safe : ∀ fs node name fuel w r w', remove fs node name fuel w = some (r, w') → Keeps w w')
    (formed : WellFormed st) (done : st.removeNode remove addr fuel = some (r, st')) :
    Carries st st' := by
  have start := Carries.refl formed
  unfold removeNode at done
  split at done
  · cases done
    exact start
  obtain ⟨verdict, -, ends⟩ := Option.bind_eq_some_iff.mp done
  split_ifs at ends
  · cases ends
    exact start
  · obtain ⟨⟨r', w'⟩, acted, same⟩ := Option.map_eq_some_iff.mp ends
    cases same
    exact start.driver (safe _ _ _ _ _ _ _ acted)

/-- What `vfs_open` and `vfs_mkdir` ask of the driver frees nothing but its own objects. -/
theorem create_keeps {fs : Fs} {node : VfsNode} {name : CString} {w w' : World}
    (done : Fat32.create fs node name mode fuel w = some (r, w')) : Keeps w w' :=
  (Fat32.create_kept (Fat32.lends_kept _ _) (.refl _) trivial done).keeps

section

variable {more : List CString} (formed : WellFormed st) (live : st.SharedLive)

include formed live

theorem resolvePath_found (safe : st.Safe path more)
    (done : st.resolvePath path fuel = some (some addr, st')) :
    Carries st st' ∧ st'.IsNode addr ∧ st'.Allocated addr := by
  obtain ⟨carries, place, w, -, result, found⟩ := resolvePath_carries formed live safe done
  obtain ⟨p, same, rfl⟩ := Option.map_eq_some_iff.mp result.symm
  obtain ⟨owned, walks⟩ := found p same
  exact ⟨carries, walks.isNode, walks.allocated⟩

variable (safe : st.Safe path [])

include safe

theorem openCreate_carries {r : Except ℤ ℕ} (safeDir : st.Safe (splitPath path).1 [])
    (done : st.openCreate path mode fuel = some (r, st')) :
    Carries st st' ∧ ∀ node, r = .ok node → st'.IsNode node ∧ st'.Allocated node := by
  obtain ⟨⟨found, st₁⟩, resolved, rest⟩ := Option.bind_eq_some_iff.mp done
  have carries₁ := (resolvePath_carries formed live safeDir resolved).1
  cases found with
  | none =>
    cases rest
    exact ⟨carries₁, fun _ same => absurd same (by simp)⟩
  | some dir =>
    obtain ⟨⟨made, st₂⟩, created, rest⟩ := Option.bind_eq_some_iff.mp rest
    have carries₂ := carries₁.trans (inDirectory_carries (fun _ _ _ _ _ _ acted => create_keeps acted)
      carries₁.formed created)
    dsimp only at rest
    split_ifs at rest
    · cases rest
      exact ⟨carries₂, fun _ same => absurd same (by simp)⟩
    · cases rest
      exact ⟨carries₂, fun _ same => absurd same (by simp)⟩
    obtain ⟨⟨again, st₃⟩, resolved', ends⟩ := Option.map_eq_some_iff.mp rest
    have live₂ := live.carries formed carries₂
    have safe₂ := carries₂.safe formed safe
    cases again with
    | none =>
      cases ends
      exact ⟨carries₂.trans (resolvePath_carries carries₂.formed live₂ safe₂ resolved').1,
        fun _ same => absurd same (by simp)⟩
    | some node =>
      cases ends
      obtain ⟨carries₃, found⟩ := resolvePath_found carries₂.formed live₂ safe₂ resolved'
      exact ⟨carries₂.trans carries₃, fun _ same => Except.ok.inj same ▸ found⟩

/-- What is opened is an allocated node. -/
theorem openTarget_carries {target : Except ℤ ℕ}
    (safeDir : flags &&& oCreat ≠ 0 → st.Safe (splitPath path).1 [])
    (done : st.openTarget path flags mode fuel = some (target, st')) :
    Carries st st' ∧ ∀ a, target = .ok a → st'.IsNode a ∧ st'.Allocated a := by
  obtain ⟨⟨found, st₁⟩, resolved, rest⟩ := Option.bind_eq_some_iff.mp done
  cases found with
  | some node =>
    cases rest
    obtain ⟨carries, found⟩ := resolvePath_found formed live safe resolved
    exact ⟨carries, fun _ same => Except.ok.inj same ▸ found⟩
  | none =>
    have carries := (resolvePath_carries formed live safe resolved).1
    split_ifs at rest with creat
    · obtain ⟨carries', found⟩ := openCreate_carries carries.formed (live.carries formed carries)
        (carries.safe formed safe) (carries.safe formed (safeDir creat)) rest
      exact ⟨carries.trans carries', found⟩
    · cases rest
      exact ⟨carries, fun _ same => absurd same (by simp)⟩

theorem vfsOpen_carries (safeDir : flags &&& oCreat ≠ 0 → st.Safe (splitPath path).1 [])
    (done : st.vfsOpen path flags mode fuel = some (r, st')) : Carries st st' := by
  rw [vfsOpen_eq] at done
  obtain ⟨⟨target, st₁⟩, reached, rest⟩ := Option.bind_eq_some_iff.mp done
  obtain ⟨carries, found⟩ := openTarget_carries formed live safe safeDir reached
  cases target with
  | error e =>
    cases rest
    exact carries
  | ok node => exact carries.trans (openNode_carries carries.formed (found node rfl).1 rest)

theorem mkdirNew_carries {st₁ : Vfs} (safeDir : st.Safe (splitPath path).1 [])
    (nowhere : st.resolvePath path fuel = some (none, st₁))
    (done : st.vfsMkdir path mode fuel = some (r, st')) : Carries st st' := by
  unfold vfsMkdir at done
  rw [nowhere, Option.bind_some] at done
  have carries₁ := (resolvePath_carries formed live safe nowhere).1
  obtain ⟨⟨found, st₂⟩, resolved, rest⟩ := Option.bind_eq_some_iff.mp done
  have carries₂ := carries₁.trans (resolvePath_carries carries₁.formed (live.carries formed carries₁)
    (carries₁.safe formed safeDir) resolved).1
  cases found with
  | none =>
    cases rest
    exact carries₂
  | some parent =>
    exact carries₂.trans (inDirectory_carries (fun _ _ _ _ _ _ acted => create_keeps acted)
      carries₂.formed rest)

omit safe

theorem vfsRmdir_carries (safe : st.Safe path more)
    (done : st.vfsRmdir path fuel = some (r, st')) : Carries st st' := by
  obtain ⟨⟨found, st₁⟩, resolved, rest⟩ := Option.bind_eq_some_iff.mp done
  have carries₁ := (resolvePath_carries formed live safe resolved).1
  cases found with
  | none =>
    cases rest
    exact carries₁
  | some node =>
    dsimp only at rest
    split_ifs at rest
    · cases rest
      exact carries₁
    · refine carries₁.trans (removeNode_carries (fun _ _ _ _ _ _ _ removed => ?_) carries₁.formed rest)
      exact (Fat32.rmdir_kept (Fat32.lends_kept _ _) (.refl _) trivial removed).keeps

theorem vfsUnlink_carries (safe : st.Safe path more)
    (done : st.vfsUnlink path fuel = some (r, st')) : Carries st st' := by
  obtain ⟨⟨found, st₁⟩, resolved, rest⟩ := Option.bind_eq_some_iff.mp done
  have carries₁ := (resolvePath_carries formed live safe resolved).1
  cases found with
  | none =>
    cases rest
    exact carries₁
  | some node =>
    dsimp only at rest
    split_ifs at rest
    · cases rest
      exact carries₁
    · refine carries₁.trans (removeNode_carries (fun _ _ _ _ _ _ _ removed => ?_) carries₁.formed rest)
      exact (Fat32.unlink_kept (Fat32.lends_kept _ _) (.refl _) trivial removed).keeps

end

theorem getFile_fits (formed : WellFormed st) (here : st.getFile fd = some file) :
    st.IsNode file.node ∧ file.addr < st.world.heap.next ∧
      ∀ a, st.IsNode a → file.addr ≠ a ∧ file.addr ≠ (st.nodes a).fsDataAddr := by
  unfold getFile at here
  split_ifs at here
  exact formed.files _ file here

theorem Carries.seek {file' : VfsFile} (carries : Carries st st')
    (here : st'.getFile fd = some file) (addr : file'.addr = file.addr)
    (node : file'.node = file.node) : Carries st (st'.setFd fd.toNat (some file')) := by
  refine carries.setFd _ fun f same => ?_
  rw [← Option.some.inj same, addr, node]
  exact getFile_fits carries.formed here

theorem vfsRead_carries {dst dst' : Bytes} (formed : WellFormed st)
    (done : st.vfsRead fd dst count fuel = some (r, dst', st')) : Carries st st' := by
  unfold vfsRead at done
  cases here : st.getFile fd with
  | none =>
    rw [here] at done
    cases done
    exact .refl formed
  | some file =>
    rw [here] at done
    obtain ⟨⟨n, dst₁, w⟩, read, same⟩ := Option.map_eq_some_iff.mp done
    cases same
    have keeps := (Fat32.read_kept (Fat32.lends_kept _ _) (.refl _) read).keeps
    refine ((Carries.refl formed).driver keeps).seek here ?_ ?_
    · split_ifs <;> rfl
    · split_ifs <;> rfl

theorem vfsWrite_carries {src : Bytes} (formed : WellFormed st)
    (done : st.vfsWrite fd src count fuel = some (r, st')) : Carries st st' := by
  unfold vfsWrite at done
  cases here : st.getFile fd with
  | none =>
    rw [here] at done
    cases done
    exact .refl formed
  | some file =>
    rw [here] at done
    dsimp only at done
    split_ifs at done
    · cases done
      exact .refl formed
    · obtain ⟨⟨n, node', w⟩, wrote, same⟩ := Option.map_eq_some_iff.mp done
      obtain ⟨keeps, -⟩ := Fat32.write_keeps wrote
      cases same
      have carries := ((Carries.refl formed).driver keeps).update
        (⟨node'.size, node'.fsData, rfl⟩ : SameNode (st.nodes file.node) _)
      by_cases positive : 0 < n
      · rw [if_pos positive]
        exact carries.seek here rfl rfl
      · rw [if_neg positive]
        exact carries.seek here rfl rfl

theorem vfsLseek_carries {offset : ℤ} {whence : ℕ} (formed : WellFormed st) :
    Carries st (st.vfsLseek fd offset whence).2 := by
  unfold vfsLseek
  cases here : st.getFile fd with
  | none => exact .refl formed
  | some file =>
    dsimp only
    split
    · exact .refl formed
    · split_ifs
      · exact .refl formed
      · exact (Carries.refl formed).seek here rfl rfl

end Thuban.Vfs

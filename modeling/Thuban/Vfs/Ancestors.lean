import Thuban.Fat32.Invariant
import Thuban.Vfs.Paths

/-!
# The nodes above a resolved node

`vfs_resolve_path_from` frees each node that it has looked up as soon as it leaves it.  A child keeps
the pointer to its parent, so that a node two levels below the start of the path has a parent that was
freed; and `..` reads `parent` behind the `free`.
-/

namespace Thuban.Vfs

open Fat32 (Fs)
open World (Keeps Alike)

def Above (nodes : ℕ → VfsNode) : ℕ → ℕ → Prop :=
  Relation.ReflTransGen fun a b => (nodes a).parent = some b

theorem Above.mem_of_closed {nodes : ℕ → VfsNode} {l : List ℕ} {a b : ℕ} (up : Above nodes a b)
    (closed : ∀ a ∈ l, ∀ b ∈ (nodes a).parent, b ∈ l) (mem : a ∈ l) : b ∈ l := by
  induction up with
  | refl => exact mem
  | tail _ step ih => exact closed _ ih _ step

/-- The node at `a` and the nodes above it are allocated. -/
def Standing (st : Vfs) (a : ℕ) : Prop :=
  ∀ b, Above st.nodes a b → b ∈ st.world.heap.live ∧ (st.nodes b).addr = b

/-- A resolution that was started in `st` returns `r` in `st'`: the node with all the nodes above it is
allocated, and no freed node was read. -/
def Intact (st : Vfs) (r : Option ℕ) (st' : Vfs) : Prop :=
  (∀ a, r = some a → ∀ b, Above st'.nodes a b → b ∈ st'.world.heap.live) ∧ st'.stale = st.stale

/-- The components lead up from a directory that they have entered, or at least two levels down. -/
def Strays (nodes : ℕ → VfsNode) (supers : ℕ → Fs) (fuel : ℕ) (ts : List CString) (p : Place)
    (w : World) : Prop :=
  (∃ before after q w', ts = before ++ above :: after ∧
    follow nodes supers fuel before p w = some (some q, w') ∧ q.trail ≠ []) ∨
  ∃ q w', follow nodes supers fuel ts p w = some (some q, w') ∧ 2 ≤ q.trail.length

/-- The path leads up from a directory that it has entered, or at least two levels down from its
start. -/
def Overreaches (path : CString) (fuel : ℕ) (st : Vfs) : Prop :=
  ∃ start rel, st.origin path = some (start, rel) ∧
    Strays st.nodes st.supers fuel (tokens rel) ⟨start, []⟩ st.world

section Strays

variable {nodes : ℕ → VfsNode} {supers : ℕ → Fs} {fuel : ℕ} {token : CString} {ts : List CString}
  {p : Place} {w : World}

theorem strays_nil : Strays nodes supers fuel [] p w ↔ 2 ≤ p.trail.length := by
  constructor
  · rintro (⟨before, after, q, w', split, -⟩ | ⟨q, w', leads, deep⟩)
    · cases before <;> cases split
    · obtain ⟨same, -⟩ := Prod.mk.inj (Option.some.inj leads)
      rwa [Option.some.inj same]
  · exact fun deep => .inr ⟨p, w, rfl, deep⟩

theorem strays_cons {q : Place} {w' : World} (fits : token = above → p.trail = [])
    (leads : ∀ ts, follow nodes supers fuel (token :: ts) p w = follow nodes supers fuel ts q w') :
    Strays nodes supers fuel (token :: ts) p w ↔ Strays nodes supers fuel ts q w' := by
  constructor
  · rintro (⟨_ | ⟨first, before⟩, after, q', w'', split, led, entered⟩ | ⟨q', w'', led, deep⟩)
    · obtain ⟨isAbove, -⟩ := List.cons.inj split
      obtain ⟨same, -⟩ := Prod.mk.inj (Option.some.inj led)
      exact absurd (Option.some.inj same ▸ fits isAbove) entered
    · obtain ⟨rfl, same⟩ := List.cons.inj split
      rw [leads] at led
      exact .inl ⟨before, after, q', w'', same, led, entered⟩
    · rw [leads] at led
      exact .inr ⟨q', w'', led, deep⟩
  · rintro (⟨before, after, q', w'', split, led, entered⟩ | ⟨q', w'', led, deep⟩)
    · refine .inl ⟨token :: before, after, q', w'', ?_, (leads before).trans led, entered⟩
      rw [split, List.cons_append]
    · exact .inr ⟨q', w'', (leads ts).trans led, deep⟩

theorem not_strays_of_fails {w' : World} (isAbove : token ≠ above)
    (fails : ∀ ts, follow nodes supers fuel (token :: ts) p w = some (none, w')) :
    ¬ Strays nodes supers fuel (token :: ts) p w := by
  rintro (⟨_ | ⟨first, before⟩, after, q, w'', split, led, -⟩ | ⟨q, w'', led, -⟩)
  · exact isAbove (List.cons.inj split).1
  · obtain ⟨rfl, -⟩ := List.cons.inj split
    rw [fails] at led
    cases (Prod.mk.inj (Option.some.inj led)).1
  · rw [fails] at led
    cases (Prod.mk.inj (Option.some.inj led)).1

end Strays

/-! ## The nodes that the loop has freed -/

theorem touch_of_live {st : Vfs} {a : ℕ} (live : a ∈ st.world.heap.live) : st.touch a = st :=
  if_pos live

theorem touch_stale (st : Vfs) (a : ℕ) : st.stale <:+ (st.touch a).stale := by
  unfold touch
  split_ifs
  · exact List.suffix_rfl
  · exact List.suffix_cons a st.stale

theorem leave_stale (owned : Bool) (cur : ℕ) (st : Vfs) : (leave owned cur st).stale = st.stale := by
  cases owned <;> rfl

theorem resolveLoop_stale {fuel : ℕ} {ts : List CString} {cur : ℕ} {owned : Bool} {st st' : Vfs}
    {r : Option ℕ} (done : resolveLoop fuel ts cur owned st = some (r, st')) :
    st.stale <:+ st'.stale := by
  induction ts generalizing cur owned st with
  | nil =>
    obtain ⟨-, rfl⟩ := Prod.mk.inj (Option.some.inj done)
    exact List.suffix_rfl
  | cons token rest ih =>
    have touched := touch_stale st cur
    rw [resolveLoop] at done
    by_cases isHere : token = here
    · rw [if_pos isHere] at done
      exact ih done
    rw [if_neg isHere] at done
    by_cases isAbove : token = above
    · rw [if_pos isAbove] at done
      cases up : (st.peek cur).parent with
      | none =>
        rw [up] at done
        exact touched.trans (ih done)
      | some parent =>
        rw [up] at done
        have again := touch_stale (leave owned cur (st.touch cur)) cur
        rw [leave_stale] at again
        exact (touched.trans again).trans (ih done)
    rw [if_neg isAbove] at done
    split_ifs at done
    · obtain ⟨-, rfl⟩ := Prod.mk.inj (Option.some.inj done)
      rwa [leave_stale]
    · obtain ⟨⟨_ | child, w⟩, -, ends⟩ := Option.bind_eq_some_iff.mp done
      · obtain ⟨-, rfl⟩ := Prod.mk.inj (Option.some.inj ends)
        rw [leave_stale]
        exact touched
      · have further := ih ends
        rw [leave_stale] at further
        exact touched.trans further

theorem leave_dead {st : Vfs} {a : ℕ} (ok : st.world.heap.Ok) (self : (st.nodes a).addr = a) :
    a ∉ (leave true a st).world.heap.live := by
  have addr : (st.peek a).addr = a := by
    unfold peek
    split_ifs
    · exact self
    · rfl
  show a ∉ (Fat32.freeNode (st.peek a) st.world).heap.live
  rw [Fat32.freeNode, addr]
  exact World.notMem_free (World.free_ok ok _) a

/-- The loop has come to the place `p`: the nodes above its base are allocated, and the node that it
was looked up in is not, unless this is the base. -/
structure Trims (w₀ : World) (nodes₀ : ℕ → VfsNode) (p : Place) (st : Vfs) : Prop where
  base : ∀ b, Above nodes₀ p.base b → b ∈ w₀.heap.live ∧ (nodes₀ b).addr = b
  left : ∀ node parent trail, p.trail = node :: parent :: trail →
    parent.addr ∉ st.world.heap.live

section Loop

variable {w₀ w : World} {nodes₀ : ℕ → VfsNode} {p : Place} {owned : Bool} {st : Vfs}
  (tracks : Tracks w₀ nodes₀ p w st) (stands : Stands nodes₀ p owned st)
  (trims : Trims w₀ nodes₀ p st)

include tracks trims

theorem Trims.above_base {b : ℕ} (up : Above st.nodes p.base b) :
    Above nodes₀ p.base b ∧ b ∈ st.world.heap.live := by
  have old : ∀ b, Above nodes₀ p.base b → b < w₀.heap.next := fun b up =>
    tracks.ok.below b (trims.base b up).1
  have same : Above nodes₀ p.base b := by
    induction up with
    | refl => exact .refl
    | tail _ step ih =>
      rw [tracks.nodes _ (old _ ih)] at step
      exact ih.tail step
  exact ⟨same, (tracks.keeps.live b (old b same)).mpr (trims.base b same).1⟩

theorem Trims.up (bottom : p.trail = []) (st' : Vfs) : Trims w₀ nodes₀ (p.up nodes₀) st' := by
  have root := trims.base
  obtain ⟨base, trail⟩ := p
  obtain rfl : trail = [] := bottom
  have reaches : Above nodes₀ base ((nodes₀ base).parent.getD base) := by
    cases parent : (nodes₀ base).parent with
    | none => exact .refl
    | some parent' => exact .single parent
  exact ⟨fun b further => root b (reaches.trans further),
    fun _ _ _ deep => absurd deep (by simp [Place.up])⟩

include stands

theorem Trims.intact_iff : Intact st (some p.addr) st ↔ ¬ 2 ≤ p.trail.length := by
  have above_base := fun b => @above_base _ _ _ _ _ tracks trims b
  have node_eq := tracks.node_eq
  have linked := tracks.linked
  have live := stands.live
  have left := trims.left
  obtain ⟨base, _ | ⟨node, _ | ⟨parent, trail⟩⟩⟩ := p
  · refine ⟨fun _ => by simp, fun _ => ⟨fun a same b up => ?_, rfl⟩⟩
    rw [← Option.some.inj same] at up
    exact (above_base b up).2
  · refine ⟨fun _ => by simp, fun _ => ⟨fun a same b up => ?_, rfl⟩⟩
    rw [← Option.some.inj same] at up
    rcases up.cases_head with rfl | ⟨parent, step, further⟩
    · exact live
    · rw [node_eq] at step
      obtain rfl := Option.some.inj (linked.1.symm.trans step)
      exact (above_base b further).2
  · refine ⟨fun intact => absurd ?_ (left node parent trail rfl), fun shallow => absurd ?_ shallow⟩
    · refine intact.1 _ rfl parent.addr (.single ?_)
      rw [node_eq]
      exact linked.1
    · simp

theorem Trims.down {w₁ : World} {child : VfsNode} (keeps : Keeps st.world w₁)
    (fresh : Fat32.Fresh st.world w₁ (p.node nodes₀) child) :
    Trims w₀ nodes₀ ⟨p.base, child :: p.trail⟩
      (leave owned p.addr ((st.setWorld w₁).setNode child.addr child)) := by
  refine ⟨trims.base, fun node parent trail same => ?_⟩
  obtain ⟨-, same⟩ := List.cons.inj same
  obtain rfl : owned = true := stands.owned.mpr (same ▸ List.cons_ne_nil _ _)
  have here : p.addr = parent.addr := by
    obtain ⟨base, trail⟩ := p
    obtain rfl : trail = _ := same
    rfl
  have other : p.addr < child.addr := lt_of_lt_of_le tracks.addr_lt fresh.new.1
  have self : ((st.setWorld w₁).setNode child.addr child).nodes p.addr = p.node nodes₀ :=
    (Function.update_of_ne other.ne ..).trans tracks.node_eq
  rw [← here]
  exact leave_dead ((tracks.keeps.trans keeps).ok tracks.ok) (self ▸ tracks.node_addr)

end Loop

/-- The loop of `vfs_resolve_path_from` keeps the nodes above its result and reads no freed node if
and only if the components do not stray. -/
theorem resolveLoop_intact {w₀ w : World} {nodes₀ : ℕ → VfsNode} {p : Place} {owned : Bool}
    {st st' : Vfs} {fuel : ℕ} {ts : List CString} {r : Option ℕ}
    (tracks : Tracks w₀ nodes₀ p w st) (stands : Stands nodes₀ p owned st)
    (trims : Trims w₀ nodes₀ p st) (done : resolveLoop fuel ts p.addr owned st = some (r, st')) :
    Intact st r st' ↔ ¬ Strays nodes₀ st.supers fuel ts p w := by
  induction ts generalizing p owned w st with
  | nil =>
    cases done
    rw [strays_nil]
    exact trims.intact_iff tracks stands
  | cons token rest ih =>
    rcases tracks.step stands done with ⟨isHere, loop, leads⟩ | ⟨-, bottom, -, loop, leads⟩ |
      ⟨isAbove, -, loop, leads⟩ | ⟨isAbove, w₁, w₁', rfl, keeps, alike, rfl, fails⟩ |
      ⟨-, isAbove, -, child, w₁, w₁', keeps, alike, fresh, loop, leads⟩
    · rw [strays_cons (fun h => absurd (isHere.symm.trans h) (by decide)) leads]
      exact ih tracks stands trims loop
    · rw [strays_cons (fun _ => bottom) leads]
      exact ih tracks stands trims loop
    · by_cases bottom : p.trail = []
      · obtain rfl : owned = false := by
          rw [← Bool.not_eq_true, stands.owned]
          exact not_not.mpr bottom
        rw [strays_cons (fun _ => bottom) leads]
        obtain ⟨tracks', stands'⟩ := tracks.up stands (by simp [bottom]) fun _ q parent =>
          trims.base q (.single parent)
        have same : st.touch p.addr = st := touch_of_live stands.live
        rw [show leave false p.addr st = st from rfl, same] at tracks' stands' loop
        exact ih tracks' stands' (trims.up tracks bottom st) loop
      · obtain rfl : owned = true := stands.owned.mpr bottom
        have dead : p.addr ∉ (leave true p.addr st).world.heap.live :=
          leave_dead (tracks.keeps.ok tracks.ok) (tracks.node_eq ▸ tracks.node_addr)
        have grown := (resolveLoop_stale loop).length_le
        rw [touch, if_neg dead, List.length_cons, leave_stale] at grown
        refine iff_of_false (fun intact => ?_) (not_not.mpr ?_)
        · rw [intact.2] at grown
          omega
        · exact .inl ⟨[], rest, p, w, by rw [isAbove]; rfl, rfl, bottom⟩
    · refine iff_of_true ⟨by simp, ?_⟩ (not_strays_of_fails isAbove fails)
      rw [leave_stale]
      rfl
    · rw [strays_cons (absurd · isAbove) leads]
      obtain ⟨tracks', stands'⟩ := tracks.down stands keeps alike fresh
      have down := ih tracks' stands' (trims.down tracks stands keeps fresh) loop
      rwa [Intact, leave_stale, (leave_tables ..).supers] at down

theorem resolvePath_intact {path rel : CString} {fuel start : ℕ} {st st' : Vfs} {r : Option ℕ}
    (ok : st.world.heap.Ok) (begins : st.origin path = some (start, rel))
    (standing : st.Standing start) (done : st.resolvePath path fuel = some (r, st')) :
    Intact st r st' ↔ ¬ Strays st.nodes st.supers fuel (tokens rel) ⟨start, []⟩ st.world := by
  rw [resolvePath_eq, begins] at done
  obtain ⟨live, self⟩ := standing start .refl
  have trims : Trims st.world st.nodes ⟨start, []⟩ st :=
    ⟨standing, fun _ _ _ deep => absurd deep (by simp)⟩
  exact resolveLoop_intact (.start ok live self) (.start live) trims done

/-- From a state in which the shared nodes and the nodes above them are allocated, `vfs_resolve_path`
returns a node whose ancestors are allocated, without reading a freed node, if and only if the path
does not overreach. -/
theorem ancestors_allocated {path : CString} {fuel : ℕ} {st st' : Vfs} {r : Option ℕ}
    (ok : st.world.heap.Ok) (standing : ∀ a, st.Shared a → st.Standing a)
    (done : st.resolvePath path fuel = some (r, st')) :
    Intact st r st' ↔ ¬ st.Overreaches path fuel := by
  unfold Overreaches
  cases begins : st.origin path with
  | none =>
    rw [resolvePath_eq, begins] at done
    obtain ⟨rfl, rfl⟩ := Prod.mk.inj (Option.some.inj done)
    exact iff_of_true ⟨nofun, rfl⟩ (fun ⟨_, _, starts, _⟩ => nomatch starts)
  | some begin =>
    obtain ⟨start, rel⟩ := begin
    rw [resolvePath_intact ok begins (standing start (origin_shared begins)) done]
    refine not_congr ⟨fun strays => ⟨start, rel, rfl, strays⟩, ?_⟩
    rintro ⟨start', rel', same, strays⟩
    obtain ⟨rfl, rfl⟩ := Prod.mk.inj (Option.some.inj same)
    exact strays

/-! ## A mounted volume -/

/-- The blank volume is mounted at `/`; the current directory is its root. -/
def mounted : Vfs where
  world :=
    { Fat32.blankWorld with heap := { Fat32.blankWorld.heap with next := 3, live := [1, 2] } }
  nodes := fun _ => Fat32.rootNode Fat32.smallFs 1 2 0
  ruins := fun _ _ => Fat32.rootNode Fat32.smallFs 1 2 0
  supers := fun _ => Fat32.smallFs
  mounts := [{ mountpoint := rootPath, root := 1 }]
  fdTable := fun _ => none
  cwd := some 1
  initComplete := false
  stale := []

/-- The path `/a`. -/
def pathA : CString := [0x2F, 0x61]

/-- The path `/a/b`. -/
def pathAB : CString := [0x2F, 0x61, 0x2F, 0x62]

/-- The directories `/a` and `/a/b` have been made. -/
def nested : Vfs :=
  (((mounted.vfsMkdir pathA 0o755 9).bind fun r => r.2.vfsMkdir pathAB 0o755 9).map
    Prod.snd).getD mounted

theorem shared_nested {a : ℕ} (shared : nested.Shared a) : a = 1 := by
  have cwd : nested.cwd = some 1 := by decide +kernel
  have mounts : nested.mounts = [{ mountpoint := rootPath, root := 1 }] := by decide +kernel
  rcases shared with here | ⟨mount, mem, root⟩
  · exact (Option.some.inj (cwd.symm.trans here)).symm
  · rw [mounts, List.mem_singleton] at mem
    rw [← root, mem]

theorem standing_nested (a : ℕ) (shared : nested.Shared a) : nested.Standing a := by
  obtain rfl := shared_nested shared
  have root : 1 ∈ nested.world.heap.live ∧ (nested.nodes 1).addr = 1 := by decide +kernel
  intro b up
  obtain rfl := List.mem_singleton.mp (up.mem_of_closed (l := [1]) (by decide +kernel) (by decide))
  exact root

theorem ok_nested : nested.world.heap.Ok :=
  ⟨by decide +kernel, by decide +kernel⟩

/-- The path `/a` does not overreach. -/
theorem ancestors_allocated_nested :
    ∃ a st', nested.resolvePath pathA 9 = some (some a, st') ∧ Intact nested (some a) st' := by
  have evaluated : (nested.resolvePath pathA 9).map Prod.fst = some (some 18) := by decide +kernel
  obtain ⟨⟨r, st'⟩, done, rfl⟩ := Option.map_eq_some_iff.mp evaluated
  refine ⟨18, st', done, (ancestors_allocated ok_nested standing_nested done).mpr ?_⟩
  rintro ⟨start, rel, begins, strays⟩
  have begins' : nested.origin pathA = some (1, [0x61]) := by decide +kernel
  obtain ⟨rfl, rfl⟩ := Prod.mk.inj (Option.some.inj (begins'.symm.trans begins))
  rw [show tokens [0x61] = [[0x61]] from by decide +kernel] at strays
  rcases strays with ⟨before, after, -, -, split, -⟩ | ⟨q, w', leads, deep⟩
  · have mem : above ∈ [[0x61]] := split ▸ List.mem_append_right _ (List.mem_cons_self ..)
    exact absurd mem (by decide)
  · have depth : (follow nested.nodes nested.supers 9 [[0x61]] ⟨1, []⟩ nested.world).map
        (fun r => r.1.map fun q => q.trail.length) = some (some 1) := by decide +kernel
    rw [leads] at depth
    have depth : q.trail.length = 1 := Option.some.inj (Option.some.inj depth)
    omega

/-- The parent of the node of `/a/b` has been freed, and `/a/..` reads the node of `/a` after it has
been freed. -/
theorem ancestor_freed : nested.world.heap.Ok ∧ (∀ a, nested.Shared a → nested.Standing a) ∧
    (∃ a parent st', nested.resolvePath pathAB 9 = some (some a, st') ∧
      Above st'.nodes a parent ∧ parent ∉ st'.world.heap.live) ∧
    ∃ r st', nested.resolvePath (pathA ++ slash :: above) 9 = some (r, st') ∧
      nested.stale = [] ∧ st'.stale ≠ [] := by
  refine ⟨ok_nested, standing_nested, ?_, ?_⟩
  · have evaluated : (nested.resolvePath pathAB 9).map (fun r =>
        (r.1, (r.2.nodes 21).parent, decide (18 ∈ r.2.world.heap.live))) =
          some (some 21, some 18, false) := by decide +kernel
    obtain ⟨⟨r, st'⟩, done, facts⟩ := Option.map_eq_some_iff.mp evaluated
    simp only [Prod.mk.injEq, decide_eq_false_iff_not] at facts
    obtain ⟨rfl, parent, freed⟩ := facts
    exact ⟨21, 18, st', done, .single parent, freed⟩
  · have evaluated : (nested.resolvePath (pathA ++ slash :: above) 9).map (fun r => r.2.stale) =
        some [18] := by decide +kernel
    obtain ⟨⟨r, st'⟩, done, stale⟩ := Option.map_eq_some_iff.mp evaluated
    exact ⟨r, st', done, by decide +kernel, stale ▸ List.cons_ne_nil _ _⟩

end Thuban.Vfs

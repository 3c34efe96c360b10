import Thuban.Vfs.Model

/-!
# The mount of a path

`vfs_find_mount` takes the longest mount point that is a prefix of the path as a string.  This is the
longest one that is a prefix by components unless the text behind it goes on inside a component.
-/

namespace Thuban.Vfs

/-! ## Components -/

theorem components_slash_append (a b : CString) :
    components (a ++ slash :: b) = components a ++ components b := by
  rw [components, List.splitOn_append_cons_self, List.filter_append]
  rfl

theorem components_cons_slash (b : CString) : components (slash :: b) = components b :=
  components_slash_append [] b

theorem flatten_splitOn (path : CString) :
    (path.splitOn slash).flatten = path.filter fun c => c != slash := by
  induction path with
  | nil => rfl
  | cons c rest ih =>
    rw [List.splitOn_cons_eq_if_modifyHead]
    by_cases here : c = slash
    · rw [here, if_pos (beq_self_eq_true slash), List.flatten_cons, List.nil_append, ih]
      rfl
    · obtain ⟨first, others, eq⟩ := List.exists_cons_of_ne_nil (List.splitOn_ne_nil slash rest)
      rw [if_neg (by simpa using here), eq, List.modifyHead_cons, List.flatten_cons, List.cons_append,
        ← List.flatten_cons, ← eq, ih, List.filter_cons_of_pos (by simpa using here)]

theorem flatten_components (path : CString) :
    (components path).flatten = path.filter fun c => c != slash := by
  rw [components, ← flatten_splitOn]
  generalize path.splitOn slash = parts
  induction parts with
  | nil => rfl
  | cons part parts ih =>
    cases part with
    | nil => exact ih
    | cons c part => exact congrArg (fun bytes => (c :: part) ++ bytes) ih

theorem components_slashes {b : CString} (all : ∀ c ∈ b, c = slash) (a : CString) :
    components (a ++ b) = components a := by
  induction b generalizing a with
  | nil => rw [List.append_nil]
  | cons c b ih =>
    obtain rfl := all c (List.mem_cons_self ..)
    have rest : ∀ c ∈ b, c = slash := fun c mem => all c (List.mem_cons_of_mem _ mem)
    have none : components b = [] := ih rest []
    rw [components_slash_append, none, List.append_nil]

theorem components_append_eq_iff (a b : CString) :
    components (a ++ b) = components a ↔ ∀ c ∈ b, c = slash := by
  refine ⟨fun same => ?_, fun all => components_slashes all a⟩
  have bytes := congrArg List.flatten same
  rw [flatten_components, flatten_components, List.filter_append, List.append_right_eq_self,
    List.filter_eq_nil_iff] at bytes
  exact fun c mem => by simpa using bytes c mem

/-! ## The search -/

/-- The mount point is the path, it is followed by a slash, or it is `/`. -/
def ComponentPrefix (mountpoint path : CString) : Prop :=
  mountpoint = path ∨ mountpoint ++ [slash] <+: path ∨ mountpoint = rootPath

instance (mountpoint path : CString) : Decidable (ComponentPrefix mountpoint path) :=
  inferInstanceAs (Decidable (_ ∨ _ ∨ _))

/-- The mount point of `mount` is the longest one that is a prefix of the path by components. -/
structure Longest (mounts : List Mount) (path : CString) (mount : Mount) : Prop where
  mem : mount ∈ mounts
  fits : ComponentPrefix mount.mountpoint path
  longest : ∀ other ∈ mounts, ComponentPrefix other.mountpoint path →
    other.mountpoint.length ≤ mount.mountpoint.length

/-- Mount points are absolute, and only `/` ends in a slash. -/
def WellPlaced (mounts : List Mount) : Prop :=
  ∀ mount ∈ mounts, mount.mountpoint.head? = some slash ∧
    (mount.mountpoint = rootPath ∨ mount.mountpoint.getLast? ≠ some slash)

/-- `vfs_find_mount` returns the mount of the longest mount point that is a prefix by components, and
the components behind it are left. -/
def SelectsByComponents (mounts : List Mount) (path : CString) : Prop :=
  match findMount mounts path with
  | none => ∀ mount ∈ mounts, ¬ ComponentPrefix mount.mountpoint path
  | some mount => Longest mounts path mount ∧
      tokens (relPath mount.mountpoint path) =
        (components path).drop (components mount.mountpoint).length

/-- A mount point that ends inside a component of the path is shorter than one that does not, and what
is left of the path fits into the buffer of `vfs_resolve_path_from`, apart from slashes. -/
def Unambiguous (mounts : List Mount) (path : CString) : Prop :=
  (∀ mount ∈ mounts, mount.mountpoint <+: path → ¬ ComponentPrefix mount.mountpoint path →
    ∃ other ∈ mounts, ComponentPrefix other.mountpoint path ∧
      mount.mountpoint.length < other.mountpoint.length) ∧
  ∀ mount, Longest mounts path mount →
    ∀ c ∈ (relPath mount.mountpoint path).drop (vfsMaxPath - 1), c = slash

/-- One round of the loop of `vfs_find_mount`. -/
def pick (path : CString) (best : Option Mount) (mount : Mount) : Option Mount :=
  if mount.mountpoint.isPrefixOf path then
    match best with
    | none => if 0 < mount.mountpoint.length then some mount else none
    | some old => if old.mountpoint.length < mount.mountpoint.length then some mount else best
  else best

/-- The best mount among those that the loop has seen. -/
def Best (path : CString) (seen : List Mount) : Option Mount → Prop
  | none => ∀ m ∈ seen, m.mountpoint <+: path → m.mountpoint = []
  | some best => best ∈ seen ∧ best.mountpoint <+: path ∧
      ∀ m ∈ seen, m.mountpoint <+: path → m.mountpoint.length ≤ best.mountpoint.length

theorem Best.pick {path : CString} {seen : List Mount} {best : Option Mount}
    (h : Best path seen best) (mount : Mount) : Best path (seen ++ [mount]) (pick path best mount) := by
  have cases : ∀ m, m ∈ seen ++ [mount] → m ∈ seen ∨ m = mount := fun m mem =>
    (List.mem_append.mp mem).imp id List.mem_singleton.mp
  have last : mount ∈ seen ++ [mount] := List.mem_append_right _ (List.mem_singleton_self _)
  unfold Vfs.pick
  by_cases fits : mount.mountpoint.isPrefixOf path = true
  · rw [if_pos fits]
    rw [List.isPrefixOf_iff_prefix] at fits
    cases best with
    | none =>
      split_ifs with positive
      · refine ⟨last, fits, fun m mem pre => ?_⟩
        rcases cases m mem with old | rfl
        · rw [h m old pre]
          exact Nat.zero_le _
        · exact le_rfl
      · intro m mem pre
        rcases cases m mem with old | rfl
        · exact h m old pre
        · exact List.length_eq_zero_iff.mp (by omega)
    | some old =>
      obtain ⟨seenOld, fitsOld, longest⟩ := h
      dsimp only
      split_ifs with longer
      · refine ⟨last, fits, fun m mem pre => ?_⟩
        rcases cases m mem with before | rfl
        · exact (longest m before pre).trans longer.le
        · exact le_rfl
      · refine ⟨List.mem_append_left _ seenOld, fitsOld, fun m mem pre => ?_⟩
        rcases cases m mem with before | rfl
        · exact longest m before pre
        · exact not_lt.mp longer
  · rw [if_neg fits]
    rw [List.isPrefixOf_iff_prefix] at fits
    cases best with
    | none =>
      intro m mem pre
      rcases cases m mem with old | rfl
      · exact h m old pre
      · exact absurd pre fits
    | some old =>
      obtain ⟨seenOld, fitsOld, longest⟩ := h
      refine ⟨List.mem_append_left _ seenOld, fitsOld, fun m mem pre => ?_⟩
      rcases cases m mem with before | rfl
      · exact longest m before pre
      · exact absurd pre fits

theorem findMount_best (mounts : List Mount) (path : CString) :
    Best path mounts (findMount mounts path) := by
  have loop : ∀ seen best, Best path seen best →
      Best path (seen ++ mounts) (mounts.foldl (pick path) best) := by
    induction mounts with
    | nil =>
      intro seen best h
      rwa [List.append_nil]
    | cons mount rest ih =>
      intro seen best h
      have next := ih (seen ++ [mount]) _ (h.pick mount)
      rwa [List.append_assoc] at next
  exact loop [] none nofun

/-! ## Prefixes by components -/

section Prefix

variable {mountpoint path : CString}

theorem ComponentPrefix.isPrefix (fits : ComponentPrefix mountpoint path)
    (absolute : path.head? = some slash) : mountpoint <+: path := by
  rcases fits with rfl | ⟨rest, rfl⟩ | rfl
  · exact List.prefix_rfl
  · exact ⟨slash :: rest, by rw [List.append_assoc]; rfl⟩
  · cases path with
    | nil => cases absolute
    | cons c rest =>
      obtain rfl : c = slash := Option.some.inj absolute
      exact ⟨rest, rfl⟩

theorem ComponentPrefix.components_relPath (fits : ComponentPrefix mountpoint path)
    (absolute : path.head? = some slash) :
    components (relPath mountpoint path) =
      (components path).drop (components mountpoint).length := by
  rcases fits with rfl | ⟨rest, rfl⟩ | rfl
  · rw [relPath, List.drop_length, List.drop_length]
    rfl
  · rw [List.append_assoc, List.singleton_append, relPath, List.drop_left, components_slash_append,
      List.drop_left]
    exact congrArg components (if_pos rfl)
  · cases path with
    | nil => cases absolute
    | cons c rest =>
      obtain rfl : c = slash := Option.some.inj absolute
      have whole : components (slash :: rest) = components rest := components_cons_slash rest
      show components (relPath rootPath (slash :: rest)) = (components (slash :: rest)).drop 0
      rw [List.drop_zero, whole]
      cases rest with
      | nil => rfl
      | cons c rel =>
        show components (if c = slash then rel else c :: rel) = components (c :: rel)
        split_ifs with double
        · rw [double, components_cons_slash]
        · rfl

end Prefix

theorem tokens_eq_iff (path : CString) :
    tokens path = components path ↔ ∀ c ∈ path.drop (vfsMaxPath - 1), c = slash := by
  have split := components_append_eq_iff (path.take (vfsMaxPath - 1)) (path.drop (vfsMaxPath - 1))
  rw [List.take_append_drop] at split
  rw [← split]
  exact eq_comm

/-! ## The mount that is selected -/

section Selection

variable {mounts : List Mount} {path : CString}

theorem prefix_unique {a b path : CString} (ha : a <+: path) (hb : b <+: path)
    (same : a.length = b.length) : a = b :=
  (List.prefix_of_prefix_length_le ha hb same.le).eq_of_length same

theorem Longest.mountpoint_eq (absolute : path.head? = some slash) {first second : Mount}
    (h : Longest mounts path first) (h' : Longest mounts path second) :
    first.mountpoint = second.mountpoint :=
  prefix_unique (h.fits.isPrefix absolute) (h'.fits.isPrefix absolute)
    (le_antisymm (h'.longest first h.mem h.fits) (h.longest second h'.mem h'.fits))

/-- The longest prefix by components is selected, with its remaining components, if and only if the
mounts are unambiguous for the path. -/
theorem selectsByComponents_iff (placed : WellPlaced mounts) (absolute : path.head? = some slash) :
    SelectsByComponents mounts path ↔ Unambiguous mounts path := by
  have best := findMount_best mounts path
  have nonempty : ∀ mount ∈ mounts, mount.mountpoint ≠ [] := fun mount mem none => by
    have head := (placed mount mem).1
    rw [none] at head
    cases head
  have left : ∀ mount, Longest mounts path mount →
      (tokens (relPath mount.mountpoint path) =
          (components path).drop (components mount.mountpoint).length ↔
        ∀ c ∈ (relPath mount.mountpoint path).drop (vfsMaxPath - 1), c = slash) := fun mount h => by
    rw [← h.fits.components_relPath absolute]
    exact tokens_eq_iff _
  unfold SelectsByComponents
  cases found : findMount mounts path with
  | none =>
    rw [found] at best
    have noPrefix : ∀ mount ∈ mounts, ¬ mount.mountpoint <+: path := fun mount mem fits =>
      nonempty mount mem (best mount mem fits)
    refine iff_of_true (fun mount mem fits => noPrefix mount mem (fits.isPrefix absolute)) ⟨?_, ?_⟩
    · exact fun mount mem fits => absurd fits (noPrefix mount mem)
    · exact fun mount h => absurd (h.fits.isPrefix absolute) (noPrefix mount h.mem)
  | some mount =>
    rw [found] at best
    obtain ⟨mem, fits, longest⟩ := best
    constructor
    · rintro ⟨selected, rest⟩
      refine ⟨fun other mem' fits' inside => ⟨mount, mem, selected.fits, ?_⟩, fun other h => ?_⟩
      · refine lt_of_le_of_ne (longest other mem' fits') fun same => inside ?_
        rw [prefix_unique fits' fits same]
        exact selected.fits
      · rw [h.mountpoint_eq absolute selected]
        exact (left mount selected).mp rest
    · rintro ⟨outside, short⟩
      have selected : Longest mounts path mount := by
        refine ⟨mem, ?_, fun other mem' fits' => longest other mem' (fits'.isPrefix absolute)⟩
        by_contra inside
        obtain ⟨other, mem', fits', longer⟩ := outside mount mem fits inside
        exact absurd (longest other mem' (fits'.isPrefix absolute)) (not_le.mpr longer)
      exact ⟨selected, (left mount selected).mpr (short mount selected)⟩

theorem resolvePath_mount {st : Vfs} (absolute : path.head? = some slash) (cwd : st.cwd ≠ none)
    (fuel : ℕ) :
    st.resolvePath path fuel =
      match findMount st.mounts path with
      | none => some (none, st)
      | some mount => resolvePathFrom mount.root (relPath mount.mountpoint path) fuel st := by
  unfold resolvePath
  cases here : st.cwd with
  | none => exact absurd here cwd
  | some _ =>
    refine (if_pos absolute).trans ?_
    cases findMount st.mounts path <;> rfl

end Selection

/-- An absolute path is resolved from the root of the mount that `vfs_find_mount` returns, over the
components that are left; this is the mount of the longest prefix by components, and these are the
remaining components, if and only if the mounts are unambiguous for the path. -/
theorem mount_by_components {mounts : List Mount} {path : CString} (placed : WellPlaced mounts)
    (absolute : path.head? = some slash) :
    (∀ (st : Vfs) (fuel : ℕ), st.mounts = mounts → st.cwd ≠ none →
      st.resolvePath path fuel =
        match findMount mounts path with
        | none => some (none, st)
        | some mount =>
            resolveLoop fuel (tokens (relPath mount.mountpoint path)) mount.root false st) ∧
      (SelectsByComponents mounts path ↔ Unambiguous mounts path) := by
  refine ⟨fun st fuel same cwd => ?_, selectsByComponents_iff placed absolute⟩
  rw [resolvePath_mount absolute cwd, same]
  rfl

/-- The path `/mnt/x`. -/
def mntX : CString := [0x2F, 0x6D, 0x6E, 0x74, 0x2F, 0x78]

/-- The path `/mnt2/x`. -/
def mnt2X : CString := [0x2F, 0x6D, 0x6E, 0x74, 0x32, 0x2F, 0x78]

/-- Mounts at `/mnt` and `/`. -/
def twoMounts : List Mount := [⟨[0x2F, 0x6D, 0x6E, 0x74], 2⟩, ⟨rootPath, 1⟩]

theorem wellPlaced_twoMounts : WellPlaced twoMounts := by
  unfold WellPlaced
  decide

/-- The path `/mnt/x` is resolved in the mount at `/mnt`. -/
theorem mount_by_components_mnt : SelectsByComponents twoMounts mntX := by
  refine (mount_by_components wellPlaced_twoMounts rfl).2.mpr ⟨fun mount mem _ inside => ?_,
    fun mount h => ?_⟩
  · have fits : ∀ mount ∈ twoMounts, ComponentPrefix mount.mountpoint mntX := by decide
    exact absurd (fits mount mem) inside
  · have short : ∀ mount ∈ twoMounts,
        (relPath mount.mountpoint mntX).drop (vfsMaxPath - 1) = [] := by decide +kernel
    rw [short mount h.mem]
    exact nofun

/-- The path `/mnt2/x` is resolved in the mount at `/mnt`, from the component `2`. -/
theorem mount_inside_component : WellPlaced twoMounts ∧
    findMount twoMounts mnt2X = some ⟨[0x2F, 0x6D, 0x6E, 0x74], 2⟩ ∧
    tokens (relPath [0x2F, 0x6D, 0x6E, 0x74] mnt2X) = [[0x32], [0x78]] ∧
    Longest twoMounts mnt2X ⟨rootPath, 1⟩ ∧ ¬ SelectsByComponents twoMounts mnt2X := by
  have inside : ¬ ComponentPrefix [0x2F, 0x6D, 0x6E, 0x74] mnt2X := by decide
  have found : findMount twoMounts mnt2X = some ⟨[0x2F, 0x6D, 0x6E, 0x74], 2⟩ := by decide
  have longest : ∀ other ∈ twoMounts, ComponentPrefix other.mountpoint mnt2X →
      other.mountpoint.length ≤ rootPath.length := by decide
  refine ⟨wellPlaced_twoMounts, found, by decide +kernel, ⟨by decide, by decide, longest⟩, ?_⟩
  rw [SelectsByComponents, found]
  exact fun selected => inside selected.1.fits

end Thuban.Vfs

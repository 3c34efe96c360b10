import Thuban.Vfs.Ancestors
import Thuban.Vfs.Mounts

/-!
# Path buffers

`vfs_resolve_path_from` copies a path into a buffer and cuts it there into tokens, one after another.  With
nodes as values and any partial function for `lookup`, it is the walk along the names in the path, so it
composes.  `vfs_open` and `vfs_mkdir` copy the directory part of a path into a buffer of the same size, and
do not check that it fits.
-/

namespace Thuban.Vfs

/-! ## Tokens -/

/-- What the resolution of a path reads of its nodes. -/
structure Forest (N : Type*) where
  parent : N → Option N
  isDirectory : N → Bool
  hasLookup : N → Bool
  lookup : N → CString → Option N

/-- The token at the start of the buffer, and the buffer behind the slash that ends it. -/
def cutToken : CString → CString × Option CString
  | [] => ([], none)
  | c :: rest =>
      if c = slash then ([], some rest)
      else
        match cutToken rest with
        | (token, next) => (c :: token, next)

theorem cutToken_length {buf token next : CString} (cut : cutToken buf = (token, some next)) :
    next.length < buf.length := by
  induction buf generalizing token with
  | nil => cases cut
  | cons c rest ih =>
    rw [cutToken] at cut
    split_ifs at cut
    · cases cut
      exact Nat.lt_succ_self _
    · rcases tail : cutToken rest with ⟨token', next'⟩
      rw [tail] at cut
      cases cut
      exact (ih tail).trans (Nat.lt_succ_self _)

section Forest

variable {N : Type*} (forest : Forest N)

namespace Forest

/-- What a round of the loop does with its token: the next node, or NULL. -/
def enter (cur : N) (token : CString) : Option N :=
  if token = [] then some cur
  else if token = here then some cur
  else if token = above then some ((forest.parent cur).getD cur)
  else if !forest.isDirectory cur then none
  else if !forest.hasLookup cur then none
  else forest.lookup cur token

/-- The loop of `vfs_resolve_path_from` over its buffer. -/
def walk (buf : CString) (cur : N) : Option N :=
  if buf = [] then some cur
  else
    match _cut : cutToken buf with
    | (token, none) => forest.enter cur token
    | (token, some next) => (forest.enter cur token).bind (walk next)
termination_by buf.length
decreasing_by exact cutToken_length ‹_›

/-- `vfs_resolve_path_from` -/
def resolvePathFrom (start : N) (path : CString) : Option N :=
  if path = [] then some start else forest.walk (path.take (vfsMaxPath - 1)) start

end Forest

theorem cutToken_splitOn (buf : CString) :
    buf.splitOn slash = (cutToken buf).1 :: (cutToken buf).2.elim [] (·.splitOn slash) := by
  induction buf with
  | nil => rfl
  | cons c rest ih =>
    rw [List.splitOn_cons_eq_if_modifyHead, cutToken]
    by_cases ends : c = slash
    · rw [if_pos ends, ends, if_pos (beq_self_eq_true slash)]
      rfl
    · rw [if_neg ends, if_neg (by simpa using ends), ih]
      rfl

theorem Forest.enter_empty (cur : N) : forest.enter cur [] = some cur := if_pos rfl

theorem Forest.walk_eq (buf : CString) (cur : N) :
    forest.walk buf cur = (buf.splitOn slash).foldlM forest.enter cur := by
  induction h : buf.length using Nat.strong_induction_on generalizing buf cur with
  | _ n ih =>
  rw [walk, cutToken_splitOn]
  split_ifs with empty
  · subst empty
    exact (forest.enter_empty cur).symm
  split
  · next token cut =>
    rw [cut]
    simp
  · next token next cut =>
    rw [cut, List.foldlM_cons]
    refine congrArg _ (funext fun node => ?_)
    exact ih _ (h ▸ cutToken_length cut) next node rfl

/-- The components that lead on. -/
def names (path : CString) : List CString := (components path).filter fun c => c != here

theorem names_append (p q : CString) : names (p ++ slash :: q) = names p ++ names q := by
  rw [names, components_slash_append, List.filter_append]
  rfl

theorem Forest.foldlM_filter {leads : CString → Bool}
    (stays : ∀ token, leads token = false → ∀ cur, forest.enter cur token = some cur)
    (tokens : List CString) (cur : N) :
    (tokens.filter leads).foldlM forest.enter cur = tokens.foldlM forest.enter cur := by
  induction tokens generalizing cur with
  | nil => rfl
  | cons token tokens ih =>
    cases leadsOn : leads token with
    | true =>
      rw [List.filter_cons_of_pos leadsOn, List.foldlM_cons, List.foldlM_cons]
      exact congrArg _ (funext ih)
    | false =>
      rw [List.filter_cons_of_neg (by simp [leadsOn]), List.foldlM_cons, stays token leadsOn, ih]
      rfl

theorem Forest.foldlM_names (path : CString) (cur : N) :
    (names path).foldlM forest.enter cur = (path.splitOn slash).foldlM forest.enter cur := by
  rw [names, components, foldlM_filter forest, foldlM_filter forest]
  · intro token empty cur
    obtain rfl : token = [] := by simpa using empty
    exact forest.enter_empty cur
  · intro token dot cur
    obtain rfl : token = here := by simpa using dot
    rfl

theorem Forest.resolvePathFrom_eq (start : N) {path : CString} (fits : path.length < vfsMaxPath) :
    forest.resolvePathFrom start path = (names path).foldlM forest.enter start := by
  rw [forest.foldlM_names, ← walk_eq, resolvePathFrom,
    List.take_of_length_le (Nat.le_sub_one_of_lt fits)]
  split_ifs with empty
  · rw [empty, walk, if_pos rfl]
  · rfl

/-- Resolution composes, and only the names in a path matter: not its slashes and dots. -/
theorem resolution_composes (start : N) :
    (∀ p q : CString, p.length + 1 + q.length < vfsMaxPath → ∀ node,
      forest.resolvePathFrom start (p ++ slash :: q) = some node ↔
        ∃ n, forest.resolvePathFrom start p = some n ∧ forest.resolvePathFrom n q = some node) ∧
    ∀ p q : CString, p.length < vfsMaxPath → q.length < vfsMaxPath → names p = names q →
      forest.resolvePathFrom start p = forest.resolvePathFrom start q := by
  constructor
  · intro p q fits node
    have whole : (p ++ slash :: q).length < vfsMaxPath := by
      rw [List.length_append, List.length_cons]
      omega
    rw [forest.resolvePathFrom_eq start whole, names_append, List.foldlM_append,
      forest.resolvePathFrom_eq start (by omega)]
    have rest : ∀ n, forest.resolvePathFrom n q = (names q).foldlM forest.enter n :=
      fun n => forest.resolvePathFrom_eq n (by omega)
    simp only [rest]
    exact Option.bind_eq_some_iff
  · intro p q fitsP fitsQ same
    rw [forest.resolvePathFrom_eq start fitsP, forest.resolvePathFrom_eq start fitsQ, same]

end Forest

/-- The numbers as a chain of directories: each name leads to the next number. -/
def chainForest : Forest ℕ where
  parent := fun n => if n = 0 then none else some (n - 1)
  isDirectory := fun _ => true
  hasLookup := fun _ => true
  lookup := fun n _ => some (n + 1)

/-- `/a/./` and `..` behind it. -/
theorem resolution_composes_chain :
    (chainForest.resolvePathFrom 0 [slash, 0x61, slash, 0x2E, slash, slash, 0x2E, 0x2E] = some 0 ↔
      ∃ n, chainForest.resolvePathFrom 0 [slash, 0x61, slash, 0x2E, slash] = some n ∧
        chainForest.resolvePathFrom n [0x2E, 0x2E] = some 0) ∧
    chainForest.resolvePathFrom 0 [slash, 0x61, slash, 0x2E, slash] =
      chainForest.resolvePathFrom 0 [0x61] :=
  ⟨(resolution_composes chainForest 0).1 [slash, 0x61, slash, 0x2E, slash] [0x2E, 0x2E] (by decide) 0,
    (resolution_composes chainForest 0).2 _ _ (by decide) (by decide) (by decide)⟩

/-! ## The directory part -/

/-- The indices that `vfs_open` and `vfs_mkdir` write in `dir_path`: those of a string of one character
with its NUL, or those of the part before the last slash and of the NUL behind it. -/
def dirPathWrites (path : CString) : List ℕ :=
  match strrchr path slash with
  | none => [0, 1]
  | some 0 => [0, 1]
  | some i => List.range i ++ [i]

/-- The writes of `vfs_open` in `dir_path`, which is used for a path that is not found and `O_CREAT`. -/
def openWrites (path : CString) (flags fuel : ℕ) (st : Vfs) : Option (List ℕ) :=
  (st.resolvePath path fuel).map fun
    | (some _, _) => []
    | (none, _) => if flags &&& oCreat ≠ 0 then dirPathWrites path else []

/-- The writes of `vfs_mkdir` in `dir_path`. -/
def mkdirWrites (path : CString) (fuel : ℕ) (st : Vfs) : Option (List ℕ) :=
  (st.resolvePath path fuel).map fun
    | (some _, _) => []
    | (none, _) => dirPathWrites path

theorem dirPathWrites_inside_iff (path : CString) :
    (∀ i ∈ dirPathWrites path, i < vfsMaxPath) ↔ ∀ i ∈ strrchr path slash, i < vfsMaxPath := by
  rw [dirPathWrites]
  split
  · next none => exact iff_of_true (by decide) (by simp [none])
  · next zero => exact iff_of_true (by decide) (by simp [zero, vfsMaxPath])
  · next i _ found =>
    rw [found]
    constructor
    · intro inside j mem
      cases mem
      exact inside i (List.mem_append_right _ (List.mem_singleton_self i))
    · intro inside j mem
      have last := inside i rfl
      rcases List.mem_append.mp mem with before | final
      · exact (List.mem_range.mp before).trans last
      · rwa [List.mem_singleton.mp final]

/-- In any state every write is below the size of the buffer if and only if the path is found or has no slash
behind the size of the buffer. -/
theorem dir_path_inside_iff {path : CString} {flags fuel : ℕ} {st st' : Vfs} {r : Option ℕ}
    (creates : flags &&& oCreat ≠ 0) (resolved : st.resolvePath path fuel = some (r, st')) :
    ∃ opens makes, openWrites path flags fuel st = some opens ∧
      mkdirWrites path fuel st = some makes ∧
      ((∀ i ∈ opens, i < vfsMaxPath) ↔ r ≠ none ∨ ∀ i ∈ strrchr path slash, i < vfsMaxPath) ∧
      ((∀ i ∈ makes, i < vfsMaxPath) ↔ r ≠ none ∨ ∀ i ∈ strrchr path slash, i < vfsMaxPath) := by
  rw [openWrites, mkdirWrites, resolved]
  cases r with
  | some node => exact ⟨[], [], rfl, rfl, by simp, by simp⟩
  | none =>
    have inside := dirPathWrites_inside_iff path
    refine ⟨_, _, rfl, rfl, ?_, ?_⟩
    · dsimp only
      rw [if_pos creates, inside]
      simp
    · rw [inside]
      simp

/-- A new file in the current directory. -/
theorem dir_path_inside_short : ∃ opens makes,
    openWrites [0x7A] oCreat 9 mounted = some opens ∧ mkdirWrites [0x7A] 9 mounted = some makes ∧
      (∀ i ∈ opens, i < vfsMaxPath) ∧ ∀ i ∈ makes, i < vfsMaxPath := by
  have evaluated : (mounted.resolvePath [0x7A] 9).isSome = true := by decide +kernel
  obtain ⟨⟨r, st'⟩, resolved⟩ := Option.isSome_iff_exists.mp evaluated
  obtain ⟨opens, makes, opened, made, openInside, makeInside⟩ :=
    dir_path_inside_iff (by decide : oCreat &&& oCreat ≠ 0) resolved
  have short : ∀ i ∈ strrchr [0x7A] slash, i < vfsMaxPath := by decide
  exact ⟨opens, makes, opened, made, openInside.mpr (.inr short), makeInside.mpr (.inr short)⟩

/-- A path whose last slash lies behind the size of the buffer: `z`, slashes, and `b`. -/
def longPath : CString := 0x7A :: (List.replicate vfsMaxPath slash ++ [0x62])

/-- It is not found, and the byte behind the buffer is written. -/
theorem dir_path_overrun :
    (openWrites longPath oCreat 9 mounted).map (List.any · (· = vfsMaxPath)) = some true := by
  decide +kernel

end Thuban.Vfs

import Thuban.Fat32.Contents

/-!
# Finding what was created

`fat32_create` looks for an existing entry by decoding the names in the directory, but it stores an
encoding of the name it was given.  An entry is found again exactly when encoding and decoding give
its name back (`IsShort`); with such names no directory gets two entries of one name.
-/

namespace Thuban.Fat32

open Lib

variable {fs : Fs} {w₀ w : World} {v v' : Volume} {chain : Owner → List ℕ} {l ext : List ℕ}
  {d : Owner} {s : Slot} {name : CString} {mode new : ℕ} {dir : VfsNode}

/-! ## The new entry -/

theorem entryMark_mem (buf : Bytes) (i : ℕ) : entryMark buf i ∈ entryName buf i :=
  List.mem_map.mpr ⟨0, by simp, rfl⟩

namespace Created

variable (created : Created fs v v' l name mode new ext s)

include created

theorem entryName : entryName (v'.data s.1) s.2 = nameTo83 name := by
  rw [created.dataSlot, entryName_fillEntry]

theorem ended (valid : isValidName name = true) : v'.ended s = false := by
  have mem := entryMark_mem (v'.data s.1) s.2
  rw [created.entryName] at mem
  exact decide_eq_false (ne_zero_of_mem_nameTo83 valid mem)

theorem visible (short : IsShort name) : visible (v'.data s.1) s.2 = true := by
  have mem := entryMark_mem (v'.data s.1) s.2
  rw [created.entryName] at mem
  have attr := entryAttr_fillEntry (if s.1 ∈ ext then fun _ => 0 else v.data s.1) s.2 name mode new
  rw [← created.dataSlot] at attr
  have lfn : isLfn (v'.data s.1) s.2 = false := by
    simp only [isLfn, attr]
    split <;> decide
  have label : isVolumeId (v'.data s.1) s.2 = false := by
    simp only [isVolumeId, attr]
    split <;> decide
  have kept : isDeleted (v'.data s.1) s.2 = false := decide_eq_false (short.ne_deleted mem)
  simp [Fat32.visible, lfn, label, kept]

theorem lookupMatch_iff : lookupMatch name (v'.data s.1) s.2 = true ↔ IsShort name := by
  rw [lookupMatch, created.entryName, Bool.and_eq_true, decide_eq_true_iff,
    name83ToName_nameTo83_iff]
  exact ⟨fun h => h.2, fun short => ⟨created.visible short, short⟩⟩

theorem split (g : Geometry fs) : ∃ l₁ l₂, slotsOf fs (l ++ ext) = l₁ ++ s :: l₂ ∧
    (∀ r ∈ l₁, r ∈ slotsOf fs l ∧ v.isFree r = false) ∧
    (slotsOf fs l = l₁ ++ s :: l₂ ∨ slotsOf fs l = l₁ ∧ ∀ r ∈ l₂, r.1 ∈ ext) := by
  rcases created.slot with ⟨found, rfl⟩ | ⟨full, c, rfl, rfl⟩
  · obtain ⟨l₁, l₂, split, -, -, passed⟩ := exists_of_firstHit_eq_some found
    refine ⟨l₁, l₂, by rw [List.append_nil, split], fun r hr => ⟨?_, (passed r hr).2⟩, .inl split⟩
    rw [split]
    exact List.mem_append_left _ hr
  · have taken : ∀ r ∈ slotsOf fs l, v.isFree r = false := by
      rw [findFree, ← List.append_nil (slotsOf fs l)] at full
      exact not_hit_of_firstHit_eq_none full fun _ _ => rfl
    obtain ⟨n, hn⟩ : ∃ n, fs.slots = n + 1 := ⟨fs.slots - 1, by have := g.slots_pos; omega⟩
    refine ⟨slotsOf fs l, (List.range' 1 n).map fun i => (c, i), ?_, fun r hr => ⟨hr, taken r hr⟩,
      .inr ⟨rfl, ?_⟩⟩
    · rw [slotsOf_append, slotsOf_cons, hn, List.range'_succ]
      simp [slotsOf]
    · intro r hr
      obtain ⟨i, -, rfl⟩ := List.mem_map.mp hr
      exact List.mem_singleton_self c

end Created

section Found

variable (layout : Layout fs v {o | Reach fs v o} chain) (reached : Reach fs v d)
  (created : Created fs v v' (chain d) name mode new ext s)

include layout reached created

theorem create_ne {r : Slot} (taken : v.isFree r = false) (mem : r ∈ slotsOf fs (chain d)) :
    r ≠ s := by
  rintro rfl
  rcases created.slot with ⟨found, -⟩ | ⟨-, c, rfl, rfl⟩
  · obtain ⟨_, _, -, -, free, -⟩ := exists_of_firstHit_eq_some found
    rw [taken] at free
    exact absurd free (by decide)
  · exact create_outside layout created reached (mem_slotsOf.mp mem).1 (by simp)

theorem create_find (g : Geometry fs) (valid : isValidName name = true)
    (missing : find fs v (lookupMatch name) (chain d) = none) (short : IsShort name) :
    find fs v' (lookupMatch name) (chain d ++ ext) = some s := by
  obtain ⟨l₁, l₂, whole, before, behind⟩ := created.split g
  have going : ∀ r ∈ l₁, v.ended r = false := fun r hr => by
    have taken := (before r hr).2
    rw [Volume.isFree, Bool.or_eq_false_iff] at taken
    exact taken.1
  -- No slot before the new entry holds the name, since none of them was behind an end mark.
  obtain ⟨rest, old⟩ : ∃ rest, slotsOf fs (chain d) = l₁ ++ rest := by
    rcases behind with split | ⟨split, -⟩
    · exact ⟨_, split⟩
    · exact ⟨[], by rw [split, List.append_nil]⟩
  rw [find, old] at missing
  have other := not_hit_of_firstHit_eq_none missing going
  rw [find, whole]
  refine firstHit_append_hit (fun r hr => ?_) (created.ended valid)
    (created.lookupMatch_iff.mpr short)
  obtain ⟨mem, taken⟩ := before r hr
  have same := create_sameEntry layout created reached mem
    (create_ne layout reached created taken mem)
  rw [same.ended, same.lookupMatch]
  exact ⟨going r hr, other r hr⟩

end Found

/-! ## One call -/

/-- From `v` to `v'` the directory `d` has got one entry, in slot `s`. -/
structure EntryMade (fs : Fs) (v v' : Volume) (d : Owner) (name : CString) (s : Slot) : Prop where
  place : ∃ l, Owns fs v' d l ∧ s ∈ slotsOf fs l
  fresh : ¬ Reach fs v (some s)
  name : entryName (v'.data s.1) s.2 = nameTo83 name
  only : ∀ o, Reach fs v' o → o = some s ∨ Reach fs v o

theorem entryMade (g : Geometry fs) (layout : Layout fs v {o | Reach fs v o} chain)
    (reached : Reach fs v d) (created : Created fs v v' (chain d) name mode new ext s) :
    EntryMade fs v v' d name s where
  place := by
    have owns := create_owns layout reached created g reached
    rw [Function.update_self] at owns
    obtain ⟨l₁, l₂, whole, -⟩ := created.split g
    refine ⟨chain d ++ ext, owns, ?_⟩
    rw [whole]
    exact List.mem_append_right _ List.mem_cons_self
  fresh := create_fresh layout reached created g
  name := created.entryName
  only o h := (create_layout layout reached created g).reach_mem g h

theorem exists_created (now : Becomes fs w₀ w v) (layout : Layout fs v {o | Reach fs v o} chain)
    (h : Denotes fs v dir d) {w' : World}
    (made : Converges (create fs dir name mode · w) (0, w')) :
    v.isDir d = true ∧ isValidName name = true ∧
      find fs v (lookupMatch name) (chain d) = none ∧
      ∃ v' new ext s, Created fs v v' (chain d) name mode new ext s ∧ Becomes fs w₀ w' v' := by
  cases isDir : dir.isDirectory with
  | false =>
    have fails : Converges (create fs dir name mode · w) (-1, w) := by
      refine .const fun fuel => ?_
      simp [create, isDir]
    exact absurd (congrArg Prod.fst (made.unique fails)) (by simp)
  | true =>
    obtain ⟨r, w₁, ends, result⟩ :=
      create_spec now isDir (h.owned (layout.owns d h.reach)) name mode
    cases made.unique ends
    split at result
    · rename_i wanted
      rcases result with ⟨-, v', new, ext, s, created, after⟩ | ⟨impossible, -⟩
      · exact ⟨h.kind ▸ isDir, wanted.1, wanted.2, v', new, ext, s, created, after⟩
      · exact absurd impossible (by decide)
    · exact absurd result.1 (by decide)

/-- After a successful `fat32_create`, `fat32_lookup` returns the new entry and a further call fails
exactly when an entry can represent the name. -/
theorem create_found_iff {w₁ : World} (ready : Ready fs w) (consistent : Consistent fs (volume fs w))
    (h : Denotes fs (volume fs w) dir d)
    (made : Converges (create fs dir name mode · w) (0, w₁)) :
    ∃ s, EntryMade fs (volume fs w) (volume fs w₁) d name s ∧
      (((∃ node w₂, Converges (lookup fs dir name · w₁) (some node, w₂) ∧
          (node.fsData.dirCluster, node.fsData.dirOffset) = s) ∧
        ∃ w₂, Converges (create fs dir name mode · w₁) (-1, w₂)) ↔
        IsShort name) := by
  have g := ready.geometry
  obtain ⟨chain, layout⟩ := consistent.exists_layout
  obtain ⟨isDir, valid, missing, v', new, ext, s, created, after⟩ :=
    exists_created (.refl ready) layout h made
  obtain rfl := after.volume
  have h' := h.evolve (create_evolves layout h.reach created g) (Set.notMem_empty _)
  have owns' := create_owns layout h.reach created g h.reach
  rw [Function.update_self] at owns'
  have kind : dir.isDirectory = true := h.kind.trans isDir
  refine ⟨s, entryMade g layout h.reach created, fun ⟨⟨node, w₂, looked, place⟩, _⟩ => ?_,
    fun short => ?_⟩
  · obtain ⟨result, w₂', looked', -, -, found⟩ := lookup_spec after kind (h'.owned owns') name
    cases looked.unique looked'
    rw [Looked] at found
    cases hit : find fs (volume fs w₁) (lookupMatch name) (chain d ++ ext) with
    | none => simp [hit] at found
    | some r =>
      rw [hit] at found
      obtain ⟨addr, fsDataAddr, same, -⟩ := found
      cases same
      obtain rfl : r = s := place
      obtain ⟨_, _, -, -, matched, -⟩ := exists_of_firstHit_eq_some hit
      exact created.lookupMatch_iff.mp matched
  · have found := create_find layout h.reach created g valid missing short
    obtain ⟨addr, fsDataAddr, w₂, looked, -⟩ :=
      lookup_found after h' (h'.kind.symm.trans kind) owns' found
    obtain ⟨r, w₃, again, result⟩ := create_spec after kind (h'.owned owns') name mode
    rw [if_neg (by simp [found])] at result
    obtain ⟨rfl, -⟩ := result
    exact ⟨⟨_, w₂, looked, rfl⟩, w₃, again⟩

/-! ## Directories without doublets -/

/-- No two entries have the same eleven bytes of name. -/
def Distinct (v : Volume) (slots : List Slot) : Prop :=
  ∀ r ∈ slots, ∀ r' ∈ slots, v.live r = true → v.live r' = true →
    entryName (v.data r.1) r.2 = entryName (v.data r'.1) r'.2 → r = r'

/-- Every directory that is reached is tidy and without doublets. -/
def Orderly (fs : Fs) (v : Volume) : Prop :=
  ∀ o l, Reach fs v o → v.isDir o = true → Owns fs v o l →
    Tidy v (slotsOf fs l) ∧ Distinct v (slotsOf fs l)

theorem Tidy.congr {slots : List Slot} (h : Tidy v slots)
    (same : ∀ r ∈ slots, SameEntry v v' r) : Tidy v' slots := by
  refine List.Pairwise.imp_of_mem (fun {a b} ha hb rule => ?_) h
  rwa [(same a ha).ended, (same b hb).ended]

theorem Distinct.congr {slots : List Slot} (h : Distinct v slots)
    (same : ∀ r ∈ slots, SameEntry v v' r) : Distinct v' slots := by
  intro a ha b hb
  rw [(same a ha).live, (same b hb).live, (same a ha).name, (same b hb).name]
  exact h a ha b hb

theorem nodup_slotsOf (fs : Fs) {l : List ℕ} (nodup : l.Nodup) : (slotsOf fs l).Nodup := by
  refine List.nodup_flatMap.mpr ⟨fun c _ => ?_, nodup.imp fun different => ?_⟩
  · exact List.Nodup.map (fun i j same => (Prod.ext_iff.mp same).2) List.nodup_range'
  · simp only [Function.onFun, List.Disjoint, List.mem_map]
    rintro r ⟨i, -, rfl⟩ ⟨j, -, same⟩
    exact different (Prod.ext_iff.mp same).1.symm

section Kept

variable (g : Geometry fs) (layout : Layout fs v {o | Reach fs v o} chain) (reached : Reach fs v d)
  (created : Created fs v v' (chain d) name mode new ext s) (tidy : Tidy v (slotsOf fs (chain d)))

include g layout reached created tidy

theorem create_tidy (valid : isValidName name = true) : Tidy v' (slotsOf fs (chain d ++ ext)) := by
  have owns := create_owns layout reached created g reached
  rw [Function.update_self] at owns
  have nodup := nodup_slotsOf fs (owns.1.nodup g)
  obtain ⟨l₁, l₂, whole, before, behind⟩ := created.split g
  rw [whole] at nodup
  have going : ∀ r ∈ l₁, v'.ended r = false := fun r hr => by
    obtain ⟨mem, taken⟩ := before r hr
    rw [(create_sameEntry layout created reached mem
      (create_ne layout reached created taken mem)).ended]
    rw [Volume.isFree, Bool.or_eq_false_iff] at taken
    exact taken.1
  have other : ∀ r ∈ l₂, r ≠ s := fun r hr same =>
    (List.nodup_cons.mp (List.nodup_append.mp nodup).2.1).1 (same ▸ hr)
  rw [Tidy, whole, List.pairwise_append, List.pairwise_cons]
  refine ⟨List.pairwise_of_forall_mem_list fun a ha b _ ended => ?_, ⟨fun b _ ended => ?_, ?_⟩,
    fun a ha b _ ended => ?_⟩
  · simp [going a ha] at ended
  · simp [created.ended valid] at ended
  · rcases behind with split | ⟨-, inExt⟩
    · rw [Tidy, split, List.pairwise_append, List.pairwise_cons] at tidy
      refine Tidy.congr tidy.2.1.2 fun r hr => ?_
      refine create_sameEntry layout created reached ?_ (other r hr)
      rw [split]
      exact List.mem_append_right _ (List.mem_cons_of_mem _ hr)
    · refine List.pairwise_of_forall_mem_list fun a _ b hb _ => ?_
      exact decide_eq_true (create_taken created (List.mem_cons_of_mem _ (inExt b hb)) (other b hb))
  · simp [going a ha] at ended

omit g in
theorem create_name_ne (missing : find fs v (lookupMatch name) (chain d) = none)
    (short : IsShort name) {r : Slot} (mem : r ∈ slotsOf fs (chain d)) (different : r ≠ s)
    (live : v'.live r = true) : entryName (v'.data r.1) r.2 ≠ nameTo83 name := by
  have same := create_sameEntry layout created reached mem different
  rw [same.live, Volume.live, Bool.and_eq_true] at live
  rw [same.name]
  intro named
  have matched : lookupMatch name (v.data r.1) r.2 = true := by
    rw [lookupMatch, live.2, named, (name83ToName_nameTo83_iff name).mpr short]
    simp
  -- The entry is in use, so that no end mark stands before it and the search would have met it.
  obtain ⟨m₁, m₂, split⟩ := List.append_of_mem mem
  rw [Tidy, split, List.pairwise_append] at tidy
  have going : ∀ b ∈ m₁ ++ [r], v.ended b = false := by
    intro b hb
    by_contra ended
    rw [Bool.not_eq_false] at ended
    rcases List.mem_append.mp hb with hb | hb
    · have := tidy.2.2 b hb r List.mem_cons_self ended
      simp [this] at live
    · rw [List.mem_singleton.mp hb] at ended
      simp [ended] at live
  rw [find, split, show m₁ ++ r :: m₂ = m₁ ++ [r] ++ m₂ by simp] at missing
  have missed := not_hit_of_firstHit_eq_none missing going r (by simp)
  rw [matched] at missed
  exact absurd missed (by decide)

omit g in
theorem create_distinct (distinct : Distinct v (slotsOf fs (chain d)))
    (missing : find fs v (lookupMatch name) (chain d) = none) (short : IsShort name) :
    Distinct v' (slotsOf fs (chain d ++ ext)) := by
  have old : ∀ r ∈ slotsOf fs (chain d ++ ext), r ≠ s → v'.live r = true →
      r ∈ slotsOf fs (chain d) := by
    intro r hr different live
    rw [slotsOf_append, List.mem_append] at hr
    refine hr.resolve_right fun inExt => ?_
    rw [create_taken_not_live created
      (List.mem_cons_of_mem _ (mem_slotsOf.mp inExt).1) different] at live
    exact absurd live (by decide)
  have fresh := fun r hr different live => create_name_ne layout reached created tidy missing short
    (old r hr different live) different live
  intro a ha b hb liveA liveB named
  by_cases sameA : a = s
  · subst sameA
    by_contra different
    refine fresh b hb (different ·.symm) liveB ?_
    rw [← named, created.entryName]
  · by_cases sameB : b = s
    · subst sameB
      refine absurd ?_ (fresh a ha sameA liveA)
      rw [named, created.entryName]
    · have memA := old a ha sameA liveA
      have memB := old b hb sameB liveB
      have entryA := create_sameEntry layout created reached memA sameA
      have entryB := create_sameEntry layout created reached memB sameB
      rw [entryA.name, entryB.name] at named
      exact distinct a memA b memB (entryA.live ▸ liveA) (entryB.live ▸ liveB) named

end Kept

theorem zero_orderly (g : Geometry fs) (layout : Layout fs v {o | Reach fs v o} chain)
    (orderly : Orderly fs v) {c : ℕ} (free : v.fat c = freeMark) : Orderly fs (v.zero c) := by
  intro o l reach dir owns
  have layout' := zero_layout layout g free
  have reached : Reach fs v o := layout'.reach_mem g reach
  obtain rfl := owns.unique g (layout'.owns o reached)
  have kind : v.isDir o = true := by
    cases o with
    | none => rfl
    | some r => exact ((zero_evolves layout g free).same r reached (Set.notMem_empty _)).isDir ▸ dir
  have same := fun r hr => zero_sameEntry layout free reached (s := r) hr
  obtain ⟨tidy, distinct⟩ := orderly o _ reached kind (layout.owns o reached)
  exact ⟨tidy.congr same, distinct.congr same⟩

theorem create_orderly (g : Geometry fs) (layout : Layout fs v {o | Reach fs v o} chain)
    (reached : Reach fs v d) (isDir : v.isDir d = true) (orderly : Orderly fs v)
    (created : Created fs v v' (chain d) name mode new ext s) (valid : isValidName name = true)
    (missing : find fs v (lookupMatch name) (chain d) = none) (short : IsShort name) :
    Orderly fs v' := by
  intro o l reach dir owns
  have layout' := create_layout layout reached created g
  have mem := layout'.reach_mem g reach
  obtain rfl := owns.unique g (layout'.owns o mem)
  have fresh := create_fresh layout reached created g
  obtain ⟨l', ownsD, inside⟩ := (entryMade g layout reached created).place
  have place : s.1 ∈ chain d ++ ext := by
    have owns' := create_owns layout reached created g reached
    rw [Function.update_self] at owns'
    rw [ownsD.unique g owns'] at inside
    exact (mem_slotsOf.mp inside).1
  rcases mem with rfl | old
  · -- The new entry has one cluster, which is blank.
    rw [Function.update_self]
    have ended : ∀ r ∈ slotsOf fs [new], v'.ended r = true := fun r hr => by
      have cluster : r.1 = new := List.mem_singleton.mp (mem_slotsOf.mp hr).1
      refine decide_eq_true (create_taken created (by simp [cluster]) ?_)
      rintro rfl
      have absent := create_new_not_mem layout reached created reached
      rw [Function.update_self, ← cluster] at absent
      exact absent place
    refine ⟨List.pairwise_of_forall_mem_list fun a _ b hb _ => ended b hb, fun a ha b _ live => ?_⟩
    simp [Volume.live, ended a ha] at live
  · have notNew : o ≠ some s := fun same => fresh (same ▸ old)
    rw [Function.update_of_ne notNew]
    by_cases here : o = d
    · subst here
      rw [Function.update_self]
      obtain ⟨tidy, distinct⟩ := orderly o _ reached isDir (layout.owns o reached)
      exact ⟨create_tidy g layout reached created tidy valid,
        create_distinct layout reached created tidy distinct missing short⟩
    · rw [Function.update_of_ne here]
      rw [create_kind layout reached created g old] at dir
      obtain ⟨tidy, distinct⟩ := orderly o _ old dir (layout.owns o old)
      have same : ∀ r ∈ slotsOf fs (chain o), SameEntry v v' r := fun r hr => by
        refine create_sameEntry layout created old hr ?_
        rintro rfl
        rcases List.mem_append.mp place with inDir | inExt
        · exact layout.apart o old d reached here (mem_slotsOf.mp hr).1 inDir
        · exact create_outside layout created old (mem_slotsOf.mp hr).1
            (List.mem_cons_of_mem _ inExt)
      exact ⟨tidy.congr same, distinct.congr same⟩

/-! ## Histories of creations -/

/-- A creation of a name that an entry can represent. -/
def Op.MakesShort : Op → Prop
  | .create _ name _ => IsShort name
  | .mkdir _ name _ => IsShort name
  | _ => False

/-- A volume of valid geometry, consistent, with orderly directories. -/
structure Neat (fs : Fs) (w : World) : Prop where
  ready : Ready fs w
  consistent : Consistent fs (volume fs w)
  orderly : Orderly fs (volume fs w)

theorem Denotes.create_neat (neat : Neat fs w) (h : Denotes fs (volume fs w) dir d)
    (short : IsShort name) (mode : ℕ) :
    ∃ r w', Converges (Fat32.create fs dir name mode · w) (r, w') ∧
      Neat fs w' := by
  have g := neat.ready.geometry
  obtain ⟨r, w', v', ends, after, evolves⟩ :=
    h.create (.refl neat.ready) neat.consistent name mode
  obtain rfl := after.volume
  refine ⟨r, w', ends, after.ready, evolves.consistent, ?_⟩
  cases isDir : dir.isDirectory with
  | false =>
    have fails : Converges (Fat32.create fs dir name mode · w) (-1, w) := by
      refine .const fun fuel => ?_
      simp [Fat32.create, isDir]
    cases ends.unique fails
    exact neat.orderly
  | true =>
    obtain ⟨chain, layout⟩ := neat.consistent.exists_layout
    obtain ⟨r', w'', ends', result⟩ :=
      create_spec (.refl neat.ready) isDir (h.owned (layout.owns d h.reach)) name mode
    cases ends.unique ends'
    split at result
    · rename_i wanted
      rcases result with ⟨-, v', new, ext, s, created, after'⟩ |
        ⟨-, after' | ⟨c, -, free, after'⟩⟩
      · rw [after'.volume]
        exact create_orderly g layout h.reach (h.kind ▸ isDir) neat.orderly created wanted.1
          wanted.2 short
      · rw [after'.volume]
        exact neat.orderly
      · rw [after'.volume]
        exact zero_orderly g layout neat.orderly free
    · rw [result.2.volume]
      exact neat.orderly

theorem neat_step {op : Op} {w' : World} {addr fsDataAddr sb : ℕ} (neat : Neat fs w)
    (short : op.MakesShort) (step : Step fs (rootNode fs addr fsDataAddr sb) w op w') :
    Neat fs w' := by
  have kept : ∀ w₁, Becomes fs w w₁ (volume fs w) → Neat fs w₁ := fun w₁ after =>
    ⟨after.ready, after.volume ▸ neat.consistent, after.volume ▸ neat.orderly⟩
  obtain ⟨w'', step', neat'⟩ := op.run_of_apply neat.ready neat.consistent
    (denotes_root fs _ addr fsDataAddr sb) kept fun w₁ node o after denotes => by
      rw [← after.volume] at denotes
      cases op with
      | create _ name mode =>
        obtain ⟨r, w', ends, neat'⟩ := denotes.create_neat (kept w₁ after) short mode
        refine ⟨w', ends.imp fun fuel eq => ?_, neat'⟩
        simp [Op.apply, eq]
      | mkdir _ name mode =>
        obtain ⟨r, w', ends, neat'⟩ := denotes.create_neat (kept w₁ after) short (mode ||| sIfdir)
        refine ⟨w', ends.imp fun fuel eq => ?_, neat'⟩
        simp [Op.apply, mkdir, eq]
      | unlink _ _ => exact short.elim
      | rmdir _ _ => exact short.elim
      | write _ _ _ _ => exact short.elim
  rwa [step.unique step']

/-- What was created is found again, and is not created twice, exactly when its entry can represent the
name; and creations of such names never leave two entries of one name in a directory. -/
theorem created_found_iff_short (fs : Fs) :
    (∀ (w w₁ : World) (dir : VfsNode) (d : Owner) (name : CString) (mode : ℕ), Ready fs w →
      Consistent fs (volume fs w) → Denotes fs (volume fs w) dir d →
      Converges (fun fuel => create fs dir name mode fuel w) (0, w₁) →
      ∃ s, EntryMade fs (volume fs w) (volume fs w₁) d name s ∧
        (((∃ node w₂, Converges (fun fuel => lookup fs dir name fuel w₁) (some node, w₂) ∧
            (node.fsData.dirCluster, node.fsData.dirOffset) = s) ∧
          ∃ w₂, Converges (fun fuel => create fs dir name mode fuel w₁) (-1, w₂)) ↔
          IsShort name)) ∧
    ∀ (w w' : World) (ops : List Op) (addr fsDataAddr sb : ℕ), Ready fs w →
      Consistent fs (volume fs w) → Orderly fs (volume fs w) →
      Run (fun w op w' => op.MakesShort ∧ Step fs (rootNode fs addr fsDataAddr sb) w op w') w ops w' →
      ∀ o l, Reach fs (volume fs w') o → (volume fs w').isDir o = true →
        Owns fs (volume fs w') o l → Distinct (volume fs w') (slotsOf fs l) := by
  refine ⟨fun w w₁ dir d name mode ready consistent h made => ?_,
    fun w w' ops addr fsDataAddr sb ready consistent orderly run o l reach dir owns => ?_⟩
  · exact create_found_iff ready consistent h made
  · have neat : Neat fs w' := run.invariant (P := Neat fs)
      (fun _ _ _ neat step => neat_step neat step.1 step.2) ⟨ready, consistent, orderly⟩
    exact (neat.orderly o l reach dir owns).2

theorem orderly_blank : Orderly smallFs (volume smallFs blankWorld) := by
  have ended : ∀ r, (volume smallFs blankWorld).ended r = true := fun r => by
    simp [Volume.ended, entryMark, data_blank]
  refine fun o l _ _ _ => ⟨List.pairwise_of_forall_mem_list fun _ _ r _ _ => ended r,
    fun r _ r' _ live => ?_⟩
  simp [Volume.live, ended] at live

/-- The file `a` on the blank volume, and a history that makes it and the directory `b`. -/
theorem created_found_iff_short_blank :
    (∃ w₁ node w₂, Converges (fun fuel => lookup smallFs (rootNode smallFs 0 0 0) [0x61] fuel w₁)
        (some node, w₂) ∧
      Converges (fun fuel => create smallFs (rootNode smallFs 0 0 0) [0x61] 0 fuel blankWorld)
        (0, w₁)) ∧
    ∃ w', Run (fun w op w' => op.MakesShort ∧ Step smallFs (rootNode smallFs 0 0 0) w op w')
        blankWorld [.create [] [0x61] 0, .mkdir [] [0x62] 0] w' ∧
      ∀ l, Owns smallFs (volume smallFs w') none l →
        Distinct (volume smallFs w') (slotsOf smallFs l) := by
  obtain ⟨call, history⟩ := created_found_iff_short smallFs
  constructor
  · have evaluated : (create smallFs (rootNode smallFs 0 0 0) [0x61] 0 5 blankWorld).map Prod.fst =
        some 0 := by decide +kernel
    obtain ⟨⟨r, w₁⟩, made, rfl⟩ := Option.map_eq_some_iff.mp evaluated
    have made := (stable_create smallFs _ _ _ _).converges made
    obtain ⟨s, -, found⟩ := call blankWorld w₁ _ none [0x61] 0 ready_blank sound_blank.consistent
      (denotes_root smallFs _ 0 0 0) made
    obtain ⟨⟨node, w₂, looked, -⟩, -⟩ := found.mpr (by decide +kernel)
    exact ⟨w₁, node, w₂, looked, made⟩
  · obtain ⟨w₁, first, sound₁⟩ :=
      (Op.create [] [0x61] 0).run_spec sound_blank (denotes_root smallFs _ 0 0 0)
    obtain ⟨w₂, second, -⟩ := (Op.mkdir [] [0x62] 0).run_spec sound₁ (denotes_root smallFs _ 0 0 0)
    have run : Run (fun w op w' => op.MakesShort ∧ Step smallFs (rootNode smallFs 0 0 0) w op w')
        blankWorld [.create [] [0x61] 0, .mkdir [] [0x62] 0] w₂ :=
      .cons ⟨(by decide +kernel : IsShort [0x61]), first⟩
        (.cons ⟨(by decide +kernel : IsShort [0x62]), second⟩ (.nil w₂))
    exact ⟨w₂, run, fun l owns => history blankWorld w₂ _ 0 0 0 ready_blank sound_blank.consistent
      orderly_blank run none l .root rfl owns⟩

/-- The name `A` is created twice: `fat32_lookup` decodes the stored name to `a`. -/
theorem create_upper_twice :
    ∃ w₁ w₂ w₃,
      Converges (fun fuel => create smallFs (rootNode smallFs 0 0 0) [0x41] 0 fuel blankWorld)
        (0, w₁) ∧
      Converges (fun fuel => lookup smallFs (rootNode smallFs 0 0 0) [0x41] fuel w₁) (none, w₂) ∧
      Converges (fun fuel => create smallFs (rootNode smallFs 0 0 0) [0x41] 0 fuel w₁) (0, w₃) ∧
      Owns smallFs (volume smallFs w₃) none [2] ∧
      ¬ Distinct (volume smallFs w₃) (slotsOf smallFs [2]) := by
  have evaluated :
      ((create smallFs (rootNode smallFs 0 0 0) [0x41] 0 5 blankWorld).bind fun first =>
        (lookup smallFs (rootNode smallFs 0 0 0) [0x41] 5 first.2).bind fun found =>
          (create smallFs (rootNode smallFs 0 0 0) [0x41] 0 5 first.2).map fun second =>
            first.1 == 0 && found.1.isNone && second.1 == 0 &&
              (volume smallFs second.2).fat 2 == eocMax &&
              (volume smallFs second.2).live (2, 0) && (volume smallFs second.2).live (2, 1) &&
              entryName ((volume smallFs second.2).data 2) 0 ==
                entryName ((volume smallFs second.2).data 2) 1) = some true := by
    decide +kernel
  obtain ⟨⟨r₁, w₁⟩, made, rest⟩ := Option.bind_eq_some_iff.mp evaluated
  obtain ⟨⟨r₂, w₂⟩, looked, rest⟩ := Option.bind_eq_some_iff.mp rest
  obtain ⟨⟨r₃, w₃⟩, again, facts⟩ := Option.map_eq_some_iff.mp rest
  simp only [Bool.and_eq_true, beq_iff_eq, Option.isNone_iff_eq_none] at facts
  obtain ⟨⟨⟨⟨⟨⟨rfl, rfl⟩, rfl⟩, ends⟩, live₀⟩, live₁⟩, named⟩ := facts
  refine ⟨w₁, w₂, w₃, (stable_create smallFs _ _ _ _).converges made,
    (stable_lookup smallFs _ _ _).converges looked,
    (stable_create smallFs _ _ _ _).converges again,
    ⟨.inl (.last (by decide : smallFs.Valid 2) ?_), fun _ => by simp⟩, fun distinct => ?_⟩
  · show eocMin ≤ (volume smallFs w₃).fat 2
    rw [ends]
    decide
  · have same := distinct (2, 0) (mem_slotsOf.mpr (by decide)) (2, 1)
      (mem_slotsOf.mpr (by decide)) live₀ live₁ named
    exact absurd same (by decide)

end Thuban.Fat32

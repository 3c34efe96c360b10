import Thuban.Fat32.Tree
import Thuban.Fat32.Removal
import Thuban.Fat32.Creation
import Thuban.Fat32.Files

/-!
# How the operations change a layout

One lemma for each kind of change that the driver makes to a consistent volume: a free cluster is
zeroed, an entry is removed together with its chain, a file is written, an entry is made.
-/

namespace Thuban.Fat32

open Lib

variable {fs : Fs} {v v' : Volume} {chain : Owner → List ℕ} {o : Owner} {s t : Slot} {c : ℕ}
  {l ext : List ℕ}

/-- No volume label stands in a directory of the layout. -/
def Unlabelled (fs : Fs) (v : Volume) (R : Set Owner) (chain : Owner → List ℕ) : Prop :=
  ∀ o ∈ R, v.isDir o = true → ∀ s ∈ slotsOf fs (chain o), v.labelled s = false

theorem Unlabelled.noLabels (g : Geometry fs) {R : Set Owner} (layout : Layout fs v R chain)
    (h : Unlabelled fs v R chain) : NoLabels fs v := by
  intro o l reached dir owns s mem
  have ho := layout.reach_mem g reached
  rw [owns.unique g (layout.owns o ho)] at mem
  exact h o ho dir s mem

theorem NoLabels.unlabelled (layout : Layout fs v {o | Reach fs v o} chain) (h : NoLabels fs v) :
    Unlabelled fs v {o | Reach fs v o} chain :=
  fun o ho dir s mem => h o (chain o) ho dir (layout.owns o ho) s mem

section Reached

variable (layout : Layout fs v {o | Reach fs v o} chain)

include layout

theorem Layout.placed (g : Geometry fs) (h : Reach fs v (some s)) :
    ∃ d, Reach fs v d ∧ v.isDir d = true ∧ s ∈ slotsOf fs (chain d) ∧ v.live s = true := by
  obtain ⟨d, l, reached, dir, owns, mem, live⟩ := h.placed
  rw [owns.unique g (layout.owns d reached)] at mem
  exact ⟨d, reached, dir, mem, live⟩

theorem Layout.used {d : Owner} (h : Reach fs v d) (hc : c ∈ chain d) : v.fat c ≠ freeMark :=
  (layout.owns d h).1.fat_ne_zero hc

theorem Layout.not_self (g : Geometry fs) (h : Reach fs v o) :
    ∀ s, o = some s → s ∉ slotsOf fs (chain (some s)) := by
  induction h with
  | root => simp
  | @entry d l r above dir owns mem live ih =>
    rintro _ ⟨⟩ inside
    have reached : Reach fs v (some r) := .entry above dir owns mem live
    rw [owns.unique g (layout.owns d above)] at mem
    by_cases same : d = some r
    · exact ih r same inside
    · exact layout.apart d above (some r) reached same (mem_slotsOf.mp mem).1
        (mem_slotsOf.mp inside).1

/-! ## Zeroing a free cluster -/

theorem zero_sameEntry (free : v.fat c = freeMark) {d : Owner} (h : Reach fs v d)
    (mem : s ∈ slotsOf fs (chain d)) : SameEntry v (v.zero c) s := by
  refine .of_data (Function.update_of_ne ?_ _ _)
  rintro rfl
  exact layout.used h (mem_slotsOf.mp mem).1 free

theorem zero_layout (g : Geometry fs) (free : v.fat c = freeMark) :
    Layout fs (v.zero c) {o | Reach fs v o} chain := by
  refine layout.transfer subset_rfl .root (fun s hs => ?_) (fun _ _ _ _ => rfl)
    fun d hd dir s mem live => ?_
  · obtain ⟨d, reached, -, mem, -⟩ := layout.placed g hs
    exact zero_sameEntry layout free reached mem
  · rw [(zero_sameEntry layout free hd mem).live] at live
    exact layout.closed d hd dir s mem live

theorem zero_unlabelled (h : Unlabelled fs v {o | Reach fs v o} chain) (g : Geometry fs)
    (free : v.fat c = freeMark) : Unlabelled fs (v.zero c) {o | Reach fs v o} chain := by
  intro d hd dir s mem
  have kind : v.isDir d = true := by
    cases d with
    | none => rfl
    | some r =>
      obtain ⟨e, reached, -, mem, -⟩ := layout.placed g hd
      rwa [(zero_sameEntry layout free reached mem).isDir] at dir
  rw [(zero_sameEntry layout free hd mem).labelled]
  exact h d hd kind s mem

theorem zero_evolves (g : Geometry fs) (free : v.fat c = freeMark) : Evolves fs v (v.zero c) ∅ := by
  have layout' := zero_layout layout g free
  refine layout.evolves g layout' (fun _ none => none.elim) (fun o ho _ => ⟨ho, List.Subset.refl _⟩)
    (fun s hs _ => ?_) fun none =>
      (zero_unlabelled layout (none.unlabelled layout) g free).noLabels g layout'
  obtain ⟨d, reached, -, mem, -⟩ := layout.placed g hs
  exact zero_sameEntry layout free reached mem

end Reached

/-! ## Removing an entry -/

theorem erase_sameEntry (different : s ≠ t) : SameEntry v ((v.release l).erase t) s := by
  refine .of_sameSlot fun k hk => ?_
  simp only [Volume.erase, Volume.release, Function.update_apply]
  split
  · rename_i same
    rw [same]
    refine Bytes.put_ne _ _ fun at' => different (Prod.ext same ?_)
    unfold entrySize at *
    omega
  · rfl

theorem erase_not_live : ((v.release l).erase t).live t = false := by
  simp [Volume.live, visible, isDeleted, entryMark, Volume.erase]

theorem Layout.remove {R : Set Owner} (layout : Layout fs v R chain)
    (released : (some t ∈ R ∧ l = chain (some t)) ∨ l = []) :
    Layout fs ((v.release l).erase t) (R \ {some t}) chain := by
  refine layout.transfer Set.sdiff_subset ⟨layout.root, by simp⟩
    (fun s hs => erase_sameEntry fun same => hs.2 (congrArg some same))
    (fun d hd c hc => ?_) fun d hd dir s mem live => ?_
  · have kept : c ∉ l := by
      rcases released with ⟨owner, rfl⟩ | rfl
      · exact layout.apart d hd.1 (some t) owner hd.2 hc
      · exact List.not_mem_nil
    simp only [Volume.erase, Volume.release, if_neg kept]
  · have different : s ≠ t := by
      rintro rfl
      rw [erase_not_live] at live
      exact absurd live (by decide)
    rw [(erase_sameEntry different).live] at live
    refine ⟨layout.closed d hd.1 dir s mem live, fun same => different ?_⟩
    exact Option.some.inj same

theorem Unlabelled.remove {R : Set Owner} (h : Unlabelled fs v R chain) :
    Unlabelled fs ((v.release l).erase t) (R \ {some t}) chain := by
  intro d hd dir s mem
  by_cases same : s = t
  · subst same
    simp [Volume.labelled, isDeleted, entryMark, Volume.erase]
  · have kind : v.isDir d = true := by
      cases d with
      | none => rfl
      | some r => rwa [(erase_sameEntry fun eq => hd.2 (congrArg some eq)).isDir] at dir
    rw [(erase_sameEntry same).labelled]
    exact h d hd.1 kind s mem

theorem remove_evolves (layout : Layout fs v {o | Reach fs v o} chain) (g : Geometry fs)
    (released : (Reach fs v (some t) ∧ l = chain (some t)) ∨ l = [])
    (regular : v.isDir (some t) = false) : Evolves fs v ((v.release l).erase t) {some t} := by
  have layout' := layout.remove released
  refine layout.evolves g layout' ?_ (fun o ho stays => ⟨⟨ho, stays⟩, List.Subset.refl _⟩)
    (fun s _ stays => erase_sameEntry fun same => stays (congrArg some same)) fun none =>
      (none.unlabelled layout).remove.noLabels g layout'
  rintro o rfl
  exact regular

theorem removeDir_evolves (layout : Layout fs v {o | Reach fs v o} chain) (g : Geometry fs)
    (reached : Reach fs v (some t)) :
    Evolves fs v ((v.release (chain (some t))).erase t)
      {o | ¬ Reach fs ((v.release (chain (some t))).erase t) o} := by
  have layout' := layout.remove (.inl ⟨reached, rfl⟩)
  refine ⟨layout'.consistent g, fun none => ?_, fun o _ stays => not_not.mp stays,
    fun s _ stays => erase_sameEntry ?_⟩
  · exact (none.unlabelled layout).remove.noLabels g layout'
  · rintro rfl
    exact (layout'.reach_mem g (not_not.mp stays)).2 rfl

/-! ## Writing a file -/

section Write

variable (layout : Layout fs v {o | Reach fs v o} chain) (reached : Reach fs v (some t))
  (regular : v.isDir (some t) = false) {v₁ : Volume} {src : Bytes} {offset n : ℕ}
  (wrote : Wrote fs v v₁ (v.first fs (some t)) (chain (some t)) ext src offset n)

include layout reached regular wrote

variable {d : Owner}

omit regular in
theorem write_outside (hd : Reach fs v d) (different : d ≠ some t) (hc : c ∈ chain d) :
    c ∉ chain (some t) ++ ext := by
  rw [List.mem_append]
  rintro (mem | mem)
  · exact layout.apart d hd (some t) reached different hc mem
  · exact layout.used hd hc (wrote.grown.free c mem)

omit layout reached wrote in
theorem dir_ne (dir : v.isDir d = true) : d ≠ some t := by
  rintro rfl
  rw [regular] at dir
  exact absurd dir (by decide)

theorem wrote_sameEntry (hd : Reach fs v d) (dir : v.isDir d = true)
    (mem : s ∈ slotsOf fs (chain d)) : SameEntry v v₁ s :=
  .of_data (wrote.outside _
    (write_outside layout reached wrote hd (dir_ne regular dir) (mem_slotsOf.mp mem).1))

theorem wrote_find (hd : Reach fs v d) (dir : v.isDir d = true) (name : CString) :
    find fs v₁ (lookupMatch name) (chain d) = find fs v (lookupMatch name) (chain d) :=
  find_lookupMatch_congr name fun _ mem =>
    wrote_sameEntry layout reached regular wrote hd dir mem

section

variable (g : Geometry fs)

include g

theorem wrote_same (hs : Reach fs v (some s)) : SameEntry v v₁ s := by
  obtain ⟨d, hd, dir, mem, -⟩ := layout.placed g hs
  exact wrote_sameEntry layout reached regular wrote hd dir mem

theorem wrote_kind (hd : Reach fs v d) : v₁.isDir d = v.isDir d := by
  cases d with
  | none => rfl
  | some r => exact (wrote_same layout reached regular wrote g hd).isDir

theorem wrote_first (hd : Reach fs v d) : v₁.first fs d = v.first fs d := by
  cases d with
  | none => rfl
  | some r => exact (wrote_same layout reached regular wrote g hd).first

theorem wrote_layout : Layout fs v₁ {o | Reach fs v o}
    (Function.update chain (some t) (chain (some t) ++ ext)) := by
  refine ⟨.root, fun d hd => ?_, fun d hd e he different => ?_, fun d hd dir s mem live => ?_⟩
  · unfold Owns
    rw [wrote_first layout reached regular wrote g hd]
    by_cases target : d = some t
    · subst target
      rw [Function.update_self]
      exact ⟨.inl wrote.grown.chain, fun h => by simp at h⟩
    · rw [Function.update_of_ne target]
      refine ⟨(layout.owns d hd).1.congr fun c hc => ?_, (layout.owns d hd).2⟩
      exact wrote.grown.fatSame c (write_outside layout reached wrote hd target hc)
  · have outside : ∀ {d}, Reach fs v d → d ≠ some t →
        (chain d).Disjoint (chain (some t) ++ ext) := fun hd target c hc =>
      write_outside layout reached wrote hd target hc
    by_cases hdt : d = some t
    · subst hdt
      rw [Function.update_self, Function.update_of_ne different.symm]
      exact (outside he different.symm).symm
    · rw [Function.update_of_ne hdt]
      by_cases het : e = some t
      · subst het
        rw [Function.update_self]
        exact outside hd different
      · rw [Function.update_of_ne het]
        exact layout.apart d hd e he different
  · rw [wrote_kind layout reached regular wrote g hd] at dir
    rw [Function.update_of_ne (dir_ne regular dir)] at mem
    rw [(wrote_sameEntry layout reached regular wrote hd dir mem).live] at live
    exact layout.closed d hd dir s mem live

theorem wrote_unlabelled (h : Unlabelled fs v {o | Reach fs v o} chain) :
    Unlabelled fs v₁ {o | Reach fs v o}
      (Function.update chain (some t) (chain (some t) ++ ext)) := by
  intro d hd dir s mem
  rw [wrote_kind layout reached regular wrote g hd] at dir
  rw [Function.update_of_ne (dir_ne regular dir)] at mem
  rw [(wrote_sameEntry layout reached regular wrote hd dir mem).labelled]
  exact h d hd dir s mem

theorem wrote_evolves : Evolves fs v v₁ ∅ := by
  have layout' := wrote_layout layout reached regular wrote g
  refine layout.evolves g layout' (fun _ none => none.elim) (fun o ho _ => ⟨ho, ?_⟩)
    (fun s hs _ => wrote_same layout reached regular wrote g hs) fun none =>
      (wrote_unlabelled layout reached regular wrote g (none.unlabelled layout)).noLabels g layout'
  by_cases target : o = some t
  · subst target
    rw [Function.update_self]
    exact List.subset_append_left _ _
  · rw [Function.update_of_ne target]
    exact List.Subset.refl _

theorem wrote_untouched : Untouched fs v v₁ t := by
  intro d l hd different owns
  obtain rfl := owns.unique g (layout.owns d hd)
  have owns' := (wrote_layout layout reached regular wrote g).owns d hd
  rw [Function.update_of_ne different] at owns'
  refine ⟨owns', fun c hc k _ => congrFun (wrote.outside c ?_) k⟩
  exact write_outside layout reached wrote hd different hc

end

end Write

/-! ## Storing the size -/

theorem setEntry_sameSlot (v : Volume) (size first : ℕ) (different : s ≠ t) :
    SameSlot ((v.setEntry t size first).data s.1) (v.data s.1) s.2 := by
  intro k hk
  simp only [Volume.setEntry, Function.update_apply]
  split
  · rename_i same
    have : s.2 ≠ t.2 := fun eq => different (Prod.ext same eq)
    rw [same]
    refine setEntry_outside _ _ _ _ ?_
    unfold entrySize at *
    omega
  · rfl

theorem setEntry_sameEntry (fs : Fs) (v : Volume) (s t : Slot) (size : ℕ) :
    SameEntry v (v.setEntry t size (v.first fs (some t))) s := by
  by_cases same : s = t
  · subst same
    have stored : (v.setEntry s size (v.first fs (some s))).data s.1 =
        setEntry (v.data s.1) s.2 size (v.first fs (some s)) := Function.update_self _ _ _
    constructor
    · rw [stored, entryMark_setEntry]
    · rw [stored, entryName_setEntry]
    · rw [stored, entryAttr_setEntry]
    · rw [stored]
      exact entryFirstCluster_setEntry _ _ _ _ (entryFirstCluster_lt _ _)
  · exact .of_sameSlot (setEntry_sameSlot v size _ same)

theorem setEntry_data (fs : Fs) (v : Volume) (t : Slot) (size : ℕ) {c k : ℕ}
    (outside : ¬ InSize t c k) :
    (v.setEntry t size (v.first fs (some t))).data c k = v.data c k := by
  simp only [Volume.setEntry, Function.update_apply, Volume.first, setEntry_first]
  split
  · rename_i same
    subst same
    refine Bytes.put32_outside _ _ _ _ ?_
    simp only [InSize, true_and, not_and, not_lt] at outside
    omega
  · rfl

theorem setEntry_owns (h : Owns fs v o l) (t : Slot) (size : ℕ) :
    Owns fs (v.setEntry t size (v.first fs (some t))) o l := by
  have first : (v.setEntry t size (v.first fs (some t))).first fs o = v.first fs o := by
    cases o with
    | none => rfl
    | some s => exact (setEntry_sameEntry fs v s t size).first
  unfold Owns
  rw [first]
  exact ⟨h.1.congr fun _ _ => rfl, h.2⟩

theorem Untouched.setEntry (h : Untouched fs v v' t) (size : ℕ) :
    Untouched fs v (v'.setEntry t size (v'.first fs (some t))) t := by
  intro d l hd different owns
  obtain ⟨owns', data⟩ := h d l hd different owns
  refine ⟨setEntry_owns owns' t size, fun c hc k outside => ?_⟩
  rw [setEntry_data fs v' t size outside]
  exact data c hc k outside

theorem setEntry_find (fs : Fs) (v : Volume) (t : Slot) (size : ℕ) (name : CString) (l : List ℕ) :
    find fs (v.setEntry t size (v.first fs (some t))) (lookupMatch name) l =
      find fs v (lookupMatch name) l :=
  find_lookupMatch_congr name fun s _ => setEntry_sameEntry fs v s t size

theorem setEntry_layout {R : Set Owner} (layout : Layout fs v R chain) (t : Slot) (size : ℕ) :
    Layout fs (v.setEntry t size (v.first fs (some t))) R chain := by
  refine layout.transfer subset_rfl layout.root (fun s _ => setEntry_sameEntry fs v s t size)
    (fun _ _ _ _ => rfl) fun d hd dir s mem live => ?_
  rw [(setEntry_sameEntry fs v s t size).live] at live
  exact layout.closed d hd dir s mem live

theorem setEntry_evolves (g : Geometry fs) (consistent : Consistent fs v) (t : Slot) (size : ℕ) :
    Evolves fs v (v.setEntry t size (v.first fs (some t))) ∅ := by
  obtain ⟨chain, layout⟩ := consistent.exists_layout
  have same := fun s => setEntry_sameEntry fs v s t size
  have layout' := setEntry_layout layout t size
  refine layout.evolves g layout' (fun _ none => none.elim) (fun o ho _ => ⟨ho, List.Subset.refl _⟩)
    (fun s _ _ => same s) fun none => Unlabelled.noLabels g layout' fun d hd dir s mem => ?_
  have kind : v.isDir d = true := by
    cases d with
    | none => rfl
    | some r => rwa [(same r).isDir] at dir
  rw [(same s).labelled]
  exact none.unlabelled layout d hd kind s mem

/-! ## Making an entry -/

section Create

variable (layout : Layout fs v {o | Reach fs v o} chain) {d : Owner} (reached : Reach fs v d)
  {name : CString} {mode new : ℕ}
  (created : Created fs v v' (chain d) name mode new ext s)

include layout reached created

variable {e : Owner} {r : Slot}

omit reached in
theorem create_outside (he : Reach fs v e) (hc : c ∈ chain e) : c ∉ new :: ext :=
  fun mem => layout.used he hc (created.free c mem)

theorem create_not_live (mem : s ∈ slotsOf fs (chain d)) : v.live s = false := by
  rcases created.slot with ⟨found, -⟩ | ⟨-, e, rfl, rfl⟩
  · obtain ⟨_, _, -, -, free, -⟩ := exists_of_firstHit_eq_some found
    simp only [Volume.isFree, Bool.or_eq_true] at free
    rcases free with ended | deleted
    · simp [Volume.live, ended]
    · simp [Volume.live, visible, deleted]
  · exact absurd (by simp) (create_outside layout created reached (mem_slotsOf.mp mem).1)

omit reached in
theorem create_sameEntry (he : Reach fs v e) (mem : r ∈ slotsOf fs (chain e)) (different : r ≠ s) :
    SameEntry v v' r := by
  have outside := create_outside layout created he (mem_slotsOf.mp mem).1
  by_cases same : r.1 = s.1
  · have old : s.1 ∉ ext := fun mem => outside (same ▸ List.mem_cons_of_mem _ mem)
    have : r.2 ≠ s.2 := fun eq => different (Prod.ext same eq)
    refine .of_sameSlot fun k hk => ?_
    rw [same, created.dataSlot, if_neg old]
    refine fillEntry_outside _ _ _ _ _ ?_
    unfold entrySize at *
    omega
  · exact .of_data (created.dataSame r.1 outside same)

theorem create_fresh (g : Geometry fs) : ¬ Reach fs v (some s) := by
  intro hs
  obtain ⟨e, he, -, mem, live⟩ := layout.placed g hs
  have here : s ∈ slotsOf fs (chain d) := by
    rcases created.slot with ⟨found, -⟩ | ⟨-, c, rfl, rfl⟩
    · exact mem_slotsOf.mpr (findFree_mem found)
    · exact absurd (by simp) (create_outside layout created he (mem_slotsOf.mp mem).1)
  rw [create_not_live layout reached created here] at live
  exact absurd live (by decide)

omit layout reached in
theorem create_taken (mem : r.1 ∈ new :: ext) (different : r ≠ s) :
    entryMark (v'.data r.1) r.2 = 0 := by
  rcases List.mem_cons.mp mem with same | mem
  · rw [same, created.dataNew]
    rfl
  · rcases created.slot with ⟨-, rfl⟩ | ⟨-, e, rfl, rfl⟩
    · exact absurd mem List.not_mem_nil
    · have same : r.1 = e := List.mem_singleton.mp mem
      have later : r.2 ≠ 0 := fun eq => different (Prod.ext same eq)
      rw [same]
      have data := created.dataSlot
      rw [if_pos (List.mem_singleton_self e)] at data
      rw [data]
      refine fillEntry_outside _ _ _ _ _ (.inr ?_)
      unfold entrySize
      omega

omit layout reached in
theorem create_taken_not_live (mem : r.1 ∈ new :: ext) (different : r ≠ s) : v'.live r = false := by
  have mark := create_taken created mem different
  simp [Volume.live, Volume.ended, mark]

theorem create_same (g : Geometry fs) (hr : Reach fs v (some r)) : SameEntry v v' r := by
  obtain ⟨e, he, -, mem, -⟩ := layout.placed g hr
  refine create_sameEntry layout created he mem fun eq => ?_
  exact create_fresh layout reached created g (eq ▸ hr)

theorem create_kind (g : Geometry fs) (he : Reach fs v e) : v'.isDir e = v.isDir e := by
  cases e with
  | none => rfl
  | some r => exact (create_same layout reached created g he).isDir

theorem create_owns (g : Geometry fs) (he : Reach fs v e) :
    Owns fs v' e (Function.update chain d (chain d ++ ext) e) := by
  have first : v'.first fs e = v.first fs e := by
    cases e with
    | none => rfl
    | some r => exact (create_same layout reached created g he).first
  unfold Owns
  rw [first]
  by_cases same : e = d
  · subst same
    rw [Function.update_self]
    refine ⟨created.chain _ (layout.owns e he).1, fun root empty => ?_⟩
    exact (layout.owns e he).2 root (List.append_eq_nil_iff.mp empty).1
  · rw [Function.update_of_ne same]
    refine ⟨(layout.owns e he).1.congr fun c hc => ?_, (layout.owns e he).2⟩
    exact created.fatSame c (create_outside layout created he hc)
      (layout.apart e he d reached same hc)

omit layout reached in
theorem create_owns_new (g : Geometry fs) : Owns fs v' (some s) [new] := by
  have valid : fs.Valid new := created.valid new List.mem_cons_self
  have small : new < 2 ^ 32 := by
    have := valid.2
    have := g.clusters
    omega
  have first : v'.first fs (some s) = new := by
    rw [Volume.first, created.dataSlot, entryFirstCluster_fillEntry _ _ _ _ _ small]
  refine ⟨.inl ?_, fun h => by simp at h⟩
  rw [first]
  refine .last valid ?_
  rw [created.fatNew]
  decide

theorem create_apart {e' : Owner} (he : Reach fs v e) (he' : Reach fs v e') (different : e ≠ e') :
    (Function.update chain d (chain d ++ ext) e).Disjoint
      (Function.update chain d (chain d ++ ext) e') := by
  have outside : ∀ {e}, Reach fs v e → e ≠ d → (chain e).Disjoint (chain d ++ ext) := by
    intro e he target c hc mem
    rcases List.mem_append.mp mem with mem | mem
    · exact layout.apart e he d reached target hc mem
    · exact create_outside layout created he hc (List.mem_cons_of_mem _ mem)
  by_cases hed : e = d
  · subst hed
    rw [Function.update_self, Function.update_of_ne different.symm]
    exact (outside he' different.symm).symm
  · rw [Function.update_of_ne hed]
    by_cases hed' : e' = d
    · subst hed'
      rw [Function.update_self]
      exact outside he hed
    · rw [Function.update_of_ne hed']
      exact layout.apart e he e' he' different

theorem create_new_not_mem (he : Reach fs v e) :
    new ∉ Function.update chain d (chain d ++ ext) e := by
  by_cases same : e = d
  · subst same
    rw [Function.update_self, List.mem_append]
    rintro (mem | mem)
    · exact create_outside layout created he mem List.mem_cons_self
    · exact (List.nodup_cons.mp created.distinct).1 mem
  · rw [Function.update_of_ne same]
    exact fun mem => create_outside layout created he mem List.mem_cons_self

theorem create_closed (he : Reach fs v e) (dir : v.isDir e = true)
    (mem : r ∈ slotsOf fs (Function.update chain d (chain d ++ ext) e)) (live : v'.live r = true)
    (different : r ≠ s) : Reach fs v (some r) := by
  have old : r ∈ slotsOf fs (chain e) := by
    by_cases same : e = d
    · subst same
      rw [Function.update_self, mem_slotsOf, List.mem_append] at mem
      rcases mem.1 with here | taken
      · exact mem_slotsOf.mpr ⟨here, mem.2⟩
      · have := create_taken_not_live created (List.mem_cons_of_mem _ taken) different
        rw [this] at live
        exact absurd live (by decide)
    · rwa [Function.update_of_ne same] at mem
  rw [(create_sameEntry layout created he old different).live] at live
  exact layout.closed e he dir r old live

/-- The new entry owns the cluster `new`, and its directory has grown by `ext`. -/
theorem create_layout (g : Geometry fs) :
    Layout fs v' (insert (some s) {o | Reach fs v o})
      (Function.update (Function.update chain d (chain d ++ ext)) (some s) [new]) := by
  have fresh := create_fresh layout reached created g
  have old : ∀ {e}, Reach fs v e → e ≠ some s := fun he same => fresh (same ▸ he)
  refine ⟨.inr .root, fun e he => ?_, fun e he e' he' different => ?_,
    fun e he dir r mem live => ?_⟩
  · rcases he with rfl | he
    · rw [Function.update_self]
      exact create_owns_new created g
    · rw [Function.update_of_ne (old he)]
      exact create_owns layout reached created g he
  · rcases he with rfl | he
    · rcases he' with rfl | he'
      · exact absurd rfl different
      · rw [Function.update_self, Function.update_of_ne (old he'), List.singleton_disjoint]
        exact create_new_not_mem layout reached created he'
    · rw [Function.update_of_ne (old he)]
      rcases he' with rfl | he'
      · rw [Function.update_self, List.disjoint_singleton]
        exact create_new_not_mem layout reached created he
      · rw [Function.update_of_ne (old he')]
        exact create_apart layout reached created he he' different
  · by_cases isNew : r = s
    · exact .inl (congrArg some isNew)
    · right
      rcases he with rfl | he
      · rw [Function.update_self, mem_slotsOf, List.mem_singleton] at mem
        have := create_taken_not_live created (r := r) (by simp [mem.1]) isNew
        rw [this] at live
        exact absurd live (by decide)
      · rw [Function.update_of_ne (old he)] at mem
        rw [create_kind layout reached created g he] at dir
        exact create_closed layout reached created he dir mem live isNew

theorem create_unlabelled (g : Geometry fs) (h : Unlabelled fs v {o | Reach fs v o} chain) :
    Unlabelled fs v' (insert (some s) {o | Reach fs v o})
      (Function.update (Function.update chain d (chain d ++ ext)) (some s) [new]) := by
  have fresh := create_fresh layout reached created g
  intro e he dir r mem
  by_cases isNew : r = s
  · subst isNew
    have attr := entryAttr_fillEntry (if r.1 ∈ ext then fun _ => 0 else v.data r.1) r.2 name mode new
    rw [← created.dataSlot] at attr
    have plain : isVolumeId (v'.data r.1) r.2 = false := by
      simp only [isVolumeId, attr]
      split <;> decide
    simp [Volume.labelled, plain]
  · have taken : r.1 ∈ new :: ext → v'.labelled r = false := fun mem => by
      have mark := create_taken created mem isNew
      simp [Volume.labelled, Volume.ended, mark]
    rcases he with rfl | he
    · rw [Function.update_self, mem_slotsOf, List.mem_singleton] at mem
      exact taken (by simp [mem.1])
    · have old : e ≠ some s := fun same => fresh (same ▸ he)
      rw [create_kind layout reached created g he] at dir
      rw [Function.update_of_ne old] at mem
      by_cases here : r ∈ slotsOf fs (chain e)
      · rw [(create_sameEntry layout created he here isNew).labelled]
        exact h e he dir r here
      · by_cases same : e = d
        · subst same
          rw [Function.update_self, mem_slotsOf, List.mem_append] at mem
          refine taken (List.mem_cons_of_mem _ (mem.1.resolve_left fun inside => here ?_))
          exact mem_slotsOf.mpr ⟨inside, mem.2⟩
        · rw [Function.update_of_ne same] at mem
          exact absurd mem here

theorem create_evolves (g : Geometry fs) : Evolves fs v v' ∅ := by
  have layout' := create_layout layout reached created g
  refine layout.evolves g layout' (fun _ none => none.elim)
    (fun o ho _ => ⟨Set.mem_insert_of_mem _ ho, ?_⟩)
    (fun s hs _ => create_same layout reached created g hs) fun none =>
      (create_unlabelled layout reached created g (none.unlabelled layout)).noLabels g layout'
  have old : o ≠ some s := fun same => create_fresh layout reached created g (same ▸ ho)
  rw [Function.update_of_ne old]
  by_cases same : o = d
  · subst same
    rw [Function.update_self]
    exact List.subset_append_left _ _
  · rw [Function.update_of_ne same]
    exact List.Subset.refl _

end Create

end Thuban.Fat32

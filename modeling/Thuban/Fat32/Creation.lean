import Thuban.Fat32.Directory

/-!
# Creating entries

What `fat32_create` changes on a ready volume.  It takes the first slot that is deleted or behind the
end mark, and hangs a zeroed cluster behind the directory when there is none; a failure leaves at most
a free cluster zeroed.
-/

namespace Thuban.Fat32

open Lib

/-! ## The new entry -/

section Entry

variable (buf : Bytes) (i : ℕ) (name : CString) (mode cluster : ℕ)

theorem fillEntry_outside {k : ℕ} (outside : k < entrySize * i ∨ entrySize * i + entrySize ≤ k) :
    fillEntry buf i name mode cluster k = buf k := by
  unfold entrySize at outside
  simp only [fillEntry, entrySize]
  simp (disch := omega) only [Bytes.put16_outside, Bytes.put32_outside, Bytes.put_ne,
    Bytes.blit_outside]
  exact if_neg (by omega)

theorem fillEntry_sameSlot (buf' : Bytes) :
    SameSlot (fillEntry buf i name mode cluster) (fillEntry buf' i name mode cluster) i := by
  intro k hk
  have cleared : ∀ b : Bytes, b.fill (entrySize * i) entrySize 0 (entrySize * i + k) = 0 :=
    fun b => if_pos ⟨Nat.le_add_right _ _, Nat.add_lt_add_left hk _⟩
  simp only [fillEntry, Bytes.put16, Bytes.put32, Bytes.put, Bytes.blit, cleared]

theorem entryName_fillEntry : entryName (fillEntry buf i name mode cluster) i = nameTo83 name := by
  have len := length_nameTo83 name
  refine List.ext_getElem (by simp [entryName, len]) fun k hk hk' => ?_
  rw [len] at hk'
  simp only [entryName, List.getElem_map, List.getElem_range, fillEntry]
  simp (disch := omega) only [Bytes.put16_outside, Bytes.put32_outside, Bytes.put_ne]
  rw [Bytes.blit_inside _ _ _ _ _ _ (by omega) (by omega), Nat.zero_add, Nat.add_sub_cancel_left,
    List.getD_eq_getElem _ _ (by omega)]

theorem entryAttr_fillEntry : entryAttr (fillEntry buf i name mode cluster) i =
    if mode &&& sIfdir ≠ 0 then 0x10 else 0 := by
  simp only [entryAttr, fillEntry]
  simp (disch := omega) only [Bytes.put16_outside, Bytes.put32_outside]
  exact Bytes.put_self _ _ _

theorem entryFirstCluster_fillEntry (small : cluster < 2 ^ 32) :
    entryFirstCluster (fillEntry buf i name mode cluster) i = cluster := by
  simp only [entryFirstCluster, fillEntry]
  simp (disch := omega) only [Bytes.le16_put16_apart, Bytes.le16_put32_apart, Bytes.le16_put16]
  omega

end Entry

/-! ## The slot -/

/-- A slot `fat32_create` may take. -/
def Volume.isFree (v : Volume) (s : Slot) : Bool := v.ended s || isDeleted (v.data s.1) s.2

/-- The first slot `fat32_create` may take. -/
def findFree (fs : Fs) (v : Volume) (l : List ℕ) : Option Slot :=
  firstHit (fun _ => false) v.isFree (slotsOf fs l)

def Volume.fillSlot (v : Volume) (s : Slot) (name : CString) (mode cluster : ℕ) : Volume :=
  { v with data := Function.update v.data s.1 (fillEntry (v.data s.1) s.2 name mode cluster) }

def Volume.zero (v : Volume) (c : ℕ) : Volume :=
  { v with data := Function.update v.data c fun _ => 0 }

variable {fs : Fs} {w₀ w : World} {v : Volume} {c i : ℕ} {l : List ℕ}
  {name : CString} {mode new tmp : ℕ}

theorem store_zero (v : Volume) (fs : Fs) (c : ℕ) (buf : Bytes) :
    v.store fs c (buf.fill 0 fs.clusterSize 0) = v.zero c := by
  ext1
  · rfl
  · refine congrArg (Function.update _ c) (funext fun k => ?_)
    split
    · exact if_pos ⟨Nat.zero_le _, by omega⟩
    · rfl

variable {buf : Bytes} {d first : ℕ} {s : Slot}

theorem store_fillEntry (now : Becomes fs w₀ w v) (holds : Holds fs v c buf) (hi : i < fs.slots) :
    v.store fs c (fillEntry buf i name mode new) = v.fillSlot (c, i) name mode new := by
  have inside := slot_lt hi (by decide : 31 < entrySize)
  ext1
  · rfl
  · refine congrArg (Function.update _ c) (funext fun k => ?_)
    by_cases slot : entrySize * i ≤ k ∧ k < entrySize * i + entrySize
    · have same := fillEntry_sameSlot buf i name mode new (v.data c) (k - entrySize * i) (by omega)
      rw [Nat.add_sub_cancel' slot.1] at same
      simp only [same]
      exact if_pos (by unfold entrySize at *; omega)
    · have outside : k < entrySize * i ∨ entrySize * i + entrySize ≤ k := by omega
      rw [fillEntry_outside _ _ _ _ _ outside]
      simp only [fillEntry_outside _ _ _ _ _ outside]
      by_cases hk : k < fs.clusterSize
      · rw [if_pos hk, holds k hk]
      · rw [if_neg hk, now.data_outside (by omega)]

theorem freeSlot_eq (holds : Holds fs v c buf) (later : List Slot) {n : ℕ}
    (range : i + n ≤ fs.slots) :
    let found := firstHit (fun _ => false) v.isFree
      ((List.range' i n).map (fun i => (c, i)) ++ later)
    match freeSlot buf n i with
    | some j => found = some (c, j) ∧ j < fs.slots
    | none => found = firstHit (fun _ => false) v.isFree later := by
  intro found
  induction n generalizing i with
  | zero => rfl
  | succ n ih =>
    have same := holds.sameSlot (i := i) (by omega)
    have here : v.isFree (c, i) = decide (entryMark buf i = 0 ∨ isDeleted buf i = true) := by
      simp only [Volume.isFree, Volume.ended, isDeleted, same.mark]
      by_cases h₁ : entryMark (v.data c) i = 0 <;> simp [h₁]
    rw [freeSlot]
    simp only [found, List.range'_succ, List.map_cons, List.cons_append, firstHit, here]
    by_cases free : entryMark buf i = 0 ∨ isDeleted buf i = true
    · simp only [free, if_true, decide_true]
      exact ⟨by simp, by omega⟩
    · simp only [free, if_false, decide_false, Bool.false_eq_true]
      exact ih (by omega)

/-! ## The loop -/

theorem createLoop_end (stops : ¬ InChain c) :
    Converges (createLoop fs name mode new tmp · c buf w)
      (-1, freeCluster fs new (w.free tmp)) := by
  refine .step (fun fuel => ?_) (.const fun _ => rfl)
  rw [createLoop, if_neg stops]

/-- One cluster of the loop: it holds a slot to take, or the search goes on behind it. -/
theorem createLoop_cases (now : Becomes fs w₀ w v) (valid : fs.Valid c) (buf : Bytes)
    (later : List ℕ) :
    (∃ i w', i < fs.slots ∧ findFree fs v (c :: later) = some (c, i) ∧
      (∀ fuel, createLoop fs name mode new tmp (fuel + 1) c buf w = some (0, w')) ∧
        Becomes fs w₀ w' (v.fillSlot (c, i) name mode new)) ∨
      ∃ buf', findFree fs v (c :: later) = findFree fs v later ∧
        ∀ fuel, createLoop fs name mode new tmp (fuel + 1) c buf w =
          if eocMin ≤ v.fat c then
            match allocCluster fs w with
            | (newDir, w) =>
                if newDir = 0 then some (-1, freeCluster fs new (w.free tmp))
                else
                  createLoop fs name mode new tmp fuel newDir (buf'.fill 0 fs.clusterSize 0)
                    (writeCluster fs newDir (buf'.fill 0 fs.clusterSize 0)
                      (setFatEntry fs c newDir w).2).2
          else createLoop fs name mode new tmp fuel (v.fat c) buf' w := by
  have chained := now.ready.geometry.inChain_of_valid valid
  have holds := holds_blit fs v c buf
  generalize filled : buf.blit 0 (v.data c) 0 fs.clusterSize = buf' at holds
  have searched := freeSlot_eq holds (slotsOf fs later) (Nat.zero_add fs.slots).le
  rw [← slotsOf_cons] at searched
  have unfolded : ∀ fuel, createLoop fs name mode new tmp (fuel + 1) c buf w = _ := fun fuel => by
    rw [createLoop, if_pos chained, now.readCluster valid, filled]
  cases result : freeSlot buf' fs.slots 0 with
  | some i =>
    left
    simp only [result] at searched
    obtain ⟨w₁, stored, after⟩ := now.writeCluster valid (fillEntry buf' i name mode new)
    rw [store_fillEntry now holds searched.2] at after
    refine ⟨i, w₁.free tmp, searched.2, searched.1, fun fuel => ?_, after.free tmp⟩
    have result' : freeSlot buf' (fs.clusterSize / entrySize) 0 = some i := result
    simp only [unfolded, result', stored]
  | none =>
    right
    simp only [result] at searched
    refine ⟨buf', searched, fun fuel => ?_⟩
    have result' : freeSlot buf' (fs.clusterSize / entrySize) 0 = none := result
    simp only [unfolded, result', now.getNextCluster]

theorem Geometry.slots_pos (g : Geometry fs) : 0 < fs.slots := by
  have := g.sectorsPerCluster
  have := g.clusterSize
  refine Nat.div_pos ?_ (by decide)
  unfold entrySize sectorSize at *
  omega

theorem findFree_zero (g : Geometry fs) (d : ℕ) : findFree fs (v.zero d) [d] = some (d, 0) := by
  have pos := g.slots_pos
  obtain ⟨n, hn⟩ : ∃ n, fs.slots = n + 1 := ⟨fs.slots - 1, by omega⟩
  have free : (v.zero d).isFree (d, 0) = true := by
    simp [Volume.isFree, Volume.ended, Volume.zero, entryMark]
  rw [findFree, slotsOf_cons, hn, List.range'_succ, List.map_cons, List.cons_append, firstHit, free]
  rfl

theorem createLoop_grow (now : Becomes fs w₀ w v) (valid : fs.Valid c) {w₁ : World}
    (validD : fs.Valid d) (after₁ : Becomes fs w₀ w₁ (v.link d eocMax)) (buf : Bytes) :
    ∃ w', Converges (createLoop fs name mode new tmp · d (buf.fill 0 fs.clusterSize 0)
        (writeCluster fs d (buf.fill 0 fs.clusterSize 0) (setFatEntry fs c d w₁).2).2) (0, w') ∧
      Becomes fs w₀ w'
        ((((v.link d eocMax).link c d).zero d).fillSlot (d, 0) name mode new) := by
  have g := now.ready.geometry
  have small : d < 2 ^ 28 := by
    have := validD.2
    have := g.clusters
    omega
  obtain ⟨w₂, linked, after₂⟩ := after₁.setFatEntry valid small
  obtain ⟨w₃, cleared, after₃⟩ := after₂.writeCluster validD (buf.fill 0 fs.clusterSize 0)
  rw [store_zero] at after₃
  have free := findFree_zero (v := (v.link d eocMax).link c d) g d
  rcases createLoop_cases after₃ validD (buf.fill 0 fs.clusterSize 0) [] with
    ⟨i, w₄, -, hit, ends, after₄⟩ | ⟨_, missed, _⟩
  · obtain rfl : i = 0 := by
      rw [free] at hit
      exact (Prod.mk.inj (Option.some.inj hit)).2.symm
    refine ⟨w₄, .step (fun fuel => ?_) (.const fun _ => rfl), after₄⟩
    rw [linked, cleared, ends]
  · rw [free] at missed
    exact absurd missed (by simp [findFree, slotsOf, firstHit])

theorem createLoop_spec (now : Becomes fs w₀ w v) (owned : Owned fs v first l)
    (validNew : fs.Valid new) (buf : Bytes) :
    ∃ r w', Converges (createLoop fs name mode new tmp · first buf w) (r, w') ∧
      match findFree fs v l with
      | some s => r = 0 ∧ Becomes fs w₀ w' (v.fillSlot s name mode new)
      | none => (r = -1 ∧ Becomes fs w₀ w' (v.link new freeMark)) ∨
          r = 0 ∧ ∃ z d, l[l.length - 1]? = some z ∧ fs.Valid d ∧ v.fat d = freeMark ∧
            Becomes fs w₀ w'
              ((((v.link d eocMax).link z d).zero d).fillSlot (d, 0) name mode new) := by
  have g := now.ready.geometry
  rcases owned with chain | ⟨rfl, rfl⟩
  · induction chain generalizing buf with
    | @last c valid ends =>
      rcases createLoop_cases now valid buf [] with ⟨i, w₁, -, hit, done, after⟩ | ⟨b, missed, step⟩
      · refine ⟨0, w₁, .step done (.const fun _ => rfl), ?_⟩
        rw [hit]
        exact ⟨rfl, after⟩
      · have ends' : eocMin ≤ v.fat c := ends
        simp only [ends', if_true] at step
        have missed' : findFree fs v [c] = none := missed
        rw [missed']
        rcases allocCluster_spec now with ⟨full, -⟩ | ⟨d, w₁, validD, free, took, after₁⟩
        · simp only [full, if_true] at step
          exact ⟨-1, _, .step step (.const fun _ => rfl),
            .inl ⟨rfl, freeCluster_spec (now.free tmp) validNew⟩⟩
        · have nonzero : d ≠ 0 := by
            have := validD.1
            omega
          simp only [took, nonzero, if_false] at step
          obtain ⟨w₂, done, after₂⟩ := createLoop_grow now valid validD after₁ b
          exact ⟨0, w₂, .step step done, .inr ⟨rfl, c, d, rfl, validD, free, after₂⟩⟩
    | @link c l valid rest ih =>
      rcases createLoop_cases now valid buf l with ⟨i, w₁, -, hit, done, after⟩ | ⟨b, missed, step⟩
      · refine ⟨0, w₁, .step done (.const fun _ => rfl), ?_⟩
        rw [hit]
        exact ⟨rfl, after⟩
      · have goesOn : ¬ eocMin ≤ v.fat c := g.not_eoc _ rest.node_head
        simp only [goesOn, if_false] at step
        obtain ⟨r, w', done, result⟩ := ih b
        refine ⟨r, w', .step step done, ?_⟩
        have last : (c :: l)[(c :: l).length - 1]? = l[l.length - 1]? := by
          have := rest.length_pos
          obtain ⟨n, hn⟩ : ∃ n, l.length = n + 1 := ⟨l.length - 1, by omega⟩
          rw [List.length_cons, hn]
          rfl
        rw [missed, last]
        exact result
  · exact ⟨-1, _, createLoop_end fun h => absurd h.1 (by decide),
      .inl ⟨rfl, freeCluster_spec (now.free tmp) validNew⟩⟩

/-! ## Create -/

/-- The volume `v'` after a successful `fat32_create` in a directory with clusters `l`: the entry is in
slot `s` and owns the cluster `new`; the directory has grown by the clusters `ext`. -/
structure Created (fs : Fs) (v v' : Volume) (l : List ℕ) (name : CString) (mode new : ℕ)
    (ext : List ℕ) (s : Slot) : Prop where
  valid : ∀ c ∈ new :: ext, fs.Valid c
  free : ∀ c ∈ new :: ext, v.fat c = freeMark
  distinct : (new :: ext).Nodup
  fatNew : v'.fat new = eocMax
  fatSame : ∀ c, c ∉ new :: ext → c ∉ l → v'.fat c = v.fat c
  chain : ∀ first, Owned fs v first l → Owned fs v' first (l ++ ext)
  slot : (findFree fs v l = some s ∧ ext = []) ∨
    (findFree fs v l = none ∧ ∃ d, ext = [d] ∧ s = (d, 0))
  dataSlot : v'.data s.1 =
    fillEntry (if s.1 ∈ ext then fun _ => 0 else v.data s.1) s.2 name mode new
  dataNew : v'.data new = fun _ => 0
  dataSame : ∀ c, c ∉ new :: ext → c ≠ s.1 → v'.data c = v.data c

theorem findFree_mem (h : findFree fs v l = some s) : s.1 ∈ l ∧ s.2 < fs.slots := by
  obtain ⟨l₁, l₂, split, -⟩ := exists_of_firstHit_eq_some h
  refine mem_slotsOf.mp ?_
  rw [split]
  exact List.mem_append_right _ List.mem_cons_self

theorem findFree_congr {v' : Volume} (same : ∀ c ∈ l, v'.data c = v.data c) :
    findFree fs v' l = findFree fs v l := by
  refine firstHit_congr fun s hs => ⟨rfl, fun _ => ?_⟩
  simp only [Volume.isFree, Volume.ended, same s.1 (mem_slotsOf.mp hs).1]

theorem created_here (owned : Owned fs v first l) (validNew : fs.Valid new)
    (freeNew : v.fat new = freeMark) (found : findFree fs v l = some s) :
    Created fs v (((v.link new eocMax).zero new).fillSlot s name mode new) l name mode new [] s := by
  have outside : ∀ c ∈ l, c ≠ new := fun c hc same =>
    owned.fat_ne_zero hc (same ▸ freeNew)
  have slotNe : s.1 ≠ new := outside _ (findFree_mem found).1
  refine
    { valid := by simpa using validNew
      free := by simpa using freeNew
      distinct := by simp
      fatNew := Function.update_self _ _ _
      fatSame := fun c hc _ => Function.update_of_ne (by simpa using hc) _ _
      chain := fun first' owned' => ?_
      slot := .inl ⟨found, rfl⟩
      dataSlot := ?_
      dataNew := ?_
      dataSame := fun c hc hs => ?_ }
  · rw [List.append_nil]
    exact owned'.congr fun c hc => Function.update_of_ne (outside c hc) _ _
  · simp [Volume.fillSlot, Volume.zero, Volume.link, Function.update_of_ne slotNe]
  · simp [Volume.fillSlot, Volume.zero, Function.update_of_ne slotNe.symm]
  · rw [List.mem_singleton] at hc
    simp only [Volume.fillSlot, Volume.zero, Volume.link, Function.update_of_ne hs,
      Function.update_of_ne hc]

theorem created_grown (g : Geometry fs) {z : ℕ} (owned : Owned fs v first l)
    (validNew : fs.Valid new) (freeNew : v.fat new = freeMark) (last : l[l.length - 1]? = some z)
    (validD : fs.Valid d) (freeD : v.fat d = freeMark) (different : d ≠ new)
    (full : findFree fs v l = none) :
    Created fs v
      ((((((v.link new eocMax).zero new).link d eocMax).link z d).zero d).fillSlot (d, 0) name mode
        new) l name mode new [d] (d, 0) := by
  have memZ : z ∈ l := List.mem_of_getElem? last
  have fromFree : ∀ {c}, c ∈ l → ∀ {e}, v.fat e = freeMark → c ≠ e := fun hc _ he same =>
    owned.fat_ne_zero hc (same ▸ he)
  have zNew := fromFree memZ freeNew
  have zD := fromFree memZ freeD
  refine
    { valid := by simpa using ⟨validNew, validD⟩
      free := by simpa using ⟨freeNew, freeD⟩
      distinct := by simpa using different.symm
      fatNew := ?_
      fatSame := fun c hc hl => ?_
      chain := fun first' owned' => ?_
      slot := .inr ⟨full, d, rfl, rfl⟩
      dataSlot := ?_
      dataNew := ?_
      dataSame := fun c hc hs => ?_ }
  · simp [Volume.fillSlot, Volume.zero, Volume.link, Function.update_of_ne zNew.symm,
      Function.update_of_ne different.symm]
  · have ne : c ≠ new ∧ c ≠ d := by simpa using hc
    have neZ : c ≠ z := fun same => hl (same ▸ memZ)
    simp only [Volume.fillSlot, Volume.zero, Volume.link, Function.update_of_ne neZ,
      Function.update_of_ne ne.1, Function.update_of_ne ne.2]
  · rcases owned' with chain | ⟨-, rfl⟩
    · refine .inl (Chain.extend chain (chain.nodup g) last validD ?_ ?_ fun c hc hz => ?_)
      · simp only [Volume.fillSlot, Volume.zero, Volume.link, Function.update_of_ne zD.symm,
          Function.update_self]
        decide
      · exact Function.update_self _ _ _
      · simp only [Volume.fillSlot, Volume.zero, Volume.link, Function.update_of_ne hz,
          Function.update_of_ne (fromFree hc freeD), Function.update_of_ne (fromFree hc freeNew)]
    · exact absurd memZ List.not_mem_nil
  · simp only [Volume.fillSlot, Volume.zero, Volume.link, Function.update_self,
      List.mem_singleton, if_true]
  · simp [Volume.fillSlot, Volume.zero, Volume.link, Function.update_of_ne different.symm]
  · have ne : c ≠ new ∧ c ≠ d := by simpa using hc
    simp only [Volume.fillSlot, Volume.zero, Volume.link, Function.update_of_ne ne.1,
      Function.update_of_ne ne.2]

theorem link_zero_link (freeNew : v.fat new = freeMark) :
    ((v.link new eocMax).zero new).link new freeMark = v.zero new := by
  ext1
  · simp only [Volume.link, Volume.zero, Function.update_idem]
    rw [← freeNew, Function.update_eq_self]
  · rfl

/-- How `fat32_create` of a new name ends: an entry is made, or at most a free cluster is zeroed. -/
def Outcome (fs : Fs) (w₀ w' : World) (v : Volume) (l : List ℕ) (name : CString) (mode : ℕ)
    (r : ℤ) : Prop :=
  (r = 0 ∧ ∃ v' new ext s, Created fs v v' l name mode new ext s ∧ Becomes fs w₀ w' v') ∨
    r = -1 ∧ (Becomes fs w₀ w' v ∨
      ∃ c, fs.Valid c ∧ v.fat c = freeMark ∧ Becomes fs w₀ w' (v.zero c))

theorem createNew_spec (now : Becomes fs w₀ w v) {dir : VfsNode}
    (owned : Owned fs v dir.fsData.firstCluster l) (name : CString) (mode : ℕ) :
    ∃ r w', Converges (createNew fs dir name mode · w) (r, w') ∧
      Outcome fs w₀ w' v l name mode r := by
  have g := now.ready.geometry
  rcases allocCluster_spec now with ⟨full, -⟩ | ⟨new, w₁, validNew, freeNew, took, after₁⟩
  · refine ⟨-1, w, .const fun fuel => ?_, .inr ⟨rfl, .inl now⟩⟩
    simp [createNew, full]
  · have nonzero : new ≠ 0 := by
      have := validNew.1
      omega
    obtain ⟨w₂, allocated₂, after₂, -⟩ := after₁.malloc g.clusterSize_pos
    obtain ⟨w₃, cleared, after₃⟩ :=
      after₂.writeCluster validNew (w₂.heap.junk.fill 0 fs.clusterSize 0)
    rw [store_zero] at after₃
    obtain ⟨w₄, allocated₄, after₄, -⟩ := (after₃.free w₁.heap.next).malloc g.clusterSize_pos
    have same : ∀ c ∈ l, c ≠ new := fun c hc eq => owned.fat_ne_zero hc (eq ▸ freeNew)
    have owned₄ : Owned fs ((v.link new eocMax).zero new) dir.fsData.firstCluster l :=
      owned.congr fun c hc => Function.update_of_ne (same c hc) _ _
    have free₄ : findFree fs ((v.link new eocMax).zero new) l = findFree fs v l :=
      findFree_congr fun c hc => Function.update_of_ne (same c hc) _ _
    obtain ⟨r, w₅, ends, result⟩ := createLoop_spec after₄ owned₄ validNew w₄.heap.junk
    refine ⟨r, w₅, ends.imp fun fuel h => ?_, ?_⟩
    · simp only [createNew, took, nonzero, if_false, allocated₂, cleared, allocated₄]
      exact h
    rw [free₄] at result
    cases found : findFree fs v l with
    | some s =>
      rw [found] at result
      exact .inl ⟨result.1, _, new, [], s, created_here owned validNew freeNew found, result.2⟩
    | none =>
      rw [found] at result
      rcases result with ⟨rfl, after⟩ | ⟨rfl, z, d, last, validD, freeD, after⟩
      · rw [link_zero_link freeNew] at after
        exact .inr ⟨rfl, .inr ⟨new, validNew, freeNew, after⟩⟩
      · have different : d ≠ new := by
          rintro rfl
          simp [Volume.zero, Volume.link, freeMark, eocMax] at freeD
        have freeD' : v.fat d = freeMark := by
          simpa only [Volume.zero, Volume.link, Function.update_of_ne different] using freeD
        exact .inl ⟨rfl, _, new, [d], (d, 0),
          created_grown g owned validNew freeNew last validD freeD' different found, after⟩

theorem create_spec (now : Becomes fs w₀ w v) {dir : VfsNode} (isDir : dir.isDirectory = true)
    (owned : Owned fs v dir.fsData.firstCluster l) (name : CString) (mode : ℕ) :
    ∃ r w', Converges (fun fuel => create fs dir name mode fuel w) (r, w') ∧
      if isValidName name = true ∧ find fs v (lookupMatch name) l = none then
        Outcome fs w₀ w' v l name mode r
      else r = -1 ∧ Becomes fs w₀ w' v := by
  by_cases valid : isValidName name = true
  · obtain ⟨result, w₁, looked, after₁, -, found⟩ := lookup_spec now isDir owned name
    rw [Looked] at found
    cases hit : find fs v (lookupMatch name) l with
    | none =>
      rw [hit] at found
      obtain rfl : result = none := found
      obtain ⟨r, w₂, ends, outcome⟩ := createNew_spec after₁ owned name mode
      refine ⟨r, w₂, looked.seq ends fun fuel h => ?_, by simpa [valid] using outcome⟩
      simp [create, isDir, valid, h]
    | some s =>
      rw [hit] at found
      obtain ⟨addr, fsDataAddr, rfl, -⟩ := found
      generalize nodeOf dir s.1 s.2 (v.data s.1) addr fsDataAddr = existing at looked
      refine ⟨-1, freeNode existing w₁, looked.imp fun fuel h => ?_, ?_⟩
      · simp [create, isDir, valid, h]
      · simpa using after₁.freeNode existing
  · refine ⟨-1, w, .const fun fuel => ?_, by simpa [valid] using now⟩
    simp [create, isDir, valid]

end Thuban.Fat32

import Thuban.Fat32.Chains
import Thuban.Lib.Scan

/-!
# Directories of a ready volume

A directory is the list of the slots of its clusters.  The loops of the driver find the first slot
they look for before the end mark (`searching_spec`); from this follow what `fat32_lookup` returns
(`lookup_spec`) and what the removing functions change.
-/

namespace Thuban.Fat32

open Lib

def Fs.slots (fs : Fs) : ℕ := fs.clusterSize / entrySize

/-- A slot: its cluster and its index there. -/
abbrev Slot := ℕ × ℕ

def slotsOf (fs : Fs) (l : List ℕ) : List Slot :=
  l.flatMap fun c => (List.range' 0 fs.slots).map fun i => (c, i)

/-- The end mark. -/
def Volume.ended (v : Volume) (s : Slot) : Bool := entryMark (v.data s.1) s.2 = 0

theorem entryFirstCluster_lt (buf : Bytes) (i : ℕ) : entryFirstCluster buf i < 2 ^ 32 := by
  have high := buf.le16_lt (entrySize * i + 20)
  have low := buf.le16_lt (entrySize * i + 26)
  unfold entryFirstCluster
  omega

def Volume.labelled (v : Volume) (s : Slot) : Bool :=
  !v.ended s && !isDeleted (v.data s.1) s.2 && !isLfn (v.data s.1) s.2 && isVolumeId (v.data s.1) s.2

/-- The first slot that `wanted` accepts, if it stands before the end mark. -/
def find (fs : Fs) (v : Volume) (wanted : Bytes → ℕ → Bool) (l : List ℕ) : Option Slot :=
  firstHit v.ended (fun s => wanted (v.data s.1) s.2) (slotsOf fs l)

variable {fs : Fs} {w₀ w w' : World} {v : Volume} {c i first : ℕ} {l l' : List ℕ}
  {outcomes : List Bool}

theorem slotsOf_cons (fs : Fs) (c : ℕ) (l : List ℕ) :
    slotsOf fs (c :: l) = (List.range' 0 fs.slots).map (fun i => (c, i)) ++ slotsOf fs l :=
  List.flatMap_cons

theorem slotsOf_append (fs : Fs) (l l' : List ℕ) :
    slotsOf fs (l ++ l') = slotsOf fs l ++ slotsOf fs l' :=
  List.flatMap_append

theorem mem_slotsOf {s : Slot} : s ∈ slotsOf fs l ↔ s.1 ∈ l ∧ s.2 < fs.slots := by
  obtain ⟨c, i⟩ := s
  simp only [slotsOf, List.mem_flatMap, List.mem_map, List.mem_range'_1, Prod.mk.injEq]
  constructor
  · rintro ⟨d, hd, j, hj, rfl, rfl⟩
    exact ⟨hd, by omega⟩
  · rintro ⟨hc, hi⟩
    exact ⟨c, hc, i, by omega, rfl, rfl⟩

theorem slot_lt (hi : i < fs.slots) {k : ℕ} (hk : k < entrySize) :
    entrySize * i + k < fs.clusterSize := by
  have : entrySize * fs.slots ≤ fs.clusterSize := Nat.mul_div_le _ _
  have : entrySize * (i + 1) ≤ entrySize * fs.slots := Nat.mul_le_mul_left _ hi
  rw [Nat.mul_add, Nat.mul_one] at this
  omega

/-! ## Slots with the same bytes -/

/-- The buffers agree on the 32 bytes of slot `i`. -/
def SameSlot (buf buf' : Bytes) (i : ℕ) : Prop :=
  ∀ k, k < entrySize → buf (entrySize * i + k) = buf' (entrySize * i + k)

namespace SameSlot

variable {buf buf' : Bytes}

section

variable (h : SameSlot buf buf' i)

include h

theorem mark : entryMark buf i = entryMark buf' i := h 0 (by decide)

theorem name : entryName buf i = entryName buf' i := by
  refine List.map_congr_left fun k hk => h k ?_
  have := List.mem_range.mp hk
  unfold entrySize
  omega

theorem attr : entryAttr buf i = entryAttr buf' i := h 11 (by decide)

theorem dirEntry : isDirEntry buf i = isDirEntry buf' i := by
  simp only [isDirEntry, h.attr]

theorem firstCluster : entryFirstCluster buf i = entryFirstCluster buf' i := by
  have hi : buf.le16 (entrySize * i + 20) = buf'.le16 (entrySize * i + 20) :=
    Bytes.le16_congr fun j hj => by
      rw [Nat.add_assoc]
      exact h (20 + j) (by unfold entrySize; omega)
  have lo : buf.le16 (entrySize * i + 26) = buf'.le16 (entrySize * i + 26) :=
    Bytes.le16_congr fun j hj => by
      rw [Nat.add_assoc]
      exact h (26 + j) (by unfold entrySize; omega)
  rw [entryFirstCluster, entryFirstCluster, hi, lo]

theorem fileSize : entryFileSize buf i = entryFileSize buf' i :=
  Bytes.le32_congr fun j hj => by
    rw [Nat.add_assoc]
    exact h (28 + j) (by unfold entrySize; omega)

end

end SameSlot

/-- A test of a slot that reads nothing but the slot. -/
def SlotLocal (wanted : Bytes → ℕ → Bool) : Prop :=
  ∀ buf buf' i, SameSlot buf buf' i → wanted buf i = wanted buf' i

theorem visible_local : SlotLocal visible := fun buf buf' i h => by
  simp only [visible, isDeleted, isLfn, isVolumeId, h.mark, h.attr]

theorem lookupMatch_local (name : CString) : SlotLocal (lookupMatch name) := fun buf buf' i h => by
  simp only [lookupMatch, visible_local buf buf' i h, h.name]

theorem rmdirMatch_local (name : CString) : SlotLocal (rmdirMatch name) := fun buf buf' i h => by
  simp only [rmdirMatch, isDeleted, isLfn, h.mark, h.attr, h.name]

theorem unlinkMatch_local (name : CString) : SlotLocal (unlinkMatch name) := fun buf buf' i h => by
  simp only [unlinkMatch, isDeleted, isLfn, h.mark, h.attr, h.dirEntry, h.name]

variable {buf buf' : Bytes}

theorem nodeOf_congr (h : SameSlot buf buf' i) (dir : VfsNode) (c a₁ a₂ : ℕ) :
    nodeOf dir c i buf a₁ a₂ = nodeOf dir c i buf' a₁ a₂ := by
  simp only [nodeOf, h.name, h.dirEntry, h.firstCluster, h.fileSize]

theorem nodeOf_isDirectory (dir : VfsNode) (c i : ℕ) (buf : Bytes) (a₁ a₂ : ℕ) :
    (nodeOf dir c i buf a₁ a₂).isDirectory = isDirEntry buf i := by
  cases kind : isDirEntry buf i <;> simp only [VfsNode.isDirectory, nodeOf, kind] <;> decide

/-! ## Scanning -/

def Holds (fs : Fs) (v : Volume) (c : ℕ) (buf : Bytes) : Prop :=
  ∀ k, k < fs.clusterSize → buf k = v.data c k

theorem Holds.sameSlot (h : Holds fs v c buf) (hi : i < fs.slots) :
    SameSlot buf (v.data c) i := fun _ hk => h _ (slot_lt hi hk)

theorem holds_blit (fs : Fs) (v : Volume) (c : ℕ) (buf : Bytes) :
    Holds fs v c (buf.blit 0 (v.data c) 0 fs.clusterSize) := fun k hk => by
  rw [Bytes.blit_inside _ _ _ _ _ _ (Nat.zero_le k) (by omega), Nat.zero_add, Nat.sub_zero]

theorem scanSlots_eq (isLocal : SlotLocal wanted) (holds : Holds fs v c buf) (later : List Slot)
    {n : ℕ} (range : i + n ≤ fs.slots) :
    let found := firstHit v.ended (fun s => wanted (v.data s.1) s.2)
      ((List.range' i n).map (fun i => (c, i)) ++ later)
    match scanSlots wanted buf n i with
    | .hit j => found = some (c, j)
    | .ended => found = none
    | .onward => found = firstHit v.ended (fun s => wanted (v.data s.1) s.2) later := by
  intro found
  induction n generalizing i with
  | zero => rfl
  | succ n ih =>
    have same := holds.sameSlot (i := i) (by omega)
    have mark : v.ended (c, i) = decide (entryMark buf i = 0) := by rw [Volume.ended, same.mark]
    have here : wanted (v.data c) i = wanted buf i := (isLocal _ _ _ same).symm
    rw [scanSlots]
    simp only [found, List.range'_succ, List.map_cons, List.cons_append, firstHit, mark, here]
    by_cases stop : entryMark buf i = 0
    · simp [stop]
    · cases hit : wanted buf i with
      | true => simp [stop]
      | false =>
        simp only [stop, decide_false, if_false, Bool.false_eq_true]
        exact ih (by omega)

def Finds (fs : Fs) (v : Volume) (wanted : Bytes → ℕ → Bool) (l : List ℕ) : Walk → Prop
  | .hit c i buf => find fs v wanted l = some (c, i) ∧ Holds fs v c buf
  | .ended => find fs v wanted l = none
  | .failed => False

theorem walk_end (stops : ¬ InChain c) :
    Converges (walk fs wanted · c buf w) (.ended, w) := by
  refine .step (fun fuel => ?_) (.const fun _ => rfl)
  rw [walk, if_neg stops]

/-- The driver calls of a search through the clusters `l`, if none of them fails. -/
def searchCalls (fs : Fs) (v : Volume) (wanted : Bytes → ℕ → Bool) : List ℕ → ℕ
  | [] => 0
  | c :: l =>
      if scanSlots wanted (v.data c) fs.slots 0 = .onward then
        fs.boot.sectorsPerCluster + (1 + searchCalls fs v wanted l)
      else fs.boot.sectorsPerCluster

/-- The clusters `l` of the volume follow each other in the table, beginning with `first`. -/
def Volume.Follows (v : Volume) (fs : Fs) : ℕ → List ℕ → Prop
  | _, [] => True
  | first, c :: l => c = first ∧ fs.Valid c ∧ v.Follows fs (v.fat c) l

/-- What stands in the table behind the clusters `l`. -/
def Volume.behind (v : Volume) : ℕ → List ℕ → ℕ
  | first, [] => first
  | _, c :: l => v.behind (v.fat c) l

theorem ChainOf.follows (chain : ChainOf fs v first l) :
    v.Follows fs first l ∧ eocMin ≤ v.behind first l := by
  induction chain with
  | last valid ends => exact ⟨⟨rfl, valid, trivial⟩, ends⟩
  | link valid _ ih => exact ⟨⟨rfl, valid, ih.1⟩, ih.2⟩

theorem Owned.follows (owned : Owned fs v first l) :
    v.Follows fs first l ∧ ¬ InChain (v.behind first l) := by
  rcases owned with chain | ⟨rfl, rfl⟩
  · exact ⟨chain.follows.1, fun inChain => absurd inChain.2 (not_lt.mpr chain.follows.2)⟩
  · exact ⟨trivial, fun inChain => absurd inChain.1 (by simp [Volume.behind])⟩

theorem scanSlots_congr (isLocal : SlotLocal wanted) {n i : ℕ}
    (same : ∀ j, i ≤ j → j < i + n → SameSlot buf buf' j) :
    scanSlots wanted buf n i = scanSlots wanted buf' n i := by
  induction n generalizing i with
  | zero => rfl
  | succ n ih =>
    have here := same i le_rfl (by omega)
    rw [scanSlots, scanSlots, here.mark, isLocal _ _ _ here,
      ih fun j low high => same j (by omega) (by omega)]

namespace Attached

section

variable (attached : Attached fs w) (isLocal : SlotLocal wanted)

include attached isLocal

theorem walk_round (valid : fs.Valid c) (buf : Bytes)
    (silent : Silent outcomes fs.boot.sectorsPerCluster) :
    ∃ buf', Holds fs (volume fs w) c buf' ∧
      ∀ fuel, walk fs wanted (fuel + 1) c buf (w.withFaults fs.dev outcomes) =
        match scanSlots wanted ((volume fs w).data c) fs.slots 0 with
        | .hit i => some (.hit c i buf',
            w.withFaults fs.dev (outcomes.drop fs.boot.sectorsPerCluster))
        | .ended => some (.ended,
            w.withFaults fs.dev (outcomes.drop fs.boot.sectorsPerCluster))
        | .onward =>
            walk fs wanted fuel
              (if Silent (outcomes.drop fs.boot.sectorsPerCluster) 1 then (volume fs w).fat c
                else eocMax) buf'
              (w.withFaults fs.dev (outcomes.drop (fs.boot.sectorsPerCluster + 1))) := by
  have holds := holds_blit fs (volume fs w) c buf
  have read := attached.readCluster_silent valid buf silent
  generalize buf.blit 0 ((volume fs w).data c) 0 fs.clusterSize = buf' at holds read
  have scanned : scanSlots wanted buf' fs.slots 0 =
      scanSlots wanted ((volume fs w).data c) fs.slots 0 :=
    scanSlots_congr isLocal fun j _ high => holds.sameSlot (by omega)
  refine ⟨buf', holds, fun fuel => ?_⟩
  rw [← scanned]
  rw [walk, if_pos (attached.geometry.inChain_of_valid valid), read]
  simp only [attached.getNextCluster_faults valid, List.drop_drop]
  rfl

/-- As long as its calls succeed, a search finds what there is to find. -/
theorem walk_silent (follows : (volume fs w).Follows fs first l)
    (stops : find fs (volume fs w) wanted l ≠ none ∨ ¬ InChain ((volume fs w).behind first l))
    (silent : Silent outcomes (searchCalls fs (volume fs w) wanted l)) (buf : Bytes) :
    ∃ out, Converges (walk fs wanted · first buf (w.withFaults fs.dev outcomes))
        (out, w.withFaults fs.dev (outcomes.drop (searchCalls fs (volume fs w) wanted l))) ∧
      Finds fs (volume fs w) wanted l out := by
  induction l generalizing first outcomes buf with
  | nil => exact ⟨.ended, walk_end (stops.resolve_left fun some => some rfl), rfl⟩
  | cons c l ih =>
    obtain ⟨rfl, valid, follows⟩ := follows
    have holds : Holds fs (volume fs w) c ((volume fs w).data c) := fun _ _ => rfl
    have scanned := scanSlots_eq isLocal holds (slotsOf fs l) (Nat.zero_add fs.slots).le
    rw [← slotsOf_cons] at scanned
    rw [searchCalls] at silent ⊢
    cases result : scanSlots wanted ((volume fs w).data c) fs.slots 0 with
    | hit i =>
      simp only [result, reduceCtorEq, if_false] at scanned silent ⊢
      obtain ⟨buf', holds', round⟩ := attached.walk_round isLocal valid buf silent
      simp only [result] at round
      exact ⟨_, .step round (.const fun _ => rfl), scanned, holds'⟩
    | ended =>
      simp only [result, reduceCtorEq, if_false] at scanned silent ⊢
      obtain ⟨buf', holds', round⟩ := attached.walk_round isLocal valid buf silent
      simp only [result] at round
      exact ⟨_, .step round (.const fun _ => rfl), scanned⟩
    | onward =>
      simp only [result, if_true] at scanned silent ⊢
      obtain ⟨buf', holds', round⟩ := attached.walk_round isLocal valid buf silent.of_add
      obtain ⟨-, link⟩ := silent_add.mp silent
      obtain ⟨link, rest⟩ := silent_add.mp link
      rw [List.drop_drop] at rest
      simp only [result, if_pos link] at round
      have later : find fs (volume fs w) wanted l ≠ none ∨
          ¬ InChain ((volume fs w).behind ((volume fs w).fat c) l) := by
        refine stops.imp_left fun some => ?_
        rwa [find, scanned] at some
      obtain ⟨out, ends, found⟩ := ih follows later rest buf'
      rw [List.drop_drop, Nat.add_assoc] at ends
      refine ⟨out, .step round ends, ?_⟩
      cases out with
      | hit d j buf => exact ⟨scanned.trans found.1, found.2⟩
      | ended => exact scanned.trans found
      | failed => exact found

/-- A search one of whose calls fails finds nothing. -/
theorem walk_faulty (follows : (volume fs w).Follows fs first l)
    (faulty : ¬ Silent outcomes (searchCalls fs (volume fs w) wanted l)) (buf : Bytes) :
    ∃ out later, Converges
        (walk fs wanted · first buf (w.withFaults fs.dev outcomes))
        (out, w.withFaults fs.dev later) ∧ ∀ d i buf', out ≠ .hit d i buf' := by
  induction l generalizing first outcomes buf with
  | nil => exact absurd (Silent.zero outcomes) faulty
  | cons c l ih =>
    obtain ⟨rfl, valid, follows⟩ := follows
    by_cases silent : Silent outcomes fs.boot.sectorsPerCluster
    · obtain ⟨buf', -, round⟩ := attached.walk_round isLocal valid buf silent
      rw [searchCalls] at faulty
      have onward : scanSlots wanted ((volume fs w).data c) fs.slots 0 = .onward := by
        by_contra other
        rw [if_neg other] at faulty
        exact faulty silent
      rw [if_pos onward] at faulty
      simp only [onward] at round
      by_cases link : Silent (outcomes.drop fs.boot.sectorsPerCluster) 1
      · simp only [if_pos link] at round
        have later : ¬ Silent (outcomes.drop (fs.boot.sectorsPerCluster + 1))
            (searchCalls fs (volume fs w) wanted l) := by
          intro rest
          refine faulty (silent_add.mpr ⟨silent, silent_add.mpr ⟨link, ?_⟩⟩)
          rwa [List.drop_drop]
        obtain ⟨out, later, ends, missed⟩ := ih follows later buf'
        exact ⟨out, later, .step round ends, missed⟩
      · simp only [if_neg link] at round
        exact ⟨.ended, _, .step round (walk_end (by decide)), fun _ _ _ => by simp⟩
    · obtain ⟨done, later, answered, read⟩ := attached.readCluster_faults valid buf outcomes
      have failed : done ≠ fs.boot.sectorsPerCluster := by
        rintro rfl
        exact silent answered.silent.1
      refine ⟨.failed, later, .step (fun fuel => ?_) (.const fun _ => rfl), fun _ _ _ => by simp⟩
      rw [walk, if_pos (attached.geometry.inChain_of_valid valid), read, if_neg failed]

end

end Attached

/-! ## The functions that search -/

section Searching

variable {α : Type*} {f : ℕ → World → Option (α × World)} {denied : World → α × World}
  {hit : (tmp cluster i : ℕ) → Bytes → (fuel : ℕ) → World → Option (α × World)}
  {missed : (tmp fuel : ℕ) → World → Option (α × World)}
  (now : Becomes fs w₀ w v) (isLocal : SlotLocal wanted) (owned : Owned fs v first l)
  (eq : f = searching fs wanted first denied hit missed)

include now isLocal owned eq

/-- How a search ends: with all its calls made, at the slot looked for; or with nothing found, because
there is no such slot or because a call failed. -/
theorem searching_faults :
    ∃ w₁, Becomes fs w₀ w₁ v ∧ w.heap.next < w₁.heap.next ∧ ∀ outcomes,
      (Silent outcomes (searchCalls fs v wanted l) ∧
        ∃ s buf, find fs v wanted l = some s ∧ Holds fs v s.1 buf ∧ ∀ done,
          Converges (f · (w.withFaults fs.dev outcomes)) done ↔
            Converges (hit w.heap.next s.1 s.2 buf ·
              (w₁.withFaults fs.dev (outcomes.drop (searchCalls fs v wanted l)))) done) ∨
      ∃ later, (Silent outcomes (searchCalls fs v wanted l) →
          find fs v wanted l = none ∧ later = outcomes.drop (searchCalls fs v wanted l)) ∧
        ∀ done, Converges (f · (w.withFaults fs.dev outcomes)) done ↔
          Converges (missed w.heap.next · (w₁.withFaults fs.dev later)) done := by
  obtain ⟨w₁, got, after, grown⟩ := now.malloc now.ready.geometry.clusterSize_pos
  obtain ⟨follows, ends⟩ := owned.follows
  refine ⟨w₁, after, grown, fun outcomes => ?_⟩
  subst eq
  simp only [searching, World.malloc_withFaults, got, World.withFaults_heap]
  obtain rfl := after.volume
  have attached := after.ready.attached
  by_cases silent : Silent outcomes (searchCalls fs (volume fs w₁) wanted l)
  · obtain ⟨out, walked, found⟩ :=
      attached.walk_silent isLocal follows (.inr ends) silent w₁.heap.junk
    cases out with
    | hit c i buf => exact .inl ⟨silent, (c, i), buf, found.1, found.2, fun _ => walked.bind_iff⟩
    | ended => exact .inr ⟨_, fun _ => ⟨found, rfl⟩, fun _ => walked.bind_iff⟩
    | failed => exact found.elim
  · obtain ⟨out, later, walked, unfound⟩ :=
      attached.walk_faulty isLocal follows silent w₁.heap.junk
    refine .inr ⟨later, fun all => absurd all silent, fun _ => walked.bind_iff.trans ?_⟩
    cases out with
    | hit c i buf => exact absurd rfl (unfound c i buf)
    | ended => exact Iff.rfl
    | failed => exact Iff.rfl

theorem searching_spec :
    ∃ w₁, Becomes fs w₀ w₁ v ∧ w.heap.next < w₁.heap.next ∧
      ((∃ s buf, find fs v wanted l = some s ∧ Holds fs v s.1 buf ∧ ∀ done,
          Converges (f · w) done ↔
            Converges (hit w.heap.next s.1 s.2 buf · w₁) done) ∨
        find fs v wanted l = none ∧ ∀ done,
          Converges (f · w) done ↔
            Converges (missed w.heap.next · w₁) done) := by
  obtain ⟨w₁, after, grown, search⟩ := searching_faults now isLocal owned eq
  have reliable := after.ready.device.reliable
  specialize search []
  rw [World.withFaults_nil now.ready.device.reliable, List.drop_nil, World.withFaults_nil reliable]
    at search
  refine ⟨w₁, after, grown, ?_⟩
  rcases search with ⟨-, found⟩ | ⟨later, unfound, same⟩
  · exact .inl found
  · obtain ⟨none, rfl⟩ := unfound (silent_nil _)
    rw [World.withFaults_nil reliable] at same
    exact .inr ⟨none, same⟩

end Searching

/-! ## Lookup -/

/-- What `fat32_lookup` returns for the slot it finds: a node for it at new addresses, which lie
between `low` and `high`. -/
def Looked (fs : Fs) (v : Volume) (dir : VfsNode) (name : CString) (l : List ℕ) (low high : ℕ)
    (result : Option VfsNode) : Prop :=
  match find fs v (lookupMatch name) l with
  | none => result = none
  | some s => ∃ addr fsDataAddr,
      result = some (nodeOf dir s.1 s.2 (v.data s.1) addr fsDataAddr) ∧
        low ≤ addr ∧ addr < fsDataAddr ∧ fsDataAddr < high

theorem find_mem {s : Slot} (h : find fs v wanted l = some s) :
    s.1 ∈ l ∧ s.2 < fs.slots := by
  obtain ⟨l₁, l₂, split, -⟩ := exists_of_firstHit_eq_some h
  refine mem_slotsOf.mp ?_
  rw [split]
  exact List.mem_append_right _ List.mem_cons_self

theorem lookupHit_spec (now : Becomes fs w₀ w v) (dir : VfsNode) (tmp : ℕ) {buf : Bytes}
    (same : SameSlot buf (v.data c) i) :
    ∃ addr fsDataAddr w', lookupHit dir tmp c i buf w =
        (some (nodeOf dir c i (v.data c) addr fsDataAddr), w') ∧
      Becomes fs w₀ w' v ∧
      w.heap.next ≤ addr ∧ addr < fsDataAddr ∧ fsDataAddr < w'.heap.next := by
  obtain ⟨w₁, first, after₁, grown₁⟩ := now.malloc (show 0 < vfsNodeSize by decide)
  obtain ⟨w₂, second, after₂, grown₂⟩ := after₁.malloc (show 0 < inodeSize by decide)
  refine ⟨_, _, _, ?_, after₂.free tmp, le_rfl, grown₁, by rwa [World.free_next]⟩
  rw [lookupHit, first]
  simp only [second, nodeOf_congr same]

theorem lookup_spec (now : Becomes fs w₀ w v) {dir : VfsNode} (isDir : dir.isDirectory = true)
    (owned : Owned fs v dir.fsData.firstCluster l) (name : CString) :
    ∃ result w', Converges (lookup fs dir name · w) (result, w') ∧
      Becomes fs w₀ w' v ∧ w.heap.next ≤ w'.heap.next ∧
      Looked fs v dir name l w.heap.next w'.heap.next result := by
  obtain ⟨w₁, after₁, grown, ⟨s, buf, hit, holds, same⟩ | ⟨none, same⟩⟩ :=
    searching_spec now (lookupMatch_local name) owned (lookup_eq isDir)
  · obtain ⟨addr, fsDataAddr, w₂, made, after₂, low, between, high⟩ :=
      lookupHit_spec after₁ dir w.heap.next (holds.sameSlot (find_mem hit).2)
    refine ⟨_, w₂, (same _).mpr (.const fun _ => congrArg some made), after₂, by omega, ?_⟩
    rw [Looked, hit]
    exact ⟨addr, fsDataAddr, rfl, by omega, between, high⟩
  · refine ⟨_, _, (same _).mpr (.const fun _ => rfl), after₁.free _, ?_, ?_⟩
    · rw [World.free_next]
      exact grown.le
    · rw [Looked, none]

/-! ## What a search leaves alone -/

theorem walk_polled {fuel : ℕ} {buf : Bytes} {out : Walk}
    (done : walk fs wanted fuel c buf w = some (out, w')) : World.Polled w w' fs.dev := by
  induction fuel generalizing c buf w with
  | zero => cases done
  | succ fuel ih =>
    unfold walk at done
    split_ifs at done
    · rcases read : readCluster fs c buf w with ⟨_ | buf₁, w₁⟩
      all_goals
        have polled := readCluster_polled read
        simp only [read] at done
      · rwa [← (Prod.mk.inj (Option.some.inj done)).2]
      · split at done
        · rwa [← (Prod.mk.inj (Option.some.inj done)).2]
        · rwa [← (Prod.mk.inj (Option.some.inj done)).2]
        · rcases follows : getNextCluster fs c w₁ with ⟨next, w₂⟩
          simp only [follows] at done
          exact (polled.trans (getNextCluster_polled follows)).trans (ih done)
    · rw [← (Prod.mk.inj (Option.some.inj done)).2]
      exact .refl w fs.dev

end Thuban.Fat32

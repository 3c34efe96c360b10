import Thuban.Fat32.Readdir
import Thuban.Fat32.Release
import Thuban.Fat32.Stability

/-!
# Which directory operations terminate

On a volume with any table and any directory contents.  The loops over a directory follow the links
of the table and leave the chain at an end mark, at a slot they look for, or where a link leads out of
the volume; a chain that leads back to itself and holds no such slot keeps them for ever.
-/

namespace Thuban.Fat32

open Lib

/-- The cluster at which a walk from `first` stands after `n` links. -/
def Volume.follow (v : Volume) (first n : ℕ) : ℕ := v.fat^[n] first

/-- A cluster at which the walk for `wanted` stops: it is not on the volume, or it has an end mark or a
slot looked for. -/
def Volume.StopsAt (v : Volume) (fs : Fs) (wanted : Bytes → ℕ → Bool) (c : ℕ) : Prop :=
  ¬ fs.Valid c ∨ ∃ i < fs.slots, v.ended (c, i) = true ∨ wanted (v.data c) i = true

/-- The walk from `first` meets a cluster at which it stops. -/
def Volume.Halts (v : Volume) (fs : Fs) (wanted : Bytes → ℕ → Bool) (first : ℕ) : Prop :=
  ∃ n, v.StopsAt fs wanted (v.follow first n)

variable {fs : Fs} {w w' : World} {v : Volume} {wanted wanted' : Bytes → ℕ → Bool} {c first : ℕ}

theorem Volume.follow_succ (v : Volume) (first n : ℕ) :
    v.follow first (n + 1) = v.fat (v.follow first n) :=
  Function.iterate_succ_apply' ..

theorem Volume.StopsAt.mono (stops : v.StopsAt fs wanted c)
    (more : ∀ buf i, wanted buf i = true → wanted' buf i = true) : v.StopsAt fs wanted' c := by
  rcases stops with outside | ⟨i, hi, ended | found⟩
  · exact .inl outside
  · exact .inr ⟨i, hi, .inl ended⟩
  · exact .inr ⟨i, hi, .inr (more _ _ found)⟩

theorem Volume.Halts.mono (halts : v.Halts fs wanted first)
    (more : ∀ buf i, wanted buf i = true → wanted' buf i = true) : v.Halts fs wanted' first := by
  obtain ⟨n, stops⟩ := halts
  exact ⟨n, stops.mono more⟩

/-! ## One round -/

theorem scanSlots_onward_iff (wanted : Bytes → ℕ → Bool) (buf : Bytes) (n i : ℕ) :
    scanSlots wanted buf n i = .onward ↔
      ∀ j, i ≤ j → j < i + n → entryMark buf j ≠ 0 ∧ wanted buf j = false := by
  induction n generalizing i with
  | zero =>
    refine iff_of_true rfl fun j low high => ?_
    omega
  | succ n ih =>
    rw [scanSlots]
    split_ifs with mark hit
    · refine iff_of_false (by simp) fun all => ?_
      exact (all i le_rfl (by omega)).1 mark
    · refine iff_of_false (by simp) fun all => ?_
      rw [(all i le_rfl (by omega)).2] at hit
      exact absurd hit (by decide)
    · rw [ih]
      constructor
      · intro all j low high
        rcases Nat.eq_or_lt_of_le low with rfl | low
        · exact ⟨mark, by simpa using hit⟩
        · exact all j low (by omega)
      · intro all j low high
        exact all j (by omega) (by omega)

variable {buf : Bytes}

theorem scanSlots_ne_ended {wanted : Bytes → ℕ → Bool} {n i : ℕ}
    (clean : ∀ j, i ≤ j → j < i + n → entryMark buf j ≠ 0) : scanSlots wanted buf n i ≠ .ended := by
  induction n generalizing i with
  | zero => simp [scanSlots]
  | succ n ih =>
    rw [scanSlots, if_neg (clean i le_rfl (by omega))]
    split_ifs
    · simp
    · exact ih fun j low high => clean j (by omega) (by omega)

theorem freeSlot_none_iff (buf : Bytes) (n i : ℕ) :
    freeSlot buf n i = none ↔
      ∀ j, i ≤ j → j < i + n → entryMark buf j ≠ 0 ∧ isDeleted buf j = false := by
  rw [← scanSlots_onward_iff]
  induction n generalizing i with
  | zero => exact iff_of_true rfl rfl
  | succ n ih =>
    rw [freeSlot, scanSlots]
    by_cases mark : entryMark buf i = 0
    · simp [mark]
    · by_cases deleted : isDeleted buf i = true
      · simp [mark, deleted]
      · simpa [mark, deleted] using ih (i + 1)

theorem Volume.StopsAt.slots (isLocal : SlotLocal wanted) (onward : ¬ v.StopsAt fs wanted c)
    (holds : Holds fs v c buf) :
    ∀ j, 0 ≤ j → j < 0 + fs.slots → entryMark buf j ≠ 0 ∧ wanted buf j = false := by
  intro j _ high
  rw [Nat.zero_add] at high
  have same := holds.sameSlot high
  unfold StopsAt at onward
  push Not at onward
  obtain ⟨-, clean⟩ := onward
  obtain ⟨mark, other⟩ := clean j high
  rw [same.mark, isLocal _ _ _ same]
  exact ⟨by simpa [Volume.ended] using mark, by simpa using other⟩

theorem Volume.StopsAt.slot (isLocal : SlotLocal wanted) (stops : v.StopsAt fs wanted c)
    (valid : fs.Valid c) (holds : Holds fs v c buf) :
    ¬ ∀ j, 0 ≤ j → j < 0 + fs.slots → entryMark buf j ≠ 0 ∧ wanted buf j = false := by
  intro all
  rcases stops with outside | ⟨i, hi, stop⟩
  · exact outside valid
  · have same := holds.sameSlot hi
    obtain ⟨mark, other⟩ := all i (Nat.zero_le i) (by omega)
    rw [same.mark] at mark
    rw [isLocal _ _ _ same] at other
    rcases stop with ended | found
    · exact mark (by simpa [Volume.ended] using ended)
    · rw [other] at found
      exact absurd found (by decide)

namespace Attached

theorem fat_outside (outside : ¬ fs.Valid c) : (volume fs w).fat c = eocMax := if_neg outside

theorem loaded (attached : Attached fs w) (valid : fs.Valid c) (buf : Bytes) :
    ∃ buf', Fat32.readCluster fs c buf w = (some buf', w) ∧ Holds fs (volume fs w) c buf' :=
  ⟨_, attached.readCluster valid buf, holds_blit fs (volume fs w) c buf⟩

theorem walk_outside (attached : Attached fs w) (outside : ¬ fs.Valid c) (buf : Bytes) :
    (walk fs wanted 2 c buf w).isSome = true := by
  rw [walk]
  split
  · rcases read : Fat32.readCluster fs c buf w with ⟨_ | buf', w₁⟩
    · rfl
    · obtain rfl := (readCluster_polled read).eq attached.device.reliable
      dsimp only
      split
      · rfl
      · rfl
      · rw [attached.getNextCluster, fat_outside outside]
        rfl
  · rfl

/-- The walk over a directory terminates exactly when it meets a cluster at which it stops. -/
theorem walk_terminates_iff (attached : Attached fs w) (isLocal : SlotLocal wanted) (first : ℕ)
    (buf : Bytes) :
    Terminates (walk fs wanted · first buf w) ↔
      (volume fs w).Halts fs wanted first := by
  refine Terminates.loop_iff
    (f := fun fuel n buf => walk fs wanted fuel ((volume fs w).follow first n) buf w)
    (P := fun n => (volume fs w).StopsAt fs wanted ((volume fs w).follow first n))
    (R := fun _ _ => True) (fun _ _ => rfl) ?_ ?_ trivial
  · intro n buf _ stops
    by_cases valid : fs.Valid ((volume fs w).follow first n)
    · obtain ⟨buf', read, holds⟩ := attached.loaded valid buf
      have halted := stops.slot isLocal valid holds
      rw [← scanSlots_onward_iff, Fs.slots] at halted
      refine .of_stable (stable_walk fs _ _ _ _) (n := 1) ?_
      rw [walk, if_pos (attached.geometry.inChain_of_valid valid), read]
      dsimp only
      split
      · rfl
      · rfl
      · contradiction
    · exact .of_stable (stable_walk fs _ _ _ _) (attached.walk_outside valid buf)
  · intro n buf _ onward
    have valid : fs.Valid ((volume fs w).follow first n) :=
      not_not.mp fun outside => onward (.inl outside)
    obtain ⟨buf', read, holds⟩ := attached.loaded valid buf
    have scan := (scanSlots_onward_iff wanted buf' fs.slots 0).mpr
      (Volume.StopsAt.slots isLocal onward holds)
    refine ⟨buf', trivial, fun fuel => ?_⟩
    rw [Fs.slots] at scan
    rw [walk, if_pos (attached.geometry.inChain_of_valid valid), read]
    simp only [scan, attached.getNextCluster, Volume.follow_succ]

end Attached

/-! ## What the loops see after an update -/

theorem Volume.Halts.of_link (halts : v.Halts fs wanted (v.fat c)) : v.Halts fs wanted c := by
  obtain ⟨n, stops⟩ := halts
  exact ⟨n + 1, stops⟩

theorem Volume.Halts.transfer {v' : Volume} (halts : v.Halts fs wanted first)
    (similar : ∀ c, v'.Halts fs wanted' c ∨
      ((v.StopsAt fs wanted c → v'.StopsAt fs wanted' c) ∧ v'.fat c = v.fat c)) :
    v'.Halts fs wanted' first := by
  obtain ⟨n, stops⟩ := halts
  induction n generalizing first with
  | zero =>
    rcases similar first with halts' | ⟨stops', -⟩
    · exact halts'
    · exact ⟨0, stops' stops⟩
  | succ n ih =>
    rcases similar first with halts' | ⟨-, same⟩
    · exact halts'
    · apply Volume.Halts.of_link
      rw [same]
      exact ih stops

theorem Volume.Halts.of_outside (outside : ¬ fs.Valid c) : v.Halts fs wanted c :=
  ⟨0, .inl outside⟩

theorem Volume.Halts.releaseAll (halts : v.Halts fs wanted first)
    (more : ∀ buf i, wanted buf i = true → wanted' buf i = true) (p : ℕ → Prop) :
    (v.releaseAll p).Halts fs wanted' first := by
  refine halts.transfer fun c => ?_
  by_cases released : p c
  · left
    apply Volume.Halts.of_link
    have free : (v.releaseAll p).fat c = freeMark := if_pos released
    rw [free]
    exact .of_outside fun valid => absurd valid.1 (by decide)
  · right
    have kept : (v.releaseAll p).fat c = v.fat c := if_neg released
    exact ⟨fun stops => stops.mono more, kept⟩

/-- A free cluster that is taken and zeroed makes no difference to the search for a free slot: before,
its link led nowhere; now it has room. -/
theorem Volume.halts_taken_iff (g : Geometry fs) {d : ℕ} (free : v.fat d = freeMark)
    {buf : Bytes} (zeroed : ∀ k < fs.clusterSize, buf k = 0) :
    ((v.link d eocMax).store fs d buf).Halts fs isDeleted first ↔ v.Halts fs isDeleted first := by
  generalize taken : (v.link d eocMax).store fs d buf = v'
  have fat : ∀ c, c ≠ d → v'.fat c = v.fat c := by
    intro c other
    rw [← taken]
    exact Function.update_of_ne other ..
  have data : ∀ c, c ≠ d → v'.data c = v.data c := by
    intro c other
    rw [← taken]
    exact Function.update_of_ne other ..
  have stops : ∀ c, c ≠ d → (v'.StopsAt fs isDeleted c ↔ v.StopsAt fs isDeleted c) := by
    intro c other
    simp only [StopsAt, ended, data c other]
  have before : v.Halts fs isDeleted d := by
    apply Volume.Halts.of_link
    rw [free]
    exact .of_outside fun valid => absurd valid.1 (by decide)
  have after : v'.Halts fs isDeleted d := by
    refine ⟨0, .inr ⟨0, g.slots_pos, .inl ?_⟩⟩
    show v'.ended (d, 0) = true
    rw [← taken]
    simp [ended, entryMark, store, zeroed 0 g.clusterSize_pos]
  constructor
  · intro halts
    refine halts.transfer fun c => ?_
    by_cases same : c = d
    · exact .inl (same ▸ before)
    · exact .inr ⟨(stops c same).mp, (fat c same).symm⟩
  · intro halts
    refine halts.transfer fun c => ?_
    by_cases same : c = d
    · exact .inl (same ▸ after)
    · exact .inr ⟨(stops c same).mpr, fat c same⟩

/-! ## The loop of `fat32_create` -/

theorem isDeleted_local : SlotLocal isDeleted := fun buf buf' i same => by
  simp only [isDeleted, same.mark]

namespace Attached

variable {name : CString} {mode new tmp : ℕ}

theorem createLoop_found {w₁ : World} {buf buf' : Bytes} {i fuel : ℕ} (inChain : InChain c)
    (read : Fat32.readCluster fs c buf w = (some buf', w₁))
    (slot : freeSlot buf' (fs.clusterSize / entrySize) 0 = some i) :
    (createLoop fs name mode new tmp (fuel + 1) c buf w).isSome = true := by
  rw [createLoop, if_pos inChain, read]
  simp only [slot]
  split <;> rfl

section

variable (attached : Attached fs w)

include attached

theorem createLoop_room (valid : fs.Valid c) (stops : (volume fs w).StopsAt fs isDeleted c)
    (buf : Bytes) (fuel : ℕ) :
    (createLoop fs name mode new tmp (fuel + 1) c buf w).isSome = true := by
  obtain ⟨buf', read, holds⟩ := attached.loaded valid buf
  have room := stops.slot isDeleted_local valid holds
  rw [← freeSlot_none_iff] at room
  obtain ⟨i, slot⟩ := Option.ne_none_iff_exists'.mp room
  exact createLoop_found (attached.geometry.inChain_of_valid valid) read slot

theorem setFatEntry_attached (c : ℕ) {value : ℕ} (small : value < 2 ^ 28) :
    Attached fs (Fat32.setFatEntry fs c value w).2 := by
  by_cases valid : fs.Valid c
  · obtain ⟨w', set, after⟩ := attached.setFatEntry valid small
    rw [set]
    exact after.attached
  · have outside := attached.geometry.unknown valid
    rw [Fat32.setFatEntry, if_pos outside]
    exact attached

theorem createLoop_grow {buf buf' : Bytes} {next : ℕ} (inChain : InChain c)
    (read : Fat32.readCluster fs c buf w = (some buf', w))
    (full : freeSlot buf' (fs.clusterSize / entrySize) 0 = none)
    (link : Fat32.getNextCluster fs c w = (next, w)) (ends : eocMin ≤ next) (fuel : ℕ) :
    (createLoop fs name mode new tmp (fuel + 2) c buf w).isSome = true := by
  rw [createLoop, if_pos inChain, read]
  rcases attached.allocCluster with ⟨none, -⟩ | ⟨d, w₁, valid, -, got, taken⟩
  · simp only [full, link, if_pos ends, none, if_true]
    rfl
  · have used : d ≠ 0 := by
      have := valid.1
      omega
    have small : d < 2 ^ 28 := (attached.geometry.lt_eocMin valid).trans (by decide)
    have linked := taken.attached.setFatEntry_attached c small
    generalize written : buf'.fill 0 fs.clusterSize 0 = zeros
    obtain ⟨w₂, stored, after⟩ := linked.writeCluster valid zeros
    have room : (volume fs w₂).StopsAt fs isDeleted d := by
      refine .inr ⟨0, attached.geometry.slots_pos, .inl ?_⟩
      rw [after.volume, ← written]
      simp [Volume.ended, entryMark, Volume.store, Bytes.fill, attached.geometry.clusterSize_pos]
    simp only [full, link, if_pos ends, got, if_neg used, written, stored]
    exact after.attached.createLoop_room valid room zeros fuel

theorem createLoop_outside (outside : ¬ fs.Valid c) (buf : Bytes) (fuel : ℕ) :
    (createLoop fs name mode new tmp (fuel + 2) c buf w).isSome = true := by
  by_cases inChain : InChain c
  · rcases read : Fat32.readCluster fs c buf w with ⟨_ | buf', w₁⟩
    · rw [createLoop, if_pos inChain, read]
      rfl
    · obtain rfl := (readCluster_polled read).eq attached.device.reliable
      rcases slot : freeSlot buf' (fs.clusterSize / entrySize) 0 with _ | i
      · have link := attached.getNextCluster c
        rw [fat_outside outside] at link
        exact attached.createLoop_grow inChain read slot link (by decide) fuel
      · exact createLoop_found inChain read slot
  · rw [createLoop, if_neg inChain]
    rfl

theorem createLoop_full (here : ¬ (volume fs w).StopsAt fs isDeleted c) (buf : Bytes) :
    InChain c ∧ ∃ buf', Fat32.readCluster fs c buf w = (some buf', w) ∧
      freeSlot buf' (fs.clusterSize / entrySize) 0 = none ∧
      Fat32.getNextCluster fs c w = ((volume fs w).fat c, w) := by
  have valid : fs.Valid c := not_not.mp fun outside => here (.inl outside)
  obtain ⟨buf', read, holds⟩ := attached.loaded valid buf
  exact ⟨attached.geometry.inChain_of_valid valid, buf', read, (freeSlot_none_iff buf' fs.slots 0).mpr
    (Volume.StopsAt.slots isDeleted_local here holds), attached.getNextCluster c⟩

/-- The loop of `fat32_create` terminates exactly when the chain leads out of the volume or to a
cluster with a free slot. -/
theorem createLoop_terminates_iff (first : ℕ) (buf : Bytes) :
    Terminates (createLoop fs name mode new tmp · first buf w) ↔
      (volume fs w).Halts fs isDeleted first := by
  -- The end of the chain is noticed one round early: there the directory grows.
  have early : (volume fs w).Halts fs isDeleted first ↔
      ∃ n, (volume fs w).StopsAt fs isDeleted ((volume fs w).follow first n) ∨
        ¬ fs.Valid ((volume fs w).follow first (n + 1)) := by
    constructor
    · rintro ⟨n, stops⟩
      exact ⟨n, .inl stops⟩
    · rintro ⟨n, stops | outside⟩
      · exact ⟨n, stops⟩
      · exact ⟨n + 1, .inl outside⟩
  rw [early]
  refine Terminates.loop_iff
    (f := fun fuel n buf =>
      createLoop fs name mode new tmp fuel ((volume fs w).follow first n) buf w)
    (R := fun _ _ => True) (fun _ _ => rfl) ?_ ?_ trivial
  · intro n buf _ stops
    refine .of_stable (stable_createLoop fs _ _ _ _ _ _ _) (n := 3) ?_
    by_cases valid : fs.Valid ((volume fs w).follow first n)
    · by_cases here : (volume fs w).StopsAt fs isDeleted ((volume fs w).follow first n)
      · exact attached.createLoop_room valid here buf 2
      · have outside := stops.resolve_left here
        rw [Volume.follow_succ] at outside
        obtain ⟨inChain, buf', read, full, link⟩ := attached.createLoop_full here buf
        by_cases ends : eocMin ≤ (volume fs w).fat ((volume fs w).follow first n)
        · exact attached.createLoop_grow inChain read full link ends 1
        · rw [createLoop, if_pos inChain, read]
          simp only [full, link, if_neg ends]
          exact attached.createLoop_outside outside buf' 0
    · exact attached.createLoop_outside valid buf 1
  · intro n buf _ onward
    push Not at onward
    obtain ⟨here, next⟩ := onward
    rw [Volume.follow_succ] at next
    obtain ⟨inChain, buf', read, full, link⟩ := attached.createLoop_full here buf
    refine ⟨buf', trivial, fun fuel => ?_⟩
    rw [createLoop, if_pos inChain, read]
    simp only [full, link, if_neg (attached.geometry.not_eoc _ next), Volume.follow_succ]

end

end Attached

/-! ## The loops of `fat32_readdir` -/

/-- How many slots of cluster `c` are returned by a listing from entry `entryIndex` on, when `k` slots
have been counted before. -/
def Volume.listed (v : Volume) (fs : Fs) (entryIndex : ℤ) (c k : ℕ) : ℕ :=
  (List.range' 0 fs.slots).countP fun i =>
    visible (v.data c) i && decide (entryIndex ≤ int32 (k + i : ℕ))

/-- The same for the first `n` clusters from `first` on. -/
def Volume.seen (v : Volume) (fs : Fs) (entryIndex : ℤ) (first : ℕ) : ℕ → ℕ
  | 0 => 0
  | n + 1 =>
      v.seen fs entryIndex first n + v.listed fs entryIndex (v.follow first n) (n * fs.slots)

/-- A listing of `count` entries stops in round `n`. -/
def Volume.ListsAt (v : Volume) (fs : Fs) (entryIndex count : ℤ) (first n : ℕ) : Prop :=
  count ≤ v.seen fs entryIndex first n ∨ v.StopsAt fs (fun _ _ => false) (v.follow first n)

section Listing

variable {entryIndex count : ℤ} {buf : Bytes} {s s' : Listing} {i k n : ℕ}

/-- The pass over slots without an end mark: it returns what it sees, until there are enough. -/
theorem listSlots_clean (clean : ∀ j, i ≤ j → j < i + n → entryMark buf j ≠ 0)
    (index : s.index = int32 (k + i : ℕ)) {m : ℕ}
    (shown : ((List.range' i n).countP fun j =>
      visible buf j && decide (entryIndex ≤ int32 (k + j : ℕ))) = m) :
    ∃ s', listSlots entryIndex count buf n i s = (false, s') ∧
      ((s.entries.length + m : ℕ) < count →
        s'.index = int32 (k + (i + n) : ℕ) ∧ s'.entries.length = s.entries.length + m) ∧
      (count ≤ (s.entries.length + m : ℕ) → count ≤ s'.entries.length) := by
  induction n generalizing i s m with
  | zero =>
    subst shown
    exact ⟨s, rfl, fun _ => ⟨index, rfl⟩, id⟩
  | succ n ih =>
    rw [listSlots]
    by_cases full : count ≤ s.entries.length
    · rw [if_pos full]
      refine ⟨s, rfl, fun less => ?_, fun _ => full⟩
      omega
    rw [if_neg full, if_neg (clean i le_rfl (by omega))]
    have clean' : ∀ j, i + 1 ≤ j → j < i + 1 + n → entryMark buf j ≠ 0 :=
      fun j low high => clean j (by omega) (by omega)
    have next : int32 (s.index + 1) = int32 (k + (i + 1) : ℕ) := by
      rw [index, int32_succ]
      congr 1
    rw [List.range'_succ, List.countP_cons] at shown
    have place : i + 1 + n = i + (n + 1) := by omega
    by_cases hidden : visible buf i = false
    · rw [if_pos (by simp [hidden])]
      simp only [hidden, Bool.false_and, Bool.false_eq_true, if_false, Nat.add_zero] at shown
      rw [← place]
      exact ih clean' next shown
    · have shows : visible buf i = true := by simpa using hidden
      rw [if_neg (by simp [shows])]
      by_cases early : s.index < entryIndex
      · rw [if_pos early]
        have passed : ¬ entryIndex ≤ int32 (k + i : ℕ) := by
          rw [← index]
          omega
        simp only [shows, passed, decide_false, Bool.and_false, Bool.false_eq_true, if_false,
          Nat.add_zero] at shown
        rw [← place]
        exact ih clean' next shown
      · rw [if_neg early]
        have reached : entryIndex ≤ int32 (k + i : ℕ) := by
          rw [← index]
          omega
        simp only [shows, reached, decide_true, Bool.and_true, if_true] at shown
        have more : (s.add buf i).entries.length = s.entries.length + 1 := by
          simp [Listing.add]
        obtain ⟨s', listed, less, enough⟩ := ih (s := s.add buf i) clean' next rfl
        rw [more] at less enough
        rw [← place]
        refine ⟨s', listed, fun h => ?_, fun h => enough (by omega)⟩
        obtain ⟨index', length⟩ := less (by omega)
        exact ⟨index', by omega⟩

theorem listSlots_ended (ended : ∃ j, i ≤ j ∧ j < i + n ∧ entryMark buf j = 0)
    (listed : listSlots entryIndex count buf n i s = (false, s')) :
    count ≤ s'.entries.length := by
  induction n generalizing i s with
  | zero =>
    obtain ⟨j, low, high, -⟩ := ended
    omega
  | succ n ih =>
    rw [listSlots] at listed
    split_ifs at listed with full mark hidden early
    · rw [← (Prod.mk.inj listed).2]
      exact full
    · simp at listed
    all_goals
      obtain ⟨j, low, high, here⟩ := ended
      have other : i ≠ j := fun same => mark (same ▸ here)
      exact ih ⟨j, by omega, by omega, here⟩ listed

theorem stable_listLoop (fs : Fs) (entryIndex count : ℤ) (c : ℕ) (buf : Bytes) (s : Listing)
    (w : World) : Stable fun fuel => listLoop fs entryIndex count fuel c buf s w := by
  refine Stable.loop (f := fun fuel (s : ℕ × Bytes × Listing × World) =>
    listLoop fs entryIndex count fuel s.1 s.2.1 s.2.2.1 s.2.2.2) (fun _ => rfl) ?_ (c, buf, s, w)
  rintro ⟨c, buf, s, w⟩
  simp only [listLoop]
  by_cases more : InChain c ∧ (s.entries.length : ℤ) < count
  · simp only [more, and_self, if_true]
    rcases readCluster fs c buf w with ⟨_ | buf, w⟩
    · exact .inl ⟨_, fun _ => rfl⟩
    · dsimp only
      rcases listSlots entryIndex count buf (fs.clusterSize / entrySize) 0 s with ⟨_ | _, s⟩
      · rcases getNextCluster fs c w with ⟨next, w⟩
        exact .inr ⟨(next, buf, s, w), fun _ => rfl⟩
      · exact .inl ⟨_, fun _ => rfl⟩
  · simp only [more, if_false]
    exact .inl ⟨_, fun _ => rfl⟩

namespace Attached

theorem listLoop_outside (attached : Attached fs w) (outside : ¬ fs.Valid c) (buf : Bytes)
    (s : Listing) : (listLoop fs entryIndex count 2 c buf s w).isSome = true := by
  rw [listLoop]
  split
  · rcases read : Fat32.readCluster fs c buf w with ⟨_ | buf', w₁⟩
    · rfl
    · obtain rfl := (readCluster_polled read).eq attached.device.reliable
      dsimp only
      split
      · rfl
      · rw [attached.getNextCluster, fat_outside outside]
        rfl
  · rfl

/-- The loops of `fat32_readdir` terminate exactly when the chain leads out of the volume or to an end
mark, or enough entries are seen on the way. -/
theorem listLoop_terminates_iff (attached : Attached fs w) (first : ℕ) (buf : Bytes)
    (offset : ℤ) :
    Terminates (fun fuel => listLoop fs entryIndex count fuel first buf ⟨0, [], offset⟩ w) ↔
      ∃ n, (volume fs w).ListsAt fs entryIndex count first n := by
  generalize isVolume : volume fs w = v
  refine Terminates.loop_iff
    (f := fun fuel n (s : Bytes × Listing) =>
      listLoop fs entryIndex count fuel (v.follow first n) s.1 s.2 w)
    (R := fun n s =>
      (v.seen fs entryIndex first n < count →
        s.2.index = int32 (n * fs.slots : ℕ) ∧
          s.2.entries.length = v.seen fs entryIndex first n) ∧
      (count ≤ v.seen fs entryIndex first n → count ≤ s.2.entries.length))
    (s := (buf, ⟨0, [], offset⟩)) (fun _ _ => rfl) ?_ ?_ ?_
  · rintro n ⟨buf, s⟩ ⟨-, enough⟩ stops
    by_cases full : count ≤ s.entries.length
    · exact ⟨_, listLoop_end fun more => not_lt.mpr full more.2⟩
    have here := stops.resolve_left (mt enough full)
    by_cases valid : fs.Valid (v.follow first n)
    · have enter : InChain (v.follow first n) ∧ (s.entries.length : ℤ) < count :=
        ⟨attached.geometry.inChain_of_valid valid, not_le.mp full⟩
      obtain ⟨buf', read, holds⟩ := attached.loaded valid buf
      rw [isVolume] at holds
      refine .of_stable (stable_listLoop fs _ _ _ _ _ _) (n := 2) ?_
      rw [listLoop, if_pos enter, read]
      rcases listed : listSlots entryIndex count buf' fs.slots 0 s with ⟨_ | _, s'⟩
      · -- The pass went on behind an end mark, so it has returned enough.
        have ended : ∃ j, 0 ≤ j ∧ j < 0 + fs.slots ∧ entryMark buf' j = 0 := by
          have stop := here.slot (fun _ _ _ _ => rfl) valid holds
          push Not at stop
          obtain ⟨j, low, high, other⟩ := stop
          exact ⟨j, low, high, by_contra fun mark => other mark rfl⟩
        have full' := listSlots_ended ended listed
        rw [Fs.slots] at listed
        simp only [listed, attached.getNextCluster]
        rw [listLoop, if_neg fun more => not_lt.mpr full' more.2]
        rfl
      · rw [Fs.slots] at listed
        simp only [listed]
        rfl
    · exact .of_stable (stable_listLoop fs _ _ _ _ _ _) (attached.listLoop_outside valid buf s)
  · rintro n ⟨buf, s⟩ ⟨exact', -⟩ onward
    obtain ⟨less, here⟩ := not_or.mp onward
    obtain ⟨index, length⟩ := exact' (not_le.mp less)
    have valid : fs.Valid (v.follow first n) := not_not.mp fun outside => here (.inl outside)
    obtain ⟨buf', read, holds⟩ := attached.loaded valid buf
    rw [isVolume] at holds
    have clean : ∀ j, 0 ≤ j → j < 0 + fs.slots → entryMark buf' j ≠ 0 := fun j low high =>
      (Volume.StopsAt.slots (fun _ _ _ _ => rfl) here holds j low high).1
    have same : ((List.range' 0 fs.slots).countP fun j => visible buf' j &&
        decide (entryIndex ≤ int32 (n * fs.slots + j : ℕ))) =
          v.listed fs entryIndex (v.follow first n) (n * fs.slots) := by
      refine List.countP_congr fun j mem => ?_
      have inside : j < fs.slots := by
        rw [List.mem_range'_1] at mem
        omega
      rw [visible_local _ _ _ (holds.sameSlot inside)]
    have index₀ : s.index = int32 (n * fs.slots + 0 : ℕ) := index
    obtain ⟨s', listed, less', enough⟩ :
        ∃ s', listSlots entryIndex count buf' fs.slots 0 s = (false, s') ∧ _ ∧ _ :=
      listSlots_clean clean index₀ same
    have length₀ : s.entries.length = v.seen fs entryIndex first n := length
    rw [length₀] at less' enough
    refine ⟨(buf', s'), ⟨fun more => ?_, enough⟩, fun fuel => ?_⟩
    · obtain ⟨index', length'⟩ := less' more
      refine ⟨?_, length'⟩
      rw [index', Nat.zero_add, ← Nat.add_one_mul]
    · have enter : InChain (v.follow first n) ∧ (s.entries.length : ℤ) < count := by
        refine ⟨attached.geometry.inChain_of_valid valid, ?_⟩
        rw [length₀]
        exact not_le.mp less
      rw [Fs.slots] at listed
      simp only
      rw [listLoop, if_pos enter, read]
      simp only [listed, attached.getNextCluster, isVolume, Volume.follow_succ]
  · exact ⟨fun _ => ⟨by simp [int32], rfl⟩, id⟩

end Attached

end Listing

/-! ## The operations -/

theorem Attached.spends {n : ℕ} (attached : Attached fs w) (spent : World.Spends w w' n) :
    Attached fs w' ∧ volume fs w' = volume fs w :=
  ⟨attached.of_devs spent.devs, volume_congr spent.devs⟩

section Lookup

variable {dir : VfsNode} {name : CString}

theorem walk_unfound (attached : Attached fs w) {fuel : ℕ} {buf : Bytes} {r : Walk}
    (done : walk fs wanted fuel first buf w = some (r, w'))
    (unfound : ∀ c i buf, r ≠ .hit c i buf) :
    (volume fs w).Halts fs (fun _ _ => false) first := by
  induction fuel generalizing first buf with
  | zero => cases done
  | succ fuel ih =>
    by_cases valid : fs.Valid first
    · obtain ⟨buf', read, holds⟩ := attached.loaded valid buf
      rw [walk, if_pos (attached.geometry.inChain_of_valid valid), read] at done
      by_cases stops : (volume fs w).StopsAt fs (fun _ _ => false) first
      · exact ⟨0, stops⟩
      have clean := Volume.StopsAt.slots (fun _ _ _ _ => rfl) stops holds
      rcases scan : scanSlots wanted buf' (fs.clusterSize / entrySize) 0 with i | _ | _
      · simp only [scan, Option.some.injEq, Prod.mk.injEq] at done
        exact absurd done.1.symm (unfound _ _ _)
      · exact absurd scan (scanSlots_ne_ended fun j low high => (clean j low high).1)
      · simp only [scan, attached.getNextCluster] at done
        exact .of_link (ih done)
    · exact .of_outside valid

/-- How many calls of `malloc` a call of `fat32_lookup` makes, and why it answers NULL. -/
theorem lookup_outcome (attached : Attached fs w) (isDir : dir.isDirectory = true) {fuel : ℕ}
    {r : Option VfsNode} (done : lookup fs dir name fuel w = some (r, w')) :
    (r.isSome = true ∧ w.Grants 0 ∧ w.Grants 1 ∧ w.Grants 2 ∧ World.Spends w w' 3) ∨
      (r = none ∧ ¬ w.Grants 0 ∧ World.Spends w w' 1) ∨
      (r = none ∧ w.Grants 0 ∧
        (volume fs w).Halts fs (fun _ _ => false) dir.fsData.firstCluster ∧
        World.Spends w w' 1) ∨
      (r = none ∧ w.Grants 0 ∧ ¬ w.Grants 1 ∧ World.Spends w w' 2) ∨
      (r = none ∧ w.Grants 0 ∧ w.Grants 1 ∧ ¬ w.Grants 2 ∧ World.Spends w w' 3) := by
  unfold lookup at done
  rw [isDir, if_neg (by simp)] at done
  rcases buffer : w.malloc fs.clusterSize with ⟨_ | tmp, w₁⟩
  · obtain ⟨denied, spent⟩ := World.malloc_none attached.geometry.clusterSize_pos buffer
    simp only [buffer] at done
    cases done
    exact .inr (.inl ⟨rfl, denied, spent⟩)
  · obtain ⟨granted, spent⟩ := World.malloc_some buffer
    obtain ⟨attached₁, same⟩ := attached.spends spent
    simp only [buffer] at done
    obtain ⟨⟨out, w₂⟩, walked, answer⟩ := Option.map_eq_some_iff.mp done
    obtain rfl := (walk_polled walked).eq attached₁.device.reliable
    have halts : (∀ c i buf, out ≠ .hit c i buf) →
        (volume fs w).Halts fs (fun _ _ => false) dir.fsData.firstCluster :=
      fun unfound => same ▸ walk_unfound attached₁ walked unfound
    cases out with
    | hit c i buf =>
      rcases lookupHit_outcome answer with ⟨found, h₁, h₂, spent'⟩ | ⟨isNone, h₁, spent'⟩ |
        ⟨isNone, h₁, h₂, spent'⟩
      all_goals rw [spent.grants] at h₁
      · rw [spent.grants] at h₂
        exact .inl ⟨found, granted, h₁, h₂, spent.trans spent'⟩
      · exact .inr (.inr (.inr (.inl ⟨isNone, granted, h₁, spent.trans spent'⟩)))
      · rw [spent.grants] at h₂
        exact .inr (.inr (.inr (.inr ⟨isNone, granted, h₁, h₂, spent.trans spent'⟩)))
    | ended =>
      cases answer
      exact .inr (.inr (.inl ⟨rfl, granted, halts (by simp), spent.free tmp⟩))
    | failed =>
      cases answer
      exact .inr (.inr (.inl ⟨rfl, granted, halts (by simp), spent.free tmp⟩))

end Lookup

section Operations

variable {dir : VfsNode} {name : CString} {mode : ℕ}

/-- When `fat32_lookup` terminates: there is nothing to search, no buffer, or the walk halts. -/
def LookupEnds (fs : Fs) (w : World) (dir : VfsNode) (name : CString) : Prop :=
  w.Grants 0 → (volume fs w).Halts fs (lookupMatch name) dir.fsData.firstCluster

/-- When `fat32_unlink` terminates. -/
def UnlinkEnds (fs : Fs) (w : World) (dir : VfsNode) (name : CString) : Prop :=
  w.Grants 0 → (volume fs w).Halts fs (unlinkMatch name) dir.fsData.firstCluster

/-- When `fat32_readdir` terminates. -/
def ReaddirEnds (fs : Fs) (w : World) (dir : VfsNode) (offset : ℤ) (count : ℕ) : Prop :=
  w.Grants 0 → ∃ n, (volume fs w).ListsAt fs (int32 (u64 offset / entrySize : ℕ)) (int32 count)
    dir.fsData.firstCluster n

/-- The search of `fat32_create` fails for lack of memory, and then there is memory for both buffers:
the name counts as new although it has not been searched for. -/
def Relents (w : World) : Prop :=
  (¬ w.Grants 0 ∧ w.Grants 1 ∧ w.Grants 2) ∨
    (w.Grants 0 ∧ ¬ w.Grants 1 ∧ w.Grants 2 ∧ w.Grants 3) ∨
    (w.Grants 0 ∧ w.Grants 1 ∧ ¬ w.Grants 2 ∧ w.Grants 3 ∧ w.Grants 4)

/-- When `fat32_create` terminates: its search does, and if it gets to the loop that looks for a free
slot without having searched, this loop does too. -/
def CreateEnds (fs : Fs) (w : World) (dir : VfsNode) (name : CString) : Prop :=
  LookupEnds fs w dir name ∧
    (Relents w → (∃ d, fs.Valid d ∧ (volume fs w).fat d = freeMark) →
      (volume fs w).Halts fs isDeleted dir.fsData.firstCluster)

/-- When `fat32_rmdir` terminates: its search does, and so does the check of the directory it finds. -/
def RmdirEnds (fs : Fs) (w : World) (dir : VfsNode) (name : CString) : Prop :=
  LookupEnds fs w dir name ∧
    ∀ target w', Converges (fun fuel => lookup fs dir name fuel w) (some target, w') →
      target.isDirectory = true → w.Grants 3 →
      (volume fs w).Halts fs visible target.fsData.firstCluster

namespace Attached

section

variable (attached : Attached fs w)

include attached

theorem buffer_terminates_iff {α : Type*} {f : ℕ → Option α} {P : Prop}
    (denied : ∀ w₁, w.malloc fs.clusterSize = (none, w₁) → Terminates f)
    (granted : ∀ tmp w₁, w.malloc fs.clusterSize = (some tmp, w₁) → Attached fs w₁ →
      volume fs w₁ = volume fs w → (Terminates f ↔ P)) : Terminates f ↔ (w.Grants 0 → P) := by
  rcases buffer : w.malloc fs.clusterSize with ⟨_ | tmp, w₁⟩
  · have no := (World.malloc_none attached.geometry.clusterSize_pos buffer).1
    exact iff_of_true (denied w₁ buffer) fun yes => absurd yes no
  · obtain ⟨yes, spent⟩ := World.malloc_some buffer
    obtain ⟨attached₁, same⟩ := attached.spends spent
    rw [granted tmp w₁ buffer attached₁ same, forall_prop_of_true yes]

theorem lookup_terminates_iff (isDir : dir.isDirectory = true) :
    Terminates (lookup fs dir name · w) ↔ LookupEnds fs w dir name := by
  unfold lookup
  simp only [isDir, Bool.not_true, Bool.false_eq_true, if_false]
  refine attached.buffer_terminates_iff (fun w₁ none => ?_) fun tmp w₁ got attached₁ same => ?_
  · simp only [none]
    exact .const fun _ => rfl
  · simp only [got]
    rw [Terminates.map_iff (stable_walk fs _ _ _ _),
      attached₁.walk_terminates_iff (lookupMatch_local name), same]

theorem search_terminates_iff {α : Type*} {g : Option VfsNode × World → ℕ → Option α} {P : Prop}
    (isDir : dir.isDirectory = true)
    (rest : ∀ r w₁ fuel, Converges (lookup fs dir name · w) (r, w₁) →
      lookup fs dir name fuel w = some (r, w₁) → LookupEnds fs w dir name →
        (Terminates (g (r, w₁)) ↔ P)) :
    Terminates (fun fuel => (lookup fs dir name fuel w).bind fun x => g x fuel) ↔
      LookupEnds fs w dir name ∧ P := by
  by_cases searched : LookupEnds fs w dir name
  · obtain ⟨⟨r, w₁⟩, ends⟩ := (attached.lookup_terminates_iff isDir).mpr searched
    obtain ⟨bound, answer⟩ := ends
    rw [Terminates.bind_iff ⟨bound, answer⟩, and_iff_right searched]
    exact rest r w₁ bound ⟨bound, answer⟩ (answer bound le_rfl) searched
  · refine iff_of_false (fun ends => searched ?_) fun h => searched h.1
    exact (attached.lookup_terminates_iff isDir).mp (ends.of_bind (stable_lookup fs dir name w))

theorem readdir_terminates_iff (isDir : dir.isDirectory = true) (offset : ℤ) (count : ℕ) :
    Terminates (readdir fs dir offset count · w) ↔
      ReaddirEnds fs w dir offset count := by
  unfold readdir
  simp only [isDir, Bool.not_true, Bool.false_eq_true, if_false]
  refine attached.buffer_terminates_iff (fun w₁ none => ?_) fun tmp w₁ got attached₁ same => ?_
  · simp only [none]
    exact .const fun _ => rfl
  · simp only [got]
    rw [Terminates.map_iff (stable_listLoop fs _ _ _ _ _ _), attached₁.listLoop_terminates_iff, same]

theorem walk_world_of_converges {c : ℕ} {buf : Bytes} {r : Walk}
    (walked : Converges (walk fs wanted · c buf w) (r, w')) : w' = w := by
  obtain ⟨fuel, answer⟩ := walked
  exact (walk_polled (answer fuel le_rfl)).eq attached.device.reliable

theorem unlinkHit_terminates (tmp c i : ℕ) (buf : Bytes) :
    Terminates fun fuel => unlinkHit fs tmp c i buf fuel w := by
  unfold unlinkHit
  by_cases chain : 2 ≤ entryFirstCluster buf i
  · simp only [if_pos chain]
    obtain ⟨w', ends, -⟩ := attached.freeChain (entryFirstCluster buf i)
    exact (Terminates.map_iff (stable_freeChain fs _ _)).mpr ⟨w', ends⟩
  · simp only [if_neg chain]
    exact .const fun _ => rfl

theorem unlink_terminates_iff (isDir : dir.isDirectory = true) :
    Terminates (unlink fs dir name · w) ↔ UnlinkEnds fs w dir name := by
  unfold unlink
  simp only [isDir, Bool.not_true, Bool.false_eq_true, if_false]
  refine attached.buffer_terminates_iff (fun w₁ none => ?_) fun tmp w₁ got attached₁ same => ?_
  · simp only [none]
    exact .const fun _ => rfl
  simp only [got]
  rw [← same, ← attached₁.walk_terminates_iff (unlinkMatch_local name) _ w₁.heap.junk]
  constructor
  · exact Terminates.of_bind (stable_walk fs _ _ _ _)
  · rintro ⟨⟨out, w₂⟩, walked⟩
    obtain rfl := walk_world_of_converges attached₁ walked
    rw [Terminates.bind_iff walked]
    cases out with
    | hit c i buf => exact attached₁.unlinkHit_terminates tmp c i buf
    | ended => exact .const fun _ => rfl
    | failed => exact .const fun _ => rfl

theorem createNew_terminates_iff :
    Terminates (createNew fs dir name mode · w) ↔
      (w.Grants 0 → w.Grants 1 → (∃ d, fs.Valid d ∧ (volume fs w).fat d = freeMark) →
        (volume fs w).Halts fs isDeleted dir.fsData.firstCluster) := by
  unfold createNew
  rcases attached.allocCluster with ⟨none, used⟩ | ⟨d, w₁, valid, free, got, taken⟩
  · refine iff_of_true ?_ fun _ _ ⟨d, valid, free⟩ => absurd free (used d valid)
    simp only [none, if_true]
    exact .const fun _ => rfl
  have nonzero : d ≠ 0 := by
    have := valid.1
    omega
  have room : ∃ d, fs.Valid d ∧ (volume fs w).fat d = freeMark := ⟨d, valid, free⟩
  have grants : ∀ n, w₁.Grants n ↔ w.Grants n := fun n => by
    rw [World.Grants, World.Grants, taken.heap]
  simp only [got, if_neg nonzero, room, forall_const]
  rcases first : w₁.malloc fs.clusterSize with ⟨_ | zeroBuf, w₂⟩
  · obtain ⟨denied, -⟩ := World.malloc_none attached.geometry.clusterSize_pos first
    rw [grants] at denied
    exact iff_of_true (.const fun _ => rfl) fun granted => absurd granted denied
  obtain ⟨granted, spent⟩ := World.malloc_some first
  obtain ⟨attached₂, same₂⟩ := taken.attached.spends spent
  rw [grants] at granted
  generalize zeros : w₂.heap.junk.fill 0 fs.clusterSize 0 = buf
  obtain ⟨w₃, stored, after⟩ := attached₂.writeCluster valid buf
  rw [same₂, taken.volume] at after
  have grants' : ∀ n, (w₃.free zeroBuf).Grants n ↔ w.Grants (1 + n) := fun n => by
    rw [← grants, ← spent.grants, World.Grants, World.Grants, World.free_oom, after.heap]
  simp only [granted, forall_const, zeros, stored]
  rcases second : (w₃.free zeroBuf).malloc fs.clusterSize with ⟨_ | tmp, w₄⟩
  · obtain ⟨denied, -⟩ := World.malloc_none attached.geometry.clusterSize_pos second
    rw [grants'] at denied
    exact iff_of_true (.const fun _ => rfl) fun granted' => absurd granted' denied
  · obtain ⟨granted', spent'⟩ := World.malloc_some second
    rw [grants'] at granted'
    have devs : w₄.devs = w₃.devs := by rw [spent'.devs, World.free_devs]
    simp only [granted', forall_const]
    rw [(after.attached.of_devs devs).createLoop_terminates_iff, volume_congr devs, after.volume]
    refine Volume.halts_taken_iff attached.geometry free fun k hk => ?_
    rw [← zeros]
    exact if_pos ⟨Nat.zero_le k, by omega⟩

theorem create_terminates_iff (isDir : dir.isDirectory = true) (validName : isValidName name = true) :
    Terminates (create fs dir name mode · w) ↔ CreateEnds fs w dir name := by
  unfold create
  simp only [isDir, validName, Bool.not_true, Bool.false_eq_true, if_false]
  refine attached.search_terminates_iff isDir fun r w₁ fuel ends done _ => ?_
  -- After a search that has not been made, the rest decides; otherwise there is a free slot.
  have rest : ∀ n, World.Spends w w₁ n → (Terminates (createNew fs dir name mode ·
      w₁) ↔ (w.Grants n → w.Grants (n + 1) →
        (∃ d, fs.Valid d ∧ (volume fs w).fat d = freeMark) →
        (volume fs w).Halts fs isDeleted dir.fsData.firstCluster)) := by
    intro n spent
    obtain ⟨attached₁, same⟩ := attached.spends spent
    rw [attached₁.createNew_terminates_iff, spent.grants, spent.grants, same, Nat.add_zero]
  rcases lookup_outcome attached isDir done with ⟨found, h₀, h₁, h₂, spent⟩ |
    ⟨rfl, h₀, spent⟩ | ⟨rfl, h₀, halts, spent⟩ | ⟨rfl, h₀, h₁, spent⟩ |
    ⟨rfl, h₀, h₁, h₂, spent⟩
  · obtain ⟨existing, rfl⟩ := Option.isSome_iff_exists.mp found
    refine iff_of_true (.const fun _ => rfl) fun relents => ?_
    simp only [Relents, h₀, h₁, h₂] at relents
    tauto
  · rw [rest 1 spent]
    simp [Relents, h₀]
  · have roomy : (volume fs w).Halts fs isDeleted dir.fsData.firstCluster :=
      halts.mono fun _ _ no => absurd no (by decide)
    rw [rest 1 spent]
    exact iff_of_true (fun _ _ _ => roomy) fun _ _ => roomy
  · rw [rest 2 spent]
    simp [Relents, h₀, h₁]
  · rw [rest 3 spent]
    simp [Relents, h₀, h₁, h₂]

theorem rmdirEntry_terminates
    (halts : (volume fs w).Halts fs (rmdirMatch name) dir.fsData.firstCluster) :
    Terminates fun fuel => rmdirEntry fs dir name fuel w := by
  unfold rmdirEntry
  rcases buffer : w.malloc fs.clusterSize with ⟨_ | tmp, w₁⟩
  · exact .const fun _ => rfl
  · obtain ⟨-, spent⟩ := World.malloc_some buffer
    obtain ⟨attached₁, same⟩ := attached.spends spent
    rw [Terminates.map_iff (stable_walk fs _ _ _ _),
      attached₁.walk_terminates_iff (rmdirMatch_local name), same]
    exact halts

/-- Behind its search `fat32_rmdir` terminates if the check for entries does: the chain it frees may
be part of the one it walks next, but that only ends the walk. -/
theorem rmdirTarget_terminates_iff {target : VfsNode}
    (halts : (volume fs w).Halts fs (lookupMatch name) dir.fsData.firstCluster) :
    Terminates (rmdirTarget fs dir target name · w) ↔
      (w.Grants 0 → (volume fs w).Halts fs visible target.fsData.firstCluster) := by
  unfold rmdirTarget
  refine attached.buffer_terminates_iff (fun w₁ none => ?_) fun checkBuf w₁ got attached₁ same => ?_
  · simp only [none]
    exact .const fun _ => rfl
  simp only [got]
  rw [← same, ← attached₁.walk_terminates_iff visible_local _ w₁.heap.junk]
  constructor
  · exact Terminates.of_bind (stable_walk fs _ _ _ _)
  · rintro ⟨⟨out, w₂⟩, walked⟩
    obtain rfl := walk_world_of_converges attached₁ walked
    have erases : Terminates fun fuel =>
        (Fat32.freeChain fs fuel target.fsData.firstCluster (w₂.free checkBuf)).bind fun w =>
          rmdirEntry fs dir name fuel (freeNode target w) := by
      have attached₃ := attached₁.of_devs (World.free_devs w₂ checkBuf)
      obtain ⟨w₄, freed, after, -⟩ := attached₃.freeChain target.fsData.firstCluster
      rw [Terminates.bind_iff freed]
      have devs : (freeNode target w₄).devs = w₄.devs := by
        rw [freeNode, World.free_devs, World.free_devs]
      refine (after.attached.of_devs devs).rmdirEntry_terminates ?_
      rw [volume_congr devs, after.volume, volume_congr (World.free_devs w₂ checkBuf), same]
      exact halts.releaseAll (fun _ _ => rmdirMatch_of_lookupMatch) _
    rw [Terminates.bind_iff walked]
    cases out with
    | hit c i buf => exact .const fun _ => rfl
    | ended => exact erases
    | failed => exact erases

theorem rmdir_terminates_iff (isDir : dir.isDirectory = true) :
    Terminates (rmdir fs dir name · w) ↔ RmdirEnds fs w dir name := by
  unfold rmdir
  simp only [isDir, Bool.not_true, Bool.false_eq_true, if_false]
  refine attached.search_terminates_iff isDir fun r w₁ fuel ends done searched => ?_
  cases r with
  | none =>
    refine iff_of_true (.const fun _ => rfl) fun target w' found => ?_
    cases ends.unique found
  | some target =>
    have only : ∀ P : VfsNode → Prop, (∀ target' w', Converges (fun fuel =>
        lookup fs dir name fuel w) (some target', w') → P target') ↔ P target := by
      intro P
      constructor
      · exact fun all => all target w₁ ends
      · intro holds target' w' found
        cases ends.unique found
        exact holds
    rw [only fun target => target.isDirectory = true → w.Grants 3 →
      (volume fs w).Halts fs visible target.fsData.firstCluster]
    by_cases isTarget : target.isDirectory = true
    · rcases lookup_outcome attached isDir done with ⟨-, h₀, -, -, spent⟩ | ⟨no, -⟩ | ⟨no, -⟩ |
        ⟨no, -⟩ | ⟨no, -⟩
      · obtain ⟨attached₁, same⟩ := attached.spends spent
        have halts := searched h₀
        rw [← same] at halts
        simp only [isTarget, Bool.not_true, Bool.false_eq_true, if_false, forall_const]
        rw [attached₁.rmdirTarget_terminates_iff halts, spent.grants, same]
      all_goals cases no
    · refine iff_of_true ?_ fun is => absurd is isTarget
      simp only [isTarget, Bool.not_false, if_true]
      exact .const fun _ => rfl

end

end Attached

/-- On any volume of valid geometry: exactly when each of the directory operations terminates.  On a
node that is no directory all of them do. -/
theorem operations_terminate_iff (attached : Attached fs w) (dir : VfsNode) (name : CString)
    (mode : ℕ) (offset : ℤ) (count : ℕ) :
    (Terminates (fun fuel => lookup fs dir name fuel w) ↔
      (dir.isDirectory = true → LookupEnds fs w dir name)) ∧
    (Terminates (fun fuel => readdir fs dir offset count fuel w) ↔
      (dir.isDirectory = true → ReaddirEnds fs w dir offset count)) ∧
    (Terminates (fun fuel => create fs dir name mode fuel w) ↔
      (dir.isDirectory = true → isValidName name = true → CreateEnds fs w dir name)) ∧
    (Terminates (fun fuel => unlink fs dir name fuel w) ↔
      (dir.isDirectory = true → UnlinkEnds fs w dir name)) ∧
    (Terminates (fun fuel => rmdir fs dir name fuel w) ↔
      (dir.isDirectory = true → RmdirEnds fs w dir name)) := by
  by_cases isDir : dir.isDirectory = true
  · simp only [isDir, forall_const]
    refine ⟨attached.lookup_terminates_iff isDir, attached.readdir_terminates_iff isDir offset count,
      ?_, attached.unlink_terminates_iff isDir, attached.rmdir_terminates_iff isDir⟩
    by_cases validName : isValidName name = true
    · simp only [validName, forall_const]
      exact attached.create_terminates_iff isDir validName
    · refine iff_of_true ?_ fun valid => absurd valid validName
      simp only [create, isDir, validName, Bool.not_true, Bool.not_false, Bool.false_eq_true,
        if_false, if_true]
      exact .const fun _ => rfl
  · have other : dir.isDirectory = false := by simpa using isDir
    simp only [lookup, readdir, create, unlink, rmdir, other, Bool.not_false, if_true,
      Bool.false_eq_true, false_implies, iff_true]
    exact ⟨.const fun _ => rfl, .const fun _ => rfl, .const fun _ => rfl, .const fun _ => rfl,
      .const fun _ => rfl⟩

/-- A chain that leads back to itself does no harm where the directory has an end mark. -/
theorem operations_terminate_cycle :
    Attached smallFs crossLinked ∧
      Terminates (fun fuel => lookup smallFs (rootNode smallFs 0 0 0) [0x61] fuel crossLinked) ∧
      Terminates (fun fuel => readdir smallFs (rootNode smallFs 0 0 0) 0 1 fuel crossLinked) ∧
      Terminates (fun fuel => create smallFs (rootNode smallFs 0 0 0) [0x61] 0 fuel crossLinked) ∧
      Terminates (fun fuel => unlink smallFs (rootNode smallFs 0 0 0) [0x61] fuel crossLinked) := by
  have attached := (ready_small _ : Ready smallFs crossLinked).attached
  obtain ⟨looks, lists, creates, unlinks, -⟩ :=
    operations_terminate_iff attached (rootNode smallFs 0 0 0) [0x61] 0 0 1
  have stops : ∀ wanted, (volume smallFs crossLinked).StopsAt smallFs wanted 2 :=
    fun wanted => .inr ⟨0, by decide, .inl (by decide)⟩
  refine ⟨attached, looks.mpr fun _ _ => ⟨0, stops _⟩, lists.mpr fun _ _ => ⟨0, .inr (stops _)⟩,
    creates.mpr fun _ _ => ⟨fun _ => ⟨0, stops _⟩, fun _ _ => ⟨0, stops _⟩⟩,
    unlinks.mpr fun _ _ => ⟨0, stops _⟩⟩

/-- A root directory of one cluster that leads back to itself and is full of long-name entries. -/
def ringDirectory : World :=
  smallWorld (Bytes.put32 (fun k => if 1024 ≤ k then 0x0F else 0) 520 2)

theorem follow_ring (n : ℕ) : (volume smallFs ringDirectory).follow 2 n = 2 := by
  induction n with
  | zero => rfl
  | succ n ih =>
    rw [Volume.follow_succ, ih]
    decide

theorem slots_ring : ∀ i < smallFs.slots,
    (volume smallFs ringDirectory).ended (2, i) = false ∧
      isLfn ((volume smallFs ringDirectory).data 2) i = true := by
  decide

theorem halts_ring {wanted : Bytes → ℕ → Bool}
    (skips : ∀ buf i, isLfn buf i = true → wanted buf i = false) :
    ¬ (volume smallFs ringDirectory).Halts smallFs wanted 2 := by
  rintro ⟨n, stops⟩
  rw [follow_ring] at stops
  rcases stops with outside | ⟨i, hi, ended | found⟩
  · exact outside (by decide)
  · rw [(slots_ring i hi).1] at ended
    exact absurd ended (by decide)
  · rw [skips _ _ (slots_ring i hi).2] at found
    exact absurd found (by decide)

theorem seen_ring (n : ℕ) : (volume smallFs ringDirectory).seen smallFs 0 2 n = 0 := by
  induction n with
  | zero => rfl
  | succ n ih =>
    rw [Volume.seen, ih, Nat.zero_add, follow_ring, Volume.listed, List.countP_eq_zero]
    intro i mem
    have inside : i < smallFs.slots := by
      rw [List.mem_range'_1] at mem
      omega
    simp [visible, (slots_ring i inside).2]

/-- There none of the operations ever returns. -/
theorem ring_never_ends :
    ¬ Terminates (fun fuel =>
        lookup smallFs (rootNode smallFs 0 0 0) [0x61] fuel ringDirectory) ∧
      ¬ Terminates (fun fuel => readdir smallFs (rootNode smallFs 0 0 0) 0 1 fuel ringDirectory) ∧
      ¬ Terminates (fun fuel =>
        create smallFs (rootNode smallFs 0 0 0) [0x61] 0 fuel ringDirectory) ∧
      ¬ Terminates (fun fuel =>
        unlink smallFs (rootNode smallFs 0 0 0) [0x61] fuel ringDirectory) ∧
      ¬ Terminates (fun fuel =>
        rmdir smallFs (rootNode smallFs 0 0 0) [0x61] fuel ringDirectory) := by
  have attached := (ready_small _ : Ready smallFs ringDirectory).attached
  have isDir : (rootNode smallFs 0 0 0).isDirectory = true := by decide
  have granted : ringDirectory.Grants 0 := by decide
  have unsearched : ¬ LookupEnds smallFs ringDirectory (rootNode smallFs 0 0 0) [0x61] :=
    fun ends => halts_ring (fun buf i lfn => by simp [lookupMatch, visible, lfn]) (ends granted)
  refine ⟨fun ends => ?_, fun ends => ?_, fun ends => ?_, fun ends => ?_, fun ends => ?_⟩
  · exact unsearched ((attached.lookup_terminates_iff isDir).mp ends)
  · obtain ⟨n, enough | stops⟩ := (attached.readdir_terminates_iff isDir 0 1).mp ends granted
    · have none : (volume smallFs ringDirectory).seen smallFs (int32 (u64 0 / entrySize : ℕ)) 2 n
          = 0 := seen_ring n
      have asked : int32 (1 : ℕ) = 1 := by decide
      have more : int32 (1 : ℕ) ≤ (0 : ℕ) := none ▸ enough
      omega
    · exact halts_ring (fun _ _ _ => rfl) ⟨n, stops⟩
  · exact unsearched ((attached.create_terminates_iff isDir (by decide)).mp ends).1
  · exact halts_ring (fun buf i lfn => by simp [unlinkMatch, lfn])
      ((attached.unlink_terminates_iff isDir).mp ends granted)
  · exact unsearched ((attached.rmdir_terminates_iff isDir).mp ends).1

end Operations

end Thuban.Fat32

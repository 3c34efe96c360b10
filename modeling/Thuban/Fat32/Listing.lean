import Thuban.Fat32.Readdir

/-!
# Listing a directory that changes

A directory is listed by successive calls of `fat32_readdir` on one open file, while entries are created
and removed in between.
-/

namespace Thuban.Fat32

open Lib

/-- A volume and the offset of a directory that is open on it. -/
structure OpenDir where
  world : World
  offset : ℤ

/-- A call on the open directory.  A listing is recorded with the state it was made in and the entries
that it has returned. -/
inductive DirCall
  | list (before : World) (count : ℕ) (entries : List Dirent)
  | create (name : CString) (mode : ℕ)
  | unlink (name : CString)

/-- One call, with a count between 1 and `INT_MAX` if it is a listing. -/
def DirStep (fs : Fs) (dir : VfsNode) (st : OpenDir) : DirCall → OpenDir → Prop
  | .list before count entries, st' => before = st.world ∧ 0 < count ∧ count < 2 ^ 31 ∧
      Converges (fun fuel => readdir fs dir st.offset count fuel st.world)
        ((entries.length : ℤ), entries, st'.offset, st'.world)
  | .create name mode, st' => st'.offset = st.offset ∧
      ∃ r, Converges (fun fuel => create fs dir name mode fuel st.world) (r, st'.world)
  | .unlink name, st' => st'.offset = st.offset ∧
      ∃ r, Converges (fun fuel => unlink fs dir name fuel st.world) (r, st'.world)

def DirCall.returned : DirCall → List Dirent
  | .list _ _ entries => entries
  | _ => []

def returned (calls : List DirCall) : List Dirent := calls.flatMap DirCall.returned

/-- Slot `k` of the directory `d` is `t`, and it holds a live entry. -/
def LiveAt (fs : Fs) (d : Owner) (w : World) (k : ℕ) (t : Slot) : Prop :=
  ∃ l, Owns fs (volume fs w) d l ∧ (slotsOf fs l)[k]? = some t ∧ (volume fs w).live t = true

/-- Entries come in the order of their slots and no slot comes twice; every one is the entry that was
live in its slot; and when the last call has returned none, an entry that was live at every listing
has been returned exactly once. -/
structure ExactListing (fs : Fs) (d : Owner) (calls : List DirCall) : Prop where
  increasing : ((returned calls).map Dirent.off).Pairwise (· < ·)
  sound : ∀ before count entries, .list before count entries ∈ calls → ∀ e ∈ entries,
    ∃ k t, LiveAt fs d before k t ∧ e = direntOf ((volume fs before).data t.1) t.2 k
  complete : ∀ before count, calls.getLast? = some (.list before count []) → ∀ t,
    (∀ before count entries, .list before count entries ∈ calls → ∃ k, LiveAt fs d before k t) →
    ∃ k, LiveAt fs d before k t ∧ ((returned calls).map Dirent.off).count ((k : ℤ) + 1) = 1

/-- The directory that is listed has less than `2 ^ 31` slots. -/
def Countable (fs : Fs) (d : Owner) : DirCall → Prop
  | .list before _ _ => ∀ l, Owns fs (volume fs before) d l → l.length * fs.slots < 2 ^ 31
  | _ => True

variable {fs : Fs} {dir : VfsNode} {d : Owner} {l : List ℕ} {st st' : OpenDir} {call : DirCall}
  {calls : List DirCall}

theorem length_slotsOf (fs : Fs) (l : List ℕ) : (slotsOf fs l).length = l.length * fs.slots := by
  simp [slotsOf, List.length_flatMap]

theorem Directory.step (h : Directory fs dir d l st.world) (step : DirStep fs dir st call st') :
    ∃ ext, Directory fs dir d (l ++ ext) st'.world := by
  cases call with
  | list before count entries =>
    obtain ⟨w', ends, after⟩ := readdir_spec (.refl h.ready) h.isDir h.owned st.offset count rfl
    have same : st'.world = w' := congrArg (·.2.2.2) (step.2.2.2.unique ends)
    refine ⟨[], ?_⟩
    rw [List.append_nil, same]
    exact h.same after
  | create name mode =>
    obtain ⟨-, r, done⟩ := step
    exact h.create done
  | unlink name =>
    obtain ⟨-, r, done⟩ := step
    exact ⟨[], by rw [List.append_nil]; exact h.unlink done⟩

variable {before : World} {count j c : ℕ} {entries : List Dirent} {t : Slot}

theorem Directory.list (h : Directory fs dir d l st.world)
    (step : DirStep fs dir st (.list before count entries) st')
    (countable : Countable fs d (.list before count entries))
    (here : st.offset = (entrySize * j : ℕ)) (inside : j < 2 ^ 31) :
    ∃ picks, ((numbered (volume fs before) (slotsOf fs l) 0).filter fun p => j ≤ p.2).take count =
        picks ∧
      entries = picks.map (fun p => direntOf ((volume fs before).data p.1.1) p.1.2 p.2) ∧
      st'.offset = (entrySize * nextIndex j picks : ℕ) ∧
      (entries.map Dirent.off) = picks.map (fun p => ((p.2 + 1 : ℕ) : ℤ)) ∧
      nextIndex j picks < 2 ^ 31 := by
  obtain ⟨rfl, -, word, done⟩ := step
  have small := countable l h.owns
  rw [← length_slotsOf] at small
  obtain ⟨w', ends, -⟩ := readdir_picks (.refl h.ready) h.isDir h.owned small inside word rfl
  rw [here] at done
  have same := done.unique ends
  simp only [Prod.mk.injEq] at same
  obtain ⟨-, made, moved, -⟩ := same
  refine ⟨_, rfl, made, moved, ?_, ?_⟩
  all_goals
    generalize picked : ((numbered (volume fs st.world) (slotsOf fs l) 0).filter fun p => j ≤ p.2).take
      count = picks at made moved ⊢
    have below : ∀ p ∈ picks, p.2 < (slotsOf fs l).length := fun p mem => by
      rw [← picked] at mem
      have listed := (List.mem_filter.mp (List.mem_of_mem_take mem)).1
      exact (List.getElem?_eq_some_iff.mp (live_of_mem_numbered listed).1).1
  · rw [made, List.map_map]
    refine List.map_congr_left fun p mem => ?_
    have bound := below p mem
    show int32 ((p.2 : ℤ) + 1) = _
    rw [int32_eq (by omega) (by omega), Nat.cast_add, Nat.cast_one]
  · refine lt_of_le_of_lt (nextIndex_le (le_max_left j (slotsOf fs l).length) fun p mem => ?_)
      (max_lt inside small)
    exact lt_of_lt_of_le (below p mem) (le_max_right ..)

theorem picks_spec {v : Volume} {row : List Slot} {n : ℕ} {picks : List (Slot × ℕ)}
    (picked : ((numbered v row 0).filter fun p => j ≤ p.2).take n = picks) :
    picks.Pairwise (fun p q => p.2 < q.2) ∧ (∀ p ∈ picks, j ≤ p.2 ∧ p ∈ numbered v row 0) ∧
      ∀ p ∈ numbered v row 0, j ≤ p.2 → p.2 < nextIndex j picks → p ∈ picks := by
  have sorted : ((numbered v row 0).filter fun p => j ≤ p.2).Pairwise fun p q => p.2 < q.2 :=
    (numbered_sorted v row 0).filter _
  rw [← List.take_append_drop n ((numbered v row 0).filter fun p => j ≤ p.2), picked,
    List.pairwise_append] at sorted
  refine ⟨sorted.1, fun p mem => ?_, fun p mem low high => ?_⟩
  · rw [← picked] at mem
    obtain ⟨listed, low⟩ := List.mem_filter.mp (List.mem_of_mem_take mem)
    exact ⟨by simpa using low, listed⟩
  · have kept : p ∈ (numbered v row 0).filter fun p => j ≤ p.2 :=
      List.mem_filter.mpr ⟨mem, by simpa using low⟩
    rw [← List.take_append_drop n ((numbered v row 0).filter fun p => j ≤ p.2), picked,
      List.mem_append] at kept
    -- An entry that is left for later has a larger number than all that are returned.
    refine kept.resolve_right fun later => ?_
    have := nextIndex_le low fun q hq => sorted.2.2 q hq p later
    omega

section

variable (h : Directory fs dir d l st.world)

include h

/-- What a call returns when the offset is that of slot `j`: entries from there on, up to the new
offset, none of them left out. -/
theorem Directory.advance (step : DirStep fs dir st call st') (countable : Countable fs d call)
    (here : st.offset = (entrySize * j : ℕ)) (inside : j < 2 ^ 31) :
    ∃ j', j ≤ j' ∧ j' < 2 ^ 31 ∧ st'.offset = (entrySize * j' : ℕ) ∧
      (call.returned.map Dirent.off).Pairwise (· < ·) ∧
      (∀ off ∈ call.returned.map Dirent.off, (j : ℤ) < off ∧ off ≤ j') ∧
      ∀ before count entries, call = .list before count entries →
        (∀ e ∈ entries, ∃ k t, LiveAt fs d before k t ∧
          e = direntOf ((volume fs before).data t.1) t.2 k) ∧
        ∀ k t, LiveAt fs d before k t → j ≤ k → entries ≠ [] ∧
          (k < j' → ((k + 1 : ℕ) : ℤ) ∈ entries.map Dirent.off) := by
  cases call with
  | create name mode => exact ⟨j, le_rfl, inside, step.1.trans here, .nil, nofun, nofun⟩
  | unlink name => exact ⟨j, le_rfl, inside, step.1.trans here, .nil, nofun, nofun⟩
  | list before count entries =>
    obtain ⟨picks, picked, made, moved, offs, small⟩ := h.list step countable here inside
    obtain ⟨rfl, positive, -, -⟩ := step
    obtain ⟨sorted, taken, all⟩ := picks_spec picked
    obtain ⟨low, below⟩ := nextIndex_spec sorted fun p mem => (taken p mem).1
    have returned : (DirCall.list st.world count entries).returned = entries := rfl
    refine ⟨_, low, small, moved, ?_, ?_, ?_⟩
    · rw [returned, offs, List.pairwise_map]
      exact sorted.imp fun lt => by omega
    · rw [returned, offs]
      intro off mem
      obtain ⟨p, picked, rfl⟩ := List.mem_map.mp mem
      have := below p picked
      have := (taken p picked).1
      omega
    · rintro _ _ _ ⟨⟩
      refine ⟨fun e mem => ?_, fun k t live from_j => ?_⟩
      · rw [made] at mem
        obtain ⟨⟨t, k⟩, picked, rfl⟩ := List.mem_map.mp mem
        obtain ⟨place, live⟩ := live_of_mem_numbered (taken _ picked).2
        exact ⟨k, t, ⟨l, h.owns, place, live⟩, rfl⟩
      · obtain ⟨l', owns, place, live⟩ := live
        obtain rfl := owns.unique h.ready.geometry h.owns
        have listed := mem_numbered h.tidy place live 0
        rw [Nat.zero_add] at listed
        refine ⟨fun none => ?_, fun before => ?_⟩
        · have empty : picks = [] := by
            rw [none] at made
            exact List.map_eq_nil_iff.mp made.symm
          rw [empty, List.take_eq_nil_iff] at picked
          have left := picked.resolve_left positive.ne'
          rw [List.filter_eq_nil_iff] at left
          exact left _ listed (by simpa using from_j)
        · rw [offs]
          exact List.mem_map.mpr ⟨(t, k), all _ listed from_j before, rfl⟩

/-- The calls from a state on whose offset is that of slot `j`. -/
theorem listing_from
    (run : Run (fun st call st' => DirStep fs dir st call st' ∧ Countable fs d call) st calls st')
    (here : st.offset = (entrySize * j : ℕ)) (inside : j < 2 ^ 31) :
    ((returned calls).map Dirent.off).Pairwise (· < ·) ∧
      (∀ off ∈ (returned calls).map Dirent.off, (j : ℤ) < off) ∧
      (∀ before count entries, .list before count entries ∈ calls → ∀ e ∈ entries,
        ∃ k t, LiveAt fs d before k t ∧ e = direntOf ((volume fs before).data t.1) t.2 k) ∧
      ∀ before count, calls.getLast? = some (.list before count []) → ∀ k t, j ≤ k →
        (∀ before count entries, .list before count entries ∈ calls → LiveAt fs d before k t) →
        ((k + 1 : ℕ) : ℤ) ∈ (returned calls).map Dirent.off := by
  induction run generalizing l j with
  | nil => exact ⟨.nil, nofun, nofun, nofun⟩
  | @cons st st₁ st' call calls step run ih =>
    obtain ⟨ext, h₁⟩ := h.step step.1
    obtain ⟨j', low, small, moved, sorted, range, listed⟩ := h.advance step.1 step.2 here inside
    obtain ⟨sorted', range', sound', complete'⟩ := ih h₁ moved small
    have offs : (returned (call :: calls)).map Dirent.off =
        call.returned.map Dirent.off ++ (returned calls).map Dirent.off := by
      rw [returned, List.flatMap_cons, List.map_append]
      rfl
    rw [offs]
    refine ⟨List.pairwise_append.mpr ⟨sorted, sorted', fun a ha b hb => ?_⟩, fun off mem => ?_,
      fun before count entries mem => ?_, fun before count last k t from_j live => ?_⟩
    · exact lt_of_le_of_lt (range a ha).2 (range' b hb)
    · rcases List.mem_append.mp mem with mem | mem
      · exact (range off mem).1
      · have := range' off mem
        omega
    · rcases List.mem_cons.mp mem with same | mem
      · exact (listed before count entries same.symm).1
      · exact sound' before count entries mem
    · by_cases passed : k < j'
      · -- The offset has passed the slot, so that this call was a listing and has returned the entry.
        refine List.mem_append_left _ ?_
        cases call with
        | list before count entries =>
          have now := live before count entries (List.mem_cons_self ..)
          exact ((listed before count entries rfl).2 k t now from_j).2 passed
        | create name mode =>
          have stays := step.1.1
          rw [here, moved, entrySize] at stays
          omega
        | unlink name =>
          have stays := step.1.1
          rw [here, moved, entrySize] at stays
          omega
      · refine List.mem_append_right _ ?_
        cases calls with
        | nil =>
          rw [List.getLast?_singleton] at last
          cases last
          have now := live before count [] (List.mem_cons_self ..)
          exact absurd rfl ((listed before count [] rfl).2 k t now from_j).1
        | cons next calls =>
          rw [List.getLast?_cons_cons] at last
          exact complete' before count last k t (by omega) fun before count entries mem =>
            live before count entries (List.mem_cons_of_mem _ mem)

theorem liveAt_unique {k : ℕ} (run : Run (DirStep fs dir) st calls st')
    (place : (slotsOf fs l)[k]? = some t) (mem : .list before count entries ∈ calls) {k' : ℕ}
    (live : LiveAt fs d before k' t) : k' = k := by
  induction run generalizing l with
  | nil => cases mem
  | cons step run ih =>
    rcases List.mem_cons.mp mem with rfl | mem
    · obtain ⟨rfl, -⟩ := step
      obtain ⟨l', owns, place', -⟩ := live
      obtain rfl := owns.unique h.ready.geometry h.owns
      have nodup := nodup_slotsOf fs (owns.1.nodup h.ready.geometry)
      have bound := (List.getElem?_eq_some_iff.mp place').1
      exact (List.getElem?_inj bound nodup).mp (place'.trans place.symm)
    · obtain ⟨ext, h₁⟩ := h.step step
      refine ih h₁ ?_ mem
      have bound := (List.getElem?_eq_some_iff.mp place).1
      rw [slotsOf_append, List.getElem?_append_left bound]
      exact place

/-- An entry that is live at every listing has one number. -/
theorem exists_number (run : Run (DirStep fs dir) st calls st')
    (live : ∀ before count entries, .list before count entries ∈ calls →
      ∃ k, LiveAt fs d before k t) :
    ∃ k, ∀ before count entries, .list before count entries ∈ calls → LiveAt fs d before k t := by
  induction run generalizing l with
  | nil => exact ⟨0, nofun⟩
  | @cons st st₁ st' call calls step run ih =>
    obtain ⟨ext, h₁⟩ := h.step step
    obtain ⟨k, later⟩ := ih h₁ fun before count entries mem =>
      live before count entries (List.mem_cons_of_mem _ mem)
    cases call with
    | create name mode =>
      exact ⟨k, fun before count entries mem => later _ _ _ ((List.mem_cons.mp mem).resolve_left nofun)⟩
    | unlink name =>
      exact ⟨k, fun before count entries mem => later _ _ _ ((List.mem_cons.mp mem).resolve_left nofun)⟩
    | list before count entries =>
      obtain ⟨k₀, now⟩ := live before count entries (List.mem_cons_self ..)
      have here : before = st.world := step.1
      refine ⟨k₀, fun before' count' entries' mem => ?_⟩
      rcases List.mem_cons.mp mem with same | mem
      · cases same
        exact now
      · obtain ⟨k', live'⟩ := live before' count' entries' (List.mem_cons_of_mem _ mem)
        have place : (slotsOf fs l)[k₀]? = some t := by
          obtain ⟨l', owns, place, -⟩ := now
          rw [here] at owns
          rwa [owns.unique h.ready.geometry h.owns] at place
        have bound := (List.getElem?_eq_some_iff.mp place).1
        rw [← List.getElem?_append_left bound, ← slotsOf_append] at place
        rwa [liveAt_unique h₁ run place mem live'] at live'

end

/-- A run of calls on an open directory, each listing of which finds less than `2 ^ 31` slots, lists the
directory exactly, and a further listing ends. -/
theorem listing_exact {w : World} (h : Directory fs dir d l w)
    (run : Run (fun st call st' => DirStep fs dir st call st' ∧ Countable fs d call) ⟨w, 0⟩ calls st') :
    ExactListing fs d calls ∧ ∀ count, ∃ result,
      Converges (fun fuel => readdir fs dir st'.offset count fuel st'.world) result := by
  constructor
  · obtain ⟨sorted, -, sound, complete⟩ := listing_from (j := 0) h run rfl (by decide)
    refine ⟨sorted, sound, fun before count last t live => ?_⟩
    obtain ⟨k, number⟩ := exists_number h (run.mono fun _ _ _ step => step.1) live
    have mem := complete before count last k t (Nat.zero_le k) number
    refine ⟨k, number before count [] (List.mem_of_getLast? last), ?_⟩
    have nodup : ((returned calls).map Dirent.off).Nodup := sorted.imp fun lt => lt.ne
    rw [Nat.cast_add, Nat.cast_one] at mem
    exact List.count_eq_one_of_mem nodup mem
  · intro count
    obtain ⟨l', h'⟩ : ∃ l', Directory fs dir d l' st'.world :=
      run.invariant (P := fun st => ∃ l, Directory fs dir d l st.world)
        (fun _ _ _ ⟨_, h⟩ step => (h.step step.1).imp' _ fun _ h => h) ⟨l, h⟩
    obtain ⟨w', ends, -⟩ := readdir_spec (.refl h'.ready) h'.isDir h'.owned st'.offset count rfl
    exact ⟨_, ends⟩

theorem directory_oneFile : Directory smallFs (rootNode smallFs 0 0 0) none [2] oneFile where
  ready := sound_oneFile.ready
  consistent := sound_oneFile.consistent
  denotes := denotes_root ..
  isDir := rootNode_isDirectory ..
  owns := by
    refine ⟨.inl (.last (by decide) ?_), fun _ => by simp⟩
    show eocMin ≤ (volume smallFs oneFile).fat 2
    decide +kernel
  tidy := by
    unfold Tidy
    decide +kernel
  labels := by decide +kernel

/-- One entry is asked for at a time: the file `a`, then none. -/
theorem listing_exact_oneFile : ∃ w₁ st',
    Run (DirStep smallFs (rootNode smallFs 0 0 0)) ⟨oneFile, 0⟩
      [.list oneFile 1 [⟨3, 1, 280, 1, [0x61]⟩], .list w₁ 1 []] st' ∧
    ExactListing smallFs none [.list oneFile 1 [⟨3, 1, 280, 1, [0x61]⟩], .list w₁ 1 []] := by
  have h := directory_oneFile
  have few : ∀ w, Directory smallFs (rootNode smallFs 0 0 0) none [2] w → ∀ l,
      Owns smallFs (volume smallFs w) none l → l.length * smallFs.slots < 2 ^ 31 := by
    intro w h l owns
    rw [owns.unique h.ready.geometry h.owns]
    decide
  obtain ⟨w₁, first, after₁⟩ := readdir_picks (j := 0) (n := 1) (.refl h.ready) h.isDir h.owned
    (by decide) (by decide) (by decide) (show _ = [((2, 0), 0)] by decide +kernel)
  have made : ([((2, 0), 0)] : List (Slot × ℕ)).map (fun p =>
      direntOf ((volume smallFs oneFile).data p.1.1) p.1.2 p.2) = [⟨3, 1, 280, 1, [0x61]⟩] := by
    decide +kernel
  rw [made] at first
  have h₁ := h.same after₁
  have same := after₁.volume
  obtain ⟨w₂, second, after₂⟩ := readdir_picks (j := 1) (n := 1) (.refl h₁.ready) h₁.isDir h₁.owned
    (by decide) (by decide) (by decide) (show _ = [] by rw [same]; decide +kernel)
  have run : Run (fun st call st' => DirStep smallFs (rootNode smallFs 0 0 0) st call st' ∧
      Countable smallFs none call) ⟨oneFile, 0⟩
      [.list oneFile 1 [⟨3, 1, 280, 1, [0x61]⟩], .list w₁ 1 []] ⟨w₂, (entrySize * 1 : ℕ)⟩ :=
    .cons (t := ⟨w₁, (entrySize * 1 : ℕ)⟩) ⟨⟨rfl, by decide, by decide, first⟩, few _ h⟩
      (.cons ⟨⟨rfl, by decide, by decide, second⟩, few _ h₁⟩ (.nil _))
  exact ⟨w₁, _, run.mono fun _ _ _ step => step.1, (listing_exact h run).1⟩

/-! ## A directory that `int` cannot count -/

/-- A volume with clusters of 128 sectors, all of which its root directory takes. -/
def hugeFs : Fs where
  dev := 0
  boot :=
    { bytesPerSector := 512, sectorsPerCluster := 128, reservedSectors := 1, numFats := 1,
      fatSize32 := 8193, totalSectors32 := 134225922, rootCluster := 2 }
  fatOffset := 1
  dataOffset := 8194
  rootCluster := 2
  totalClusters := 1048576
  clusterSize := 65536

/-- The successor of a cluster in the root directory. -/
def hugeNext (c : ℕ) : ℕ := if c = 1048577 then 0x0FFFFFFF else c + 1

/-- The table links every cluster to the next one.  All slots hold deleted entries but the last one, which
holds a file without clusters. -/
def hugeBytes : Bytes := fun k =>
  if k < 8194 * 512 then UInt8.ofNat (hugeNext ((k - 512) / 4) / 256 ^ ((k - 512) % 4))
  else if k = 68723672032 then 0x41
  else if k % 32 = 0 then 0xE5
  else 0

def hugeWorld : World where
  devs := fun _ =>
    { totalSectors := 134225922, present := true, readonly := false, bytes := hugeBytes,
      faults := [], log := [] }
  heap := { next := 1, live := [], misfreed := [], oom := [], junk := fun _ => 0 }

theorem ready_huge : Ready hugeFs hugeWorld where
  geometry := by constructor <;> decide
  device := by constructor <;> decide
  allocator := rfl

theorem fat_huge (valid : hugeFs.Valid c) : (volume hugeFs hugeWorld).fat c = hugeNext c := by
  have bound : c < 1048578 := valid.2
  have byte : ∀ b < 4, (hugeBytes (fatByte hugeFs c + b)).toNat = hugeNext c / 256 ^ b % 256 := by
    intro b hb
    have low : fatByte hugeFs c + b < 8194 * 512 := by
      simp only [fatByte, hugeFs, sectorSize]
      omega
    have place : (fatByte hugeFs c + b - 512) / 4 = c ∧ (fatByte hugeFs c + b - 512) % 4 = b := by
      simp only [fatByte, hugeFs, sectorSize]
      omega
    rw [hugeBytes, if_pos low, place.1, place.2, UInt8.toNat_ofNat']
  have word : hugeNext c < 2 ^ 28 := by
    unfold hugeNext
    split_ifs <;> omega
  show (if hugeFs.Valid c then hugeBytes.le32 (fatByte hugeFs c) % 2 ^ 28 else eocMax) = _
  rw [if_pos valid]
  have b0 := byte 0 (by decide)
  have b1 := byte 1 (by decide)
  have b2 := byte 2 (by decide)
  have b3 := byte 3 (by decide)
  simp only [Nat.add_zero, Nat.pow_zero, Nat.div_one] at b0
  rw [Bytes.le32, Bytes.le16, Bytes.le16, b0, b1, Nat.add_assoc, b2, b3]
  omega

theorem data_huge {i b : ℕ} (valid : hugeFs.Valid c) (hi : i < hugeFs.slots) (hb : b < entrySize) :
    (volume hugeFs hugeWorld).data c (entrySize * i + b) =
      if b = 0 then if c = 1048577 ∧ i = 2047 then 0x41 else 0xE5 else 0 := by
  have index : i < 2048 := hi
  have byte : b < 32 := hb
  have place : clusterByte hugeFs c + (32 * i + b) = 4195328 + 65536 * (c - 2) + 32 * i + b := by
    simp only [clusterByte, hugeFs, sectorSize]
    omega
  show (if hugeFs.Valid c ∧ 32 * i + b < 65536 then hugeBytes (clusterByte hugeFs c + (32 * i + b))
    else 0) = _
  rw [if_pos ⟨valid, by omega⟩, place, hugeBytes, if_neg (by omega)]
  by_cases first : b = 0
  · rw [if_pos first]
    by_cases last : c = 1048577 ∧ i = 2047
    · rw [if_pos last, if_pos (by omega)]
    · rw [if_neg last, if_neg (by omega), if_pos (by omega)]
  · rw [if_neg first, if_neg (by omega), if_neg (by omega)]

section Slots

variable {t : Slot} (valid : hugeFs.Valid t.1) (inside : t.2 < hugeFs.slots)
include valid inside

theorem mark_huge : entryMark ((volume hugeFs hugeWorld).data t.1) t.2 =
    if t = (1048577, 2047) then 0x41 else 0xE5 := by
  simpa [entryMark, Prod.ext_iff] using data_huge (b := 0) valid inside (by decide)

theorem attr_huge : entryAttr ((volume hugeFs hugeWorld).data t.1) t.2 = 0 :=
  data_huge (b := 11) valid inside (by decide)

theorem first_huge : entryFirstCluster ((volume hugeFs hugeWorld).data t.1) t.2 = 0 := by
  have zero : ∀ b, 0 < b → b < 32 →
      (volume hugeFs hugeWorld).data t.1 (entrySize * t.2 + b) = 0 := by
    intro b pos bound
    rw [data_huge valid inside bound, if_neg (by omega)]
  simp [entryFirstCluster, Bytes.le16, Nat.add_assoc, zero]

theorem going_huge : (volume hugeFs hugeWorld).ended t = false := by
  rw [Volume.ended, mark_huge valid inside]
  split_ifs <;> rfl

theorem visible_huge : visible ((volume hugeFs hugeWorld).data t.1) t.2 =
    decide (t = (1048577, 2047)) := by
  rw [visible, isDeleted, isLfn, isVolumeId, attr_huge valid inside, mark_huge valid inside]
  by_cases last : t = (1048577, 2047)
  · simp [last]
  · simp [last]

end Slots

theorem chain_huge {c n : ℕ} (low : 2 ≤ c) (rest : c + n = 1048577) :
    ChainOf hugeFs (volume hugeFs hugeWorld) c (List.range' c (n + 1)) := by
  induction n generalizing c with
  | zero =>
    have valid : hugeFs.Valid c := ⟨low, show c < 1048578 by omega⟩
    refine .last valid ?_
    rw [fat_huge valid, hugeNext, if_pos (by omega)]
    decide
  | succ n ih =>
    have valid : hugeFs.Valid c := ⟨low, show c < 1048578 by omega⟩
    rw [List.range'_succ]
    refine .link valid ?_
    rw [fat_huge valid, hugeNext, if_neg (by omega)]
    exact ih (by omega) (by omega)

/-- The clusters of the root directory: all of the volume. -/
def hugeChain : List ℕ := List.range' 2 1048576

theorem owns_huge : Owns hugeFs (volume hugeFs hugeWorld) none hugeChain :=
  ⟨.inl (chain_huge le_rfl rfl), fun _ => List.cons_ne_nil _ _⟩

theorem reach_huge {o : Owner} (reach : Reach hugeFs (volume hugeFs hugeWorld) o) :
    o = none ∨ o = some (1048577, 2047) := by
  cases reach with
  | root => exact .inl rfl
  | @entry o l s above dir owns mem live =>
    obtain ⟨mem, inside⟩ := mem_slotsOf.mp mem
    have seen := ((Bool.and_eq_true _ _).mp live).2
    rw [visible_huge (owns.1.valid mem) inside, decide_eq_true_eq] at seen
    exact .inr (congrArg some seen)

theorem last_huge : hugeFs.Valid 1048577 ∧ 2047 < hugeFs.slots := by decide

theorem directory_huge : Directory hugeFs (rootNode hugeFs 0 0 0) none hugeChain hugeWorld where
  ready := ready_huge
  consistent := by
    have empty : ∀ {l}, Owns hugeFs (volume hugeFs hugeWorld) (some (1048577, 2047)) l → l = [] := by
      intro l owns
      rcases owns.1 with chain | ⟨-, none⟩
      · have valid := chain.node_head
        rw [Volume.first, first_huge last_huge.1 last_huge.2] at valid
        exact absurd valid (by decide)
      · exact none
    refine ⟨fun o reach => ?_, fun o o' l l' reach reach' different owns owns' => ?_⟩
    · rcases reach_huge reach with rfl | rfl
      · exact ⟨_, owns_huge⟩
      · exact ⟨[], .inr ⟨first_huge last_huge.1 last_huge.2, rfl⟩, fun root => by cases root⟩
    · rcases reach_huge reach with rfl | rfl
      · rcases reach_huge reach' with rfl | rfl
        · exact absurd rfl different
        · rw [empty owns']
          exact List.disjoint_nil_right l
      · rw [empty owns]
        exact List.disjoint_nil_left l'
  denotes := denotes_root ..
  isDir := rootNode_isDirectory ..
  owns := owns_huge
  tidy := by
    refine List.pairwise_of_forall_mem_list fun r mem r' _ ended => ?_
    obtain ⟨mem, inside⟩ := mem_slotsOf.mp mem
    rw [going_huge (owns_huge.1.valid mem) inside] at ended
    cases ended
  labels := by
    intro t mem _
    obtain ⟨mem, inside⟩ := mem_slotsOf.mp mem
    exact first_huge (owns_huge.1.valid mem) inside

theorem listRow_hidden {v : Volume} {entryIndex count : ℤ} {row : List Slot} {k : ℕ} {s : Listing}
    (hidden : ∀ t ∈ row, v.ended t = false ∧ visible (v.data t.1) t.2 = false) (here : s.index = k)
    (small : k + row.length < 2 ^ 31) (room : (s.entries.length : ℤ) < count) :
    listRow v entryIndex count row s = (false, { s with index := (k + row.length : ℕ) }) := by
  induction row generalizing k s with
  | nil =>
    rw [listRow, List.length_nil, Nat.add_zero, ← here]
  | cons t row ih =>
    obtain ⟨⟨going, unseen⟩, others⟩ := List.forall_mem_cons.mp hidden
    rw [List.length_cons] at small ⊢
    have skipped : s.skip = { s with index := (k + 1 : ℕ) } := by
      rw [Listing.skip, here, int32_eq (by omega) (by omega), Nat.cast_add, Nat.cast_one]
    rw [listRow, if_neg (not_le.mpr room), going, unseen]
    simp only [Bool.false_eq_true, if_false, Bool.not_false, if_true]
    have onward := @ih (k + 1) { s with index := (k + 1 : ℕ) } others rfl (by omega) room
    rw [skipped, onward]
    simp only [Nat.add_assoc, Nat.add_comm 1]

/-- All slots of the root directory but the last. -/
def hugeHidden : List Slot :=
  slotsOf hugeFs (List.range' 2 1048575) ++ (List.range' 0 2047).map fun i => (1048577, i)

theorem slotsOf_huge : slotsOf hugeFs hugeChain = hugeHidden ++ [(1048577, 2047)] := by
  have clusters : hugeChain = List.range' 2 1048575 ++ [1048577] := List.range'_1_concat
  have slots : hugeFs.slots = 2048 := rfl
  have indices : List.range' 0 2048 = List.range' 0 2047 ++ [2047] := List.range'_1_concat
  rw [clusters, slotsOf_append, slotsOf_cons, slots, indices, List.map_append, hugeHidden]
  simp only [slotsOf, List.flatMap_nil, List.append_nil, List.append_assoc, List.map_singleton]

theorem length_hugeHidden : hugeHidden.length = 2 ^ 31 - 1 := by
  have whole : hugeChain.length * hugeFs.slots = hugeHidden.length + 1 := by
    rw [← length_slotsOf, slotsOf_huge, List.length_append, List.length_singleton]
  have clusters : hugeChain.length = 1048576 := List.length_range'
  have slots : hugeFs.slots = 2048 := rfl
  rw [clusters, slots] at whole
  omega

theorem hidden_huge {t : Slot} (mem : t ∈ hugeHidden) :
    (volume hugeFs hugeWorld).ended t = false ∧
      visible ((volume hugeFs hugeWorld).data t.1) t.2 = false := by
  have inside : t ∈ slotsOf hugeFs hugeChain := by
    rw [slotsOf_huge]
    exact List.mem_append_left _ mem
  obtain ⟨cluster, index⟩ := mem_slotsOf.mp inside
  have valid := owns_huge.1.valid cluster
  refine ⟨going_huge valid index, ?_⟩
  rw [visible_huge valid index, decide_eq_false_iff_not]
  rintro rfl
  rcases List.mem_append.mp mem with mem | mem
  · have := (mem_slotsOf.mp mem).1
    rw [List.mem_range'_1] at this
    omega
  · simp only [List.mem_map, List.mem_range'_1, Prod.mk.injEq] at mem
    omega

theorem listRow_huge {entryIndex : ℤ} (low : entryIndex < 2 ^ 31) (offset : ℤ) :
    (listRow (volume hugeFs hugeWorld) entryIndex 1 (slotsOf hugeFs hugeChain) ⟨0, [], offset⟩).2 =
      ⟨-2 ^ 31, [direntOf ((volume hugeFs hugeWorld).data 1048577) 2047 (2 ^ 31 - 1)], -2 ^ 36⟩ := by
  have counted := @listRow_hidden (volume hugeFs hugeWorld) entryIndex 1 hugeHidden 0 ⟨0, [], offset⟩
    (fun t mem => hidden_huge mem) rfl (by rw [length_hugeHidden]; decide)
    (show ((0 : ℕ) : ℤ) < 1 by decide)
  rw [slotsOf_huge, listRow_append, counted]
  rw [length_hugeHidden]
  have going := going_huge (t := (1048577, 2047)) last_huge.1 last_huge.2
  have seen := visible_huge (t := (1048577, 2047)) last_huge.1 last_huge.2
  have reached : ¬(((0 + (2 ^ 31 - 1) : ℕ) : ℤ) < entryIndex) := by omega
  have next : int32 (((0 + (2 ^ 31 - 1) : ℕ) : ℤ) + 1) = -2 ^ 31 := by decide
  have back : toOff (u64 (-2 ^ 31 * (entrySize : ℤ))) = -2 ^ 36 := by decide
  simp only [Bool.false_eq_true, if_false, listRow, going, seen, decide_true, Bool.not_true, reached]
  rw [if_neg (show ¬(1 : ℤ) ≤ (([] : List Dirent).length : ℤ) by decide), Listing.add, next, back]
  rfl

/-- With `2 ^ 31` slots, two listings return the same slot. -/
theorem listing_repeats :
    Directory hugeFs (rootNode hugeFs 0 0 0) none hugeChain hugeWorld ∧
    ∃ calls st', Run (DirStep hugeFs (rootNode hugeFs 0 0 0)) ⟨hugeWorld, 0⟩ calls st' ∧
      ¬ExactListing hugeFs none calls := by
  have h := directory_huge
  obtain ⟨w₁, first, after₁⟩ := readdir_spec (.refl h.ready) h.isDir h.owned 0 1
    (listRow_huge (by decide) 0)
  obtain ⟨w₂, second, after₂⟩ := readdir_spec after₁ h.isDir h.owned (-2 ^ 36) 1
    (listRow_huge (by decide) _)
  have run : Run (DirStep hugeFs (rootNode hugeFs 0 0 0)) ⟨hugeWorld, 0⟩
      [.list hugeWorld 1 [_], .list w₁ 1 [_]] ⟨w₂, -2 ^ 36⟩ :=
    .cons (t := ⟨w₁, -2 ^ 36⟩) ⟨rfl, by decide, by decide, first⟩
      (.cons ⟨rfl, by decide, by decide, second⟩ (.nil _))
  refine ⟨h, _, _, run, fun listing => ?_⟩
  have sorted := listing.increasing
  simp [returned, DirCall.returned] at sorted

end Thuban.Fat32

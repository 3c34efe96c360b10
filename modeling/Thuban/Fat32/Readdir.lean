import Thuban.Fat32.Uniqueness

/-!
# Listing a directory

`fat32_readdir` counts the slots of the directory from its first cluster on and keeps the number of the
next slot in the offset of the open file.  Its counters are of type `int`.
-/

namespace Thuban.Fat32

open Lib

/-! ## The function -/

/-- The conversion to `int`, and arithmetic of this type. -/
def int32 (x : ℤ) : ℤ := (BitVec.ofInt 32 x).toInt

/-- `struct dirent`. -/
structure Dirent where
  ino : ℕ
  off : ℤ
  reclen : ℕ
  type : ℕ
  name : CString
  deriving DecidableEq, Repr

/-- `VFS_FILE`. -/
def vfsFile : ℕ := 0x01

/-- `VFS_DIRECTORY`. -/
def vfsDirectory : ℕ := 0x02

/-- `sizeof(struct dirent)`. -/
def direntSize : ℕ := 280

/-- The `dirent` for slot `i` of a cluster when `current_index` is `index`. -/
def direntOf (buf : Bytes) (i : ℕ) (index : ℤ) : Dirent where
  ino := entryFirstCluster buf i
  off := int32 (index + 1)
  reclen := direntSize
  type := if isDirEntry buf i then vfsDirectory else vfsFile
  name := name83ToName (entryName buf i)

/-- `current_index`, the entries that are read, and the offset of the open file. -/
structure Listing where
  index : ℤ
  entries : List Dirent
  offset : ℤ

/-- Count a slot. -/
def Listing.skip (s : Listing) : Listing := { s with index := int32 (s.index + 1) }

/-- Return the entry in slot `i` and count the slot. -/
def Listing.add (s : Listing) (buf : Bytes) (i : ℕ) : Listing where
  index := int32 (s.index + 1)
  entries := s.entries ++ [direntOf buf i s.index]
  offset := toOff (u64 (int32 (s.index + 1) * entrySize))

/-- The loop of `fat32_readdir` over `n` slots of a cluster from slot `i` on; `true` at the end mark. -/
def listSlots (entryIndex count : ℤ) (buf : Bytes) : (n i : ℕ) → Listing → Bool × Listing
  | 0, _, s => (false, s)
  | n + 1, i, s =>
      if count ≤ s.entries.length then (false, s)
      else if entryMark buf i = 0 then (true, s)
      else if !visible buf i then listSlots entryIndex count buf n (i + 1) s.skip
      else if s.index < entryIndex then listSlots entryIndex count buf n (i + 1) s.skip
      else listSlots entryIndex count buf n (i + 1) (s.add buf i)

/-- The loop of `fat32_readdir` over the clusters. -/
def listLoop (fs : Fs) (entryIndex count : ℤ) :
    (fuel cluster : ℕ) → Bytes → Listing → World → Option (Listing × World)
  | 0, _, _, _, _ => none
  | fuel + 1, cluster, buf, s, w =>
      if InChain cluster ∧ s.entries.length < count then
        match readCluster fs cluster buf w with
        | (none, w) => some (s, w)
        | (some buf, w) =>
            match listSlots entryIndex count buf (fs.clusterSize / entrySize) 0 s with
            | (true, s) => some (s, w)
            | (false, s) =>
                match getNextCluster fs cluster w with
                | (next, w) => listLoop fs entryIndex count fuel next buf s w
      else some (s, w)

/-- `fat32_readdir` for an open file at `offset`: the result, the entries, the new offset. -/
def readdir (fs : Fs) (dir : VfsNode) (offset : ℤ) (count : ℕ) (fuel : ℕ) (w : World) :
    Option (ℤ × List Dirent × ℤ × World) :=
  if !dir.isDirectory then some (-1, [], offset, w)
  else
    match w.malloc fs.clusterSize with
    | (none, w) => some (-1, [], offset, w)
    | (some tmp, w) =>
        (listLoop fs (int32 (u64 offset / entrySize : ℕ)) (int32 count) fuel
          dir.fsData.firstCluster w.heap.junk ⟨0, [], offset⟩ w).map fun (s, w) =>
            (s.entries.length, s.entries, s.offset, w.free tmp)

/-! ## The slots in a row -/

/-- The loops of `fat32_readdir` over a list of slots. -/
def listRow (v : Volume) (entryIndex count : ℤ) : List Slot → Listing → Bool × Listing
  | [], s => (false, s)
  | t :: rest, s =>
      if count ≤ s.entries.length then (false, s)
      else if v.ended t then (true, s)
      else if !visible (v.data t.1) t.2 then listRow v entryIndex count rest s.skip
      else if s.index < entryIndex then listRow v entryIndex count rest s.skip
      else listRow v entryIndex count rest (s.add (v.data t.1) t.2)

variable {fs : Fs} {w₀ w : World} {v : Volume} {entryIndex count : ℤ} {l : List ℕ} {c i : ℕ}

variable {buf buf' : Bytes} {row : List Slot} {s : Listing} {k : ℕ}

theorem direntOf_congr (same : SameSlot buf buf' i) (index : ℤ) :
    direntOf buf i index = direntOf buf' i index := by
  simp only [direntOf, same.firstCluster, same.dirEntry, same.name]

theorem add_congr (same : SameSlot buf buf' i) (s : Listing) : s.add buf i = s.add buf' i := by
  simp only [Listing.add, direntOf_congr same]

theorem listSlots_eq {buf : Bytes} (holds : Holds fs v c buf) {n : ℕ} (range : i + n ≤ fs.slots)
    (s : Listing) :
    listSlots entryIndex count buf n i s =
      listRow v entryIndex count ((List.range' i n).map fun i => (c, i)) s := by
  induction n generalizing i s with
  | zero => rfl
  | succ n ih =>
    have same := holds.sameSlot (i := i) (by omega)
    rw [List.range'_succ, List.map_cons, listSlots, listRow]
    simp only [Volume.ended, ← same.mark, ← visible_local _ _ _ same, ← add_congr same,
      decide_eq_true_eq]
    rw [ih (by omega), ih (by omega)]

theorem listRow_append (a b : List Slot) (s : Listing) :
    listRow v entryIndex count (a ++ b) s =
      if (listRow v entryIndex count a s).1 then listRow v entryIndex count a s
      else listRow v entryIndex count b (listRow v entryIndex count a s).2 := by
  induction a generalizing s with
  | nil => rfl
  | cons t a ih =>
    rw [List.cons_append, listRow, listRow]
    by_cases full : count ≤ s.entries.length
    · simp only [if_pos full, Bool.false_eq_true, if_false]
      cases b with
      | nil => rfl
      | cons r b => rw [listRow, if_pos full]
    · simp only [if_neg full]
      by_cases ended : v.ended t = true
      · simp [if_pos ended]
      · simp only [if_neg ended]
        by_cases hidden : (!visible (v.data t.1) t.2) = true
        · simp only [if_pos hidden]
          exact ih _
        · simp only [if_neg hidden]
          by_cases before : s.index < entryIndex
          · simp only [if_pos before]
            exact ih _
          · simp only [if_neg before]
            exact ih _

theorem listRow_full (full : count ≤ s.entries.length) :
    listRow v entryIndex count row s = (false, s) := by
  cases row with
  | nil => rfl
  | cons t row => rw [listRow, if_pos full]

theorem listLoop_end (stops : ¬(InChain c ∧ (s.entries.length : ℤ) < count)) :
    Converges (listLoop fs entryIndex count · c buf s w) (s, w) := by
  refine .step (fun fuel => ?_) (.const fun _ => rfl)
  rw [listLoop, if_neg stops]

theorem listLoop_link (now : Becomes fs w₀ w v) (valid : fs.Valid c)
    (rest : ∀ buf s, Converges (listLoop fs entryIndex count · (v.fat c) buf s w)
      ((listRow v entryIndex count (slotsOf fs l) s).2, w)) (buf : Bytes) (s : Listing) :
    Converges (listLoop fs entryIndex count · c buf s w)
      ((listRow v entryIndex count (slotsOf fs (c :: l)) s).2, w) := by
  by_cases full : count ≤ s.entries.length
  · rw [listRow_full full]
    exact listLoop_end fun more => not_lt.mpr full more.2
  have g := now.ready.geometry
  have holds := holds_blit fs v c buf
  generalize filled : buf.blit 0 (v.data c) 0 fs.clusterSize = buf' at holds
  have scanned := @listSlots_eq fs v entryIndex count c 0 buf' holds fs.slots
    (Nat.zero_add fs.slots).le s
  rw [slotsOf_cons, listRow_append, ← scanned]
  have enter : InChain c ∧ (s.entries.length : ℤ) < count :=
    ⟨g.inChain_of_valid valid, not_le.mp full⟩
  rcases listed : listSlots entryIndex count buf' fs.slots 0 s with ⟨ended, s'⟩
  rw [Fs.slots] at listed
  cases ended with
  | true =>
    refine .step (fun fuel => ?_) (.const fun _ => rfl)
    rw [listLoop, if_pos enter, now.readCluster valid, filled]
    simp [listed]
  | false =>
    refine .step (fun fuel => ?_) (rest buf' s')
    rw [listLoop, if_pos enter, now.readCluster valid, filled]
    simp only [listed, now.getNextCluster]

theorem listLoop_spec (now : Becomes fs w₀ w v) {first : ℕ} (owned : Owned fs v first l) (buf : Bytes)
    (s : Listing) :
    Converges (listLoop fs entryIndex count · first buf s w)
      ((listRow v entryIndex count (slotsOf fs l) s).2, w) := by
  rcases owned with chain | ⟨rfl, rfl⟩
  · induction chain generalizing buf s with
    | last valid ends =>
      refine listLoop_link (l := []) now valid (fun buf s => listLoop_end ?_) buf s
      exact fun more => absurd more.1.2 (not_lt.mpr ends)
    | link valid _ ih => exact listLoop_link now valid ih buf s
  · exact listLoop_end fun more => absurd more.1.1 (by decide)

theorem readdir_spec (now : Becomes fs w₀ w v) {dir : VfsNode} (isDir : dir.isDirectory = true)
    (owned : Owned fs v dir.fsData.firstCluster l) (offset : ℤ) (count : ℕ)
    (listed : (listRow v (int32 (u64 offset / entrySize : ℕ)) (int32 count) (slotsOf fs l)
      ⟨0, [], offset⟩).2 = s) :
    ∃ w', Converges (readdir fs dir offset count · w)
      ((s.entries.length : ℤ), s.entries, s.offset, w') ∧ Becomes fs w₀ w' v := by
  obtain ⟨w₁, allocated, after₁, -⟩ := now.malloc now.ready.geometry.clusterSize_pos
  have ends : Converges (fun fuel => listLoop fs (int32 (u64 offset / entrySize : ℕ)) (int32 count)
      fuel dir.fsData.firstCluster w₁.heap.junk ⟨0, [], offset⟩ w₁) (_, w₁) :=
    listLoop_spec after₁ owned w₁.heap.junk ⟨0, [], offset⟩
  rw [listed] at ends
  refine ⟨w₁.free w.heap.next, ends.imp fun fuel done => ?_, after₁.free _⟩
  simp only [readdir, isDir, Bool.not_true, Bool.false_eq_true, if_false, allocated, done,
    Option.map_some]

/-! ## The numbers of the slots -/

/-- The entries of a row with their numbers, up to the end mark. -/
def numbered (v : Volume) (row : List Slot) (first : ℕ) : List (Slot × ℕ) :=
  ((row.zipIdx first).takeWhile fun p => !v.ended p.1).filter fun p => visible (v.data p.1.1) p.1.2

theorem int32_eq {x : ℤ} (low : -2 ^ 31 ≤ x) (high : x < 2 ^ 31) : int32 x = x := by
  rw [int32, BitVec.toInt_ofInt]
  exact Int.bmod_eq_of_le (by omega) (by omega)

theorem int32_succ (x : ℤ) : int32 (int32 x + 1) = int32 (x + 1) := by
  simp only [int32, BitVec.toInt_ofInt]
  exact Int.bmod_add_bmod

theorem int32_natCast_succ (k : ℕ) : int32 (int32 k + 1) = int32 (k + 1 : ℕ) := by
  rw [int32_succ, Nat.cast_add, Nat.cast_one]

/-- The listing after more entries have been returned. -/
def Listing.extend (v : Volume) (s : Listing) (picks : List (Slot × ℕ)) : List Dirent × ℤ :=
  (s.entries ++ picks.map fun p => direntOf (v.data p.1.1) p.1.2 p.2,
    picks.foldl (fun _ p => (entrySize * (p.2 + 1) : ℕ)) s.offset)

theorem numbered_cons (t : Slot) (row : List Slot) (k : ℕ) :
    numbered v (t :: row) k =
      if v.ended t then [] else
        if visible (v.data t.1) t.2 then (t, k) :: numbered v row (k + 1)
        else numbered v row (k + 1) := by
  rw [numbered, List.zipIdx_cons, List.takeWhile_cons]
  cases v.ended t with
  | true => rfl
  | false =>
    simp only [Bool.not_false, if_true, List.filter_cons]
    rfl

theorem mem_zipIdx_of_mem_numbered {p : Slot × ℕ} (mem : p ∈ numbered v row k) : p ∈ row.zipIdx k :=
  (List.takeWhile_sublist _).subset (List.mem_of_mem_filter mem)

/-- The offset of the open file behind the slot before number `k`. -/
def slotOffset (k : ℕ) : ℤ := toOff (u64 (int32 k * entrySize))

theorem add_eq (here : s.index = int32 k) (buf : Bytes) (i : ℕ) :
    s.add buf i =
      ⟨int32 (k + 1 : ℕ), s.entries ++ [direntOf buf i (int32 k)], slotOffset (k + 1)⟩ := by
  rw [Listing.add, here, int32_natCast_succ, slotOffset]

/-- The entries whose numbers, counted in `int`, are not below `entryIndex` are returned, at most `room` of
them. -/
theorem listRow_numbers {row : List Slot} {k room : ℕ} {s : Listing} (here : s.index = int32 k)
    {picks : List (Slot × ℕ)}
    (picked : ((numbered v row k).filter fun p => entryIndex ≤ int32 p.2).take room = picks) :
    (listRow v entryIndex (s.entries.length + room : ℕ) row s).2.entries =
        s.entries ++ picks.map (fun p => direntOf (v.data p.1.1) p.1.2 (int32 p.2)) ∧
      (listRow v entryIndex (s.entries.length + room : ℕ) row s).2.offset =
        picks.foldl (fun _ p => slotOffset (p.2 + 1)) s.offset := by
  subst picked
  induction row generalizing k room s with
  | nil => simp [listRow, numbered]
  | cons t row ih =>
    cases room with
    | zero =>
      rw [listRow_full (by omega), List.take_zero]
      simp
    | succ room =>
      have more : ¬((s.entries.length + (room + 1) : ℕ) : ℤ) ≤ s.entries.length := by omega
      have next : int32 (s.index + 1) = int32 (k + 1 : ℕ) := by rw [here, int32_natCast_succ]
      rw [listRow, if_neg more, numbered_cons]
      cases ended : v.ended t with
      | true => simp
      | false =>
        simp only [Bool.false_eq_true, if_false]
        have onward := @ih (k + 1) (room + 1) s.skip next
        cases seen : visible (v.data t.1) t.2 with
        | false =>
          simp only [Bool.not_false, if_true, Bool.false_eq_true, if_false]
          exact onward
        | true =>
          simp only [Bool.not_true, Bool.false_eq_true, if_false, if_true, here]
          by_cases before : int32 k < entryIndex
          · rw [if_pos before, List.filter_cons_of_neg (by simpa using before)]
            exact onward
          · rw [if_neg before, List.filter_cons_of_pos (by simpa using before), List.take_succ_cons]
            have added := add_eq here (v.data t.1) t.2
            have onward := @ih (k + 1) room (s.add (v.data t.1) t.2) next
            rw [added] at onward ⊢
            simp only [List.length_append, List.length_singleton, Nat.add_assoc,
              Nat.add_comm 1 room] at onward
            rw [onward.1, onward.2]
            simp

/-! ## Directories that `int` can count -/

theorem slotOffset_eq (small : k < 2 ^ 31) : slotOffset k = (entrySize * k : ℕ) := by
  have bytes : u64 ((k : ℤ) * entrySize) = entrySize * k := by
    rw [u64, entrySize]
    omega
  rw [slotOffset, int32_eq (by omega) (by omega), bytes, entrySize]
  exact Int.bmod_eq_of_le (by omega) (by omega)

theorem listRow_picks {row : List Slot} {k j room : ℕ} {s : Listing} (here : s.index = k)
    (small : k + row.length < 2 ^ 31) :
    ((listRow v j (s.entries.length + room : ℕ) row s).2.entries,
        (listRow v j (s.entries.length + room : ℕ) row s).2.offset) =
      s.extend v (((numbered v row k).filter fun p => j ≤ p.2).take room) := by
  have counted : ∀ p ∈ numbered v row k, p.2 + 1 < 2 ^ 31 ∧ int32 p.2 = p.2 := fun p mem => by
    have bound := (List.mem_zipIdx (mem_zipIdx_of_mem_numbered mem)).2.1
    exact ⟨by omega, int32_eq (by omega) (by omega)⟩
  have same : ((numbered v row k).filter fun p => (j : ℤ) ≤ int32 p.2) =
      (numbered v row k).filter fun p => j ≤ p.2 := by
    apply List.filter_congr
    intro p mem
    rw [(counted p mem).2, decide_eq_decide]
    exact Nat.cast_le
  obtain ⟨entries, offset⟩ := @listRow_numbers v j row k room s
    (here.trans (int32_eq (by omega) (by omega)).symm) _ (congrArg (List.take room) same)
  rw [entries, offset, Listing.extend]
  have kept : ∀ p ∈ ((numbered v row k).filter fun p => j ≤ p.2).take room, p ∈ numbered v row k :=
    fun p mem => List.mem_of_mem_filter (List.mem_of_mem_take mem)
  refine congrArg₂ Prod.mk (congrArg (s.entries ++ ·) ?_) ?_
  · apply List.map_congr_left
    intro p mem
    rw [(counted p (kept p mem)).2]
  · apply List.foldl_ext
    intro _ p mem
    exact slotOffset_eq (counted p (kept p mem)).1

/-! ## One call -/

/-- The number of the slot behind the last one of `picks`, or `j`. -/
def nextIndex (j : ℕ) (picks : List (Slot × ℕ)) : ℕ := picks.foldl (fun _ p => p.2 + 1) j

section Numbers

variable {picks : List (Slot × ℕ)} {row : List Slot} {j k m : ℕ} {t : Slot}

theorem nextIndex_le (begin : j ≤ m) (below : ∀ p ∈ picks, p.2 < m) : nextIndex j picks ≤ m := by
  induction picks generalizing j with
  | nil => exact begin
  | cons p picks ih =>
    obtain ⟨first, others⟩ := List.forall_mem_cons.mp below
    exact ih first others

theorem nextIndex_spec (sorted : picks.Pairwise fun p q => p.2 < q.2) (above : ∀ p ∈ picks, j ≤ p.2) :
    j ≤ nextIndex j picks ∧ ∀ p ∈ picks, p.2 < nextIndex j picks := by
  induction picks generalizing j with
  | nil => exact ⟨le_rfl, nofun⟩
  | cons p picks ih =>
    obtain ⟨later, rest⟩ := List.pairwise_cons.mp sorted
    obtain ⟨low, below⟩ := ih rest later
    have first := (List.forall_mem_cons.mp above).1
    have low : p.2 + 1 ≤ nextIndex j (p :: picks) := low
    exact ⟨by omega, List.forall_mem_cons.mpr ⟨low, below⟩⟩

theorem offset_eq (j : ℕ) (picks : List (Slot × ℕ)) :
    picks.foldl (fun _ p => ((entrySize * (p.2 + 1) : ℕ) : ℤ)) ((entrySize * j : ℕ) : ℤ) =
      (entrySize * nextIndex j picks : ℕ) := by
  induction picks generalizing j with
  | nil => rfl
  | cons p picks ih => exact ih (p.2 + 1)

theorem numbered_sorted (v : Volume) (row : List Slot) (k : ℕ) :
    (numbered v row k).Pairwise fun p q => p.2 < q.2 := by
  have sorted : (row.zipIdx k).Pairwise fun p q => p.2 < q.2 := by
    rw [← List.pairwise_map (R := (· < ·)), List.zipIdx_map_snd]
    exact List.pairwise_lt_range'
  exact sorted.sublist (List.filter_sublist.trans (List.takeWhile_sublist _))

theorem live_of_mem_numbered (mem : (t, k) ∈ numbered v row 0) :
    row[k]? = some t ∧ v.live t = true := by
  obtain ⟨inside, seen⟩ := List.mem_filter.mp mem
  have going := List.mem_takeWhile_imp inside
  have place := List.mem_zipIdx_iff_getElem?.mp ((List.takeWhile_sublist _).subset inside)
  exact ⟨place, by simpa [Volume.live, seen] using going⟩

theorem mem_numbered (tidy : Tidy v row) (here : row[k]? = some t) (live : v.live t = true) (m : ℕ) :
    (t, m + k) ∈ numbered v row m := by
  simp only [Volume.live, Bool.and_eq_true, Bool.not_eq_true'] at live
  induction row generalizing k m with
  | nil => simp at here
  | cons r row ih =>
    obtain ⟨later, rest⟩ := List.pairwise_cons.mp tidy
    rw [numbered_cons]
    cases k with
    | zero =>
      obtain rfl : r = t := by simpa using here
      simp [live.1, live.2]
    | succ k =>
      rw [List.getElem?_cons_succ] at here
      have going : v.ended r = false := by
        by_contra ended
        have := later t (List.mem_of_getElem? here) (by simpa using ended)
        simp [live.1] at this
      have mem := ih rest here (m + 1)
      rw [show m + 1 + k = m + (k + 1) by omega] at mem
      rw [going]
      simp only [Bool.false_eq_true, if_false]
      split_ifs
      · exact List.mem_cons_of_mem _ mem
      · exact mem

end Numbers

theorem readdir_picks (now : Becomes fs w₀ w v) {dir : VfsNode} (isDir : dir.isDirectory = true)
    (owned : Owned fs v dir.fsData.firstCluster l) (small : (slotsOf fs l).length < 2 ^ 31) {j n : ℕ}
    (inside : j < 2 ^ 31) (word : n < 2 ^ 31) {picks : List (Slot × ℕ)}
    (picked : ((numbered v (slotsOf fs l) 0).filter fun p => j ≤ p.2).take n = picks) :
    ∃ w', Converges (fun fuel => readdir fs dir (entrySize * j : ℕ) n fuel w)
        ((picks.length : ℤ), picks.map fun p => direntOf (v.data p.1.1) p.1.2 p.2,
          ((entrySize * nextIndex j picks : ℕ) : ℤ), w') ∧ Becomes fs w₀ w' v := by
  have index : int32 (u64 ((entrySize * j : ℕ) : ℤ) / entrySize : ℕ) = j := by
    have whole : u64 ((entrySize * j : ℕ) : ℤ) / entrySize = j := by
      rw [u64, entrySize]
      omega
    rw [whole, int32_eq (by omega) (by omega)]
  have limit : int32 n = ((([] : List Dirent).length + n : ℕ) : ℤ) := by
    rw [int32_eq (by omega) (by omega), List.length_nil, Nat.zero_add]
  have listed := @listRow_picks v (slotsOf fs l) 0 j n ⟨0, [], (entrySize * j : ℕ)⟩ rfl (by omega)
  rw [picked, Listing.extend, Prod.mk.injEq, List.nil_append, offset_eq] at listed
  obtain ⟨w', ends, after⟩ := readdir_spec now isDir owned (entrySize * j : ℕ) n rfl
  rw [index, limit] at ends
  rw [listed.1, listed.2, List.length_map] at ends
  exact ⟨w', ends, after⟩

/-! ## The directory under changes -/

theorem Created.not_labelled {v' : Volume} {name : CString} {mode new : ℕ} {ext : List ℕ} {s : Slot}
    (created : Created fs v v' l name mode new ext s) : v'.labelled s = false := by
  have attr := entryAttr_fillEntry (if s.1 ∈ ext then fun _ => 0 else v.data s.1) s.2 name mode new
  rw [← created.dataSlot] at attr
  have label : isVolumeId (v'.data s.1) s.2 = false := by
    simp only [isVolumeId, attr]
    split <;> decide
  simp [Volume.labelled, label]

/-- The node `dir` stands for a directory with the clusters `l` on a consistent volume: it has end marks
only behind end marks, and volume labels that own no clusters. -/
structure Directory (fs : Fs) (dir : VfsNode) (d : Owner) (l : List ℕ) (w : World) : Prop where
  ready : Ready fs w
  consistent : Consistent fs (volume fs w)
  denotes : Denotes fs (volume fs w) dir d
  isDir : dir.isDirectory = true
  owns : Owns fs (volume fs w) d l
  tidy : Tidy (volume fs w) (slotsOf fs l)
  labels : ∀ t ∈ slotsOf fs l, (volume fs w).labelled t = true →
    entryFirstCluster ((volume fs w).data t.1) t.2 = 0

namespace Directory

variable {dir : VfsNode} {d : Owner} {w' : World}

theorem owned (h : Directory fs dir d l w) : Owned fs (volume fs w) dir.fsData.firstCluster l :=
  h.denotes.owned h.owns

theorem same (h : Directory fs dir d l w) (after : Becomes fs w w' (volume fs w)) :
    Directory fs dir d l w' := by
  have volume := after.volume
  exact ⟨after.ready, volume ▸ h.consistent, volume ▸ h.denotes, h.isDir, volume ▸ h.owns,
    volume ▸ h.tidy, volume ▸ h.labels⟩

variable {name : CString} {r : ℤ}

/-- `fat32_create` in the directory keeps it a directory; its clusters can only become more. -/
theorem create (h : Directory fs dir d l w) {mode : ℕ}
    (done : Converges (Fat32.create fs dir name mode · w) (r, w')) :
    ∃ ext, Directory fs dir d (l ++ ext) w' := by
  have g := h.ready.geometry
  obtain ⟨chain, layout⟩ := h.consistent.exists_layout
  have reach := h.denotes.reach
  obtain rfl := h.owns.unique g (layout.owns d reach)
  obtain ⟨r', w'', ends, result⟩ := create_spec (.refl h.ready) h.isDir h.owned name mode
  cases done.unique ends
  have unchanged : Becomes fs w w' (volume fs w) → ∃ ext, Directory fs dir d (chain d ++ ext) w' :=
    fun after => ⟨[], by rw [List.append_nil]; exact h.same after⟩
  split at result
  · rename_i wanted
    rcases result with ⟨-, v', new, ext, s, created, after⟩ | ⟨-, after | ⟨c, -, free, after⟩⟩
    · obtain rfl := after.volume
      have evolves := create_evolves layout reach created g
      have owns := create_owns layout reach created g reach
      rw [Function.update_self] at owns
      refine ⟨ext, after.ready, evolves.consistent, h.denotes.evolve evolves (Set.notMem_empty _),
        h.isDir, owns, create_tidy g layout reach created h.tidy wanted.1, fun t mem labelled => ?_⟩
      by_cases new : t = s
      · subst new
        simp [created.not_labelled] at labelled
      rw [slotsOf_append, List.mem_append] at mem
      rcases mem with old | grown
      · have same := create_sameEntry layout created reach old new
        rw [same.labelled] at labelled
        rw [same.first]
        exact h.labels t old labelled
      · have ended := create_taken created (List.mem_cons_of_mem _ (mem_slotsOf.mp grown).1) new
        simp [Volume.labelled, Volume.ended, ended] at labelled
    · exact unchanged after
    · obtain volume := after.volume
      have evolves := zero_evolves layout g free
      have same : ∀ t ∈ slotsOf fs (chain d), SameEntry (Fat32.volume fs w) (Fat32.volume fs w') t :=
        fun t mem => volume ▸ zero_sameEntry layout free reach mem
      rw [← volume] at evolves
      have owns := (zero_layout layout g free).owns d reach
      refine ⟨[], ?_⟩
      rw [List.append_nil]
      refine ⟨after.ready, evolves.consistent, h.denotes.evolve evolves (Set.notMem_empty _), h.isDir,
        volume ▸ owns, h.tidy.congr same, fun t mem labelled => ?_⟩
      rw [(same t mem).labelled] at labelled
      rw [(same t mem).first]
      exact h.labels t mem labelled
  · exact unchanged result.2

/-- `fat32_unlink` in the directory erases one slot at most. -/
theorem unlink (h : Directory fs dir d l w)
    (done : Converges (Fat32.unlink fs dir name · w) (r, w')) :
    Directory fs dir d l w' := by
  have g := h.ready.geometry
  obtain ⟨chain, layout⟩ := h.consistent.exists_layout
  have reach := h.denotes.reach
  obtain rfl := h.owns.unique g (layout.owns d reach)
  have dirD : (volume fs w).isDir d = true := h.denotes.kind ▸ h.isDir
  -- What is erased is a regular file, or a label, which has no clusters.
  have target : ∀ s, find fs (volume fs w) (unlinkMatch name) (chain d) = some s →
      (volume fs w).isDir (some s) = false ∧ (volume fs w).ended s = false ∧
        (∃ l', Freed fs (volume fs w) (entryFirstCluster ((volume fs w).data s.1) s.2) l') ∧
        ∀ l', Freed fs (volume fs w) (entryFirstCluster ((volume fs w).data s.1) s.2) l' →
          (Reach fs (volume fs w) (some s) ∧ l' = chain (some s)) ∨ l' = [] := by
    intro s found
    have mem := mem_slotsOf.mpr (find_mem found)
    obtain ⟨_, _, -, going, hit, -⟩ := exists_of_firstHit_eq_some found
    cases label : (volume fs w).labelled s with
    | true =>
      have regular : (volume fs w).isDir (some s) = false := by
        simp only [unlinkMatch, Bool.and_eq_true, Bool.not_eq_true'] at hit
        exact hit.1.2
      rw [h.labels s mem label]
      refine ⟨regular, going, ⟨[], .inr ⟨by decide, rfl⟩⟩, fun l' freed => .inr ?_⟩
      rcases freed with chain' | ⟨-, rfl⟩
      · exact absurd (Chain.node_of_mem chain' (List.mem_of_getElem? (Chain.getElem?_zero chain'))).1
          (by decide)
      · rfl
    | false =>
      obtain ⟨regular, named⟩ := lookupMatch_of_unlinkMatch going label hit
      have reached : Reach fs (volume fs w) (some s) := by
        refine .entry reach dirD (layout.owns d reach) mem ?_
        simp only [lookupMatch, Bool.and_eq_true] at named
        simp [Volume.live, going, named.1]
      have owner := (layout.owns _ reached).1
      exact ⟨regular, going, ⟨_, owner.freed⟩, fun l' freed =>
        .inl ⟨reached, owner.eq_of_freed g freed⟩⟩
  obtain ⟨r', w'', ends, result⟩ := unlink_spec (.refl h.ready) h.isDir h.owned name
    fun s found => (target s found).2.2.1
  cases done.unique ends
  cases found : find fs (volume fs w) (unlinkMatch name) (chain d) with
  | none =>
    rw [found] at result
    exact h.same result.2
  | some s =>
    rw [found] at result
    obtain ⟨-, l', freed, after⟩ := result
    obtain ⟨regular, going, -, released⟩ := target s found
    have released := released l' freed
    have stays : d ∉ ({some s} : Set Owner) := by
      rintro rfl
      rw [regular] at dirD
      cases dirD
    have evolves := remove_evolves layout g released regular
    have owns := (layout.remove released).owns d ⟨reach, stays⟩
    have ended : ∀ t, (((volume fs w).release l').erase s).ended t = (volume fs w).ended t := by
      intro t
      by_cases erased : t = s
      · subst erased
        rw [going]
        simp [Volume.ended, entryMark, Volume.erase]
      · exact (erase_sameEntry erased).ended
    have volume := after.volume
    rw [← volume] at evolves owns ended
    refine ⟨after.ready, evolves.consistent, h.denotes.evolve evolves stays, h.isDir, owns, ?_,
      fun t mem labelled => ?_⟩
    · refine List.Pairwise.imp (fun {a b} rule => ?_) h.tidy
      rwa [ended, ended]
    · by_cases erased : t = s
      · subst erased
        rw [volume] at labelled
        simp [Volume.labelled, isDeleted, entryMark, Volume.erase] at labelled
      · have same := erase_sameEntry (v := Fat32.volume fs w) (l := l') erased
        rw [← volume] at same
        rw [same.labelled] at labelled
        rw [same.first]
        exact h.labels t mem labelled

end Directory

end Thuban.Fat32

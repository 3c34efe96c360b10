import Thuban.Fat32.Listing

/-!
# Lookup and listing

`fat32_lookup` and a listing by `fat32_readdir` see the same entries as long as the number of a slot fits
in an `int`.  The number of the slot behind slot `2 ^ 31 - 1` is negative: a listing that returns that slot
starts over and never ends, and entries in later slots are passed over.
-/

namespace Thuban.Fat32

open Lib

/-! ## Pages of a list -/

theorem int32_bounds (x : ℤ) : -2 ^ 31 ≤ int32 x ∧ int32 x < 2 ^ 31 := by
  rw [int32]
  exact ⟨BitVec.le_toInt _, BitVec.toInt_lt⟩

/-- Where a listing goes on behind the entries `picks`. -/
def behind (e : ℤ) (picks : List (Slot × ℕ)) : ℤ := picks.foldl (fun _ p => int32 (p.2 + 1 : ℕ)) e

/-- The entries of `row` are returned page by page, from number `e` on, until there are no more. -/
inductive Pages (row : List (Slot × ℕ)) : ℤ → List (Slot × ℕ) → Prop
  | done {e : ℤ} (none : ∀ p ∈ row, int32 p.2 < e) : Pages row e []
  | more {e : ℤ} {n : ℕ} {picks rest : List (Slot × ℕ)} (pos : 0 < n) (word : n < 2 ^ 31)
      (picked : (row.filter fun p => e ≤ int32 p.2).take n = picks) (some : picks ≠ [])
      (next : Pages row (behind e picks) rest) : Pages row e (picks ++ rest)

theorem behind_le {e m : ℤ} {picks : List (Slot × ℕ)} (begin : e ≤ m)
    (below : ∀ p ∈ picks, int32 (p.2 + 1 : ℕ) ≤ m) : behind e picks ≤ m := by
  induction picks generalizing e with
  | nil => exact begin
  | cons p picks ih =>
    obtain ⟨first, others⟩ := List.forall_mem_cons.mp below
    exact ih first others

namespace Pages

variable {row pages : List (Slot × ℕ)} {e : ℤ} {p : Slot × ℕ}

theorem mem (listed : Pages row e pages) (mem : p ∈ pages) : p ∈ row := by
  induction listed with
  | done => cases mem
  | more _ _ picked _ _ ih =>
    rcases List.mem_append.mp mem with here | later
    · subst picked
      exact List.mem_of_mem_filter (List.mem_of_mem_take here)
    · exact ih later

theorem endless (mem : p ∈ row) (last : int32 p.2 = 2 ^ 31 - 1) (inside : e < 2 ^ 31) :
    ¬ Pages row e pages := by
  intro listed
  induction listed with
  | done none =>
    have := none p mem
    omega
  | @more e n picks rest _ _ _ _ _ ih =>
    apply ih
    have := @behind_le e (2 ^ 31 - 1) picks (by omega) fun q _ => by
      have := (int32_bounds (q.2 + 1 : ℕ)).2
      omega
    omega

theorem exists_of_counted (counted : ∀ p ∈ row, int32 p.2 ≠ 2 ^ 31 - 1) (e : ℤ) :
    ∃ pages, Pages row e pages := by
  induction left : (2 ^ 31 - e).toNat using Nat.strong_induction_on generalizing e with
  | _ n ih =>
    cases found : row.filter fun p => e ≤ int32 p.2 with
    | nil =>
      refine ⟨[], .done fun p mem => ?_⟩
      rw [List.filter_eq_nil_iff] at found
      simpa using found p mem
    | cons p others =>
      have here : p ∈ row.filter fun p => e ≤ int32 p.2 := found ▸ List.mem_cons_self ..
      obtain ⟨mem, reached⟩ := List.mem_filter.mp here
      rw [decide_eq_true_eq] at reached
      have bounds := int32_bounds p.2
      have room := counted p mem
      have next : behind e [p] = int32 p.2 + 1 := by
        show int32 (p.2 + 1 : ℕ) = _
        rw [← int32_natCast_succ]
        exact int32_eq (by omega) (by omega)
      obtain ⟨rest, listed⟩ := ih (2 ^ 31 - behind e [p]).toNat (by omega) (behind e [p]) rfl
      refine ⟨[p] ++ rest, .more Nat.one_pos (by decide) ?_ (List.cons_ne_nil _ _) listed⟩
      rw [found]
      rfl

/-- The first entry of a kind comes first of its kind, if its number is counted right. -/
theorem find_first {hit : Slot × ℕ → Bool} (sorted : row.Pairwise fun p q => p.2 < q.2)
    (first : row.find? hit = some p) (small : p.2 < 2 ^ 31) (listed : Pages row e pages)
    (begin : e ≤ p.2) : pages.find? hit = some p := by
  obtain ⟨accepted, before, after, split, missed⟩ := List.find?_eq_some_iff_append.mp first
  have number : int32 p.2 = p.2 := int32_eq (by omega) (by omega)
  have missed : ∀ q ∈ before, hit q = false := fun q hq => by simpa using missed q hq
  induction listed with
  | done none =>
    have := none p (split ▸ List.mem_append_right _ (List.mem_cons_self ..))
    omega
  | @more e n picks rest pos word picked some next ih =>
    have kept : (row.filter fun p => e ≤ int32 p.2) =
        (before.filter fun p => e ≤ int32 p.2) ++ p :: after.filter fun p => e ≤ int32 p.2 := by
      rw [split, List.filter_append, List.filter_cons_of_pos (by simpa [number] using begin)]
    rw [kept, List.take_append] at picked
    have none : ((before.filter fun p => e ≤ int32 p.2).take n).find? hit = none := by
      rw [List.find?_eq_none]
      intro q hq
      rw [missed q (List.mem_of_mem_filter (List.mem_of_mem_take hq))]
      exact Bool.false_ne_true
    rw [← picked, List.append_assoc, List.find?_append, none, Option.none_or]
    cases rest' : n - (before.filter fun p => e ≤ int32 p.2).length with
    | succ m =>
      rw [List.take_succ_cons, List.cons_append, List.find?_cons_of_pos accepted]
    | zero =>
      rw [List.take_zero, List.nil_append]
      apply ih
      apply behind_le begin
      intro q hq
      rw [← picked, rest', List.take_zero, List.append_nil] at hq
      have earlier : q.2 < p.2 := by
        rw [split, List.pairwise_append] at sorted
        exact sorted.2.2 q (List.mem_of_mem_filter (List.mem_of_mem_take hq)) p (List.mem_cons_self ..)
      rw [int32_eq (by omega) (by omega)]
      omega

end Pages

/-! ## Listings -/

variable {fs : Fs} {w₀ w w' : World} {v : Volume} {dir : VfsNode} {l : List ℕ} {name : CString}

/-- `entry_index` of a call at the offset. -/
def startIndex (offset : ℤ) : ℤ := int32 (u64 offset / entrySize : ℕ)

theorem toNat_bmod (n m : ℕ) : ((n : ℤ).bmod m % (m : ℤ)).toNat = n % m := by
  rw [Int.bmod_emod, ← Int.natCast_mod, Int.toNat_natCast]

theorem u64_toOff (n : ℕ) : u64 (toOff n) = n % 2 ^ 64 := by
  have same := toNat_bmod n (2 ^ 64)
  rw [Nat.cast_pow, Nat.cast_ofNat] at same
  exact same

theorem startIndex_slotOffset (k : ℕ) : startIndex (slotOffset k) = int32 k := by
  obtain ⟨low, high⟩ := int32_bounds k
  rw [startIndex, slotOffset, u64_toOff, u64, entrySize]
  generalize int32 k = x at low high
  rcases Int.lt_or_le x 0 with negative | positive
  · have number : (((x * (32 : ℕ) % 2 ^ 64).toNat % 2 ^ 64 / 32 : ℕ) : ℤ) =
        x + ((2 ^ 32 : ℕ) : ℤ) * 2 ^ 27 := by omega
    rw [number, int32, BitVec.toInt_ofInt, Int.add_mul_bmod_self_left]
    exact Int.bmod_eq_of_le (by omega) (by omega)
  · have number : (((x * (32 : ℕ) % 2 ^ 64).toNat % 2 ^ 64 / 32 : ℕ) : ℤ) = x := by omega
    rw [number]
    exact int32_eq low high

theorem startIndex_foldl (offset : ℤ) (picks : List (Slot × ℕ)) :
    startIndex (picks.foldl (fun _ p => slotOffset (p.2 + 1)) offset) =
      behind (startIndex offset) picks := by
  induction picks generalizing offset with
  | nil => rfl
  | cons p picks ih =>
    rw [List.foldl_cons, ih, startIndex_slotOffset]
    rfl

/-- Calls of `fat32_readdir` with counts between 1 and `INT_MAX`, from the offset on until one returns
nothing, and all entries that they return. -/
inductive Enumeration (fs : Fs) (dir : VfsNode) : World → ℤ → List Dirent → Prop
  | done {w w' : World} {offset offset' : ℤ} {count : ℕ} (pos : 0 < count) (word : count < 2 ^ 31)
      (listed : Converges (fun fuel => readdir fs dir offset count fuel w) (0, [], offset', w')) :
      Enumeration fs dir w offset []
  | more {w w' : World} {offset offset' : ℤ} {count : ℕ} {entries rest : List Dirent}
      (pos : 0 < count) (word : count < 2 ^ 31) (some : entries ≠ [])
      (listed : Converges (fun fuel => readdir fs dir offset count fuel w)
        ((entries.length : ℤ), entries, offset', w'))
      (next : Enumeration fs dir w' offset' rest) : Enumeration fs dir w offset (entries ++ rest)

def entryOf (v : Volume) (p : Slot × ℕ) : Dirent := direntOf (v.data p.1.1) p.1.2 (int32 p.2)

section

variable (now : Becomes fs w₀ w v) (isDir : dir.isDirectory = true)
  (owned : Owned fs v dir.fsData.firstCluster l) (offset : ℤ)

include now isDir owned offset

theorem readdir_numbers {n : ℕ} (word : n < 2 ^ 31) {picks : List (Slot × ℕ)}
    (picked : ((numbered v (slotsOf fs l) 0).filter fun p => startIndex offset ≤ int32 p.2).take n =
      picks) :
    ∃ offset' w', Converges (readdir fs dir offset n · w)
        ((picks.length : ℤ), picks.map (entryOf v), offset', w') ∧
      startIndex offset' = behind (startIndex offset) picks ∧ Becomes fs w₀ w' v := by
  have zero : (0 : ℤ) = int32 (0 : ℕ) := by decide
  obtain ⟨entries, moved⟩ := @listRow_numbers v (startIndex offset) (slotsOf fs l) 0 n
    ⟨0, [], offset⟩ zero picks picked
  have room : int32 n = ((([] : List Dirent).length + n : ℕ) : ℤ) := by
    rw [int32_eq (by omega) (by omega), List.length_nil, Nat.zero_add]
  obtain ⟨w', listed, after⟩ := readdir_spec now isDir owned offset n rfl
  rw [room] at listed
  rw [startIndex] at entries moved
  rw [entries, moved, List.nil_append, List.length_map] at listed
  exact ⟨_, w', listed, startIndex_foldl offset picks, after⟩

/-- A full listing goes through the numbered entries page by page. -/
theorem enumeration_iff (entries : List Dirent) :
    Enumeration fs dir w offset entries ↔
      ∃ pages, Pages (numbered v (slotsOf fs l) 0) (startIndex offset) pages ∧
        entries = pages.map (entryOf v) := by
  constructor
  · intro listing
    induction listing with
    | @done w w' offset offset' count pos word listed =>
      obtain ⟨_, _, listed', -⟩ := readdir_numbers now isDir owned offset word rfl
      have same := listed.unique listed'
      have empty := List.map_eq_nil_iff.mp (congrArg (·.2.1) same).symm
      refine ⟨[], .done fun p mem => ?_, rfl⟩
      rw [List.take_eq_nil_iff, or_iff_right pos.ne', List.filter_eq_nil_iff] at empty
      simpa using empty p mem
    | @more w w' offset offset' count entries rest pos word some listed next ih =>
      obtain ⟨_, _, listed', index, after⟩ := readdir_numbers now isDir owned offset word rfl
      obtain ⟨-, same⟩ := Prod.mk.inj (listed.unique listed')
      obtain ⟨sameEntries, same⟩ := Prod.mk.inj same
      cases same
      subst sameEntries
      obtain ⟨pages, paged, rfl⟩ := ih after
      rw [index] at paged
      refine ⟨_, .more pos word rfl ?_ paged, (List.map_append ..).symm⟩
      rintro empty
      rw [empty] at some
      exact some rfl
  · rintro ⟨pages, paged, rfl⟩
    generalize begin : startIndex offset = e at paged
    induction paged generalizing w offset with
    | done none =>
      have empty : ((numbered v (slotsOf fs l) 0).filter fun p => startIndex offset ≤ int32 p.2).take 1 =
          [] := by
        rw [List.filter_eq_nil_iff.mpr fun p mem => by simpa [begin] using none p mem, List.take_nil]
      obtain ⟨_, _, listed, -⟩ := readdir_numbers now isDir owned offset (by decide) empty
      exact .done Nat.one_pos (by decide) listed
    | more pos word picked some next ih =>
      subst begin
      obtain ⟨offset', w', listed, index, after⟩ := readdir_numbers now isDir owned offset word picked
      rw [← List.length_map (f := entryOf v)] at listed
      rw [List.map_append]
      exact .more pos word (mt List.map_eq_nil_iff.mp some) listed (ih after offset' index)

end

/-! ## Lookup -/

theorem firstHit_numbered (name : CString) (row : List Slot) (k : ℕ) :
    firstHit v.ended (fun t => lookupMatch name (v.data t.1) t.2) row =
      ((numbered v row k).find? fun p => (entryOf v p).name = name).map Prod.fst := by
  induction row generalizing k with
  | nil => rfl
  | cons t row ih =>
    rw [firstHit, numbered_cons]
    cases v.ended t with
    | true => rfl
    | false =>
      have matched : lookupMatch name (v.data t.1) t.2 =
        (visible (v.data t.1) t.2 && decide (name83ToName (entryName (v.data t.1) t.2) = name)) := rfl
      rw [matched]
      cases visible (v.data t.1) t.2 with
      | false =>
        simp only [Bool.false_and, Bool.false_eq_true, if_false]
        exact ih (k + 1)
      | true =>
        simp only [Bool.true_and, Bool.false_eq_true, if_false, decide_eq_true_eq, if_true]
        by_cases same : name83ToName (entryName (v.data t.1) t.2) = name
        · have hit : decide ((entryOf v (t, k)).name = name) = true := decide_eq_true same
          rw [if_pos same, List.find?_cons, hit]
          rfl
        · have missed : decide ((entryOf v (t, k)).name = name) = false := decide_eq_false same
          rw [if_neg same, List.find?_cons, missed]
          exact ih (k + 1)

/-- `fat32_lookup` has found what a full listing says: no node if no entry has the name; otherwise a node
with the inode, the kind and the name of the first such entry, which leads to the slot of that entry. -/
def AgreesWith (fs : Fs) (l : List ℕ) (entries : List Dirent) (name : CString) :
    Option VfsNode → Prop
  | none => ∀ e ∈ entries, e.name ≠ name
  | some node => ∃ e, entries.find? (fun e => e.name = name) = some e ∧ node.inode = e.ino ∧
      (node.isDirectory = true ↔ e.type = vfsDirectory) ∧ node.name = e.name ∧
      ∃ k : ℕ, e.off = (k + 1 : ℕ) ∧
        (slotsOf fs l)[k]? = some (node.fsData.dirCluster, node.fsData.dirOffset)

/-- No entry of the directory has the last number of an `int`, and the first entry with the name is among
the first `2 ^ 31` slots. -/
def Listable (fs : Fs) (v : Volume) (l : List ℕ) (name : CString) : Prop :=
  (∀ p ∈ numbered v (slotsOf fs l) 0, int32 p.2 ≠ 2 ^ 31 - 1) ∧
    ∀ p, (numbered v (slotsOf fs l) 0).find? (fun p => (entryOf v p).name = name) = some p →
      p.2 < 2 ^ 31

variable {pages : List (Slot × ℕ)} {p : Slot × ℕ}

theorem agreesWith_none {e : ℤ}
    (absent : (numbered v (slotsOf fs l) 0).find? (fun p => (entryOf v p).name = name) = none)
    (paged : Pages (numbered v (slotsOf fs l) 0) e pages) :
    AgreesWith fs l (pages.map (entryOf v)) name none := by
  rw [List.find?_eq_none] at absent
  intro entry mem
  obtain ⟨p, listed, rfl⟩ := List.mem_map.mp mem
  simpa using absent p (paged.mem listed)

theorem agreesWith_some (first : pages.find? (fun p => (entryOf v p).name = name) = some p)
    (mem : p ∈ numbered v (slotsOf fs l) 0) (small : p.2 + 1 < 2 ^ 31) (addr fsDataAddr : ℕ) :
    AgreesWith fs l (pages.map (entryOf v)) name
      (some (nodeOf dir p.1.1 p.1.2 (v.data p.1.1) addr fsDataAddr)) := by
  refine ⟨entryOf v p, ?_, rfl, ?_, ?_, p.2, ?_, (live_of_mem_numbered mem).1⟩
  · rw [List.find?_map]
    exact congrArg (Option.map (entryOf v)) first
  · rw [nodeOf_isDirectory]
    cases kind : isDirEntry (v.data p.1.1) p.1.2 with
    | true => simp [entryOf, direntOf, kind]
    | false => simp [entryOf, direntOf, kind, vfsFile, vfsDirectory]
  · have short := length_name83ToName_le (entryName (v.data p.1.1) p.1.2)
    exact List.take_of_length_le (by omega)
  · show int32 (int32 p.2 + 1) = _
    rw [int32_natCast_succ]
    exact int32_eq (by omega) (by omega)

theorem not_agreesWith_of_far (nodup : l.Nodup) (mem : p ∈ numbered v (slotsOf fs l) 0)
    (far : 2 ^ 31 ≤ p.2) (addr fsDataAddr : ℕ) :
    ¬ AgreesWith fs l (pages.map (entryOf v)) name
      (some (nodeOf dir p.1.1 p.1.2 (v.data p.1.1) addr fsDataAddr)) := by
  rintro ⟨entry, found, -, -, -, k, off, place⟩
  obtain ⟨q, -, rfl⟩ := List.mem_map.mp (List.mem_of_find?_eq_some found)
  have bound : (entryOf v q).off < 2 ^ 31 := (int32_bounds _).2
  have here := (live_of_mem_numbered mem).1
  have same : k = p.2 := by
    have inside := (List.getElem?_eq_some_iff.mp place).1
    exact (List.getElem?_inj inside (nodup_slotsOf fs nodup)).mp (place.trans here.symm)
  omega

/-- `fat32_lookup` of any name in any directory without cycles: a full listing of the directory exists and
each agrees with the result, if the directory is listable for the name, and only then. -/
theorem lookup_agrees_iff (ready : Ready fs w) (isDir : dir.isDirectory = true)
    (owned : Owned fs (volume fs w) dir.fsData.firstCluster l) (name : CString) :
    ∃ found w', Converges (fun fuel => lookup fs dir name fuel w) (found, w') ∧
      (((∃ entries, Enumeration fs dir w 0 entries) ∧
          ∀ entries, Enumeration fs dir w 0 entries → AgreesWith fs l entries name found) ↔
        Listable fs (volume fs w) l name) := by
  have now := Becomes.refl ready
  obtain ⟨found, w', looked, -, -, made⟩ := lookup_spec now isDir owned name
  refine ⟨found, w', looked, ?_⟩
  have start : startIndex 0 = 0 := by decide
  have paged := fun entries => enumeration_iff now isDir owned 0 entries
  simp only [start] at paged
  have hit : find fs (volume fs w) (lookupMatch name) l = _ :=
    firstHit_numbered name (slotsOf fs l) 0
  rw [Looked, hit] at made
  constructor
  · rintro ⟨⟨entries, listing⟩, agrees⟩
    obtain ⟨pages, listed, rfl⟩ := (paged entries).mp listing
    refine ⟨fun p mem last => Pages.endless mem last (by decide) listed, fun p first => ?_⟩
    by_contra far
    rw [first] at made
    obtain ⟨addr, fsDataAddr, rfl, -⟩ := made
    exact not_agreesWith_of_far (owned.nodup ready.geometry) (List.mem_of_find?_eq_some first)
      (not_lt.mp far) addr fsDataAddr (agrees _ listing)
  · rintro ⟨counted, near⟩
    refine ⟨?_, fun entries listing => ?_⟩
    · obtain ⟨pages, listed⟩ := Pages.exists_of_counted counted 0
      exact ⟨_, (paged _).mpr ⟨pages, listed, rfl⟩⟩
    · obtain ⟨pages, listed, rfl⟩ := (paged entries).mp listing
      cases first : (numbered (volume fs w) (slotsOf fs l) 0).find?
          (fun p => (entryOf (volume fs w) p).name = name) with
      | none =>
        rw [first] at made
        obtain rfl : found = none := made
        exact agreesWith_none first listed
      | some p =>
        rw [first] at made
        obtain ⟨addr, fsDataAddr, rfl, -⟩ := made
        have mem := List.mem_of_find?_eq_some first
        have small := near p first
        have notLast := counted p mem
        rw [int32_eq (by omega) (by omega)] at notLast
        have sorted := numbered_sorted (volume fs w) (slotsOf fs l) 0
        refine agreesWith_some (listed.find_first sorted first small ?_) mem (by omega) addr fsDataAddr
        exact Nat.cast_nonneg _

/-- The root directory with the file `a`. -/
theorem lookup_agrees_oneFile : ∃ found w' entries,
    Converges (fun fuel => lookup smallFs (rootNode smallFs 0 0 0) [0x61] fuel oneFile) (found, w') ∧
      Enumeration smallFs (rootNode smallFs 0 0 0) oneFile 0 entries ∧
      AgreesWith smallFs [2] entries [0x61] found := by
  have h := directory_oneFile
  obtain ⟨found, w', looked, agrees⟩ := lookup_agrees_iff h.ready h.isDir h.owned [0x61]
  have listable : Listable smallFs (volume smallFs oneFile) [2] [0x61] := by
    have evaluated : (numbered (volume smallFs oneFile) (slotsOf smallFs [2]) 0).find?
        (fun p => (entryOf (volume smallFs oneFile) p).name = [0x61]) = some ((2, 0), 0) := by
      decide +kernel
    refine ⟨by decide +kernel, fun p first => ?_⟩
    rw [evaluated] at first
    cases first
    decide
  obtain ⟨⟨entries, listing⟩, all⟩ := agrees.mpr listable
  exact ⟨found, w', entries, looked, listing, all entries listing⟩

/-- In a directory with `2 ^ 31` slots whose last one holds a file, `fat32_lookup` finds the file, and no
listing of the directory comes to an end. -/
theorem listing_without_end :
    Owned hugeFs (volume hugeFs hugeWorld) (rootNode hugeFs 0 0 0).fsData.firstCluster hugeChain ∧
    (∃ name node w', Converges
      (fun fuel => lookup hugeFs (rootNode hugeFs 0 0 0) name fuel hugeWorld) (some node, w')) ∧
    ¬ ∃ entries, Enumeration hugeFs (rootNode hugeFs 0 0 0) hugeWorld 0 entries := by
  have h := directory_huge
  have going := going_huge (t := (1048577, 2047)) last_huge.1 last_huge.2
  have seen := visible_huge (t := (1048577, 2047)) last_huge.1 last_huge.2
  refine ⟨h.owned, ?_, ?_⟩
  · have found : find hugeFs (volume hugeFs hugeWorld) (lookupMatch (name83ToName
        (entryName ((volume hugeFs hugeWorld).data 1048577) 2047))) hugeChain =
          some (1048577, 2047) := by
      rw [find, slotsOf_huge]
      refine firstHit_append_hit (fun t mem => ?_) going ?_
      · obtain ⟨goesOn, hidden⟩ := hidden_huge mem
        exact ⟨goesOn, by rw [lookupMatch, hidden, Bool.false_and]⟩
      · rw [lookupMatch, seen]
        simp
    obtain ⟨addr, fsDataAddr, w', looked, -⟩ :=
      lookup_found (.refl h.ready) h.denotes (h.denotes.kind.symm.trans h.isDir) h.owns found
    exact ⟨_, _, w', looked⟩
  · rintro ⟨entries, listing⟩
    obtain ⟨pages, listed, -⟩ := (enumeration_iff (.refl h.ready) h.isDir h.owned 0 entries).mp listing
    have place : (slotsOf hugeFs hugeChain)[2 ^ 31 - 1]? = some (1048577, 2047) := by
      rw [slotsOf_huge, ← length_hugeHidden, List.getElem?_concat_length]
    have live : (volume hugeFs hugeWorld).live (1048577, 2047) = true := by
      rw [Volume.live, going, seen]
      rfl
    have mem := mem_numbered h.tidy place live 0
    exact Pages.endless mem (int32_eq (by decide) (by decide)) (by decide) listed

end Thuban.Fat32

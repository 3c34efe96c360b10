import Thuban.Fat32.Preservation

/-!
# The driver and the heap

Whatever the device and the allocator do, a call of the driver that looks up, creates or removes frees
only objects that it has allocated itself (`World.Keeps`), and `fat32_lookup` finds the same whichever
objects are live (`lookup_alike`).
-/

namespace Thuban

open Lib (Bytes)

/-- Live objects are listed once, and their addresses have been handed out. -/
structure Ledger.Ok (h : Ledger) : Prop where
  nodup : h.live.Nodup
  below : ∀ p ∈ h.live, p < h.next

namespace World

/-! ## What `free` leaves live -/

theorem mem_free_of_ne (w : World) {p q : ℕ} (other : q ≠ p) :
    q ∈ (w.free p).heap.live ↔ q ∈ w.heap.live := by
  unfold free
  split_ifs
  · exact List.mem_erase_of_ne other
  · exact Iff.rfl

theorem free_ok {w : World} (ok : w.heap.Ok) (p : ℕ) : (w.free p).heap.Ok := by
  unfold free
  split_ifs
  · exact ⟨ok.nodup.erase p, fun q hq => ok.below q (List.mem_of_mem_erase hq)⟩
  · exact ⟨ok.nodup, ok.below⟩

theorem notMem_free {w : World} (ok : w.heap.Ok) (p : ℕ) : p ∉ (w.free p).heap.live := by
  unfold free
  split_ifs with live
  · exact ok.nodup.not_mem_erase
  · exact live

/-! ## Objects that stay as they are -/

/-- The addresses handed out in `w` are live in `w'` if and only if they are live in `w`. -/
structure Keeps (w w' : World) : Prop where
  next : w.heap.next ≤ w'.heap.next
  live : ∀ p < w.heap.next, p ∈ w'.heap.live ↔ p ∈ w.heap.live
  ok : w.heap.Ok → w'.heap.Ok

namespace Keeps

variable {w w₁ w₂ : World}

theorem refl (w : World) : Keeps w w := ⟨le_rfl, fun _ _ => Iff.rfl, id⟩

theorem trans (first : Keeps w w₁) (second : Keeps w₁ w₂) : Keeps w w₂ where
  next := first.next.trans second.next
  live := fun p hp => (second.live p (lt_of_lt_of_le hp first.next)).trans (first.live p hp)
  ok := fun ok => second.ok (first.ok ok)

theorem of_heap (keeps : Keeps w w₁) (same : w₂.heap = w₁.heap) : Keeps w w₂ := by
  constructor
  · rw [same]
    exact keeps.next
  · rw [same]
    exact keeps.live
  · rw [same]
    exact keeps.ok

theorem free (keeps : Keeps w w₁) {p : ℕ} (new : w.heap.next ≤ p) : Keeps w (w₁.free p) := by
  refine ⟨keeps.next.trans (free_next w₁ p).ge, fun q hq => ?_, fun ok => free_ok (keeps.ok ok) p⟩
  rw [← keeps.live q hq]
  exact mem_free_of_ne w₁ (by omega)

theorem failed_malloc (keeps : Keeps w w₁) {size : ℕ} (failed : w₁.malloc size = (none, w₂)) :
    Keeps w w₂ := by
  unfold malloc at failed
  split_ifs at failed
  · obtain rfl := (Prod.mk.inj failed).2
    exact keeps
  · split at failed
    · obtain rfl := (Prod.mk.inj failed).2
      exact ⟨keeps.next, keeps.live, fun ok => ⟨(keeps.ok ok).nodup, (keeps.ok ok).below⟩⟩
    · cases (Prod.mk.inj failed).1

theorem malloc (keeps : Keeps w w₁) {size p : ℕ} (done : w₁.malloc size = (some p, w₂)) :
    Keeps w w₂ ∧ p = w₁.heap.next ∧ w₂.heap.next = p + 1 ∧ w₂.heap.live = p :: w₁.heap.live := by
  have next := keeps.next
  unfold World.malloc at done
  split_ifs at done
  · cases (Prod.mk.inj done).1
  split at done
  · cases (Prod.mk.inj done).1
  obtain ⟨here, rfl⟩ := Prod.mk.inj done
  cases here
  refine ⟨⟨Nat.le_succ_of_le next, fun q hq => ?_, fun ok => ?_⟩, rfl, rfl, rfl⟩
  · rw [← keeps.live q hq]
    exact List.mem_cons.trans (or_iff_right (by omega))
  · have ok₁ := keeps.ok ok
    refine ⟨List.nodup_cons.mpr ⟨fun mem => ?_, ok₁.nodup⟩, fun q hq => ?_⟩
    · exact lt_irrefl _ (ok₁.below _ mem)
    · rcases List.mem_cons.mp hq with rfl | mem
      · exact Nat.lt_succ_self _
      · exact Nat.lt_succ_of_lt (ok₁.below q mem)

end Keeps

/-! ## Worlds that differ in their live objects -/

/-- The worlds differ at most in the objects that are live and in the misplaced calls of `free`. -/
structure Alike (w w' : World) : Prop where
  devs : w'.devs = w.devs
  next : w'.heap.next = w.heap.next
  oom : w'.heap.oom = w.heap.oom
  junk : w'.heap.junk = w.heap.junk

namespace Alike

variable {w w' : World}

theorem refl (w : World) : Alike w w := ⟨rfl, rfl, rfl, rfl⟩

theorem trans {w'' : World} (first : Alike w w') (second : Alike w' w'') : Alike w w'' :=
  ⟨second.devs.trans first.devs, second.next.trans first.next, second.oom.trans first.oom,
    second.junk.trans first.junk⟩

theorem symm (alike : Alike w w') : Alike w' w :=
  ⟨alike.devs.symm, alike.next.symm, alike.oom.symm, alike.junk.symm⟩

theorem of_free (w : World) (p : ℕ) : Alike w (w.free p) := by
  unfold free
  split_ifs <;> exact ⟨rfl, rfl, rfl, rfl⟩

theorem free (alike : Alike w w') (p q : ℕ) : Alike (w.free p) (w'.free q) :=
  ((of_free w p).symm.trans alike).trans (of_free w' q)

theorem malloc (alike : Alike w w') (size : ℕ) :
    (w'.malloc size).1 = (w.malloc size).1 ∧ Alike (w.malloc size).2 (w'.malloc size).2 := by
  unfold World.malloc
  rw [alike.oom]
  split_ifs
  · exact ⟨rfl, alike⟩
  split
  · exact ⟨rfl, alike.devs, alike.next, rfl, alike.junk⟩
  · refine ⟨congrArg some alike.next, alike.devs, ?_, rfl, alike.junk⟩
    show w'.heap.next + 1 = w.heap.next + 1
    rw [alike.next]

end Alike

/-! ## Calls that do not look at the heap -/

def mapHeap (w : World) (g : Ledger → Ledger) : World := { w with heap := g w.heap }

theorem mapHeap_junk {w : World} {g : Ledger → Ledger} (junk : ∀ h, (g h).junk = h.junk) :
    (w.mapHeap g).heap.junk = w.heap.junk := junk _

/-- A call that sees nothing of the heap but what a fresh buffer contains: with another heap it does the
same. -/
def Blind {α : Type*} (f : World → α × World) : Prop :=
  ∀ g : Ledger → Ledger, (∀ h, (g h).junk = h.junk) → ∀ w : World,
    f (w.mapHeap g) = ((f w).1, (f w).2.mapHeap g)

namespace Blind

variable {α : Type*} {f : World → α × World}

theorem heap (blind : Blind f) (w : World) : (f w).2.heap = w.heap := by
  classical
  by_contra changed
  have same := blind (fun h => if h = w.heap then h else { h with oom := true :: h.oom })
    (fun h => by split_ifs <;> rfl) w
  have start : w.mapHeap (fun h => if h = w.heap then h else { h with oom := true :: h.oom }) = w := by
    simp [mapHeap]
  rw [start] at same
  have grown := congrArg (·.2.heap.oom) same
  simp only [mapHeap, if_neg changed] at grown
  exact List.cons_ne_self _ _ grown.symm

theorem alike {w w' : World} (blind : Blind f) (alike : Alike w w') :
    (f w').1 = (f w).1 ∧ Alike (f w).2 (f w').2 := by
  have other : w' = w.mapHeap fun h =>
      { h with live := w'.heap.live, misfreed := w'.heap.misfreed } := by
    obtain ⟨devs', next', live', misfreed', oom', junk'⟩ := w'
    obtain ⟨rfl, rfl, rfl, rfl⟩ := alike
    rfl
  have same := blind (fun h => { h with live := w'.heap.live, misfreed := w'.heap.misfreed })
    (fun _ => rfl) w
  rw [← other] at same
  rw [same]
  exact ⟨rfl, rfl, rfl, rfl, rfl⟩

end Blind

/-- The same for a loop, which may run out of fuel. -/
def BlindLoop {α : Type*} (f : World → Option (α × World)) : Prop :=
  ∀ g : Ledger → Ledger, (∀ h, (g h).junk = h.junk) → ∀ w : World,
    f (w.mapHeap g) = (f w).map fun r => (r.1, r.2.mapHeap g)

namespace BlindLoop

variable {α : Type*} {f : World → Option (α × World)} {a : α} {w w' w₁ : World}

theorem blind (loop : BlindLoop f) :
    Blind fun w => (f w).elim (none, w) fun r => (some r.1, r.2) := by
  intro g junk w
  dsimp only
  rw [loop g junk]
  cases f w <;> rfl

theorem alike (loop : BlindLoop f) (alike : Alike w w') (done : f w = some (a, w₁)) :
    ∃ w₁', f w' = some (a, w₁') ∧ Alike w₁ w₁' := by
  obtain ⟨same, alike₁⟩ := loop.blind.alike alike
  rw [done] at same alike₁
  cases other : f w' with
  | none =>
    rw [other] at same
    cases same
  | some r =>
    rw [other] at same alike₁
    cases same
    exact ⟨r.2, rfl, alike₁⟩

end BlindLoop

section Devices

variable (w : World) (g : Ledger → Ledger) (dev sector count : ℕ) (buf : Bytes) (pos : ℕ)

theorem blkdevRead_mapHeap : (w.mapHeap g).blkdevRead dev sector count buf pos =
    ((w.blkdevRead dev sector count buf pos).1,
      (w.blkdevRead dev sector count buf pos).2.mapHeap g) := by
  unfold blkdevRead
  dsimp only [mapHeap]
  rcases (w.devs dev).respond with ⟨_ | _, d⟩ <;> split_ifs <;> rfl

theorem blkdevWrite_mapHeap : (w.mapHeap g).blkdevWrite dev sector count buf pos =
    ((w.blkdevWrite dev sector count buf pos).1,
      (w.blkdevWrite dev sector count buf pos).2.mapHeap g) := by
  unfold blkdevWrite
  dsimp only [mapHeap]
  generalize BlockDevice.respond _ = answer
  rcases answer with ⟨_ | _, d⟩ <;> split_ifs <;> rfl

end Devices

/-! ## Objects that are given back -/

/-- The live objects are those of `w₀` and the objects `held`, and no call of `free` has been misplaced
since. -/
structure Borrows (w₀ w : World) (held : List ℕ) : Prop where
  misfreed : w.heap.misfreed = w₀.heap.misfreed
  live : w.heap.live.Perm (held ++ w₀.heap.live)

namespace Borrows

variable {w₀ w w' : World} {held : List ℕ} {p : ℕ}

theorem refl (w : World) : Borrows w w [] := ⟨rfl, .refl _⟩

theorem of_heap (borrows : Borrows w₀ w held) (same : w'.heap = w.heap) : Borrows w₀ w' held :=
  ⟨same ▸ borrows.misfreed, same ▸ borrows.live⟩

theorem perm {held' : List ℕ} (borrows : Borrows w₀ w held) (same : held.Perm held') :
    Borrows w₀ w held' := ⟨borrows.misfreed, borrows.live.trans (same.append_right _)⟩

theorem failed_malloc {size : ℕ} (borrows : Borrows w₀ w held)
    (failed : w.malloc size = (none, w')) : Borrows w₀ w' held := by
  unfold World.malloc at failed
  split_ifs at failed
  · cases failed
    exact borrows
  · split at failed
    · cases failed
      exact ⟨borrows.misfreed, borrows.live⟩
    · cases failed

theorem malloc {size : ℕ} (borrows : Borrows w₀ w held) (done : w.malloc size = (some p, w')) :
    Borrows w₀ w' (p :: held) := by
  unfold World.malloc at done
  split_ifs at done
  · cases done
  split at done
  · cases done
  · cases done
    exact ⟨borrows.misfreed, borrows.live.cons _⟩

theorem free (borrows : Borrows w₀ w (p :: held)) : Borrows w₀ (w.free p) held := by
  have mem : p ∈ w.heap.live := borrows.live.mem_iff.mpr (List.mem_cons_self ..)
  have rest := borrows.live.erase p
  rw [List.cons_append, List.erase_cons_head] at rest
  rw [World.free, if_pos mem]
  exact ⟨borrows.misfreed, rest⟩

theorem misfree (borrows : Borrows w₀ w held) (dead : p ∉ w.heap.live) :
    (w.free p).heap.misfreed = p :: w₀.heap.misfreed := by
  rw [World.free, if_neg dead, ← borrows.misfreed]

end Borrows

/-- Since `w₀` the objects `held` have been allocated, and everything else that was allocated has been
freed again. -/
structure Lends (w₀ w : World) (held : List ℕ) : Prop where
  keeps : Keeps w₀ w
  borrows : Borrows w₀ w held
  mine : ∀ p ∈ held, w₀.heap.next ≤ p ∧ p < w.heap.next
  nodup : held.Nodup

namespace Lends

variable {w₀ w w' : World} {held : List ℕ} {p : ℕ}

theorem refl (w : World) : Lends w w [] := ⟨.refl w, .refl w, nofun, .nil⟩

theorem of_heap (lends : Lends w₀ w held) (same : w'.heap = w.heap) : Lends w₀ w' held :=
  ⟨lends.keeps.of_heap same, lends.borrows.of_heap same, same ▸ lends.mine, lends.nodup⟩

theorem blind {α : Type*} {f : World → α × World} (lends : Lends w₀ w held) (blind : Blind f) :
    Lends w₀ (f w).2 held := lends.of_heap (blind.heap w)

theorem perm {held' : List ℕ} (lends : Lends w₀ w held) (same : held.Perm held') :
    Lends w₀ w held' :=
  ⟨lends.keeps, lends.borrows.perm same, fun p mem => lends.mine p (same.mem_iff.mpr mem),
    same.nodup_iff.mp lends.nodup⟩

theorem failed_malloc {size : ℕ} (lends : Lends w₀ w held)
    (failed : w.malloc size = (none, w')) : Lends w₀ w' held := by
  have later := ((Keeps.refl w).failed_malloc failed).next
  refine ⟨lends.keeps.failed_malloc failed, lends.borrows.failed_malloc failed, fun p mem => ?_,
    lends.nodup⟩
  exact ⟨(lends.mine p mem).1, (lends.mine p mem).2.trans_le later⟩

theorem malloc {size : ℕ} (lends : Lends w₀ w held) (done : w.malloc size = (some p, w')) :
    Lends w₀ w' (p :: held) := by
  obtain ⟨keeps, rfl, next, -⟩ := lends.keeps.malloc done
  refine ⟨keeps, lends.borrows.malloc done, fun q mem => ?_, List.nodup_cons.mpr ⟨fun mem => ?_,
    lends.nodup⟩⟩
  · have started := lends.keeps.next
    rcases List.mem_cons.mp mem with rfl | mem
    · omega
    · have := lends.mine q mem
      omega
  · exact (lends.mine _ mem).2.false

theorem free (lends : Lends w₀ w (p :: held)) : Lends w₀ (w.free p) held := by
  have mine := lends.mine p (List.mem_cons_self ..)
  refine ⟨lends.keeps.free mine.1, lends.borrows.free, fun q mem => ?_, lends.nodup.of_cons⟩
  rw [free_next]
  exact lends.mine q (List.mem_cons_of_mem p mem)

end Lends

end World

namespace Fat32

open World (Keeps Alike Blind BlindLoop Borrows Lends)

variable (fs : Fs)

/-! ## The device and the heap -/

theorem readSectors_blind (sector n i : ℕ) (buf : Bytes) :
    Blind (readSectors fs sector n i buf) := by
  intro g junk w
  induction n generalizing i buf w with
  | zero => rfl
  | succ n ih =>
    rw [readSectors, readSectors, World.blkdevRead_mapHeap]
    rcases w.blkdevRead fs.dev _ 1 buf _ with ⟨_ | buf, w⟩
    · rfl
    · exact ih (i + 1) buf w

theorem readCluster_blind (c : ℕ) (buf : Bytes) : Blind (readCluster fs c buf) := by
  intro g junk w
  unfold readCluster
  dsimp only
  split
  · rfl
  · exact readSectors_blind fs _ _ _ buf g junk w

theorem writeSectors_blind (sector : ℕ) (buf : Bytes) (n i : ℕ) :
    Blind (writeSectors fs sector buf n i) := by
  intro g junk w
  induction n generalizing i w with
  | zero => rfl
  | succ n ih =>
    rw [writeSectors, writeSectors, World.blkdevWrite_mapHeap]
    rcases w.blkdevWrite fs.dev _ 1 buf _ with ⟨_ | _, w⟩
    · rfl
    · exact ih (i + 1) w

theorem writeCluster_blind (c : ℕ) (buf : Bytes) : Blind (writeCluster fs c buf) := by
  intro g junk w
  unfold writeCluster
  dsimp only
  split
  · rfl
  · exact writeSectors_blind fs _ buf _ _ g junk w

theorem getNextCluster_blind (c : ℕ) : Blind (getNextCluster fs c) := by
  intro g junk w
  unfold getNextCluster
  split
  · rfl
  · rw [World.blkdevRead_mapHeap, World.mapHeap_junk junk]
    rcases w.blkdevRead fs.dev (fatSector fs c) 1 w.heap.junk 0 with ⟨_ | buf, w⟩ <;> rfl

theorem setFatEntry_blind (c value : ℕ) : Blind (setFatEntry fs c value) := by
  intro g junk w
  unfold setFatEntry
  dsimp only
  split
  · rfl
  · rw [World.blkdevRead_mapHeap, World.mapHeap_junk junk]
    rcases w.blkdevRead fs.dev (fatSector fs c) 1 w.heap.junk 0 with ⟨_ | buf, w⟩
    · rfl
    · dsimp only
      rw [World.blkdevWrite_mapHeap]
      rcases w.blkdevWrite fs.dev (fatSector fs c) 1 _ 0 with ⟨_ | _, w⟩
      · rfl
      · dsimp only
        rw [World.blkdevWrite_mapHeap]
        split <;> rfl

theorem allocScan_blind (n c : ℕ) : Blind (allocScan fs n c) := by
  intro g junk w
  induction n generalizing c w with
  | zero => rfl
  | succ n ih =>
    rw [allocScan, allocScan, getNextCluster_blind fs c g junk]
    rcases getNextCluster fs c w with ⟨entry, w⟩
    dsimp only
    split
    · rw [setFatEntry_blind fs c eocMax g junk]
    · exact ih (c + 1) w

theorem allocCluster_blind : Blind (allocCluster fs) := allocScan_blind fs _ _

theorem freeCluster_blind (c : ℕ) : Blind fun w => ((), freeCluster fs c w) := by
  intro g junk w
  dsimp only
  unfold freeCluster
  split
  · rfl
  · rw [setFatEntry_blind fs c freeMark g junk]

theorem freeChain_mapHeap {g : Ledger → Ledger} (junk : ∀ h, (g h).junk = h.junk) (fuel c : ℕ)
    (w : World) :
    freeChain fs fuel c (w.mapHeap g) = (freeChain fs fuel c w).map (·.mapHeap g) := by
  induction fuel generalizing c w with
  | zero => rfl
  | succ fuel ih =>
    rw [freeChain, freeChain]
    split
    · rw [getNextCluster_blind fs c g junk]
      rw [← ih]
      exact congrArg (freeChain fs fuel _) (congrArg Prod.snd (freeCluster_blind fs c g junk _))
    · rfl

theorem walk_blind (wanted : Bytes → ℕ → Bool) (fuel c : ℕ) (buf : Bytes) :
    BlindLoop (walk fs wanted fuel c buf) := by
  intro g junk w
  induction fuel generalizing c buf w with
  | zero => rfl
  | succ fuel ih =>
    rw [walk, walk]
    split
    · rw [readCluster_blind fs c buf g junk]
      rcases readCluster fs c buf w with ⟨_ | buf, w⟩
      · rfl
      · dsimp only
        split
        · rfl
        · rfl
        · rw [getNextCluster_blind fs c g junk]
          exact ih _ buf _
    · rfl

/-! ## Calls of the driver -/

/-- What a node that `fat32_lookup` returns is. -/
structure Fresh (w w' : World) (dir child : VfsNode) : Prop where
  new : w.heap.next ≤ child.addr ∧ w.heap.next ≤ child.fsDataAddr
  old : child.addr < w'.heap.next ∧ child.fsDataAddr < w'.heap.next
  distinct : child.addr ≠ child.fsDataAddr
  live : child.addr ∈ w'.heap.live ∧ child.fsDataAddr ∈ w'.heap.live
  parent : child.parent = some dir.addr
  sb : child.sb = dir.sb

variable {fs} {w₀ w w' : World} {held : List ℕ} {fuel : ℕ} {dir node : VfsNode} {name : CString}

theorem lends_kept (fs : Fs) (w₀ : World) :
    Kept fs (fun _ => True) (fun _ => True) (fun _ => True) fun held w => Lends w₀ w held where
  failed_malloc := Lends.failed_malloc
  malloc := Lends.malloc
  free := Lends.free
  perm := Lends.perm
  readCluster c buf lends := lends.blind (readCluster_blind fs c buf)
  writeCluster buf _ lends := lends.blind (writeCluster_blind fs _ buf)
  getNextCluster c lends := ⟨lends.blind (getNextCluster_blind fs c), trivial⟩
  setFatEntry c _ _ lends := lends.blind (setFatEntry_blind fs c _)
  allocCluster lends := ⟨lends.blind (allocCluster_blind fs), fun _ => trivial⟩
  known _ := trivial
  writable_new _ := trivial
  writable _ _ := trivial

theorem freeNode_keeps (keeps : Keeps w₀ w)
    (new : w₀.heap.next ≤ node.addr ∧ w₀.heap.next ≤ node.fsDataAddr) :
    Keeps w₀ (freeNode node w) :=
  (keeps.free new.2).free new.1

theorem lookup_keeps {r : Option VfsNode} (done : lookup fs dir name fuel w = some (r, w')) :
    Keeps w w' ∧ ∀ child, r = some child → Fresh w w' dir child := by
  obtain ⟨lends, made⟩ := lookup_kept (lends_kept fs w) (.refl w) done
  refine ⟨lends.keeps, fun child found => ?_⟩
  obtain ⟨parent, sb⟩ := made child found
  subst found
  have node : child.addr ∈ objects child ++ [] := by simp [objects]
  have data : child.fsDataAddr ∈ objects child ++ [] := by simp [objects]
  have live : ∀ p ∈ objects child ++ [], p ∈ w'.heap.live := fun p mem =>
    lends.borrows.live.mem_iff.mpr (List.mem_append_left _ mem)
  refine ⟨⟨(lends.mine _ node).1, (lends.mine _ data).1⟩,
    ⟨(lends.mine _ node).2, (lends.mine _ data).2⟩, fun same => ?_, ⟨live _ node, live _ data⟩, parent,
    sb⟩
  have nodup := lends.nodup
  simp [objects, same] at nodup

theorem write_keeps {node' : VfsNode} {src : Bytes} {count : ℕ} {offset r : ℤ}
    (done : write fs node src count offset fuel w = some (r, node', w')) :
    Keeps w w' ∧ ∃ size fsData, node' = { node with size := size, fsData := fsData } := by
  obtain ⟨made, ends⟩ := write_kept (lends_kept fs w) (.refl w) trivial trivial done
  refine ⟨?_, made⟩
  rcases ends with ⟨-, tmp, w₁, w₂, first, lends₂, rfl⟩ | ⟨-, lends⟩
  · exact lends₂.keeps.free (((Lends.refl w).malloc first).mine tmp (List.mem_cons_self ..)).1
  · exact lends.keeps

/-! ## What is found does not depend on the live objects -/

theorem lookupHit_alike (alike : Alike w w') (dir : VfsNode) (tmp cluster i : ℕ) (buf : Bytes) :
    (lookupHit dir tmp cluster i buf w').1 = (lookupHit dir tmp cluster i buf w).1 ∧
      Alike (lookupHit dir tmp cluster i buf w).2 (lookupHit dir tmp cluster i buf w').2 := by
  unfold lookupHit
  obtain ⟨same, next⟩ := alike.malloc vfsNodeSize
  generalize w.malloc vfsNodeSize = answer at same next ⊢
  generalize w'.malloc vfsNodeSize = answer' at same next ⊢
  obtain ⟨addr, w₁⟩ := answer
  obtain ⟨addr', w₁'⟩ := answer'
  obtain rfl : addr' = addr := same
  cases addr' with
  | none => exact ⟨rfl, next.free _ _⟩
  | some addr =>
    dsimp only at next ⊢
    obtain ⟨same, next⟩ := next.malloc inodeSize
    generalize w₁.malloc inodeSize = answer at same next ⊢
    generalize w₁'.malloc inodeSize = answer' at same next ⊢
    obtain ⟨data, w₂⟩ := answer
    obtain ⟨data', w₂'⟩ := answer'
    obtain rfl : data' = data := same
    cases data' with
    | none => exact ⟨rfl, (next.free _ _).free _ _⟩
    | some data => exact ⟨rfl, next.free _ _⟩

/-- `fat32_lookup` finds the same in worlds that are alike. -/
theorem lookup_alike (alike : Alike w w') {r : Option VfsNode} {w₁ : World}
    (done : lookup fs dir name fuel w = some (r, w₁)) :
    ∃ w₁', lookup fs dir name fuel w' = some (r, w₁') ∧ Alike w₁ w₁' := by
  unfold lookup at done ⊢
  split_ifs at done ⊢
  · cases done
    exact ⟨w', rfl, alike⟩
  obtain ⟨same, next⟩ := alike.malloc fs.clusterSize
  generalize w.malloc fs.clusterSize = answer at same next done
  generalize w'.malloc fs.clusterSize = answer' at same next ⊢
  obtain ⟨tmp, w₂⟩ := answer
  obtain ⟨tmp', w₂'⟩ := answer'
  obtain rfl : tmp' = tmp := same
  cases tmp' with
  | none =>
    cases done
    exact ⟨w₂', rfl, next⟩
  | some tmp =>
    dsimp only at done next ⊢
    obtain ⟨⟨found, w₃⟩, walked, ends⟩ := Option.map_eq_some_iff.mp done
    obtain ⟨w₃', walked', alike₃⟩ := (walk_blind fs _ _ _ _).alike next walked
    rw [next.junk, walked', Option.map_some]
    rcases found with ⟨cluster, i, buf⟩ | _ | _
    · obtain ⟨same, alike₄⟩ := lookupHit_alike alike₃ dir tmp cluster i buf
      dsimp only at ends
      rw [ends] at same alike₄
      exact ⟨(lookupHit dir tmp cluster i buf w₃').2, congrArg some (Prod.ext same rfl), alike₄⟩
    · cases ends
      exact ⟨_, rfl, alike₃.free _ _⟩
    · cases ends
      exact ⟨_, rfl, alike₃.free _ _⟩

end Fat32

end Thuban

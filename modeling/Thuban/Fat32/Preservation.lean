import Thuban.Fat32.Driver

/-!
# What every call of the driver keeps

The calls of the driver take and free buffers, and they reach the device through the functions of the
cluster layer.  A property of the world that `malloc`, `free` and the cluster layer keep, whatever they
answer (`Kept`), is kept by every call.  The property may depend on the objects that the call holds; one
call does not fit: when the volume runs full in its second loop, `fat32_write` frees its buffer twice.
-/

namespace Thuban.Fat32

open Lib

def objects (node : VfsNode) : List ℕ := [node.fsDataAddr, node.addr]

/-- The functions below the driver keep `I held`, where `held` are the objects that are held.  The numbers
found on the volume are `Known`, the clusters that are allocated are `New`, and clusters are written only
if they are `Writable`. -/
structure Kept (fs : Fs) (Known New Writable : ℕ → Prop) (I : List ℕ → World → Prop) : Prop where
  failed_malloc {held : List ℕ} {w w' : World} {size : ℕ} (holds : I held w)
    (failed : w.malloc size = (none, w')) : I held w'
  malloc {held : List ℕ} {w w' : World} {size p : ℕ} (holds : I held w)
    (done : w.malloc size = (some p, w')) : I (p :: held) w'
  free {held : List ℕ} {w : World} {p : ℕ} (holds : I (p :: held) w) : I held (w.free p)
  perm {held held' : List ℕ} {w : World} (holds : I held w) (same : held.Perm held') : I held' w
  readCluster {held : List ℕ} {w : World} (c : ℕ) (buf : Bytes) (holds : I held w) :
    I held (readCluster fs c buf w).2
  writeCluster {held : List ℕ} {w : World} {c : ℕ} (buf : Bytes) (writable : Writable c)
    (holds : I held w) : I held (writeCluster fs c buf w).2
  getNextCluster {held : List ℕ} {w : World} (c : ℕ) (holds : I held w) :
    I held (getNextCluster fs c w).2 ∧ Known (getNextCluster fs c w).1
  setFatEntry {held : List ℕ} {w : World} (c : ℕ) {value : ℕ} (stored : value = freeMark ∨ New value)
    (holds : I held w) : I held (setFatEntry fs c value w).2
  allocCluster {held : List ℕ} {w : World} (holds : I held w) :
    I held (allocCluster fs w).2 ∧ ((allocCluster fs w).1 ≠ 0 → New (allocCluster fs w).1)
  known {c : ℕ} (new : New c) : Known c
  writable_new {c : ℕ} (new : New c) : Writable c
  writable {c : ℕ} (known : Known c) (small : c < eocMin) : Writable c

variable {fs : Fs} {Known New Writable : ℕ → Prop} {I : List ℕ → World → Prop}
  (kept : Kept fs Known New Writable I) {held : List ℕ} {w w' : World} {fuel : ℕ}
  {dir node : VfsNode} {name : CString}

include kept

/-! ## Chains -/

theorem freeCluster_kept (c : ℕ) (holds : I held w) : I held (freeCluster fs c w) := by
  unfold freeCluster
  split_ifs
  · exact holds
  · exact kept.setFatEntry c (.inl rfl) holds

variable {c tmp cluster i mode count start : ℕ} {buf dst dst' src : Bytes} {r offset : ℤ}
  {cur cur' : Cursor} {ok : Bool}

theorem freeChain_kept (holds : I held w) (done : freeChain fs fuel c w = some w') : I held w' := by
  induction fuel generalizing c w with
  | zero => cases done
  | succ fuel ih =>
    rw [freeChain] at done
    split_ifs at done
    · exact ih (freeCluster_kept kept c (kept.getNextCluster c holds).1) done
    · cases done
      exact holds

theorem walk_kept {wanted : Bytes → ℕ → Bool} {stop : Walk} (holds : I held w)
    (done : walk fs wanted fuel c buf w = some (stop, w')) :
    I held w' ∧ (Known c → ∀ d i found, stop = .hit d i found → Writable d) := by
  induction fuel generalizing c buf w with
  | zero => cases done
  | succ fuel ih =>
    rw [walk] at done
    by_cases inChain : InChain c
    · rw [if_pos inChain] at done
      have holds₁ := kept.readCluster c buf holds
      generalize readCluster fs c buf w = answer at holds₁ done
      rcases answer with ⟨_ | buf₁, w₁⟩
      · cases done
        exact ⟨holds₁, fun _ _ _ _ => nofun⟩
      dsimp only at holds₁ done
      cases pass : scanSlots wanted buf₁ (fs.clusterSize / entrySize) 0 with
      | hit i =>
        rw [pass] at done
        cases done
        refine ⟨holds₁, fun known d j found same => ?_⟩
        cases same
        exact kept.writable known inChain.2
      | ended =>
        rw [pass] at done
        cases done
        exact ⟨holds₁, fun _ _ _ _ => nofun⟩
      | onward =>
        rw [pass] at done
        obtain ⟨holds₂, known⟩ := kept.getNextCluster c holds₁
        obtain ⟨holds₃, stops⟩ := ih holds₂ done
        exact ⟨holds₃, fun _ => stops known⟩
    · rw [if_neg inChain] at done
      cases done
      exact ⟨holds, fun _ _ _ _ => nofun⟩

/-! ## Directories -/

theorem freeNode_kept (holds : I (objects node ++ held) w) : I held (freeNode node w) :=
  kept.free (kept.free holds)

theorem lookupHit_kept {r : Option VfsNode} (holds : I (tmp :: held) w)
    (done : lookupHit dir tmp cluster i buf w = (r, w')) :
    I (r.elim [] objects ++ held) w' ∧
      ∀ child, r = some child → child.parent = some dir.addr ∧ child.sb = dir.sb := by
  unfold lookupHit at done
  rcases first : w.malloc vfsNodeSize with ⟨_ | addr, w₁⟩
  · simp only [first] at done
    cases done
    exact ⟨kept.free (kept.failed_malloc holds first), nofun⟩
  have holds₁ := kept.malloc holds first
  simp only [first] at done
  rcases second : w₁.malloc inodeSize with ⟨_ | fsDataAddr, w₂⟩
  · simp only [second] at done
    cases done
    exact ⟨kept.free (kept.free (kept.failed_malloc holds₁ second)), nofun⟩
  have holds₂ := kept.malloc holds₁ second
  simp only [second] at done
  cases done
  have moved : ([fsDataAddr, addr] ++ tmp :: held).Perm (tmp :: ([fsDataAddr, addr] ++ held)) :=
    List.perm_middle
  refine ⟨kept.free (kept.perm holds₂ moved), fun child same => ?_⟩
  cases same
  exact ⟨rfl, rfl⟩

theorem lookup_kept {r : Option VfsNode} (holds : I held w)
    (done : lookup fs dir name fuel w = some (r, w')) :
    I (r.elim [] objects ++ held) w' ∧
      ∀ child, r = some child → child.parent = some dir.addr ∧ child.sb = dir.sb := by
  unfold lookup at done
  split_ifs at done
  · cases done
    exact ⟨holds, nofun⟩
  rcases first : w.malloc fs.clusterSize with ⟨_ | tmp, w₁⟩
  · simp only [first] at done
    cases done
    exact ⟨kept.failed_malloc holds first, nofun⟩
  simp only [first] at done
  obtain ⟨⟨found, w₂⟩, walked, ends⟩ := Option.map_eq_some_iff.mp done
  have holds₂ := (walk_kept kept (kept.malloc holds first) walked).1
  rcases found with ⟨cluster, i, buf⟩ | _ | _
  · exact lookupHit_kept kept holds₂ ends
  · cases ends
    exact ⟨kept.free holds₂, nofun⟩
  · cases ends
    exact ⟨kept.free holds₂, nofun⟩

theorem createLoop_kept {new : ℕ} (holds : I (tmp :: held) w) (known : Known cluster)
    (done : createLoop fs name mode new tmp fuel cluster buf w = some (r, w')) : I held w' := by
  have giveUp : ∀ {w₁ : World}, I (tmp :: held) w₁ → I held (freeCluster fs new (w₁.free tmp)) :=
    fun holds₁ => freeCluster_kept kept new (kept.free holds₁)
  induction fuel generalizing cluster buf w with
  | zero => cases done
  | succ fuel ih =>
    rw [createLoop] at done
    by_cases inside : InChain cluster
    · rw [if_pos inside] at done
      have holds₁ := kept.readCluster cluster buf holds
      generalize readCluster fs cluster buf w = answer at holds₁ done
      rcases answer with ⟨_ | buf, w₁⟩
      · cases done
        exact giveUp holds₁
      dsimp only at holds₁ done
      cases slot : freeSlot buf (fs.clusterSize / entrySize) 0 with
      | some i =>
        have holds₂ := kept.writeCluster (fillEntry buf i name mode new)
          (kept.writable known inside.2) holds₁
        rw [slot] at done
        dsimp only at done
        generalize writeCluster fs cluster (fillEntry buf i name mode new) w₁ = answer
          at holds₂ done
        rcases answer with ⟨_ | _, w₂⟩
        · cases done
          exact giveUp holds₂
        · cases done
          exact kept.free holds₂
      | none =>
        obtain ⟨holds₂, knownNext⟩ := kept.getNextCluster cluster holds₁
        obtain ⟨holds₃, isNew⟩ := kept.allocCluster holds₂
        rw [slot] at done
        split_ifs at done with ends full
        · cases done
          exact giveUp holds₃
        · have new := isNew full
          exact ih (kept.writeCluster _ (kept.writable_new new)
            (kept.setFatEntry cluster (.inr new) holds₃)) (kept.known new) done
        · exact ih holds₂ knownNext done
    · rw [if_neg inside] at done
      cases done
      exact giveUp holds

section

variable (holds : I held w) (known : Known dir.fsData.firstCluster)

include holds known

theorem createNew_kept (done : createNew fs dir name mode fuel w = some (r, w')) : I held w' := by
  rw [createNew] at done
  obtain ⟨holds₁, isNew⟩ := kept.allocCluster holds
  generalize allocCluster fs w = answer at holds₁ isNew done
  obtain ⟨new, w₁⟩ := answer
  dsimp only at holds₁ isNew done
  by_cases full : new = 0
  · rw [if_pos full] at done
    cases done
    exact holds₁
  rw [if_neg full] at done
  rcases first : w₁.malloc fs.clusterSize with ⟨_ | zeroBuf, w₂⟩
  · simp only [first] at done
    cases done
    exact freeCluster_kept kept new (kept.failed_malloc holds₁ first)
  simp only [first] at done
  have holds₃ := kept.free (kept.writeCluster (w₂.heap.junk.fill 0 fs.clusterSize 0)
    (kept.writable_new (isNew full)) (kept.malloc holds₁ first))
  generalize ((writeCluster fs new (w₂.heap.junk.fill 0 fs.clusterSize 0) w₂).2.free zeroBuf) = w₃
    at holds₃ done
  rcases second : w₃.malloc fs.clusterSize with ⟨_ | tmp, w₄⟩
  · simp only [second] at done
    cases done
    exact freeCluster_kept kept new (kept.failed_malloc holds₃ second)
  simp only [second] at done
  exact createLoop_kept kept (kept.malloc holds₃ second) known done

theorem create_kept (done : create fs dir name mode fuel w = some (r, w')) : I held w' := by
  unfold create at done
  split_ifs at done
  · cases done
    exact holds
  · cases done
    exact holds
  obtain ⟨⟨found, w₁⟩, looked, rest⟩ := Option.bind_eq_some_iff.mp done
  have holds₁ := (lookup_kept kept holds looked).1
  cases found with
  | none => exact createNew_kept kept holds₁ known rest
  | some existing =>
    cases rest
    exact freeNode_kept kept holds₁

theorem rmdirEntry_kept (done : rmdirEntry fs dir name fuel w = some (r, w')) : I held w' := by
  rw [rmdirEntry] at done
  rcases first : w.malloc fs.clusterSize with ⟨_ | tmp, w₁⟩
  · simp only [first] at done
    cases done
    exact kept.failed_malloc holds first
  simp only [first] at done
  obtain ⟨⟨found, w₂⟩, walked, ends⟩ := Option.map_eq_some_iff.mp done
  obtain ⟨holds₂, stops⟩ := walk_kept kept (kept.malloc holds first) walked
  rcases found with ⟨cluster, i, buf⟩ | _ | _
  · cases ends
    exact kept.free (kept.writeCluster _ (stops known _ _ _ rfl) holds₂)
  · cases ends
    exact kept.free holds₂
  · cases ends
    exact kept.free holds₂

end

theorem rmdirTarget_kept {target : VfsNode} (holds : I (objects target ++ held) w)
    (known : Known dir.fsData.firstCluster)
    (done : rmdirTarget fs dir target name fuel w = some (r, w')) : I held w' := by
  rw [rmdirTarget] at done
  rcases first : w.malloc fs.clusterSize with ⟨_ | checkBuf, w₁⟩
  · simp only [first] at done
    cases done
    exact freeNode_kept kept (kept.failed_malloc holds first)
  simp only [first] at done
  obtain ⟨⟨found, w₂⟩, walked, rest⟩ := Option.bind_eq_some_iff.mp done
  have holds₂ := kept.free (walk_kept kept (kept.malloc holds first) walked).1
  have removed : ∀ {w₃}, freeChain fs fuel target.fsData.firstCluster (w₂.free checkBuf) = some w₃ →
      rmdirEntry fs dir name fuel (freeNode target w₃) = some (r, w') → I held w' :=
    fun freed ends =>
      rmdirEntry_kept kept (freeNode_kept kept (freeChain_kept kept holds₂ freed)) known ends
  rcases found with ⟨cluster, i, buf⟩ | _ | _
  · cases rest
    exact freeNode_kept kept holds₂
  · obtain ⟨w₃, freed, ends⟩ := Option.bind_eq_some_iff.mp rest
    exact removed freed ends
  · obtain ⟨w₃, freed, ends⟩ := Option.bind_eq_some_iff.mp rest
    exact removed freed ends

theorem rmdir_kept (holds : I held w) (known : Known dir.fsData.firstCluster)
    (done : rmdir fs dir name fuel w = some (r, w')) : I held w' := by
  unfold rmdir at done
  split_ifs at done
  · cases done
    exact holds
  obtain ⟨⟨found, w₁⟩, looked, rest⟩ := Option.bind_eq_some_iff.mp done
  have holds₁ := (lookup_kept kept holds looked).1
  cases found with
  | none =>
    cases rest
    exact holds₁
  | some target =>
    dsimp only at rest
    split_ifs at rest
    · cases rest
      exact freeNode_kept kept holds₁
    · exact rmdirTarget_kept kept holds₁ known rest

theorem unlinkHit_kept (holds : I (tmp :: held) w) (writable : Writable cluster)
    (done : unlinkHit fs tmp cluster i buf fuel w = some (r, w')) : I held w' := by
  obtain ⟨w₁, freed, ends⟩ := Option.map_eq_some_iff.mp done
  have holds₁ : I (tmp :: held) w₁ := by
    split_ifs at freed
    · exact freeChain_kept kept holds freed
    · exact Option.some.inj freed ▸ holds
  have holds₂ := kept.writeCluster (buf.put (entrySize * i) 0xE5) writable holds₁
  generalize writeCluster fs cluster (buf.put (entrySize * i) 0xE5) w₁ = answer at holds₂ ends
  rcases answer with ⟨_ | _, w₂⟩
  · cases ends
    exact kept.free holds₂
  · cases ends
    exact kept.free holds₂

theorem unlink_kept (holds : I held w) (known : Known dir.fsData.firstCluster)
    (done : unlink fs dir name fuel w = some (r, w')) : I held w' := by
  unfold unlink at done
  split_ifs at done
  · cases done
    exact holds
  rcases first : w.malloc fs.clusterSize with ⟨_ | tmp, w₁⟩
  · simp only [first] at done
    cases done
    exact kept.failed_malloc holds first
  simp only [first] at done
  obtain ⟨⟨found, w₂⟩, walked, rest⟩ := Option.bind_eq_some_iff.mp done
  obtain ⟨holds₂, stops⟩ := walk_kept kept (kept.malloc holds first) walked
  rcases found with ⟨cluster, i, buf⟩ | _ | _
  · exact unlinkHit_kept kept holds₂ (stops known _ _ _ rfl) rest
  · cases rest
    exact kept.free holds₂
  · cases rest
    exact kept.free holds₂

/-! ## Files -/

theorem readSkip_kept (n cluster : ℕ) (holds : I held w) : I held (readSkip fs n cluster w).2 := by
  induction n generalizing cluster w with
  | zero => exact holds
  | succ n ih =>
    rw [readSkip]
    split
    · exact ih _ (kept.getNextCluster cluster holds).1
    · exact holds

theorem readLoop_kept {got : ℕ} (holds : I held w)
    (done : readLoop fs count fuel got start cluster buf dst w = some (r, dst', w')) :
    I held w' := by
  induction fuel generalizing got start cluster buf dst w with
  | zero => cases done
  | succ fuel ih =>
    rw [readLoop] at done
    by_cases more : got < count ∧ InChain cluster
    · rw [if_pos more] at done
      have holds₁ := kept.readCluster cluster buf holds
      generalize readCluster fs cluster buf w = answer at holds₁ done
      rcases answer with ⟨_ | buf, w₁⟩
      · cases done
        exact holds₁
      · exact ih (kept.getNextCluster cluster holds₁).1 done
    · rw [if_neg more] at done
      cases done
      exact holds

theorem read_kept (holds : I held w)
    (done : read fs node dst count offset fuel w = some (r, dst', w')) : I held w' := by
  unfold read at done
  split_ifs at done
  · cases done
    exact holds
  all_goals
    rcases first : w.malloc fs.clusterSize with ⟨_ | tmp, w₁⟩
    · simp only [first] at done
      cases done
      exact kept.failed_malloc holds first
    simp only [first] at done
    obtain ⟨⟨n, buffer, w₂⟩, looped, ends⟩ := Option.map_eq_some_iff.mp done
    cases ends
    exact kept.free (readLoop_kept kept (readSkip_kept kept _ _ (kept.malloc holds first)) looped)

theorem growAtEnd_kept (holds : I held w) (known : Known cur.cluster)
    (done : growAtEnd fs cur w = (ok, cur', w')) :
    I held w' ∧ Known cur'.cluster ∧ (ok = true → Writable cur'.cluster) ∧
      cur'.inode.dirCluster = cur.inode.dirCluster := by
  unfold growAtEnd at done
  obtain ⟨holds₁, isNew⟩ := kept.allocCluster holds
  generalize allocCluster fs w = answer at holds₁ isNew done
  dsimp only at holds₁ isNew done
  split_ifs at done with atEnd full linked
  · cases done
    exact ⟨holds₁, known, nofun, rfl⟩
  · cases done
    have new := isNew full
    exact ⟨kept.setFatEntry _ (.inr new) holds₁, kept.known new, fun _ => kept.writable_new new, rfl⟩
  · cases done
    have new := isNew full
    exact ⟨holds₁, kept.known new, fun _ => kept.writable_new new, rfl⟩
  · cases done
    exact ⟨holds, known, fun _ => kept.writable known (not_le.mp atEnd), rfl⟩

theorem writeSkip_kept {n : ℕ} (holds : I held w) (known : Known cur.cluster)
    (done : writeSkip fs n cur w = (ok, cur', w')) :
    I held w' ∧ Known cur'.cluster ∧ cur'.inode.dirCluster = cur.inode.dirCluster := by
  induction n generalizing cur w with
  | zero =>
    cases done
    exact ⟨holds, known, rfl⟩
  | succ n ih =>
    rw [writeSkip] at done
    rcases grew : growAtEnd fs cur w with ⟨_ | _, cur₁, w₁⟩
    all_goals
      obtain ⟨holds₁, known₁, -, slot⟩ := growAtEnd_kept kept holds known grew
      rw [grew] at done
    · cases done
      exact ⟨holds₁, known₁, slot⟩
    · dsimp only at done
      split_ifs at done
      · obtain ⟨holds₂, knownNext⟩ := kept.getNextCluster cur₁.cluster holds₁
        obtain ⟨holds₃, known₃, slot₃⟩ := ih holds₂ (by exact knownNext) done
        exact ⟨holds₃, known₃, slot₃.trans slot⟩
      · obtain ⟨holds₂, known₂, slot₂⟩ := ih holds₁ (by exact known₁) done
        exact ⟨holds₂, known₂, slot₂.trans slot⟩

theorem loadRound_kept (cluster start left : ℕ) (buf : Bytes) (holds : I held w) :
    I held (loadRound fs cluster start left buf w).2 := by
  unfold loadRound
  split
  · have holds₁ := kept.readCluster cluster buf holds
    generalize readCluster fs cluster buf w = answer at holds₁ ⊢
    rcases answer with ⟨_ | buf, w₁⟩
    · exact holds₁
    · exact holds₁
  · exact holds

omit kept

/-- In the second loop of `fat32_write` a call of `fat32_alloc_cluster` returns `new`. -/
inductive LoopAllocates (fs : Fs) (src : Bytes) (count new : ℕ) :
    (written start : ℕ) → Cursor → Bytes → World → Prop
  | here {written start : ℕ} {cur : Cursor} {buf : Bytes} {w : World} (more : written < count)
      (atEnd : eocMin ≤ cur.cluster) (returned : (allocCluster fs w).1 = new) :
      LoopAllocates fs src count new written start cur buf w
  | later {written start next : ℕ} {cur cur₁ : Cursor} {buf buf₂ : Bytes} {w w₁ w₂ w₃ w₄ : World}
      (more : written < count) (grew : growAtEnd fs cur w = (true, cur₁, w₁))
      (loaded : loadRound fs cur₁.cluster start (count - written) buf w₁ = (buf₂, w₂))
      (stored : writeCluster fs cur₁.cluster
        (buf₂.blit start src written (chunk fs start (count - written))) w₂ = (true, w₃))
      (linked : getNextCluster fs cur₁.cluster w₃ = (next, w₄))
      (rest : LoopAllocates fs src count new (written + chunk fs start (count - written)) 0
        { cur₁ with cluster := next, prev := cur₁.cluster }
        (buf₂.blit start src written (chunk fs start (count - written))) w₄) :
      LoopAllocates fs src count new written start cur buf w

theorem growAtEnd_fst (cur : Cursor) (w : World) :
    (growAtEnd fs cur w).1 = false ↔ eocMin ≤ cur.cluster ∧ (allocCluster fs w).1 = 0 := by
  unfold growAtEnd
  by_cases atEnd : eocMin ≤ cur.cluster
  · rw [if_pos atEnd]
    rcases allocCluster fs w with ⟨new, w₁⟩
    dsimp only
    split_ifs with full linked
    · exact iff_of_true rfl ⟨atEnd, full⟩
    · exact iff_of_false nofun fun h => full h.2
    · exact iff_of_false nofun fun h => full h.2
  · rw [if_neg atEnd]
    exact iff_of_false nofun fun h => atEnd h.1

theorem LoopAllocates.next {count written start : ℕ} {src buf buf₂ : Bytes} {cur cur₁ : Cursor}
    {w₁ w₂ : World} (round : LoopAllocates fs src count 0 written start cur buf w)
    (grew : growAtEnd fs cur w = (true, cur₁, w₁))
    (loaded : loadRound fs cur₁.cluster start (count - written) buf w₁ = (buf₂, w₂)) :
    ∃ next w₃ w₄, writeCluster fs cur₁.cluster
        (buf₂.blit start src written (chunk fs start (count - written))) w₂ = (true, w₃) ∧
      getNextCluster fs cur₁.cluster w₃ = (next, w₄) ∧
      LoopAllocates fs src count 0 (written + chunk fs start (count - written)) 0
        { cur₁ with cluster := next, prev := cur₁.cluster }
        (buf₂.blit start src written (chunk fs start (count - written))) w₄ := by
  cases round with
  | here _ atEnd returned =>
    have failed := (growAtEnd_fst cur w).mpr ⟨atEnd, returned⟩
    rw [grew] at failed
    cases failed
  | later _ grew' loaded' stored linked rest =>
    rw [grew] at grew'
    cases grew'
    rw [loaded] at loaded'
    cases loaded'
    exact ⟨_, _, _, stored, linked, rest⟩

theorem LoopAllocates.more {count written start : ℕ} {src buf : Bytes} {cur : Cursor}
    (round : LoopAllocates fs src count 0 written start cur buf w) : written < count := by
  cases round with
  | here more => exact more
  | later more => exact more

/-- The inode with which the second loop of `fat32_write` ends. -/
def WriteEnd.inode : WriteEnd → Inode
  | .finished _ inode => inode
  | .aborted _ inode => inode

include kept

/-- The second loop of `fat32_write` frees the buffer if and only if one of its allocations returns 0;
then it has not written all bytes. -/
theorem writeLoop_kept {written : ℕ} {ending : WriteEnd} (holds : I (tmp :: held) w)
    (known : Known cur.cluster)
    (done : writeLoop fs tmp src count fuel written start cur buf w = some (ending, w')) :
    ending.inode.dirCluster = cur.inode.dirCluster ∧
    ((LoopAllocates fs src count 0 written start cur buf w ∧ I held w' ∧
      ∃ n inode, ending = .finished n inode ∧ n < count) ∨
    ¬ LoopAllocates fs src count 0 written start cur buf w ∧ I (tmp :: held) w' ∧
      ∀ n inode, ending = .finished n inode → count ≤ n) := by
  induction fuel generalizing written start cur buf w with
  | zero => cases done
  | succ fuel ih =>
    rw [writeLoop] at done
    by_cases more : written < count
    · rw [if_pos more] at done
      rcases grew : growAtEnd fs cur w with ⟨_ | _, cur₁, w₁⟩
      all_goals
        obtain ⟨holds₁, known₁, writable, slot⟩ := growAtEnd_kept kept holds known grew
        rw [grew] at done
      · obtain ⟨atEnd, full⟩ := (growAtEnd_fst cur w).mp (congrArg Prod.fst grew)
        cases done
        exact ⟨slot, .inl ⟨.here more atEnd full, kept.free holds₁, written, cur₁.inode, rfl, more⟩⟩
      dsimp only at done
      have holds₂ := loadRound_kept kept cur₁.cluster start (count - written) buf holds₁
      rcases loaded : loadRound fs cur₁.cluster start (count - written) buf w₁ with ⟨buf₂, w₂⟩
      rw [loaded] at done holds₂
      have holds₃ := kept.writeCluster (buf₂.blit start src written
        (chunk fs start (count - written))) (writable rfl) holds₂
      rcases stored : writeCluster fs cur₁.cluster
        (buf₂.blit start src written (chunk fs start (count - written))) w₂ with ⟨_ | _, w₃⟩
      · rw [stored] at done holds₃
        cases done
        refine ⟨slot, .inr ⟨fun round => ?_, holds₃, nofun⟩⟩
        obtain ⟨_, _, _, stored', -⟩ := round.next grew loaded
        rw [stored] at stored'
        cases stored'
      rw [stored] at done holds₃
      dsimp only at done holds₃
      obtain ⟨holds₄, knownNext⟩ := kept.getNextCluster cur₁.cluster holds₃
      rcases linked : getNextCluster fs cur₁.cluster w₃ with ⟨next, w₄⟩
      rw [linked] at done holds₄ knownNext
      obtain ⟨slot₄, ends⟩ := ih holds₄ (by exact knownNext) done
      refine ⟨slot₄.trans slot, ?_⟩
      rcases ends with ⟨round, freed, short⟩ | ⟨never, rest, all⟩
      · exact .inl ⟨.later more grew loaded stored linked round, freed, short⟩
      · refine .inr ⟨fun round => never ?_, rest, all⟩
        obtain ⟨_, _, _, stored', linked', rest⟩ := round.next grew loaded
        rw [stored] at stored'
        cases stored'
        rw [linked] at linked'
        cases linked'
        exact rest
    · rw [if_neg more] at done
      cases done
      refine ⟨rfl, .inr ⟨fun round => more round.more, holds, fun n inode same => ?_⟩⟩
      cases same
      exact not_lt.mp more

theorem updateDirEntry_kept (holds : I held w) (writable : Writable node.fsData.dirCluster) :
    I held (updateDirEntry fs node w).2 := by
  unfold updateDirEntry
  dsimp only
  split_ifs
  · exact holds
  rcases first : w.malloc fs.clusterSize with ⟨_ | tmp, w₁⟩
  · exact kept.failed_malloc holds first
  dsimp only
  have holds₂ := kept.readCluster node.fsData.dirCluster w₁.heap.junk (kept.malloc holds first)
  generalize readCluster fs node.fsData.dirCluster w₁.heap.junk w₁ = answer at holds₂ ⊢
  rcases answer with ⟨_ | buf, w₂⟩
  · exact kept.free holds₂
  · exact kept.free (kept.writeCluster _ writable holds₂)

omit kept

/-- The volume runs full in the second loop of a write: an allocation there returns 0. -/
def RunsFull (fs : Fs) (node : VfsNode) (src : Bytes) (count : ℕ) (offset : ℤ) (w : World) : Prop :=
  ∃ tmp w₁ cur w₂, w.malloc fs.clusterSize = (some tmp, w₁) ∧
    writeSkip fs (clusterOffset fs offset)
      { cluster := node.fsData.firstCluster, prev := 0, inode := node.fsData } w₁ = (true, cur, w₂) ∧
    LoopAllocates fs src count 0 0 (byteOffset fs offset) cur w₂.heap.junk w₂

theorem runsFull_iff_round {w₁ w₂ : World} (first : w.malloc fs.clusterSize = (some tmp, w₁))
    (skipped : writeSkip fs (clusterOffset fs offset)
      { cluster := node.fsData.firstCluster, prev := 0, inode := node.fsData } w₁ = (ok, cur, w₂)) :
    RunsFull fs node src count offset w ↔ ok = true ∧
      LoopAllocates fs src count 0 0 (byteOffset fs offset) cur w₂.heap.junk w₂ := by
  constructor
  · rintro ⟨tmp', w₁', cur', w₂', allocated, skipped', round⟩
    rw [first] at allocated
    cases allocated
    rw [skipped] at skipped'
    cases skipped'
    exact ⟨rfl, round⟩
  · rintro ⟨rfl, round⟩
    exact ⟨tmp, w₁, cur, w₂, first, skipped, round⟩

include kept

/-- `fat32_write` changes the size and the first cluster of the node.  If the volume runs full, the buffer
is freed although it is not held any more. -/
theorem write_kept {node' : VfsNode} (holds : I held w) (known : Known node.fsData.firstCluster)
    (writable : Writable node.fsData.dirCluster)
    (done : write fs node src count offset fuel w = some (r, node', w')) :
    (∃ size fsData, node' = { node with size := size, fsData := fsData }) ∧
    ((RunsFull fs node src count offset w ∧ ∃ tmp w₁ w₂, w.malloc fs.clusterSize = (some tmp, w₁) ∧
      I held w₂ ∧ w' = w₂.free tmp) ∨ ¬ RunsFull fs node src count offset w ∧ I held w') := by
  unfold write at done
  rcases first : w.malloc fs.clusterSize with ⟨_ | tmp, w₁⟩
  · simp only [first] at done
    cases done
    refine ⟨⟨node.size, node.fsData, rfl⟩, .inr ⟨?_, kept.failed_malloc holds first⟩⟩
    rintro ⟨tmp, w₁, cur, w₂, allocated, -⟩
    rw [first] at allocated
    cases allocated
  simp only [first] at done
  rcases skipped : writeSkip fs (clusterOffset fs offset)
    { cluster := node.fsData.firstCluster, prev := 0, inode := node.fsData } w₁
    with ⟨ok, cur, w₂⟩
  obtain ⟨holds₂, knownCur, slot⟩ := writeSkip_kept kept (kept.malloc holds first) (by exact known)
    skipped
  rw [skipped] at done
  rw [runsFull_iff_round first skipped]
  cases ok with
  | false =>
    cases done
    exact ⟨⟨node.size, cur.inode, rfl⟩, .inr ⟨nofun, kept.free holds₂⟩⟩
  | true =>
    obtain ⟨⟨ending, w₃⟩, looped, ends⟩ := Option.map_eq_some_iff.mp done
    obtain ⟨slot₃, stops⟩ := writeLoop_kept kept holds₂ knownCur looped
    rw [and_iff_right rfl]
    cases ending with
    | aborted n inode =>
      cases ends
      rcases stops with ⟨-, -, _, _, same, -⟩ | ⟨never, holds₃, -⟩
      · cases same
      · exact ⟨⟨node.size, inode, rfl⟩, .inr ⟨never, kept.free holds₃⟩⟩
    | finished n inode =>
      cases ends
      have dirCluster : inode.dirCluster = node.fsData.dirCluster := slot₃.trans slot
      rw [← dirCluster] at writable
      refine ⟨⟨_, inode, rfl⟩, ?_⟩
      rcases stops with ⟨round, holds₃, -⟩ | ⟨never, holds₃, -⟩
      · exact .inl ⟨round, tmp, w₁, _, rfl, updateDirEntry_kept kept holds₃ writable, rfl⟩
      · exact .inr ⟨never, kept.free (updateDirEntry_kept kept holds₃ writable)⟩

end Thuban.Fat32

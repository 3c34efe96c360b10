import Thuban.Fat32.Allocations
import Thuban.Fat32.WriteOutcomes
import Thuban.Fat32.Readdir

/-!
# The buffers of the driver

Every function of the driver gives back the buffers that it has taken from the heap, on each of its ways
out but one: `fat32_write` frees its buffer when the volume runs full in its second loop, leaves the loop,
and frees the buffer once more.
-/

namespace Thuban

open Lib

namespace Fat32

open World (Borrows Lends)

variable {fs : Fs} {w₀ w w' : World} {held : List ℕ} {fuel : ℕ} {dir node : VfsNode}
  {name : CString}

theorem listLoop_heap {entryIndex count : ℤ} {cluster : ℕ} {buf : Bytes} {s s' : Listing}
    (done : listLoop fs entryIndex count fuel cluster buf s w = some (s', w')) :
    w'.heap = w.heap := by
  induction fuel generalizing cluster buf s w with
  | zero => cases done
  | succ fuel ih =>
    rw [listLoop] at done
    split_ifs at done
    · have same := (readCluster_blind fs cluster buf).heap w
      generalize readCluster fs cluster buf w = answer at same done
      rcases answer with ⟨_ | buf, w₁⟩
      · cases done
        exact same
      dsimp only at done
      split at done
      · cases done
        exact same
      · have same' := (getNextCluster_blind fs cluster).heap w₁
        generalize getNextCluster fs cluster w₁ = answer at same' done
        exact (ih done).trans (same'.trans same)
    · cases done
      rfl

theorem readdir_lends {count : ℕ} {offset offset' r : ℤ} {entries : List Dirent}
    (lends : Lends w₀ w held)
    (done : readdir fs dir offset count fuel w = some (r, entries, offset', w')) :
    Lends w₀ w' held := by
  unfold readdir at done
  split_ifs at done
  · cases done
    exact lends
  rcases first : w.malloc fs.clusterSize with ⟨_ | tmp, w₁⟩
  · simp only [first] at done
    cases done
    exact lends.failed_malloc first
  simp only [first] at done
  obtain ⟨⟨s, w₂⟩, looped, ends⟩ := Option.map_eq_some_iff.mp done
  cases ends
  exact ((lends.malloc first).of_heap (listLoop_heap looped)).free

/-! ## The exception -/

theorem write_borrows {node' : VfsNode} {src : Bytes} {count : ℕ} {offset r : ℤ} (ok : w.heap.Ok)
    (done : write fs node src count offset fuel w = some (r, node', w')) :
    Borrows w w' [] ↔ ¬ RunsFull fs node src count offset w := by
  obtain ⟨-, ends⟩ := write_kept (lends_kept fs w) (.refl w) trivial trivial done
  rcases ends with ⟨full, tmp, w₁, w₂, first, lends₂, rfl⟩ | ⟨never, lends⟩
  · refine iff_of_false (fun released => ?_) (not_not.mpr full)
    have dead : tmp ∉ w₂.heap.live := by
      rw [lends₂.borrows.live.mem_iff, List.nil_append, ((World.Keeps.refl w).malloc first).2.1]
      exact fun mem => (ok.below _ mem).false
    have twice := lends₂.borrows.misfree dead
    rw [released.misfreed] at twice
    exact List.cons_ne_self _ _ twice.symm
  · exact iff_of_true lends.borrows never

/-- On a device that does not fail, a write to a file with the clusters `l` runs full if it gets to its
offset and the clusters of the file and of the volume do not take all bytes. -/
theorem runsFull_iff {l : List ℕ} (ready : Ready fs w)
    (chain : ChainOf fs (volume fs w) node.fsData.firstCluster l) (src : Bytes) (count offset : ℕ) :
    RunsFull fs node src count offset w ↔ ¬ Unreached fs (volume fs w) l offset ∧
      storedCount fs (volume fs w) l count offset < count := by
  have now := Becomes.refl ready
  have g := ready.geometry
  have pos := g.clusterSize_pos
  obtain ⟨w₁, allocated, after₁, -⟩ := now.malloc pos
  have lends₁ := (Lends.refl w).malloc allocated
  obtain ⟨cur, w₂, v₂, ext₂, after₂, grown₂, data₂, -, skipped⟩ :=
    writeSkip_spec after₁ (Grown.refl chain) rfl (Cursor.At.start chain node.fsData)
      (offset / fs.clusterSize % 2 ^ 32)
  rw [Nat.zero_add] at skipped
  have amount := grown₂.supply_eq g chain
  rcases skipped with ⟨arrived, pointed, -⟩ | ⟨full, short, used⟩
  · have reached : ¬ Unreached fs (volume fs w) l offset := by
      rw [Unreached, ← amount, not_lt]
      exact pointed.le_length.trans (Nat.le_add_right _ _)
    have wrote₂ : Wrote fs (volume fs w) v₂ node.fsData.firstCluster l ext₂ src (landing fs offset) 0 :=
      Wrote.none grown₂ data₂
    obtain ⟨n, w₃, v₃, ext₃, ends, -, wrote₃, le, -, stops⟩ :=
      writeLoop_spec after₂ wrote₂ pointed w.heap.next count (Nat.mod_lt offset pos) (fun _ => rfl)
        (Nat.zero_le _) w₂.heap.junk
    have lends₂ := (writeSkip_kept (lends_kept fs w) lends₁ trivial arrived).1
    obtain ⟨bound, looped⟩ := ends
    rw [wrote₃.eq_storedCount g chain le stops] at looped
    rw [← clusterOffset_eq] at arrived
    rw [runsFull_iff_round allocated arrived, and_iff_right rfl, byteOffset_eq g,
      and_iff_right reached]
    rcases (writeLoop_kept (lends_kept fs w) lends₂ trivial (looped bound le_rfl)).2
      with ⟨round, -, n', inode, same, less⟩ | ⟨never, -, all⟩
    · cases same
      exact iff_of_true round less
    · exact iff_of_false never (not_lt.mpr (all _ _ rfl))
  · have unreached : Unreached fs (volume fs w) l offset := by
      rw [Unreached, ← amount, supply_eq_length used]
      exact short
    rw [← clusterOffset_eq] at full
    rw [runsFull_iff_round allocated full]
    exact iff_of_false (by simp) fun reached => reached.1 unreached

/-! ## The calls -/

/-- The functions of the driver that take buffers. -/
inductive BufferedCall
  | lookup (dir : VfsNode) (name : CString)
  | create (dir : VfsNode) (name : CString) (mode : ℕ)
  | rmdir (dir : VfsNode) (name : CString)
  | unlink (dir : VfsNode) (name : CString)
  | read (node : VfsNode) (dst : Bytes) (count : ℕ) (offset : ℤ)
  | write (node : VfsNode) (src : Bytes) (count : ℕ) (offset : ℤ)
  | readdir (dir : VfsNode) (offset : ℤ) (count : ℕ)

namespace BufferedCall

/-- The objects that the call returns to its caller, and the world behind it. -/
def run (fs : Fs) (fuel : ℕ) (w : World) : BufferedCall → Option (List ℕ × World)
  | lookup dir name => (Fat32.lookup fs dir name fuel w).map fun r => (r.1.elim [] objects, r.2)
  | create dir name mode => (Fat32.create fs dir name mode fuel w).map fun r => ([], r.2)
  | rmdir dir name => (Fat32.rmdir fs dir name fuel w).map fun r => ([], r.2)
  | unlink dir name => (Fat32.unlink fs dir name fuel w).map fun r => ([], r.2)
  | read node dst count offset =>
      (Fat32.read fs node dst count offset fuel w).map fun r => ([], r.2.2)
  | write node src count offset =>
      (Fat32.write fs node src count offset fuel w).map fun r => ([], r.2.2)
  | readdir dir offset count =>
      (Fat32.readdir fs dir offset count fuel w).map fun r => ([], r.2.2.2)

/-- The call is a write in whose second loop the volume runs full. -/
def RunsFull (fs : Fs) (w : World) : BufferedCall → Prop
  | write node src count offset => Fat32.RunsFull fs node src count offset w
  | _ => False

end BufferedCall

/-- With any outcomes of the calls of the device and of `malloc`, a call gives back every buffer that it
does not return, each once, if it does not run full in a write, and only then.  On a device that does not
fail this depends on the clusters of the file and of the volume. -/
theorem buffers_released_iff {call : BufferedCall} {returned : List ℕ} (ok : w.heap.Ok)
    (done : call.run fs fuel w = some (returned, w')) :
    (Borrows w w' returned ↔ ¬ call.RunsFull fs w) ∧
      ∀ (src : Bytes) (count offset : ℕ) (l : List ℕ), call = .write node src count offset →
        Ready fs w → ChainOf fs (volume fs w) node.fsData.firstCluster l →
          (Borrows w w' returned ↔ Unreached fs (volume fs w) l offset ∨
            storedCount fs (volume fs w) l count offset = count) := by
  have released : Borrows w w' returned ↔ ¬ call.RunsFull fs w := by
    have whole : ∀ {held}, Borrows w w' held → (Borrows w w' held ↔ ¬ False) := fun borrows =>
      iff_of_true borrows not_false
    cases call with
    | lookup dir name =>
      obtain ⟨⟨r, w₁⟩, called, same⟩ := Option.map_eq_some_iff.mp done
      cases same
      have borrows := (lookup_kept (lends_kept fs w) (.refl w) called).1.borrows
      rw [List.append_nil] at borrows
      exact whole borrows
    | create dir name mode =>
      obtain ⟨⟨r, w₁⟩, called, same⟩ := Option.map_eq_some_iff.mp done
      cases same
      exact whole (create_kept (lends_kept fs w) (.refl w) trivial called).borrows
    | rmdir dir name =>
      obtain ⟨⟨r, w₁⟩, called, same⟩ := Option.map_eq_some_iff.mp done
      cases same
      exact whole (rmdir_kept (lends_kept fs w) (.refl w) trivial called).borrows
    | unlink dir name =>
      obtain ⟨⟨r, w₁⟩, called, same⟩ := Option.map_eq_some_iff.mp done
      cases same
      exact whole (unlink_kept (lends_kept fs w) (.refl w) trivial called).borrows
    | read node dst count offset =>
      obtain ⟨⟨r, dst', w₁⟩, called, same⟩ := Option.map_eq_some_iff.mp done
      cases same
      exact whole (read_kept (lends_kept fs w) (.refl w) called).borrows
    | write node src count offset =>
      obtain ⟨⟨r, node', w₁⟩, called, same⟩ := Option.map_eq_some_iff.mp done
      cases same
      exact write_borrows ok called
    | readdir dir offset count =>
      obtain ⟨⟨r, entries, offset', w₁⟩, called, same⟩ := Option.map_eq_some_iff.mp done
      cases same
      exact whole (readdir_lends (.refl w) called).borrows
  refine ⟨released, ?_⟩
  rintro src count offset l rfl ready chain
  have atMost : storedCount fs (volume fs w) l count offset ≤ count := Nat.min_le_left _ _
  rw [released, BufferedCall.RunsFull, runsFull_iff ready chain, not_and_or, not_not]
  exact or_congr_right ⟨fun all => by omega, fun all => by omega⟩

/-- 600 bytes are written to the file `a`, which can have 13 clusters. -/
theorem buffers_released_oneFile : ∃ returned w',
    (BufferedCall.write fileNode (fun _ => 7) 600 (0 : ℕ)).run smallFs 5 oneFile =
      some (returned, w') ∧ Borrows oneFile w' returned := by
  have evaluated : ((BufferedCall.write fileNode (fun _ => 7) 600 (0 : ℕ)).run smallFs 5
      oneFile).isSome = true := by decide +kernel
  obtain ⟨⟨returned, w'⟩, done⟩ := Option.isSome_iff_exists.mp evaluated
  refine ⟨returned, w', done, ?_⟩
  refine ((buffers_released_iff ⟨by decide +kernel, by decide +kernel⟩ done).2 _ _ _ [3] rfl
    sound_oneFile.ready chain_fileNode).mpr (.inr ?_)
  decide +kernel

/-- The file `a` is to take 15 clusters of bytes: the buffer, the first object that the call takes, is
freed twice. -/
theorem buffer_freed_twice :
    ((BufferedCall.write fileNode (fun _ => 7) (15 * 512) (0 : ℕ)).run smallFs 20 oneFile).map
      (fun r => (oneFile.heap.misfreed, r.2.heap.misfreed, oneFile.heap.next)) =
    some ([], [oneFile.heap.next], oneFile.heap.next) := by
  decide +kernel

end Fat32

end Thuban

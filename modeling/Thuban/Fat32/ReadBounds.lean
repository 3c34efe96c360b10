import Thuban.Fat32.Contents

/-!
# Where `fat32_read` stops

The end of a request is `offset + count`, cut to 64 bits, and the request is shortened when this number
exceeds the size.  When the sum wraps to a number that does not, the request keeps its length and only
the end of the chain stops the loop.
-/

namespace Thuban.Fat32

open Lib

/-- The result is not larger than what the file has behind the offset, and the buffer has not changed
behind that many bytes. -/
def StopsAtEnd (size offset : ℕ) (dst : Bytes) (r : ℤ) (dst' : Bytes) : Prop :=
  r ≤ (size - offset : ℕ) ∧ ∀ j, size - offset ≤ j → dst' j = dst j

/-- The request starts behind the end of the file, or its end is a 64-bit number, or the end exceeds the
size even when it is cut to 64 bits. -/
def Clamps (size count offset : ℕ) : Prop :=
  toOff size ≤ offset ∨ offset + count < 2 ^ 64 ∨ size < (offset + count) % 2 ^ 64

variable {fs : Fs} {node : VfsNode} {count offset : ℕ}

theorem chunk_le (fs : Fs) (start left : ℕ) : chunk fs start left ≤ left := by
  unfold chunk
  dsimp only
  split <;> omega

variable {fuel : ℕ} {dst dst' : Bytes} {w w' : World} {r : ℤ}

theorem readLoop_within {got start c : ℕ} {buf : Bytes} (le : got ≤ count)
    (done : readLoop fs count fuel got start c buf dst w = some (r, dst', w')) :
    r ≤ count ∧ ∀ j, count ≤ j → dst' j = dst j := by
  induction fuel generalizing got start c buf dst w with
  | zero => cases done
  | succ fuel ih =>
    rw [readLoop] at done
    split at done
    · cases read : readCluster fs c buf w with
      | mk answer w₁ =>
        rw [read] at done
        cases answer with
        | none =>
          cases done
          refine ⟨?_, fun _ _ => rfl⟩
          split <;> omega
        | some buf₁ =>
          have short := chunk_le fs start (count - got)
          obtain ⟨bound, same⟩ := ih (by omega) done
          refine ⟨bound, fun j behind => (same j behind).trans ?_⟩
          exact Bytes.blit_outside _ _ _ _ _ _ (by omega)
    · cases done
      exact ⟨by omega, fun _ _ => rfl⟩

theorem bmod_of_half_le {n m : ℕ} (half : m ≤ 2 * n) (lt : n < m) : (n : ℤ).bmod m = n - m := by
  rw [Int.bmod_def, Int.emod_eq_of_lt (by omega) (by omega), if_neg (by omega)]

theorem before_of_not_behind (word : node.size < 2 ^ 64) (before : ¬ toOff node.size ≤ offset) :
    offset < node.size ∧ node.size < 2 ^ 63 := by
  rcases Nat.lt_or_ge node.size (2 ^ 63) with signed | large
  · have same : toOff node.size = node.size := Int.bmod_eq_of_le (by omega) (by omega)
    rw [same] at before
    exact ⟨by omega, signed⟩
  · have negative : toOff node.size = node.size - (2 ^ 64 : ℕ) :=
      bmod_of_half_le (by omega) word
    rw [negative] at before
    omega

theorem read_within (before : offset < node.size) (signed : node.size < 2 ^ 63)
    (done : read fs node dst count offset fuel w = some (r, dst', w')) :
    r ≤ readCount node.size count offset ∧
      ∀ j, readCount node.size count offset ≤ j → dst' j = dst j := by
  have same : toOff node.size = node.size := Int.bmod_eq_of_le (by omega) (by omega)
  rw [read, same, if_neg (by exact_mod_cast not_le.mpr before)] at done
  simp only [clampedCount before signed] at done
  cases allocated : w.malloc fs.clusterSize with
  | mk tmp w₁ =>
    rw [allocated] at done
    cases tmp with
    | none =>
      cases done
      exact ⟨by omega, fun _ _ => rfl⟩
    | some tmp =>
      obtain ⟨⟨n, dst₁, w₂⟩, ended, result⟩ := Option.map_eq_some_iff.mp done
      cases result
      exact readLoop_within (Nat.zero_le _) ended

theorem readCount_le (clamps : Clamps node.size count offset) (before : offset < node.size)
    (signed : node.size < 2 ^ 63) : readCount node.size count offset ≤ node.size - offset := by
  have same : toOff node.size = node.size := Int.bmod_eq_of_le (by omega) (by omega)
  rw [readCount]
  rcases clamps with behind | inside | large
  · rw [same] at behind
    omega
  · split <;> omega
  · rw [if_pos large]

theorem lt_readCount (wraps : ¬ Clamps node.size count offset) (before : offset < node.size)
    (signed : node.size < 2 ^ 63) : node.size - offset < readCount node.size count offset := by
  have kept : ¬ node.size < (offset + count) % 2 ^ 64 := fun large => wraps (.inr (.inr large))
  have wrapped : ¬ offset + count < 2 ^ 64 := fun inside => wraps (.inr (.inl inside))
  rw [readCount, if_neg kept]
  omega

theorem readSkip_zero (fs : Fs) (n : ℕ) (w : World) : readSkip fs n 0 w = (0, w) := by
  cases n with
  | zero => rfl
  | succ n => exact if_neg (by decide)

theorem read_empty (ready : Ready fs w) (none : node.fsData.firstCluster = 0) (dst : Bytes)
    (count : ℕ) (offset : ℤ) :
    ∃ w', Converges (read fs node dst count offset · w) (0, dst, w') := by
  by_cases behind : toOff node.size ≤ offset
  · exact ⟨w, .const fun fuel => read_behind behind ..⟩
  · obtain ⟨w₁, allocated, -, -⟩ := (Becomes.refl ready).malloc ready.geometry.clusterSize_pos
    refine ⟨w₁.free w.heap.next, .step (fun fuel => ?_) (.const fun _ => rfl)⟩
    have outside : ¬ InChain 0 := by decide
    rw [read, if_neg behind, allocated]
    simp only [none, readSkip_zero, readLoop, outside, and_false, if_false, Option.map_some]
    rfl

theorem stopsAtEnd_of_clamps (word : node.size < 2 ^ 64) (clamps : Clamps node.size count offset)
    (done : read fs node dst count offset fuel w = some (r, dst', w')) :
    StopsAtEnd node.size offset dst r dst' := by
  by_cases behind : toOff node.size ≤ offset
  · rw [read_behind behind] at done
    cases done
    exact ⟨by omega, fun _ _ => rfl⟩
  · obtain ⟨before, signed⟩ := before_of_not_behind word behind
    obtain ⟨bound, same⟩ := read_within before signed done
    have le := readCount_le clamps before signed
    exact ⟨by omega, fun j hj => same j (by omega)⟩

/-- A read whose end is cut correctly stops at the end of the file, whatever the device and the allocator
do.  On a volume where they do not fail, every read of a file with clusters `l` ends, and it stops at the
end of the file when its end is cut correctly or the chain has no bytes behind that end, and only then. -/
theorem read_stops_iff (word : node.size < 2 ^ 64) (dst : Bytes) :
    (Clamps node.size count offset → ∀ fuel w r dst' w',
      read fs node dst count offset fuel w = some (r, dst', w') →
        StopsAtEnd node.size offset dst r dst') ∧
    ∀ w l, Ready fs w → Owned fs (volume fs w) node.fsData.firstCluster l → ∃ r dst' w',
      Converges (fun fuel => read fs node dst count offset fuel w) (r, dst', w') ∧
      (StopsAtEnd node.size offset dst r dst' ↔
        Clamps node.size count offset ∨
          l.length * fs.clusterSize - landing fs offset ≤ node.size - offset) := by
  refine ⟨fun clamps fuel w r dst' w' done => stopsAtEnd_of_clamps word clamps done,
    fun w l ready owned => ?_⟩
  by_cases behind : toOff node.size ≤ offset
  · -- Nothing is read at all.
    exact ⟨0, dst, w, .const fun fuel => read_behind behind ..,
      iff_of_true ⟨by omega, fun _ _ => rfl⟩ (.inl (.inl behind))⟩
  · obtain ⟨before, signed⟩ := before_of_not_behind word behind
    rcases owned with chain | ⟨none, rfl⟩
    · obtain ⟨n, dst', w', ends, -, fetched, amount⟩ :=
        read_exact (.refl ready) chain signed dst count before
      refine ⟨n, dst', w', ends, ?_⟩
      constructor
      · rintro ⟨bound, -⟩
        by_contra neither
        have large := lt_readCount (fun clamps => neither (.inl clamps)) before signed
        have rest : ¬ l.length * fs.clusterSize - landing fs offset ≤ node.size - offset :=
          fun short => neither (.inr short)
        omega
      · intro either
        have bound : n ≤ node.size - offset := by
          rcases either with clamps | short
          · have le := readCount_le clamps before signed
            omega
          · omega
        exact ⟨by omega, fun j hj => fetched.outside j (by omega)⟩
    · obtain ⟨w', ends⟩ := read_empty ready none dst count offset
      refine ⟨0, dst, w', ends, iff_of_true ⟨by omega, fun _ _ => rfl⟩ (.inr ?_)⟩
      simp

/-- The file `a` with five bytes: its node and the world. -/
def fiveBytes : Option (VfsNode × World) :=
  (lookup smallFs (rootNode smallFs 0 0 0) [0x61] 5 oneFile).bind fun
    | (none, _) => none
    | (some node, w) => (write smallFs node (fun _ => 7) 5 0 5 w).map fun
      | (_, node, w) => (node, w)

/-- Of a hundred bytes from offset 2 on, three are there. -/
theorem read_stops_iff_fiveBytes : ∃ node w dst' w', fiveBytes = some (node, w) ∧
    read smallFs node (fun _ => 0) 100 (2 : ℕ) 5 w = some (3, dst', w') ∧
    StopsAtEnd node.size 2 (fun _ => 0) 3 dst' := by
  have made : fiveBytes.isSome = true := by decide +kernel
  have size : (fiveBytes.map fun p => p.1.size) = some 5 := by decide +kernel
  have answer : (fiveBytes.bind fun p =>
      (read smallFs p.1 (fun _ => 0) 100 (2 : ℕ) 5 p.2).map Prod.fst) = some 3 := by decide +kernel
  obtain ⟨⟨node, w⟩, here⟩ := Option.isSome_iff_exists.mp made
  rw [here, Option.map_some] at size
  rw [here, Option.bind_some] at answer
  have five : node.size = 5 := Option.some.inj size
  obtain ⟨⟨r, dst', w'⟩, done, three⟩ := Option.map_eq_some_iff.mp answer
  obtain rfl : r = 3 := three
  have word : node.size < 2 ^ 64 := by omega
  have clamps : Clamps node.size 100 2 := .inr (.inl (by decide))
  have stops := (@read_stops_iff smallFs node 100 2 word (fun _ => 0)).1 clamps 5 w 3 dst' w' done
  exact ⟨node, w, dst', w', here, done, stops⟩

/-- From offset 1 on, `2 ^ 64 - 1` bytes are asked for: the end of the request wraps to 0, and the rest
of the cluster is returned. -/
theorem read_runs_on : (fiveBytes.bind fun p =>
    (read smallFs p.1 (fun _ => 0) (2 ^ 64 - 1) 1 5 p.2).map fun q => (p.1.size, q.1)) =
      some (5, 511) := by
  decide +kernel

end Thuban.Fat32

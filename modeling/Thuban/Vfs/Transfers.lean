import Thuban.Fat32.Contents
import Thuban.Vfs.Ancestors
import Thuban.Vfs.Descriptors

/-!
# Transfers in several calls

Every call of `vfs_read` and `vfs_write` finds its place in the file from the offset that the last call
has stored.  Reading or writing a file piece by piece gives what one call gives.
-/

namespace Thuban.Vfs

open Lib
open Fat32 (Slot Ready Consistent Denotes ChainOf ReadsAs Written freeClusters)

/-! ## Successive calls -/

def bytesOf (data : List UInt8) : Bytes := fun j => data.getD j 0

/-- The `n` bytes from `offset` on. -/
def slice (bytes : Bytes) (offset n : ℕ) : List UInt8 :=
  (List.range n).map fun j => bytes (offset + j)

/-- Successive calls of `vfs_read` on one descriptor, each with its buffer and count: the bytes that
each of them returns. -/
def readChunks (fd : ℤ) : List (Bytes × ℕ) → (fuel : ℕ) → Vfs → Option (List (List UInt8) × Vfs)
  | [], _, st => some ([], st)
  | (dst, count) :: rest, fuel, st =>
      (st.vfsRead fd dst count fuel).bind fun r =>
        (readChunks fd rest fuel r.2.2).map fun q => (slice r.2.1 0 r.1.toNat :: q.1, q.2)

/-- Successive calls of `vfs_write` on one descriptor: what they return. -/
def writeChunks (fd : ℤ) : List (List UInt8) → (fuel : ℕ) → Vfs → Option (List ℤ × Vfs)
  | [], _, st => some ([], st)
  | data :: rest, fuel, st =>
      (st.vfsWrite fd (bytesOf data) data.length fuel).bind fun r =>
        (writeChunks fd rest fuel r.2).map fun q => (r.1 :: q.1, q.2)

theorem slice_add (bytes : Bytes) (offset m n : ℕ) :
    slice bytes offset (m + n) = slice bytes offset m ++ slice bytes (offset + m) n := by
  simp [slice, List.range_add, Function.comp_def, Nat.add_assoc]

variable {a b : List UInt8} {j : ℕ}

theorem slice_congr {a b : Bytes} {i n : ℕ} (same : ∀ k < n, a (i + k) = b (j + k)) :
    slice a i n = slice b j n :=
  List.map_congr_left fun k hk => same k (List.mem_range.mp hk)

theorem length_slice (bytes : Bytes) (offset n : ℕ) : (slice bytes offset n).length = n := by
  simp [slice]

theorem bytesOf_append_left (inside : j < a.length) : bytesOf (a ++ b) j = bytesOf a j := by
  simp [bytesOf, List.getElem?_append_left inside]

theorem bytesOf_append_right (behind : a.length ≤ j) :
    bytesOf (a ++ b) j = bytesOf b (j - a.length) := by
  simp [bytesOf, List.getElem?_append_right behind]

/-! ## An open file -/

/-- The file system that the node at an address belongs to. -/
def fsAt (st : Vfs) (a : ℕ) : Fat32.Fs := st.fsOf (st.nodes a)

/-- The contents of this file system. -/
def volumeAt (st : Vfs) (a : ℕ) : Fat32.Volume := Fat32.volume (st.fsAt a) st.world

/-- `fd` is a descriptor for the regular file with the entry `t` and the clusters `l`, which hold its
size; its node is allocated.  The volume is consistent, and its device and the allocator do not fail. -/
structure OpenFile (st : Vfs) (fd : ℤ) (file : VfsFile) (t : Slot) (l : List ℕ) : Prop where
  entry : st.getFile fd = some file
  ok : st.world.heap.Ok
  live : file.node ∈ st.world.heap.live
  ready : Ready (st.fsAt file.node) st.world
  consistent : Consistent (st.fsAt file.node) (st.volumeAt file.node)
  denotes : Denotes (st.fsAt file.node) (st.volumeAt file.node) (st.nodes file.node) (some t)
  regular : (st.nodes file.node).isDirectory = false
  word : (st.nodes file.node).size < 2 ^ 32
  chain : ChainOf (st.fsAt file.node) (st.volumeAt file.node)
    (st.nodes file.node).fsData.firstCluster l
  holds : (st.nodes file.node).size ≤ l.length * (st.fsAt file.node).clusterSize

def fileBytes (st : Vfs) (file : VfsFile) (l : List ℕ) : Bytes :=
  Fat32.contents (st.fsAt file.node) (st.volumeAt file.node) l

namespace OpenFile

variable {st : Vfs} {fd : ℤ} {file : VfsFile} {t : Slot} {l : List ℕ}

theorem of_parts {fs : Fat32.Fs} {v : Fat32.Volume} {node : VfsNode} {size : ℕ}
    (entry : st.getFile fd = some file) (ok : st.world.heap.Ok)
    (live : file.node ∈ st.world.heap.live) (sameFs : st.fsAt file.node = fs)
    (sameVolume : st.volumeAt file.node = v) (sameNode : st.nodes file.node = { node with size })
    (ready : Ready fs st.world) (consistent : Consistent fs v) (denotes : Denotes fs v node (some t))
    (regular : node.isDirectory = false) (word : size < 2 ^ 32)
    (chain : ChainOf fs v node.fsData.firstCluster l) (holds : size ≤ l.length * fs.clusterSize) :
    OpenFile st fd file t l := by
  subst sameFs sameVolume
  refine ⟨entry, ok, live, ready, consistent, ?_, ?_, ?_, ?_, ?_⟩ <;> rw [sameNode]
  · exact ⟨denotes.reach, denotes.kind, denotes.first, denotes.place⟩
  · exact regular
  · exact word
  · exact chain
  · exact holds

theorem getFile_setFd (opened : st.getFile fd = some file) (st' : Vfs) (file' : VfsFile) :
    (st'.setFd fd.toNat (some file')).getFile fd = some file' := by
  unfold getFile at opened ⊢
  split_ifs at opened ⊢
  exact Function.update_self ..

theorem peek_eq (opened : OpenFile st fd file t l) : st.peek file.node = st.nodes file.node :=
  peek_live opened.live

theorem kept (opened : OpenFile st fd file t l) {w' : World} (keeps : World.Keeps st.world w') :
    w'.heap.Ok ∧ file.node ∈ w'.heap.live :=
  ⟨keeps.ok opened.ok, (keeps.live _ (opened.ok.below _ opened.live)).mpr opened.live⟩

theorem readsAs (opened : OpenFile st fd file t l) :
    ReadsAs (st.fsAt file.node) (st.volumeAt file.node) (st.nodes file.node)
      (st.nodes file.node).size (st.fileBytes file l) :=
  Fat32.readsAs opened.chain opened.word opened.holds

theorem moved {file : VfsFile} {offset : ℕ} (here : file.offset = offset) (n : ℕ) :
    (if 0 < (n : ℤ) then { file with offset := (offset : ℤ) + n } else file) =
      { file with offset := (offset + n : ℕ) } := by
  rw [Nat.cast_add]
  split_ifs with some
  · rfl
  · obtain rfl : n = 0 := by omega
    rw [Nat.cast_zero, add_zero, ← here]

theorem seek (opened : OpenFile st fd file t l) {w' : World} (keeps : World.Keeps st.world w')
    (ready : Ready (st.fsAt file.node) w')
    (same : Fat32.volume (st.fsAt file.node) w' = st.volumeAt file.node) (offset : ℤ) :
    OpenFile ((st.setWorld w').setFd fd.toNat (some { file with offset })) fd
      { file with offset } t l :=
  of_parts (getFile_setFd opened.entry _ _) (opened.kept keeps).1 (opened.kept keeps).2 rfl same rfl
    ready opened.consistent opened.denotes opened.regular opened.word opened.chain opened.holds

theorem read (opened : OpenFile st fd file t l) {offset count n : ℕ} (here : file.offset = offset)
    (small : offset + count < 2 ^ 32) (amount : min count ((st.nodes file.node).size - offset) = n)
    (dst : Bytes) :
    ∃ dst' st', Converges (st.vfsRead fd dst count ·) (n, dst', st') ∧
      OpenFile st' fd { file with offset := (offset + n : ℕ) } t l ∧ st'.nodes = st.nodes ∧
      st'.fileBytes file l = st.fileBytes file l ∧
      slice dst' 0 n = slice (st.fileBytes file l) offset n := by
  obtain ⟨m, dst', w', ends, ready, same, -, all, bytes⟩ :=
    opened.readsAs st.world opened.ready rfl dst count offset (by omega)
  obtain rfl : m = n := (all (by omega)).trans amount
  have keeps : World.Keeps st.world w' := by
    obtain ⟨fuel, done⟩ := ends
    exact (Fat32.read_kept (Fat32.lends_kept _ _) (.refl _) (done fuel le_rfl)).keeps
  refine ⟨dst', _, ends.imp fun fuel done => ?_, opened.seek keeps ready same _, rfl, ?_,
    slice_congr fun j hj => ?_⟩
  · rw [vfsRead, opened.entry]
    dsimp only
    rw [opened.peek_eq, here]
    show Option.map _ (Fat32.read (st.fsAt file.node) (st.nodes file.node) dst count offset fuel
      st.world) = _
    rw [done, Option.map_some]
    rw [moved here]
  · show Fat32.contents (st.fsAt file.node) (Fat32.volume (st.fsAt file.node) w') l = _
    rw [same]
    rfl
  · rw [Nat.zero_add]
    exact bytes j hj (by omega)

theorem toOff_eq {n : ℕ} (small : n < 2 ^ 32) : Fat32.toOff n = n :=
  Int.bmod_eq_of_le (by omega) (by omega)

theorem writeOffset_next {st' : Vfs} {offset count : ℕ} (opened : OpenFile st fd file t l)
    (live : file.node ∈ st'.world.heap.live) (here : st.writeOffset file = offset)
    (word : (st.nodes file.node).size < 2 ^ 32) (small : offset + count < 2 ^ 32)
    (grown : (st'.nodes file.node).size = max (st.nodes file.node).size (offset + count)) :
    st'.writeOffset { file with offset := (offset + count : ℕ) } = (offset + count : ℕ) := by
  unfold writeOffset at here ⊢
  rw [opened.peek_eq] at here
  rw [peek_live live]
  split_ifs at here ⊢ with append
  · rw [toOff_eq word] at here
    rw [grown, toOff_eq (by omega)]
    omega
  · rfl

theorem write (opened : OpenFile st fd file t l) (writable : file.flags &&& oAccmode ≠ 0)
    {offset count : ℕ} (here : st.writeOffset file = offset)
    (inside : offset ≤ (st.nodes file.node).size) (small : offset + count < 2 ^ 32)
    (space : offset + count ≤ (l.length +
      (freeClusters (st.fsAt file.node) (st.volumeAt file.node)).length) *
        (st.fsAt file.node).clusterSize) (src : Bytes) :
    ∃ st' l', Converges (st.vfsWrite fd src count ·) (count, st') ∧
      OpenFile st' fd { file with offset := (offset + count : ℕ) } t l' ∧
      st'.nodes file.node =
        { st.nodes file.node with size := max (st.nodes file.node).size (offset + count) } ∧
      Written (st.fsAt file.node) (st.volumeAt file.node) (st'.volumeAt file.node) t l l' src offset
        count (max (st.nodes file.node).size (offset + count)) ∧
      st'.fsAt file.node = st.fsAt file.node ∧
      l.length + (freeClusters (st.fsAt file.node) (st.volumeAt file.node)).length ≤
        l'.length + (freeClusters (st.fsAt file.node) (st'.volumeAt file.node)).length := by
  obtain ⟨w', v', l', ends, after, written, supply⟩ := Fat32.write_fits (.refl opened.ready)
    opened.consistent opened.denotes opened.regular opened.word opened.chain src small space
  have keeps : World.Keeps st.world w' := by
    obtain ⟨fuel, done⟩ := ends
    exact (Fat32.write_keeps (done fuel le_rfl)).1
  generalize grown : max (st.nodes file.node).size (offset + count) = size at ends written ⊢
  let st' : Vfs := ((st.setWorld w').setNode file.node { st.nodes file.node with size }).setFd
    fd.toNat (some { file with offset := (offset + count : ℕ) })
  have node : st'.nodes file.node = { st.nodes file.node with size } := Function.update_self ..
  have fs : st'.fsAt file.node = st.fsAt file.node := by
    rw [fsAt, fsOf, node]
    rfl
  have volume : st'.volumeAt file.node = v' := by
    rw [volumeAt, fs]
    exact after.volume
  refine ⟨st', l', ends.imp fun fuel done => ?_, ?_, node, volume ▸ written, fs, volume ▸ supply⟩
  · rw [vfsWrite, opened.entry]
    dsimp only
    rw [if_neg writable, opened.peek_eq, here]
    show Option.map _ (Fat32.write (st.fsAt file.node) (st.nodes file.node) src count offset fuel
      st.world) = _
    rw [done, Option.map_some]
    rw [@moved { file with offset := (offset : ℤ) } offset rfl count]
  · have longer := Nat.mul_le_mul_right (st.fsAt file.node).clusterSize written.longer
    have covered := written.covered
    have held := opened.holds
    have word := opened.word
    have denotes := opened.denotes.evolve written.evolves (Set.notMem_empty _)
    refine of_parts (getFile_setFd opened.entry _ _) (opened.kept keeps).1 (opened.kept keeps).2 fs
      volume node after.ready written.evolves.consistent denotes opened.regular (by omega) ?_ (by omega)
    rw [denotes.first]
    exact written.chain

theorem fileBytes_written {st' : Vfs} {l' : List ℕ} {src : Bytes} {offset count : ℕ}
    (opened : OpenFile st fd file t l) (fs : st'.fsAt file.node = st.fsAt file.node)
    (written : Written (st.fsAt file.node) (st.volumeAt file.node) (st'.volumeAt file.node) t l l' src
      offset count (max (st.nodes file.node).size (offset + count)))
    (inside : offset ≤ (st.nodes file.node).size) {p : ℕ}
    (before : p < max (st.nodes file.node).size (offset + count)) :
    st'.fileBytes file l' p =
      if offset ≤ p ∧ p < offset + count then src (p - offset) else st.fileBytes file l p := by
  have held := opened.holds
  rw [fileBytes, fs]
  split_ifs with window
  · exact written.stored p window.1 window.2
  · exact written.kept p (by omega) window

/-! ## Runs of calls -/

/-- Successive reads return the bytes of the file in order. -/
theorem readChunks (opened : OpenFile st fd file t l) {offset : ℕ} (here : file.offset = offset)
    (inside : offset ≤ (st.nodes file.node).size) {requests : List (Bytes × ℕ)}
    (small : offset + (requests.map Prod.snd).sum < 2 ^ 32) :
    ∃ segments st', Converges (readChunks fd requests · st) (segments, st') ∧
      List.Forall₂ (fun request segment => segment.length ≤ request.2) requests segments ∧
      segments.flatten = slice (st.fileBytes file l) offset
        (min (requests.map Prod.snd).sum ((st.nodes file.node).size - offset)) := by
  induction requests generalizing st file offset with
  | nil =>
    refine ⟨[], st, .const fun _ => rfl, .nil, ?_⟩
    rw [List.map_nil, List.sum_nil, Nat.zero_min]
    rfl
  | cons request requests ih =>
    obtain ⟨dst, count⟩ := request
    rw [List.map_cons, List.sum_cons] at small ⊢
    obtain ⟨n, amount⟩ : ∃ n, min count ((st.nodes file.node).size - offset) = n := ⟨_, rfl⟩
    obtain ⟨dst', st₁, ends, opened₁, nodes, bytes, first⟩ := opened.read here (by omega) amount dst
    have size : st₁.nodes file.node = st.nodes file.node := congrFun nodes _
    obtain ⟨segments, st₂, rest, lengths, concat⟩ := ih opened₁ rfl
      (by show offset + n ≤ (st₁.nodes file.node).size; rw [size]; omega) (by omega)
    refine ⟨slice dst' 0 n :: segments, st₂, ?_, .cons ?_ lengths, ?_⟩
    · apply ends.bind
      exact rest.imp fun fuel done => by
        rw [done]
        rfl
    · rw [length_slice, ← amount]
      exact Nat.min_le_left ..
    · have split : min (count + (requests.map Prod.snd).sum) ((st.nodes file.node).size - offset) =
          n + min (requests.map Prod.snd).sum ((st.nodes file.node).size - (offset + n)) := by
        omega
      rw [List.flatten_cons, concat, first, split, slice_add]
      show _ ++ slice (st₁.fileBytes file l) _ (min _ ((st₁.nodes file.node).size - _)) = _
      rw [bytes, size]

/-- Successive writes store their bytes one behind the other. -/
theorem writeChunks (opened : OpenFile st fd file t l) (writable : file.flags &&& oAccmode ≠ 0)
    {offset : ℕ} (here : st.writeOffset file = offset)
    (inside : offset ≤ (st.nodes file.node).size) {chunks : List (List UInt8)} (some : chunks ≠ [])
    (small : offset + chunks.flatten.length < 2 ^ 32)
    (space : offset + chunks.flatten.length ≤ (l.length +
      (freeClusters (st.fsAt file.node) (st.volumeAt file.node)).length) *
        (st.fsAt file.node).clusterSize) :
    ∃ st' l' file', Converges (writeChunks fd chunks · st)
        (chunks.map fun data => (data.length : ℤ), st') ∧
      OpenFile st' fd file' t l' ∧ file'.node = file.node ∧
      (st'.nodes file.node).size =
        max (st.nodes file.node).size (offset + chunks.flatten.length) ∧
      (st'.volumeAt file.node).size (.some t) = (st'.nodes file.node).size ∧
      ∀ p < (st'.nodes file.node).size, st'.fileBytes file l' p =
        if offset ≤ p ∧ p < offset + chunks.flatten.length then bytesOf chunks.flatten (p - offset)
        else st.fileBytes file l p := by
  induction chunks generalizing st file l offset with
  | nil => exact absurd rfl some
  | cons data chunks ih =>
    rw [List.flatten_cons, List.length_append] at small space ⊢
    obtain ⟨st₁, l₁, ends, opened₁, node₁, written, fs₁, supply⟩ :=
      opened.write writable here inside (show offset + data.length < 2 ^ 32 by omega) (by omega)
        (bytesOf data)
    have size₁ : (st₁.nodes file.node).size =
        max (st.nodes file.node).size (offset + data.length) := by rw [node₁]
    have bytes₁ := fun p => @fileBytes_written st fd file t l st₁ l₁ _ _ _ opened fs₁ written inside p
    by_cases last : chunks = []
    · subst last
      rw [List.flatten_nil, List.append_nil, List.length_nil, Nat.add_zero]
      refine ⟨st₁, l₁, _, ?_, opened₁, rfl, size₁, written.size.trans size₁.symm, ?_⟩
      · apply ends.bind
        exact .const fun _ => rfl
      · rw [size₁]
        exact bytes₁
    · obtain ⟨st₂, l₂, file₂, rest, opened₂, same, size₂, entry, bytes₂⟩ :=
        @ih st₁ { file with offset := (offset + data.length : ℕ) } l₁ opened₁ writable
          (offset + data.length) (writeOffset_next opened opened₁.live here opened.word (by omega) size₁)
          (by show _ ≤ (st₁.nodes file.node).size; omega) last (by omega) (by
            show _ ≤ (_ + (freeClusters (st₁.fsAt file.node) (st₁.volumeAt file.node)).length) *
              (st₁.fsAt file.node).clusterSize
            rw [fs₁]
            exact le_trans (by omega) (Nat.mul_le_mul_right _ supply))
      have total : max (max (st.nodes file.node).size (offset + data.length))
          (offset + data.length + chunks.flatten.length) =
          max (st.nodes file.node).size (offset + (data.length + chunks.flatten.length)) := by
        omega
      have size : (st₂.nodes file.node).size =
          max (st.nodes file.node).size (offset + (data.length + chunks.flatten.length)) := by
        rw [← total, ← size₁]
        exact size₂
      refine ⟨st₂, l₂, file₂, ?_, opened₂, same, size, entry, fun p before => ?_⟩
      · apply ends.bind
        exact rest.imp fun fuel done => by
          rw [done]
          rfl
      · -- The byte was written by a later call, by this one, or by none.
        have later : st₂.fileBytes file l₂ p = _ := bytes₂ p before
        rw [later]
        by_cases second : offset + data.length ≤ p ∧ p < offset + data.length + chunks.flatten.length
        · rw [if_pos second, if_pos ⟨by omega, by omega⟩, bytesOf_append_right (by omega), Nat.sub_sub]
        rw [if_neg second]
        show st₁.fileBytes file l₁ p = _
        rw [bytes₁ p (by omega)]
        by_cases first : offset ≤ p ∧ p < offset + data.length
        · rw [if_pos first, if_pos ⟨by omega, by omega⟩, bytesOf_append_left (by omega)]
        · rw [if_neg first, if_neg (by omega)]

end OpenFile

/-! ## Cutting a transfer -/

/-- The file has the same size and the same bytes in both states: in its entry, and read through the
descriptor. -/
def SameFile (a : ℕ) (t : Slot) (st st' : Vfs) : Prop :=
  (st.volumeAt a).size (some t) = (st'.volumeAt a).size (some t) ∧
    ∃ size bytes, (st.nodes a).size = size ∧ (st'.nodes a).size = size ∧
      ReadsAs (st.fsAt a) (st.volumeAt a) (st.nodes a) size bytes ∧
      ReadsAs (st'.fsAt a) (st'.volumeAt a) (st'.nodes a) size bytes

theorem readsAs_congr {fs : Fat32.Fs} {v : Fat32.Volume} {node : VfsNode} {size : ℕ}
    {bytes bytes' : Bytes} (reads : ReadsAs fs v node size bytes)
    (same : ∀ p < size, bytes p = bytes' p) : ReadsAs fs v node size bytes' := by
  intro w ready volume dst count offset word
  obtain ⟨n, dst', w', ends, ready', volume', low, all, stored⟩ :=
    reads w ready volume dst count offset word
  exact ⟨n, dst', w', ends, ready', volume', low, all, fun j hj inside =>
    (stored j hj inside).trans (same _ inside)⟩

section Cutting

variable {st : Vfs} {fd : ℤ} {file : VfsFile} {t : Slot} {l : List ℕ}

theorem sameFile_refl (opened : OpenFile st fd file t l) : SameFile file.node t st st :=
  ⟨rfl, _, _, rfl, rfl, opened.readsAs, opened.readsAs⟩

theorem sameFile_of_bytes {st₁ st₂ : Vfs} {file₁ file₂ : VfsFile} {l₁ l₂ : List ℕ} {a : ℕ}
    (opened₁ : OpenFile st₁ fd file₁ t l₁) (opened₂ : OpenFile st₂ fd file₂ t l₂)
    (node₁ : file₁.node = a) (node₂ : file₂.node = a)
    (size : (st₁.nodes a).size = (st₂.nodes a).size)
    (entry : (st₁.volumeAt a).size (some t) = (st₂.volumeAt a).size (some t))
    (bytes : ∀ p < (st₁.nodes a).size, st₁.fileBytes file₁ l₁ p = st₂.fileBytes file₂ l₂ p) :
    SameFile a t st₁ st₂ := by
  subst node₁
  have reads₂ := opened₂.readsAs
  rw [node₂, ← size] at reads₂
  refine ⟨entry, _, _, rfl, size.symm, opened₁.readsAs, readsAs_congr reads₂ fun p before => ?_⟩
  exact (bytes p before).symm

theorem vfsWrite_readOnly (opened : st.getFile fd = some file)
    (readOnly : file.flags &&& oAccmode = 0) (src : Bytes) (count fuel : ℕ) :
    st.vfsWrite fd src count fuel = some (-1, st) := by
  rw [vfsWrite, opened]
  exact if_pos readOnly

theorem writeChunks_readOnly (opened : st.getFile fd = some file)
    (readOnly : file.flags &&& oAccmode = 0) (chunks : List (List UInt8)) (fuel : ℕ) :
    writeChunks fd chunks fuel st = some (chunks.map fun _ => -1, st) := by
  induction chunks with
  | nil => rfl
  | cons data chunks ih =>
    rw [writeChunks, vfsWrite_readOnly opened readOnly, Option.bind_some, ih]
    rfl

/-- Successive calls of `vfs_read` return consecutive pieces of the file, together the bytes from the
offset up to the sum of the counts or the end of the file.  Successive calls of `vfs_write` leave the
file as one call with all the bytes does. -/
theorem chunking_invisible (opened : OpenFile st fd file t l) :
    (∀ (offset : ℕ) (requests : List (Bytes × ℕ)), file.offset = offset →
      offset ≤ (st.nodes file.node).size → (∀ request ∈ requests, 0 < request.2) →
      offset + (requests.map Prod.snd).sum < 2 ^ 32 →
      ∃ segments st', Converges (fun fuel => readChunks fd requests fuel st) (segments, st') ∧
        List.Forall₂ (fun request segment => segment.length ≤ request.2) requests segments ∧
        segments.flatten = slice (st.fileBytes file l) offset
          (min (requests.map Prod.snd).sum ((st.nodes file.node).size - offset))) ∧
    ∀ (offset : ℕ) (chunks : List (List UInt8)), st.writeOffset file = offset →
      offset ≤ (st.nodes file.node).size → chunks ≠ [] → (∀ data ∈ chunks, data ≠ []) →
      offset + chunks.flatten.length < 2 ^ 32 →
      offset + chunks.flatten.length ≤ (l.length +
        (freeClusters (st.fsAt file.node) (st.volumeAt file.node)).length) *
          (st.fsAt file.node).clusterSize →
      ∃ results result st₁ st₂,
        Converges (fun fuel => writeChunks fd chunks fuel st) (results, st₁) ∧
        Converges (fun fuel => st.vfsWrite fd (bytesOf chunks.flatten) chunks.flatten.length fuel)
          (result, st₂) ∧
        SameFile file.node t st₁ st₂ := by
  refine ⟨fun offset requests here inside _ small => opened.readChunks here inside small, ?_⟩
  intro offset chunks here inside some _ small space
  by_cases readOnly : file.flags &&& oAccmode = 0
  · exact ⟨_, _, st, st, .const (writeChunks_readOnly opened.entry readOnly chunks),
      .const (vfsWrite_readOnly opened.entry readOnly _ _), sameFile_refl opened⟩
  · obtain ⟨st₁, l₁, file₁, cut, opened₁, node₁, size₁, entry₁, bytes₁⟩ :=
      opened.writeChunks readOnly here inside some small space
    obtain ⟨st₂, l₂, whole, opened₂, node₂, written, fs₂, -⟩ :=
      opened.write readOnly here inside small space (bytesOf chunks.flatten)
    have size₂ := congrArg VfsNode.size node₂
    refine ⟨_, _, st₁, st₂, cut, whole, sameFile_of_bytes opened₁ opened₂ node₁ rfl
      (size₁.trans size₂.symm) ?_ fun p before => ?_⟩
    · rw [entry₁, size₁]
      exact written.size.symm
    · have first := bytes₁ p before
      rw [size₁] at before
      have second := opened.fileBytes_written fs₂ written inside before
      rw [fileBytes, node₁]
      exact first.trans second.symm

end Cutting

/-- The volume with the file `a` is mounted at `/`. -/
def fileMounted : Vfs :=
  { mounted with
    world := { Fat32.oneFile with heap := { Fat32.oneFile.heap with next := 3, live := [1, 2] } } }

/-- The file `/a` has been opened for reading and writing. -/
def fileOpened : Vfs :=
  { fileMounted with
    world :=
      { Fat32.oneFile with
        heap := { Fat32.oneFile.heap with next := 7, live := [6, 5, 4, 1, 2] } }
    nodes := Function.update fileMounted.nodes 4 (Fat32.nodeOf (fileMounted.nodes 1) 2 0
      ((Fat32.volume Fat32.smallFs Fat32.oneFile).data 2) 4 5)
    fdTable := fun fd => if fd = 0 then some ⟨6, 4, 0, oRdwr, 0, 1⟩ else none }

theorem openFile_fileOpened : OpenFile fileOpened 0 ⟨6, 4, 0, oRdwr, 0, 1⟩ (2, 0) [3] := by
  have ends : Fat32.eocMin ≤ (Fat32.volume Fat32.smallFs Fat32.oneFile).fat 2 ∧
      Fat32.eocMin ≤ (Fat32.volume Fat32.smallFs Fat32.oneFile).fat 3 := by decide +kernel
  have first : (fileOpened.nodes 4).fsData.firstCluster = 3 := by decide +kernel
  have owns : Fat32.Owns Fat32.smallFs (Fat32.volume Fat32.smallFs Fat32.oneFile) none [2] :=
    ⟨.inl (.last (by decide) ends.1), fun _ => by simp⟩
  have found : Fat32.find Fat32.smallFs (Fat32.volume Fat32.smallFs Fat32.oneFile)
      (Fat32.lookupMatch [0x61]) [2] = some (2, 0) := by decide +kernel
  have ready := Fat32.sound_oneFile.ready
  constructor
  · rfl
  · exact ⟨by decide, by decide⟩
  · decide
  · exact ⟨ready.geometry, ready.device, ready.allocator⟩
  · exact Fat32.sound_oneFile.consistent
  · exact Fat32.denotes_nodeOf (Fat32.reach_of_find .root rfl owns found) _ 4 5
  · decide +kernel
  · decide +kernel
  · rw [first]
    exact .last (by decide) ends.2
  · have empty : (fileOpened.nodes 4).size = 0 := by decide +kernel
    rw [empty]
    exact Nat.zero_le _

/-- The file `/a` is opened and written in two calls. -/
theorem chunking_invisible_oneFile :
    (fileMounted.vfsOpen pathA oRdwr 0 9).map (fun r => (r.1, r.2.getFile r.1, r.2.nodes 4)) =
      some (0, fileOpened.getFile 0, fileOpened.nodes 4) ∧
    ∃ results result st₁ st₂,
      Converges (fun fuel => writeChunks 0 [[1], [2, 3]] fuel fileOpened) (results, st₁) ∧
      Converges (fun fuel => fileOpened.vfsWrite 0 (bytesOf [1, 2, 3]) 3 fuel) (result, st₂) ∧
      SameFile 4 (2, 0) st₁ st₂ := by
  refine ⟨by decide +kernel, (chunking_invisible openFile_fileOpened).2 0 [[1], [2, 3]] rfl
    (Nat.zero_le _) (List.cons_ne_nil _ _) (by decide) (by decide) ?_⟩
  show 3 ≤ (1 + _) * 512
  omega

end Thuban.Vfs

import Thuban.Fat32.Invariant
import Thuban.Fat32.Stability

/-!
# The contents of files

The bytes of a file, and what `fat32_write` followed by `fat32_read` does to them when the volume has
room for the write.
-/

namespace Thuban.Fat32

open Lib

/-- The bytes of the file with the clusters `l`. -/
def contents (fs : Fs) (v : Volume) (l : List ℕ) : Bytes := fun p =>
  match l[p / fs.clusterSize]? with
  | some c => v.data c (p % fs.clusterSize)
  | none => 0

/-- In every ready world with the volume `v`, `fat32_read` of `node` ends, changes nothing on the
volume and returns the given bytes up to `size`: all that are asked for, unless the file ends before.
Only when the end of the request exceeds 64 bits may it return bytes behind `size`. -/
def ReadsAs (fs : Fs) (v : Volume) (node : VfsNode) (size : ℕ) (bytes : Bytes) : Prop :=
  ∀ w, Ready fs w → volume fs w = v → ∀ (dst : Bytes) (count offset : ℕ), count < 2 ^ 64 →
    ∃ (n : ℕ) (dst' : Bytes) (w' : World),
      Converges (fun fuel => read fs node dst count offset fuel w) ((n : ℤ), dst', w') ∧
      Ready fs w' ∧ volume fs w' = v ∧ min count (size - offset) ≤ n ∧
      (offset + count < 2 ^ 64 → n = min count (size - offset)) ∧
      ∀ j < n, offset + j < size → dst' j = bytes (offset + j)

def freeClusters (fs : Fs) (v : Volume) : List ℕ :=
  (List.range (fs.totalClusters + 2)).filter fun c => fs.Valid c ∧ v.fat c = freeMark

variable {fs : Fs} {w₀ w : World} {v v' : Volume} {l ext : List ℕ} {first offset n p : ℕ}
  {src dst₀ dst : Bytes} {node : VfsNode} {t : Slot}

/-! ## Bytes by position -/

theorem lt_length_of_lt (g : Geometry fs) (inside : p < l.length * fs.clusterSize) :
    p / fs.clusterSize < l.length :=
  (Nat.div_lt_iff_lt_mul g.clusterSize_pos).mpr inside

theorem contents_append (g : Geometry fs) (inside : p < l.length * fs.clusterSize) :
    contents fs v (l ++ ext) p = contents fs v l p := by
  unfold contents
  rw [List.getElem?_append_left (lt_length_of_lt g inside)]

theorem contents_congr (same : ∀ c ∈ l, v'.data c = v.data c) :
    contents fs v' l = contents fs v l := by
  funext p
  unfold contents
  cases found : l[p / fs.clusterSize]? with
  | none => rfl
  | some c => exact congrFun (same c (List.mem_of_getElem? found)) _

theorem Fetched.contents (g : Geometry fs) (fetched : Fetched fs v l offset dst₀ dst n) {j : ℕ}
    (hj : j < n) (inside : offset + j < l.length * fs.clusterSize) :
    dst j = contents fs v l (offset + j) := by
  have here := List.getElem?_eq_getElem (lt_length_of_lt g inside)
  have split := Nat.div_add_mod' (offset + j) fs.clusterSize
  have byte := fetched.inside _ _ _ here (Nat.mod_lt (offset + j) g.clusterSize_pos) (by omega)
    (by omega)
  rw [split, Nat.add_sub_cancel_left] at byte
  rw [byte, Fat32.contents, here]

theorem Wrote.contents (g : Geometry fs) (wrote : Wrote fs v v' first l ext src offset n)
    (inside : p < (l ++ ext).length * fs.clusterSize) :
    contents fs v' (l ++ ext) p =
      if offset ≤ p ∧ p < offset + n then src (p - offset) else contents fs v (l ++ ext) p := by
  have here := List.getElem?_eq_getElem (lt_length_of_lt g inside)
  have split := Nat.div_add_mod' p fs.clusterSize
  have byte := wrote.inside _ _ _ here (Nat.mod_lt p g.clusterSize_pos)
  rw [split] at byte
  simp only [Fat32.contents, here, byte]

/-! ## Reading -/

theorem readsAs (chain : ChainOf fs v node.fsData.firstCluster l) (small : node.size < 2 ^ 32)
    (holds : node.size ≤ l.length * fs.clusterSize) :
    ReadsAs fs v node node.size (contents fs v l) := by
  intro w ready same dst count offset word
  have now : Becomes fs w w v := ⟨ready, same, le_rfl⟩
  obtain ⟨n, dst', w', ends, after, fetched, low, high⟩ :=
    read_spec now chain small dst word offset
  have enough : min count (node.size - offset) ≤ n := by omega
  refine ⟨n, dst', w', ends, after.ready, after.volume, enough,
    fun fits => le_antisymm (high fits) enough, fun j hj inside => ?_⟩
  exact fetched.contents ready.geometry hj (by omega)

/-! ## Writing with enough space -/

theorem Grown.supply (grown : Grown fs v v' first l ext) (owned : ∀ c ∈ l, v.fat c ≠ freeMark) :
    l.length + (freeClusters fs v).length ≤ (l ++ ext).length + (freeClusters fs v').length := by
  have sub : freeClusters fs v ⊆ ext ++ freeClusters fs v' := fun d hd => by
    simp only [freeClusters, List.mem_append, List.mem_filter, decide_eq_true_eq] at hd ⊢
    by_cases used : d ∈ ext
    · exact .inl used
    · have outside : d ∉ l ++ ext := fun mem =>
        (List.mem_append.mp mem).elim (owned d · hd.2.2) used
      exact .inr ⟨hd.1, hd.2.1, (grown.fatSame d outside).trans hd.2.2⟩
  have nodup : (freeClusters fs v).Nodup := List.nodup_range.filter _
  have fewer := (List.subperm_of_subset nodup sub).length_le
  rw [List.length_append] at fewer ⊢
  omega

theorem Grown.supply_le (g : Geometry fs) (grown : Grown fs v v' first l ext) :
    (l ++ ext).length + (freeClusters fs v').length ≤ l.length + (freeClusters fs v).length := by
  have chained : ∀ c ∈ ext, fs.Valid c ∧ v'.fat c ≠ freeMark := fun c hc =>
    ⟨Chain.node_of_mem grown.chain (List.mem_append_right _ hc),
      ChainOf.fat_ne_zero grown.chain (List.mem_append_right _ hc)⟩
  have sub : ext ++ freeClusters fs v' ⊆ freeClusters fs v := fun d hd => by
    simp only [freeClusters, List.mem_append, List.mem_filter, decide_eq_true_eq] at hd ⊢
    rcases hd with new | ⟨range, valid, free⟩
    · have valid := (chained d new).1
      exact ⟨List.mem_range.mpr valid.2, valid, grown.free d new⟩
    · refine ⟨range, valid, ?_⟩
      rw [← grown.fatSame d fun mem => ChainOf.fat_ne_zero grown.chain mem free]
      exact free
  have nodup : (ext ++ freeClusters fs v').Nodup := by
    refine (List.nodup_append.mp (ChainOf.nodup g grown.chain)).2.1.append
      (List.nodup_range.filter _) fun c hc free => (chained c hc).2 ?_
    simp only [freeClusters, List.mem_filter, decide_eq_true_eq] at free
    exact free.2.2
  have fewer := (List.subperm_of_subset nodup sub).length_le
  rw [List.length_append] at fewer ⊢
  omega

theorem Full.lt {size : ℕ} (full : Full fs v' (l ++ ext) size)
    (grown : Grown fs v v' first l ext) (owned : ∀ c ∈ l, v.fat c ≠ freeMark) :
    (l.length + (freeClusters fs v).length) * fs.clusterSize < size := by
  have sub : freeClusters fs v ⊆ ext := fun d hd => by
    simp only [freeClusters, List.mem_filter, decide_eq_true_eq] at hd
    exact grown.free_mem owned full.2 hd.2.1 hd.2.2
  have nodup : (freeClusters fs v).Nodup := List.nodup_range.filter _
  have fewer := (List.subperm_of_subset nodup sub).length_le
  refine lt_of_le_of_lt (Nat.mul_le_mul_right _ ?_) full.1
  rw [List.length_append]
  omega

/-- From `v` to `v'` the file `t` has been written: its chain has grown from `l` to `l'`, `count` bytes
have gone to `offset`, and its entry has got a size. -/
structure Written (fs : Fs) (v v' : Volume) (t : Slot) (l l' : List ℕ) (src : Bytes)
    (offset count size : ℕ) : Prop where
  evolves : Evolves fs v v' ∅
  reach : ∀ o, Reach fs v' o → Reach fs v o
  untouched : Untouched fs v v' t
  find : ∀ d ld name, Reach fs v d → v.isDir d = true → Owns fs v d ld →
    find fs v' (lookupMatch name) ld = find fs v (lookupMatch name) ld
  chain : ChainOf fs v' (v'.first fs (some t)) l'
  longer : l.length ≤ l'.length
  covered : count = 0 ∨ offset + count ≤ l'.length * fs.clusterSize
  stored : ∀ p, offset ≤ p → p < offset + count → contents fs v' l' p = src (p - offset)
  kept : ∀ p, p < l.length * fs.clusterSize → ¬ (offset ≤ p ∧ p < offset + count) →
    contents fs v' l' p = contents fs v l p
  size : v'.size (some t) = size

section Layouts

variable {chain : Owner → List ℕ} {v₁ : Volume} {count : ℕ}

section

variable (g : Geometry fs) (layout : Layout fs v {o | Reach fs v o} chain)
  (reached : Reach fs v (some t)) (regular : v.isDir (some t) = false)
  (wrote : Wrote fs v v₁ (v.first fs (some t)) (chain (some t)) ext src offset count)

include g layout reached regular wrote

theorem wrote_written :
    Written fs v v₁ t (chain (some t)) (chain (some t) ++ ext) src offset count
      (v.size (some t)) where
  evolves := wrote_evolves layout reached regular wrote g
  reach _ h := (wrote_layout layout reached regular wrote g).reach_mem g h
  untouched := wrote_untouched layout reached regular wrote g
  find d ld name hd dir owns := by
    obtain rfl := owns.unique g (layout.owns d hd)
    exact wrote_find layout reached regular wrote hd dir name
  chain := by
    rw [wrote_first layout reached regular wrote g reached]
    exact wrote.grown.chain
  longer := by simp
  covered := wrote.covered
  stored p low high := by
    have covered := wrote.covered
    rw [wrote.contents g (by omega), if_pos ⟨low, high⟩]
  kept p inside other := by
    rw [wrote.contents g, if_neg other, contents_append g inside]
    refine lt_of_lt_of_le inside (Nat.mul_le_mul_right _ ?_)
    simp
  size := by
    obtain ⟨d, hd, dir, mem, -⟩ := layout.placed g reached
    have outside := write_outside layout reached wrote hd (dir_ne regular dir) (mem_slotsOf.mp mem).1
    simp only [Volume.size, wrote.outside _ outside]

theorem written_mod (size : ℕ) :
    Written fs v (v₁.setEntry t size (v₁.first fs (some t))) t (chain (some t))
      (chain (some t) ++ ext) src offset count (size % 2 ^ 32) := by
  have bare := wrote_written g layout reached regular wrote
  have layout₁ := wrote_layout layout reached regular wrote g
  -- The entry stands in a cluster of a directory, so that storing the size keeps the bytes.
  have data : ∀ c ∈ chain (some t) ++ ext,
      (v₁.setEntry t size (v₁.first fs (some t))).data c = v₁.data c := by
    intro c hc
    obtain ⟨d, hd, dir, mem, -⟩ := layout.placed g reached
    refine Function.update_of_ne ?_ _ _
    rintro rfl
    exact write_outside layout reached wrote hd (dir_ne regular dir) (mem_slotsOf.mp mem).1 hc
  have same : contents fs (v₁.setEntry t size (v₁.first fs (some t))) (chain (some t) ++ ext) =
      contents fs v₁ (chain (some t) ++ ext) := contents_congr data
  have first : (v₁.setEntry t size (v₁.first fs (some t))).first fs (some t) =
      v₁.first fs (some t) := (setEntry_sameEntry fs v₁ t t size).first
  refine ⟨bare.evolves.trans (setEntry_evolves g bare.evolves.consistent t size),
    fun o h => (setEntry_layout layout₁ t size).reach_mem g h, bare.untouched.setEntry size,
    fun d ld name hd dir owns => ?_, ?_, bare.longer, bare.covered, ?_, ?_, ?_⟩
  · rw [setEntry_find, bare.find d ld name hd dir owns]
  · rw [first]
    exact bare.chain
  · rw [same]
    exact bare.stored
  · rw [same]
    exact bare.kept
  · simp only [Volume.size, Volume.setEntry, Function.update_self]
    exact entryFileSize_setEntry ..

theorem written {size : ℕ} (small : size < 2 ^ 32) :
    Written fs v (v₁.setEntry t size (v₁.first fs (some t))) t (chain (some t))
      (chain (some t) ++ ext) src offset count size := by
  have stored := written_mod g layout reached regular wrote size
  rwa [Nat.mod_eq_of_lt small] at stored

end

end Layouts

theorem write_fits (now : Becomes fs w₀ w v) (consistent : Consistent fs v)
    (h : Denotes fs v node (some t)) (regular : node.isDirectory = false)
    (word : node.size < 2 ^ 32) (chain : ChainOf fs v node.fsData.firstCluster l) (src : Bytes)
    {count offset : ℕ} (small : offset + count < 2 ^ 32)
    (space : offset + count ≤ (l.length + (freeClusters fs v).length) * fs.clusterSize) :
    ∃ w' v' l', Converges (write fs node src count offset · w)
        (count, { node with size := max node.size (offset + count) }, w') ∧
      Becomes fs w₀ w' v' ∧
      Written fs v v' t l l' src offset count (max node.size (offset + count)) ∧
      l.length + (freeClusters fs v).length ≤ l'.length + (freeClusters fs v').length := by
  have g := now.ready.geometry
  have used : ∀ c ∈ l, v.fat c ≠ freeMark := fun c hc => chain.fat_ne_zero hc
  obtain ⟨valid, slot⟩ := h.valid_slot consistent g
  obtain ⟨r, node', w', v₁, ext, n, ends, wrote, le, reached, result⟩ :=
    write_spec now chain src count offset valid slot
  rw [landing_eq (by omega)] at wrote reached result
  have all : n = count := reached.resolve_right fun full => by
    have := full.lt wrote.grown used
    omega
  subst all
  rcases result with ⟨rfl, rfl, after⟩ | ⟨-, -, -, full, -⟩
  · obtain ⟨chain', layout⟩ := consistent.exists_layout
    rw [h.first] at wrote chain
    obtain rfl := Owned.unique g (.inl chain) (layout.owns _ h.reach).1
    have regular' : v.isDir (some t) = false := h.kind ▸ regular
    rw [newSize_eq (by omega)] at after ends
    rw [h.place t rfl, h.first, ← wrote_first layout h.reach regular' wrote g h.reach] at after
    exact ⟨w', _, _, ends, after, written g layout h.reach regular' wrote (by omega),
      wrote.grown.supply used⟩
  · have := full.lt wrote.grown used
    omega

theorem Written.lookup {count size : ℕ} {l' ld : List ℕ} {s : Slot} {d : Owner} {dir : VfsNode}
    {name : CString}
    (written : Written fs v v' t l l' src offset count size) (regular : v.isDir (some t) = false)
    (isDir : Denotes fs v dir d) (dirD : v.isDir d = true) (owns : Owns fs v d ld)
    (found : Fat32.find fs v (lookupMatch name) ld = some s) (after : Becomes fs w₀ w v') :
    ∃ addr fsDataAddr w', Converges (Fat32.lookup fs dir name · w)
        (some (nodeOf dir s.1 s.2 (v'.data s.1) addr fsDataAddr), w') ∧ Becomes fs w₀ w' v' := by
  have isDir' := isDir.evolve written.evolves (Set.notMem_empty _)
  have found' : Fat32.find fs v' (lookupMatch name) ld = some s := by
    rw [written.find d ld name isDir.reach dirD owns, found]
  exact lookup_found after isDir' (isDir'.kind.symm.trans (isDir.kind.trans dirD))
    (written.untouched d ld isDir.reach (dir_ne regular dirD) owns).1 found'

/-! ## A volume with one file -/

/-- The blank volume after the file `a` has been created. -/
def oneFile : World :=
  ((create smallFs (rootNode smallFs 0 0 0) [0x61] 0 5 blankWorld).map Prod.snd).getD blankWorld

theorem sound_oneFile : Sound smallFs oneFile := by
  obtain ⟨r, w', v', ends, after, evolves⟩ := (denotes_root smallFs _ 0 0 0).create
    (.refl ready_blank) sound_blank.consistent [0x61] 0
  have evaluated : (create smallFs (rootNode smallFs 0 0 0) [0x61] 0 5 blankWorld).isSome = true := by
    decide +kernel
  obtain ⟨⟨r', w''⟩, made⟩ := Option.isSome_iff_exists.mp evaluated
  cases ends.unique ((stable_create smallFs _ _ _ _).converges made)
  rw [oneFile, made]
  exact after.sound sound_blank evolves

/-! ## Write, then read -/

/-- A write to a file that `fat32_lookup` has returned.  The chain `l` of the file holds its size, and
the volume has clusters enough for the new end. -/
theorem write_then_read {d : Owner} {dir : VfsNode} {name : CString} {w₁ : World}
    (ready : Ready fs w) (consistent : Consistent fs (volume fs w))
    (isDir : Denotes fs (volume fs w) dir d)
    (looked : Converges (fun fuel => lookup fs dir name fuel w) (some node, w₁))
    (regular : node.isDirectory = false)
    (chain : ChainOf fs (volume fs w) node.fsData.firstCluster l)
    (holds : node.size ≤ l.length * fs.clusterSize) (src : Bytes) {count offset : ℕ}
    (pos : 0 < count) (small : offset + count ≤ 2 ^ 32 - 1)
    (space : offset + count ≤
      (l.length + (freeClusters fs (volume fs w)).length) * fs.clusterSize) :
    ∃ (node₁ : VfsNode) (w₂ : World) (fresh : VfsNode) (w₃ : World) (old new : Bytes),
      Converges (fun fuel => write fs node src count offset fuel w₁) (count, node₁, w₂) ∧
      Converges (fun fuel => lookup fs dir name fuel w₂) (some fresh, w₃) ∧
      fresh.size = max node.size (offset + count) ∧
      ReadsAs fs (volume fs w) node node.size old ∧
      ReadsAs fs (volume fs w₂) fresh fresh.size new ∧
      ReadsAs fs (volume fs w₂) node₁ fresh.size new ∧
      (∀ p, offset ≤ p → p < offset + count → new p = src (p - offset)) ∧
      (∀ p, p < node.size → ¬ (offset ≤ p ∧ p < offset + count) → new p = old p) ∧
      (∀ o, Reach fs (volume fs w₂) o ↔ Reach fs (volume fs w) o) ∧
      Untouched fs (volume fs w) (volume fs w₂)
        (node.fsData.dirCluster, node.fsData.dirOffset) := by
  obtain ⟨result, w₁', looked', after₁, -, made⟩ := isDir.lookup (.refl ready) consistent name
  cases looked'.unique looked
  obtain ⟨s, addr, fsDataAddr, reach, rfl, -, -, dirD, found⟩ := made node rfl
  have h := denotes_nodeOf reach dir addr fsDataAddr
  have word : entryFileSize ((volume fs w).data s.1) s.2 < 2 ^ 32 := Bytes.le32_lt _ _
  obtain ⟨ld, ownsD⟩ := consistent.owns d isDir.reach
  obtain ⟨w₂, _, l', ends, after₂, written, -⟩ :=
    write_fits after₁ consistent h regular word chain src (by omega) space
  obtain rfl := after₂.volume
  obtain ⟨addr', fsDataAddr', w₃, looked₃, -⟩ :=
    written.lookup (h.kind.symm.trans regular) isDir dirD ownsD (found ld ownsD) after₂
  have first : (volume fs w₂).first fs (some s) = (volume fs w).first fs (some s) :=
    (written.evolves.same s reach (Set.notMem_empty _)).first
  have size : entryFileSize ((volume fs w₂).data s.1) s.2 =
      max (entryFileSize ((volume fs w).data s.1) s.2) (offset + count) := written.size
  have fits : max (entryFileSize ((volume fs w).data s.1) s.2) (offset + count) ≤
      l'.length * fs.clusterSize := by
    have covered := written.covered.resolve_left pos.ne'
    have longer := Nat.mul_le_mul_right fs.clusterSize written.longer
    exact max_le (holds.trans longer) covered
  refine ⟨_, w₂, _, w₃, contents fs (volume fs w) l, contents fs (volume fs w₂) l', ends, looked₃, size,
    readsAs chain word holds, ?_, ?_, written.stored,
    fun p inside => written.kept p (lt_of_lt_of_le inside holds), fun o => ⟨?_, ?_⟩, ?_⟩
  · exact readsAs written.chain (Bytes.le32_lt _ _) (size.le.trans fits)
  · have chain' := written.chain
    rw [first] at chain'
    refine Eq.subst (motive := fun n => ReadsAs fs _ _ n _) size.symm (readsAs chain' ?_ fits)
    exact max_lt word (by omega)
  · exact written.reach o
  · exact fun reach => written.evolves.kept o reach (Set.notMem_empty _)
  · exact written.untouched

/-- Two clusters are written behind a gap in the file `a`. -/
theorem write_then_read_oneFile :
    ∃ node w₁ node₁ w₂ fresh w₃,
      Converges (fun fuel => lookup smallFs (rootNode smallFs 0 0 0) [0x61] fuel oneFile)
        (some node, w₁) ∧
      Converges (fun fuel => write smallFs node (fun _ => 7) 600 100 fuel w₁) (600, node₁, w₂) ∧
      Converges (fun fuel => lookup smallFs (rootNode smallFs 0 0 0) [0x61] fuel w₂)
        (some fresh, w₃) ∧ fresh.size = 700 := by
  have evaluated : (lookup smallFs (rootNode smallFs 0 0 0) [0x61] 5 oneFile).map (fun r =>
      r.1.map fun node => (node.isDirectory, node.size, node.fsData.firstCluster)) =
      some (some (false, 0, 3)) := by
    decide +kernel
  obtain ⟨⟨result, w₁⟩, looked, facts⟩ := Option.map_eq_some_iff.mp evaluated
  obtain ⟨node, rfl, facts⟩ := Option.map_eq_some_iff.mp facts
  obtain ⟨regular, empty, first⟩ : node.isDirectory = false ∧ node.size = 0 ∧
      node.fsData.firstCluster = 3 := by simpa using facts
  have looked := (stable_lookup smallFs _ _ _).converges looked
  have chain : ChainOf smallFs (volume smallFs oneFile) node.fsData.firstCluster [3] := by
    rw [first]
    exact .last (by decide) (show eocMin ≤ (volume smallFs oneFile).fat 3 by decide +kernel)
  have free : (freeClusters smallFs (volume smallFs oneFile)).length = 12 := by decide +kernel
  obtain ⟨node₁, w₂, fresh, w₃, old, new, wrote, again, size, -⟩ :=
    write_then_read sound_oneFile.ready sound_oneFile.consistent (denotes_root smallFs _ 0 0 0)
      looked regular chain (by rw [empty]; exact Nat.zero_le _) (fun _ => 7)
      (show 0 < 600 by decide) (show 100 + 600 ≤ 2 ^ 32 - 1 by decide)
      (by rw [free]; decide)
  refine ⟨node, w₁, node₁, w₂, fresh, w₃, looked, wrote, again, ?_⟩
  rw [size, empty]
  rfl

end Thuban.Fat32

import Thuban.Fat32.Directory

/-!
# Reading and writing files

What `fat32_read` returns and what `fat32_write` changes on a ready volume, for a file with clusters
`l`.  Both loops keep a position in the chain (`Cursor.At`); the one of `fat32_write` may hang new
clusters behind it (`Grown`) and has written a stretch of bytes so far (`Wrote`).
-/

namespace Thuban.Fat32

open Lib

/-! ## Positions -/

section Arithmetic

variable {fs : Fs}

theorem clusterOffset_eq (fs : Fs) (offset : ℕ) :
    clusterOffset fs offset = offset / fs.clusterSize % 2 ^ 32 := by
  rw [clusterOffset, u32, ← Int.ofNat_tdiv]
  norm_cast

theorem byteOffset_eq (g : Geometry fs) (offset : ℕ) :
    byteOffset fs offset = offset % fs.clusterSize := by
  have := g.clusterSize_lt
  have := Nat.mod_lt offset g.clusterSize_pos
  rw [byteOffset, u32, ← Int.ofNat_tmod]
  norm_cast
  exact Nat.mod_eq_of_lt (by omega)

theorem chunk_eq (g : Geometry fs) {start left : ℕ} (inside : start < fs.clusterSize) :
    chunk fs start left = min left (fs.clusterSize - start) := by
  have := g.clusterSize_lt
  have width : u32 ((fs.clusterSize : ℤ) - start) = fs.clusterSize - start := by
    rw [u32, ← Nat.cast_sub inside.le]
    norm_cast
    exact Nat.mod_eq_of_lt (by omega)
  rw [chunk, width]
  split <;> omega

theorem u64_add {offset n : ℕ} (small : offset + n < 2 ^ 64) :
    u64 ((offset : ℤ) + n) = offset + n := by
  rw [u64]
  norm_cast
  exact Nat.mod_eq_of_lt small

/-- The position in the chain where a write at `offset` starts: the number of its cluster is cut to
32 bits. -/
def landing (fs : Fs) (offset : ℕ) : ℕ :=
  offset / fs.clusterSize % 2 ^ 32 * fs.clusterSize + offset % fs.clusterSize

theorem landing_eq {offset : ℕ} (small : offset < 2 ^ 32) : landing fs offset = offset := by
  have index : offset / fs.clusterSize < 2 ^ 32 := lt_of_le_of_lt (Nat.div_le_self _ _) small
  rw [landing, Nat.mod_eq_of_lt index, Nat.mul_comm, Nat.div_add_mod]

theorem cluster_unique {size i j k : ℕ} (hk : k < size) (low : j * size ≤ i * size + k)
    (high : i * size + k < (j + 1) * size) : i = j := by
  have h₁ : i < j + 1 := by
    by_contra h
    have := Nat.mul_le_mul_right size (not_lt.mp h)
    omega
  have h₂ : j < i + 1 := by
    by_contra h
    have := Nat.mul_le_mul_right size (not_lt.mp h)
    rw [Nat.add_mul, Nat.one_mul] at this
    omega
  omega

end Arithmetic

/-! ## Growing a chain -/

/-- From `v` to `v'` the chain `l` has grown by the clusters `ext`, which were free. -/
structure Grown (fs : Fs) (v v' : Volume) (first : ℕ) (l ext : List ℕ) : Prop where
  chain : ChainOf fs v' first (l ++ ext)
  free : ∀ c ∈ ext, v.fat c = freeMark
  fatSame : ∀ c, c ∉ l ++ ext → v'.fat c = v.fat c

/-- The cursor stands at position `pos` of the chain `l`, or behind its end. -/
structure Cursor.At (cur : Cursor) (l : List ℕ) (pos : ℕ) : Prop where
  here : l[pos]? = some cur.cluster ∨ (pos = l.length ∧ eocMin ≤ cur.cluster)
  back : (pos = 0 ∧ cur.prev = 0) ∨ ∃ p, pos = p + 1 ∧ l[p]? = some cur.prev

variable {fs : Fs} {w₀ w : World} {v v' : Volume} {first pos : ℕ} {l ext : List ℕ} {cur : Cursor}

theorem Grown.refl (chain : ChainOf fs v first l) : Grown fs v v first l [] :=
  ⟨by rwa [List.append_nil], by simp, fun _ _ => rfl⟩

variable {d c : ℕ} {ext' : List ℕ}

theorem Grown.free_mem (grown : Grown fs v v' first l ext) (owned : ∀ c ∈ l, v.fat c ≠ freeMark)
    (full : ∀ d, fs.Valid d → v'.fat d ≠ freeMark) (valid : fs.Valid d) (free : v.fat d = freeMark) :
    d ∈ ext := by
  by_contra absent
  have outside : d ∉ l ++ ext := by
    rw [List.mem_append]
    rintro (mem | mem)
    · exact owned d mem free
    · exact absent mem
  exact full d valid ((grown.fatSame d outside).trans free)

theorem Cursor.At.start (chain : ChainOf fs v first l) (inode : Inode) :
    Cursor.At ⟨first, 0, inode⟩ (l ++ []) 0 := by
  refine ⟨.inl ?_, .inl ⟨rfl, rfl⟩⟩
  rw [List.append_nil]
  exact Chain.getElem?_zero chain

theorem Cursor.At.advance (chain : ChainOf fs v first l) (here : l[pos]? = some cur.cluster) :
    Cursor.At { cur with cluster := v.fat cur.cluster, prev := cur.cluster } l (pos + 1) := by
  refine ⟨?_, .inr ⟨pos, rfl, here⟩⟩
  rcases Chain.getElem?_succ chain here with next | ⟨len, ends⟩
  · exact .inl next
  · exact .inr ⟨len, ends⟩

theorem Cursor.At.le_length (pointed : cur.At l pos) : pos ≤ l.length := by
  rcases pointed.here with here | ⟨len, -⟩
  · exact (List.getElem?_eq_some_iff.mp here).1.le
  · exact len.le

theorem Grown.extend (g : Geometry fs) (grown : Grown fs v v' first l ext) {z : ℕ}
    (last : (l ++ ext)[(l ++ ext).length - 1]? = some z) (valid : fs.Valid d)
    (free : v'.fat d = freeMark) :
    Grown fs v ((v'.link d eocMax).link z d) first l (ext ++ [d]) := by
  have fresh : d ∉ l ++ ext := fun mem => ChainOf.fat_ne_zero grown.chain mem free
  have different : d ≠ z := fun same => fresh (same ▸ List.mem_of_getElem? last)
  refine ⟨?_, fun c hc => ?_, fun c hc => ?_⟩
  · rw [← List.append_assoc]
    refine Chain.extend grown.chain (grown.chain.nodup g) last valid ?_ ?_ fun c hc hz => ?_
    · simp only [Volume.link, Function.update_of_ne different, Function.update_self]
      decide
    · exact Function.update_self _ _ _
    · have : c ≠ d := fun same => fresh (same ▸ hc)
      simp only [Volume.link, Function.update_of_ne hz, Function.update_of_ne this]
  · rcases List.mem_append.mp hc with old | new
    · exact grown.free c old
    · rw [List.mem_singleton.mp new]
      exact (grown.fatSame d fresh).symm.trans free
  · rw [← List.append_assoc, List.mem_append, not_or, List.mem_singleton] at hc
    have notZ : c ≠ z := fun same => hc.1 (same ▸ List.mem_of_getElem? last)
    simp only [Volume.link, Function.update_of_ne notZ, Function.update_of_ne hc.2]
    exact grown.fatSame c hc.1

/-- The head of the two loops of `fat32_write`: the cursor stands on a cluster afterwards, which may
be a new one, or the volume is full. -/
theorem growAtEnd_spec (now : Becomes fs w₀ w v') (grown : Grown fs v v' first l ext)
    (pointed : cur.At (l ++ ext) pos) :
    (∃ cur' w' v'' ext', growAtEnd fs cur w = (true, cur', w') ∧ Becomes fs w₀ w' v'' ∧
        Grown fs v v'' first l ext' ∧ (ext' = ext ∨ ∃ d, ext' = ext ++ [d] ∧ pos = (l ++ ext).length) ∧
        v''.data = v'.data ∧ cur'.inode = cur.inode ∧ cur'.At (l ++ ext') pos ∧
        (l ++ ext')[pos]? = some cur'.cluster) ∨
      growAtEnd fs cur w = (false, cur, w) ∧ pos = (l ++ ext).length ∧
        ∀ d, fs.Valid d → v'.fat d ≠ freeMark := by
  have g := now.ready.geometry
  rcases pointed.here with here | ⟨len, ends⟩
  · left
    have valid : fs.Valid cur.cluster := Chain.node_of_mem grown.chain (List.mem_of_getElem? here)
    refine ⟨cur, w, v', ext, ?_, now, grown, .inl rfl, rfl, rfl, pointed, here⟩
    rw [growAtEnd, if_neg (g.not_eoc _ valid)]
  · rcases allocCluster_spec now with ⟨full, used⟩ | ⟨d, w₁, valid, free, took, after₁⟩
    · right
      refine ⟨?_, len, used⟩
      rw [growAtEnd, if_pos ends, full]
      rfl
    · left
      obtain ⟨p, hp, back⟩ : ∃ p, pos = p + 1 ∧ (l ++ ext)[p]? = some cur.prev := by
        rcases pointed.back with ⟨zero, -⟩ | back
        · have := Chain.length_pos grown.chain
          omega
        · exact back
      have last : (l ++ ext)[(l ++ ext).length - 1]? = some cur.prev := by
        rwa [← len, hp, Nat.add_sub_cancel]
      have validPrev : fs.Valid cur.prev :=
        Chain.node_of_mem grown.chain (List.mem_of_getElem? back)
      have small : d < 2 ^ 28 := by
        have := valid.2
        have := g.clusters
        omega
      obtain ⟨w₂, linked, after₂⟩ := after₁.setFatEntry validPrev small
      have pointsNew : (l ++ (ext ++ [d]))[pos]? = some d := by
        rw [← List.append_assoc, len, List.getElem?_concat_length]
      have pointsBack : (l ++ (ext ++ [d]))[p]? = some cur.prev := by
        rw [← List.append_assoc, List.getElem?_append_left (by omega)]
        exact back
      refine ⟨{ cur with cluster := d }, w₂, _, ext ++ [d], ?_, after₂,
        grown.extend g last valid free, .inr ⟨d, rfl, len⟩, rfl, rfl,
        ⟨.inl pointsNew, .inr ⟨p, hp, pointsBack⟩⟩, pointsNew⟩
      have nonzero : d ≠ 0 := by
        have := valid.1
        omega
      have prevNonzero : cur.prev ≠ 0 := by
        have := validPrev.1
        omega
      rw [growAtEnd, if_pos ends, took]
      simp [nonzero, prevNonzero, linked]

theorem length_of_growth (how : ext' = ext ∨ ∃ d, ext' = ext ++ [d] ∧ pos = (l ++ ext).length)
    (here : (l ++ ext')[pos]? = some c) : (l ++ ext').length = max (l ++ ext).length (pos + 1) := by
  have inside := (List.getElem?_eq_some_iff.mp here).1
  rcases how with rfl | ⟨d, rfl, behind⟩
  · omega
  · simp only [List.length_append, List.length_singleton] at behind inside ⊢
    omega

/-- The first loop of `fat32_write` moves the cursor `n` clusters on and writes no bytes; the chain grows
no further than that. -/
theorem writeSkip_spec (now : Becomes fs w₀ w v') (grown : Grown fs v v' first l ext)
    (data : v'.data = v.data) (pointed : cur.At (l ++ ext) pos) (n : ℕ) :
    ∃ cur' w' v'' ext', Becomes fs w₀ w' v'' ∧ Grown fs v v'' first l ext' ∧ v''.data = v.data ∧
      cur'.inode = cur.inode ∧
      ((writeSkip fs n cur w = (true, cur', w') ∧ cur'.At (l ++ ext') (pos + n) ∧
          (l ++ ext').length = max (l ++ ext).length (pos + n)) ∨
        writeSkip fs n cur w = (false, cur', w') ∧ (l ++ ext').length < pos + n ∧
          ∀ d, fs.Valid d → v''.fat d ≠ freeMark) := by
  induction n generalizing w v' ext cur pos with
  | zero =>
    have before := pointed.le_length
    exact ⟨cur, w, v', ext, now, grown, data, rfl, .inl ⟨rfl, pointed, by omega⟩⟩
  | succ n ih =>
    rcases growAtEnd_spec now grown pointed with
      ⟨cur₁, w₁, v₁, ext₁, grew, after₁, grown₁, how, data₁, inode, -, here⟩ | ⟨full, len, used⟩
    · have valid : fs.Valid cur₁.cluster :=
        Chain.node_of_mem grown₁.chain (List.mem_of_getElem? here)
      obtain ⟨cur₂, w₂, v₂, ext₂, after₂, grown₂, data₂, inode₂, result⟩ :=
        ih after₁ grown₁ (data₁.trans data) (Cursor.At.advance grown₁.chain here)
      have unfolded : writeSkip fs (n + 1) cur w =
          writeSkip fs n { cur₁ with cluster := v₁.fat cur₁.cluster, prev := cur₁.cluster } w₁ := by
        rw [writeSkip, grew]
        simp [after₁.ready.geometry.inChain_of_valid valid, after₁.getNextCluster]
      have length := length_of_growth how here
      rw [unfolded, show pos + (n + 1) = pos + 1 + n by omega]
      refine ⟨cur₂, w₂, v₂, ext₂, after₂, grown₂, data₂, inode₂.trans inode, result.imp_left ?_⟩
      rintro ⟨arrived, there, long⟩
      exact ⟨arrived, there, by omega⟩
    · refine ⟨cur, w, v', ext, now, grown, data, rfl, .inr ⟨?_, by omega, used⟩⟩
      rw [writeSkip, full]

/-! ## Writing bytes -/

/-- From `v` to `v'` the bytes of `src` have gone to the positions `offset` to `offset + n` of the
file, whose chain `l` has grown by `ext`; no other byte of a cluster has changed. -/
structure Wrote (fs : Fs) (v v' : Volume) (first : ℕ) (l ext : List ℕ) (src : Bytes)
    (offset n : ℕ) : Prop where
  grown : Grown fs v v' first l ext
  inside : ∀ i c k, (l ++ ext)[i]? = some c → k < fs.clusterSize →
    v'.data c k =
      if offset ≤ i * fs.clusterSize + k ∧ i * fs.clusterSize + k < offset + n then
        src (i * fs.clusterSize + k - offset)
      else v.data c k
  outside : ∀ c, c ∉ l ++ ext → v'.data c = v.data c
  covered : n = 0 ∨ offset + n ≤ (l ++ ext).length * fs.clusterSize

variable {src : Bytes} {offset n : ℕ}

theorem Wrote.none (grown : Grown fs v v' first l ext) (data : v'.data = v.data) :
    Wrote fs v v' first l ext src offset 0 := by
  refine ⟨grown, fun i c k _ _ => ?_, fun c _ => by rw [data], .inl rfl⟩
  rw [if_neg (by omega), data]

theorem Wrote.grow (wrote : Wrote fs v v' first l ext src offset n) {v'' : Volume} (g : Geometry fs)
    (grown : Grown fs v v'' first l ext') (data : v''.data = v'.data)
    (how : ext' = ext ∨ ∃ d, ext' = ext ++ [d]) : Wrote fs v v'' first l ext' src offset n := by
  have behind := wrote.covered
  rcases how with rfl | ⟨d, rfl⟩
  · exact ⟨grown, fun i c k hi hk => by rw [data]; exact wrote.inside i c k hi hk,
      fun c hc => by rw [data]; exact wrote.outside c hc, behind⟩
  · have nodup := grown.chain.nodup g
    rw [← List.append_assoc] at nodup
    have fresh : d ∉ l ++ ext := fun mem => by
      have := List.disjoint_of_nodup_append nodup mem
      exact this (List.mem_singleton_self d)
    refine ⟨grown, fun i c k hi hk => ?_, fun c hc => ?_, behind.imp_right fun fits => ?_⟩
    · rw [data]
      rw [← List.append_assoc] at hi
      by_cases old : i < (l ++ ext).length
      · rw [List.getElem?_append_left old] at hi
        exact wrote.inside i c k hi hk
      · obtain ⟨rfl, rfl⟩ : i = (l ++ ext).length ∧ c = d := by
          rw [List.getElem?_append_right (by omega), List.getElem?_singleton] at hi
          split at hi
          · exact ⟨by omega, (Option.some.inj hi).symm⟩
          · exact absurd hi (by simp)
        rw [if_neg (by omega)]
        exact congrFun (wrote.outside c fresh) k
    · rw [data]
      refine wrote.outside c fun mem => hc ?_
      rw [← List.append_assoc]
      exact List.mem_append_left _ mem
    · refine fits.trans (Nat.mul_le_mul_right _ ?_)
      simp only [List.length_append]
      omega

/-- Storing the next stretch of bytes, up to the end of the cluster or of the source. -/
theorem Wrote.store (wrote : Wrote fs v v' first l ext src offset n) (g : Geometry fs)
    {start len : ℕ} {buf : Bytes} (here : (l ++ ext)[pos]? = some c)
    (aligned : offset + n = pos * fs.clusterSize + start) (fits : start + len ≤ fs.clusterSize)
    (filled : ∀ k, k < fs.clusterSize → buf k =
      if start ≤ k ∧ k < start + len then src (n + (k - start)) else v'.data c k) :
    Wrote fs v (v'.store fs c buf) first l ext src offset (n + len) := by
  have nodup := wrote.grown.chain.nodup g
  refine ⟨⟨wrote.grown.chain, wrote.grown.free, wrote.grown.fatSame⟩, fun i d k hi hk => ?_,
    fun d hd => ?_, .inr ?_⟩
  · by_cases same : i = pos
    · subst same
      obtain rfl : c = d := Option.some.inj (here.symm.trans hi)
      simp only [Volume.store, Function.update_self, hk, if_true, filled k hk]
      by_cases stretch : start ≤ k ∧ k < start + len
      · rw [if_pos stretch, if_pos (by omega)]
        exact congrArg src (by omega)
      · rw [if_neg stretch, wrote.inside i c k hi hk]
        by_cases old : offset ≤ i * fs.clusterSize + k ∧ i * fs.clusterSize + k < offset + n
        · rw [if_pos old, if_pos (by omega)]
        · rw [if_neg old, if_neg (by omega)]
    · have different : d ≠ c := by
        rintro rfl
        have lt := (List.getElem?_eq_some_iff.mp hi).1
        exact same ((List.getElem?_inj lt nodup).mp (hi.trans here.symm))
      simp only [Volume.store, Function.update_of_ne different]
      rw [wrote.inside i d k hi hk]
      -- The new stretch lies inside the cluster at `pos`.
      have apart : ¬ (pos * fs.clusterSize ≤ i * fs.clusterSize + k ∧
          i * fs.clusterSize + k < (pos + 1) * fs.clusterSize) := fun h =>
        same (cluster_unique hk h.1 h.2)
      rw [Nat.add_mul, Nat.one_mul] at apart
      by_cases old : offset ≤ i * fs.clusterSize + k ∧ i * fs.clusterSize + k < offset + n
      · rw [if_pos old, if_pos (by omega)]
      · rw [if_neg old, if_neg (by omega)]
  · have different : d ≠ c := fun same => hd (same ▸ List.mem_of_getElem? here)
    simp only [Volume.store, Function.update_of_ne different]
    exact wrote.outside d hd
  · have last : pos + 1 ≤ (l ++ ext).length := (List.getElem?_eq_some_iff.mp here).1
    have := Nat.mul_le_mul_right fs.clusterSize last
    rw [Nat.add_mul, Nat.one_mul] at this
    omega

theorem loadRound_spec (now : Becomes fs w₀ w v) {start : ℕ} (valid : fs.Valid c)
    (inside : start < fs.clusterSize) (left : ℕ) (buf src : Bytes) (n : ℕ) :
    ∃ buf', loadRound fs c start left buf w = (buf', w) ∧
      ∀ k, k < fs.clusterSize → buf'.blit start src n (min left (fs.clusterSize - start)) k =
        if start ≤ k ∧ k < start + min left (fs.clusterSize - start) then src (n + (k - start))
        else v.data c k := by
  by_cases partly : start ≠ 0 ∨ left < fs.clusterSize
  · refine ⟨buf.blit 0 (v.data c) 0 fs.clusterSize, ?_, fun k hk => ?_⟩
    · rw [loadRound, if_pos partly, now.readCluster valid]
    · rw [Bytes.blit]
      exact if_congr Iff.rfl rfl (holds_blit fs v c buf k hk)
  · refine ⟨buf, if_neg partly, fun k hk => ?_⟩
    have whole : start ≤ k ∧ k < start + min left (fs.clusterSize - start) := by omega
    rw [Bytes.blit_inside _ _ _ _ _ _ whole.1 whole.2, if_pos whole]

theorem writeLoop_spec (now : Becomes fs w₀ w v') (wrote : Wrote fs v v' first l ext src offset n)
    (pointed : cur.At (l ++ ext) pos) (tmp count : ℕ) {start : ℕ} (inside : start < fs.clusterSize)
    (aligned : n < count → offset + n = pos * fs.clusterSize + start) (le : n ≤ count)
    (buf : Bytes) :
    ∃ n' w' v'' ext',
      Converges (writeLoop fs tmp src count · n start cur buf w)
        (.finished n' cur.inode, w') ∧
      Becomes fs w₀ w' v'' ∧ Wrote fs v v'' first l ext' src offset n' ∧ n' ≤ count ∧
      ext.length ≤ ext'.length ∧
      (n' = count ∨ (l ++ ext').length * fs.clusterSize ≤ offset + n' ∧
        ∀ d, fs.Valid d → v''.fat d ≠ freeMark) := by
  have g := now.ready.geometry
  induction left : count - n using Nat.strong_induction_on
    generalizing n w v' ext cur pos start buf with
  | _ left ih =>
    by_cases more : n < count
    · have aligned := aligned more
      rcases growAtEnd_spec now wrote.grown pointed with
        ⟨cur₁, w₁, v₁, ext₁, grew, after₁, grown₁, how, data₁, inode, -, here⟩ | ⟨full, len, used⟩
      · have valid : fs.Valid cur₁.cluster :=
          Chain.node_of_mem grown₁.chain (List.mem_of_getElem? here)
        have wrote₁ : Wrote fs v v₁ first l ext₁ src offset n := by
          exact wrote.grow g grown₁ data₁ (how.imp_right fun ⟨d, hd, _⟩ => ⟨d, hd⟩)
        obtain ⟨buf', read, filled⟩ := loadRound_spec after₁ valid inside (count - n) buf src n
        obtain ⟨w₂, stored, after₂⟩ := after₁.writeCluster valid
          (buf'.blit start src n (min (count - n) (fs.clusterSize - start)))
        have wrote₂ := wrote₁.store g here aligned (by omega) filled
        have here₂ := Cursor.At.advance wrote₂.grown.chain here
        have aligned₂ : n + min (count - n) (fs.clusterSize - start) < count →
            offset + (n + min (count - n) (fs.clusterSize - start)) =
              (pos + 1) * fs.clusterSize + 0 := by
          intro h
          rw [Nat.add_mul, Nat.one_mul]
          omega
        have longer : ext.length ≤ ext₁.length := by
          rcases how with rfl | ⟨d, rfl, -⟩
          · exact le_rfl
          · simp
        obtain ⟨n', w', v'', ext', ends, after, wrote', le', longer', reached⟩ :=
          ih _ (by omega) after₂ wrote₂ here₂ g.clusterSize_pos aligned₂ (by omega)
            (buf'.blit start src n (min (count - n) (fs.clusterSize - start))) rfl
        refine ⟨n', w', v'', ext', ?_, after, wrote', le', longer.trans longer', reached⟩
        rw [← inode]
        refine .step (fun fuel => ?_) ends
        rw [writeLoop, if_pos more, grew]
        simp only [read, chunk_eq g inside, stored, after₂.getNextCluster]
      · refine ⟨n, w.free tmp, v', ext, .step (fun fuel => ?_) (.const fun _ => rfl), now.free tmp,
          wrote, le, le_rfl, .inr ⟨?_, used⟩⟩
        · rw [writeLoop, if_pos more, full]
        · rw [← len]
          omega
    · refine ⟨n, w, v', ext, .step (fun fuel => ?_) (.const fun _ => rfl), now, wrote, le, le_rfl,
        .inl (by omega)⟩
      rw [writeLoop, if_neg more]

/-! ## The directory entry -/

/-- A slot with a new size and first cluster. -/
def setEntry (buf : Bytes) (i size cluster : ℕ) : Bytes :=
  Bytes.put16
    (Bytes.put16 (Bytes.put32 buf (entrySize * i + 28) size) (entrySize * i + 20) (cluster / 65536))
    (entrySize * i + 26) cluster

def Volume.setEntry (v : Volume) (s : Slot) (size cluster : ℕ) : Volume :=
  { v with data := Function.update v.data s.1 (Fat32.setEntry (v.data s.1) s.2 size cluster) }

section SetEntry

variable (buf : Bytes) (i size cluster : ℕ)

theorem setEntry_outside {k : ℕ}
    (outside : k < entrySize * i + 20 ∨ entrySize * i + 32 ≤ k ∨
      (entrySize * i + 22 ≤ k ∧ k < entrySize * i + 26)) :
    setEntry buf i size cluster k = buf k := by
  unfold setEntry
  rw [Bytes.put16_outside _ _ _ _ (by omega), Bytes.put16_outside _ _ _ _ (by omega),
    Bytes.put32_outside _ _ _ _ (by omega)]

theorem entryFileSize_setEntry :
    entryFileSize (setEntry buf i size cluster) i = size % 2 ^ 32 := by
  unfold entryFileSize setEntry
  rw [Bytes.le32_put16_apart _ _ (by omega), Bytes.le32_put16_apart _ _ (by omega),
    Bytes.le32_put32]

theorem entryFirstCluster_setEntry (small : cluster < 2 ^ 32) :
    entryFirstCluster (setEntry buf i size cluster) i = cluster := by
  unfold entryFirstCluster setEntry
  rw [Bytes.le16_put16, Bytes.le16_put16_apart _ _ (by omega), Bytes.le16_put16]
  omega

theorem setEntry_first (buf : Bytes) (i size : ℕ) :
    setEntry buf i size (entryFirstCluster buf i) = buf.put32 (entrySize * i + 28) size := by
  have low := buf.le16_lt (entrySize * i + 26)
  unfold setEntry
  rw [Bytes.put16_eq_self _ (entrySize * i + 20), Bytes.put16_eq_self]
  · rw [Bytes.le16_put32_apart _ _ (by omega), entryFirstCluster]
    omega
  · rw [Bytes.le16_put32_apart _ _ (by omega), entryFirstCluster]
    have high := buf.le16_lt (entrySize * i + 20)
    omega

theorem entryMark_setEntry : entryMark (setEntry buf i size cluster) i = entryMark buf i :=
  setEntry_outside _ _ _ _ (by omega)

theorem entryAttr_setEntry : entryAttr (setEntry buf i size cluster) i = entryAttr buf i :=
  setEntry_outside _ _ _ _ (by omega)

theorem entryName_setEntry : entryName (setEntry buf i size cluster) i = entryName buf i := by
  refine List.map_congr_left fun k hk => setEntry_outside _ _ _ _ ?_
  have := List.mem_range.mp hk
  omega

end SetEntry

variable {c size offset : ℕ} {buf : Bytes} {node : VfsNode}

theorem store_setEntry (now : Becomes fs w₀ w v) {i cluster : ℕ} (holds : Holds fs v c buf)
    (hi : i < fs.slots) :
    v.store fs c (setEntry buf i size cluster) = v.setEntry (c, i) size cluster := by
  have inside := slot_lt hi (by decide : 31 < entrySize)
  ext1
  · rfl
  · refine congrArg (Function.update _ c) (funext fun k => ?_)
    by_cases hk : k < fs.clusterSize
    · simp [hk, setEntry, Bytes.put16, Bytes.put32, Bytes.put, holds k hk]
    · simp only [hk, if_false]
      rw [setEntry_outside _ _ _ _ (by omega), now.data_outside (by omega)]

theorem updateDirEntry_spec (now : Becomes fs w₀ w v) (node : VfsNode)
    (valid : fs.Valid node.fsData.dirCluster) (slot : node.fsData.dirOffset < fs.slots) :
    Becomes fs w₀ (updateDirEntry fs node w).2
      (v.setEntry (node.fsData.dirCluster, node.fsData.dirOffset) node.size
        node.fsData.firstCluster) := by
  obtain ⟨w₁, allocated, after₁, -⟩ := now.malloc now.ready.geometry.clusterSize_pos
  have holds := holds_blit fs v node.fsData.dirCluster w₁.heap.junk
  generalize filled : w₁.heap.junk.blit 0 (v.data node.fsData.dirCluster) 0 fs.clusterSize = buf
    at holds
  obtain ⟨w₂, stored, after₂⟩ := after₁.writeCluster valid
    (setEntry buf node.fsData.dirOffset node.size node.fsData.firstCluster)
  rw [store_setEntry after₁ holds slot] at after₂
  have low : ¬ node.fsData.dirCluster < 2 := not_lt.mpr valid.1
  have whole : (updateDirEntry fs node w).2 = w₂.free w.heap.next := by
    simp only [updateDirEntry, low, if_false, allocated, after₁.readCluster valid, filled]
    rw [setEntry] at stored
    rw [stored]
  rw [whole]
  exact after₂.free _

/-! ## Write -/

/-- No free cluster is left, and the chain `l` ends before `size` bytes. -/
def Full (fs : Fs) (v : Volume) (l : List ℕ) (size : ℕ) : Prop :=
  l.length * fs.clusterSize < size ∧ ∀ d, fs.Valid d → v.fat d ≠ freeMark

/-- The size of a file after `n` bytes are written at `offset`. -/
def newSize (size offset n : ℕ) : ℕ := max size (u64 ((offset : ℤ) + n))

theorem newSize_eq {n : ℕ} (small : offset + n < 2 ^ 64) :
    newSize size offset n = max size (offset + n) := by
  rw [newSize, u64_add small]

theorem finishWrite_spec (now : Becomes fs w₀ w v) (node : VfsNode) (offset n tmp : ℕ)
    (valid : fs.Valid node.fsData.dirCluster) (slot : node.fsData.dirOffset < fs.slots) :
    ∃ w', finishWrite fs node node.fsData n offset tmp w =
        ((n : ℤ), { node with size := newSize node.size offset n }, w') ∧
      Becomes fs w₀ w' (v.setEntry (node.fsData.dirCluster, node.fsData.dirOffset)
        (newSize node.size offset n) node.fsData.firstCluster) := by
  have larger : (if node.size < u64 ((offset : ℤ) + n) then u64 ((offset : ℤ) + n)
      else node.size) = newSize node.size offset n := by
    rw [newSize]
    split <;> omega
  refine ⟨_, ?_, (updateDirEntry_spec now { node with size := newSize node.size offset n }
    valid slot).free tmp⟩
  simp only [finishWrite, larger]

/-- How `fat32_write` of a file with clusters `l` ends.  It writes the first `n` bytes, all of them unless
the volume runs full, and stores the size; or the volume runs full before the cluster of the offset is
reached, and no size is stored. -/
theorem write_outcome (now : Becomes fs w₀ w v) (chain : ChainOf fs v node.fsData.firstCluster l)
    (src : Bytes) (count offset : ℕ) (validDir : fs.Valid node.fsData.dirCluster)
    (slot : node.fsData.dirOffset < fs.slots) :
    ∃ r node' w' v₁ ext n,
      Converges (write fs node src count offset · w) (r, node', w') ∧
      Wrote fs v v₁ node.fsData.firstCluster l ext src (landing fs offset) n ∧ n ≤ count ∧
      ((r = n ∧ node' = { node with size := newSize node.size offset n } ∧
          offset / fs.clusterSize % 2 ^ 32 ≤ (l ++ ext).length ∧
          (n = count ∨ (l ++ ext).length * fs.clusterSize ≤ landing fs offset + n ∧
            ∀ d, fs.Valid d → v₁.fat d ≠ freeMark) ∧
          Becomes fs w₀ w' (v₁.setEntry (node.fsData.dirCluster, node.fsData.dirOffset)
            (newSize node.size offset n) node.fsData.firstCluster)) ∨
        r = -1 ∧ n = 0 ∧ node' = node ∧
          (l ++ ext).length < offset / fs.clusterSize % 2 ^ 32 ∧
          (∀ d, fs.Valid d → v₁.fat d ≠ freeMark) ∧ Becomes fs w₀ w' v₁) := by
  have g := now.ready.geometry
  have pos := g.clusterSize_pos
  have inside := Nat.mod_lt offset pos
  obtain ⟨w₁, allocated, after₁, -⟩ := now.malloc pos
  obtain ⟨cur, w₂, v₂, ext₂, after₂, grown₂, data₂, inode, skipped⟩ :=
    writeSkip_spec after₁ (Grown.refl chain) rfl (Cursor.At.start chain node.fsData)
      (offset / fs.clusterSize % 2 ^ 32)
  rw [Nat.zero_add] at skipped
  have wrote₂ : Wrote fs v v₂ node.fsData.firstCluster l ext₂ src (landing fs offset) 0 :=
    Wrote.none grown₂ data₂
  rcases skipped with ⟨arrived, pointed, -⟩ | ⟨full, short, used⟩
  · obtain ⟨n, w₃, v₃, ext₃, ends, after₃, wrote₃, le, longer, reached⟩ :=
      writeLoop_spec after₂ wrote₂ pointed w.heap.next count inside (fun _ => rfl)
        (Nat.zero_le _) w₂.heap.junk
    obtain ⟨w₄, finished, after₄⟩ := finishWrite_spec after₃ node offset n w.heap.next validDir slot
    refine ⟨n, _, w₄, v₃, ext₃, n, ends.imp fun fuel h => ?_, wrote₃, le,
      .inl ⟨rfl, rfl, pointed.le_length.trans ?_, reached, after₄⟩⟩
    · rw [write, allocated]
      simp only [clusterOffset_eq, byteOffset_eq g, arrived, h, Option.map_some, inode, finished]
    · rw [List.length_append, List.length_append]
      omega
  · refine ⟨-1, node, w₂.free w.heap.next, v₂, ext₂, 0, .const fun fuel => ?_, wrote₂,
      Nat.zero_le _, .inr ⟨rfl, rfl, rfl, short, used, after₂.free _⟩⟩
    rw [write, allocated]
    simp only [clusterOffset_eq, full, inode]

theorem write_spec (now : Becomes fs w₀ w v) (chain : ChainOf fs v node.fsData.firstCluster l)
    (src : Bytes) (count offset : ℕ) (validDir : fs.Valid node.fsData.dirCluster)
    (slot : node.fsData.dirOffset < fs.slots) :
    ∃ r node' w' v₁ ext n,
      Converges (write fs node src count offset · w) (r, node', w') ∧
      Wrote fs v v₁ node.fsData.firstCluster l ext src (landing fs offset) n ∧ n ≤ count ∧
      (n = count ∨ Full fs v₁ (l ++ ext) (landing fs offset + count)) ∧
      ((r = n ∧ node' = { node with size := newSize node.size offset n } ∧
          Becomes fs w₀ w' (v₁.setEntry (node.fsData.dirCluster, node.fsData.dirOffset)
            (newSize node.size offset n) node.fsData.firstCluster)) ∨
        r = -1 ∧ n = 0 ∧ node' = node ∧ Full fs v₁ (l ++ ext) (landing fs offset) ∧
          Becomes fs w₀ w' v₁) := by
  obtain ⟨r, node', w', v₁, ext, n, ends, wrote, le, result⟩ :=
    write_outcome now chain src count offset validDir slot
  refine ⟨r, node', w', v₁, ext, n, ends, wrote, le, ?_⟩
  rcases result with ⟨answer, size, -, reached, after⟩ | ⟨answer, none, same, short, used, after⟩
  · refine ⟨?_, .inl ⟨answer, size, after⟩⟩
    rcases Nat.lt_or_ge n count with less | all
    · obtain ⟨short, used⟩ := reached.resolve_left less.ne
      exact .inr ⟨by omega, used⟩
    · exact .inl (by omega)
  · have before : Full fs v₁ (l ++ ext) (landing fs offset) := by
      have pos := now.ready.geometry.clusterSize_pos
      have := Nat.mul_le_mul_right fs.clusterSize short
      rw [Nat.succ_mul] at this
      exact ⟨by rw [landing]; omega, used⟩
    exact ⟨.inr ⟨lt_of_lt_of_le before.1 (Nat.le_add_right _ _), used⟩,
      .inr ⟨answer, none, same, before, after⟩⟩

theorem writeSkip_zero (fs : Fs) (n : ℕ) (inode : Inode) (w : World) :
    writeSkip fs n ⟨0, 0, inode⟩ w = (true, ⟨0, 0, inode⟩, w) := by
  have start : ¬ eocMin ≤ 0 := by decide
  have outside : ¬ InChain 0 := by decide
  induction n with
  | zero => rfl
  | succ n ih =>
    rw [writeSkip, growAtEnd, if_neg start]
    simp only [outside, if_false]
    exact ih

theorem loadRound_zero (fs : Fs) (start left : ℕ) (buf : Bytes) (w : World) :
    (loadRound fs 0 start left buf w).2 = w := by
  have fails : readCluster fs 0 buf w = (none, w) := rfl
  rw [loadRound, fails]
  split <;> rfl

theorem writeCluster_zero (fs : Fs) (buf : Bytes) (w : World) :
    writeCluster fs 0 buf w = (false, w) := rfl

theorem write_empty_spec (now : Becomes fs w₀ w v) (none : node.fsData.firstCluster = 0)
    (src : Bytes) (count offset : ℕ) (validDir : fs.Valid node.fsData.dirCluster)
    (slot : node.fsData.dirOffset < fs.slots) :
    ∃ r node' w', Converges (write fs node src count offset · w) (r, node', w') ∧
      ((count = 0 ∧ r = 0 ∧ node' = { node with size := newSize node.size offset 0 } ∧
          Becomes fs w₀ w' (v.setEntry (node.fsData.dirCluster, node.fsData.dirOffset)
            (newSize node.size offset 0) node.fsData.firstCluster)) ∨
        0 < count ∧ r = -1 ∧ node' = node ∧ Becomes fs w₀ w' v) := by
  have start : ¬ eocMin ≤ 0 := by decide
  obtain ⟨w₁, allocated, after₁, -⟩ := now.malloc now.ready.geometry.clusterSize_pos
  rcases Nat.eq_zero_or_pos count with rfl | some
  · obtain ⟨w₂, finished, after₂⟩ := finishWrite_spec after₁ node offset 0 w.heap.next validDir slot
    refine ⟨0, _, w₂, .step (fun fuel => ?_) (.const fun _ => rfl),
      .inl ⟨rfl, rfl, rfl, after₂⟩⟩
    rw [write, allocated]
    simp only [none, writeSkip_zero, writeLoop, lt_self_iff_false, if_false, Option.map_some]
    rw [finished]
    rfl
  · refine ⟨-1, node, w₁.free w.heap.next, .step (fun fuel => ?_) (.const fun _ => rfl),
      .inr ⟨some, rfl, rfl, after₁.free _⟩⟩
    rw [write, allocated]
    simp [none, writeSkip_zero, writeLoop, some, growAtEnd, start, writeCluster_zero,
      loadRound_zero]

/-! ## Read -/

/-- A cluster number at position `pos` of the chain `l`, or behind its end. -/
def Located (l : List ℕ) (pos c : ℕ) : Prop :=
  l[pos]? = some c ∨ (l.length ≤ pos ∧ eocMin ≤ c)

theorem Located.next (chain : ChainOf fs v first l) {c : ℕ} (here : l[pos]? = some c) :
    Located l (pos + 1) (v.fat c) := by
  rcases Chain.getElem?_succ chain here with next | ⟨len, ends⟩
  · exact .inl next
  · exact .inr ⟨len.ge, ends⟩

theorem readSkip_spec (now : Becomes fs w₀ w v) (chain : ChainOf fs v first l)
    (located : Located l pos c) (n : ℕ) :
    ∃ c', readSkip fs n c w = (c', w) ∧ Located l (pos + n) c' := by
  have g := now.ready.geometry
  induction n generalizing pos c with
  | zero => exact ⟨c, rfl, located⟩
  | succ n ih =>
    rcases located with here | ⟨len, ends⟩
    · have valid : fs.Valid c := Chain.node_of_mem chain (List.mem_of_getElem? here)
      obtain ⟨c', skipped, located⟩ := ih (Located.next chain here)
      refine ⟨c', ?_, by rwa [show pos + (n + 1) = pos + 1 + n by omega]⟩
      rw [readSkip, if_pos (g.inChain_of_valid valid), now.getNextCluster]
      exact skipped
    · refine ⟨c, ?_, .inr ⟨by omega, ends⟩⟩
      rw [readSkip, if_neg fun h => absurd h.2 (not_lt.mpr ends)]

/-- The first `n` bytes of `dst` are those of the file from `offset` on; the rest is that of `dst₀`. -/
structure Fetched (fs : Fs) (v : Volume) (l : List ℕ) (offset : ℕ) (dst₀ dst : Bytes) (n : ℕ) :
    Prop where
  inside : ∀ i c k, l[i]? = some c → k < fs.clusterSize → offset ≤ i * fs.clusterSize + k →
    i * fs.clusterSize + k < offset + n → dst (i * fs.clusterSize + k - offset) = v.data c k
  outside : ∀ j, n ≤ j → dst j = dst₀ j

variable {dst₀ dst : Bytes}

theorem Fetched.none : Fetched fs v l offset dst dst 0 :=
  ⟨fun i c k _ _ h₁ h₂ => by omega, fun _ _ => rfl⟩

theorem Fetched.copy (fetched : Fetched fs v l offset dst₀ dst n) {start len : ℕ}
    (here : l[pos]? = some c) (aligned : offset + n = pos * fs.clusterSize + start)
    (fits : start + len ≤ fs.clusterSize) (holds : Holds fs v c buf) :
    Fetched fs v l offset dst₀ (dst.blit n buf start len) (n + len) := by
  refine ⟨fun i d k hi hk low high => ?_, fun j hj => ?_⟩
  · by_cases old : i * fs.clusterSize + k < offset + n
    · rw [Bytes.blit_outside _ _ _ _ _ _ (by omega)]
      exact fetched.inside i d k hi hk low old
    · obtain rfl : i = pos := by
        refine cluster_unique hk ?_ ?_
        · omega
        · rw [Nat.add_mul, Nat.one_mul]
          omega
      obtain rfl : c = d := Option.some.inj (here.symm.trans hi)
      rw [Bytes.blit_inside _ _ _ _ _ _ (by omega) (by omega), ← holds k hk]
      exact congrArg buf (by omega)
  · rw [Bytes.blit_outside _ _ _ _ _ _ (by omega)]
    exact fetched.outside j (by omega)

/-- The second loop of `fat32_read` stops at the count or at the end of the chain. -/
theorem readLoop_spec (now : Becomes fs w₀ w v) (chain : ChainOf fs v first l)
    (fetched : Fetched fs v l offset dst₀ dst n) {start : ℕ} (located : Located l pos c) (count : ℕ)
    (inside : start < fs.clusterSize)
    (aligned : n < count → offset + n = pos * fs.clusterSize + start) (le : n ≤ count)
    (within : n = 0 ∨ offset + n ≤ l.length * fs.clusterSize) (buf : Bytes) :
    ∃ (n' : ℕ) (dst' : Bytes),
      Converges (readLoop fs count · n start c buf dst w) ((n' : ℤ), dst', w) ∧
      Fetched fs v l offset dst₀ dst' n' ∧ n' ≤ count ∧
        (n' = count ∨ l.length * fs.clusterSize ≤ offset + n') ∧
        (n' = 0 ∨ offset + n' ≤ l.length * fs.clusterSize) := by
  have g := now.ready.geometry
  induction left : count - n using Nat.strong_induction_on
    generalizing n dst pos c start buf with
  | _ left ih =>
    by_cases more : n < count
    · have aligned := aligned more
      rcases located with here | ⟨len, ends⟩
      · have valid : fs.Valid c := Chain.node_of_mem chain (List.mem_of_getElem? here)
        have holds := holds_blit fs v c buf
        generalize filled : buf.blit 0 (v.data c) 0 fs.clusterSize = buf' at holds
        have fetched₁ := fetched.copy here aligned
          (show start + min (count - n) (fs.clusterSize - start) ≤ fs.clusterSize by omega) holds
        have aligned₁ : n + min (count - n) (fs.clusterSize - start) < count →
            offset + (n + min (count - n) (fs.clusterSize - start)) =
              (pos + 1) * fs.clusterSize + 0 := by
          intro h
          rw [Nat.add_mul, Nat.one_mul]
          omega
        have within₁ : offset + (n + min (count - n) (fs.clusterSize - start)) ≤
            l.length * fs.clusterSize := by
          have last := Nat.mul_le_mul_right fs.clusterSize (List.getElem?_eq_some_iff.mp here).1
          rw [Nat.succ_mul] at last
          omega
        obtain ⟨n', dst', loop, result⟩ := ih _ (by omega) fetched₁ (Located.next chain here)
          g.clusterSize_pos aligned₁ (by omega) (.inr within₁) buf' rfl
        refine ⟨n', dst', .step (fun fuel => ?_) loop, result⟩
        rw [readLoop, if_pos ⟨more, g.inChain_of_valid valid⟩, now.readCluster valid, filled]
        simp only [chunk_eq g inside, now.getNextCluster]
      · refine ⟨n, dst, .step (fun fuel => ?_) (.const fun _ => rfl), fetched, le, .inr ?_, within⟩
        · rw [readLoop, if_neg fun h => absurd h.2.2 (not_lt.mpr ends)]
        · have := Nat.mul_le_mul_right fs.clusterSize len
          omega
    · refine ⟨n, dst, .step (fun fuel => ?_) (.const fun _ => rfl), fetched, le,
        .inl (by omega), within⟩
      rw [readLoop, if_neg fun h => more h.1]

/-- The bytes that `fat32_read` sets out to read: the end of the request is cut to 64 bits before it is
compared with the size. -/
def readCount (size count offset : ℕ) : ℕ :=
  if size < (offset + count) % 2 ^ 64 then size - offset else count

theorem clampedCount (before : offset < size) (signed : size < 2 ^ 63) (count : ℕ) :
    (if size < u64 ((offset : ℤ) + count) then u64 ((size : ℤ) - offset) else count) =
      readCount size count offset := by
  have rest : u64 ((size : ℤ) - offset) = size - offset := by
    rw [u64]
    omega
  have total : u64 ((offset : ℤ) + count) = (offset + count) % 2 ^ 64 := by
    rw [u64]
    omega
  rw [rest, total, readCount]

theorem read_exact (now : Becomes fs w₀ w v) (chain : ChainOf fs v node.fsData.firstCluster l)
    (signed : node.size < 2 ^ 63) (dst : Bytes) (count : ℕ) (before : offset < node.size) :
    ∃ (n : ℕ) (dst' : Bytes) (w' : World),
      Converges (read fs node dst count offset · w) ((n : ℤ), dst', w') ∧
      Becomes fs w₀ w' v ∧ Fetched fs v l (landing fs offset) dst dst' n ∧
      n = min (readCount node.size count offset)
        (l.length * fs.clusterSize - landing fs offset) := by
  have g := now.ready.geometry
  have same : toOff node.size = node.size := Int.bmod_eq_of_le (by omega) (by omega)
  have inside := Nat.mod_lt offset g.clusterSize_pos
  obtain ⟨w₁, allocated, after₁, -⟩ := now.malloc g.clusterSize_pos
  obtain ⟨c, skipped, located⟩ := readSkip_spec after₁ chain
    (.inl (Chain.getElem?_zero chain)) (offset / fs.clusterSize % 2 ^ 32)
  rw [Nat.zero_add] at located
  have start : Fetched fs v l (landing fs offset) dst dst 0 := .none
  obtain ⟨n, dst', ends, fetched, le, reached, within⟩ :=
    readLoop_spec after₁ chain start located (readCount node.size count offset) inside
      (fun _ => rfl) (Nat.zero_le _) (.inl rfl) w₁.heap.junk
  refine ⟨n, dst', w₁.free w.heap.next, ends.imp fun fuel h => ?_, after₁.free _, fetched, by omega⟩
  rw [read, same, if_neg (by exact_mod_cast not_le.mpr before)]
  simp only [allocated, clusterOffset_eq, byteOffset_eq g, skipped, clampedCount before signed, h,
    Option.map_some]

theorem read_behind {offset : ℤ} (behind : toOff node.size ≤ offset) (dst : Bytes) (count fuel : ℕ)
    (w : World) : read fs node dst count offset fuel w = some (0, dst, w) := by
  rw [read, if_pos behind]

theorem read_spec (now : Becomes fs w₀ w v) (chain : ChainOf fs v node.fsData.firstCluster l)
    (small : node.size < 2 ^ 32) (dst : Bytes) {count : ℕ} (word : count < 2 ^ 64) (offset : ℕ) :
    ∃ (n : ℕ) (dst' : Bytes) (w' : World),
      Converges (read fs node dst count offset · w) ((n : ℤ), dst', w') ∧
      Becomes fs w₀ w' v ∧ Fetched fs v l offset dst dst' n ∧
      (min count (node.size - offset) ≤ n ∨ l.length * fs.clusterSize ≤ offset + n) ∧
      (offset + count < 2 ^ 64 → n ≤ min count (node.size - offset)) := by
  by_cases beyond : node.size ≤ offset
  · have signed : toOff node.size = node.size := Int.bmod_eq_of_le (by omega) (by omega)
    refine ⟨0, dst, w, .const fun fuel => ?_, now, .none, .inl (by omega), fun _ => by omega⟩
    exact read_behind (by rw [signed]; exact_mod_cast beyond) ..
  · obtain ⟨n, dst', w', ends, after, fetched, amount⟩ :=
      read_exact now chain (by omega) dst count (not_le.mp beyond)
    rw [landing_eq (by omega)] at fetched amount
    have bound : min count (node.size - offset) ≤ readCount node.size count offset ∧
        (offset + count < 2 ^ 64 →
          readCount node.size count offset = min count (node.size - offset)) := by
      rw [readCount]
      split <;> omega
    exact ⟨n, dst', w', ends, after, fetched, by omega, by omega⟩

end Thuban.Fat32

import Mathlib

/-!
# Byte memories

A memory is a function from offsets to bytes.  `blit` and `fill` are the effects of copying and
of setting a range, `copy` is a byte-by-byte copy within one memory; `le16`, `le32` and `le64` read
little-endian words and `put16`, `put32`, `put64` write them.
-/

namespace Thuban.Lib

abbrev Bytes := ℕ → UInt8

namespace Bytes

/-- Copy `len` bytes of `src` from offset `start` to offset `pos`. -/
def blit (dst : Bytes) (pos : ℕ) (src : Bytes) (start len : ℕ) : Bytes := fun k =>
  if pos ≤ k ∧ k < pos + len then src (start + (k - pos)) else dst k

/-- Set `len` bytes from offset `pos` to `value`. -/
def fill (dst : Bytes) (pos len : ℕ) (value : UInt8) : Bytes := fun k =>
  if pos ≤ k ∧ k < pos + len then value else dst k

def put (m : Bytes) (pos : ℕ) (value : UInt8) : Bytes := fun k => if k = pos then value else m k

/-- The little-endian 16-bit word at `pos`. -/
def le16 (m : Bytes) (pos : ℕ) : ℕ := (m pos).toNat + 256 * (m (pos + 1)).toNat

/-- The little-endian 32-bit word at `pos`. -/
def le32 (m : Bytes) (pos : ℕ) : ℕ := m.le16 pos + 65536 * m.le16 (pos + 2)

/-- The little-endian 64-bit word at `pos`. -/
def le64 (m : Bytes) (pos : ℕ) : ℕ := m.le32 pos + 2 ^ 32 * m.le32 (pos + 4)

/-- Store the low 16 bits of `v`. -/
def put16 (m : Bytes) (pos v : ℕ) : Bytes :=
  (m.put pos (UInt8.ofNat v)).put (pos + 1) (UInt8.ofNat (v / 256))

/-- Store the low 32 bits of `v`. -/
def put32 (m : Bytes) (pos v : ℕ) : Bytes := (m.put16 pos v).put16 (pos + 2) (v / 65536)

/-- Store the low 64 bits of `v`. -/
def put64 (m : Bytes) (pos v : ℕ) : Bytes := (m.put32 pos v).put32 (pos + 4) (v / 2 ^ 32)

/-- Copy `len` bytes within one memory, the lowest first. -/
def copy (m : Bytes) (dst src : ℕ) : ℕ → Bytes
  | 0 => m
  | len + 1 => (m.copy dst src len).put (dst + len) (m.copy dst src len (src + len))

theorem blit_inside (dst : Bytes) (pos : ℕ) (src : Bytes) (start len k : ℕ) (low : pos ≤ k)
    (high : k < pos + len) : dst.blit pos src start len k = src (start + (k - pos)) :=
  if_pos ⟨low, high⟩

theorem blit_outside (dst : Bytes) (pos : ℕ) (src : Bytes) (start len k : ℕ)
    (outside : ¬ (pos ≤ k ∧ k < pos + len)) : dst.blit pos src start len k = dst k :=
  if_neg outside

theorem blit_blit_adjacent (dst : Bytes) (pos : ℕ) (src : Bytes) (start n m : ℕ) :
    (dst.blit pos src start n).blit (pos + n) src (start + n) m =
      dst.blit pos src start (n + m) := by
  funext k
  by_cases second : pos + n ≤ k ∧ k < pos + n + m
  · rw [blit_inside _ _ _ _ _ _ second.1 second.2, blit_inside _ _ _ _ _ _ (by omega) (by omega)]
    congr 1
    omega
  · rw [blit_outside _ _ _ _ _ _ second]
    by_cases first : pos ≤ k ∧ k < pos + n
    · rw [blit_inside _ _ _ _ _ _ first.1 first.2, blit_inside _ _ _ _ _ _ (by omega) (by omega)]
    · rw [blit_outside _ _ _ _ _ _ first, blit_outside _ _ _ _ _ _ (by omega)]

@[simp] theorem put_self (m : Bytes) (pos : ℕ) (value : UInt8) : m.put pos value pos = value :=
  if_pos rfl

variable {pos k pos' : ℕ} {m m' : Bytes}

theorem put_ne (m : Bytes) (value : UInt8) (different : k ≠ pos) : m.put pos value k = m k :=
  if_neg different

theorem le16_lt (m : Bytes) (pos : ℕ) : m.le16 pos < 65536 := by
  have h₀ := (m pos).toNat_lt
  have h₁ := (m (pos + 1)).toNat_lt
  unfold le16
  omega

theorem le32_lt (m : Bytes) (pos : ℕ) : m.le32 pos < 2 ^ 32 := by
  have h₀ := m.le16_lt pos
  have h₁ := m.le16_lt (pos + 2)
  unfold le32
  omega

theorem le16_congr (same : ∀ j, j < 2 → m (pos + j) = m' (pos' + j)) :
    m.le16 pos = m'.le16 pos' := by
  have h₀ := same 0 (by omega)
  have h₁ := same 1 (by omega)
  rw [Nat.add_zero, Nat.add_zero] at h₀
  simp only [le16, h₀, h₁]

theorem le32_congr (same : ∀ j, j < 4 → m (pos + j) = m' (pos' + j)) :
    m.le32 pos = m'.le32 pos' := by
  have low : m.le16 pos = m'.le16 pos' := le16_congr fun j hj => same j (by omega)
  have high : m.le16 (pos + 2) = m'.le16 (pos' + 2) := by
    apply le16_congr
    intro j hj
    rw [Nat.add_assoc, Nat.add_assoc]
    exact same (2 + j) (by omega)
  simp only [le32, low, high]

theorem put16_outside (m : Bytes) (pos v k : ℕ) (outside : k < pos ∨ pos + 2 ≤ k) :
    m.put16 pos v k = m k := by
  unfold put16
  rw [put_ne _ _ (by omega), put_ne _ _ (by omega)]

theorem put32_outside (m : Bytes) (pos v k : ℕ) (outside : k < pos ∨ pos + 4 ≤ k) :
    m.put32 pos v k = m k := by
  unfold put32
  rw [put16_outside _ _ _ _ (by omega), put16_outside _ _ _ _ (by omega)]

theorem put32_congr {k' : ℕ} (v : ℕ) (aligned : k + pos' = k' + pos) (same : m k = m' k') :
    m.put32 pos v k = m'.put32 pos' v k' := by
  have h₀ : k = pos ↔ k' = pos' := by omega
  have h₁ : k = pos + 1 ↔ k' = pos' + 1 := by omega
  have h₂ : k = pos + 2 ↔ k' = pos' + 2 := by omega
  have h₃ : k = pos + 2 + 1 ↔ k' = pos' + 2 + 1 := by omega
  simp only [put32, put16, put, h₀, h₁, h₂, h₃, same]

theorem le16_put16 (m : Bytes) (pos v : ℕ) : (m.put16 pos v).le16 pos = v % 65536 := by
  have low : m.put16 pos v pos = UInt8.ofNat v := by
    unfold put16
    rw [put_ne _ _ (by omega), put_self]
  have high : m.put16 pos v (pos + 1) = UInt8.ofNat (v / 256) := put_self _ _ _
  rw [le16, low, high, UInt8.toNat_ofNat', UInt8.toNat_ofNat']
  omega

theorem put16_eq_self (m : Bytes) (pos : ℕ) {v : ℕ} (same : v % 65536 = m.le16 pos) :
    m.put16 pos v = m := by
  have h₀ := (m pos).toNat_lt
  unfold le16 at same
  have low : UInt8.ofNat v = m pos := by
    rw [← UInt8.toNat_inj, UInt8.toNat_ofNat']
    omega
  have high : UInt8.ofNat (v / 256) = m (pos + 1) := by
    rw [← UInt8.toNat_inj, UInt8.toNat_ofNat']
    omega
  funext k
  simp only [put16, put, low, high]
  split
  · simp [*]
  · split
    · simp [*]
    · rfl

theorem le32_put32 (m : Bytes) (pos v : ℕ) : (m.put32 pos v).le32 pos = v % 2 ^ 32 := by
  have low : (m.put32 pos v).le16 pos = v % 65536 := by
    rw [← le16_put16 m pos v]
    exact le16_congr fun j hj => put16_outside _ _ _ _ (by omega)
  have high : (m.put32 pos v).le16 (pos + 2) = v / 65536 % 65536 := le16_put16 _ _ _
  rw [le32, low, high]
  omega

theorem le16_put16_apart (m : Bytes) (v : ℕ) (apart : pos' + 2 ≤ pos ∨ pos + 2 ≤ pos') :
    (m.put16 pos v).le16 pos' = m.le16 pos' :=
  le16_congr fun j hj => put16_outside _ _ _ _ (by omega)

theorem le16_put32_apart (m : Bytes) (v : ℕ) (apart : pos' + 2 ≤ pos ∨ pos + 4 ≤ pos') :
    (m.put32 pos v).le16 pos' = m.le16 pos' :=
  le16_congr fun j hj => put32_outside _ _ _ _ (by omega)

theorem le32_put16_apart (m : Bytes) (v : ℕ) (apart : pos' + 4 ≤ pos ∨ pos + 2 ≤ pos') :
    (m.put16 pos v).le32 pos' = m.le32 pos' :=
  le32_congr fun j hj => put16_outside _ _ _ _ (by omega)

theorem le32_put32_apart (m : Bytes) (v : ℕ) (apart : pos' + 4 ≤ pos ∨ pos + 4 ≤ pos') :
    (m.put32 pos v).le32 pos' = m.le32 pos' :=
  le32_congr fun j hj => put32_outside _ _ _ _ (by omega)

theorem le64_lt (m : Bytes) (pos : ℕ) : m.le64 pos < 2 ^ 64 := by
  have h₀ := m.le32_lt pos
  have h₁ := m.le32_lt (pos + 4)
  unfold le64
  omega

theorem le64_congr (same : ∀ j, j < 8 → m (pos + j) = m' (pos + j)) : m.le64 pos = m'.le64 pos := by
  have low : m.le32 pos = m'.le32 pos := le32_congr fun j hj => same j (by omega)
  have high : m.le32 (pos + 4) = m'.le32 (pos + 4) := by
    apply le32_congr
    intro j hj
    rw [Nat.add_assoc]
    exact same (4 + j) (by omega)
  simp only [le64, low, high]

theorem put64_outside (m : Bytes) (pos v k : ℕ) (outside : k < pos ∨ pos + 8 ≤ k) :
    m.put64 pos v k = m k := by
  unfold put64
  rw [put32_outside _ _ _ _ (by omega), put32_outside _ _ _ _ (by omega)]

theorem le64_put64 (m : Bytes) (pos v : ℕ) : (m.put64 pos v).le64 pos = v % 2 ^ 64 := by
  have low : (m.put64 pos v).le32 pos = v % 2 ^ 32 := by
    rw [← le32_put32 m pos v]
    exact le32_congr fun j hj => put32_outside _ _ _ _ (by omega)
  have high : (m.put64 pos v).le32 (pos + 4) = v / 2 ^ 32 % 2 ^ 32 := le32_put32 _ _ _
  rw [le64, low, high]
  omega

theorem le64_put64_apart (m : Bytes) (v : ℕ) (apart : pos' + 8 ≤ pos ∨ pos + 8 ≤ pos') :
    (m.put64 pos v).le64 pos' = m.le64 pos' :=
  le64_congr fun j hj => put64_outside _ _ _ _ (by omega)

theorem le32_put64_apart (m : Bytes) (v : ℕ) (apart : pos' + 4 ≤ pos ∨ pos + 8 ≤ pos') :
    (m.put64 pos v).le32 pos' = m.le32 pos' :=
  le32_congr fun j hj => put64_outside _ _ _ _ (by omega)

theorem le64_put32_apart (m : Bytes) (v : ℕ) (apart : pos' + 8 ≤ pos ∨ pos + 4 ≤ pos') :
    (m.put32 pos v).le64 pos' = m.le64 pos' :=
  le64_congr fun j hj => put32_outside _ _ _ _ (by omega)

theorem blit_zero (dst : Bytes) (pos : ℕ) (src : Bytes) (start : ℕ) :
    dst.blit pos src start 0 = dst :=
  funext fun k => blit_outside dst pos src start 0 k (by omega)

theorem blit_succ (dst : Bytes) (pos : ℕ) (src : Bytes) (start len : ℕ) :
    dst.blit pos src start (len + 1) =
      (dst.blit pos src start len).put (pos + len) (src (start + len)) := by
  funext k
  by_cases last : k = pos + len
  · rw [last, put_self, blit_inside _ _ _ _ _ _ (by omega) (by omega), Nat.add_sub_cancel_left]
  · rw [put_ne _ _ last]
    by_cases inside : pos ≤ k ∧ k < pos + len
    · rw [blit_inside _ _ _ _ _ _ inside.1 inside.2, blit_inside _ _ _ _ _ _ (by omega) (by omega)]
    · rw [blit_outside _ _ _ _ _ _ inside, blit_outside _ _ _ _ _ _ (by omega)]

theorem copy_succ (m : Bytes) (dst src len : ℕ) :
    m.copy dst src (len + 1) = (m.put dst (m src)).copy (dst + 1) (src + 1) len := by
  induction len with
  | zero => rfl
  | succ len ih =>
    rw [copy, ih, copy, Nat.add_right_comm dst, Nat.add_right_comm src]
    rfl

theorem copy_eq_blit (m : Bytes) {dst src len : ℕ} (safe : src + len ≤ dst ∨ dst ≤ src) :
    m.copy dst src len = m.blit dst m src len := by
  induction len with
  | zero => exact (blit_zero m dst m src).symm
  | succ len ih =>
    have step := ih (by omega)
    have source : m.copy dst src len (src + len) = m (src + len) := by
      rw [step, blit_outside _ _ _ _ _ _ (by omega)]
    rw [copy, source, step, blit_succ]

end Bytes

end Thuban.Lib

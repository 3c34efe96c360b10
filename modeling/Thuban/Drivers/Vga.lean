import Mathlib

/-!
# The VGA text screen

`drivers/video/vga.c`: the text buffer at 0xB8000, the colour and the cursor, which goes to the
registers 0x0E and 0x0F of the display controller.
-/

namespace Thuban

structure Vga where
  buffer : ℕ → UInt16
  currentColor : UInt8
  cursorX : ℕ
  cursorY : ℕ
  /-- The index register at port 0x3D4. -/
  crtcIndex : UInt8
  /-- The registers behind port 0x3D5. -/
  crtc : UInt8 → UInt8

namespace Vga

def vgaWidth : ℕ := 80

def vgaHeight : ℕ := 25

theorem vgaWidth_pos : 0 < vgaWidth := by decide

/-- `vga_entry`; a `char` is signed. -/
def vgaEntry (c color : UInt8) : UInt16 := c.toInt8.toInt16.toUInt16 ||| color.toUInt16 <<< 8

def outb (port : ℕ) (value : UInt8) (vga : Vga) : Vga :=
  if port = 0x3D4 then { vga with crtcIndex := value }
  else if port = 0x3D5 then { vga with crtc := Function.update vga.crtc vga.crtcIndex value }
  else vga

theorem outb_index (value : UInt8) (vga : Vga) :
    vga.outb 0x3D4 value = { vga with crtcIndex := value } :=
  if_pos rfl

theorem outb_data (value : UInt8) (vga : Vga) :
    vga.outb 0x3D5 value = { vga with crtc := Function.update vga.crtc vga.crtcIndex value } :=
  (if_neg (by decide)).trans (if_pos rfl)

/-- `vga_set_cursor_pos`. -/
def vgaSetCursorPos (x y : ℕ) (vga : Vga) : Vga :=
  let x := if vgaWidth ≤ x then vgaWidth - 1 else x
  let y := if vgaHeight ≤ y then vgaHeight - 1 else y
  let pos := UInt16.ofNat (y * vgaWidth + x)
  let vga := { vga with cursorX := x, cursorY := y }
  (((vga.outb 0x3D4 0x0F).outb 0x3D5 (pos &&& 0xFF).toUInt8).outb 0x3D4 0x0E).outb 0x3D5
    ((pos >>> 8) &&& 0xFF).toUInt8

/-- What `vga_write_cell` does to the buffer. -/
def storeCell (c color : UInt8) (x y : ℕ) (buffer : ℕ → UInt16) : ℕ → UInt16 :=
  if vgaWidth ≤ x ∨ vgaHeight ≤ y then buffer
  else Function.update buffer (y * vgaWidth + x) (vgaEntry c color)

/-- `vga_write_cell`. -/
def vgaWriteCell (c color : UInt8) (x y : ℕ) (vga : Vga) : Vga :=
  { vga with buffer := storeCell c color x y vga.buffer }

/-- The loop over a row that fills it with spaces. -/
def clearRow (color : UInt8) (y : ℕ) (buffer : ℕ → UInt16) : ℕ → UInt16 :=
  Nat.fold vgaWidth (fun x _ buffer => storeCell 0x20 color x y buffer) buffer

/-- `vga_clear_screen`. -/
def vgaClearScreen (vga : Vga) : Vga :=
  let buffer := Nat.fold vgaHeight (fun y _ buffer => clearRow vga.currentColor y buffer) vga.buffer
  vgaSetCursorPos 0 0 { vga with buffer := buffer, cursorX := 0, cursorY := 0 }

/-- The loop of `vga_scroll_up` over a row; it copies in place. -/
def copyRow (y : ℕ) (buffer : ℕ → UInt16) : ℕ → UInt16 :=
  Nat.fold vgaWidth (fun x _ buffer =>
    Function.update buffer (y * vgaWidth + x) (buffer ((y + 1) * vgaWidth + x))) buffer

/-- `vga_scroll_up`. -/
def vgaScrollUp (vga : Vga) : Vga :=
  let buffer := Nat.fold (vgaHeight - 1) (fun y _ buffer => copyRow y buffer) vga.buffer
  { vga with buffer := clearRow vga.currentColor (vgaHeight - 1) buffer }

/-- The position that the display controller shows the cursor at. -/
def hardwareCursor (vga : Vga) : ℕ := (vga.crtc 0x0E).toNat * 256 + (vga.crtc 0x0F).toNat

/-! ## The loops -/

theorem clearRow_apply (color : UInt8) {y : ℕ} (row : y < vgaHeight) (buffer : ℕ → UInt16) (k : ℕ) :
    clearRow color y buffer k =
      if y * vgaWidth ≤ k ∧ k < y * vgaWidth + vgaWidth then vgaEntry 0x20 color else buffer k := by
  -- The loop has filled the first `n` cells.
  suffices ∀ n ≤ vgaWidth, Nat.fold n (fun x _ buffer => storeCell 0x20 color x y buffer) buffer k =
      if y * vgaWidth ≤ k ∧ k < y * vgaWidth + n then vgaEntry 0x20 color else buffer k from
    this vgaWidth le_rfl
  intro n
  induction n with
  | zero =>
    intro _
    rw [Nat.fold_zero, if_neg (by omega)]
  | succ n ih =>
    intro le
    rw [Nat.fold_succ, storeCell, if_neg (by omega), Function.update_apply, ih (by omega)]
    split_ifs <;> first | rfl | omega

theorem copyRow_apply (y : ℕ) (buffer : ℕ → UInt16) (k : ℕ) :
    copyRow y buffer k =
      if y * vgaWidth ≤ k ∧ k < (y + 1) * vgaWidth then buffer (k + vgaWidth) else buffer k := by
  -- The loop has copied the first `n` cells; the row below is as it was.
  suffices ∀ n ≤ vgaWidth, ∀ k, Nat.fold n (fun x _ buffer =>
      Function.update buffer (y * vgaWidth + x) (buffer ((y + 1) * vgaWidth + x))) buffer k =
        if y * vgaWidth ≤ k ∧ k < y * vgaWidth + n then buffer (k + vgaWidth) else buffer k by
    rw [Nat.succ_mul]
    exact this vgaWidth le_rfl k
  intro n
  induction n with
  | zero =>
    intro _ k
    rw [Nat.fold_zero, if_neg (by omega)]
  | succ n ih =>
    intro le k
    have next : (y + 1) * vgaWidth = y * vgaWidth + vgaWidth := Nat.succ_mul ..
    have below := (ih (by omega) ((y + 1) * vgaWidth + n)).trans (if_neg (by omega))
    rw [Nat.fold_succ]
    by_cases here : k = y * vgaWidth + n
    · rw [here, Function.update_self, below, if_pos (by omega), next, Nat.add_right_comm]
    · rw [Function.update_of_ne here, ih (by omega)]
      split_ifs <;> first | rfl | omega

theorem copyRows_apply (n : ℕ) (buffer : ℕ → UInt16) (k : ℕ) :
    Nat.fold n (fun y _ buffer => copyRow y buffer) buffer k =
      if k < n * vgaWidth then buffer (k + vgaWidth) else buffer k := by
  induction n generalizing k with
  | zero => rw [Nat.fold_zero, if_neg (by omega)]
  | succ n ih =>
    rw [Nat.fold_succ, copyRow_apply, ih, ih, Nat.succ_mul]
    split_ifs <;> first | rfl | omega

theorem clearRows_apply (color : UInt8) {n : ℕ} (le : n ≤ vgaHeight) (buffer : ℕ → UInt16) (k : ℕ) :
    Nat.fold n (fun y _ buffer => clearRow color y buffer) buffer k =
      if k < n * vgaWidth then vgaEntry 0x20 color else buffer k := by
  induction n with
  | zero => rw [Nat.fold_zero, if_neg (by omega)]
  | succ n ih =>
    rw [Nat.fold_succ, clearRow_apply color (by omega), ih (by omega), Nat.succ_mul]
    split_ifs <;> first | rfl | omega

theorem vgaScrollUp_apply (vga : Vga) (k : ℕ) :
    (vgaScrollUp vga).buffer k =
      if k < (vgaHeight - 1) * vgaWidth then vga.buffer (k + vgaWidth)
      else if k < vgaHeight * vgaWidth then vgaEntry 0x20 vga.currentColor
      else vga.buffer k := by
  simp only [vgaScrollUp]
  rw [clearRow_apply _ (by decide), copyRows_apply]
  unfold vgaWidth vgaHeight at *
  split_ifs <;> first | rfl | omega

theorem lowByte_ofNat {n : ℕ} (small : n < 2 ^ 16) :
    (UInt16.ofNat n &&& 0xFF).toUInt8.toNat = n % 256 := by
  rw [UInt16.toNat_toUInt8, UInt16.toNat_and, UInt16.toNat_ofNat_of_lt' small,
    show (0xFF : UInt16).toNat = 2 ^ 8 - 1 from rfl, Nat.and_two_pow_sub_one_eq_mod, Nat.mod_mod]

theorem highByte_ofNat {n : ℕ} (small : n < 2 ^ 16) :
    ((UInt16.ofNat n >>> 8) &&& 0xFF).toUInt8.toNat = n / 256 := by
  rw [UInt16.toNat_toUInt8, UInt16.toNat_and, UInt16.toNat_shiftRight,
    UInt16.toNat_ofNat_of_lt' small, show (0xFF : UInt16).toNat = 2 ^ 8 - 1 from rfl,
    show (8 : UInt16).toNat % 16 = 8 from rfl, Nat.and_two_pow_sub_one_eq_mod, Nat.mod_mod,
    Nat.shiftRight_eq_div_pow]
  exact Nat.mod_eq_of_lt (by omega)

/-! ## What a cell holds -/

section Cells

variable {x y : ℕ} (column : x < vgaWidth)

include column

theorem index_lt (row : y < vgaHeight) : y * vgaWidth + x < vgaHeight * vgaWidth := by
  unfold vgaWidth vgaHeight at *
  omega

theorem index_inj {x' y' : ℕ} (column' : x' < vgaWidth)
    (same : y * vgaWidth + x = y' * vgaWidth + x') : x = x' ∧ y = y' := by
  unfold vgaWidth at *
  omega

theorem vgaClearScreen_cell (row : y < vgaHeight) (vga : Vga) :
    (vgaClearScreen vga).buffer (y * vgaWidth + x) = vgaEntry 0x20 vga.currentColor := by
  show Nat.fold vgaHeight (fun y _ buffer => clearRow vga.currentColor y buffer) vga.buffer _ = _
  rw [clearRows_apply _ le_rfl, if_pos (index_lt column row)]

theorem vgaScrollUp_cell (row : y < vgaHeight) (vga : Vga) :
    (vgaScrollUp vga).buffer (y * vgaWidth + x) =
      if y + 1 < vgaHeight then vga.buffer ((y + 1) * vgaWidth + x)
      else vgaEntry 0x20 vga.currentColor := by
  rw [vgaScrollUp_apply, Nat.succ_mul, Nat.add_right_comm]
  unfold vgaWidth vgaHeight at *
  split_ifs <;> first | rfl | omega

theorem vgaWriteCell_cell (c color : UInt8) {x' y' : ℕ} (column' : x' < vgaWidth)
    (row' : y' < vgaHeight) (vga : Vga) :
    (vgaWriteCell c color x' y' vga).buffer (y * vgaWidth + x) =
      if x = x' ∧ y = y' then vgaEntry c color else vga.buffer (y * vgaWidth + x) := by
  unfold vgaWriteCell storeCell
  dsimp only
  rw [if_neg (by omega), Function.update_apply]
  split_ifs with same equal equal
  · rfl
  · exact absurd (index_inj column column' same) equal
  · exact absurd (by rw [equal.1, equal.2]) same
  · rfl

theorem vgaSetCursorPos_spec (row : y < vgaHeight) (vga : Vga) :
    (vgaSetCursorPos x y vga).buffer = vga.buffer ∧
      (vgaSetCursorPos x y vga).currentColor = vga.currentColor ∧
      (vgaSetCursorPos x y vga).cursorX = x ∧ (vgaSetCursorPos x y vga).cursorY = y ∧
      (vgaSetCursorPos x y vga).hardwareCursor = y * vgaWidth + x := by
  have pos := index_lt column row
  have small : y * vgaWidth + x < 2 ^ 16 := lt_trans pos (by decide)
  simp only [vgaSetCursorPos, if_neg (not_le.mpr column), if_neg (not_le.mpr row), outb_index,
    outb_data, hardwareCursor, true_and, Function.update_self,
    Function.update_of_ne (show (0x0F : UInt8) ≠ 0x0E by decide)]
  rw [lowByte_ofNat small, highByte_ofNat small]
  omega

end Cells

end Vga

end Thuban

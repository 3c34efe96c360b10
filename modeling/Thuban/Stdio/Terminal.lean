import Thuban.Drivers.Vga

/-!
# The terminal

`putchar` of `lib/stdio.c` over the VGA driver, and the terminal without a bottom line that it shows the
last 25 rows of.
-/

namespace Thuban

open Vga (vgaWidth vgaHeight vgaEntry)

structure Terminal where
  termX : ℕ
  termY : ℕ
  vga : Vga

namespace Terminal

def terminalReset (t : Terminal) : Terminal := { t with termX := 0, termY := 0 }

/-- `vga_set_cursor_pos(term_x, term_y)`. -/
def showCursor (t : Terminal) : Terminal := { t with vga := t.vga.vgaSetCursorPos t.termX t.termY }

def termScroll (t : Terminal) : Terminal :=
  { t with vga := t.vga.vgaScrollUp, termY := vgaHeight - 1 }

def termNewline (t : Terminal) : Terminal :=
  let t := { t with termX := 0, termY := t.termY + 1 }
  (if vgaHeight ≤ t.termY then t.termScroll else t).showCursor

def termAdvance (t : Terminal) : Terminal :=
  let t := { t with termX := t.termX + 1 }
  if vgaWidth ≤ t.termX then t.termNewline else t.showCursor

/-- The end of `putchar`: a character that fills a cell. -/
def putCell (c : UInt8) (t : Terminal) : Terminal :=
  termAdvance { t with vga := t.vga.vgaWriteCell c t.vga.currentColor t.termX t.termY }

/-- `putchar`: its result and the terminal.  The calls for the spaces of a tab get to `putCell`. -/
def putchar (c : ℤ) (t : Terminal) : ℤ × Terminal :=
  if c = 0x0A then (c, t.termNewline)
  else if c = 0x0D then (c, showCursor { t with termX := 0 })
  else if c = 0x09 then (c, (putCell 0x20)^[4 - t.termX % 4] t)
  else if c = 0x08 then
    (c, if 0 < t.termX then showCursor { t with termX := t.termX - 1 } else t)
  else (c, t.putCell (UInt8.ofNat (c % 256).toNat))

end Terminal

/-! ## The unbounded terminal -/

/-- Rows of 80 cells without end, and the cursor. -/
structure Scroll where
  cells : (row column : ℕ) → UInt16
  row : ℕ
  column : ℕ

namespace Scroll

def entry (color : UInt8) (code : ℕ) : UInt16 := UInt16.ofNat (256 * color.toNat + code)

def blank (color : UInt8) : Scroll := ⟨fun _ _ => entry color 0x20, 0, 0⟩

def newline (s : Scroll) : Scroll := { s with row := s.row + 1, column := 0 }

def fill (color : UInt8) (code : ℕ) (s : Scroll) : Scroll :=
  let s := { s with
    cells := fun r c => if r = s.row ∧ c = s.column then entry color code else s.cells r c }
  if s.column + 1 = vgaWidth then s.newline else { s with column := s.column + 1 }

def put (color : UInt8) (s : Scroll) (code : ℕ) : Scroll :=
  if code = 0x0A then s.newline
  else if code = 0x0D then { s with column := 0 }
  else if code = 0x09 then (fill color 0x20)^[4 - s.column % 4] s
  else if code = 0x08 then { s with column := s.column - 1 }
  else s.fill color code

def top (s : Scroll) : ℕ := s.row + 1 - vgaHeight

end Scroll

/-! ## The terminal shows the last rows -/

/-- The screen shows the window that ends at the row of the cursor; below that row everything is
blank. -/
structure Window (color : UInt8) (t : Terminal) (s : Scroll) : Prop where
  currentColor : t.vga.currentColor = color
  termY : s.top + t.termY = s.row
  row : t.termY < vgaHeight
  cells : ∀ x < vgaWidth, ∀ y < vgaHeight, t.vga.buffer (y * vgaWidth + x) = s.cells (s.top + y) x
  below : ∀ r, s.row < r → ∀ x, s.cells r x = Scroll.entry color 0x20

structure Shows (color : UInt8) (t : Terminal) (s : Scroll) : Prop extends Window color t s where
  column : s.column < vgaWidth
  termX : t.termX = s.column
  cursor : t.vga.cursorX = t.termX ∧ t.vga.cursorY = t.termY ∧
    t.vga.hardwareCursor = t.termY * vgaWidth + t.termX

theorem vgaEntry_eq (color : UInt8) (code : Fin 128) :
    vgaEntry (UInt8.ofNat code) color = Scroll.entry color code := by
  have low : (UInt8.ofNat code).toInt8.toInt16.toUInt16 = UInt16.ofNat code := by
    revert code
    decide +kernel
  have lt := color.toNat_lt
  have shifted : color.toNat * 2 ^ 8 < 2 ^ 16 := by omega
  rw [vgaEntry, low, ← UInt16.toNat_inj, UInt16.toNat_or, UInt16.toNat_shiftLeft, Scroll.entry,
    UInt16.toNat_ofNat_of_lt' (show (code : ℕ) < 2 ^ 16 by omega),
    UInt16.toNat_ofNat_of_lt' (show 256 * color.toNat + code < 2 ^ 16 by omega),
    UInt8.toNat_toUInt16, show (8 : UInt16).toNat % 16 = 8 from rfl, Nat.shiftLeft_eq,
    Nat.mod_eq_of_lt shifted, Nat.or_comm, Nat.mul_comm]
  exact (Nat.two_pow_add_eq_or_of_lt (show (code : ℕ) < 2 ^ 8 by omega) color.toNat).symm

variable {color : UInt8} {t : Terminal} {s : Scroll}

namespace Window

section

variable (h : Window color t s)

include h

theorem showCursor (column : s.column < vgaWidth) (termX : t.termX = s.column) :
    Shows color t.showCursor s := by
  obtain ⟨buffer, currentColor, cursorX, cursorY, hardware⟩ :=
    Vga.vgaSetCursorPos_spec (termX ▸ column) h.row t.vga
  refine ⟨⟨?_, h.termY, h.row, ?_, h.below⟩, column, termX, cursorX, cursorY, hardware⟩
  · exact currentColor.trans h.currentColor
  · intro x hx y hy
    show (t.vga.vgaSetCursorPos t.termX t.termY).buffer _ = _
    rw [buffer]
    exact h.cells x hx y hy

theorem setColumn (x column : ℕ) : Window color { t with termX := x } { s with column := column } :=
  ⟨h.currentColor, h.termY, h.row, h.cells, h.below⟩

theorem scroll (last : vgaHeight ≤ t.termY + 1) (x : ℕ) :
    Window color ⟨x, vgaHeight - 1, t.vga.vgaScrollUp⟩ s.newline := by
  have termY := h.termY
  have row := h.row
  have top : s.newline.top = s.top + 1 := by
    simp only [Scroll.top, Scroll.newline] at termY ⊢
    omega
  refine ⟨h.currentColor, ?_, Nat.sub_lt (by decide) one_pos, fun x hx y hy => ?_, fun r hr =>
    h.below r (lt_trans (Nat.lt_succ_self _) hr)⟩
  · show s.newline.top + (vgaHeight - 1) = s.row + 1
    omega
  · show t.vga.vgaScrollUp.buffer _ = s.cells _ x
    rw [Vga.vgaScrollUp_cell hx hy, top, Nat.add_assoc, Nat.add_comm 1 y]
    split_ifs with inside
    · exact h.cells x hx (y + 1) inside
    · rw [h.below _ (by omega), h.currentColor]
      exact vgaEntry_eq color 0x20

theorem down (inside : t.termY + 1 < vgaHeight) (x : ℕ) :
    Window color ⟨x, t.termY + 1, t.vga⟩ s.newline := by
  have termY := h.termY
  have top : s.newline.top = s.top := by
    simp only [Scroll.top, Scroll.newline] at termY ⊢
    omega
  refine ⟨h.currentColor, ?_, inside, fun x hx y hy => ?_, fun r hr =>
    h.below r (lt_trans (Nat.lt_succ_self _) hr)⟩
  · show s.newline.top + (t.termY + 1) = s.row + 1
    omega
  · rw [top]
    exact h.cells x hx y hy

theorem newline : Shows color t.termNewline s.newline := by
  unfold Terminal.termNewline
  dsimp only
  split_ifs with last
  · exact (h.scroll last 0).showCursor Vga.vgaWidth_pos rfl
  · exact (h.down (not_le.mp last) 0).showCursor Vga.vgaWidth_pos rfl

end

end Window

namespace Shows

section

variable (h : Shows color t s)

include h

theorem store (code : Fin 128) :
    Window color { t with vga := t.vga.vgaWriteCell (UInt8.ofNat code) t.vga.currentColor t.termX t.termY }
      { s with cells := fun r c =>
          if r = s.row ∧ c = s.column then Scroll.entry color code else s.cells r c } := by
  refine ⟨h.currentColor, h.termY, h.row, fun x hx y hy => ?_, fun r hr x => ?_⟩
  · show _ = if s.top + y = s.row ∧ x = s.column then _ else s.cells (s.top + y) x
    have termY := h.termY
    rw [Vga.vgaWriteCell_cell hx _ _ (h.termX ▸ h.column) h.row, h.currentColor, vgaEntry_eq,
      h.cells x hx y hy, h.termX]
    have same : (x = s.column ∧ y = t.termY) ↔ (s.top + y = s.row ∧ x = s.column) := by omega
    simp only [same]
  · exact (if_neg fun same => absurd same.1 (ne_of_gt hr)).trans (h.below r hr x)

theorem putCell (code : Fin 128) :
    Shows color (t.putCell (UInt8.ofNat code)) (s.fill color code) := by
  have stored := h.store code
  have column := h.column
  have termX := h.termX
  unfold Terminal.putCell Terminal.termAdvance Scroll.fill
  dsimp only
  by_cases last : s.column + 1 = vgaWidth
  · rw [if_pos (by omega), if_pos last]
    exact (stored.setColumn (t.termX + 1) s.column).newline
  · rw [if_neg (by omega), if_neg last]
    refine (stored.setColumn (t.termX + 1) (s.column + 1)).showCursor ?_ ?_
    · show s.column + 1 < vgaWidth
      omega
    · show t.termX + 1 = s.column + 1
      rw [termX]

theorem putSpaces (n : ℕ) :
    Shows color ((Terminal.putCell 0x20)^[n] t) ((Scroll.fill color 0x20)^[n] s) := by
  induction n generalizing t s with
  | zero => exact h
  | succ n ih => exact ih (h.putCell 0x20)

theorem putchar (code : Fin 128) : Shows color (t.putchar (code : ℕ)).2 (s.put color code) := by
  have column := h.column
  have termX := h.termX
  unfold Terminal.putchar Scroll.put
  by_cases newline : (code : ℕ) = 0x0A
  · rw [if_pos (by omega), if_pos newline]
    exact h.toWindow.newline
  rw [if_neg (by omega), if_neg newline]
  by_cases carriage : (code : ℕ) = 0x0D
  · rw [if_pos (by omega), if_pos carriage]
    exact (h.toWindow.setColumn 0 0).showCursor Vga.vgaWidth_pos rfl
  rw [if_neg (by omega), if_neg carriage]
  by_cases tab : (code : ℕ) = 0x09
  · rw [if_pos (by omega), if_pos tab, termX]
    exact h.putSpaces _
  rw [if_neg (by omega), if_neg tab]
  by_cases backspace : (code : ℕ) = 0x08
  · rw [if_pos (by omega), if_pos backspace]
    split_ifs with inside
    · refine (h.toWindow.setColumn (t.termX - 1) (s.column - 1)).showCursor ?_ ?_
      · show s.column - 1 < vgaWidth
        omega
      · show t.termX - 1 = s.column - 1
        rw [termX]
    · have zero : s.column - 1 = s.column := by omega
      rw [zero]
      exact h
  · rw [if_neg (by omega), if_neg backspace]
    have char : ((code : ℕ) : ℤ) % 256 = (code : ℕ) := by omega
    rw [char, Int.toNat_natCast]
    exact h.putCell code

theorem putAll (codes : List (Fin 128)) :
    Shows color (codes.foldl (fun t (code : Fin 128) => (t.putchar (code : ℕ)).2) t)
      (codes.foldl (fun s (code : Fin 128) => s.put color code) s) := by
  induction codes generalizing t s with
  | nil => exact h
  | cons code rest ih => exact ih (h.putchar code)

end

end Shows

theorem shows_cleared (t : Terminal) :
    Shows t.vga.currentColor (Terminal.terminalReset { t with vga := t.vga.vgaClearScreen })
      (Scroll.blank t.vga.currentColor) := by
  obtain ⟨-, currentColor, cursorX, cursorY, hardware⟩ :=
    Vga.vgaSetCursorPos_spec Vga.vgaWidth_pos (show 0 < vgaHeight by decide)
      { t.vga with
        buffer := Nat.fold vgaHeight (fun y _ buffer => Vga.clearRow t.vga.currentColor y buffer)
          t.vga.buffer, cursorX := 0, cursorY := 0 }
  refine ⟨⟨currentColor, rfl, (by decide : 0 < vgaHeight), fun x hx y hy => ?_, fun _ _ _ => rfl⟩,
    Vga.vgaWidth_pos, rfl, cursorX, cursorY, hardware⟩
  show (t.vga.vgaClearScreen).buffer _ = _
  rw [Vga.vgaClearScreen_cell hx hy]
  exact vgaEntry_eq _ 0x20

/-- For every sequence of 7-bit codes: the screen is the window of 25 rows of the unbounded terminal
that ends at the cursor, or its first 25 rows, and the hardware cursor is at `(term_x, term_y)`. -/
theorem terminal_shows_last_rows (t : Terminal) (codes : List (Fin 128)) :
    let shown := codes.foldl (fun t (code : Fin 128) => (t.putchar (code : ℕ)).2)
      (Terminal.terminalReset { t with vga := t.vga.vgaClearScreen })
    let s := codes.foldl (fun s (code : Fin 128) => s.put t.vga.currentColor code)
      (Scroll.blank t.vga.currentColor)
    shown.termX < 80 ∧ shown.termY < 25 ∧
      (∀ x < 80, ∀ y < 25, shown.vga.buffer (y * 80 + x) = s.cells (s.row + 1 - 25 + y) x) ∧
      shown.termX = s.column ∧ s.row + 1 - 25 + shown.termY = s.row ∧
      shown.vga.cursorX = shown.termX ∧ shown.vga.cursorY = shown.termY ∧
      shown.vga.hardwareCursor = shown.termY * 80 + shown.termX := by
  intro shown s
  have shows : Shows t.vga.currentColor shown s := (shows_cleared t).putAll codes
  exact ⟨shows.termX ▸ shows.column, shows.row, shows.cells, shows.termX, shows.termY, shows.cursor⟩

end Thuban

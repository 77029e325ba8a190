import MiniCore.Machine.CString
import Mathlib.Logic.Function.Basic

/-!
# The VGA terminal is a cursor on a circular screen of 2000 cells

`kernel.c` keeps the text terminal in four statics: `terminal_row`,
`terminal_column`, `terminal_color` and `terminal_buffer`, which
`terminal_initialize` points at the VGA text buffer at `0xB8000` and
fills with blanks. `terminal_putchar` writes one cell at the cursor and
moves the cursor on, wrapping the column at `VGA_WIDTH` into the next row
and the row at `VGA_HEIGHT` back to the top; `'\n'` only moves the cursor
to the start of the next row. There is no scrolling.

What the terminal is for: `Screen` says it without rows and columns, as a
cursor on a ring of `80 * 25` cells. A character is written at the cursor,
which moves to the next cell, from the last cell back to the first; a
newline moves it to the start of the next row of 80 cells.

The buffer is modelled as cells by index from `0xB8000`, without a bound,
so that a write outside the 2000 cells of the screen would be visible.
`terminal_row` and `terminal_column` are `size_t`s that never pass 25 and
80 (`Terminal.Inv`), so they are `Nat`s here.

**The laws.** `Terminal.Inv` (the cursor is on the screen) holds after
`terminal_initialize` and is kept by `terminal_putchar` and
`terminal_setcolor` (`Inv.putchar`), and no call writes a cell outside the
screen (`Frame`), so `terminal_stays_on_screen` holds over every run. On a
state where it holds, `terminal_putchar` is `Screen.putchar` on the view
(`view_putchar`), and so is every write (`view_write`). Writing up to 2000
bytes with no newline puts byte `i` at cell `cursor + i` modulo 2000 and
leaves every other cell as it was (`terminal_write_places`).

## What this does NOT cover

What the cells look like on the screen. `terminal_write` is modelled on
the bytes it is given, its `size` being their number. The cursor moves of
`shell_backspace` are in `Shell`.
-/

namespace MiniCore.Kernel

/-! ## The statics and the calls -/

/-- `VGA_WIDTH`. -/
def vgaWidth : Nat := 80

/-- `VGA_HEIGHT`. -/
def vgaHeight : Nat := 25

@[simp] theorem vgaWidth_eq : vgaWidth = 80 := rfl

@[simp] theorem vgaHeight_eq : vgaHeight = 25 := rfl

/-- `vga_entry_color(fg, bg)`: `fg | bg << 4`, stored in a `uint8_t`. -/
def vgaEntryColor (fg bg : BitVec 8) : BitVec 8 := fg ||| bg <<< 4

/-- `vga_entry(uc, color)`: the character in the low byte of the cell and
the colour in the high byte. -/
def vgaEntry (uc color : BitVec 8) : BitVec 16 := uc.zeroExtend 16 ||| color.zeroExtend 16 <<< 8

/-- The terminal's statics, with the cells of the text buffer by index. -/
structure Terminal where
  row : Nat
  column : Nat
  color : BitVec 8
  buffer : Nat → BitVec 16

/-- `terminal_initialize`, over the cells `buffer` held before: the cursor
at the top left, light grey on black, and every cell `y * VGA_WIDTH + x`
of the screen a blank. -/
def terminalInitialize (buffer : Nat → BitVec 16) : Terminal :=
  let color := vgaEntryColor 7 0
  { row := 0, column := 0, color,
    buffer := fun i => if i < vgaHeight * vgaWidth then vgaEntry 32 color else buffer i }

/-- `terminal_setcolor`. -/
def terminalSetcolor (t : Terminal) (color : BitVec 8) : Terminal := { t with color }

/-- `terminal_putentryat(c, color, x, y)`. -/
def terminalPutentryat (t : Terminal) (c color : BitVec 8) (x y : Nat) : Terminal :=
  { t with buffer := Function.update t.buffer (y * vgaWidth + x) (vgaEntry c color) }

/-- `terminal_putchar`. -/
def terminalPutchar (t : Terminal) (c : BitVec 8) : Terminal :=
  if c = 10 then
    { t with column := 0, row := if t.row + 1 = vgaHeight then 0 else t.row + 1 }
  else
    let t := terminalPutentryat t c t.color t.column t.row
    if t.column + 1 = vgaWidth then
      { t with column := 0, row := if t.row + 1 = vgaHeight then 0 else t.row + 1 }
    else { t with column := t.column + 1 }

/-- `terminal_write(data, size)`, on the `size` bytes `data`. -/
def terminalWrite (t : Terminal) (data : List (BitVec 8)) : Terminal := data.foldl terminalPutchar t

/-- `terminal_writestring`: `terminal_write` of the string `data` holds. -/
def terminalWritestring (t : Terminal) (data : List (BitVec 8)) : Terminal := terminalWrite t (cstr data)

/-- The terminal half of `shell_backspace`, which runs when the line is not
empty: step the column back, print a blank there, and step back again. -/
def shellBackspaceTerminal (t : Terminal) : Terminal :=
  if t.column > 0 then
    let t := terminalPutchar { t with column := t.column - 1 } 32
    { t with column := t.column - 1 }
  else t

/-- The calls every output of the kernel and the shell is made of: the
writers of `terminal_row`, `terminal_column`, `terminal_color` and the
buffer after `terminal_initialize`. -/
inductive TermCall
  | putchar (c : BitVec 8)
  | setcolor (color : BitVec 8)
  | backspace

def TermCall.run (t : Terminal) : TermCall → Terminal
  | .putchar c => terminalPutchar t c
  | .setcolor color => terminalSetcolor t color
  | .backspace => shellBackspaceTerminal t

/-! ## The cursor stays on the screen -/

/-- The cursor is on the screen. -/
structure Terminal.Inv (t : Terminal) : Prop where
  row_lt : t.row < vgaHeight
  column_lt : t.column < vgaWidth

/-- `t'` holds the cells of `t` outside the screen. -/
def Frame (t t' : Terminal) : Prop := ∀ j, vgaHeight * vgaWidth ≤ j → t'.buffer j = t.buffer j

theorem Frame.trans {t t' t'' : Terminal} (h : Frame t t') (h' : Frame t' t'') : Frame t t'' :=
  fun j hj => (h' j hj).trans (h j hj)

section Step

variable {t : Terminal}

theorem terminalInitialize_inv (buffer : Nat → BitVec 16) : (terminalInitialize buffer).Inv :=
  ⟨Nat.succ_pos _, Nat.succ_pos _⟩

theorem terminalInitialize_frame (buffer : Nat → BitVec 16) (j : Nat) (hj : vgaHeight * vgaWidth ≤ j) :
    (terminalInitialize buffer).buffer j = buffer j :=
  if_neg (Nat.not_lt.2 hj)

/-- What `terminal_putchar` does, case by case: a newline moves the cursor
to the next row; any other byte is written at the cursor, which moves to
the next column, or to the next row from the last column. -/
theorem terminalPutchar_eq (t : Terminal) (c : BitVec 8) :
    terminalPutchar t c =
      if c = 10 then { t with column := 0, row := if t.row + 1 = 25 then 0 else t.row + 1 }
      else if t.column + 1 = 80 then
        { t with buffer := Function.update t.buffer (t.row * 80 + t.column) (vgaEntry c t.color),
                 column := 0, row := if t.row + 1 = 25 then 0 else t.row + 1 }
      else
        { t with buffer := Function.update t.buffer (t.row * 80 + t.column) (vgaEntry c t.color),
                 column := t.column + 1 } := by
  unfold terminalPutchar terminalPutentryat
  simp only [vgaHeight_eq, vgaWidth_eq]

/-- The only cell `terminal_putchar` writes is the one under the cursor. -/
theorem terminalPutchar_buffer (t : Terminal) (c : BitVec 8) :
    (terminalPutchar t c).buffer =
      if c = 10 then t.buffer else Function.update t.buffer (t.row * 80 + t.column) (vgaEntry c t.color) := by
  rw [terminalPutchar_eq]
  split_ifs <;> rfl

theorem Terminal.Inv.putchar (h : t.Inv) (c : BitVec 8) : (terminalPutchar t c).Inv := by
  have := h.row_lt
  have := h.column_lt
  simp only [vgaHeight_eq, vgaWidth_eq] at *
  rw [terminalPutchar_eq]
  split_ifs <;> exact ⟨by simp only [vgaHeight_eq]; omega, by simp only [vgaWidth_eq]; omega⟩

theorem Terminal.Inv.frame_putchar (h : t.Inv) (c : BitVec 8) : Frame t (terminalPutchar t c) := by
  have := h.row_lt
  have := h.column_lt
  intro j hj
  simp only [vgaHeight_eq, vgaWidth_eq] at *
  rw [terminalPutchar_buffer]
  split_ifs
  · rfl
  · exact Function.update_noteq (by omega) _ _

/-- The blank `shell_backspace` prints lands in the column before the
cursor, and leaves the cursor there. -/
theorem Terminal.Inv.backspace (h : t.Inv) :
    (shellBackspaceTerminal t).Inv ∧ Frame t (shellBackspaceTerminal t) := by
  unfold shellBackspaceTerminal
  split_ifs with hc
  · have h1 : Terminal.Inv { t with column := t.column - 1 } :=
      ⟨h.row_lt, show t.column - 1 < vgaWidth by have := h.column_lt; omega⟩
    have hcol : (terminalPutchar { t with column := t.column - 1 } 32).column = t.column := by
      have := h.column_lt
      simp only [vgaWidth_eq] at this
      rw [terminalPutchar_eq, if_neg (by decide), if_neg (by simp only; omega)]
      simp only
      omega
    refine ⟨⟨(h1.putchar 32).row_lt, ?_⟩, h1.frame_putchar 32⟩
    simp only [hcol]
    have := h.column_lt
    omega
  · exact ⟨h, fun _ _ => rfl⟩

theorem Terminal.Inv.call (h : t.Inv) : ∀ k : TermCall, (k.run t).Inv ∧ Frame t (k.run t)
  | .putchar c => ⟨h.putchar c, h.frame_putchar c⟩
  | .setcolor _ => ⟨⟨h.row_lt, h.column_lt⟩, fun _ _ => rfl⟩
  | .backspace => h.backspace

theorem Terminal.Inv.calls (h : t.Inv) (ks : List TermCall) :
    (ks.foldl TermCall.run t).Inv ∧ Frame t (ks.foldl TermCall.run t) := by
  induction ks generalizing t with
  | nil => exact ⟨h, fun _ _ => rfl⟩
  | cons k ks ih =>
    obtain ⟨h1, f1⟩ := h.call k
    obtain ⟨h2, f2⟩ := ih h1
    exact ⟨h2, f1.trans f2⟩

end Step

/-- **The terminal stays on the screen.** After `terminal_initialize` and
any calls of `terminal_putchar`, `terminal_setcolor` and the terminal half
of `shell_backspace`, the cursor is on the 80 by 25 screen, and no cell
outside it has been written. -/
theorem terminal_stays_on_screen (buffer : Nat → BitVec 16) (ks : List TermCall) :
    (ks.foldl TermCall.run (terminalInitialize buffer)).Inv ∧
      ∀ j, vgaHeight * vgaWidth ≤ j → (ks.foldl TermCall.run (terminalInitialize buffer)).buffer j = buffer j := by
  obtain ⟨h, f⟩ := (terminalInitialize_inv buffer).calls ks
  exact ⟨h, fun j hj => (f j hj).trans (terminalInitialize_frame buffer j hj)⟩

/-! ## The circular screen -/

/-- What the terminal is for: a cursor on a ring of `80 * 25` cells. -/
@[ext]
structure Screen where
  cursor : Fin 2000
  color : BitVec 8
  cells : Nat → BitVec 16

/-- One character on the ring: a newline moves the cursor to the start of
the next row of 80 cells, from the last row to the first; any other byte
is written at the cursor, which moves to the next cell. -/
def Screen.putchar (s : Screen) (c : BitVec 8) : Screen :=
  if c = 10 then { s with cursor := ⟨(s.cursor / 80 + 1) % 25 * 80, by omega⟩ }
  else
    { s with
      cells := Function.update s.cells s.cursor (vgaEntry c s.color)
      cursor := ⟨(s.cursor + 1) % 2000, Nat.mod_lt _ (by decide)⟩ }

theorem Terminal.Inv.cursor_lt {t : Terminal} (h : t.Inv) : t.row * 80 + t.column < 2000 := by
  have := h.row_lt
  have := h.column_lt
  simp only [vgaHeight_eq, vgaWidth_eq] at *
  omega

/-- The screen a terminal whose cursor is on it shows. -/
def Terminal.view (t : Terminal) (h : t.Inv) : Screen :=
  ⟨⟨t.row * 80 + t.column, h.cursor_lt⟩, t.color, t.buffer⟩

/-- `terminal_putchar` is `Screen.putchar` on the view: the carries of the
column into the row and of the row to the top make the cursor a position
on the ring. -/
theorem view_putchar {t : Terminal} (h : t.Inv) (c : BitVec 8) :
    (terminalPutchar t c).view (h.putchar c) = (t.view h).putchar c := by
  have := h.row_lt
  have := h.column_lt
  simp only [vgaHeight_eq, vgaWidth_eq] at *
  refine Screen.ext (Fin.ext ?_) ?_ ?_
  · show (terminalPutchar t c).row * 80 + (terminalPutchar t c).column = _
    rw [terminalPutchar_eq]
    unfold Screen.putchar Terminal.view
    split_ifs <;> simp only <;> omega
  · show (terminalPutchar t c).color = _
    rw [terminalPutchar_eq]
    unfold Screen.putchar
    split_ifs <;> rfl
  · show (terminalPutchar t c).buffer = _
    rw [terminalPutchar_buffer]
    unfold Screen.putchar
    split_ifs <;> rfl

/-- Every write is the ring's, byte by byte. -/
theorem view_write {t : Terminal} (h : t.Inv) :
    ∀ (data : List (BitVec 8)) (h' : (terminalWrite t data).Inv),
      (terminalWrite t data).view h' = data.foldl Screen.putchar (t.view h)
  | [], _ => rfl
  | c :: data, h' => by
    rw [List.foldl_cons, ← view_putchar h c]
    exact view_write (h.putchar c) data h'

theorem Terminal.Inv.write {t : Terminal} (h : t.Inv) (data : List (BitVec 8)) : (terminalWrite t data).Inv := by
  induction data generalizing t with
  | nil => exact h
  | cons c data ih => exact ih (h.putchar c)

/-! ## Writing a run of bytes -/

section Ring

/-- A byte other than a newline moves the cursor one cell on the ring. -/
theorem Screen.putchar_cursor (s : Screen) {c : BitVec 8} (hc : c ≠ 10) :
    (s.putchar c).cursor.val = (s.cursor.val + 1) % 2000 := by
  rw [Screen.putchar, if_neg hc]

theorem Screen.putchar_cells (s : Screen) {c : BitVec 8} (hc : c ≠ 10) :
    (s.putchar c).cells = Function.update s.cells s.cursor (vgaEntry c s.color) := by
  rw [Screen.putchar, if_neg hc]

theorem Screen.putchar_color (s : Screen) (c : BitVec 8) : (s.putchar c).color = s.color := by
  unfold Screen.putchar
  split_ifs <;> rfl

theorem Screen.write_cursor (s : Screen) (data : List (BitVec 8)) (hd : 10 ∉ data) :
    (data.foldl Screen.putchar s).cursor.val = (s.cursor.val + data.length) % 2000 := by
  induction data generalizing s with
  | nil => exact (Nat.mod_eq_of_lt s.cursor.isLt).symm
  | cons c data ih =>
    rw [List.mem_cons, not_or] at hd
    rw [List.foldl_cons, ih _ hd.2, Screen.putchar_cursor s (Ne.symm hd.1), List.length_cons]
    omega

/-- Cells the cursor does not pass over keep what they held. -/
theorem Screen.write_frame (s : Screen) (data : List (BitVec 8)) (hd : 10 ∉ data) (j : Nat)
    (hj : ∀ i < data.length, (s.cursor.val + i) % 2000 ≠ j) :
    (data.foldl Screen.putchar s).cells j = s.cells j := by
  induction data generalizing s with
  | nil => rfl
  | cons c data ih =>
    rw [List.mem_cons, not_or] at hd
    have hc := Ne.symm hd.1
    have hk : j ≠ s.cursor.val := fun e =>
      hj 0 (Nat.succ_pos _) (by rw [Nat.add_zero, Nat.mod_eq_of_lt s.cursor.isLt, e])
    rw [List.foldl_cons, ih _ hd.2 fun i hi => ?_, Screen.putchar_cells s hc, Function.update_noteq hk]
    rw [Screen.putchar_cursor s hc]
    have := hj (i + 1) (by simp only [List.length_cons]; omega)
    omega

/-- Up to one lap of the ring, byte `i` is in the cell `i` after the cursor. -/
theorem Screen.write_places (s : Screen) (data : List (BitVec 8)) (hd : 10 ∉ data)
    (hl : data.length ≤ 2000) (i : Nat) (hi : i < data.length) :
    (data.foldl Screen.putchar s).cells ((s.cursor.val + i) % 2000) = vgaEntry data[i] s.color := by
  induction data generalizing s i with
  | nil => exact absurd hi (Nat.not_lt_zero _)
  | cons c data ih =>
    rw [List.mem_cons, not_or] at hd
    have hc := Ne.symm hd.1
    simp only [List.length_cons] at hl hi
    rw [List.foldl_cons]
    cases i with
    | zero =>
      rw [Screen.write_frame _ _ hd.2 _ fun i hi => by rw [Screen.putchar_cursor s hc]; omega,
        Screen.putchar_cells s hc, Nat.add_zero, Nat.mod_eq_of_lt s.cursor.isLt, Function.update_same]
      rfl
    | succ i =>
      have e := ih (s.putchar c) hd.2 (by omega) i (by omega)
      rw [Screen.putchar_cursor s hc, Screen.putchar_color] at e
      rw [List.getElem_cons_succ, ← e]
      congr 1
      omega

end Ring

/-- **Writing a run of bytes.** From a cursor on the screen, writing up to
2000 bytes none of which is a newline puts byte `i` in the cell `i` after
the cursor, around the ring of 2000 cells, moves the cursor past the last
one, and leaves every other cell, on the screen or off it, as it was. -/
theorem terminal_write_places {t : Terminal} (h : t.Inv) (data : List (BitVec 8)) (hd : 10 ∉ data)
    (hl : data.length ≤ 2000) :
    (terminalWrite t data).row * 80 + (terminalWrite t data).column =
        (t.row * 80 + t.column + data.length) % 2000 ∧
      (∀ i (hi : i < data.length),
        (terminalWrite t data).buffer ((t.row * 80 + t.column + i) % 2000) = vgaEntry data[i] t.color) ∧
      ∀ j, (∀ i < data.length, (t.row * 80 + t.column + i) % 2000 ≠ j) →
        (terminalWrite t data).buffer j = t.buffer j := by
  have e := view_write h data (h.write data)
  refine ⟨?_, fun i hi => ?_, fun j hj => ?_⟩
  · exact (congrArg (fun s : Screen => s.cursor.val) e).trans (Screen.write_cursor _ data hd)
  · exact (congrFun (congrArg Screen.cells e) _).trans (Screen.write_places _ data hd hl i hi)
  · exact (congrFun (congrArg Screen.cells e) _).trans (Screen.write_frame _ data hd j hj)

/-- `"AB"` written on a fresh screen: the `'B'` is in the second cell. -/
theorem write_ab_on_fresh_screen :
    (terminalInitialize fun _ => 0).Inv ∧ (10 : BitVec 8) ∉ [0x41, 0x42] ∧
      [(0x41 : BitVec 8), 0x42].length ≤ 2000 ∧
      (terminalWrite (terminalInitialize fun _ => 0) [0x41, 0x42]).buffer 1 = vgaEntry 0x42 (vgaEntryColor 7 0) :=
  ⟨terminalInitialize_inv _, by decide, by decide,
    (terminal_write_places (terminalInitialize_inv _) [0x41, 0x42] (by decide) (by decide)).2.1 1 (by decide)⟩

end MiniCore.Kernel

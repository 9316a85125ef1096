/-
The text console (terminal.c): the cells of the VGA text buffer, two 8-bit cursor variables and what
the functions over them write. Whatever they are called with, the buffer and the cursor are those of a
text terminal of 80 by 25 cells.
-/
import SpectreOS.Lib.Bytes
import SpectreOS.Lib.Screen

namespace SpectreOS

open BlockIO Memory

abbrev vgaWidth : Nat := 80

abbrev vgaHeight : Nat := 25

/-- A character with its attribute. -/
abbrev VgaCell := BitVec 16

/-- `VGA_MEMORY`, the cursor variables, the registers of the VGA controller behind `VGA_COMMAND` and
`VGA_DATA`, and the characters handed to `serial_putchar`. -/
structure Terminal where
  vga : Memory Nat VgaCell
  cursorX : BitVec 8
  cursorY : BitVec 8
  crtc : Byte → Byte
  serial : List Byte

/-- A character on the attribute the terminal writes. -/
def vgaCell (c : Byte) : VgaCell := 0x0700 ||| c.setWidth 16

def blankCell : VgaCell := vgaCell 0x20

def cellIndex (t : Terminal) : Nat := t.cursorY.toNat * vgaWidth + t.cursorX.toNat

/-! ## The functions of terminal.c -/

def terminalScroll (t : Terminal) : Terminal :=
  let vga := t.vga.moveRows vgaWidth (vgaHeight - 1)
  let vga := vga.fillRange ((vgaHeight - 1) * vgaWidth) vgaWidth blankCell
  { t with vga, cursorY := BitVec.ofNat 8 (vgaHeight - 1), cursorX := 0 }

/-- A command and the data for it. -/
def outCrtc (t : Terminal) (command data : Byte) : Terminal :=
  { t with crtc := Function.update t.crtc command data }

def terminalUpdateCursor (t : Terminal) : Terminal :=
  let position : BitVec 16 := BitVec.ofNat 16 (cellIndex t)
  let t := outCrtc t 0x0A 14
  let t := outCrtc t 0x0B 15
  let t := outCrtc t 0x0F ((position &&& 0xFF).setWidth 8)
  outCrtc t 0x0E ((position >>> 8 &&& 0xFF).setWidth 8)

def terminalClear (t : Terminal) : Terminal :=
  let vga := t.vga.fillRows vgaWidth vgaHeight blankCell
  terminalUpdateCursor { t with vga, cursorX := 0, cursorY := 0 }

def terminalSetCursor (t : Terminal) (x y : BitVec 8) : Terminal :=
  let t := { t with cursorX := x, cursorY := y }
  let t := if t.cursorX.toNat ≥ vgaWidth then { t with cursorX := BitVec.ofNat 8 (vgaWidth - 1) } else t
  let t := if t.cursorY.toNat ≥ vgaHeight then { t with cursorY := BitVec.ofNat 8 (vgaHeight - 1) } else t
  terminalUpdateCursor t

def terminalPutAt (t : Terminal) (x y : BitVec 8) (c : Byte) : Terminal :=
  if x.toNat ≥ vgaWidth ∨ y.toNat ≥ vgaHeight then t
  else { t with vga := t.vga.store (y.toNat * vgaWidth + x.toNat) (vgaCell c) }

def terminalClearLine (t : Terminal) : Terminal :=
  let vga := t.vga.fillRange (t.cursorY.toNat * vgaWidth) vgaWidth blankCell
  terminalUpdateCursor { t with vga, cursorX := 0 }

/-- What `terminal_putchar` does to the cursor at a newline and past the last column. -/
def nextLine (t : Terminal) : Terminal :=
  let t := { t with cursorX := 0, cursorY := t.cursorY + 1 }
  if t.cursorY.toNat ≥ vgaHeight then terminalScroll t else t

def terminalPutchar (t : Terminal) (c : Byte) : Terminal :=
  let t := { t with serial := t.serial ++ [c] }
  if c = 0x0A then terminalUpdateCursor (nextLine t)
  else if c = 0x0D then terminalUpdateCursor { t with cursorX := 0 }
  else if c = 0x08 then
    let t :=
      if t.cursorX.toNat > 0 then
        let t := { t with cursorX := t.cursorX - 1 }
        { t with vga := t.vga.store (cellIndex t) blankCell }
      else t
    terminalUpdateCursor t
  else
    let t := { t with vga := t.vga.store (cellIndex t) (vgaCell c) }
    let t := { t with cursorX := t.cursorX + 1 }
    let t := if t.cursorX.toNat ≥ vgaWidth then nextLine t else t
    terminalUpdateCursor t

/-- `terminal_write`; the text ends at its first NUL. -/
def terminalWrite (t : Terminal) : List Byte → Terminal
  | [] => t
  | c :: str => if c = 0 then t else terminalWrite (terminalPutchar t c) str

/-! ## Calls, and the terminal they stand for -/

inductive TerminalCall where
  | putchar (c : Byte)
  | write (str : List Byte)
  | setCursor (x y : BitVec 8)
  | putAt (x y : BitVec 8) (c : Byte)
  | clearLine
  | clear

def TerminalCall.run (t : Terminal) : TerminalCall → Terminal
  | .putchar c => terminalPutchar t c
  | .write str => terminalWrite t str
  | .setCursor x y => terminalSetCursor t x y
  | .putAt x y c => terminalPutAt t x y c
  | .clearLine => terminalClearLine t
  | .clear => terminalClear t

abbrev TextScreen := Screen VgaCell vgaHeight vgaWidth

/-- A character typed on the screen. -/
def typeChar (s : TextScreen) (c : Byte) : TextScreen :=
  if c = 0x0A then s.newline blankCell
  else if c = 0x0D then s.carriageReturn
  else if c = 0x08 then s.backspace blankCell
  else s.print blankCell (vgaCell c)

/-- What a call means on the screen. -/
def TerminalCall.meaning (s : TextScreen) : TerminalCall → TextScreen
  | .putchar c => typeChar s c
  | .write str => (str.takeWhile (· ≠ 0)).foldl typeChar s
  | .setCursor x y => s.moveTo x.toNat y.toNat
  | .putAt x y c => s.putAt x.toNat y.toNat (vgaCell c)
  | .clearLine => s.clearLine blankCell
  | .clear => Screen.clear blankCell

/-- The screen that a terminal with its cursor inside shows. -/
def Terminal.screen (t : Terminal) (hx : t.cursorX.toNat < vgaWidth)
    (hy : t.cursorY.toNat < vgaHeight) : TextScreen where
  cell := fun i j => t.vga.cell (i.val * vgaWidth + j.val)
  row := ⟨t.cursorY.toNat, hy⟩
  col := ⟨t.cursorX.toNat, hx⟩

/-- The terminal shows the screen, and beyond `past` it has written inside the buffer only. -/
structure Displays (past : List Nat) (t : Terminal) (s : TextScreen) : Prop where
  col : t.cursorX.toNat = s.col.val
  row : t.cursorY.toNat = s.row.val
  cells : s.ShownBy t.vga.cell
  written : ∀ i ∈ t.vga.written, i ∈ past ∨ i < vgaHeight * vgaWidth

theorem Displays.screen_eq {past : List Nat} {t : Terminal} {s : TextScreen} (h : Displays past t s)
    {hx : t.cursorX.toNat < vgaWidth} {hy : t.cursorY.toNat < vgaHeight} : t.screen hx hy = s := by
  obtain ⟨cell, row, col⟩ := s
  obtain rfl : (⟨t.cursorY.toNat, hy⟩ : Fin vgaHeight) = row := Fin.ext h.row
  obtain rfl : (⟨t.cursorX.toNat, hx⟩ : Fin vgaWidth) = col := Fin.ext h.col
  obtain rfl : (fun i j => t.vga.cell (i.val * vgaWidth + j.val)) = cell := funext₂ h.cells
  rfl

/-! ## One call -/

section Calls

variable {past : List Nat} {t : Terminal} {s : TextScreen}

theorem Displays.updateCursor (h : Displays past t s) : Displays past (terminalUpdateCursor t) s :=
  ⟨h.col, h.row, h.cells, h.written⟩

theorem Displays.serial (h : Displays past t s) (l : List Byte) : Displays past { t with serial := l } s :=
  ⟨h.col, h.row, h.cells, h.written⟩

/-- The cell under the cursor. -/
theorem Displays.index (h : Displays past t s) : cellIndex t = s.row.val * vgaWidth + s.col.val := by
  rw [cellIndex, h.row, h.col]

/-- One cell of the buffer. -/
theorem Displays.store (h : Displays past t s) (i : Fin vgaHeight) (j : Fin vgaWidth) (a : VgaCell) :
    Displays past { t with vga := t.vga.store (i.val * vgaWidth + j.val) a } (s.set i j a) := by
  refine ⟨h.col, h.row, h.cells.set i j a fun k => Function.update_apply .., fun k hk => ?_⟩
  rcases List.mem_append.1 hk with hk | hk
  · exact h.written k hk
  · rw [List.mem_singleton.1 hk]
    exact .inr (Screen.index_lt i j)

theorem vga_sizes : vgaWidth = 80 ∧ vgaHeight = 25 ∧ (vgaHeight - 1) * vgaWidth = 1920 ∧
    vgaHeight * vgaWidth = 2000 := by
  decide

theorem toNat_next {x : BitVec 8} (h : x.toNat < 255) : (x + 1).toNat = x.toNat + 1 := by
  have hone : (1 : BitVec 8).toNat = 1 := rfl
  rw [BitVec.toNat_add, hone, Nat.mod_eq_of_lt (by omega)]

theorem Displays.scroll (h : Displays past t s) (hrow : s.row.val + 1 = vgaHeight) :
    Displays past (terminalScroll t) ((s.scroll blankCell).carriageReturn) := by
  have hs := vga_sizes
  constructor
  · rfl
  · exact show 24 = s.row.val by omega
  · refine h.cells.scroll fun k hk => ?_
    simp only [terminalScroll, fillRange_cell, moveRows_cell]
    by_cases hlast : k + vgaWidth < vgaHeight * vgaWidth
    · rw [if_neg (by omega), if_pos (by omega), if_pos hlast]
    · rw [if_pos (by omega), if_neg hlast]
  · intro i hi
    rcases mem_written_fillRange _ _ _ _ hi with hi | hi
    · rcases mem_written_moveRows _ _ hi with hi | hi
      · exact h.written i hi
      · exact .inr (by omega)
    · exact .inr (by omega)

/-- The column the cursor came from does not matter. -/
theorem Displays.nextLine (h : Displays past t s) (x : BitVec 8) :
    Displays past (nextLine { t with cursorX := x }) (s.newline blankCell) := by
  have hlt := s.row.isLt
  have hs := vga_sizes
  have hy : (t.cursorY + 1).toNat = s.row.val + 1 := by rw [toNat_next (by rw [h.row]; omega), h.row]
  unfold SpectreOS.nextLine Screen.newline
  by_cases hrow : s.row.val + 1 < vgaHeight
  · rw [dif_pos hrow]
    simp only [hy, ge_iff_le, if_neg (not_le.2 hrow)]
    exact ⟨rfl, hy, h.cells, h.written⟩
  · rw [dif_neg hrow]
    simp only [hy, ge_iff_le, if_pos (not_lt.1 hrow)]
    exact h.scroll (by omega)

theorem Displays.backspace (h : Displays past t s) (hx : t.cursorX.toNat > 0) :
    Displays past { t with
      cursorX := t.cursorX - 1
      vga := t.vga.store (cellIndex { t with cursorX := t.cursorX - 1 }) blankCell } (s.backspace blankCell) := by
  have hcol : (t.cursorX - 1).toNat = s.col.val - 1 := by
    have hle : (1 : BitVec 8) ≤ t.cursorX := by rw [BitVec.le_def]; exact hx
    rw [BitVec.toNat_sub_of_le hle, h.col]
    rfl
  have hback : Displays past { t with cursorX := t.cursorX - 1 } { s with col := ⟨s.col - 1, by omega⟩ } :=
    ⟨hcol, h.row, h.cells, h.written⟩
  rw [Screen.backspace, if_neg (by rw [← h.col]; omega), hback.index]
  exact hback.store s.row ⟨s.col - 1, by omega⟩ blankCell

theorem Displays.print (h : Displays past t s) (a : VgaCell) :
    Displays past
      (let t := { t with vga := t.vga.store (cellIndex t) a }
       let t := { t with cursorX := t.cursorX + 1 }
       if t.cursorX.toNat ≥ vgaWidth then SpectreOS.nextLine t else t) (s.print blankCell a) := by
  have hlt := s.col.isLt
  have hs := vga_sizes
  have hx : (t.cursorX + 1).toNat = s.col.val + 1 := by rw [toNat_next (by rw [h.col]; omega), h.col]
  have hset := h.store s.row s.col a
  rw [← h.index] at hset
  unfold Screen.print
  dsimp only
  by_cases hcol : (s.set s.row s.col a).col.val + 1 < vgaWidth
  · have hstay : ¬(t.cursorX + 1).toNat ≥ vgaWidth := by rw [Screen.set_col] at hcol; omega
    rw [dif_pos hcol, if_neg hstay]
    exact ⟨hx, hset.row, hset.cells, hset.written⟩
  · have hwrap : (t.cursorX + 1).toNat ≥ vgaWidth := by rw [Screen.set_col] at hcol; omega
    rw [dif_neg hcol, if_pos hwrap]
    exact hset.nextLine (t.cursorX + 1)

theorem Displays.putchar (h : Displays past t s) (c : Byte) : Displays past (terminalPutchar t c) (typeChar s c) := by
  have h := h.serial (t.serial ++ [c])
  unfold terminalPutchar typeChar
  generalize { t with serial := t.serial ++ [c] } = t at h
  dsimp only
  split
  · exact (h.nextLine t.cursorX).updateCursor
  · split
    · exact ⟨rfl, h.row, h.cells, h.written⟩
    · split
      · split
        · rename_i hx
          exact (h.backspace hx).updateCursor
        · rename_i hx
          rw [Screen.backspace, if_pos (by rw [← h.col]; omega)]
          exact h.updateCursor
      · exact (h.print (vgaCell c)).updateCursor

theorem Displays.write (h : Displays past t s) (str : List Byte) :
    Displays past (terminalWrite t str) ((str.takeWhile (· ≠ 0)).foldl typeChar s) := by
  induction str generalizing t s with
  | nil => exact h
  | cons c str ih =>
    rw [terminalWrite]
    by_cases hc : c = 0
    · rw [if_pos hc, List.takeWhile_cons_of_neg (by simpa using hc)]
      exact h
    · rw [if_neg hc, List.takeWhile_cons_of_pos (by simpa using hc)]
      exact ih (h.putchar c)

theorem Displays.setCursor (h : Displays past t s) (x y : BitVec 8) :
    Displays past (terminalSetCursor t x y) (s.moveTo x.toNat y.toNat) := by
  have hs := vga_sizes
  unfold terminalSetCursor
  refine Displays.updateCursor ?_
  dsimp only
  have hcol : (if x.toNat ≥ vgaWidth then BitVec.ofNat 8 (vgaWidth - 1) else x).toNat = min x.toNat (vgaWidth - 1) := by
    split
    · rw [Nat.min_eq_right (by omega)]
      rfl
    · rw [Nat.min_eq_left (by omega)]
  have hrow : (if y.toNat ≥ vgaHeight then BitVec.ofNat 8 (vgaHeight - 1) else y).toNat =
    min y.toNat (vgaHeight - 1) := by
    split
    · rw [Nat.min_eq_right (by omega)]
      rfl
    · rw [Nat.min_eq_left (by omega)]
  by_cases hx : x.toNat ≥ vgaWidth <;> by_cases hy : y.toNat ≥ vgaHeight <;>
    simp only [hx, hy, if_true, if_false] at hcol hrow ⊢ <;> exact ⟨hcol, hrow, h.cells, h.written⟩

theorem Displays.putAt (h : Displays past t s) (x y : BitVec 8) (c : Byte) :
    Displays past (terminalPutAt t x y c) (s.putAt x.toNat y.toNat (vgaCell c)) := by
  unfold terminalPutAt Screen.putAt
  by_cases hin : x.toNat < vgaWidth ∧ y.toNat < vgaHeight
  · rw [if_neg (by omega), dif_pos hin]
    exact h.store ⟨y.toNat, hin.2⟩ ⟨x.toNat, hin.1⟩ (vgaCell c)
  · rw [if_pos (by omega), dif_neg hin]
    exact h

theorem Displays.clearLine (h : Displays past t s) : Displays past (terminalClearLine t) (s.clearLine blankCell) := by
  refine Displays.updateCursor ⟨rfl, h.row, h.cells.clearLine fun k => ?_, fun i hi => ?_⟩
  · rw [fillRange_cell, h.row]
  · rcases mem_written_fillRange _ _ _ _ hi with hi | hi
    · exact h.written i hi
    · have hlt := s.row.isLt
      rw [h.row] at hi
      simp only [vgaWidth, vgaHeight] at hi hlt
      exact .inr (show i < 25 * 80 by omega)

theorem Displays.clear (h : Displays past t s) : Displays past (terminalClear t) (Screen.clear blankCell) := by
  refine Displays.updateCursor ⟨rfl, rfl, fun i j => ?_, fun i hi => ?_⟩
  · rw [fillRows_cell, if_pos (Screen.index_lt i j)]
    rfl
  · exact (mem_written_fillRows _ _ _ hi).elim (fun hi => h.written i hi) .inr

theorem Displays.call (h : Displays past t s) (call : TerminalCall) : Displays past (call.run t) (call.meaning s) := by
  cases call with
  | putchar c => exact h.putchar c
  | write str => exact h.write str
  | setCursor x y => exact h.setCursor x y
  | putAt x y c => exact h.putAt x y c
  | clearLine => exact h.clearLine
  | clear => exact h.clear

theorem Displays.calls (h : Displays past t s) (calls : List TerminalCall) :
    Displays past (calls.foldl TerminalCall.run t) (calls.foldl TerminalCall.meaning s) := by
  induction calls generalizing t s with
  | nil => exact h
  | cons call calls ih => exact ih (h.call call)

end Calls

/-- From a cursor inside the screen, whatever is called and in whatever order: only cells of the buffer
are written, the cursor stays inside, and the terminal shows what the calls mean on a text screen. -/
theorem terminal_refines (t : Terminal) (hx : t.cursorX.toNat < vgaWidth) (hy : t.cursorY.toNat < vgaHeight)
    (calls : List TerminalCall) :
    (∀ i ∈ (calls.foldl TerminalCall.run t).vga.written, i ∈ t.vga.written ∨ i < 2000) ∧
    ∃ (hx' : (calls.foldl TerminalCall.run t).cursorX.toNat < vgaWidth)
      (hy' : (calls.foldl TerminalCall.run t).cursorY.toNat < vgaHeight),
      (calls.foldl TerminalCall.run t).screen hx' hy' = calls.foldl TerminalCall.meaning (t.screen hx hy) := by
  have hstart : Displays t.vga.written t (t.screen hx hy) := ⟨rfl, rfl, fun _ _ => rfl, fun _ hi => .inl hi⟩
  have hend := hstart.calls calls
  refine ⟨hend.written, hend.col ▸ Fin.isLt _, hend.row ▸ Fin.isLt _, hend.screen_eq⟩

/-- A character in the last cell scrolls the screen. -/
theorem terminal_refines_corner :
    let t : Terminal := ⟨⟨fun _ => blankCell, []⟩, 79, 24, fun _ => 0, []⟩
    ∃ hx hy, (terminalPutchar t 0x41).screen hx hy = typeChar (t.screen (by decide) (by decide)) 0x41 :=
  (terminal_refines ⟨⟨fun _ => blankCell, []⟩, 79, 24, fun _ => 0, []⟩ (by decide) (by decide) [.putchar 0x41]).2

end SpectreOS

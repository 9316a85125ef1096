/-
The text editor (nano.c): the grid of lines with its cursor, the save prompt and the keyboard
entry points. Of `redraw` only the scrolling is kept; what it draws is not modelled. Reading and
replacing the file on disk are done by the caller of these functions.
-/
import SpectreOS.Console.Keyboard
import SpectreOS.Fs.Layout
import SpectreOS.Lib.Text

namespace SpectreOS

open BlockIO

abbrev nanoMaxLines : Nat := 200
abbrev nanoMaxLineLen : Nat := 79
abbrev nanoFilenameLen : Nat := 48
abbrev nanoTextVisibleRows : Nat := 22

/-! ## The text -/

/-- The grid of lines, the cursor and the first line shown. -/
structure Grid where
  lines : Nat → Block (nanoMaxLineLen + 1)
  lineLength : Nat → Nat
  lineCount : Nat
  cursorLine : Nat
  cursorCol : Nat
  viewTop : Nat
  dirty : Bool

namespace Grid

variable (g : Grid)

def setLine (i : Nat) (line : Block (nanoMaxLineLen + 1)) (len : Nat) : Grid :=
  { g with lines := Function.update g.lines i line, lineLength := Function.update g.lineLength i len }

/-- `buffer_reset`. -/
def bufferReset : Grid where
  lines := fun i => if i < nanoMaxLines then (g.lines i).setByte 0 0 else g.lines i
  lineLength := fun i => if i < nanoMaxLines then 0 else g.lineLength i
  lineCount := 1
  cursorLine := 0
  cursorCol := 0
  viewTop := 0
  dirty := false

/-- The loop of `buffer_load` over the bytes of the file, with its variables `line` and `col`. -/
def loadBytes : List Byte → Nat → Nat → Grid → Nat × Nat × Grid
  | [], line, col, g => (line, col, g)
  | c :: raw, line, col, g =>
    if c = 10 then
      let g := g.setLine line ((g.lines line).setByte col 0) col
      if nanoMaxLines ≤ line + 1 then (line + 1, 0, g) else loadBytes raw (line + 1) 0 g
    else if col < nanoMaxLineLen then
      loadBytes raw line (col + 1) { g with lines := Function.update g.lines line ((g.lines line).setByte col c) }
    else loadBytes raw line col g

/-- `buffer_load`; `raw` is what was read of the file, nothing if it could not be read. -/
def bufferLoad (raw : List Byte) : Grid :=
  let g := g.bufferReset
  if raw = [] then g
  else
    let (line, col, g) := loadBytes raw 0 0 g
    let (line, g) := if 0 < col ∨ line = 0 then (line + 1, g.setLine line ((g.lines line).setByte col 0) col)
      else (line, g)
    { g with lineCount := if line = 0 then 1 else line, dirty := false }

/-- The loop of `buffer_save` from line `i` on: a line that does not fit ends it. -/
def saveLines : (fuel i written : Nat) → List Byte
  | 0, _, _ => []
  | fuel + 1, i, written =>
    if fsMaxFileSize < written + g.lineLength i + 1 then []
    else (List.range (g.lineLength i)).map ((g.lines i).slice 0) ++ 10 ::
      saveLines fuel (i + 1) (written + g.lineLength i + 1)

/-- The bytes `buffer_save` writes. -/
def bufferSave : List Byte := g.saveLines g.lineCount 0 0

/-- `ensure_cursor_visible`. -/
def ensureCursorVisible : Grid :=
  if g.cursorLine < g.viewTop then { g with viewTop := g.cursorLine }
  else if g.viewTop + nanoTextVisibleRows ≤ g.cursorLine then
    { g with viewTop := g.cursorLine - nanoTextVisibleRows + 1 }
  else g

/-! ## Editing -/

def insertCharacter (c : Byte) : Grid :=
  let len := g.lineLength g.cursorLine
  if nanoMaxLineLen ≤ len then g
  else
    let line := (g.lines g.cursorLine).patch (g.cursorCol + 1) (len - g.cursorCol)
      ((g.lines g.cursorLine).slice g.cursorCol)
    let line := (line.setByte g.cursorCol c).setByte (len + 1) 0
    { g.setLine g.cursorLine line (len + 1) with
      cursorCol := g.cursorCol + 1, dirty := true }.ensureCursorVisible

/-- The lines from `start` on move down by one place. -/
def shiftDown (start : Nat) : Grid :=
  { g with
    lines := fun i => if start < i ∧ i ≤ g.lineCount then
        (g.lines i).patch 0 (g.lineLength (i - 1) + 1) ((g.lines (i - 1)).slice 0)
      else g.lines i
    lineLength := fun i => if start < i ∧ i ≤ g.lineCount then g.lineLength (i - 1) else g.lineLength i }

/-- The lines after `start` move up by one place. -/
def shiftUp (start : Nat) : Grid :=
  { g with
    lines := fun i => if start ≤ i ∧ i < g.lineCount - 1 then
        (g.lines i).patch 0 (g.lineLength (i + 1) + 1) ((g.lines (i + 1)).slice 0)
      else g.lines i
    lineLength := fun i => if start ≤ i ∧ i < g.lineCount - 1 then g.lineLength (i + 1) else g.lineLength i
    lineCount := g.lineCount - 1 }

def splitLine : Grid :=
  if nanoMaxLines ≤ g.lineCount then g.ensureCursorVisible
  else
    let cl := g.cursorLine
    let tailLen := g.lineLength cl - g.cursorCol
    let tail := (g.lines cl).slice g.cursorCol
    let g := g.shiftDown (cl + 1)
    let next := ((g.lines (cl + 1)).patch 0 tailLen tail).setByte tailLen 0
    let g := g.setLine (cl + 1) next tailLen
    let g := g.setLine cl ((g.lines cl).setByte g.cursorCol 0) g.cursorCol
    { g with
      lineCount := g.lineCount + 1, cursorLine := cl + 1, cursorCol := 0, dirty := true }.ensureCursorVisible

/-- The byte at column `i` of the cursor's line is taken out. -/
def removeByte (i : Nat) : Grid :=
  let len := g.lineLength g.cursorLine
  let line := (g.lines g.cursorLine).patch i (len - 1 - i) ((g.lines g.cursorLine).slice (i + 1))
  { g.setLine g.cursorLine (line.setByte (len - 1) 0) (len - 1) with dirty := true }

/-- Line `i + 1` is appended to line `i` and the lines after it move up. -/
def joinLines (i : Nat) : Grid :=
  let len := g.lineLength i
  let nextLen := g.lineLength (i + 1)
  let line := ((g.lines i).patch len nextLen ((g.lines (i + 1)).slice 0)).setByte (len + nextLen) 0
  { (g.setLine i line (len + nextLen)).shiftUp (i + 1) with dirty := true }

def backspace : Grid :=
  if 0 < g.cursorCol then
    { g.removeByte (g.cursorCol - 1) with cursorCol := g.cursorCol - 1 }.ensureCursorVisible
  else if g.cursorLine = 0 then g
  else
    let prevLen := g.lineLength (g.cursorLine - 1)
    if nanoMaxLineLen < prevLen + g.lineLength g.cursorLine then g
    else
      { g.joinLines (g.cursorLine - 1) with
        cursorLine := g.cursorLine - 1, cursorCol := prevLen }.ensureCursorVisible

def delete : Grid :=
  let len := g.lineLength g.cursorLine
  if g.cursorCol < len then (g.removeByte g.cursorCol).ensureCursorVisible
  else if g.lineCount ≤ g.cursorLine + 1 then g
  else if nanoMaxLineLen < len + g.lineLength (g.cursorLine + 1) then g
  else (g.joinLines g.cursorLine).ensureCursorVisible

def left : Grid :=
  (if 0 < g.cursorCol then { g with cursorCol := g.cursorCol - 1 }
    else if 0 < g.cursorLine then
      { g with cursorLine := g.cursorLine - 1, cursorCol := g.lineLength (g.cursorLine - 1) }
    else g).ensureCursorVisible

def right : Grid :=
  (if g.cursorCol < g.lineLength g.cursorLine then { g with cursorCol := g.cursorCol + 1 }
    else if g.cursorLine + 1 < g.lineCount then { g with cursorLine := g.cursorLine + 1, cursorCol := 0 }
    else g).ensureCursorVisible

/-- The cursor on another line, no further right than its end. -/
def toLine (i : Nat) : Grid :=
  { g with cursorLine := i, cursorCol := min g.cursorCol (g.lineLength i) }.ensureCursorVisible

def up : Grid := if g.cursorLine = 0 then g else g.toLine (g.cursorLine - 1)

def down : Grid := if g.lineCount ≤ g.cursorLine + 1 then g else g.toLine (g.cursorLine + 1)

def home : Grid := { g with cursorCol := 0 }.ensureCursorVisible

def toEnd : Grid := { g with cursorCol := g.lineLength g.cursorLine }.ensureCursorVisible

end Grid

/-! ## The editor -/

/-- The static variables of nano.c. -/
structure Nano where
  grid : Grid
  currentFilename : Block nanoFilenameLen
  active : Bool
  promptActive : Bool
  promptBuffer : Block nanoFilenameLen
  promptLength : Nat
  promptCursor : Nat

/-- The static variables before the first `nano_open`. -/
def blankNano : Nano where
  grid := ⟨fun _ _ => 0, fun _ => 0, 0, 0, 0, 0, false⟩
  currentFilename := fun _ => 0
  active := false
  promptActive := false
  promptBuffer := fun _ => 0
  promptLength := 0
  promptCursor := 0

namespace Nano

variable (n : Nano)

/-- `nano_open` up to `buffer_load`: the name under which the file is then read. -/
def openName (filename : List Byte) : Nano :=
  { n with currentFilename := n.currentFilename.store (filename.take (nanoFilenameLen - 1)) }

/-- `nano_open` from `buffer_load` on; `raw` is what was read of the file. -/
def nanoOpen (raw : List Byte) : Nano :=
  { n with
    grid := (n.grid.bufferLoad raw).ensureCursorVisible
    promptActive := false
    promptLength := 0
    promptCursor := 0
    promptBuffer := fun _ => 0
    active := true }

/-- An edit of the text, which the open save prompt blocks. -/
def edit (f : Grid → Grid) : Nano :=
  if n.active = false ∨ n.promptActive = true then n else { n with grid := f n.grid }

def nanoKeyboardCharacter (c : Byte) : Nano :=
  n.edit fun g => if c.toInt < 32 ∧ c ≠ 9 then g else g.insertCharacter c

def nanoKeyboardDelete : Nano := n.edit Grid.delete

def nanoKeyboardUp : Nano := n.edit Grid.up

def nanoKeyboardDown : Nano := n.edit Grid.down

/-- A key that moves in the save prompt while it is open and in the text otherwise. -/
def promptOr (prompt : Nano → Nano) (f : Grid → Grid) : Nano :=
  if n.active = false then n
  else if n.promptActive then prompt n
  else { n with grid := f n.grid }

def promptBackspace : Nano :=
  if 0 < n.promptCursor then
    { n with
      promptBuffer := (n.promptBuffer.patch (n.promptCursor - 1) (n.promptLength - n.promptCursor)
        (n.promptBuffer.slice n.promptCursor)).setByte (n.promptLength - 1) 0
      promptLength := n.promptLength - 1
      promptCursor := n.promptCursor - 1
      grid := n.grid.ensureCursorVisible }
  else n

def nanoKeyboardBackspace : Nano := n.promptOr promptBackspace Grid.backspace

/-- The cursor of the save prompt at `i`. -/
def promptTo (i : Nat) : Nano := { n with promptCursor := i, grid := n.grid.ensureCursorVisible }

def nanoKeyboardLeft : Nano :=
  n.promptOr (fun n => if 0 < n.promptCursor then n.promptTo (n.promptCursor - 1) else n) Grid.left

def nanoKeyboardRight : Nano :=
  n.promptOr (fun n => if n.promptCursor < n.promptLength then n.promptTo (n.promptCursor + 1) else n) Grid.right

def nanoKeyboardHome : Nano := n.promptOr (fun n => n.promptTo 0) Grid.home

def nanoKeyboardEnd : Nano := n.promptOr (fun n => n.promptTo n.promptLength) Grid.toEnd

/-- Enter in the save prompt, up to `buffer_save`. -/
def promptEnter : Nano :=
  let buffer := n.promptBuffer.setByte n.promptLength 0
  { n with
    promptBuffer := buffer
    currentFilename := if 0 < n.promptLength then n.currentFilename.store (buffer.text.take (nanoFilenameLen - 1))
      else n.currentFilename
    promptActive := false }

/-- Enter in the save prompt, after `buffer_save` has answered. -/
def promptSaved (ok : Bool) : Nano :=
  { n with grid := { n.grid with dirty := n.grid.dirty && !ok }.ensureCursorVisible }

def nanoKeyboardCtrl (letter : Byte) : Nano :=
  if n.active = false then n
  else if letter = 0x6f then
    { (if n.promptActive then n
        else
          let buffer := n.promptBuffer.store (n.currentFilename.text.take (nanoFilenameLen - 1))
          { n with
            promptActive := true, promptBuffer := buffer
            promptLength := buffer.text.length, promptCursor := buffer.text.length }) with
      grid := n.grid.ensureCursorVisible }
  else if letter = 0x78 then
    if n.promptActive then { n with promptActive := false, grid := n.grid.ensureCursorVisible }
    else { n with active := false }
  else n

end Nano

end SpectreOS

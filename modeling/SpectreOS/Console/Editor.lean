/-
The text editor (nano.c) against a reference editor on a list of lines: the grid of fixed-width
rows, with its lengths and its cursor, is the reference editor's text after every sequence of
keys, and the cursor's line is always among those shown.
-/
import SpectreOS.Console.Handler
import SpectreOS.Lib.LineEditor

namespace SpectreOS

open BlockIO LineEditor

/-! ## Rows of bytes -/

section Rows

variable {n : Nat} (b : Block n) {c : Byte} {len col i : Nat}

theorem slice_from (off k : Nat) : b.slice off k = b.slice 0 (off + k) := by
  unfold Block.slice
  simp only [Nat.zero_add]

/-- A row in which the bytes from `col` on made room for one more. -/
theorem row_shift (hcol : col ≤ len) (hlen : len < n) :
    firsts (((b.patch (col + 1) (len - col) (b.slice col)).setByte col c).slice 0) (len + 1) =
      (firsts (b.slice 0) len).insertIdx col c := by
  have hat : ((b.patch (col + 1) (len - col) (b.slice col)).setByte col c).slice 0 col = c := by
    rw [Block.slice_setByte _ _ _ (by omega), if_pos rfl]
  rw [firsts_insert (f := b.slice 0) hcol, hat]
  · intro k hk
    rw [Block.slice_setByte _ _ _ (by omega), if_neg (by omega), Block.slice_patch_outside _ _ (by omega)]
  · intro k hlt hle
    rw [Block.slice_setByte _ _ _ (by omega), if_neg (by omega),
      Block.slice_patch_inside _ _ (by omega) (by omega) (by omega), slice_from,
      show col + (0 + k - (col + 1)) = k - 1 by omega]

/-- A terminator after the row. -/
theorem row_terminate (hlen : len < n) : firsts ((b.setByte len 0).slice 0) len = firsts (b.slice 0) len := by
  apply firsts_congr
  intro k hk
  rw [Block.slice_setByte _ _ _ (by omega), if_neg (by omega)]

/-- The row of `nano_keyboard_character`. -/
theorem row_insert (hcol : col ≤ len) (hlen : len + 1 < n) :
    firsts ((((b.patch (col + 1) (len - col) (b.slice col)).setByte col c).setByte (len + 1) 0).slice 0) (len + 1) =
      (firsts (b.slice 0) len).insertIdx col c := by
  rw [row_terminate _ hlen, row_shift b hcol (by omega)]

/-- The row that is left when a byte is taken out. -/
theorem row_erase (hi : i < len) (hlen : len < n) :
    firsts (((b.patch i (len - 1 - i) (b.slice (i + 1))).setByte (len - 1) 0).slice 0) (len - 1) =
      (firsts (b.slice 0) len).eraseIdx i := by
  apply firsts_erase hi
  · intro k hk
    rw [Block.slice_setByte _ _ _ (by omega), if_neg (by omega), Block.slice_patch_outside _ _ (by omega)]
  · intro k hik hk
    rw [Block.slice_setByte _ _ _ (by omega), if_neg (by omega),
      Block.slice_patch_inside _ _ (by omega) (by omega) (by omega), slice_from,
      show i + 1 + (0 + k - i) = k + 1 by omega]

/-- The row that a split leaves. -/
theorem row_take (hcol : col ≤ len) (hlen : len < n) :
    firsts ((b.setByte col 0).slice 0) col = (firsts (b.slice 0) len).take col := by
  rw [← firsts_take hcol]
  apply firsts_congr
  intro k hk
  rw [Block.slice_setByte _ _ _ (by omega), if_neg (by omega)]

/-- The row that a split makes. -/
theorem row_drop (old : Block n) (hcol : col ≤ len) (hlen : len < n) :
    firsts (((old.patch 0 (len - col) (b.slice col)).setByte (len - col) 0).slice 0) (len - col) =
      (firsts (b.slice 0) len).drop col := by
  apply firsts_drop
  intro k hk
  rw [Block.slice_setByte _ _ _ (by omega), if_neg (by omega),
    Block.slice_patch_inside _ _ (by omega) (by omega) (by omega), slice_from,
    show col + (0 + k - 0) = col + k by omega]

/-- The row that a join makes. -/
theorem row_append (next : Block n) {nextLen : Nat} (hlen : len + nextLen < n) :
    firsts (((b.patch len nextLen (next.slice 0)).setByte (len + nextLen) 0).slice 0) (len + nextLen) =
      firsts (b.slice 0) len ++ firsts (next.slice 0) nextLen := by
  apply firsts_append
  · intro k hk
    rw [Block.slice_setByte _ _ _ (by omega), if_neg (by omega), Block.slice_patch_outside _ _ (by omega)]
  · intro k hk
    rw [Block.slice_setByte _ _ _ (by omega), if_neg (by omega),
      Block.slice_patch_inside _ _ (by omega) (by omega) (by omega), show 0 + (len + k) - len = k by omega]

/-- The row that is copied from another, with its terminator. -/
theorem row_copy (old : Block n) (hlen : len < n) :
    firsts ((old.patch 0 (len + 1) (b.slice 0)).slice 0) len = firsts (b.slice 0) len := by
  apply firsts_congr
  intro k hk
  rw [Block.slice_patch_inside _ _ (by omega) (by omega) (by omega), show 0 + k - 0 = k by omega]

/-- The row of a stored text. -/
theorem row_store {t : List Byte} (hlen : t.length ≤ n) : firsts ((b.store t).slice 0) t.length = t := by
  apply firsts_eq rfl
  intro k hk
  rw [Block.store, Block.slice_patch_inside _ _ (by omega) (by omega) (by omega), Nat.zero_add, Nat.sub_zero,
    List.getD_eq_getElem?_getD, List.getElem?_eq_getElem hk, Option.getD_some]

/-- The text of a row without NULs, once a terminator follows it. -/
theorem text_row (hlen : len < n) (h0 : (0 : Byte) ∉ firsts (b.slice 0) len) :
    (b.setByte len 0).text = firsts (b.slice 0) len := by
  apply Block.text_eq h0 (by rwa [length_firsts])
  · intro k hk
    rw [length_firsts] at hk
    rw [Block.slice_setByte _ _ _ (by omega), if_neg (by omega), getD_firsts 0 hk]
  · rw [length_firsts, Block.slice_setByte _ _ _ hlen, if_pos rfl]

end Rows

/-! ## The text of a grid -/

namespace Grid

variable (g : Grid)

/-- The bytes of a row. -/
def line (i : Nat) : List Byte := firsts ((g.lines i).slice 0) (g.lineLength i)

/-- What the grid and the cursor stand for. -/
def buffer : Buffer Byte := ⟨firsts g.line g.lineCount, g.cursorLine, g.cursorCol⟩

@[simp] theorem length_line (i : Nat) : (g.line i).length = g.lineLength i := length_firsts

@[simp] theorem buffer_length : g.buffer.lines.length = g.lineCount := length_firsts

@[simp] theorem buffer_row : g.buffer.row = g.cursorLine := rfl

@[simp] theorem buffer_col : g.buffer.col = g.cursorCol := rfl

variable {g}

theorem buffer_line {i : Nat} (h : i < g.lineCount) : g.buffer.line i = g.line i := getD_firsts [] h

/-- The cursor and the text are within the limits of the grid. -/
abbrev Valid (g : Grid) : Prop := g.buffer.Valid nanoMaxLines nanoMaxLineLen

theorem Valid.current (h : g.Valid) : g.buffer.current = g.line g.cursorLine := buffer_line (by simpa using h.row)

theorem Valid.lineLength_le (h : g.Valid) {i : Nat} (hi : i < g.lineCount) : g.lineLength i ≤ nanoMaxLineLen := by
  have := h.line_le i
  rwa [buffer_line hi, length_line] at this

/-- The cursor's line is among those shown. -/
def Visible (g : Grid) : Prop := g.viewTop ≤ g.cursorLine ∧ g.cursorLine < g.viewTop + nanoTextVisibleRows

theorem ensureCursorVisible_buffer (g : Grid) : g.ensureCursorVisible.buffer = g.buffer := by
  unfold ensureCursorVisible
  split_ifs <;> rfl

theorem ensureCursorVisible_visible (g : Grid) : g.ensureCursorVisible.Visible := by
  unfold ensureCursorVisible Visible
  split_ifs <;> simp only [nanoTextVisibleRows] at * <;> omega

theorem line_setLine (g : Grid) (i : Nat) (row : Block (nanoMaxLineLen + 1)) (len j : Nat) :
    (g.setLine i row len).line j = if j = i then firsts (row.slice 0) len else g.line j := by
  simp only [line, setLine]
  by_cases h : j = i
  · subst h
    rw [if_pos rfl, Function.update_self, Function.update_self]
  · rw [if_neg h, Function.update_of_ne h, Function.update_of_ne h]

theorem lines_setLine (g : Grid) (i : Nat) (row : Block (nanoMaxLineLen + 1)) (len n : Nat) :
    firsts (g.setLine i row len).line n = (firsts g.line n).set i (firsts (row.slice 0) len) := by
  rw [← firsts_update]
  apply firsts_congr
  intro k hk
  rw [line_setLine, Function.update_apply]

theorem line_shiftDown (h : g.Valid) (start : Nat) {i : Nat} (hi : i ≤ g.lineCount) :
    (g.shiftDown start).line i = if start < i then g.line (i - 1) else g.line i := by
  simp only [line, shiftDown]
  by_cases hs : start < i
  · have := h.lineLength_le (show i - 1 < g.lineCount by omega)
    rw [if_pos hs, if_pos ⟨hs, hi⟩, if_pos ⟨hs, hi⟩, row_copy _ _ (by omega)]
  · rw [if_neg hs, if_neg fun h => hs h.1, if_neg fun h => hs h.1]

theorem line_shiftUp {start i : Nat} (hlen : ∀ i < g.lineCount, g.lineLength i ≤ nanoMaxLineLen)
    (hi : i < g.lineCount - 1) :
    (g.shiftUp start).line i = if start ≤ i then g.line (i + 1) else g.line i := by
  simp only [line, shiftUp]
  by_cases hs : start ≤ i
  · have := hlen (i + 1) (by omega)
    rw [if_pos hs, if_pos ⟨hs, hi⟩, if_pos ⟨hs, hi⟩, row_copy _ _ (by omega)]
  · rw [if_neg hs, if_neg fun h => hs h.1, if_neg fun h => hs h.1]

/-- Moving the lines up closes the gap of one line. -/
theorem lines_shiftUp {start : Nat} (hlen : ∀ i < g.lineCount, g.lineLength i ≤ nanoMaxLineLen)
    (hs : start < g.lineCount) :
    firsts (g.shiftUp start).line (g.lineCount - 1) = (firsts g.line g.lineCount).eraseIdx start := by
  apply firsts_erase hs
  · intro k hk
    rw [line_shiftUp hlen (by omega), if_neg (by omega)]
  · intro k hsk hk
    rw [line_shiftUp hlen hk, if_pos hsk]

/-! ## Operations -/

theorem insertCharacter_buffer (h : g.Valid) (c : Byte) :
    (g.insertCharacter c).buffer = g.buffer.insert nanoMaxLineLen c := by
  have hcol := h.col
  rw [h.current, length_line, buffer_col] at hcol
  rw [insertCharacter, Buffer.insert, h.current, length_line]
  by_cases hfull : nanoMaxLineLen ≤ g.lineLength g.cursorLine
  · rw [if_pos hfull, if_pos hfull]
  · simp only [if_neg hfull]
    rw [ensureCursorVisible_buffer]
    apply Buffer.ext
    · refine (lines_setLine ..).trans ?_
      rw [row_insert _ hcol (by omega)]
      rfl
    · rfl
    · rfl

theorem removeByte_buffer (h : g.Valid) {i : Nat} (hi : i < g.lineLength g.cursorLine) :
    (g.removeByte i).buffer = g.buffer.erase i := by
  have hle := h.lineLength_le (by simpa using h.row)
  apply Buffer.ext
  · refine (lines_setLine ..).trans ?_
    rw [row_erase _ hi (by omega), Buffer.erase, h.current]
    rfl
  · rfl
  · rfl

theorem joinLines_buffer (h : g.Valid) {i : Nat} (hi : i + 1 < g.lineCount)
    (hlen : g.lineLength i + g.lineLength (i + 1) ≤ nanoMaxLineLen) : (g.joinLines i).buffer = g.buffer.join i := by
  have hroom : g.lineLength i + g.lineLength (i + 1) < nanoMaxLineLen + 1 := by omega
  have hrow := row_append (g.lines i) (g.lines (i + 1)) hroom
  apply Buffer.ext
  · simp only [Buffer.join, buffer_line (show i < g.lineCount by omega), buffer_line hi]
    -- the joined line is put in place, then the lines after it move up
    have hset : g.buffer.lines.set i (g.line i ++ g.line (i + 1)) = firsts (g.setLine i
        (((g.lines i).patch (g.lineLength i) (g.lineLength (i + 1)) ((g.lines (i + 1)).slice 0)).setByte
          (g.lineLength i + g.lineLength (i + 1)) 0) (g.lineLength i + g.lineLength (i + 1))).line g.lineCount := by
      rw [lines_setLine, hrow]
      rfl
    rw [hset]
    refine Eq.trans rfl (lines_shiftUp ?_ hi)
    intro k hk
    rw [← length_line, line_setLine]
    split
    · rwa [length_firsts]
    · rw [length_line]
      exact h.lineLength_le hk
  · rfl
  · rfl

/-- The lines of a split, up to the one that is added. -/
theorem lines_split (h : g.Valid) {next : Block (nanoMaxLineLen + 1)} (hcount : g.cursorLine < g.lineCount)
    {row : Block (nanoMaxLineLen + 1)} {len col : Nat} :
    firsts (((g.shiftDown (g.cursorLine + 1)).setLine (g.cursorLine + 1) next len).setLine g.cursorLine row col).line
        (g.lineCount + 1) =
      ((firsts g.line g.lineCount).set g.cursorLine (firsts (row.slice 0) col)).insertIdx (g.cursorLine + 1)
        (firsts (next.slice 0) len) := by
  rw [← firsts_update, firsts_insert (i := g.cursorLine + 1) (by omega), line_setLine, if_neg (by omega),
    line_setLine, if_pos rfl]
  · intro k hk
    rw [line_setLine, Function.update_apply]
    by_cases hkc : k = g.cursorLine
    · rw [if_pos hkc, if_pos hkc]
    · rw [if_neg hkc, if_neg hkc, line_setLine, if_neg (by omega), line_shiftDown h _ (by omega), if_neg (by omega)]
  · intro k hlt hle
    rw [line_setLine, if_neg (by omega), line_setLine, if_neg (by omega), line_shiftDown h _ hle, if_pos hlt,
      Function.update_of_ne (by omega)]

theorem splitLine_buffer (h : g.Valid) : g.splitLine.buffer = g.buffer.split nanoMaxLines := by
  have hcol := h.col
  have hrow := h.row
  have hle := h.lineLength_le (by simpa using hrow)
  rw [h.current, length_line, buffer_col] at hcol
  rw [buffer_length, buffer_row] at hrow
  rw [splitLine, Buffer.split, h.current, buffer_length]
  by_cases hfull : nanoMaxLines ≤ g.lineCount
  · rw [if_pos hfull, if_pos hfull, ensureCursorVisible_buffer]
  · simp only [if_neg hfull]
    rw [ensureCursorVisible_buffer]
    apply Buffer.ext
    · refine (lines_split h hrow).trans ?_
      have hlines : ∀ next len,
          ((g.shiftDown (g.cursorLine + 1)).setLine (g.cursorLine + 1) next len).lines g.cursorLine =
          g.lines g.cursorLine := by
        intro next len
        simp only [setLine, shiftDown, Function.update_of_ne (show g.cursorLine ≠ g.cursorLine + 1 by omega)]
        rw [if_neg (by omega)]
      rw [hlines, row_drop _ _ hcol (by omega)]
      refine congrArg (List.insertIdx · _ _) ?_
      exact congrArg (List.set _ _) (row_take _ hcol (by omega))
    · rfl
    · rfl

theorem backspace_buffer (h : g.Valid) : g.backspace.buffer = g.buffer.backspace nanoMaxLineLen := by
  have hcol := h.col
  have hrow := h.row
  rw [h.current, length_line, buffer_col] at hcol
  rw [buffer_length, buffer_row] at hrow
  simp only [backspace, Buffer.backspace]
  rw [h.current, length_line, buffer_col, buffer_row, buffer_line (show g.cursorLine - 1 < _ by omega), length_line]
  split_ifs with h1 h2 h3
  · rw [ensureCursorVisible_buffer]
    exact congrArg (fun b : Buffer Byte => { b with col := g.cursorCol - 1 })
      (removeByte_buffer h (show g.cursorCol - 1 < g.lineLength g.cursorLine by omega))
  · rfl
  · rfl
  · have hprev : g.cursorLine - 1 + 1 = g.cursorLine := by omega
    rw [ensureCursorVisible_buffer]
    exact congrArg (fun b : Buffer Byte => { b with row := g.cursorLine - 1, col := g.lineLength (g.cursorLine - 1) })
      (joinLines_buffer h (i := g.cursorLine - 1) (by omega) (by rw [hprev]; omega))

theorem delete_buffer (h : g.Valid) : g.delete.buffer = g.buffer.delete nanoMaxLineLen := by
  have hcol := h.col
  have hrow := h.row
  rw [h.current, length_line, buffer_col] at hcol
  rw [buffer_length, buffer_row] at hrow
  rw [delete, Buffer.delete, h.current, length_line, buffer_col, buffer_row, buffer_length]
  by_cases hlt : g.cursorCol < g.lineLength g.cursorLine
  · rw [if_pos hlt, if_pos hlt, ensureCursorVisible_buffer]
    exact removeByte_buffer h hlt
  · rw [if_neg hlt, if_neg hlt]
    by_cases hlast : g.lineCount ≤ g.cursorLine + 1
    · rw [if_pos hlast, if_pos hlast]
    · rw [if_neg hlast, if_neg hlast, buffer_line (by omega), length_line]
      split_ifs with hfull
      · rfl
      · rw [ensureCursorVisible_buffer]
        exact joinLines_buffer h (by omega) (by omega)

theorem left_buffer (h : g.Valid) : g.left.buffer = g.buffer.left := by
  have hrow := h.row
  rw [buffer_length, buffer_row] at hrow
  rw [left, ensureCursorVisible_buffer, Buffer.left, buffer_line (show g.buffer.row - 1 < _ by rw [buffer_row]; omega),
    length_line, buffer_col, buffer_row]
  split_ifs <;> rfl

theorem right_buffer (h : g.Valid) : g.right.buffer = g.buffer.right := by
  rw [right, ensureCursorVisible_buffer, Buffer.right, h.current, length_line, buffer_col, buffer_row, buffer_length]
  split_ifs <;> rfl

theorem toLine_buffer {i : Nat} (hi : i < g.lineCount) : (g.toLine i).buffer = g.buffer.toLine i := by
  rw [toLine, ensureCursorVisible_buffer, Buffer.toLine, buffer_line hi, length_line]
  rfl

theorem up_buffer (h : g.Valid) : g.up.buffer = g.buffer.up := by
  have hrow := h.row
  rw [buffer_length, buffer_row] at hrow
  rw [up, Buffer.up, buffer_row]
  split_ifs
  · rfl
  · exact toLine_buffer (by omega)

theorem down_buffer : g.down.buffer = g.buffer.down := by
  rw [down, Buffer.down, buffer_row, buffer_length]
  split_ifs
  · rfl
  · exact toLine_buffer (by omega)

theorem home_buffer : g.home.buffer = g.buffer.home := ensureCursorVisible_buffer _

theorem toEnd_buffer (h : g.Valid) : g.toEnd.buffer = g.buffer.toEnd := by
  rw [toEnd, ensureCursorVisible_buffer, Buffer.toEnd, h.current, length_line]
  rfl

/-! ## Loading -/

/-- The lines that the loop of `buffer_load` makes of the rest of a file, with the bytes `part` of line
`i` taken already; the last one is closed after the loop. -/
def loadedFrom : List Byte → Nat → List Byte → List (List Byte)
  | [], i, part => if part = [] ∧ 0 < i then [] else [part]
  | c :: raw, i, part =>
    if c = 10 then part :: loadedFrom raw (i + 1) []
    else loadedFrom raw i (if part.length < nanoMaxLineLen then part ++ [c] else part)

/-- What `buffer_load` does after the loop: the number of lines, and the grid. -/
def closeLast : Nat × Nat × Grid → Nat × Grid
  | (i, col, g) => if 0 < col ∨ i = 0 then (i + 1, g.setLine i ((g.lines i).setByte col 0) col) else (i, g)

theorem firsts_setLine_next (g : Grid) (i : Nat) (row : Block (nanoMaxLineLen + 1)) (len : Nat) :
    firsts (g.setLine i row len).line (i + 1) = firsts g.line i ++ [firsts (row.slice 0) len] := by
  refine @firsts_append _ _ _ i 1 ?_ (fun _ => firsts (row.slice 0) len) ?_
  · intro k hk
    rw [line_setLine, if_neg (by omega)]
  · intro k hk
    rw [line_setLine, if_pos (by omega)]

theorem loadBytes_lines {raw : List Byte} {i col : Nat} {g : Grid} (hi : i < nanoMaxLines)
    (hcol : col ≤ nanoMaxLineLen) :
    firsts (closeLast (loadBytes raw i col g)).2.line (closeLast (loadBytes raw i col g)).1 =
      firsts g.line i ++ (loadedFrom raw i (firsts ((g.lines i).slice 0) col)).take (nanoMaxLines - i) := by
  induction raw generalizing i col g with
  | nil =>
    have hempty : firsts ((g.lines i).slice 0) col = [] ↔ col = 0 := by
      rw [← List.length_eq_zero_iff, length_firsts]
    rw [loadBytes, loadedFrom, closeLast]
    by_cases hclose : 0 < col ∨ i = 0
    · rw [if_pos hclose, if_neg (by rw [hempty]; omega), firsts_setLine_next, row_take _ (le_refl col) (by omega),
        List.take_of_length_le (by simp), List.take_of_length_le (by simp; omega)]
    · rw [if_neg hclose, if_pos (by rw [hempty]; omega), List.take_nil, List.append_nil]
  | cons c raw ih =>
    rw [loadBytes, loadedFrom]
    by_cases hnl : c = 10
    · rw [if_pos hnl, if_pos hnl]
      have hline := firsts_setLine_next g i ((g.lines i).setByte col 0) col
      rw [row_take _ (le_refl col) (by omega), List.take_of_length_le (by simp)] at hline
      rw [show nanoMaxLines - i = nanoMaxLines - (i + 1) + 1 by omega, List.take_succ_cons]
      by_cases hlast : nanoMaxLines ≤ i + 1
      · simp only [if_pos hlast]
        rw [closeLast, if_neg (by omega), show nanoMaxLines - (i + 1) = 0 by omega, List.take_zero]
        exact hline
      · simp only [if_neg hlast]
        rw [ih (by omega) (Nat.zero_le _), hline, List.append_assoc]
        rfl
    · rw [if_neg hnl, if_neg hnl, length_firsts]
      by_cases hfit : col < nanoMaxLineLen
      · obtain ⟨g', hg'⟩ : ∃ g', g' = { g with lines := Function.update g.lines i ((g.lines i).setByte col c) } :=
          ⟨_, rfl⟩
        have hrows : firsts g'.line i = firsts g.line i := by
          apply firsts_congr
          intro k hk
          simp only [hg', line, Function.update_of_ne (show k ≠ i by omega)]
        have hpart : firsts ((g'.lines i).slice 0) (col + 1) = firsts ((g.lines i).slice 0) col ++ [c] := by
          have hrow : g'.lines i = (g.lines i).setByte col c := by simp only [hg', Function.update_self]
          rw [hrow]
          refine @firsts_append _ _ _ col 1 ?_ (fun _ => c) ?_
          · intro k hk
            rw [Block.slice_setByte _ _ _ (by omega), if_neg (by omega)]
          · intro k hk
            rw [Block.slice_setByte _ _ _ (by omega), if_pos (by omega)]
        rw [if_pos hfit, if_pos hfit, ← hg', ih hi hfit, hrows, hpart]
      · rw [if_neg hfit, if_neg hfit, ih hi hcol]

theorem take_append_one (q : List Byte) (c : Byte) (n : Nat) :
    (q ++ [c]).take n = if (q.take n).length < n then q.take n ++ [c] else q.take n := by
  rw [List.length_take]
  split
  · rw [List.take_of_length_le (by rw [List.length_append, List.length_singleton]; omega),
      List.take_of_length_le (by omega)]
  · rw [List.take_append_of_le_length (by omega)]

/-- Line by line, a file is loaded up to the width of the grid. -/
theorem loadedFrom_lines (raw : List Byte) (i : Nat) (q : List Byte) :
    loadedFrom raw i (q.take nanoMaxLineLen) =
      (match linesOf 10 raw with
        | [] => if q = [] ∧ 0 < i then [] else [q]
        | l :: ls => (q ++ l) :: ls).map (List.take nanoMaxLineLen) := by
  induction raw generalizing i q with
  | nil =>
    rw [loadedFrom, linesOf]
    have hempty : q.take nanoMaxLineLen = [] ↔ q = [] := by simp
    by_cases h : q = [] ∧ 0 < i
    · rw [if_pos (by rwa [hempty]), if_pos h, List.map_nil]
    · rw [if_neg (by rwa [hempty]), if_neg h, List.map_singleton]
  | cons c raw ih =>
    rw [loadedFrom, linesOf]
    by_cases hnl : c = 10
    · have hrest := ih (i + 1) []
      rw [List.take_nil] at hrest
      rw [if_pos hnl, if_pos hnl, hrest, List.map_cons, List.append_nil]
      cases linesOf 10 raw with
      | nil => rw [if_pos ⟨rfl, Nat.succ_pos i⟩]
      | cons l ls => simp only [List.nil_append]
    · rw [if_neg hnl, if_neg hnl, ← take_append_one, ih]
      cases linesOf 10 raw with
      | nil => rw [if_neg (by simp)]
      | cons l ls => simp only [List.append_assoc, List.singleton_append]

end Grid

/-! ## The reference editor -/

/-- The lines of a file; an empty file has one line too. -/
def textLines (raw : List Byte) : List (List Byte) := if linesOf 10 raw = [] then [[]] else linesOf 10 raw

/-- A text with a cursor, and whether the save prompt is open and the editor closed. -/
structure Editor where
  buffer : Buffer Byte
  prompting : Bool
  closed : Bool

namespace Editor

variable (e : Editor)

/-- A file is opened: the lines are cut to the width of the screen, and the first ones are kept. -/
def load (raw : List Byte) : Editor :=
  ⟨⟨((textLines raw).map (List.take nanoMaxLineLen)).take nanoMaxLines, 0, 0⟩, false, false⟩

/-- An operation on the text, which an open save prompt keeps from it. -/
def edit (f : Buffer Byte → Buffer Byte) : Editor :=
  if e.closed ∨ e.prompting then e else { e with buffer := f e.buffer }

/-- The characters that are inserted: tabs, and the printable ones. -/
def typed (c : Byte) : Bool := 32 ≤ c.toInt || c == 9

/-- What a key does. -/
def press : Key → Editor
  | .character c => e.edit fun b => if typed c then b.insert nanoMaxLineLen c else b
  | .enter => if !e.closed && e.prompting then { e with prompting := false } else e.edit (Buffer.split nanoMaxLines)
  | .backspace => e.edit (Buffer.backspace nanoMaxLineLen)
  | .delete => e.edit (Buffer.delete nanoMaxLineLen)
  | .left => e.edit Buffer.left
  | .right => e.edit Buffer.right
  | .up => e.edit Buffer.up
  | .down => e.edit Buffer.down
  | .home => e.edit Buffer.home
  | .end => e.edit Buffer.toEnd
  | .ctrl letter =>
    if e.closed then e
    else if letter = 0x6f then { e with prompting := true }
    else if letter = 0x78 then if e.prompting then { e with prompting := false } else { e with closed := true }
    else e

end Editor

namespace Grid

variable {g : Grid}

theorem loadBytes_cursor {raw : List Byte} {i col : Nat} {g : Grid} :
    (loadBytes raw i col g).2.2.cursorLine = g.cursorLine ∧ (loadBytes raw i col g).2.2.cursorCol = g.cursorCol := by
  induction raw generalizing i col g with
  | nil => exact ⟨rfl, rfl⟩
  | cons c raw ih =>
    rw [loadBytes]
    dsimp only
    split_ifs
    · exact ⟨rfl, rfl⟩
    · exact ih
    · exact ih
    · exact ih

theorem closeLast_cursor (p : Nat × Nat × Grid) :
    (closeLast p).2.cursorLine = p.2.2.cursorLine ∧ (closeLast p).2.cursorCol = p.2.2.cursorCol := by
  rw [closeLast]
  split_ifs <;> exact ⟨rfl, rfl⟩

theorem bufferLoad_eq (g : Grid) {raw : List Byte} (h : raw ≠ []) :
    g.bufferLoad raw =
      { (closeLast (loadBytes raw 0 0 g.bufferReset)).2 with
        lineCount := if (closeLast (loadBytes raw 0 0 g.bufferReset)).1 = 0 then 1
          else (closeLast (loadBytes raw 0 0 g.bufferReset)).1
        dirty := false } := by
  rw [bufferLoad, if_neg h]
  rfl

/-- A loaded file is the reference editor's. -/
theorem bufferLoad_buffer (g : Grid) (raw : List Byte) : (g.bufferLoad raw).buffer = (Editor.load raw).buffer := by
  by_cases hraw : raw = []
  · subst hraw
    rfl
  · obtain ⟨p, hp⟩ : ∃ p, p = closeLast (loadBytes raw 0 0 g.bufferReset) := ⟨_, rfl⟩
    have hlines := @loadBytes_lines raw 0 0 g.bufferReset (by decide) (Nat.zero_le _)
    have hloaded : loadedFrom raw 0 [] = (textLines raw).map (List.take nanoMaxLineLen) := by
      have h := loadedFrom_lines raw 0 []
      rw [List.take_nil] at h
      rw [h, textLines]
      cases linesOf 10 raw with
      | nil => rfl
      | cons l ls => rfl
    have hline0 : firsts g.bufferReset.line 0 = [] := rfl
    have hpart0 : firsts ((g.bufferReset.lines 0).slice 0) 0 = [] := rfl
    rw [← hp, hline0, hpart0, hloaded, List.nil_append] at hlines
    have hpos : p.1 ≠ 0 := by
      have hlen := congrArg List.length hlines
      rw [length_firsts, List.length_take, List.length_map, textLines] at hlen
      have : 0 < (if linesOf 10 raw = [] then [[]] else linesOf 10 raw).length := by
        split
        · exact Nat.one_pos
        · exact List.length_pos_iff.2 ‹_›
      simp only [nanoMaxLines] at hlen
      omega
    have hcursor := closeLast_cursor (loadBytes raw 0 0 g.bufferReset)
    have hcursor' := @loadBytes_cursor raw 0 0 g.bufferReset
    rw [bufferLoad_eq g hraw, ← hp, if_neg hpos]
    rw [← hp] at hcursor
    apply Buffer.ext
    · exact hlines
    · exact hcursor.1.trans hcursor'.1
    · exact hcursor.2.trans hcursor'.2

theorem load_valid (raw : List Byte) : (Editor.load raw).buffer.Valid nanoMaxLines nanoMaxLineLen := by
  have hpos : 0 < (textLines raw).length := by
    rw [textLines]
    split
    · exact Nat.one_pos
    · exact List.length_pos_iff.2 ‹_›
  refine ⟨?_, Nat.zero_le _, ?_, ?_⟩
  · simp only [Editor.load, List.length_take, List.length_map, nanoMaxLines]
    omega
  · simp only [Editor.load, List.length_take]
    exact Nat.min_le_left ..
  · intro l hl
    obtain ⟨l', -, rfl⟩ := List.mem_map.1 (List.mem_of_mem_take hl)
    rw [List.length_take]
    exact Nat.min_le_left ..

/-! ## Simulation -/

/-- A function on the grid does what an operation on the text says, and leaves the cursor's line shown. -/
structure Does (f : Grid → Grid) (op : Buffer Byte → Buffer Byte) : Prop where
  buffer : ∀ g, g.Valid → (f g).buffer = op g.buffer
  keeps : ∀ b, b.Valid nanoMaxLines nanoMaxLineLen → (op b).Valid nanoMaxLines nanoMaxLineLen
  shows : ∀ g, g.Visible → (f g).Visible

theorem does_insert (c : Byte) : Does (insertCharacter · c) (Buffer.insert nanoMaxLineLen · c) := by
  refine ⟨fun g h => insertCharacter_buffer h c, fun b h => h.insert c, fun g h => ?_⟩
  simp only [insertCharacter]
  split_ifs
  · exact h
  · exact ensureCursorVisible_visible _

/-- A typed character; the control characters are ignored. -/
theorem does_character (c : Byte) :
    Does (fun g => if c.toInt < 32 ∧ c ≠ 9 then g else g.insertCharacter c)
      (fun b => if Editor.typed c then b.insert nanoMaxLineLen c else b) := by
  by_cases h : c.toInt < 32 ∧ c ≠ 9
  · have ht : Editor.typed c = false := by
      rw [Editor.typed, Bool.or_eq_false_iff]
      exact ⟨decide_eq_false (by omega), beq_eq_false_iff_ne.2 h.2⟩
    simp only [if_pos h, ht]
    exact ⟨fun g _ => rfl, fun b hb => hb, fun g hg => hg⟩
  · have ht : Editor.typed c = true := by
      rw [Editor.typed, Bool.or_eq_true, beq_iff_eq]
      by_cases h9 : c = 9
      · exact .inr h9
      · exact .inl (decide_eq_true (Int.not_lt.1 fun hlt => h ⟨hlt, h9⟩))
    simp only [if_neg h, ht]
    exact does_insert c

theorem does_split : Does splitLine (Buffer.split nanoMaxLines) := by
  refine ⟨fun g h => splitLine_buffer h, fun b h => h.split, fun g h => ?_⟩
  simp only [splitLine]
  split_ifs <;> exact ensureCursorVisible_visible _

theorem does_backspace : Does backspace (Buffer.backspace nanoMaxLineLen) := by
  refine ⟨fun g h => backspace_buffer h, fun b h => h.backspace, fun g h => ?_⟩
  simp only [backspace]
  split_ifs
  · exact ensureCursorVisible_visible _
  · exact h
  · exact h
  · exact ensureCursorVisible_visible _

theorem does_delete : Does delete (Buffer.delete nanoMaxLineLen) := by
  refine ⟨fun g h => delete_buffer h, fun b h => h.delete, fun g h => ?_⟩
  simp only [delete]
  split_ifs
  · exact ensureCursorVisible_visible _
  · exact h
  · exact h
  · exact ensureCursorVisible_visible _

theorem does_left : Does left Buffer.left :=
  ⟨fun _ h => left_buffer h, fun _ h => h.left, fun _ _ => ensureCursorVisible_visible _⟩

theorem does_right : Does right Buffer.right :=
  ⟨fun _ h => right_buffer h, fun _ h => h.right, fun _ _ => ensureCursorVisible_visible _⟩

theorem does_up : Does up Buffer.up := by
  refine ⟨fun g h => up_buffer h, fun b h => h.up, fun g h => ?_⟩
  rw [up]
  split_ifs
  · exact h
  · exact ensureCursorVisible_visible _

theorem does_down : Does down Buffer.down := by
  refine ⟨fun g h => down_buffer, fun b h => h.down, fun g h => ?_⟩
  rw [down]
  split_ifs
  · exact h
  · exact ensureCursorVisible_visible _

theorem does_home : Does home Buffer.home :=
  ⟨fun _ _ => home_buffer, fun _ h => h.home, fun _ _ => ensureCursorVisible_visible _⟩

theorem does_toEnd : Does toEnd Buffer.toEnd :=
  ⟨fun _ h => toEnd_buffer h, fun _ h => h.toEnd, fun _ _ => ensureCursorVisible_visible _⟩

end Grid

/-- The editor is in the reference editor's state. -/
structure Simulates (n : Nano) (e : Editor) : Prop where
  buffer : n.grid.buffer = e.buffer
  prompting : n.promptActive = e.prompting
  active : n.active = !e.closed
  valid : n.grid.Valid
  visible : n.grid.Visible

section Simulates

variable {n n' : Nano} {e : Editor} {f : Grid → Grid} {op : Buffer Byte → Buffer Byte}

theorem simulates_open (n : Nano) (raw : List Byte) : Simulates (n.nanoOpen raw) (Editor.load raw) := by
  have hbuffer : (n.nanoOpen raw).grid.buffer = (Editor.load raw).buffer :=
    (Grid.ensureCursorVisible_buffer _).trans (Grid.bufferLoad_buffer n.grid raw)
  refine ⟨hbuffer, rfl, rfl, ?_, Grid.ensureCursorVisible_visible _⟩
  rw [Grid.Valid, hbuffer]
  exact Grid.load_valid raw

/-- The text as before. -/
theorem Simulates.same (h : Simulates n e) (hbuffer : n'.grid.buffer = n.grid.buffer) (hvisible : n'.grid.Visible)
    {prompting closed : Bool} (hp : n'.promptActive = prompting) (ha : n'.active = !closed) :
    Simulates n' { e with prompting, closed } := by
  refine ⟨hbuffer.trans h.buffer, hp, ha, ?_, hvisible⟩
  rw [Grid.Valid, hbuffer]
  exact h.valid

theorem Simulates.does (h : Simulates n e) (hf : Grid.Does f op) :
    Simulates { n with grid := f n.grid } { e with buffer := op e.buffer } := by
  have hbuffer := hf.buffer n.grid h.valid
  refine ⟨hbuffer.trans (congrArg op h.buffer), h.prompting, h.active, ?_, hf.shows _ h.visible⟩
  rw [Grid.Valid, hbuffer]
  exact hf.keeps _ h.valid

theorem Simulates.closed_iff (h : Simulates n e) : n.active = false ↔ e.closed = true := by
  rw [h.active, Bool.not_eq_false']

theorem Simulates.edit (h : Simulates n e) (hf : Grid.Does f op) : Simulates (n.edit f) (e.edit op) := by
  have hiff : (n.active = false ∨ n.promptActive = true) ↔ (e.closed = true ∨ e.prompting = true) := by
    rw [h.closed_iff, h.prompting]
  rw [Nano.edit, Editor.edit]
  by_cases hc : e.closed = true ∨ e.prompting = true
  · rw [if_pos (hiff.2 hc), if_pos hc]
    exact h
  · rw [if_neg fun hn => hc (hiff.1 hn), if_neg hc]
    exact h.does hf

/-- What a key does in the save prompt leaves the text alone. -/
def KeepsText (prompt : Nano → Nano) : Prop :=
  ∀ n, (prompt n).grid.buffer = n.grid.buffer ∧ (n.grid.Visible → (prompt n).grid.Visible) ∧
    (prompt n).promptActive = n.promptActive ∧ (prompt n).active = n.active

theorem Simulates.promptOr (h : Simulates n e) {prompt : Nano → Nano} (hp : KeepsText prompt) (hf : Grid.Does f op) :
    Simulates (n.promptOr prompt f) (e.edit op) := by
  rw [Nano.promptOr, Editor.edit]
  by_cases hc : e.closed = true
  · rw [if_pos (h.closed_iff.2 hc), if_pos (.inl hc)]
    exact h
  · rw [if_neg fun hn => hc (h.closed_iff.1 hn)]
    by_cases hpr : e.prompting = true
    · obtain ⟨h1, h2, h3, h4⟩ := hp n
      rw [if_pos (h.prompting.trans hpr), if_pos (.inr hpr)]
      exact h.same h1 (h2 h.visible) (h3.trans h.prompting) (h4.trans h.active)
    · rw [if_neg (by rwa [h.prompting]), if_neg (not_or.2 ⟨hc, hpr⟩)]
      exact h.does hf

theorem keepsText_move (i : Nano → Nat) : KeepsText fun n => n.promptTo (i n) := fun _ =>
  ⟨Grid.ensureCursorVisible_buffer _, fun _ => Grid.ensureCursorVisible_visible _, rfl, rfl⟩

theorem keepsText_promptTo (p : Nano → Prop) [DecidablePred p] (i : Nano → Nat) :
    KeepsText fun n => if p n then n.promptTo (i n) else n := by
  intro n
  dsimp only
  split_ifs
  · exact keepsText_move i n
  · exact ⟨rfl, id, rfl, rfl⟩

theorem keepsText_backspace : KeepsText Nano.promptBackspace := by
  intro n
  rw [Nano.promptBackspace]
  split_ifs
  · exact ⟨Grid.ensureCursorVisible_buffer _, fun _ => Grid.ensureCursorVisible_visible _, rfl, rfl⟩
  · exact ⟨rfl, id, rfl, rfl⟩

/-- Ctrl with a letter: the save prompt is opened or left, or the editor is. -/
theorem Simulates.ctrl (h : Simulates n e) (letter : Byte) :
    Simulates (n.nanoKeyboardCtrl letter) (e.press (.ctrl letter)) := by
  rw [Nano.nanoKeyboardCtrl, Editor.press]
  by_cases hc : e.closed = true
  · rw [if_pos (h.closed_iff.2 hc), if_pos hc]
    exact h
  · rw [if_neg fun hn => hc (h.closed_iff.1 hn), if_neg hc]
    by_cases ho : letter = 0x6f
    · rw [if_pos ho, if_pos ho]
      have hgrid : ∀ m : Nano, m.active = n.active → m.promptActive = true →
          Simulates { m with grid := n.grid.ensureCursorVisible } { e with prompting := true } := by
        intro m hm hmp
        exact h.same (Grid.ensureCursorVisible_buffer _) (Grid.ensureCursorVisible_visible _) hmp (hm.trans h.active)
      split_ifs with hpr
      · exact hgrid n rfl hpr
      · exact hgrid _ rfl rfl
    · rw [if_neg ho, if_neg ho]
      split_ifs with hx hp hpr hpr
      · exact h.same (Grid.ensureCursorVisible_buffer _) (Grid.ensureCursorVisible_visible _) rfl h.active
      · exact absurd (h.prompting.symm.trans hp) hpr
      · exact absurd (h.prompting.trans hpr) hp
      · exact @Simulates.same n { n with active := false } e h rfl h.visible _ _ h.prompting rfl
      · exact h

/-- Enter: a line is split, or the prompt is left and the text saved, whether that succeeds or not. -/
theorem Simulates.enter {ω : Type} (S : Services ω) {c : Console ω} (h : Simulates c.nano e) :
    Simulates (c.nanoKeyboardEnter S).nano (e.press .enter) := by
  rw [Console.nanoKeyboardEnter, Editor.press, Editor.edit]
  by_cases hc : e.closed = true
  · rw [if_pos (h.closed_iff.2 hc), if_neg (by simp [hc]), if_pos (.inl hc)]
    exact h
  · rw [if_neg fun hn => hc (h.closed_iff.1 hn)]
    by_cases hpr : e.prompting = true
    · rw [if_pos (h.prompting.trans hpr), if_pos (by simp [hc, hpr])]
      exact h.same (Grid.ensureCursorVisible_buffer _) (Grid.ensureCursorVisible_visible _) rfl h.active
    · rw [if_neg (by rwa [h.prompting]), if_neg (by simp [hpr]), if_neg (not_or.2 ⟨hc, hpr⟩)]
      exact h.does Grid.does_split

/-- Every key. -/
theorem Simulates.press {ω : Type} (S : Services ω) {c : Console ω} (h : Simulates c.nano e) (key : Key) :
    Simulates (c.handle S .nano key).nano (e.press key) := by
  cases key with
  | character ch => exact h.edit (Grid.does_character ch)
  | enter => exact h.enter S
  | backspace => exact h.promptOr keepsText_backspace Grid.does_backspace
  | delete => exact h.edit Grid.does_delete
  | left =>
    change Simulates c.nano.nanoKeyboardLeft (e.edit Buffer.left)
    rw [Nano.nanoKeyboardLeft]
    exact h.promptOr (keepsText_promptTo (fun n => 0 < n.promptCursor) _) Grid.does_left
  | right =>
    change Simulates c.nano.nanoKeyboardRight (e.edit Buffer.right)
    rw [Nano.nanoKeyboardRight]
    exact h.promptOr (keepsText_promptTo (fun n => n.promptCursor < n.promptLength) _) Grid.does_right
  | up => exact h.edit Grid.does_up
  | down => exact h.edit Grid.does_down
  | home =>
    change Simulates c.nano.nanoKeyboardHome (e.edit Buffer.home)
    rw [Nano.nanoKeyboardHome]
    exact h.promptOr (keepsText_move fun _ => 0) Grid.does_home
  | «end» =>
    change Simulates c.nano.nanoKeyboardEnd (e.edit Buffer.toEnd)
    rw [Nano.nanoKeyboardEnd]
    exact h.promptOr (keepsText_move fun n => n.promptLength) Grid.does_toEnd
  | ctrl letter => exact h.ctrl letter

/-- A sequence of keys that all go to the editor. -/
def Console.nanoKeys {ω : Type} (S : Services ω) (c : Console ω) (keys : List Key) : Console ω :=
  keys.foldl (Console.handle S · .nano) c

theorem Simulates.run {ω : Type} (S : Services ω) {c : Console ω} (h : Simulates c.nano e) (keys : List Key) :
    Simulates (c.nanoKeys S keys).nano (keys.foldl Editor.press e) := by
  induction keys generalizing c e with
  | nil => exact h
  | cons key keys ih => exact ih (h.press S key)

end Simulates

/-- After a file is opened and any keys are pressed, the grid and the cursor are the reference editor's
text and cursor, the bounds of the grid hold, and the cursor's line is among the 22 shown. -/
theorem nano_refines {ω : Type} (S : Services ω) (c : Console ω) (raw : List Byte) (keys : List Key) :
    let g := (Console.nanoKeys S { c with nano := c.nano.nanoOpen raw } keys).nano.grid
    g.buffer = (keys.foldl Editor.press (Editor.load raw)).buffer ∧
      1 ≤ g.lineCount ∧ g.lineCount ≤ 200 ∧ (∀ i < g.lineCount, g.lineLength i ≤ 79) ∧
      g.cursorLine < g.lineCount ∧ g.cursorCol ≤ g.lineLength g.cursorLine ∧
      g.viewTop ≤ g.cursorLine ∧ g.cursorLine < g.viewTop + 22 := by
  intro g
  have h := Simulates.run S (c := { c with nano := c.nano.nanoOpen raw }) (simulates_open c.nano raw) keys
  have hrow := h.valid.row
  have hcol := h.valid.col
  have hcount := h.valid.count
  rw [Grid.buffer_length, Grid.buffer_row] at hrow
  rw [h.valid.current, Grid.length_line, Grid.buffer_col] at hcol
  rw [Grid.buffer_length] at hcount
  change g.cursorLine < g.lineCount at hrow
  exact ⟨h.buffer, Nat.one_le_of_lt hrow, hcount, fun i hi => h.valid.lineLength_le hi, hrow, hcol,
    h.visible.1, h.visible.2⟩

end SpectreOS

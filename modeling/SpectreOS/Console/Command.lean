/-
The command line and the history of the shell (shell.c) against a line editor of 127 characters and
the list of the lines that were entered: the buffer, its length and cursor, the sixteen entries with
their count and the navigation position are the reference's after every sequence of keys.
-/
import SpectreOS.Console.Editor
import SpectreOS.Lib.Line

namespace SpectreOS

open BlockIO LineEditor

/-! ## The reference -/

/-- A line, the entry of the history it was taken from, and the lines entered so far. -/
structure CommandEditor where
  line : Line Byte (shellMaxLine - 1)
  position : Option Nat
  entered : List (List Byte)

namespace CommandEditor

def fresh : CommandEditor := ⟨Line.ofText [], none, []⟩

variable (e : CommandEditor)

/-- The lines that are stored: those that are not empty, unless they repeat the line stored last. -/
def stored : List (List Byte) := (e.entered.filter (· ≠ [])).foldl remember []

/-- The last sixteen of them. -/
def history : List (List Byte) := lasts shellHistorySize e.stored

/-- An edit leaves the history. -/
def edit (line : Line Byte (shellMaxLine - 1)) : CommandEditor := { e with line, position := none }

/-- A cursor movement does not. -/
def move (line : Line Byte (shellMaxLine - 1)) : CommandEditor := { e with line }

/-- An entry of the history becomes the line. -/
def load (i : Nat) : CommandEditor := { e with line := Line.ofText (e.history.getD i []), position := some i }

/-- What a key does. Up goes to the entry before, from the line to the newest one and no further than
the oldest; down to the entry after, and past the newest to an empty line. -/
def press : Key → CommandEditor
  | .character c => if 32 ≤ c.toInt ∧ e.line.text.length < shellMaxLine - 1 then e.edit (e.line.insert c) else e
  | .backspace => if 0 < e.line.cursor then e.edit e.line.backspace else e
  | .delete => if e.line.cursor < e.line.text.length then e.edit e.line.delete else e
  | .left => e.move e.line.left
  | .right => e.move e.line.right
  | .home => e.move e.line.home
  | .end => e.move e.line.toEnd
  | .up =>
    if e.history = [] then e
    else match e.position with
      | none => e.load (e.history.length - 1)
      | some i => e.load (i - 1)
  | .down =>
    match e.position with
    | none => e
    | some i => if i + 1 < e.history.length then e.load (i + 1) else e.edit (Line.ofText [])
  | .enter => ⟨Line.ofText [], none, e.entered ++ [e.line.text]⟩
  | .ctrl _ => e

end CommandEditor

/-- Keys that all go to the shell. -/
def Console.shellKeys {ω : Type} (S : Services ω) (c : Console ω) (keys : List Key) : Console ω :=
  keys.foldl (Console.handle S · .shell) c

/-! ## The shell shows the reference -/

/-- The texts of the history. -/
def Shell.entries (s : Shell) : List (List Byte) := firsts (fun i => (s.history i).text) s.historyCount

/-- The shell is in the reference's state. -/
structure Shell.Shows (s : Shell) (e : CommandEditor) : Prop where
  line : e.line.ShownBy (s.commandLine.slice 0) s.commandLength s.cursorPosition
  nonzero : (0 : Byte) ∉ e.line.text
  entries : s.entries = e.history
  short : ∀ l ∈ e.history, l.length ≤ shellMaxLine - 1
  position : s.historyPosition = match e.position with
    | none => -1
    | some i => (i : Int)
  within : ∀ i, e.position = some i → i < e.history.length

section Shows

variable {s : Shell} {e : CommandEditor}

theorem Shell.Shows.count (h : s.Shows e) : s.historyCount = e.history.length := by
  rw [← h.entries, Shell.entries, length_firsts]

theorem Shell.Shows.entry (h : s.Shows e) {i : Nat} (hi : i < s.historyCount) :
    (s.history i).text = e.history.getD i [] := by
  rw [← h.entries, Shell.entries, getD_firsts [] hi]

/-- A line that was edited. -/
theorem Shell.Shows.edit (h : s.Shows e) {line : Line Byte (shellMaxLine - 1)} {b : Block shellMaxLine} {n i : Nat}
    (hline : line.ShownBy (b.slice 0) n i) (h0 : (0 : Byte) ∉ line.text) :
    Shell.Shows
      { s with commandLine := b, commandLength := n, cursorPosition := i, historyPosition := -1 } (e.edit line) :=
  ⟨hline, h0, h.entries, h.short, rfl, fun i hi => by cases hi⟩

/-- A cursor that was moved. -/
theorem Shell.Shows.move (h : s.Shows e) {line : Line Byte (shellMaxLine - 1)} {i : Nat}
    (htext : line.text = e.line.text) (hline : line.ShownBy (s.commandLine.slice 0) s.commandLength i) :
    Shell.Shows { s with cursorPosition := i } (e.move line) :=
  ⟨hline, fun h0 => h.nonzero (htext ▸ h0), h.entries, h.short, h.position, h.within⟩

/-- `shell_load_history` at an entry. -/
theorem Shell.Shows.load (h : s.Shows e) {i : Nat} (hi : i < e.history.length) :
    Shell.Shows (s.shellLoadHistory i) (e.load i) := by
  have hcount := h.count
  obtain ⟨t, ht⟩ : ∃ t, t = e.history.getD i [] := ⟨_, rfl⟩
  have hmem : t ∈ e.history := by
    rw [ht, List.getD_eq_getElem?_getD, List.getElem?_eq_getElem hi]
    exact List.getElem_mem hi
  have hshort : t.length ≤ 127 := h.short t hmem
  have hentry : (s.history i).text = t := by rw [h.entry (by omega), ht]
  have h0 : (0 : Byte) ∉ t := hentry ▸ (s.history i).zero_notMem_text
  have htake : t.take (shellMaxLine - 1) = t := List.take_of_length_le hshort
  have hload : s.shellLoadHistory i =
      { s with
        historyPosition := i, commandLine := s.commandLine.store t
        commandLength := t.length, cursorPosition := t.length } := by
    have hlast : ¬ (s.historyCount : Int) ≤ i := by omega
    unfold Shell.shellLoadHistory
    rw [if_neg (by omega), if_neg (by omega)]
    simp only [hlast, if_false, Int.toNat_natCast, hentry, htake]
  rw [hload, CommandEditor.load, ← ht]
  constructor
  · exact Line.shownBy_ofText hshort (row_store _ (Nat.le_succ_of_le hshort))
  · exact fun hm => h0 (List.mem_of_mem_take hm)
  · exact h.entries
  · exact h.short
  · rfl
  · intro j hj
    cases hj
    exact hi

end Shows

/-! ## Editing -/

section Editing

variable {s : Shell} {e : CommandEditor}

theorem Shell.Shows.character (h : s.Shows e) (c : Byte) :
    Shell.Shows (s.shellKeyboardCharacter c) (e.press (.character c)) := by
  have hlen := h.line.length
  have hle := h.line.le
  unfold Shell.shellKeyboardCharacter
  rw [CommandEditor.press]
  by_cases hc : c.toInt < 32
  · rw [if_pos hc, if_neg (by omega)]
    exact h
  · by_cases hfull : shellMaxLine - 1 ≤ s.commandLength
    · rw [if_neg hc, if_pos hfull, if_neg (by omega)]
      exact h
    · rw [if_neg hc, if_neg hfull, if_pos (by omega)]
      have hroom : s.commandLength < 127 := not_le.mp hfull
      refine h.edit (h.line.insert hroom (row_shift s.commandLine hle (Nat.lt_succ_of_lt hroom))) fun h0 => ?_
      rcases Line.mem_insert h0 with h0 | h0
      · exact hc (by rw [← h0]; decide)
      · exact h.nonzero h0

theorem Shell.Shows.backspace (h : s.Shows e) : Shell.Shows s.shellKeyboardBackspace (e.press .backspace) := by
  have hle := h.line.le
  have hcap : s.commandLength ≤ 127 := h.line.le_cap
  unfold Shell.shellKeyboardBackspace
  rw [CommandEditor.press, ← h.line.cursor]
  by_cases hzero : s.cursorPosition = 0
  · rw [if_pos hzero, if_neg (by omega)]
    exact h
  · rw [if_neg hzero, if_pos (by omega)]
    have hrow := @row_erase _ s.commandLine s.commandLength (s.cursorPosition - 1) (by omega) (Nat.lt_succ_of_le hcap)
    exact h.edit (h.line.backspace (by omega) hrow) fun h0 => h.nonzero (Line.mem_backspace h0)

theorem Shell.Shows.delete (h : s.Shows e) : Shell.Shows s.shellKeyboardDelete (e.press .delete) := by
  have hcap : s.commandLength ≤ 127 := h.line.le_cap
  unfold Shell.shellKeyboardDelete
  rw [CommandEditor.press, ← h.line.cursor, h.line.length]
  by_cases hend : s.commandLength ≤ s.cursorPosition
  · rw [if_pos hend, if_neg (by omega)]
    exact h
  · rw [if_neg hend, if_pos (by omega)]
    have hrow := @row_erase _ s.commandLine s.commandLength s.cursorPosition (by omega) (Nat.lt_succ_of_le hcap)
    exact h.edit (h.line.delete (by omega) hrow) fun h0 => h.nonzero (Line.mem_delete h0)

theorem Shell.Shows.left (h : s.Shows e) : Shell.Shows s.shellKeyboardLeft (e.press .left) := by
  have hline : Shell.Shows { s with cursorPosition := s.cursorPosition - 1 } (e.move e.line.left) :=
    h.move rfl h.line.left
  unfold Shell.shellKeyboardLeft
  split
  · exact hline
  · rename_i hzero
    rw [show s.cursorPosition - 1 = s.cursorPosition by omega] at hline
    exact hline

theorem Shell.Shows.right (h : s.Shows e) : Shell.Shows s.shellKeyboardRight (e.press .right) := by
  have hle := h.line.le
  have hline : Shell.Shows { s with cursorPosition := min (s.cursorPosition + 1) s.commandLength }
      (e.move e.line.right) := h.move rfl h.line.right
  unfold Shell.shellKeyboardRight
  split
  · rename_i hlt
    rw [Nat.min_eq_left hlt] at hline
    exact hline
  · rename_i hend
    rw [show min (s.cursorPosition + 1) s.commandLength = s.cursorPosition by omega] at hline
    exact hline

theorem Shell.Shows.up (h : s.Shows e) : Shell.Shows s.shellKeyboardUp (e.press .up) := by
  have hcount := h.count
  have hposition := h.position
  unfold Shell.shellKeyboardUp
  rw [CommandEditor.press]
  by_cases hnil : e.history = []
  · rw [if_pos (by rw [hcount, hnil]; rfl), if_pos hnil]
    exact h
  · have hpos := List.length_pos_iff.mpr hnil
    rw [if_neg (by omega), if_neg hnil]
    cases hp : e.position with
    | none =>
      rw [hp] at hposition
      rw [if_pos hposition, show (s.historyCount : Int) - 1 = (e.history.length - 1 : Nat) by omega]
      exact h.load (by omega)
    | some i =>
      have hi := h.within i hp
      rw [hp] at hposition
      simp only at hposition ⊢
      rw [if_neg (by omega)]
      by_cases hzero : 0 < s.historyPosition
      · rw [if_pos hzero, show s.historyPosition - 1 = ((i - 1 : Nat) : Int) by omega]
        exact h.load (by omega)
      · rw [if_neg hzero, show s.historyPosition = ((i - 1 : Nat) : Int) by omega]
        exact h.load (by omega)

theorem Shell.Shows.down (h : s.Shows e) : Shell.Shows s.shellKeyboardDown (e.press .down) := by
  have hcount := h.count
  have hposition := h.position
  unfold Shell.shellKeyboardDown
  rw [CommandEditor.press]
  cases hp : e.position with
  | none =>
    rw [hp] at hposition
    by_cases hempty : s.historyCount = 0
    · rw [if_pos hempty]
      exact h
    · rw [if_neg hempty, if_pos hposition]
      exact h
  | some i =>
    have hi := h.within i hp
    rw [hp] at hposition
    simp only at hposition ⊢
    rw [if_neg (by omega), if_neg (by omega)]
    by_cases hlast : i + 1 < e.history.length
    · rw [if_pos (by omega), if_pos hlast, show s.historyPosition + 1 = ((i + 1 : Nat) : Int) by omega]
      exact h.load hlast
    · rw [if_neg (by omega), if_neg hlast]
      exact h.edit ⟨rfl, rfl⟩ List.not_mem_nil

end Editing

/-! ## Enter -/

theorem getLast?_firsts {α : Type} (f : Nat → α) (n : Nat) :
    (firsts f n).getLast? = if 0 < n then some (f (n - 1)) else none := by
  rw [List.getLast?_eq_getElem?, length_firsts, getElem?_firsts]
  by_cases hn : 0 < n
  · rw [if_pos hn, if_pos (by omega)]
  · rw [if_neg hn, if_neg (by omega)]

section Enter

variable {s : Shell} {e : CommandEditor}

/-- The history with one more entry. -/
theorem Shell.entries_append (s : Shell) (b : Block shellMaxLine) :
    Shell.entries { s with history := Function.update s.history s.historyCount b, historyCount := s.historyCount + 1 } =
      s.entries ++ [b.text] := by
  refine @firsts_append _ _ _ s.historyCount 1 (fun k hk => ?_) (fun _ => b.text) fun k hk => ?_
  · simp only [Function.update_of_ne (Nat.ne_of_lt hk)]
  · obtain rfl : k = 0 := by omega
    simp only [Nat.add_zero, Function.update_self]

/-- The full history with its entries moved up by one. -/
theorem Shell.entries_shift (s : Shell) (hfull : s.historyCount = shellHistorySize) (b : Block shellMaxLine) :
    Shell.entries { s with
      history := fun h => if h + 1 < shellHistorySize then s.history (h + 1)
        else if h + 1 = shellHistorySize then b else s.history h } = s.entries.drop 1 ++ [b.text] := by
  have hdrop : s.entries.drop 1 = firsts (fun i => (s.history (i + 1)).text) 15 := by
    rw [Shell.entries, hfull]
    symm
    exact @firsts_drop _ (fun i => (s.history i).text) (fun i => (s.history (i + 1)).text) 16 1
      fun k _ => by rw [Nat.add_comm]
  rw [hdrop, Shell.entries]
  simp only [hfull]
  refine @firsts_append _ _ _ 15 1 (fun k hk => ?_) (fun _ => b.text) fun k hk => ?_
  · rw [if_pos (Nat.succ_lt_succ hk)]
  · obtain rfl : k = 0 := by omega
    rfl

/-- Entering a line stores it unless it is empty. -/
theorem CommandEditor.stored_press_enter :
    (e.press .enter).stored = if e.line.text = [] then e.stored else remember e.stored e.line.text := by
  rw [CommandEditor.press, CommandEditor.stored, CommandEditor.stored, List.filter_append, List.foldl_append]
  by_cases hnil : e.line.text = []
  · simp [hnil]
  · simp [hnil]

/-- `shell_save_history` on a terminated line. -/
theorem Shell.Shows.saved (h : s.Shows e) :
    Shell.entries { s with commandLine := s.commandLine.setByte s.commandLength 0 }.shellSaveHistory =
      (e.press .enter).history := by
  have hcount := h.count
  have hcap : s.commandLength ≤ 127 := h.line.le_cap
  have htext : (s.commandLine.setByte s.commandLength 0).text = e.line.text := by
    rw [text_row _ (Nat.lt_succ_of_le hcap) (by rw [h.line.text]; exact h.nonzero), h.line.text]
  have hlast : e.stored.getLast? = if 0 < s.historyCount then some (s.history (s.historyCount - 1)).text else none := by
    rw [← getLast?_lasts (show 0 < shellHistorySize by decide)]
    change e.history.getLast? = _
    rw [← h.entries, Shell.entries, getLast?_firsts]
  have hentries : s.entries = lasts shellHistorySize e.stored := h.entries
  rw [CommandEditor.history, CommandEditor.stored_press_enter]
  unfold Shell.shellSaveHistory
  by_cases hnil : e.line.text = []
  · have hzero : s.commandLength = 0 := by rw [← h.line.length, hnil]; rfl
    rw [if_pos hzero, if_pos hnil]
    exact hentries
  · have hpos : s.commandLength ≠ 0 := by
      rw [← h.line.length]
      exact fun h0 => hnil (List.length_eq_zero_iff.mp h0)
    rw [if_neg hpos, if_neg hnil]
    simp only [htext]
    by_cases hsame : 0 < s.historyCount ∧ (s.history (s.historyCount - 1)).text = e.line.text
    · rw [if_pos hsame, remember, if_pos (by rw [hlast, if_pos hsame.1, hsame.2])]
      exact hentries
    · have hnew : ¬ e.stored.getLast? = some e.line.text := by
        rw [hlast]
        split
        · rename_i hpos
          exact fun heq => hsame ⟨hpos, Option.some.inj heq⟩
        · exact fun heq => by cases heq
      rw [if_neg hsame, remember, if_neg hnew, lasts_append (show 0 < shellHistorySize by decide), ← hentries]
      have hlen : s.entries.length = s.historyCount := length_firsts
      by_cases hroom : s.historyCount < shellHistorySize
      · rw [if_pos hroom, if_pos (by rwa [hlen])]
        have hstore : ((s.history s.historyCount).store e.line.text).text = e.line.text :=
          Block.text_store _ h.nonzero (Nat.lt_succ_of_le e.line.fits)
        have happend := Shell.entries_append { s with commandLine := s.commandLine.setByte s.commandLength 0 }
          ((s.history s.historyCount).store e.line.text)
        rw [hstore] at happend
        exact happend
      · have hfull : s.historyCount = shellHistorySize := by
          have := length_lasts shellHistorySize e.stored
          rw [← hentries, hlen] at this
          omega
        rw [if_neg hroom, if_neg (by rwa [hlen]), ← htext]
        exact Shell.entries_shift { s with commandLine := s.commandLine.setByte s.commandLength 0 } hfull _

/-- An entry after Enter was one before or is the line. -/
theorem CommandEditor.mem_history_enter {l : List Byte} (hl : l ∈ (e.press .enter).history) :
    l ∈ e.history ∨ l = e.line.text := by
  rw [CommandEditor.history, CommandEditor.stored_press_enter] at hl
  split at hl
  · exact .inl hl
  · unfold remember at hl
    split at hl
    · exact .inl hl
    · rw [lasts_append (show 0 < shellHistorySize by decide)] at hl
      split at hl
      · rcases List.mem_append.mp hl with hl | hl
        · exact .inl hl
        · exact .inr (List.mem_singleton.mp hl)
      · rcases List.mem_append.mp hl with hl | hl
        · exact .inl (List.mem_of_mem_drop hl)
        · exact .inr (List.mem_singleton.mp hl)

/-- Enter stores the line and leaves an empty one, whatever the command does to the rest. -/
theorem Console.shellKeyboardEnter_shell {ω : Type} (S : Services ω) (c : Console ω) :
    (c.shellKeyboardEnter S).shell = Shell.emptyLine
      { c.shell with commandLine := c.shell.commandLine.setByte c.shell.commandLength 0 }.shellSaveHistory := by
  unfold Console.shellKeyboardEnter Console.shellExecute
  simp only
  split
  · rfl
  · split
    · rfl
    · split
      · unfold Console.shellCmdNano
        split
        · rfl
        · split
          · rfl
          · rfl
      · rfl

theorem Shell.Shows.enter {ω : Type} (S : Services ω) {c : Console ω} (h : c.shell.Shows e) :
    Shell.Shows (c.shellKeyboardEnter S).shell (e.press .enter) := by
  rw [Console.shellKeyboardEnter_shell]
  have hsaved := h.saved
  constructor
  · exact ⟨rfl, rfl⟩
  · exact List.not_mem_nil
  · exact hsaved
  · intro l hl
    rcases CommandEditor.mem_history_enter hl with hl | rfl
    · exact h.short l hl
    · exact e.line.fits
  · rfl
  · intro i hi
    cases hi

end Enter

/-! ## Runs -/

theorem shows_init (s : Shell) : s.shellInit.Shows CommandEditor.fresh := by
  constructor
  · exact ⟨rfl, rfl⟩
  · exact List.not_mem_nil
  · rfl
  · exact fun l hl => absurd hl List.not_mem_nil
  · rfl
  · intro i hi
    cases hi

theorem Shell.Shows.press {ω : Type} (S : Services ω) {c : Console ω} {e : CommandEditor}
    (h : c.shell.Shows e) (key : Key) :
    Shell.Shows (c.handle S .shell key).shell (e.press key) := by
  cases key with
  | character ch => exact h.character ch
  | enter => exact h.enter S
  | backspace => exact h.backspace
  | delete => exact h.delete
  | left => exact h.left
  | right => exact h.right
  | up => exact h.up
  | down => exact h.down
  | home => exact h.move rfl h.line.home
  | «end» => exact h.move rfl h.line.toEnd
  | ctrl letter => exact h

theorem Shell.Shows.run {ω : Type} (S : Services ω) {c : Console ω} {e : CommandEditor} (h : c.shell.Shows e)
    (keys : List Key) : Shell.Shows (c.shellKeys S keys).shell (keys.foldl CommandEditor.press e) := by
  induction keys generalizing c e with
  | nil => exact h
  | cons key keys ih => exact ih (h.press S key)

/-- After `shell_init` and any keys the line and its cursor are the reference's, the history holds its
entries, and the cursor and the length keep their bounds. -/
theorem shell_refines {ω : Type} (S : Services ω) (c : Console ω) (keys : List Key) :
    let s := (Console.shellKeys S { c with shell := c.shell.shellInit } keys).shell
    let e := keys.foldl CommandEditor.press CommandEditor.fresh
    firsts (s.commandLine.slice 0) s.commandLength = e.line.text ∧ s.cursorPosition = e.line.cursor ∧
      firsts (fun i => (s.history i).text) s.historyCount = e.history ∧
      s.cursorPosition ≤ s.commandLength ∧ s.commandLength ≤ 127 := by
  intro s e
  have h := @Shell.Shows.run ω S { c with shell := c.shell.shellInit } _ (shows_init c.shell) keys
  exact ⟨h.line.text, h.line.cursor, h.entries, h.line.le, h.line.le_cap⟩

end SpectreOS

/-
The command line of the shell (shell.c): editing, history, and the words of a command. A loop that
moves a run of bytes inside the line is one `patch` by the bytes it moves; the line is redrawn by
code that is not modelled.
-/
import SpectreOS.Console.Keyboard
import SpectreOS.Lib.Text

namespace SpectreOS

open BlockIO

abbrev shellMaxLine : Nat := 128
abbrev shellHistorySize : Nat := 16

/-- The static variables of shell.c that the keyboard functions use. -/
structure Shell where
  commandLine : Block shellMaxLine
  commandLength : Nat
  cursorPosition : Nat
  history : Nat → Block shellMaxLine
  historyCount : Nat
  historyPosition : Int

/-- The static variables before `shell_init`. -/
def blankShell : Shell := ⟨fun _ => 0, 0, 0, fun _ _ => 0, 0, -1⟩

namespace Shell

variable (s : Shell)

def shellInit : Shell :=
  { s with commandLength := 0, cursorPosition := 0, historyPosition := -1, historyCount := 0 }

/-! ## History -/

/-- `shell_save_history`. While there is room the line is stored with its terminator; after that
every entry moves up and the last one gets the whole line. -/
def shellSaveHistory : Shell :=
  if s.commandLength = 0 then s
  else if 0 < s.historyCount ∧ (s.history (s.historyCount - 1)).text = s.commandLine.text then s
  else if s.historyCount < shellHistorySize then
    { s with
      history := Function.update s.history s.historyCount ((s.history s.historyCount).store s.commandLine.text)
      historyCount := s.historyCount + 1 }
  else
    { s with
      history := fun h => if h + 1 < shellHistorySize then s.history (h + 1)
        else if h + 1 = shellHistorySize then s.commandLine else s.history h }

/-- `shell_load_history`. -/
def shellLoadHistory (position : Int) : Shell :=
  if s.historyCount = 0 then s
  else
    let position := if position < 0 then 0 else position
    let position := if (s.historyCount : Int) ≤ position then (s.historyCount : Int) - 1 else position
    let entry := (s.history position.toNat).text.take (shellMaxLine - 1)
    { s with
      historyPosition := position
      commandLine := s.commandLine.store entry
      commandLength := entry.length
      cursorPosition := entry.length }

/-! ## Editing -/

/-- The characters are signed: a byte from 128 on is below 32 too. -/
def shellKeyboardCharacter (c : Byte) : Shell :=
  if c.toInt < 32 then s
  else if shellMaxLine - 1 ≤ s.commandLength then s
  else
    { s with
      commandLine := (s.commandLine.patch (s.cursorPosition + 1) (s.commandLength - s.cursorPosition)
        (s.commandLine.slice s.cursorPosition)).setByte s.cursorPosition c
      commandLength := s.commandLength + 1
      cursorPosition := s.cursorPosition + 1
      historyPosition := -1 }

/-- The byte at `i` is taken out of the line. -/
def removeAt (i : Nat) : Shell :=
  { s with
    commandLine := (s.commandLine.patch i (s.commandLength - 1 - i) (s.commandLine.slice (i + 1))).setByte
      (s.commandLength - 1) 0
    commandLength := s.commandLength - 1
    historyPosition := -1 }

def shellKeyboardBackspace : Shell :=
  if s.cursorPosition = 0 then s
  else { s.removeAt (s.cursorPosition - 1) with cursorPosition := s.cursorPosition - 1 }

def shellKeyboardDelete : Shell :=
  if s.commandLength ≤ s.cursorPosition then s else s.removeAt s.cursorPosition

def shellKeyboardLeft : Shell :=
  if 0 < s.cursorPosition then { s with cursorPosition := s.cursorPosition - 1 } else s

def shellKeyboardRight : Shell :=
  if s.cursorPosition < s.commandLength then { s with cursorPosition := s.cursorPosition + 1 } else s

def shellKeyboardHome : Shell := { s with cursorPosition := 0 }

def shellKeyboardEnd : Shell := { s with cursorPosition := s.commandLength }

def shellKeyboardUp : Shell :=
  if s.historyCount = 0 then s
  else if s.historyPosition = -1 then s.shellLoadHistory ((s.historyCount : Int) - 1)
  else if 0 < s.historyPosition then s.shellLoadHistory (s.historyPosition - 1)
  else s.shellLoadHistory s.historyPosition

def shellKeyboardDown : Shell :=
  if s.historyCount = 0 then s
  else if s.historyPosition = -1 then s
  else if s.historyPosition < (s.historyCount : Int) - 1 then s.shellLoadHistory (s.historyPosition + 1)
  else
    { s with
      historyPosition := -1, commandLength := 0, cursorPosition := 0
      commandLine := s.commandLine.setByte 0 0 }

/-- The command line after a command has been run. -/
def emptyLine : Shell :=
  { s with
    commandLength := 0, cursorPosition := 0, historyPosition := -1
    commandLine := s.commandLine.setByte 0 0 }

end Shell

/-! ## Words of a command -/

def shellSkipSpaces (p : List Byte) : List Byte := p.dropWhile fun c => c == 0x20 || c == 9

/-- `shell_get_token`: the next word and what follows it; none if there is no word or it does not
fit with its terminator. -/
def shellGetToken (input : List Byte) (size : Nat) : Option (List Byte × List Byte) :=
  let p := shellSkipSpaces input
  let word := p.takeWhile fun c => c != 0x20 && c != 9
  if word = [] then none
  else if size ≤ word.length then none
  else some (word, p.drop word.length)

end SpectreOS

/-
The scancode decoder (keyboard.c): the modifier flags, the two key maps and what
`keyboard_handler` makes of a scancode byte before it hands the key to whoever owns the keyboard.
-/
import SpectreOS.Lib.Bytes

namespace SpectreOS

open BlockIO

/-! ## Key maps -/

/-- The characters of a string literal, one byte each. -/
def ascii (s : String) : List Byte := s.toList.map fun c => BitVec.ofNat 8 c.toNat

/-- `keyboard_map`; the entries past the last one listed are zero. -/
def keyboardMap : List Byte :=
  [0, 27] ++ ascii "1234567890-=" ++ [8, 9] ++ ascii "qwertyuiop[]" ++ [10, 0] ++ ascii "asdfghjkl;'`" ++ [0] ++
    ascii "\\zxcvbnm,./" ++ [0] ++ ascii "*" ++ [0] ++ ascii " " ++ List.replicate 13 0 ++ ascii "789-456+1230."

/-- `keyboard_shift_map`. -/
def keyboardShiftMap : List Byte :=
  [0, 27] ++ ascii "!@#$%^&*()_+" ++ [8, 9] ++ ascii "QWERTYUIOP\x7b\x7d" ++ [10, 0] ++ ascii "ASDFGHJKL:\"~" ++ [0] ++
    ascii "|ZXCVBNM<>?" ++ [0] ++ ascii "*" ++ [0] ++ ascii " " ++ List.replicate 13 0 ++ ascii "789-456+1230."

/-! ## Modifiers -/

/-- The static flags of keyboard.c. -/
structure Keyboard where
  leftShift : Bool
  rightShift : Bool
  capsLock : Bool
  ctrlPressed : Bool
  altPressed : Bool
  extended : Bool
  deriving DecidableEq, Repr

def keyboardInit : Keyboard := ⟨false, false, false, false, false, false⟩

namespace Keyboard

variable (k : Keyboard)

def shiftActive : Bool := k.leftShift || k.rightShift

def isLetter (c : Byte) : Bool := 0x61 ≤ c && c ≤ 0x7a

def applyCase (scancode : Byte) : Byte :=
  let normal := keyboardMap.getD scancode.toNat 0
  if !isLetter normal then
    if k.shiftActive then keyboardShiftMap.getD scancode.toNat 0 else normal
  else if k.shiftActive ^^ k.capsLock then normal - 0x61 + 0x41
  else normal

end Keyboard

/-- A key as the owner of the keyboard gets it. -/
inductive Key where
  | character (c : Byte)
  | enter
  | backspace
  | delete
  | left
  | right
  | up
  | down
  | home
  | end
  | ctrl (letter : Byte)
  deriving DecidableEq, Repr

/-- The keys that follow the prefix 0xE0. -/
def extendedKey (scancode : Byte) : Option Key :=
  if scancode = 0x4B then some .left
  else if scancode = 0x4D then some .right
  else if scancode = 0x48 then some .up
  else if scancode = 0x50 then some .down
  else if scancode = 0x53 then some .delete
  else if scancode = 0x47 then some .home
  else if scancode = 0x4F then some .end
  else none

/-- A byte that is no modifier: a release, a key with Ctrl held, or a key. -/
def Keyboard.plainKey (k : Keyboard) (scancode : Byte) : Option Key :=
  if scancode &&& 0x80 ≠ 0 then none
  else if k.ctrlPressed then
    let base := keyboardMap.getD scancode.toNat 0
    if Keyboard.isLetter base then some (.ctrl base) else none
  else if scancode = 0x1C then some .enter
  else if scancode = 0x0E then some .backspace
  else if scancode = 0x0F then some (.character 9)
  else if k.altPressed then none
  else
    let character := k.applyCase scancode
    if character ≠ 0 then some (.character character) else none

/-- `keyboard_handler` up to the dispatch: the new flags, and the key the byte completes. -/
def Keyboard.decode (k : Keyboard) (scancode : Byte) : Keyboard × Option Key :=
  if scancode = 0xE0 then ({ k with extended := true }, none)
  else if k.extended then
    let k := { k with extended := false }
    if scancode = 0x1D then ({ k with ctrlPressed := true }, none)
    else if scancode = 0x9D then ({ k with ctrlPressed := false }, none)
    else if scancode &&& 0x80 ≠ 0 then (k, none)
    else (k, extendedKey scancode)
  else if scancode = 0x2A then ({ k with leftShift := true }, none)
  else if scancode = 0xAA then ({ k with leftShift := false }, none)
  else if scancode = 0x36 then ({ k with rightShift := true }, none)
  else if scancode = 0xB6 then ({ k with rightShift := false }, none)
  else if scancode = 0x1D then ({ k with ctrlPressed := true }, none)
  else if scancode = 0x9D then ({ k with ctrlPressed := false }, none)
  else if scancode = 0x38 then ({ k with altPressed := true }, none)
  else if scancode = 0xB8 then ({ k with altPressed := false }, none)
  else if scancode = 0x3A then ({ k with capsLock := !k.capsLock }, none)
  else (k, k.plainKey scancode)

end SpectreOS

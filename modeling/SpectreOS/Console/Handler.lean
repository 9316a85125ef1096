/-
The keyboard interrupt (keyboard.c) over the login gate, the editor and the shell: which of the
three gets a key, what its handler does, and the runs of `keyboard_handler` over a sequence of
scancode bytes from `auth_start` on. The handler runs with interrupts off, one byte at a time.
-/
import SpectreOS.Console.Auth
import SpectreOS.Console.Nano
import SpectreOS.Console.Shell

namespace SpectreOS

open BlockIO

/-- The static variables behind the keyboard; `ω` is the state of the rest of the kernel. -/
structure Console (ω : Type) where
  keyboard : Keyboard
  auth : Auth
  shell : Shell
  nano : Nano
  world : ω

/-- The owners of the keyboard. -/
inductive Owner where
  | auth
  | nano
  | shell
  deriving DecidableEq, Repr

namespace Console

variable {ω : Type} (S : Services ω) (c : Console ω)

/-! ## Commands that change the owner -/

/-- `shell_cmd_nano` with the text after the command word. -/
def shellCmdNano (args : List Byte) : Console ω :=
  match shellGetToken args 48 with
  | none => c
  | some (name, rest) =>
    if shellSkipSpaces rest ≠ [] then c
    else
      let nano := c.nano.openName name
      let (raw, world) := S.readFile nano.currentFilename.text c.world
      { c with nano := nano.nanoOpen raw, world }

def shellCmdLogout : Console ω :=
  let (auth, world) := authLogout S c.auth c.world
  { c with auth, world }

def shellExecute : Console ω :=
  let line := c.shell.commandLine.setByte c.shell.commandLength 0
  let c := { c with shell := { c.shell with commandLine := line }.shellSaveHistory }
  if stringEquals line.text (ascii "clear") then
    { c with shell := { c.shell with commandLength := 0, cursorPosition := 0, historyPosition := -1 } }
  else if stringEquals line.text (ascii "logout") then c.shellCmdLogout S
  else if stringStartsWith line.text (ascii "nano ") then c.shellCmdNano S (line.text.drop 5)
  else { c with world := S.command line.text c.world }

/-- `shell_keyboard_enter`: each of its three ways out leaves an empty line. -/
def shellKeyboardEnter : Console ω :=
  let c := c.shellExecute S
  { c with shell := c.shell.emptyLine }

def nanoKeyboardEnter : Console ω :=
  if c.nano.active = false then c
  else if c.nano.promptActive then
    let nano := c.nano.promptEnter
    let (ok, world) := S.replaceFile nano.currentFilename.text nano.grid.bufferSave c.world
    { c with nano := nano.promptSaved ok, world }
  else { c with nano := { c.nano with grid := c.nano.grid.splitLine } }

def authEnter : Console ω :=
  let (auth, world, session) := authKeyboardEnter S c.auth c.world
  { c with auth, world, shell := if session then c.shell.shellInit else c.shell }

/-! ## Dispatch -/

/-- The owner of the keyboard when Ctrl is not held. -/
def mode : Owner :=
  if c.auth.authLoginActive then .auth else if c.nano.active then .nano else .shell

/-- Whose handler a key enters, if any: the dispatch functions, and the Ctrl branch of
`keyboard_handler`, which asks `nano_active` alone. -/
def target : Key → Option Owner
  | .ctrl _ => if c.nano.active then some .nano else none
  | .character _ | .enter | .backspace => some c.mode
  | .delete | .left | .right | .up | .down | .home | .end =>
    if c.auth.authLoginActive then none else some c.mode

/-- The handler of an owner for a key. -/
def handle : Owner → Key → Console ω
  | .auth, .character ch => { c with auth := c.auth.authKeyboardCharacter ch }
  | .auth, .backspace => { c with auth := c.auth.authKeyboardBackspace }
  | .auth, .enter => c.authEnter S
  | .auth, _ => c
  | .nano, .character ch => { c with nano := c.nano.nanoKeyboardCharacter ch }
  | .nano, .enter => c.nanoKeyboardEnter S
  | .nano, .backspace => { c with nano := c.nano.nanoKeyboardBackspace }
  | .nano, .delete => { c with nano := c.nano.nanoKeyboardDelete }
  | .nano, .left => { c with nano := c.nano.nanoKeyboardLeft }
  | .nano, .right => { c with nano := c.nano.nanoKeyboardRight }
  | .nano, .up => { c with nano := c.nano.nanoKeyboardUp }
  | .nano, .down => { c with nano := c.nano.nanoKeyboardDown }
  | .nano, .home => { c with nano := c.nano.nanoKeyboardHome }
  | .nano, .end => { c with nano := c.nano.nanoKeyboardEnd }
  | .nano, .ctrl letter => { c with nano := c.nano.nanoKeyboardCtrl letter }
  | .shell, .character ch => { c with shell := c.shell.shellKeyboardCharacter ch }
  | .shell, .enter => c.shellKeyboardEnter S
  | .shell, .backspace => { c with shell := c.shell.shellKeyboardBackspace }
  | .shell, .delete => { c with shell := c.shell.shellKeyboardDelete }
  | .shell, .left => { c with shell := c.shell.shellKeyboardLeft }
  | .shell, .right => { c with shell := c.shell.shellKeyboardRight }
  | .shell, .up => { c with shell := c.shell.shellKeyboardUp }
  | .shell, .down => { c with shell := c.shell.shellKeyboardDown }
  | .shell, .home => { c with shell := c.shell.shellKeyboardHome }
  | .shell, .end => { c with shell := c.shell.shellKeyboardEnd }
  | .shell, .ctrl _ => c

/-- The flags of the decoder after a byte. -/
def decoded (scancode : Byte) : Console ω := { c with keyboard := (c.keyboard.decode scancode).1 }

/-- The handler that `keyboard_handler` enters on a byte. -/
def entered (scancode : Byte) : Option (Owner × Key) :=
  (c.keyboard.decode scancode).2.bind fun key => (c.target key).map fun owner => (owner, key)

def keyboardHandler (scancode : Byte) : Console ω :=
  match c.entered scancode with
  | none => c.decoded scancode
  | some (owner, key) => (c.decoded scancode).handle S owner key

/-- The state after a sequence of scancode bytes. -/
def keyboardRun (scancodes : List Byte) : Console ω := scancodes.foldl (keyboardHandler S) c

end Console

/-- The static variables when `auth_start` is called at the end of the boot, with a database
loaded by `auth_init`. -/
def consoleBoot {ω : Type} (db : AuthDatabase) (w : ω) : Console ω where
  keyboard := keyboardInit
  auth := ⟨db, true, .inactive, fun _ => 0, 0, fun _ => 0, fun _ => 0, false, fun _ => 0⟩
  shell := blankShell
  nano := blankNano
  world := w

/-- The state after `auth_start`. -/
def Console.start {ω : Type} (S : Services ω) (db : AuthDatabase) (w : ω) : Console ω :=
  let c := consoleBoot db w
  { c with auth := (authStart S c.auth c.world).1, world := (authStart S c.auth c.world).2 }

end SpectreOS

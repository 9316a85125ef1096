/-
Processes (process.c): a table over the threads, with the file handles each process has
registered. A process runs whenever its thread is dispatched; what it can do here is open a file,
register the handle, close it, and return from its entry function, upon which
`process_trampoline` closes what it registered. The handle table is that of fs.c, on any device.

Beside the code's own state the model keeps who has opened which handle and which handles a
process has passed to `process_register_fd` and not closed since; no function reads these.
-/
import SpectreOS.Fs.Persist
import SpectreOS.Lib.Trace
import SpectreOS.Sched.Switch

namespace SpectreOS

open BlockIO

abbrev processMax : Nat := 16
abbrev processMaxFds : Nat := 4

/-- A `process_t`; `fds` are the first `fd_count` entries of the source's array. -/
structure Process where
  pid : Nat
  ppid : Nat
  threadIndex : Fin threadMax
  entry : Word
  fds : List Int
  inUse : Bool

/-- The static variables of process.c with those of thread.c and the filesystem. At most 16 pids
are ever handed out, so `next_pid` does not wrap. -/
structure System (δ : Type) where
  threads : Threads
  processes : Fin processMax → Process
  nextPid : Nat
  fs : Conf FsMem δ
  owner : Nat → Option (Fin processMax)
  passed : Fin processMax → List Int

namespace System

variable {δ : Type} (s : System δ)

def processFindByPid (pid : Nat) : Option (Fin processMax) :=
  if pid = 0 then none
  else (List.finRange processMax).find? fun i => (s.processes i).inUse && (s.processes i).pid == pid

def processFindByThreadIndex (t : Fin threadMax) : Option (Fin processMax) :=
  (List.finRange processMax).find? fun i => (s.processes i).inUse && (s.processes i).threadIndex == t

def setProcess (i : Fin processMax) (p : Process) : System δ :=
  { s with processes := Function.update s.processes i p }

/-- `process_create`; `trampoline` is the address of `process_trampoline`. -/
def processCreate (base trampoline entry : Word) (ppid : Nat) : System δ :=
  if entry = 0 then s
  else match (List.finRange processMax).find? fun i => !(s.processes i).inUse with
    | none => s
    | some slot =>
      if trampoline = 0 then s
      else match firstUnused s.threads with
        | none => s
        | some t =>
          { s with
            threads := (threadCreate base trampoline s.threads).2
            processes := Function.update s.processes slot ⟨s.nextPid, ppid, t, entry, [], true⟩
            nextPid := s.nextPid + 1 }

def processRegisterFd (pid : Nat) (fd : Int) : System δ :=
  match s.processFindByPid pid with
  | none => s
  | some i =>
    if (s.processes i).fds.length ≥ processMaxFds then s
    else s.setProcess i { s.processes i with fds := (s.processes i).fds ++ [fd] }

def processGetCurrentPid : Nat :=
  match s.threads.currentThread with
  | none => 0
  | some t =>
    match s.processFindByThreadIndex t with
    | none => 0
    | some i => (s.processes i).pid

variable (D : Device δ Sector)

/-- The loop of `process_trampoline` over the registered handles. -/
def closeAll (fds : List Int) (c : Conf FsMem δ) : Conf FsMem δ :=
  fds.foldl (fun c fd => ((fsClose fd).run D c).2) c

/-- `process_trampoline` after the entry function has returned. -/
def processTrampoline : System δ :=
  match s.threads.currentThread.bind s.processFindByThreadIndex with
  | none => { s with threads := threadExit s.threads }
  | some i =>
    { s.setProcess i { s.processes i with fds := [] } with
      fs := closeAll D (s.processes i).fds s.fs
      threads := threadExit s.threads }

end System

/-- What the process in a slot does, or the creation of another process. -/
inductive ProcAct where
  | create (entry : Word) (ppid : Nat)
  | open (i : Fin processMax) (name : CStr)
  | register (i : Fin processMax) (fd : Nat)
  | close (i : Fin processMax) (fd : Nat)
  | exit (i : Fin processMax)

section Step

variable {δ : Type} (D : Device δ Sector) (base trampoline : Word)

/-- The process in slot `i` gets the processor. -/
def System.resume (s : System δ) (i : Fin processMax) : Option (System δ) :=
  if (s.processes i).inUse then
    (dispatch s.threads (s.processes i).threadIndex).map fun threads => { s with threads }
  else none

/-- One step. A process registers and closes handles it has open, with its own pid. -/
def procStep (s : System δ) : ProcAct → Option (System δ)
  | .create entry ppid => some (s.processCreate base trampoline entry ppid)
  | .open i name => (s.resume i).map fun s =>
      let (fd, fs) := (fsOpen name).run D s.fs
      { s with fs, owner := if 0 ≤ fd then Function.update s.owner fd.toNat (some i) else s.owner }
  | .register i fd =>
    if s.owner fd = some i then (s.resume i).map fun s =>
      { s.processRegisterFd s.processGetCurrentPid fd with
        passed := Function.update s.passed i ((fd : Int) :: s.passed i) }
    else none
  | .close i fd =>
    if s.owner fd = some i then (s.resume i).map fun s =>
      { s with
        fs := ((fsClose fd).run D s.fs).2
        owner := Function.update s.owner fd none
        passed := Function.update s.passed i ((s.passed i).filter (· ≠ (fd : Int))) }
    else none
  | .exit i => (s.resume i).map fun s =>
      { s.processTrampoline D with
        owner := fun fd => if (fd : Int) ∈ (s.processes i).fds then none else s.owner fd
        passed := Function.update s.passed i [] }

/-- A system in which no process has been created yet and no process has a handle. -/
def System.start (threads : Threads) (fs : Conf FsMem δ) : System δ where
  threads := threads
  processes := fun _ => ⟨0, 0, 0, 0, [], false⟩
  nextPid := 1
  fs := fs
  owner := fun _ => none
  passed := fun _ => []

end Step

end SpectreOS

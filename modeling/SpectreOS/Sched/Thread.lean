/-
The thread table (thread.c). The statics of the file are one record; a function that walks the
table is a search over the 32 slots in index order. What a thread does between two timer
interrupts is not here: only what these functions read and write.
-/
import Mathlib.Tactic

namespace SpectreOS

abbrev Word := BitVec 32

inductive ThreadState where
  | unused
  | ready
  | running
  | blocked
  | terminated
  deriving DecidableEq, Repr

abbrev threadMax : Nat := 32

instance : NeZero threadMax := ⟨by decide⟩

/-- A `thread_t`; the stack is its 1024 words, lowest address first. The fields `priority` and
`creation_order` are never read or written. -/
structure Thread where
  id : Nat
  state : ThreadState
  savedEsp : Word
  switches : Word
  runs : Word
  stack : Nat → Word

/-- The static variables of thread.c; `current_thread` is `none` for the source's -1. -/
structure Threads where
  threads : Fin threadMax → Thread
  threadCount : Word
  currentThread : Option (Fin threadMax)

/-- The static variables before `thread_init`. -/
def blankThreads : Threads := ⟨fun _ => ⟨0, .unused, 0, 0, 0, fun _ => 0⟩, 0, none⟩

namespace Threads

def setThread (s : Threads) (i : Fin threadMax) (t : Thread) : Threads :=
  { s with threads := Function.update s.threads i t }

def setState (s : Threads) (i : Fin threadMax) (state : ThreadState) : Threads :=
  s.setThread i { s.threads i with state := state }

end Threads

/-! ## Initial stacks -/

abbrev initialEflags : Word := 0x202

abbrev kernelCodeSelector : Word := 0x08

/-- What `build_initial_stack` pushes, first push first: the frame `iret` pops, the error code and
the interrupt number, and the eight registers of `popa`. -/
def initialFrame (entry : Word) : List Word :=
  [initialEflags, kernelCodeSelector, entry, 0, 32, 0, 0, 0, 0, 0, 0, 0, 0]

/-- `*--sp = word`, with `sp` an index into the words of the stack. -/
def push (at_ : Nat × (Nat → Word)) (word : Word) : Nat × (Nat → Word) :=
  (at_.1 - 1, Function.update at_.2 (at_.1 - 1) word)

/-- `&threads[i].stack[word]`: a `thread_t` has 4124 bytes and its stack starts at byte 28. -/
def stackAddress (base : Word) (i : Fin threadMax) (word : Nat) : Word :=
  base + BitVec.ofNat 32 (4124 * i + 28 + 4 * word)

def buildInitialStack (base : Word) (i : Fin threadMax) (thread : Thread) (entry : Word) : Thread :=
  let (sp, stack) := (initialFrame entry).foldl push (1024, thread.stack)
  { thread with stack, savedEsp := stackAddress base i sp }

/-- Where the first switch to a thread finds its frame: 13 words below the end of its stack. -/
def initialEsp (base : Word) (i : Fin threadMax) : Word := stackAddress base i 1011

/-! ## Threads -/

/-- `thread_init`. Only the stacks are left as they were. -/
def threadInit (s : Threads) : Threads where
  threads i :=
    { id := if i = 0 then 1 else 0
      state := if i = 0 then .running else .unused
      savedEsp := 0
      switches := 0
      runs := 0
      stack := (s.threads i).stack }
  threadCount := 1
  currentThread := some 0

/-- The first unused slot after the bootstrap thread's. -/
def firstUnused (s : Threads) : Option (Fin threadMax) :=
  ((List.finRange threadMax).drop 1).find? fun i => (s.threads i).state == .unused

/-- `thread_create`; `base` is the address of the table and `entry` a function's address. -/
def threadCreate (base entry : Word) (s : Threads) : Int × Threads :=
  if entry = 0 then (-1, s)
  else match firstUnused s with
    | none => (-1, s)
    | some i =>
      let thread := { s.threads i with id := i + 1, state := .ready, switches := 0, runs := 0 }
      (i + 1, { s.setThread i (buildInitialStack base i thread entry) with threadCount := s.threadCount + 1 })

/-- What `thread_exit` does before it halts for good. -/
def threadExit (s : Threads) : Threads :=
  match s.currentThread with
  | none => s
  | some i => s.setState i .terminated

def threadGet (s : Threads) (i : Fin threadMax) : Option Thread :=
  if (s.threads i).state = .unused then none else some (s.threads i)

def threadGetState (s : Threads) (i : Fin threadMax) : ThreadState := (s.threads i).state

def threadSetCurrent (s : Threads) (i : Fin threadMax) : Threads := { s with currentThread := some i }

def threadBlockCurrent (s : Threads) : Threads :=
  match s.currentThread with
  | none => s
  | some i => if (s.threads i).state = .running then s.setState i .blocked else s

/-- The body shared by `thread_unblock`, `thread_wake` and `thread_wake_one`: a blocked thread
becomes ready, any other keeps its state. -/
def unblockAt (s : Threads) (i : Fin threadMax) : Threads :=
  if (s.threads i).state = .blocked then s.setState i .ready else s

def threadUnblock (index : Nat) (s : Threads) : Threads :=
  if h : index < threadMax then unblockAt s ⟨index, h⟩ else s

/-- `thread_wake`, whose argument is a thread's id, one more than its index. -/
def threadWake (threadId : Nat) (s : Threads) : Threads :=
  if threadId = 0 then s
  else if h : threadId - 1 < threadMax then unblockAt s ⟨threadId - 1, h⟩ else s

def threadWakeOne (s : Threads) : Threads :=
  match (List.finRange threadMax).find? fun i => (s.threads i).state == .blocked with
  | none => s
  | some i => s.setState i .ready

def threadRecordRun (s : Threads) (i : Fin threadMax) : Threads :=
  if (s.threads i).state = .unused then s
  else s.setThread i { s.threads i with runs := (s.threads i).runs + 1 }

def threadRecordSwitch (s : Threads) (i : Fin threadMax) : Threads :=
  if (s.threads i).state = .unused then s
  else s.setThread i { s.threads i with switches := (s.threads i).switches + 1 }

end SpectreOS

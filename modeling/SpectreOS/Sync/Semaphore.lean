/-
Semaphores (sync.c), statement by statement: a thread inside `semaphore_wait` or
`semaphore_signal` is at the statement it executes next, with the local variables that are live
there, and a timer tick may come between any two statements. The thread that executes is the
current one of the scheduler. `spinlock_acquire` spins on an atomic exchange, so a failed attempt
is a step that changes nothing.
-/
import SpectreOS.Lib.Trace
import SpectreOS.Sched.Switch

namespace SpectreOS

open ThreadState

abbrev syncWaitersMax : Nat := 32

/-- A `semaphore_t`; the lock's word is 0 or 1. -/
structure Semaphore where
  count : Int
  locked : Bool
  waiters : Nat → Nat
  waiterCount : Nat

def semaphoreInit (initialCount : Int) : Semaphore := ⟨initialCount, false, fun _ => 0, 0⟩

/-- A 32-bit `count++`. -/
def increment (count : Int) : Int := Int.bmod (count + 1) (2 ^ 32)

/-- The statement a thread executes next. -/
inductive Point where
  | out
  | waitAcquire
  | waitTest
  | waitTake
  | waitTakeRelease
  | waitCurrent
  | waitRoom (current : Option (Fin threadMax))
  | waitEnqueue (current : Fin threadMax)
  | waitBlock (current : Fin threadMax)
  | waitRelease (current : Fin threadMax)
  | waitHalt (current : Fin threadMax)
  | waitFullRelease
  | waitPause
  | signalAcquire
  | signalTest
  | signalFirst
  | signalShift (threadId i : Nat)
  | signalDecrement (threadId : Nat)
  | signalUnblock (threadId : Nat)
  | signalAdd
  | signalRelease
  deriving DecidableEq

namespace Point

/-- Whether the thread is between taking the lock and releasing it. -/
def holds : Point → Bool
  | out | waitAcquire | waitHalt _ | waitPause | signalAcquire => false
  | _ => true

/-- The local variable `current`, where it is live and not -1. -/
def index : Point → Option (Fin threadMax)
  | waitRoom c => c
  | waitEnqueue c | waitBlock c | waitRelease c | waitHalt c => some c
  | _ => none

/-- The statements a blocked thread can be at: it still has to release the lock, or it halts until
it is woken. -/
def parked : Point → Bool
  | waitRelease _ | waitHalt _ => true
  | _ => false

end Point

/-- Where every thread is, beside the scheduler and the semaphore. -/
structure SyncState where
  sched : Scheduler
  sem : Semaphore
  point : Fin threadMax → Point

/-- What one statement does: the statement after it, the semaphore and the thread table. -/
def statement (p : Point) (sem : Semaphore) (s : Threads) : Point × Semaphore × Threads :=
  match p with
  | .out => (.out, sem, s)
  | .waitAcquire => if sem.locked then (.waitAcquire, sem, s) else (.waitTest, { sem with locked := true }, s)
  | .waitTest => (if sem.count > 0 then .waitTake else .waitCurrent, sem, s)
  | .waitTake => (.waitTakeRelease, { sem with count := sem.count - 1 }, s)
  | .waitTakeRelease => (.out, { sem with locked := false }, s)
  | .waitCurrent => (.waitRoom s.currentThread, sem, s)
  | .waitRoom none => (.waitFullRelease, sem, s)
  | .waitRoom (some c) => (if sem.waiterCount < syncWaitersMax then .waitEnqueue c else .waitFullRelease, sem, s)
  | .waitEnqueue c =>
    (.waitBlock c,
      { sem with
        waiters := Function.update sem.waiters sem.waiterCount c
        waiterCount := sem.waiterCount + 1 }, s)
  | .waitBlock c => (.waitRelease c, sem, threadBlockCurrent s)
  | .waitRelease c => (.waitHalt c, { sem with locked := false }, s)
  | .waitHalt c => (if threadGetState s c = .blocked then .waitHalt c else .waitAcquire, sem, s)
  | .waitFullRelease => (.waitPause, { sem with locked := false }, s)
  | .waitPause => (.waitAcquire, sem, s)
  | .signalAcquire => if sem.locked then (.signalAcquire, sem, s) else (.signalTest, { sem with locked := true }, s)
  | .signalTest => (if sem.waiterCount > 0 then .signalFirst else .signalAdd, sem, s)
  | .signalFirst => (.signalShift (sem.waiters 0) 1, sem, s)
  | .signalShift id i =>
    if i < sem.waiterCount then
      (.signalShift id (i + 1), { sem with waiters := Function.update sem.waiters (i - 1) (sem.waiters i) }, s)
    else (.signalDecrement id, sem, s)
  | .signalDecrement id => (.signalUnblock id, { sem with waiterCount := sem.waiterCount - 1 }, s)
  | .signalUnblock id => (.signalRelease, sem, threadUnblock id s)
  | .signalAdd => (.signalRelease, { sem with count := increment sem.count }, s)
  | .signalRelease => (.out, { sem with locked := false }, s)

/-- A timer tick, a call of `thread_create` or `scheduler_set_policy`, or a move of the current
thread: it calls one of the two functions, or executes its next statement. -/
inductive SyncAct where
  | tick (currentEsp : Word)
  | create (entry : Word)
  | setPolicy (policy : Nat)
  | callWait
  | callSignal
  | execute
  deriving DecidableEq

def SyncState.moveTo (s : SyncState) (t : Fin threadMax) (p : Point) : SyncState :=
  { s with point := Function.update s.point t p }

/-- Thread `t` executes its next statement. -/
def SyncState.execute (s : SyncState) (t : Fin threadMax) : SyncState :=
  let next := statement (s.point t) s.sem s.sched.toThreads
  { sched := { s.sched with toThreads := next.2.2 }
    sem := next.2.1
    point := Function.update s.point t next.1 }

section Step

variable (base : Word)

/-- One action; a thread calls one of the functions only from outside both. -/
def syncStep (s : SyncState) : SyncAct → Option SyncState
  | .tick esp => some { s with sched := schedStep base s.sched (.tick esp) }
  | .create entry => some { s with sched := schedStep base s.sched (.create entry) }
  | .setPolicy policy => some { s with sched := schedStep base s.sched (.setPolicy policy) }
  | .callWait => s.sched.currentThread.bind fun t =>
      if s.point t = .out then some (s.moveTo t .waitAcquire) else none
  | .callSignal => s.sched.currentThread.bind fun t =>
      if s.point t = .out then some (s.moveTo t .signalAcquire) else none
  | .execute => s.sched.currentThread.bind fun t =>
      if s.point t = .out then none else some (s.execute t)

end Step

/-- Boot, with a semaphore just initialised and every thread outside it. -/
def syncBoot (s₀ : Threads) (initialCount : Int) : SyncState :=
  ⟨schedBoot s₀, semaphoreInit initialCount, fun _ => .out⟩

end SpectreOS

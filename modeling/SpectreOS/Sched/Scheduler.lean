/-
The scheduler (scheduler.c): the three selectors and `scheduler_tick`, which the timer interrupt
calls with the stack pointer of the thread it interrupted and which answers the stack pointer to
continue with. A run is any sequence of ticks and of the calls of thread.c that move a thread
between states.
-/
import SpectreOS.Sched.Thread

namespace SpectreOS

inductive Policy where
  | roundRobin
  | fcfs
  | priority
  deriving DecidableEq, Repr

/-- The static variables of scheduler.c beside those of thread.c. -/
structure Scheduler extends Threads where
  schedulerSwitches : Word
  schedulerPolicy : Policy

/-! ## Selection -/

def isReady (s : Threads) (i : Fin threadMax) : Bool :=
  match threadGet s i with
  | none => false
  | some thread => thread.state == .ready

/-- The slot looked at in round `offset` of `find_round_robin`. -/
def roundRobinIndex (current : Option (Fin threadMax)) (offset : Nat) : Fin threadMax :=
  match current with
  | none => Fin.ofNat threadMax (offset - 1)
  | some c => Fin.ofNat threadMax (c + offset)

def findRoundRobin (s : Threads) : Option (Fin threadMax) :=
  ((List.range' 1 threadMax).map (roundRobinIndex s.currentThread)).find? (isReady s)

def findFcfs (s : Threads) : Option (Fin threadMax) := (List.finRange threadMax).find? (isReady s)

/-- One round of `find_priority`: a smaller id is a higher priority. -/
def prefer (s : Threads) (selected : Option (Fin threadMax)) (i : Fin threadMax) : Option (Fin threadMax) :=
  if isReady s i then
    match selected with
    | none => some i
    | some j => if (s.threads i).id < (s.threads j).id then some i else some j
  else selected

def findPriority (s : Threads) : Option (Fin threadMax) := (List.finRange threadMax).foldl (prefer s) none

def findNextThread (policy : Policy) (s : Threads) : Option (Fin threadMax) :=
  match policy with
  | .fcfs => findFcfs s
  | .priority => findPriority s
  | .roundRobin => findRoundRobin s

/-! ## The timer -/

/-- `scheduler_init`. -/
def schedulerInit (s : Threads) : Scheduler :=
  { s with schedulerSwitches := 0, schedulerPolicy := .roundRobin }

/-- The first half of `scheduler_tick`: the interrupted thread's context is saved, and it is
demoted if it was running. -/
def saveCurrent (currentEsp : Word) (s : Threads) : Threads :=
  match s.currentThread with
  | none => s
  | some i =>
    match threadGet s i with
    | none => s
    | some current =>
      s.setThread i { current with
        savedEsp := currentEsp
        state := if current.state = .running then .ready else current.state }

/-- `scheduler_tick` once the next thread is known. -/
def switchTo (next : Fin threadMax) (s : Scheduler) : Scheduler :=
  let changed := s.currentThread ≠ some next
  let t := if changed then threadRecordSwitch s.toThreads next else s.toThreads
  let t := threadSetCurrent t next
  let t := t.setState next .running
  { threadRecordRun t next with
    schedulerSwitches := if changed then s.schedulerSwitches + 1 else s.schedulerSwitches
    schedulerPolicy := s.schedulerPolicy }

/-- `scheduler_tick`: the stack pointer to continue with, and the scheduler after the tick. -/
def schedulerTick (currentEsp : Word) (s : Scheduler) : Word × Scheduler :=
  let saved : Scheduler := { s with toThreads := saveCurrent currentEsp s.toThreads }
  match findNextThread saved.schedulerPolicy saved.toThreads with
  | none => (currentEsp, saved)
  | some next =>
    match threadGet saved.toThreads next with
    | none => (currentEsp, saved)
    | some selected => (selected.savedEsp, switchTo next saved)

/-- `scheduler_set_policy`, whose argument is the number of a policy. -/
def schedulerSetPolicy (policy : Nat) (s : Scheduler) : Scheduler :=
  match policy with
  | 0 => { s with schedulerPolicy := .roundRobin }
  | 1 => { s with schedulerPolicy := .fcfs }
  | 2 => { s with schedulerPolicy := .priority }
  | _ => s

/-- The interrupted thread is demoted if it was running. -/
def demoteCurrent (s : Threads) : Threads :=
  match s.currentThread with
  | none => s
  | some c => if (s.threads c).state = .running then s.setState c .ready else s

/-- Thread `t` gets the processor, if it is ready once the current thread is demoted: what some
ticks with some policy do to the states and the current index, for developments in which any order
of the threads is possible and the stacks play no part. -/
def dispatch (s : Threads) (t : Fin threadMax) : Option Threads :=
  if ((demoteCurrent s).threads t).state = .ready then
    some ((threadSetCurrent (demoteCurrent s) t).setState t .running)
  else none

/-! ## Runs -/

/-- What may happen to the tables: a call of thread.c or scheduler.c by the thread that runs or by
an interrupt handler, or a timer interrupt. -/
inductive SchedAct where
  | create (entry : Word)
  | blockCurrent
  | exit
  | unblock (index : Nat)
  | wake (threadId : Nat)
  | wakeOne
  | setPolicy (policy : Nat)
  | tick (currentEsp : Word)
  deriving DecidableEq

/-- A call of thread.c leaves scheduler.c's statics alone. -/
def Scheduler.onThreads (f : Threads → Threads) (s : Scheduler) : Scheduler :=
  { s with toThreads := f s.toThreads }

section Run

variable (base : Word)

def schedStep (s : Scheduler) : SchedAct → Scheduler
  | .create entry => s.onThreads fun t => (threadCreate base entry t).2
  | .blockCurrent => s.onThreads threadBlockCurrent
  | .exit => s.onThreads threadExit
  | .unblock index => s.onThreads (threadUnblock index)
  | .wake threadId => s.onThreads (threadWake threadId)
  | .wakeOne => s.onThreads threadWakeOne
  | .setPolicy policy => schedulerSetPolicy policy s
  | .tick currentEsp => (schedulerTick currentEsp s).2

def schedRun (s : Scheduler) (acts : List SchedAct) : Scheduler := acts.foldl (schedStep base) s

theorem schedRun_append (s : Scheduler) (as bs : List SchedAct) :
    schedRun base s (as ++ bs) = schedRun base (schedRun base s as) bs := List.foldl_append

end Run

/-- Boot: `thread_init` and `scheduler_init` over whatever the tables held. -/
def schedBoot (s : Threads) : Scheduler := schedulerInit (threadInit s)

end SpectreOS

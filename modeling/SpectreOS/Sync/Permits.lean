/-
Permits of a semaphore. What `semaphore_wait` and `semaphore_signal` do between taking and
releasing the lock is one atomic step each, `waitAttempt` and `signalBody`; running the
statements of sync.c without a tick in between computes them. Over these steps, in any order by
any threads, the permits are counted.
-/
import SpectreOS.Sync.Semaphore

namespace SpectreOS

open ThreadState

/-! ## The atomic steps -/

/-- How a pass of the loop of `semaphore_wait` ends: it returns, the thread is queued and blocked,
or the queue is full and the thread tries again. -/
inductive Attempt where
  | taken
  | queued (current : Fin threadMax)
  | full
  deriving DecidableEq

/-- Where the pass leaves the thread. -/
def Attempt.point : Attempt → Point
  | taken => .out
  | queued c => .waitHalt c
  | full => .waitPause

/-- One pass of the loop of `semaphore_wait`. -/
def waitAttempt (sem : Semaphore) (s : Threads) : Attempt × Semaphore × Threads :=
  if sem.count > 0 then (.taken, { sem with count := sem.count - 1 }, s)
  else match s.currentThread with
    | none => (.full, sem, s)
    | some c =>
      if sem.waiterCount < syncWaitersMax then
        (.queued c,
          { sem with
            waiters := Function.update sem.waiters sem.waiterCount c
            waiterCount := sem.waiterCount + 1 }, threadBlockCurrent s)
      else (.full, sem, s)

/-- The waiters with the first one taken out and the others moved up. -/
def shifted (waiters : Nat → Nat) (n : Nat) (i : Nat) : Nat := if i + 1 < n then waiters (i + 1) else waiters i

/-- The body of `semaphore_signal`. -/
def signalBody (sem : Semaphore) (s : Threads) : Semaphore × Threads :=
  if sem.waiterCount > 0 then
    ({ sem with waiters := shifted sem.waiters sem.waiterCount, waiterCount := sem.waiterCount - 1 },
      threadUnblock (sem.waiters 0) s)
  else ({ sem with count := increment sem.count }, s)

/-- `n` statements of one thread with nothing in between. -/
def statements (n : Nat) (c : Point × Semaphore × Threads) : Point × Semaphore × Threads :=
  (fun c : Point × Semaphore × Threads => statement c.1 c.2.1 c.2.2)^[n] c

theorem statements_add (m n : Nat) (c : Point × Semaphore × Threads) :
    statements (m + n) c = statements m (statements n c) := Function.iterate_add_apply ..

/-- A pass of the wait loop that is not interrupted is one atomic step. -/
theorem statements_waitAttempt {sem : Semaphore} (hl : sem.locked = false) (s : Threads) :
    ∃ n, statements n (.waitAcquire, sem, s) = ((waitAttempt sem s).1.point, (waitAttempt sem s).2) := by
  obtain ⟨count, locked, waiters, waiterCount⟩ := sem
  cases hl
  unfold waitAttempt
  by_cases hc : count > 0
  · exact ⟨4, by simp [statements, statement, hc, Attempt.point]⟩
  · cases hcur : s.currentThread with
    | none => exact ⟨5, by simp [statements, statement, hc, hcur, Attempt.point]⟩
    | some c =>
      by_cases hw : waiterCount < syncWaitersMax
      · exact ⟨7, by simp [statements, statement, hc, hcur, hw, Attempt.point]⟩
      · exact ⟨5, by simp [statements, statement, hc, hcur, hw, Attempt.point]⟩

/-- The loop that moves the waiters up, from index `i` on. -/
theorem statements_shift (id : Nat) (s : Threads) (sem : Semaphore) (n : Nat) :
    ∀ i, 1 ≤ i → i + n = sem.waiterCount →
      statements (n + 1) (.signalShift id i, sem, s) =
        (.signalDecrement id,
          { sem with waiters := fun j => if i ≤ j + 1 ∧ j + 1 < sem.waiterCount then sem.waiters (j + 1)
              else sem.waiters j }, s) := by
  induction n generalizing sem with
  | zero =>
    intro i hi hn
    have hlt : ¬ i < sem.waiterCount := by omega
    have hw : (fun j => if i ≤ j + 1 ∧ j + 1 < sem.waiterCount then sem.waiters (j + 1) else sem.waiters j) =
        sem.waiters := by
      funext j
      exact if_neg (by omega)
    simp [statements, statement, hlt, hw]
  | succ n ih =>
    intro i hi hn
    have hlt : i < sem.waiterCount := by omega
    rw [statements_add (n + 1) 1]
    have hone : statements 1 (.signalShift id i, sem, s) = (.signalShift id (i + 1),
        { sem with waiters := Function.update sem.waiters (i - 1) (sem.waiters i) }, s) := by
      simp [statements, statement, hlt]
    rw [hone, ih _ (i + 1) (by omega) (by simp only; omega)]
    simp only [Prod.mk.injEq, Semaphore.mk.injEq, true_and, and_true]
    funext j
    -- round `i` wrote entry `i - 1`, which the later rounds read no more
    by_cases hj : j = i - 1
    · subst hj
      rw [Nat.sub_add_cancel hi, Function.update_self, if_neg (fun h => absurd h.1 (by omega)), if_pos ⟨le_rfl, hlt⟩]
    · rw [Function.update_of_ne hj]
      by_cases hj' : i + 1 ≤ j + 1 ∧ j + 1 < sem.waiterCount
      · rw [if_pos hj', if_pos ⟨by omega, hj'.2⟩, Function.update_of_ne (by omega)]
      · rw [if_neg hj', if_neg (by omega)]

/-- A call of `semaphore_signal` that is not interrupted is one atomic step. -/
theorem statements_signalBody {sem : Semaphore} (hl : sem.locked = false) (s : Threads) :
    ∃ n, statements n (.signalAcquire, sem, s) = (.out, signalBody sem s) := by
  obtain ⟨count, locked, waiters, waiterCount⟩ := sem
  cases hl
  unfold signalBody
  by_cases hw : waiterCount > 0
  · refine ⟨3 + ((waiterCount - 1 + 1) + 3), ?_⟩
    have hfront : statements 3 (.signalAcquire, ⟨count, false, waiters, waiterCount⟩, s) =
        (.signalShift (waiters 0) 1, ⟨count, true, waiters, waiterCount⟩, s) := by
      simp [statements, statement, hw]
    rw [statements_add 3, statements_add, hfront, statements_shift _ _ _ _ 1 le_rfl (by simp only; omega)]
    simp [statements, statement, hw]
    rfl
  · exact ⟨4, by simp [statements, statement, hw]⟩

/-! ## Counting permits -/

/-- The semaphore and the thread table, which threads are inside `semaphore_wait`, and how many
calls of each function have come back. -/
structure Permits where
  threads : Threads
  sem : Semaphore
  waiting : Fin threadMax → Bool
  returned : Nat
  signalled : Nat

/-- A step of thread `t`: a pass of the wait loop, at the call or as a retry, or a signal. -/
inductive PermitAct where
  | attempt (t : Fin threadMax)
  | signal (t : Fin threadMax)
  deriving DecidableEq

def permitStep (s : Permits) : PermitAct → Option Permits
  | .attempt t => (dispatch s.threads t).map fun threads =>
      match waitAttempt s.sem threads with
      | (.taken, sem, threads) =>
        { s with threads, sem, waiting := Function.update s.waiting t false, returned := s.returned + 1 }
      | (_, sem, threads) => { s with threads, sem, waiting := Function.update s.waiting t true }
  | .signal t =>
    if s.waiting t then none
    else (dispatch s.threads t).map fun threads =>
      { s with
        threads := (signalBody s.sem threads).2
        sem := (signalBody s.sem threads).1
        signalled := s.signalled + 1 }

def permitsInit (threads : Threads) (initialCount : Int) : Permits :=
  ⟨threads, semaphoreInit initialCount, fun _ => false, 0, 0⟩

/-- Every thread is outside the semaphore or blocked in its queue. -/
def Permits.Settled (s : Permits) : Prop :=
  ∀ t, s.waiting t = true → (s.threads.threads t).state = .blocked ∧ ∃ i < s.sem.waiterCount, s.sem.waiters i = t

/-- A signal finds nobody queued, and the count has room for one more. -/
def Delivers (s : Permits) (a : PermitAct) : Prop :=
  ∀ t, a = .signal t → s.sem.waiterCount = 0 ∧ s.sem.count < 2 ^ 31 - 1

theorem increment_of_lt {count : Int} (hlo : -2 ^ 31 ≤ count) (hhi : count < 2 ^ 31 - 1) :
    increment count = count + 1 := by
  unfold increment
  rw [Int.bmod_eq_of_le] <;> omega

theorem increment_max : increment (2 ^ 31 - 1) = -2 ^ 31 := by decide

/-- What a step does to the count and to the two numbers of calls that have come back. -/
theorem permitStep_cases {s s' : Permits} {a : PermitAct} (h : permitStep s a = some s') :
    ((∃ t, a = .attempt t) ∧ s'.signalled = s.signalled ∧
      (s.sem.count > 0 ∧ s'.sem.count = s.sem.count - 1 ∧ s'.returned = s.returned + 1 ∨
        s'.sem.count = s.sem.count ∧ s'.returned = s.returned)) ∨
    ((∃ t, a = .signal t) ∧ s'.returned = s.returned ∧ s'.signalled = s.signalled + 1 ∧
      (0 < s.sem.waiterCount ∧ s'.sem.count = s.sem.count ∨
        s.sem.waiterCount = 0 ∧ s'.sem.count = increment s.sem.count)) := by
  cases a with
  | attempt t =>
    obtain ⟨threads, -, rfl⟩ := Option.map_eq_some_iff.1 h
    refine Or.inl ⟨⟨t, rfl⟩, ?_⟩
    unfold waitAttempt
    split
    · rename_i heq
      split at heq
      · rename_i hc
        cases heq
        exact ⟨rfl, Or.inl ⟨hc, rfl, rfl⟩⟩
      · split at heq
        · cases heq
        · split at heq <;> cases heq
    · rename_i heq
      split at heq
      · cases heq
        rename_i h
        exact absurd rfl h
      · split at heq
        · cases heq
          exact ⟨rfl, Or.inr ⟨rfl, rfl⟩⟩
        · split at heq <;> cases heq <;> exact ⟨rfl, Or.inr ⟨rfl, rfl⟩⟩
  | signal t =>
    obtain ⟨-, h⟩ := Option.ite_none_left_eq_some.1 h
    obtain ⟨threads, -, rfl⟩ := Option.map_eq_some_iff.1 h
    refine Or.inr ⟨⟨t, rfl⟩, rfl, rfl, ?_⟩
    unfold signalBody
    split
    · rename_i hw
      exact Or.inl ⟨hw, rfl⟩
    · rename_i hw
      exact Or.inr ⟨by omega, rfl⟩

/-- The permits that signals have lost so far: each signal that met a waiter loses one, and a
count that wraps loses as many as it has values. -/
structure Balance (initialCount : Int) (s : Permits) (lost : Nat) : Prop where
  low : -2 ^ 31 ≤ s.sem.count
  high : s.sem.count ≤ 2 ^ 31 - 1
  sum : s.returned + s.sem.count + lost = initialCount + s.signalled

theorem Balance.step {initialCount : Int} {s s' : Permits} {lost : Nat} {a : PermitAct}
    (h : Balance initialCount s lost) (hs : permitStep s a = some s') :
    ∃ more, Balance initialCount s' (lost + more) ∧ (more = 0 ↔ Delivers s a) := by
  obtain ⟨hlow, hhigh, hsum⟩ := h
  rcases permitStep_cases hs with ⟨⟨t, rfl⟩, hsig, hcase⟩ | ⟨⟨t, rfl⟩, hret, hsig, hcase⟩
  · refine ⟨0, ?_, iff_of_true rfl fun t h => by cases h⟩
    rcases hcase with ⟨hpos, hc, hr⟩ | ⟨hc, hr⟩
    · exact ⟨by omega, by omega, by push_cast [hr, hsig, hc]; omega⟩
    · exact ⟨by omega, by omega, by push_cast [hr, hsig, hc]; omega⟩
  · rcases hcase with ⟨hw, hc⟩ | ⟨hw, hc⟩
    · refine ⟨1, ⟨by omega, by omega, by push_cast [hret, hsig, hc]; omega⟩, ?_⟩
      exact iff_of_false one_ne_zero fun hd => by have := (hd t rfl).1; omega
    · by_cases hmax : s.sem.count < 2 ^ 31 - 1
      · rw [increment_of_lt hlow hmax] at hc
        refine ⟨0, ⟨by omega, by omega, by push_cast [hret, hsig, hc]; omega⟩, iff_of_true rfl ?_⟩
        exact fun u hu => ⟨hw, hmax⟩
      · have hm : s.sem.count = 2 ^ 31 - 1 := by omega
        rw [hm, increment_max] at hc
        refine ⟨2 ^ 32, ⟨by omega, by omega, by push_cast [hret, hsig, hc]; omega⟩, iff_of_false (by omega) ?_⟩
        exact fun hd => hmax (hd t rfl).2

/-- In every interleaving of waits and signals by the threads of a table, the permits handed out
and those left account for the initial count and all signals exactly when every signal found the
queue empty and the count below its maximum. -/
theorem semaphore_permits (threads : Threads) {initialCount : Int} (hlo : 0 ≤ initialCount)
    (hhi : initialCount ≤ 2 ^ 31 - 1) {acts : List PermitAct} {s : Permits}
    (h : Trace.exec permitStep (permitsInit threads initialCount) acts = some s) :
    s.returned + s.sem.count ≥ initialCount + s.signalled ↔
      Trace.Along permitStep Delivers (permitsInit threads initialCount) acts := by
  have key : ∃ lost, Balance initialCount s lost ∧
      (lost = 0 ↔ Trace.Along permitStep Delivers (permitsInit threads initialCount) acts) := by
    induction acts using List.reverseRecOn generalizing s with
    | nil =>
      cases h
      exact ⟨0, ⟨by simp only [permitsInit, semaphoreInit]; omega, hhi, by simp [permitsInit, semaphoreInit]⟩,
        iff_of_true rfl trivial⟩
    | append_singleton acts a ih =>
      obtain ⟨u, hu, hs⟩ := Trace.exec_snoc.1 h
      obtain ⟨lost, hb, hlost⟩ := ih hu
      obtain ⟨more, hb', hmore⟩ := hb.step hs
      refine ⟨lost + more, hb', ?_⟩
      rw [Trace.along_snoc hu, ← hlost, ← hmore]
      omega
  obtain ⟨lost, hb, hlost⟩ := key
  rw [← hlost]
  have := hb.sum
  omega

/-- Two threads, as `thread_create` leaves the table after boot. -/
def twoThreads : Threads := (schedRun 0 (schedBoot blankThreads) [.create 1]).toThreads

/-- A permit taken and given back while nobody waits. -/
theorem semaphore_permits_taken :
    ∃ s, Trace.exec permitStep (permitsInit twoThreads 1) [.attempt 0, .signal 1] = some s ∧
      s.returned + s.sem.count ≥ 1 + (s.signalled : Int) := by
  have h := @semaphore_permits twoThreads 1 (by decide) (by decide) [.attempt 0, .signal 1] _ rfl
  refine ⟨_, rfl, h.2 ⟨nofun, fun s hs => ?_⟩⟩
  cases hs
  exact ⟨fun t _ => ⟨rfl, by decide⟩, fun s hs => trivial⟩

/-- One thread waits on an empty semaphore, the other signals and wakes it, and its retry finds the
count still 0: it is queued again and the signal is gone. -/
theorem semaphore_signal_lost :
    ∃ s, Trace.exec permitStep (permitsInit twoThreads 0) [.attempt 0, .signal 1, .attempt 0] = some s ∧
      s.Settled ∧ ¬ s.returned + s.sem.count ≥ 0 + (s.signalled : Int) := by
  refine ⟨_, rfl, fun t ht => ?_, by decide⟩
  have h0 : t = 0 := by
    by_contra hne
    change Function.update (Function.update (fun _ => false) 0 true) 0 true t = true at ht
    simp [Function.update_of_ne hne] at ht
  subst h0
  exact ⟨rfl, 0, by decide, rfl⟩

end SpectreOS

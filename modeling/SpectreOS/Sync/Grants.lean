/-
How many waits a semaphore lets through, over the single statements of sync.c. Every permit is in
one place: in the count, with a thread that has taken it and has not returned yet, or with a call
of `semaphore_signal` that has not given it back yet. The sum over these places is what bounds the
waits that have returned; the count itself is 32 bits wide, and a signal can carry it over the top.
-/
import SpectreOS.Sync.Permits
import SpectreOS.Sync.Window

namespace SpectreOS

open ThreadState

/-! ## Calls that have returned and calls that have been made -/

/-- The system with the number of waits that have returned, the number of signals that have been
made, and which threads are between the return of a wait and their next signal. -/
structure Grants where
  sync : SyncState
  returned : Nat
  made : Nat
  inside : Fin threadMax → Bool

def grantsBoot (s₀ : Threads) (initialCount : Int) : Grants := ⟨syncBoot s₀ initialCount, 0, 0, fun _ => false⟩

/-- What an action of the current thread `t` does to the numbers of calls. -/
def Grants.count (g : Grants) (t : Fin threadMax) (sync : SyncState) : SyncAct → Grants
  | .callSignal => ⟨sync, g.returned, g.made + 1, Function.update g.inside t false⟩
  | .execute =>
    if g.sync.point t = .waitTakeRelease then ⟨sync, g.returned + 1, g.made, Function.update g.inside t true⟩
    else { g with sync }
  | _ => { g with sync }

theorem Grants.count_sync (g : Grants) (t : Fin threadMax) (sync : SyncState) (a : SyncAct) :
    (g.count t sync a).sync = sync := by
  cases a with
  | execute =>
    simp only [Grants.count]
    split <;> rfl
  | _ => rfl

section Step

variable (base : Word)

def grantStep (g : Grants) (a : SyncAct) : Option Grants :=
  (syncStep base g.sync a).map fun sync =>
    match g.sync.sched.currentThread with
    | none => { g with sync }
    | some t => g.count t sync a

end Step

/-! ## What the places guarantee -/

namespace Point

/-- The test a thread at this statement has made, under the lock it still holds. -/
def Tested (sem : Semaphore) : Point → Prop
  | waitTake => sem.count > 0
  | waitEnqueue _ => sem.waiterCount < syncWaitersMax
  | signalFirst | signalShift .. | signalDecrement _ => sem.waiterCount > 0
  | _ => True

/-- Permits a thread at this statement still owes: taken and not returned with, or not given
back yet. -/
def owes : Point → Nat
  | waitTakeRelease | signalAcquire | signalTest | signalFirst | signalShift .. | signalDecrement _ | signalUnblock _
  | signalAdd => 1
  | _ => 0

end Point

theorem Point.Tested.congr {p : Point} {sem sem' : Semaphore} (h : p.Tested sem) (hc : sem'.count = sem.count)
    (hw : sem'.waiterCount = sem.waiterCount) : p.Tested sem' := by
  unfold Point.Tested at h ⊢
  rwa [hc, hw]

theorem Point.tested_of_unheld {p : Point} (sem : Semaphore) (h : p.holds = false) : p.Tested sem := by
  cases p with
  | out | waitAcquire | waitHalt | waitPause | signalAcquire => trivial
  | _ => cases h

section Statement

variable {p : Point} {sem : Semaphore} (s : Threads)

/-- A statement finds what its thread has tested, and its thread has tested what the next one needs. -/
theorem statement_tested (h : p.Tested sem) : (statement p sem s).1.Tested (statement p sem s).2.1 := by
  cases p with
  | waitTest | signalTest =>
    simp only [statement]
    split
    · assumption
    · trivial
  | waitRoom c =>
    cases c with
    | none => trivial
    | some c =>
      simp only [statement]
      split
      · assumption
      · trivial
  | signalShift id i =>
    simp only [statement]
    split <;> exact h
  | waitAcquire | signalAcquire =>
    simp only [statement]
    split <;> trivial
  | waitHalt c =>
    simp only [statement]
    split <;> trivial
  | signalFirst => exact h
  | _ => trivial

variable (sem) in
/-- Without the lock a statement changes neither the count nor the queue. -/
theorem statement_unheld (h : p.holds = false) :
    (statement p sem s).2.1.count = sem.count ∧ (statement p sem s).2.1.waiterCount = sem.waiterCount := by
  cases p with
  | waitAcquire | signalAcquire =>
    simp only [statement]
    split <;> exact ⟨rfl, rfl⟩
  | out | waitHalt | waitPause => exact ⟨rfl, rfl⟩
  | _ => cases h

/-- The queue never grows over its 32 entries. -/
theorem statement_room (h : p.Tested sem) (hroom : sem.waiterCount ≤ syncWaitersMax) :
    (statement p sem s).2.1.waiterCount ≤ syncWaitersMax := by
  cases p with
  | waitEnqueue c => exact h
  | signalDecrement id => exact (Nat.sub_le ..).trans hroom
  | waitAcquire | signalAcquire | signalShift =>
    simp only [statement]
    split <;> exact hroom
  | waitRoom c => cases c <;> exact hroom
  | _ => exact hroom

variable (sem) in
/-- Two statements change the count. -/
theorem statement_count (hp : p ≠ .waitTake) (hq : p ≠ .signalAdd) :
    (statement p sem s).2.1.count = sem.count := by
  cases p with
  | waitTake => exact absurd rfl hp
  | signalAdd => exact absurd rfl hq
  | waitAcquire | signalAcquire | signalShift =>
    simp only [statement]
    split <;> rfl
  | waitRoom c => cases c <;> rfl
  | _ => rfl

theorem bmod_succ (b : Nat) : increment (Int.bmod b (2 ^ 32)) = Int.bmod (b + 1 : Nat) (2 ^ 32) := by
  unfold increment
  rw [Int.bmod_add_bmod]
  norm_cast

theorem bmod_pred {b : Nat} (h : Int.bmod b (2 ^ 32) > 0) :
    0 < b ∧ Int.bmod b (2 ^ 32) - 1 = Int.bmod (b - 1 : Nat) (2 ^ 32) := by
  have hb : 0 < b := by
    rcases Nat.eq_zero_or_pos b with rfl | hb
    · simp at h
    · exact hb
  refine ⟨hb, ?_⟩
  have hlt := @Int.bmod_lt b (2 ^ 32) (by decide)
  have hself : Int.bmod (Int.bmod b (2 ^ 32) - 1) (2 ^ 32) = Int.bmod b (2 ^ 32) - 1 := by
    rw [Int.bmod_eq_of_le] <;> omega
  rw [Nat.cast_sub hb, Nat.cast_one, ← Int.bmod_sub_bmod, hself]

/-- What the thread owes beside the count. -/
theorem statement_owes (hp : p ≠ .waitTake) :
    (statement p sem s).1.owes + (if p = .waitTakeRelease then 1 else 0) ≤ p.owes := by
  cases p with
  | waitTake => exact absurd rfl hp
  | waitAcquire | signalAcquire | waitTest | signalTest | signalShift | waitHalt =>
    simp only [statement]
    split <;> simp [Point.owes]
  | waitRoom c =>
    cases c with
    | none => simp [statement, Point.owes]
    | some c =>
      simp only [statement]
      split <;> simp [Point.owes]
  | _ => simp [statement, Point.owes]

/-- The count and what the thread owes, before and after a statement. -/
theorem statement_balance {b : Nat} (h : p.Tested sem) (hb : sem.count = Int.bmod b (2 ^ 32)) :
    ∃ b' : Nat, (statement p sem s).2.1.count = Int.bmod b' (2 ^ 32) ∧
      b' + (statement p sem s).1.owes + (if p = .waitTakeRelease then 1 else 0) ≤ b + p.owes := by
  by_cases hp : p = .waitTake
  · subst hp
    have hpos : sem.count > 0 := h
    obtain ⟨hpos, hpred⟩ := bmod_pred (hb ▸ hpos)
    refine ⟨b - 1, by simp only [statement, hb, hpred], ?_⟩
    simp only [statement, Point.owes, reduceCtorEq, if_false]
    omega
  · by_cases hq : p = .signalAdd
    · subst hq
      exact ⟨b + 1, by simp only [statement, hb, bmod_succ], by simp [statement, Point.owes]⟩
    · have := @statement_owes p sem s hp
      exact ⟨b, by rw [statement_count sem s hp hq, hb], by omega⟩

end Statement

/-! ## Every reachable state -/

/-- What all threads owe. -/
def SyncState.owed (s : SyncState) : Nat := ∑ t, (s.point t).owes

theorem sum_update_point {f : Fin threadMax → Point} {t : Fin threadMax} {p : Point} :
    ∑ u, (Function.update f t p u).owes + (f t).owes = ∑ u, (f u).owes + p.owes := by
  have h1 := Finset.add_sum_erase Finset.univ (fun u => (Function.update f t p u).owes) (Finset.mem_univ t)
  have h2 := Finset.add_sum_erase Finset.univ (fun u => (f u).owes) (Finset.mem_univ t)
  have h3 : ∑ u ∈ Finset.univ.erase t, (Function.update f t p u).owes = ∑ u ∈ Finset.univ.erase t, (f u).owes :=
    Finset.sum_congr rfl fun u hu => by rw [Function.update_of_ne (Finset.ne_of_mem_erase hu)]
  simp only [Function.update_self] at h1
  omega

/-- The places of the threads, the queue and the permits of a semaphore that started with `c`. The
count stands for the natural number that it would be without its 32 bits. -/
structure Granting (c : Int) (g : Grants) : Prop where
  locking : Locking g.sync
  tested : ∀ t, (g.sync.point t).Tested g.sync.sem
  room : g.sync.sem.waiterCount ≤ syncWaitersMax
  balance : ∃ b : Nat, g.sync.sem.count = Int.bmod b (2 ^ 32) ∧ g.returned + b + g.sync.owed ≤ c + g.made

theorem grantsBoot_granting (s₀ : Threads) {c : Int} (h : 0 ≤ c) (hmax : c ≤ 2 ^ 31 - 1) :
    Granting c (grantsBoot s₀ c) where
  locking := syncBoot_locking s₀ c
  tested _ := trivial
  room := Nat.zero_le _
  balance := by
    refine ⟨c.toNat, ?_, ?_⟩
    · rw [Int.toNat_of_nonneg h, Int.bmod_eq_of_le] <;> first | rfl | omega
    · simp [grantsBoot, SyncState.owed, syncBoot, Point.owes, h]

section Step

variable {base : Word} {c : Int} {g g' : Grants} {t : Fin threadMax}

theorem count_execute (sync : SyncState) :
    (g.count t sync .execute).made = g.made ∧
      (g.count t sync .execute).returned = g.returned + if g.sync.point t = .waitTakeRelease then 1 else 0 := by
  simp only [Grants.count]
  split <;> exact ⟨rfl, rfl⟩

/-- The current thread executes a statement. -/
theorem Granting.execute (h : Granting c g) (hl : Locking (g.sync.execute t)) :
    Granting c (g.count t (g.sync.execute t) .execute) := by
  obtain ⟨hmade, hret⟩ := @count_execute g t (g.sync.execute t)
  have hsync := g.count_sync t (g.sync.execute t) .execute
  obtain ⟨b, hb, hsum⟩ := h.balance
  obtain ⟨b', hb', hle⟩ := statement_balance g.sync.sched.toThreads (h.tested t) hb
  refine ⟨by rwa [hsync], fun u => ?_, ?_, b', by rw [hsync]; exact hb', ?_⟩
  · rw [hsync]
    by_cases hut : u = t
    · subst hut
      simp only [SyncState.execute, Function.update_self]
      exact statement_tested _ (h.tested u)
    · simp only [SyncState.execute, Function.update_of_ne hut]
      cases hu : (g.sync.point u).holds with
      | false => exact Point.tested_of_unheld _ hu
      | true =>
        have ht : (g.sync.point t).holds = false := by
          rw [← Bool.not_eq_true]
          exact fun ht => hut (h.locking.unique u t hu ht)
        obtain ⟨hc, hw⟩ := statement_unheld g.sync.sem g.sync.sched.toThreads ht
        exact (h.tested u).congr hc hw
  · rw [hsync]
    exact statement_room _ (h.tested t) h.room
  · have hupd := @sum_update_point g.sync.point t (statement (g.sync.point t) g.sync.sem g.sync.sched.toThreads).1
    have howed : (g.sync.execute t).owed + (g.sync.point t).owes = g.sync.owed +
        (statement (g.sync.point t) g.sync.sem g.sync.sched.toThreads).1.owes := hupd
    rw [hsync, hmade, hret]
    generalize (if g.sync.point t = .waitTakeRelease then 1 else 0) = back at hle
    rw [Nat.cast_add]
    omega

/-- A thread outside the semaphore calls one of its functions. -/
theorem Granting.call (h : Granting c g) {p : Point} {inside : Fin threadMax → Bool} (hout : g.sync.point t = .out)
    (hp : p.holds = false) (hl : Locking (g.sync.moveTo t p)) :
    Granting c ⟨g.sync.moveTo t p, g.returned, g.made + p.owes, inside⟩ := by
  obtain ⟨b, hb, hsum⟩ := h.balance
  refine ⟨hl, fun u => ?_, h.room, b, hb, ?_⟩
  · by_cases hut : u = t
    · subst hut
      simpa [SyncState.moveTo] using Point.tested_of_unheld g.sync.sem hp
    · simpa [SyncState.moveTo, Function.update_of_ne hut] using h.tested u
  · have hupd := @sum_update_point g.sync.point t p
    have howed : (g.sync.moveTo t p).owed + (g.sync.point t).owes = g.sync.owed + p.owes := hupd
    have hzero : (g.sync.point t).owes = 0 := by rw [hout]; rfl
    simp only [Nat.cast_add]
    omega

theorem Granting.step (h : Granting c g) {a : SyncAct} (hs : grantStep base g a = some g') : Granting c g' := by
  obtain ⟨sync, hsync, hs⟩ := Option.map_eq_some_iff.1 hs
  have hl := h.locking.step hsync
  have hsched : ∀ {sched}, sync = { g.sync with sched } → Granting c { g with sync } := by
    rintro sched rfl
    exact ⟨hl, h.tested, h.room, h.balance⟩
  cases a with
  | tick | create | setPolicy =>
    cases hsync
    cases hcur : g.sync.sched.currentThread <;> rw [hcur] at hs <;> cases hs <;> exact hsched rfl
  | callWait =>
    obtain ⟨t, ht, hm⟩ := Option.bind_eq_some_iff.1 hsync
    obtain ⟨hout, ⟨⟩⟩ := Option.ite_none_right_eq_some.1 hm
    rw [ht] at hs
    cases hs
    exact h.call hout rfl hl
  | callSignal =>
    obtain ⟨t, ht, hm⟩ := Option.bind_eq_some_iff.1 hsync
    obtain ⟨hout, ⟨⟩⟩ := Option.ite_none_right_eq_some.1 hm
    rw [ht] at hs
    cases hs
    exact h.call hout rfl hl
  | execute =>
    obtain ⟨t, ht, hm⟩ := Option.bind_eq_some_iff.1 hsync
    obtain ⟨-, ⟨⟩⟩ := Option.ite_none_left_eq_some.1 hm
    rw [ht] at hs
    cases hs
    exact h.execute hl

end Step

/-! ## Sections between a wait and a signal -/

/-- A thread signals only after its own wait has returned, once for each wait. -/
def Disciplined (g : Grants) (a : SyncAct) : Prop :=
  a = .callSignal → ∀ t, g.sync.sched.currentThread = some t → g.inside t = true

/-- The threads that are between a wait and their signal. -/
def Grants.inner (g : Grants) : Finset (Fin threadMax) := Finset.univ.filter fun t => g.inside t = true

theorem Grants.mem_inner {g : Grants} {t : Fin threadMax} : t ∈ g.inner ↔ g.inside t = true := by
  simp [Grants.inner]

/-- Every section stands for a wait that has returned and whose signal has not been made. -/
def Grants.Sectioned (g : Grants) : Prop := g.made + g.inner.card ≤ g.returned

section Section

variable {base : Word} {c : Int} {g g' : Grants}

theorem Granting.returned_le (h : Granting c g) : (g.returned : Int) ≤ c + g.made := by
  obtain ⟨b, -, hsum⟩ := h.balance
  omega

theorem Grants.Sectioned.step (h : g.Sectioned) {a : SyncAct} (hd : Disciplined g a)
    (hs : grantStep base g a = some g') : g'.Sectioned := by
  obtain ⟨sync, -, hs⟩ := Option.map_eq_some_iff.1 hs
  cases hcur : g.sync.sched.currentThread with
  | none =>
    rw [hcur] at hs
    cases hs
    exact h
  | some t =>
    rw [hcur] at hs
    cases hs
    cases a with
    | callSignal =>
      have hin : t ∈ g.inner := Grants.mem_inner.2 (hd rfl t hcur)
      have herase : (g.count t sync .callSignal).inner = g.inner.erase t := by
        ext u
        by_cases hut : u = t <;> simp [Grants.mem_inner, Grants.count, hut]
      have hcard := Finset.card_erase_add_one hin
      unfold Grants.Sectioned at h ⊢
      rw [herase]
      simp only [Grants.count]
      omega
    | execute =>
      by_cases hp : g.sync.point t = .waitTakeRelease
      · have hinsert : (g.count t sync .execute).inner = insert t g.inner := by
          ext u
          by_cases hut : u = t <;> simp [Grants.mem_inner, Grants.count, hut, hp]
        have hcard := Finset.card_insert_le t g.inner
        unfold Grants.Sectioned at h ⊢
        rw [hinsert]
        simp only [Grants.count, hp, if_true]
        omega
      · simpa [Grants.Sectioned, Grants.inner, Grants.count, hp] using h
    | _ => exact h

/-- With one permit there is at most one section at a time. -/
theorem Grants.Sectioned.exclusive (h : g.Sectioned) (hg : Granting 1 g) (t u : Fin threadMax)
    (ht : g.inside t = true) (hu : g.inside u = true) : t = u := by
  have hle := hg.returned_le
  have hcard : g.inner.card ≤ 1 := by
    unfold Grants.Sectioned at h
    omega
  exact Finset.card_le_one.1 hcard t (Grants.mem_inner.2 ht) u (Grants.mem_inner.2 hu)

end Section

/-! ## The count -/

/-- The step is not the `count++` of a signal that finds the count at its maximum. -/
def NoOverflow (g : Grants) (a : SyncAct) : Prop :=
  a = .execute → ∀ t, g.sync.sched.currentThread = some t → g.sync.point t = .signalAdd →
    g.sync.sem.count ≠ 2 ^ 31 - 1

section Count

variable {base : Word} {c : Int} {g g' : Grants}

/-- A statement makes a count negative only by overflow. -/
theorem Granting.count_statement (h : Granting c g) (h0 : 0 ≤ g.sync.sem.count) (t : Fin threadMax) :
    0 ≤ (g.sync.execute t).sem.count ↔ (g.sync.point t = .signalAdd → g.sync.sem.count ≠ 2 ^ 31 - 1) := by
  obtain ⟨b, hb, -⟩ := h.balance
  have hlt := @Int.bmod_lt b (2 ^ 32) (by decide)
  by_cases hp : g.sync.point t = .waitTake
  · have hpos : g.sync.sem.count > 0 := by simpa [hp, Point.Tested] using h.tested t
    refine iff_of_true ?_ fun hq => by rw [hp] at hq; cases hq
    simp only [SyncState.execute, hp, statement]
    omega
  · by_cases hq : g.sync.point t = .signalAdd
    · simp only [SyncState.execute, hq, statement, forall_const]
      by_cases hmax : g.sync.sem.count = 2 ^ 31 - 1
      · have hneg : increment g.sync.sem.count = -2 ^ 31 := hmax.symm ▸ increment_max
        exact iff_of_false (by omega) fun h => h hmax
      · have hnext : increment g.sync.sem.count = g.sync.sem.count + 1 := increment_of_lt (by omega) (by omega)
        exact iff_of_true (by omega) hmax
    · refine iff_of_true ?_ fun h => absurd h hq
      have hcount := statement_count g.sync.sem g.sync.sched.toThreads hp hq
      simp only [SyncState.execute]
      rw [hcount]
      exact h0

theorem Granting.count_step (h : Granting c g) (h0 : 0 ≤ g.sync.sem.count) {a : SyncAct}
    (hs : grantStep base g a = some g') : 0 ≤ g'.sync.sem.count ↔ NoOverflow g a := by
  obtain ⟨sync, hsync, hs⟩ := Option.map_eq_some_iff.1 hs
  have hg : g'.sync = sync := by
    rw [← hs]
    split
    · rfl
    · exact Grants.count_sync ..
  rw [hg]
  cases a with
  | tick | create | setPolicy =>
    cases hsync
    exact iff_of_true h0 nofun
  | callWait | callSignal =>
    obtain ⟨t, ht, hm⟩ := Option.bind_eq_some_iff.1 hsync
    obtain ⟨-, ⟨⟩⟩ := Option.ite_none_right_eq_some.1 hm
    exact iff_of_true h0 nofun
  | execute =>
    obtain ⟨t, ht, hm⟩ := Option.bind_eq_some_iff.1 hsync
    obtain ⟨-, ⟨⟩⟩ := Option.ite_none_left_eq_some.1 hm
    rw [h.count_statement h0 t]
    refine ⟨fun hn _ u hu => ?_, fun hn => hn rfl t ht⟩
    cases Option.some.inj (ht.symm.trans hu)
    exact hn

theorem noOverflow_stuck {a : SyncAct} (hs : grantStep base g a = none) : NoOverflow g a := by
  rintro rfl t ht hp
  simp [grantStep, syncStep, ht, hp] at hs

end Count

/-- What a semaphore that starts with `c` promises over a run: a count that is never negative, a
queue within its 32 entries, no more waits returned than `c` and the signals made allow, and with
one permit and threads that signal only after their own wait, one thread between wait and signal. -/
def NeverOverGrants (base : Word) (s₀ : Threads) (c : Int) (acts : List SyncAct) : Prop :=
  Trace.Always (grantStep base) (fun g => 0 ≤ g.sync.sem.count ∧ g.sync.sem.waiterCount ≤ syncWaitersMax ∧
      (g.returned : Int) ≤ c + g.made) (grantsBoot s₀ c) acts ∧
    (c = 1 → Trace.Along (grantStep base) Disciplined (grantsBoot s₀ c) acts →
      Trace.Always (grantStep base) (fun g => ∀ t u, g.inside t = true → g.inside u = true → t = u)
        (grantsBoot s₀ c) acts)

/-- A run keeps all these promises exactly when no signal of it carries the count over 2^31 - 1. -/
theorem semaphore_grants (base : Word) (s₀ : Threads) {c : Int} (h0 : 0 ≤ c) (hmax : c ≤ 2 ^ 31 - 1)
    (acts : List SyncAct) :
    NeverOverGrants base s₀ c acts ↔ Trace.Along (grantStep base) NoOverflow (grantsBoot s₀ c) acts := by
  have hboot := grantsBoot_granting s₀ h0 hmax
  have hcount : Trace.Always (grantStep base) (fun g => 0 ≤ g.sync.sem.count ∧
      g.sync.sem.waiterCount ≤ syncWaitersMax ∧ (g.returned : Int) ≤ c + g.made) (grantsBoot s₀ c) acts ↔
      Trace.Along (grantStep base) NoOverflow (grantsBoot s₀ c) acts := by
    refine Trace.always_iff_along (I := Granting c) (fun g a g' hg hp hs => ?_)
      (fun g a hg hp hs => noOverflow_stuck hs) hboot ⟨h0, hboot.room, hboot.returned_le⟩
    have hg' := hg.step hs
    rw [← hg.count_step hp.1 hs]
    exact ⟨hg', fun h => h.1, fun h => ⟨h, hg'.room, hg'.returned_le⟩⟩
  refine ⟨fun h => hcount.1 h.1, fun h => ⟨hcount.2 h, ?_⟩⟩
  rintro rfl hd
  refine Trace.always_of_invariant (I := fun g => Granting 1 g ∧ g.Sectioned)
    (fun g a g' hg hd hs => ⟨hg.1.step hs, hg.2.step hd hs⟩) (fun g hg => hg.2.exclusive hg.1) ⟨hboot, ?_⟩ hd
  simp [Grants.Sectioned, Grants.inner, grantsBoot]

/-- One signal on a semaphore with one permit. -/
theorem semaphore_grants_signal :
    NeverOverGrants 0 blankThreads 1 [.callSignal, .execute, .execute, .execute] := by
  refine (semaphore_grants 0 blankThreads (by decide) (by decide) _).2 ?_
  refine ⟨nofun, fun s hs => ?_⟩
  cases hs
  refine ⟨fun _ t ht hp => (by cases ht; cases hp), fun s hs => ?_⟩
  cases hs
  refine ⟨fun _ t ht hp => (by cases ht; cases hp), fun s hs => ?_⟩
  cases hs
  exact ⟨fun _ t ht hp hmax => absurd hmax (by decide), fun s hs => trivial⟩

/-- One signal on a semaphore with 2^31 - 1 permits. -/
theorem semaphore_grants_overflow :
    ¬ NeverOverGrants 0 blankThreads (2 ^ 31 - 1) [.callSignal, .execute, .execute, .execute] := by
  rintro ⟨⟨-, h⟩, -⟩
  have h := ((((h _ rfl).2 _ rfl).2 _ rfl).2 _ rfl).1
  exact absurd h (by decide)

end SpectreOS

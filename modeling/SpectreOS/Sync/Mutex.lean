/-
Mutexes (sync.c), statement by statement, with any number of threads. `owner` and `locked` are two
words written one after the other: for a moment the lock is taken and nobody owns it, and again
after `mutex_unlock` has disowned it. A thread knows its own index only, so a stray
`mutex_unlock` that falls into one of these moments finds another owner, or none.
-/
import SpectreOS.Lib.Trace

namespace SpectreOS

/-- A `mutex_t`; the word of the spinlock is 0 or 1. -/
structure Mutex where
  locked : Bool
  owner : Int

def mutexInit : Mutex := ⟨false, -1⟩

/-- The statement a thread executes next, with the local variable `current` where it is live. -/
inductive MutexPoint where
  | out
  | lockAcquire
  | lockCurrent
  | lockOwn (current : Int)
  | unlockCurrent
  | unlockTest (current : Int)
  | unlockDisown
  | unlockRelease
  deriving DecidableEq

namespace MutexPoint

/-- Inside `mutex_lock`, with the spinlock taken. -/
def taking : MutexPoint → Bool
  | lockCurrent | lockOwn _ => true
  | _ => false

/-- Inside `mutex_unlock`. -/
def unlocking : MutexPoint → Bool
  | unlockCurrent | unlockTest _ | unlockDisown | unlockRelease => true
  | _ => false

def current : MutexPoint → Option Int
  | lockOwn c | unlockTest c => some c
  | _ => none

end MutexPoint

/-- What one statement of the thread with index `index` does: the statement after it, and the
mutex. A failed attempt of `spinlock_acquire` changes nothing. -/
def mutexStatement (index : Int) (m : Mutex) : MutexPoint → MutexPoint × Mutex
  | .out => (.out, m)
  | .lockAcquire => if m.locked then (.lockAcquire, m) else (.lockCurrent, { m with locked := true })
  | .lockCurrent => (.lockOwn index, m)
  | .lockOwn current => (.out, { m with owner := current })
  | .unlockCurrent => (.unlockTest index, m)
  | .unlockTest current => (if m.owner ≠ current then .out else .unlockDisown, m)
  | .unlockDisown => (.unlockRelease, { m with owner := -1 })
  | .unlockRelease => (.out, { m with locked := false })

/-- Whether a thread is between the return of `mutex_lock` and the release of the spinlock by its
own `mutex_unlock`, after the statement at `p`. -/
def insideAfter (p : MutexPoint) (inside : Bool) : Bool :=
  match p with
  | .lockOwn _ => true
  | .unlockRelease => false
  | _ => inside

/-- The mutex, where every thread is, and which threads are inside their critical section. -/
structure MutexState where
  mutex : Mutex
  point : Nat → MutexPoint
  inside : Nat → Bool

/-- A thread calls one of the two functions, or executes its next statement. -/
inductive MutexAct where
  | callLock (t : Nat)
  | callUnlock (t : Nat)
  | execute (t : Nat)
  deriving DecidableEq

def MutexState.moveTo (s : MutexState) (t : Nat) (p : MutexPoint) : MutexState :=
  { s with point := Function.update s.point t p }

def MutexState.execute (s : MutexState) (t : Nat) : MutexState :=
  let next := mutexStatement t s.mutex (s.point t)
  { mutex := next.2
    point := Function.update s.point t next.1
    inside := Function.update s.inside t (insideAfter (s.point t) (s.inside t)) }

/-- One action; a thread calls a function only from outside both, whether it holds the mutex or
not. -/
def mutexStep (s : MutexState) : MutexAct → Option MutexState
  | .callLock t => if s.point t = .out then some (s.moveTo t .lockAcquire) else none
  | .callUnlock t => if s.point t = .out then some (s.moveTo t .unlockCurrent) else none
  | .execute t => if s.point t = .out then none else some (s.execute t)

def mutexStart : MutexState := ⟨mutexInit, fun _ => .out, fun _ => false⟩

/-! ## Ownership -/

/-- A thread at `p` has the spinlock: it took it in a call of `mutex_lock` and has not released it. -/
def Has (p : MutexPoint) (inside : Bool) : Prop := inside = true ∨ p.taking = true

/-- What the mutex and the place of thread `t` say about each other. -/
structure Placed (m : Mutex) (t : Nat) (p : MutexPoint) (inside : Bool) : Prop where
  locked : Has p inside → m.locked = true
  owner : m.owner = t → inside = true
  owned : inside = true → m.owner = t ∨ p = .unlockRelease
  current : ∀ c, p.current = some c → c = t
  taking : p.taking = true → m.owner = -1
  passed : p = .unlockDisown → m.owner = t
  disowned : p = .unlockRelease → inside = true ∧ m.owner = -1

section Placed

variable {m m' : Mutex} {t : Nat} {p q : MutexPoint} {inside : Bool}

theorem placed_out : Placed mutexInit t .out false where
  locked h := by rcases h with h | h <;> cases h
  owner h := absurd h (by simp only [mutexInit]; omega)
  owned := nofun
  current := nofun
  taking := nofun
  passed := nofun
  disowned := nofun

/-- A thread that calls one of the functions. -/
theorem Placed.call (h : Placed m t .out inside) (hq : q = .lockAcquire ∨ q = .unlockCurrent) :
    Placed m t q inside := by
  obtain ⟨hlock, howner, howned, -, -, -, -⟩ := h
  rcases hq with rfl | rfl
  all_goals exact ⟨hlock, howner, fun hi => (howned hi).imp_right nofun, nofun, nofun, nofun, nofun⟩

/-- A thread keeps its place in its own statement. -/
theorem Placed.statement (h : Placed m t p inside) (hfree : m.locked = false → m.owner = -1) :
    Placed (mutexStatement t m p).2 t (mutexStatement t m p).1 (insideAfter p inside) := by
  cases p with
  | out => exact h
  | lockAcquire =>
    have hi : inside = true → m.owner = t := fun hi => (h.owned hi).resolve_right nofun
    simp only [mutexStatement]
    split
    · exact h
    · rename_i hl
      have hl : m.locked = false := by simpa using hl
      exact ⟨fun _ => rfl, h.owner, fun i => Or.inl (hi i), nofun, fun _ => hfree hl, nofun, nofun⟩
  | lockCurrent =>
    refine ⟨fun _ => h.locked (Or.inr rfl), h.owner, fun i => (h.owned i).imp_right nofun, fun c hc => ?_,
      fun _ => h.taking rfl, nofun, nofun⟩
    exact (Option.some.inj hc).symm
  | lockOwn c =>
    obtain rfl := h.current c rfl
    exact ⟨fun _ => h.locked (Or.inr rfl), fun _ => rfl, fun _ => Or.inl rfl, nofun, nofun, nofun, nofun⟩
  | unlockCurrent =>
    refine ⟨fun hh => h.locked (hh.imp_right nofun), h.owner, fun i => (h.owned i).imp_right nofun, fun c hc => ?_,
      nofun, nofun, nofun⟩
    exact (Option.some.inj hc).symm
  | unlockTest c =>
    obtain rfl := h.current c rfl
    have hi : inside = true → m.owner = t := fun hi => (h.owned hi).resolve_right nofun
    simp only [mutexStatement]
    split
    · exact ⟨fun hh => h.locked (hh.imp_right nofun), h.owner, fun i => Or.inl (hi i), nofun, nofun, nofun, nofun⟩
    · rename_i ho
      exact ⟨fun hh => h.locked (hh.imp_right nofun), h.owner, fun i => Or.inl (hi i), nofun, nofun,
        fun _ => not_not.1 ho, nofun⟩
  | unlockDisown =>
    have hi := h.owner (h.passed rfl)
    exact ⟨fun _ => h.locked (Or.inl hi), fun _ => hi, fun _ => Or.inr rfl, nofun, nofun, nofun, fun _ => ⟨hi, rfl⟩⟩
  | unlockRelease =>
    have ho := (h.disowned rfl).2
    refine ⟨fun hh => ?_, fun e => ?_, nofun, nofun, nofun, nofun, nofun⟩
    · rcases hh with hh | hh <;> cases hh
    · have := ho.symm.trans e
      omega

/-- A thread without the spinlock keeps its place when the mutex changes hands among the others. -/
theorem Placed.other (h : Placed m t p inside) (hno : ¬ Has p inside) (howner : m'.owner ≠ t) :
    Placed m' t p inside := by
  simp only [Has, not_or, Bool.not_eq_true] at hno
  refine ⟨fun hh => absurd hh (by simp [Has, hno]), fun ho => absurd ho howner, fun hi => by simp [hno] at hi,
    h.current, fun ht => by simp [hno] at ht, fun hp => ?_, fun hp => ?_⟩
  · have := h.owner (h.passed hp)
    simp [hno] at this
  · have := (h.disowned hp).1
    simp [hno] at this

/-- What a statement does to the mutex, and when it does anything. -/
theorem mutexStatement_mutex (h : Placed m t p inside) :
    (mutexStatement t m p).2 = m ∨
      (Has p inside ∨ m.locked = false) ∧
        ((mutexStatement t m p).2.owner = m.owner ∨ (mutexStatement t m p).2.owner = t ∨
          (mutexStatement t m p).2.owner = -1) := by
  cases p with
  | lockAcquire =>
    simp only [mutexStatement]
    split
    · exact Or.inl rfl
    · rename_i hl
      exact Or.inr ⟨Or.inr (by simpa using hl), Or.inl rfl⟩
  | lockOwn c =>
    obtain rfl := h.current c rfl
    exact Or.inr ⟨Or.inl (Or.inr rfl), Or.inr (Or.inl rfl)⟩
  | unlockDisown => exact Or.inr ⟨Or.inl (Or.inl (h.owner (h.passed rfl))), Or.inr (Or.inr rfl)⟩
  | unlockRelease => exact Or.inr ⟨Or.inl (Or.inl (h.disowned rfl).1), Or.inl rfl⟩
  | out | lockCurrent | unlockCurrent | unlockTest => exact Or.inl rfl

/-- Only the statement that takes the spinlock gives it to its thread. -/
theorem has_statement (h : Has (mutexStatement t m p).1 (insideAfter p inside)) : Has p inside ∨ m.locked = false := by
  cases p with
  | lockAcquire =>
    cases hl : m.locked with
    | false => exact Or.inr rfl
    | true =>
      simp only [mutexStatement, hl] at h
      exact Or.inl h
  | lockCurrent | lockOwn => exact Or.inl (Or.inr rfl)
  | unlockTest c =>
    simp only [mutexStatement, insideAfter] at h
    split at h <;> exact Or.inl (h.imp_right nofun)
  | unlockRelease => rcases h with h | h <;> cases h
  | out | unlockCurrent | unlockDisown => exact Or.inl (h.imp_right nofun)

/-- The spinlock is free for the next thread only when nobody owns the mutex. -/
theorem Placed.free (h : Placed m t p inside) (hfree : m.locked = false → m.owner = -1) :
    (mutexStatement t m p).2.locked = false → (mutexStatement t m p).2.owner = -1 := by
  cases p with
  | lockAcquire =>
    simp only [mutexStatement]
    split
    · exact hfree
    · exact nofun
  | lockOwn c =>
    intro hl
    exact absurd ((h.locked (Or.inr rfl)).symm.trans hl) nofun
  | unlockDisown => exact fun _ => rfl
  | unlockRelease => exact fun _ => (h.disowned rfl).2
  | out | lockCurrent | unlockCurrent | unlockTest => exact hfree

/-- Inside `mutex_unlock` without the mutex a statement leaves the mutex alone, and its thread is
still inside `mutex_unlock` or out of it, without the mutex. -/
theorem Placed.stray (h : Placed m t p false) (hp : p.unlocking = true) :
    (mutexStatement t m p).2 = m ∧ insideAfter p false = false ∧
      ((mutexStatement t m p).1 = .out ∨ (mutexStatement t m p).1.unlocking = true) := by
  cases p with
  | unlockCurrent => exact ⟨rfl, rfl, Or.inr rfl⟩
  | unlockTest c =>
    obtain rfl := h.current c rfl
    have ho : m.owner ≠ t := fun ho => by cases h.owner ho
    simp [mutexStatement, insideAfter, ho]
  | unlockDisown => cases h.owner (h.passed rfl)
  | unlockRelease => cases (h.disowned rfl).1
  | _ => cases hp

end Placed

/-- The lock, the owner and the places of all threads, in every reachable state. -/
structure Owning (s : MutexState) : Prop where
  placed : ∀ t, Placed s.mutex t (s.point t) (s.inside t)
  unique : ∀ t u, Has (s.point t) (s.inside t) → Has (s.point u) (s.inside u) → t = u
  free : s.mutex.locked = false → s.mutex.owner = -1

theorem mutexStart_owning : Owning mutexStart where
  placed _ := placed_out
  unique t u h := by rcases h with h | h <;> cases h
  free _ := rfl

section Step

variable {s s' : MutexState} {t : Nat}

theorem Owning.call (h : Owning s) {q : MutexPoint} (hp : s.point t = .out)
    (hq : q = .lockAcquire ∨ q = .unlockCurrent) : Owning (s.moveTo t q) := by
  have hhas : ∀ u, Has ((s.moveTo t q).point u) (s.inside u) → Has (s.point u) (s.inside u) := by
    intro u hu
    by_cases hut : u = t
    · subst hut
      refine hu.imp_right fun hu => ?_
      rcases hq with rfl | rfl <;> simp [MutexState.moveTo, MutexPoint.taking] at hu
    · simpa [MutexState.moveTo, Function.update_of_ne hut] using hu
  refine ⟨fun u => ?_, fun u v hu hv => h.unique u v (hhas u hu) (hhas v hv), h.free⟩
  have hu := h.placed u
  by_cases hut : u = t
  · subst hut
    rw [hp] at hu
    simpa [MutexState.moveTo] using hu.call hq
  · simpa [MutexState.moveTo, Function.update_of_ne hut] using hu

theorem Owning.execute (h : Owning s) : Owning (s.execute t) := by
  have ht := h.placed t
  have hself : (s.execute t).point t = (mutexStatement t s.mutex (s.point t)).1 ∧
      (s.execute t).inside t = insideAfter (s.point t) (s.inside t) :=
        ⟨Function.update_self .., Function.update_self ..⟩
  have hother : ∀ u, u ≠ t → (s.execute t).point u = s.point u ∧ (s.execute t).inside u = s.inside u :=
    fun u hut => ⟨Function.update_of_ne hut .., Function.update_of_ne hut ..⟩
  -- a thread that has the spinlock, or finds it free, is the only one to have it
  have halone : Has (s.point t) (s.inside t) ∨ s.mutex.locked = false →
      ∀ u, u ≠ t → ¬ Has (s.point u) (s.inside u) := by
    rintro (hh | hl) u hut hu
    · exact hut (h.unique u t hu hh)
    · rw [(h.placed u).locked hu] at hl
      cases hl
  refine ⟨fun u => ?_, fun u v hu hv => ?_, ?_⟩
  · by_cases hut : u = t
    · subst hut
      rw [hself.1, hself.2]
      exact ht.statement h.free
    · rw [(hother u hut).1, (hother u hut).2]
      rcases mutexStatement_mutex ht with hm | ⟨hh, ho⟩
      · have hm : (s.execute t).mutex = s.mutex := hm
        rw [hm]
        exact h.placed u
      · have hu := halone hh u hut
        refine (h.placed u).other hu fun (hou : (mutexStatement t s.mutex (s.point t)).2.owner = u) => ?_
        rcases ho with ho | ho | ho
        · exact hu (Or.inl ((h.placed u).owner (ho.symm.trans hou)))
        · exact hut (by exact_mod_cast hou.symm.trans ho)
        · rw [ho] at hou
          omega
  · -- whoever else has the spinlock now had it before, when `t` did not have it
    have hnot : ∀ {u}, u ≠ t → Has ((s.execute t).point u) ((s.execute t).inside u) →
        ¬ Has ((s.execute t).point t) ((s.execute t).inside t) := by
      intro u hut hu ht'
      rw [(hother u hut).1, (hother u hut).2] at hu
      rw [hself.1, hself.2] at ht'
      exact halone (has_statement ht') u hut hu
    by_cases hut : u = t
    · by_cases hvt : v = t
      · rw [hut, hvt]
      · exact absurd (hut ▸ hu) (hnot hvt hv)
    · by_cases hvt : v = t
      · exact absurd (hvt ▸ hv) (hnot hut hu)
      · rw [(hother u hut).1, (hother u hut).2] at hu
        rw [(hother v hvt).1, (hother v hvt).2] at hv
        exact h.unique u v hu hv
  · exact ht.free h.free

theorem Owning.step (h : Owning s) {a : MutexAct} (hs : mutexStep s a = some s') : Owning s' := by
  cases a with
  | callLock t =>
    obtain ⟨hp, ⟨⟩⟩ := Option.ite_none_right_eq_some.1 hs
    exact h.call hp (Or.inl rfl)
  | callUnlock t =>
    obtain ⟨hp, ⟨⟩⟩ := Option.ite_none_right_eq_some.1 hs
    exact h.call hp (Or.inr rfl)
  | execute t =>
    obtain ⟨-, ⟨⟩⟩ := Option.ite_none_left_eq_some.1 hs
    exact h.execute

end Step

/-! ## Runs -/

/-- Thread `t` does not hold the mutex, and is outside `mutex_lock`. -/
def Stray (t : Nat) (s : MutexState) : Prop :=
  s.inside t = false ∧ (s.point t = .out ∨ (s.point t).unlocking = true)

/-- If the step is a statement of thread `t`, it leaves the mutex alone. -/
def Spares (t : Nat) (s : MutexState) (a : MutexAct) : Prop := a = .execute t → (s.execute t).mutex = s.mutex

section Runs

variable {s s' : MutexState} {t : Nat} {a : MutexAct}

theorem Stray.spares (h : Owning s) (hs : Stray t s) (hstep : mutexStep s a = some s') : Spares t s a := by
  rintro rfl
  obtain ⟨hout, -⟩ := Option.ite_none_left_eq_some.1 hstep
  exact ((hs.1 ▸ h.placed t).stray (hs.2.resolve_left hout)).1

theorem Stray.step (h : Owning s) (hs : Stray t s) (ha : a ≠ .callLock t) (hstep : mutexStep s a = some s') :
    Stray t s' := by
  have hkeep : ∀ u, u ≠ t → Stray t (s.execute u) := by
    intro u hut
    simpa [Stray, MutexState.execute, Function.update_of_ne hut.symm] using hs
  have hmove : ∀ u q, u ≠ t → Stray t (s.moveTo u q) := by
    intro u q hut
    simpa [Stray, MutexState.moveTo, Function.update_of_ne hut.symm] using hs
  cases a with
  | callLock u =>
    obtain ⟨-, ⟨⟩⟩ := Option.ite_none_right_eq_some.1 hstep
    exact hmove u _ fun hut => ha (hut ▸ rfl)
  | callUnlock u =>
    obtain ⟨-, ⟨⟩⟩ := Option.ite_none_right_eq_some.1 hstep
    by_cases hut : u = t
    · subst hut
      exact ⟨hs.1, Or.inr (by simp [MutexState.moveTo, MutexPoint.unlocking])⟩
    · exact hmove u _ hut
  | execute u =>
    obtain ⟨hout, ⟨⟩⟩ := Option.ite_none_left_eq_some.1 hstep
    by_cases hut : u = t
    · subst hut
      obtain ⟨-, hi, hp⟩ := (hs.1 ▸ h.placed u).stray (hs.2.resolve_left hout)
      exact ⟨by simpa [MutexState.execute, hs.1] using hi, by simpa [MutexState.execute] using hp⟩
    · exact hkeep u hut

/-- A thread without the mutex calls `mutex_unlock` as often as it likes. -/
theorem Stray.along (h : Owning s) (hs : Stray t s) {acts : List MutexAct} (ha : .callLock t ∉ acts) :
    Trace.Along mutexStep (Spares t) s acts := by
  induction acts generalizing s with
  | nil => trivial
  | cons a acts ih =>
    rw [List.mem_cons, not_or] at ha
    refine ⟨?_, fun s' hstep => ih (h.step hstep) (hs.step h (Ne.symm ha.1) hstep) ha.2⟩
    cases hstep : mutexStep s a with
    | none =>
      -- only outside both functions is a statement impossible
      rintro rfl
      have hout : s.point t = .out := by
        by_contra hout
        simp [mutexStep, hout] at hstep
      simp [MutexState.execute, mutexStatement, hout]
    | some s' => exact hs.spares h hstep

end Runs

/-- In every interleaving of the statements of `mutex_lock` and `mutex_unlock`, at most one thread
is between the return of its `mutex_lock` and the release by its own `mutex_unlock`, a thread that
does not hold the mutex changes nothing by calling `mutex_unlock`, and a free mutex has no owner. -/
theorem mutex_exclusive {acts : List MutexAct} {s : MutexState} (h : Trace.exec mutexStep mutexStart acts = some s) :
    (∀ t u, s.inside t = true → s.inside u = true → t = u) ∧
      (∀ t more, Stray t s → .callLock t ∉ more → Trace.Along mutexStep (Spares t) s more) ∧
      (s.mutex.locked = false → s.mutex.owner = -1) := by
  have howning : Owning s := Trace.exec_invariant (fun _ _ _ h hs => h.step hs) mutexStart_owning h
  exact ⟨fun t u ht hu => howning.unique t u (Or.inl ht) (Or.inl hu), fun t more hs hm => hs.along howning hm,
    howning.free⟩

/-- A stray `mutex_unlock` of a second thread between the taking of the lock and the ownership. -/
theorem mutex_exclusive_stray :
    ∃ s, Trace.exec mutexStep mutexStart [.callLock 0, .execute 0, .callUnlock 1, .execute 1] = some s ∧
      Trace.Along mutexStep (Spares 1) s [.execute 1, .callUnlock 1, .execute 0, .execute 0] :=
  ⟨_, rfl, (@mutex_exclusive [.callLock 0, .execute 0, .callUnlock 1, .execute 1] _ rfl).2.1 1 _ ⟨rfl, Or.inr rfl⟩
    (by decide)⟩

end SpectreOS

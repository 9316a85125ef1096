/-
Who can hold a semaphore's lock while blocked. `semaphore_wait` blocks the thread before it
releases the lock, so there is one statement, the release, at which a thread is blocked and holds
the lock; a tick there hands the processor to another thread for good. The invariant `Locking`
holds in every run; with it a run never leaves a blocked thread with the lock exactly when no tick
falls into that window while another thread is ready.
-/
import SpectreOS.Sync.Semaphore

namespace SpectreOS

open ThreadState

/-- Thread `t` holds the semaphore's lock. -/
def SyncState.Holds (s : SyncState) (t : Fin threadMax) : Prop := s.sem.locked = true ∧ (s.point t).holds = true

/-- No thread that is blocked holds the lock while another thread has the processor. -/
def SyncState.NoneStuck (s : SyncState) : Prop :=
  ∀ t, s.sched.states t = .blocked → s.Holds t → s.sched.currentThread = some t

/-- The lock, the states and the places of the threads, in every reachable state. -/
structure Locking (s : SyncState) : Prop where
  coherent : Coherent s.sched.toThreads
  locked : ∀ t, (s.point t).holds = true → s.sem.locked = true
  unique : ∀ t u, (s.point t).holds = true → (s.point u).holds = true → t = u
  own : ∀ t c, (s.point t).index = some c → c = t
  blocked : ∀ t, s.sched.states t = .blocked → (s.point t).parked = true
  current : ∀ t, s.sched.currentThread = some t → s.sched.states t = .running ∨ s.sched.states t = .blocked
  window : ∀ t c, s.point t = .waitRelease c → s.sched.states t = .blocked

theorem syncBoot_locking (s₀ : Threads) (initialCount : Int) : Locking (syncBoot s₀ initialCount) := by
  have hst : ∀ t, (syncBoot s₀ initialCount).sched.states t = if t = 0 then .running else .unused := fun t => rfl
  refine ⟨schedBoot_coherent s₀, by simp [syncBoot, Point.holds], by simp [syncBoot, Point.holds],
    by simp [syncBoot, Point.index], fun t ht => ?_, fun t ht => ?_, by simp [syncBoot]⟩
  · rw [hst] at ht
    split at ht <;> cases ht
  · cases ht
    exact Or.inl (by rw [hst]; rfl)

section Step

variable {base : Word} {s : SyncState} {t : Fin threadMax}

/-- A move of the current thread that changes no thread's state. The lock is left as it is, taken
while it was free, or released by its holder. -/
theorem Locking.advance (h : Locking s) {p : Point} {sem : Semaphore}
    (hidx : ∀ c, p.index = some c → c = t) (hwin : ∀ c, p ≠ .waitRelease c)
    (hpark : s.sched.states t = .blocked → p.parked = true)
    (hlock : p.holds = (s.point t).holds ∧ sem.locked = s.sem.locked ∨
      s.sem.locked = false ∧ sem.locked = true ∨ (s.point t).holds = true ∧ p.holds = false) :
    Locking { s with sem, point := Function.update s.point t p } := by
  have hother : ∀ u, (s.point u).holds = true → u ≠ t → sem.locked = true ∧ (s.point t).holds = false ∧
      p.holds = false := by
    intro u hu hut
    have hf : (s.point t).holds = false := by
      rw [← Bool.not_eq_true]
      exact fun ht => hut (h.unique u t hu ht)
    rcases hlock with ⟨hp, hl⟩ | ⟨hl, -⟩ | ⟨hh, -⟩
    · exact ⟨hl.trans (h.locked u hu), hf, hp.trans hf⟩
    · rw [h.locked u hu] at hl; cases hl
    · rw [hf] at hh; cases hh
  refine ⟨h.coherent, fun u hu => ?_, fun u v hu hv => ?_, fun u c hu => ?_, fun u hu => ?_,
    h.current, fun u c hu => ?_⟩
  · simp only at hu ⊢
    by_cases hut : u = t
    · subst hut
      rw [Function.update_self] at hu
      rcases hlock with ⟨hp, hl⟩ | ⟨-, hl⟩ | ⟨-, hp⟩
      · exact hl.trans (h.locked u (hp ▸ hu))
      · exact hl
      · rw [hp] at hu; cases hu
    · rw [Function.update_of_ne hut] at hu
      exact (hother u hu hut).1
  · simp only at hu hv
    by_cases hut : u = t
    · by_cases hvt : v = t
      · rw [hut, hvt]
      · rw [Function.update_of_ne hvt] at hv
        rw [hut, Function.update_self, (hother v hv hvt).2.2] at hu
        cases hu
    · rw [Function.update_of_ne hut] at hu
      by_cases hvt : v = t
      · rw [hvt, Function.update_self, (hother u hu hut).2.2] at hv
        cases hv
      · rw [Function.update_of_ne hvt] at hv
        exact h.unique u v hu hv
  · simp only at hu
    by_cases hut : u = t
    · subst hut
      rw [Function.update_self] at hu
      exact hidx c hu
    · rw [Function.update_of_ne hut] at hu
      exact h.own u c hu
  · simp only at hu ⊢
    by_cases hut : u = t
    · subst hut
      rw [Function.update_self]
      exact hpark hu
    · rw [Function.update_of_ne hut]
      exact h.blocked u hu
  · simp only at hu ⊢
    by_cases hut : u = t
    · subst hut
      rw [Function.update_self] at hu
      exact absurd hu (hwin c)
    · rw [Function.update_of_ne hut] at hu
      exact h.window u c hu

/-- A running thread is not parked. -/
theorem Locking.not_blocked (h : Locking s) (hp : (s.point t).parked = false) : s.sched.states t ≠ .blocked :=
  fun e => by rw [h.blocked t e] at hp; cases hp

/-- A tick, a created thread or a change of policy blocks and wakes nobody. -/
theorem Moves.blocked_iff {s s' : Threads} {a : SchedAct} (hm : Moves base s s' a) (hw : a.wakes = false)
    (hb : a ≠ .blockCurrent) (he : a ≠ .exit) : s'.states t = .blocked ↔ s.states t = .blocked := by
  cases hm with
  | idle states esps current => rw [states]
  | create entry i unused states esps current =>
    rw [states]
    by_cases hti : t = i
    · subst hti
      rw [Function.update_self, unused]
      exact iff_of_false nofun nofun
    · rw [Function.update_of_ne hti]
  | leave i at_ next how states esps current =>
    rcases how with ⟨h, -⟩ | ⟨h, -⟩
    · exact absurd h he
    · exact absurd h hb
  | wake wakes i blocked states esps current =>
    rw [wakes] at hw
    cases hw
  | halt esp c at_ none states esps current =>
    rw [states, demoted_eq_of_ne_ready (t := .blocked) nofun nofun]
  | switch esp c next at_ ready states esps current =>
    refine Iff.trans ?_ (demoted_eq_of_ne_ready (t := .blocked) (c := c) nofun nofun)
    rw [states]
    by_cases htn : t = next
    · subst htn
      rw [Function.update_self, ready]
      exact iff_of_false nofun nofun
    · rw [Function.update_of_ne htn]

theorem Locking.sched (h : Locking s) {sched : Scheduler} {a : SchedAct}
    (hm : Moves base s.sched.toThreads sched.toThreads a) (hw : a.wakes = false) (hb : a ≠ .blockCurrent)
    (he : a ≠ .exit) : Locking { s with sched } := by
  have hiff : ∀ u, sched.states u = .blocked ↔ s.sched.states u = .blocked := fun u => hm.blocked_iff hw hb he
  refine ⟨h.coherent.moves hm, h.locked, h.unique, h.own, fun u hu => h.blocked u ((hiff u).1 hu), fun u hu => ?_,
    fun u c hu => (hiff u).2 (h.window u c hu)⟩
  simp only at hu ⊢
  cases hm with
  | idle states esps current =>
    rw [states]
    exact h.current u (current ▸ hu)
  | create entry i unused states esps current =>
    have hcur := h.current u (current ▸ hu)
    have hui : u ≠ i := fun e => by rw [e, unused] at hcur; rcases hcur with hc | hc <;> cases hc
    rw [states, Function.update_of_ne hui]
    exact hcur
  | leave i at_ next how states esps current =>
    rcases how with ⟨h, -⟩ | ⟨h, -⟩
    · exact absurd h he
    · exact absurd h hb
  | wake wakes i blocked states esps current =>
    rw [wakes] at hw
    cases hw
  | halt esp c at_ none states esps current =>
    have hcu : c = u := Option.some.inj (current.symm.trans hu)
    subst hcu
    have hn := none c
    rw [states]
    rcases h.current c at_ with hc | hc
    · rw [demoted_self, if_pos hc] at hn
      exact absurd rfl hn
    · exact Or.inr ((demoted_eq_of_ne_ready (t := .blocked) nofun nofun).2 hc)
  | switch esp c next at_ ready states esps current =>
    cases Option.some.inj (current.symm.trans hu)
    rw [states, Function.update_self]
    exact Or.inl rfl

/-- The current thread blocks itself; it holds the lock and keeps it. -/
theorem Locking.block (h : Locking s) {c : Fin threadMax} (hc : s.sched.currentThread = some t)
    (hp : s.point t = .waitBlock c) :
    Locking { s with
      sched := { s.sched with toThreads := threadBlockCurrent s.sched.toThreads }
      point := Function.update s.point t (.waitRelease c) } := by
  have hrun : s.sched.states t = .running := by
    rcases h.current t hc with hr | hb
    · exact hr
    · exact absurd hb (h.not_blocked (by rw [hp]; rfl))
  have hblock : threadBlockCurrent s.sched.toThreads = s.sched.setState t .blocked := by
    simp only [threadBlockCurrent, hc]
    exact if_pos hrun
  have hcoh : Coherent (threadBlockCurrent s.sched.toThreads) := by
    refine @Coherent.moves 0 _ _ .blockCurrent h.coherent (.leave t hc .blocked (Or.inr ⟨rfl, rfl, hrun⟩) ?_ ?_ ?_)
    · rw [hblock, Threads.states_setState]
    · rw [hblock, Threads.esps_setState]
    · rw [hblock]; rfl
  have hholds : ∀ u, (Function.update s.point t (.waitRelease c) u).holds = (s.point u).holds := by
    intro u
    by_cases hut : u = t
    · subst hut
      rw [Function.update_self, hp]
      rfl
    · rw [Function.update_of_ne hut]
  refine ⟨hcoh, fun u hu => ?_, fun u v hu hv => ?_, fun u d hu => ?_, fun u hu => ?_, fun u hu => ?_,
    fun u d hu => ?_⟩ <;>
    simp only [hholds, hblock, Threads.states_setState, Threads.currentThread_setState] at *
  · exact h.locked u hu
  · exact h.unique u v hu hv
  · by_cases hut : u = t
    · subst hut
      rw [Function.update_self] at hu
      exact h.own u d (by rw [hp]; exact hu)
    · rw [Function.update_of_ne hut] at hu
      exact h.own u d hu
  · by_cases hut : u = t
    · rw [hut, Function.update_self]
      rfl
    · rw [Function.update_of_ne hut] at hu ⊢
      exact h.blocked u hu
  · cases Option.some.inj (hu.symm.trans hc)
    exact Or.inr (Function.update_self ..)
  · by_cases hut : u = t
    · rw [hut, Function.update_self]
    · rw [Function.update_of_ne hut] at hu ⊢
      exact h.window u d hu

/-- The current thread wakes another; nobody else holds the lock. -/
theorem Locking.unblock (h : Locking s) {id : Nat} (hc : s.sched.currentThread = some t)
    (hp : s.point t = .signalUnblock id) :
    Locking { s with
      sched := { s.sched with toThreads := threadUnblock id s.sched.toThreads }
      point := Function.update s.point t .signalRelease } := by
  have hadv : Locking { s with sem := s.sem, point := Function.update s.point t .signalRelease } :=
    h.advance (fun c hc => by cases hc) (fun c hc => by cases hc)
      (fun hb => absurd hb (h.not_blocked (by rw [hp]; rfl))) (Or.inl ⟨by rw [hp]; rfl, rfl⟩)
  unfold threadUnblock unblockAt
  split
  · split
    · rename_i hid hb
      have hpark := h.blocked _ hb
      have hne : (⟨id, hid⟩ : Fin threadMax) ≠ t := fun e => by rw [e, hp] at hpark; cases hpark
      have hcoh : Coherent (s.sched.setState ⟨id, hid⟩ .ready) :=
        @Coherent.moves 0 _ _ .wakeOne h.coherent
          (.wake rfl ⟨id, hid⟩ hb (Threads.states_setState ..) (Threads.esps_setState ..) rfl)
      refine ⟨hcoh, hadv.locked, hadv.unique, hadv.own, fun u hu => ?_, fun u hu => ?_, fun u c hu => ?_⟩
      · simp only [Threads.states_setState] at hu
        by_cases hui : u = ⟨id, hid⟩
        · rw [hui, Function.update_self] at hu
          cases hu
        · exact hadv.blocked u (by rwa [Function.update_of_ne hui] at hu)
      · simp only [Threads.states_setState, Threads.currentThread_setState] at hu ⊢
        have hut : u = t := Option.some.inj (hu.symm.trans hc)
        rw [Function.update_of_ne (hut ▸ hne.symm)]
        exact h.current u hu
      · simp only [Threads.states_setState] at hu ⊢
        have hw := hadv.window u c hu
        by_cases hui : u = ⟨id, hid⟩
        · -- the woken thread would hold the lock that the waker holds
          have hu' : s.point u = .waitRelease c := by
            rwa [Function.update_of_ne (hui ▸ hne)] at hu
          have : u = t := h.unique u t (by rw [hu']; rfl) (by rw [hp]; rfl)
          exact absurd (hui ▸ this) hne
        · rw [Function.update_of_ne hui]
          exact hw
    · exact hadv
  · exact hadv

/-- A statement other than the one that blocks and the one that wakes leaves the thread table alone,
does not reach the window, and treats the lock as `Locking.advance` asks. -/
theorem statement_spec (p : Point) (sem : Semaphore) (s : Threads) (hb : ∀ c, p ≠ .waitBlock c)
    (hu : ∀ id, p ≠ .signalUnblock id) :
    (statement p sem s).2.2 = s ∧ (∀ c, (statement p sem s).1 ≠ .waitRelease c) ∧
      ((statement p sem s).1.index = p.index ∨ (statement p sem s).1.index = none ∨
        (statement p sem s).1.index = s.currentThread) ∧
      ((statement p sem s).1.holds = p.holds ∧ (statement p sem s).2.1.locked = sem.locked ∨
        sem.locked = false ∧ (statement p sem s).2.1.locked = true ∨
        p.holds = true ∧ (statement p sem s).1.holds = false) ∧
      (p.parked = true → (∀ c, p.index = some c → c = t) → s.states t = .blocked →
        (statement p sem s).1.parked = true) := by
  cases p with
  | waitBlock c => exact absurd rfl (hb c)
  | signalUnblock id => exact absurd rfl (hu id)
  | waitAcquire | signalAcquire | signalShift id i =>
    simp only [statement]
    split <;> simp_all [Point.index, Point.holds, Point.parked]
  | waitTest | signalTest =>
    simp only [statement]
    split <;> simp [Point.index, Point.holds, Point.parked]
  | waitRoom c =>
    cases c with
    | none => simp [statement, Point.index, Point.holds, Point.parked]
    | some c =>
      simp only [statement]
      split <;> simp [Point.index, Point.holds, Point.parked]
  | waitHalt c =>
    simp only [statement]
    split
    · simp [Point.index, Point.holds, Point.parked]
    · rename_i hne
      refine ⟨trivial, nofun, Or.inr (Or.inl rfl), Or.inl ⟨rfl, trivial⟩, fun _ hown hst => absurd ?_ hne⟩
      rw [hown c rfl]
      exact hst
  | _ => simp [statement, Point.index, Point.holds, Point.parked]

/-- Every action keeps the invariant. -/
theorem Locking.step {a : SyncAct} {s' : SyncState} (h : Locking s) (hs : syncStep base s a = some s') :
    Locking s' := by
  cases a with
  | tick esp =>
    cases hs
    exact h.sched (schedStep_moves h.coherent (.tick esp)) rfl nofun nofun
  | create entry =>
    cases hs
    exact h.sched (schedStep_moves h.coherent (.create entry)) rfl nofun nofun
  | setPolicy policy =>
    cases hs
    exact h.sched (schedStep_moves h.coherent (.setPolicy policy)) rfl nofun nofun
  | callWait =>
    obtain ⟨t, hc, hs⟩ := Option.bind_eq_some_iff.1 hs
    obtain ⟨hp, ⟨⟩⟩ := Option.ite_none_right_eq_some.1 hs
    exact h.advance nofun nofun (fun hb => absurd hb (h.not_blocked (by rw [hp]; rfl)))
      (Or.inl ⟨by rw [hp]; rfl, rfl⟩)
  | callSignal =>
    obtain ⟨t, hc, hs⟩ := Option.bind_eq_some_iff.1 hs
    obtain ⟨hp, ⟨⟩⟩ := Option.ite_none_right_eq_some.1 hs
    exact h.advance nofun nofun (fun hb => absurd hb (h.not_blocked (by rw [hp]; rfl)))
      (Or.inl ⟨by rw [hp]; rfl, rfl⟩)
  | execute =>
    obtain ⟨t, hc, hs⟩ := Option.bind_eq_some_iff.1 hs
    obtain ⟨hout, hs⟩ := Option.ite_none_left_eq_some.1 hs
    obtain rfl := Option.some.inj hs
    cases hp : s.point t with
    | out => exact absurd hp hout
    | waitBlock c =>
      simp only [SyncState.execute, hp, statement]
      exact h.block hc hp
    | signalUnblock id =>
      simp only [SyncState.execute, hp, statement]
      exact h.unblock hc hp
    | _ =>
      obtain ⟨hthreads, hwin, hidx, hlock, hpark⟩ := statement_spec (s.point t) s.sem s.sched.toThreads
        (by rw [hp]; exact nofun) (by rw [hp]; exact nofun)
      simp only [SyncState.execute, hthreads]
      refine h.advance (fun c hi => ?_) hwin (fun hb => hpark (h.blocked t hb) (h.own t) hb) hlock
      rcases hidx with hidx | hidx | hidx
      · exact h.own t c (hidx ▸ hi)
      · rw [hidx] at hi; cases hi
      · rw [hidx, hc] at hi; exact (Option.some.inj hi).symm

end Step

/-! ## The window -/

/-- The action is not a tick that finds the current thread at the release after it has blocked
itself while another thread is ready. -/
def OutsideWindow (s : SyncState) (a : SyncAct) : Prop :=
  ∀ esp, a = .tick esp → ∀ t c, s.sched.currentThread = some t → s.point t = .waitRelease c →
    ∀ u, s.sched.states u ≠ .ready

section Window

variable {base : Word} {s : SyncState}

theorem Locking.noneStuck_iff (h : Locking s) :
    s.NoneStuck ↔ ∀ t c, s.point t = .waitRelease c → s.sched.currentThread = some t := by
  refine ⟨fun hn t c hp => ?_, fun hw t hb hh => ?_⟩
  · have hholds : (s.point t).holds = true := by rw [hp]; rfl
    exact hn t (h.window t c hp) ⟨h.locked t hholds, hholds⟩
  · have hpark := h.blocked t hb
    have hholds := hh.2
    cases hp : s.point t with
    | waitRelease c => exact hw t c hp
    | waitHalt c => rw [hp] at hholds; cases hholds
    | _ => rw [hp] at hpark; cases hpark

/-- A move of the current thread reaches the window for itself only. -/
theorem SyncState.execute_window {t u : Fin threadMax} {c : Fin threadMax}
    (hp : (s.execute t).point u = .waitRelease c) : u = t ∨ s.point u = .waitRelease c := by
  by_cases hut : u = t
  · exact Or.inl hut
  · right
    simpa [SyncState.execute, Function.update_of_ne hut] using hp

theorem statement_currentThread (p : Point) (sem : Semaphore) (s : Threads) :
    (statement p sem s).2.2.currentThread = s.currentThread := by
  by_cases hb : ∃ c, p = .waitBlock c
  · obtain ⟨c, rfl⟩ := hb
    simp only [statement, threadBlockCurrent]
    split
    · rfl
    · split <;> rfl
  · by_cases hu : ∃ id, p = .signalUnblock id
    · obtain ⟨id, rfl⟩ := hu
      simp only [statement, threadUnblock, unblockAt]
      split
      · split <;> rfl
      · rfl
    · rw [(@statement_spec 0 p sem s (fun c h => hb ⟨c, h⟩) fun id h => hu ⟨id, h⟩).1]

/-- An action of the current thread that is not a tick opens no other thread's window. -/
theorem window_kept {a : SyncAct} {s' : SyncState} {t : Fin threadMax}
    (hn : ∀ t c, s.point t = .waitRelease c → s.sched.currentThread = some t) (hc : s.sched.currentThread = some t)
    (hcur : s'.sched.currentThread = s.sched.currentThread)
    (hwin : ∀ u c, s'.point u = .waitRelease c → u = t ∨ s.point u = .waitRelease c) (ha : ∀ esp, a ≠ .tick esp) :
    (∀ t c, s'.point t = .waitRelease c → s'.sched.currentThread = some t) ↔ OutsideWindow s a := by
  refine iff_of_true (fun u c hp => ?_) fun esp he => absurd he (ha esp)
  rcases hwin u c hp with rfl | hp
  · exact hcur.trans hc
  · exact hcur.trans (hn u c hp)

/-- A tick takes the processor from a thread in its window exactly if another thread is ready. -/
theorem Locking.window_tick {esp : Word} {s' : SyncState} (h : Locking s)
    (hn : ∀ t c, s.point t = .waitRelease c → s.sched.currentThread = some t)
    (hs : syncStep base s (.tick esp) = some s') :
    (∀ t c, s'.point t = .waitRelease c → s'.sched.currentThread = some t) ↔ OutsideWindow s (.tick esp) := by
  cases hs
  obtain ⟨c, hc, hu⟩ := h.coherent.current
  have hdem : ∀ d, s.point c = .waitRelease d → demoted s.sched.states c = s.sched.states := by
    intro d hp
    have hb := h.window c d hp
    funext i
    by_cases hi : i = c
    · subst hi; rw [demoted_self, if_neg (by rw [hb]; exact ThreadState.noConfusion)]
    · exact demoted_of_ne hi
  obtain ⟨⟨hnone, -, -, hcur⟩ | ⟨next, -, hr, -, -, hcur⟩, -⟩ := schedulerTick_spec hc hu esp
  · refine iff_of_true (fun t d hp => hcur.trans (hc.symm.trans (hn t d hp))) fun e he t d ht hp u => ?_
    cases Option.some.inj (hc.symm.trans ht)
    rw [← hdem d hp]
    exact hnone u
  · by_cases hw : ∃ d, s.point c = .waitRelease d
    · obtain ⟨d, hp⟩ := hw
      rw [hdem d hp] at hr
      refine iff_of_false (fun hall => ?_) fun hout => hout esp rfl c d hc hp next hr
      have hcn : c = next := Option.some.inj ((hall c d hp).symm.trans hcur)
      rw [← hcn, h.window c d hp] at hr
      cases hr
    · have hno : ∀ t d, s.point t ≠ .waitRelease d := by
        intro t d hp
        cases Option.some.inj (hc.symm.trans (hn t d hp))
        exact hw ⟨d, hp⟩
      exact iff_of_true (fun t d hp => absurd hp (hno t d)) fun e he t d ht hp => absurd hp (hno t d)

/-- One action keeps the lock away from the blocked threads exactly when it is outside the window. -/
theorem Locking.noneStuck_step {a : SyncAct} {s' : SyncState} (h : Locking s) (hn : s.NoneStuck)
    (hs : syncStep base s a = some s') : s'.NoneStuck ↔ OutsideWindow s a := by
  rw [(h.step hs).noneStuck_iff]
  rw [h.noneStuck_iff] at hn
  cases a with
  | tick esp => exact h.window_tick hn hs
  | create entry =>
    cases hs
    obtain ⟨c, hc, -⟩ := h.coherent.current
    refine window_kept hn hc ?_ (fun u d hp => Or.inr hp) fun _ => SyncAct.noConfusion
    simp only [schedStep, Scheduler.onThreads, threadCreate]
    split
    · rfl
    · split <;> rfl
  | setPolicy policy =>
    cases hs
    obtain ⟨c, hc, -⟩ := h.coherent.current
    refine window_kept hn hc ?_ (fun u d hp => Or.inr hp) fun _ => SyncAct.noConfusion
    simp only [schedStep, schedulerSetPolicy]
    split <;> rfl
  | callWait =>
    obtain ⟨t, hc, hs⟩ := Option.bind_eq_some_iff.1 hs
    obtain ⟨hp, ⟨⟩⟩ := Option.ite_none_right_eq_some.1 hs
    refine window_kept hn hc rfl (fun u d hu => ?_) fun _ => SyncAct.noConfusion
    by_cases hut : u = t
    · exact Or.inl hut
    · exact Or.inr (by simpa [SyncState.moveTo, Function.update_of_ne hut] using hu)
  | callSignal =>
    obtain ⟨t, hc, hs⟩ := Option.bind_eq_some_iff.1 hs
    obtain ⟨hp, ⟨⟩⟩ := Option.ite_none_right_eq_some.1 hs
    refine window_kept hn hc rfl (fun u d hu => ?_) fun _ => SyncAct.noConfusion
    by_cases hut : u = t
    · exact Or.inl hut
    · exact Or.inr (by simpa [SyncState.moveTo, Function.update_of_ne hut] using hu)
  | execute =>
    obtain ⟨t, hc, hs⟩ := Option.bind_eq_some_iff.1 hs
    obtain ⟨hout, hs⟩ := Option.ite_none_left_eq_some.1 hs
    obtain rfl := Option.some.inj hs
    exact window_kept hn hc (statement_currentThread ..) (fun u d hp => SyncState.execute_window hp)
      fun _ => SyncAct.noConfusion

end Window

/-- The states of a run, from its start to where it ends or gets stuck. -/
def Visits (base : Word) (s : SyncState) (acts : List SyncAct) (P : SyncState → Prop) : Prop :=
  ∀ before after, acts = before ++ after → ∀ s' ∈ Trace.exec (syncStep base) s before, P s'

theorem visits_cons {base : Word} {s : SyncState} {a : SyncAct} {acts : List SyncAct} {P : SyncState → Prop} :
    Visits base s (a :: acts) P ↔ P s ∧ ∀ s' ∈ syncStep base s a, Visits base s' acts P := by
  refine ⟨fun h => ⟨h [] (a :: acts) rfl s rfl, fun s' hs before after he u hu => ?_⟩, ?_⟩
  · refine h (a :: before) after (by rw [he]; rfl) u ?_
    simp only [Trace.exec, Option.mem_def] at hs hu ⊢
    rw [hs]
    exact hu
  · rintro ⟨h, hrest⟩ before after he u hu
    cases before with
    | nil => cases hu; exact h
    | cons b before =>
      obtain ⟨rfl, he'⟩ := List.cons.inj he
      obtain ⟨s', hs', hu⟩ := Option.bind_eq_some_iff.1 hu
      exact hrest s' hs' before after he' u hu

/-- A run of any number of threads, statement by statement, never leaves a blocked thread with the
semaphore's lock while another thread has the processor, exactly when no tick of it falls between
`thread_block_current` and the release of the lock with another thread ready. -/
theorem semaphore_noneStuck (base : Word) (s₀ : Threads) (initialCount : Int) (acts : List SyncAct) :
    Visits base (syncBoot s₀ initialCount) acts SyncState.NoneStuck ↔
      Trace.Along (syncStep base) OutsideWindow (syncBoot s₀ initialCount) acts := by
  have hn : (syncBoot s₀ initialCount).NoneStuck := fun t _ hh => by cases hh.2
  have h := syncBoot_locking s₀ initialCount
  generalize syncBoot s₀ initialCount = s at hn h
  induction acts generalizing s with
  | nil =>
    refine iff_of_true (fun before after he s' hs => ?_) trivial
    obtain ⟨rfl, -⟩ := List.append_eq_nil_iff.1 he.symm
    cases hs
    exact hn
  | cons a acts ih =>
    rw [visits_cons]
    simp only [Trace.Along, hn, true_and]
    cases hs : syncStep base s a with
    | none =>
      -- a tick is always possible
      have : OutsideWindow s a := fun esp he => by rw [he] at hs; cases hs
      simp [this]
    | some s' =>
      have hstep := h.noneStuck_step hn hs
      simp only [Option.mem_def, Option.some.injEq, forall_eq']
      constructor
      · intro hv
        have hn' : s'.NoneStuck := hv [] acts rfl s' rfl
        exact ⟨hstep.1 hn', (ih s' hn' (h.step hs)).1 hv⟩
      · rintro ⟨hok, hv⟩
        exact (ih s' (hstep.2 hok) (h.step hs)).2 hv

/-- The bootstrap thread waits on an empty semaphore and the tick comes right after it has blocked
itself: the second thread runs, and the lock is held by a thread no tick will select. -/
theorem semaphore_stuck :
    ∃ s, Trace.exec (syncStep 0) (syncBoot blankThreads 0)
        [.create 1, .callWait, .execute, .execute, .execute, .execute, .execute, .execute, .tick 0] = some s ∧
      s.sched.currentThread = some 1 ∧ s.sched.states 0 = .blocked ∧ s.Holds 0 ∧ ¬ s.NoneStuck := by
  refine ⟨_, rfl, rfl, rfl, ⟨rfl, rfl⟩, fun h => ?_⟩
  exact absurd (h 0 rfl ⟨rfl, rfl⟩) (by decide)

end SpectreOS
